import FloatMachine.Machine.Bus
import FloatMachine.Machine.Config
import FloatMachine.Machine.Stack

/-! The machine and the effect of one instruction. Both operands are read before anything is
written, whether the operation uses them or not. -/
namespace FloatMachine

structure Machine (δ : Type) where
  config : Config
  registers : Array Binary32
  stack : Stack
  returnAddress : Binary32
  bus : Bus δ
  lastError : Option ExecutionError

/-- Where the run goes on after a step; a target is a place in the sequence. -/
inductive Flow
  | next
  | jump (target : Nat)
  | halt
deriving DecidableEq, Repr

namespace Machine

variable {δ : Type}

/-- A machine with empty slots, and the devices its host may plug into them. -/
def new (c : Config) (devices : Array δ) : Machine δ where
  config := c
  registers := Array.replicate c.registers .zero
  stack := Stack.empty c.stack
  returnAddress := .zero
  bus := Bus.empty c.devices devices
  lastError := none

/-- All but the slots and devices back to the start. -/
def reset (m : Machine δ) : Machine δ :=
  { m with
    registers := Array.replicate m.registers.size .zero
    stack := m.stack.reset
    returnAddress := .zero
    bus := { m.bus with accesses := #[] } }

def attach (m : Machine δ) (slot device : Nat) : Bool × Machine δ :=
  let (done, bus) := m.bus.plug slot (some device)
  (done, { m with bus })

def detach (m : Machine δ) (slot : Nat) : Bool × Machine δ :=
  let (done, bus) := m.bus.plug slot none
  (done, { m with bus })

abbrev Action (δ α : Type) := ExceptT Fault (StateM (Machine δ)) α

def onStack {α : Type} (act : Stack.Action α) : Action δ α := fun m =>
  let (result, stack) := act m.stack
  (result, { m with stack })

def onBus {α : Type} (act : Bus.Action δ α) : Action δ α := fun m =>
  let (result, bus) := act m.bus
  (result, { m with bus })

def readRegister (i : UInt32) : Action δ Binary32 := fun m =>
  match m.registers[i.toNat]? with
  | some v => (.ok v, m)
  | none => (.error .registerOutOfBound, m)

def writeRegister (i : UInt32) (v : Binary32) : Action δ Unit := fun m =>
  if h : i.toNat < m.registers.size then
    (.ok (), { m with registers := m.registers.set i.toNat v h })
  else (.error .registerOutOfBound, m)

variable [Device δ]

def read : Operand → Action δ Binary32
  | .literal v => return v
  | .register i => readRegister i
  | .stackPointer => return .ofNat (← get).stack.pointer
  | .returnAddress => return (← get).returnAddress
  | .device a => onBus (Bus.read a)

def write (d : Destination) (v : Binary32) : Action δ Unit :=
  match d with
  | .register i => writeRegister i v
  | .stackPointer => onStack (Stack.setPointer v)
  | .returnAddress => modify fun m => { m with returnAddress := v }
  | .device a => onBus (Bus.write a v)

/-- Equality up to the distance from one to the next number. -/
def nearlyEqual (a b : Binary32) : Bool := (a.sub b).abs.lt .epsilon

def flag (condition : Bool) : Binary32 := if condition then .one else .zero

def destinationOf (i : Instruction) : Action δ Destination :=
  match i.destination with
  | some d => return d
  | none => throw .operationNotImplemented

/-- Results must stay numbers. -/
def number (v : Binary32) : Action δ Binary32 := if v.isNaN then throw .notANumber else return v

/-- The place of the first instruction written on a line. -/
def lineOf (program : List Instruction) (target : Binary32) : Option Nat := do
  let n ← target.toNat?
  program.findIdx? fun i => i.line.toNat == Stack.saturated n

def jumpTo (program : List Instruction) (target : Binary32) : Action δ Nat :=
  match lineOf program target with
  | some place => return place
  | none => throw .invalidJump

/-- The line of the first instruction that stands more than one line further on, or zero. The line
after the greatest one is line 0, as words wrap around. -/
def returnLine (program : List Instruction) (line : UInt64) : Binary32 :=
  match program.find? fun i => decide (line + 1 < i.line) with
  | some i => .ofNat i.line.toNat
  | none => .zero

def store (i : Instruction) (result : Binary32) : Action δ Flow := do
  write (← destinationOf i) (← number result)
  return .next

def storeFlag (i : Instruction) (condition : Bool) : Action δ Flow := do
  write (← destinationOf i) (flag condition)
  return .next

def adjust (i : Instruction) (change : Binary32) : Action δ Flow := do
  let d ← destinationOf i
  write d (← number ((← read d.toOperand).add change))
  return .next

/-- A value that cannot be stored stays on the stack. -/
def popInto (d : Destination) : Action δ Unit := do
  let v ← onStack Stack.pop
  tryCatch (write d v) fun fault => do
    onStack (Stack.push v)
    throw fault

def step (program : List Instruction) (i : Instruction) : Action δ Flow := do
  let a ← read i.left
  let b ← read i.right
  match i.operation with
  | .nop => return .next
  | .move =>
    write (← destinationOf i) a
    return .next
  | .squareRoot =>
    if a.lt .zero then throw .notANumber
    store i a.sqrt
  | .assert =>
    let current ← read (← destinationOf i).toOperand
    if nearlyEqual current a then return .next
    throw .assertFailed
  | .add => store i (a.add b)
  | .subtract => store i (a.sub b)
  | .multiply => store i (a.mul b)
  | .divide =>
    if b.isZero then throw .divisionByZero
    store i (a.div b)
  | .increment => adjust i .one
  | .decrement => adjust i .minusOne
  | .equal => storeFlag i (nearlyEqual a b)
  | .notEqual => storeFlag i (!nearlyEqual a b)
  | .greater => storeFlag i (b.lt a)
  | .greaterOrEqual => storeFlag i (b.le a)
  | .lesser => storeFlag i (a.lt b)
  | .lesserOrEqual => storeFlag i (a.le b)
  | .push =>
    onStack (Stack.push (← read (← destinationOf i).toOperand))
    return .next
  | .pop =>
    popInto (← destinationOf i)
    return .next
  | .peek =>
    let d ← destinationOf i
    let _ ← read d.toOperand
    write d (← onStack Stack.peek)
    return .next
  | .jump => return .jump (← jumpTo program a)
  | .jumpReturn =>
    let target ← jumpTo program a
    modify fun m => { m with returnAddress := returnLine program i.line }
    return .jump target
  | .ret => return .halt

end Machine
end FloatMachine
