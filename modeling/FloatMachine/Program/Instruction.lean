import FloatMachine.Program.Operation
import FloatMachine.Program.Operand

/-! One decoded source line, and what a sequence of them asks of a machine. -/
namespace FloatMachine

/-- Jumps name the `line` an instruction was written on, not its place in the sequence. -/
structure Instruction where
  operation : Operation
  destination : Option Destination
  left : Operand
  right : Operand
  line : UInt64
  text : String
deriving DecidableEq, Repr

namespace Instruction

/-- The source form: operands that the shape does not use are left out. -/
def toText (i : Instruction) : String :=
  " ".intercalate (i.operation.mnemonic :: (i.destination.toList.map Destination.toText ++
    ([i.left, i.right].take i.operation.shape.operandCount).map Operand.toText))

/-- Every place the instruction names, used by its shape or not. -/
def touched (i : Instruction) : List Operand :=
  i.destination.toList.map Destination.toOperand ++ [i.left, i.right]

/-- A destination is there exactly when the shape takes one. -/
def WellShaped (i : Instruction) : Prop :=
  i.destination.isSome = i.operation.shape.hasDestination

instance (i : Instruction) : Decidable i.WellShaped := inferInstanceAs (Decidable (_ = _))

def codec : Codec Instruction where
  writes i := Operation.codec.writes i.operation ++
    (Codec.option Destination.codec).writes i.destination ++ Operand.codec.writes i.left ++
    Operand.codec.writes i.right ++ Codec.u64.writes i.line ++ Codec.text.writes i.text
  decode := do
    let operation ← Operation.codec.decode
    let destination ← (Codec.option Destination.codec).decode
    let left ← Operand.codec.decode
    let right ← Operand.codec.decode
    let line ← Codec.u64.decode
    let text ← Codec.text.decode
    return { operation, destination, left, right, line, text }

end Instruction

/-- The least capacities a machine needs. -/
structure Requirements where
  registers : UInt64
  stack : UInt64
  devices : UInt64
deriving DecidableEq, Repr

/-- Needs counted while instructions are read from top to bottom. -/
structure Tally where
  registers : Nat := 0
  stack : Nat := 0
  devices : Nat := 0
  depth : Nat := 0
deriving DecidableEq, Repr

namespace Tally

def touch (t : Tally) : Operand → Tally
  | .register i => { t with registers := max t.registers (i.toNat + 1) }
  | .device a => { t with devices := max t.devices (a.slot.toNat + 1) }
  | .literal _ | .stackPointer | .returnAddress => t

/-- The depth after an operation, taken in source order. -/
def move (t : Tally) : Operation → Tally
  | .push => { t with depth := t.depth + 1, stack := max t.stack (t.depth + 1) }
  | .pop => { t with depth := t.depth - 1, stack := max t.stack (t.depth - 1) }
  | .peek => { t with stack := max (max t.stack 1) t.depth }
  | _ => { t with stack := max t.stack t.depth }

def count (t : Tally) (i : Instruction) : Tally := (i.touched.foldl touch t).move i.operation

end Tally

namespace Requirements

def of (is : List Instruction) : Requirements :=
  let t := is.foldl Tally.count {}
  ⟨UInt64.ofNat t.registers, UInt64.ofNat t.stack, UInt64.ofNat t.devices⟩

def codec : Codec Requirements where
  writes r := Codec.u64.writes r.registers ++ Codec.u64.writes r.stack ++
    Codec.u64.writes r.devices
  decode := do return ⟨← Codec.u64.decode, ← Codec.u64.decode, ← Codec.u64.decode⟩

end Requirements
end FloatMachine
