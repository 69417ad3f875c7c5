import FloatMachine.Assembly.Error
import FloatMachine.Assembly.Token
import FloatMachine.Program.Image
import FloatMachine.Text.Lines

/-! Source text to program. Each line holds at most one instruction and keeps its number, so
blank lines and comments count too; the first bad line ends the assembly. -/
namespace FloatMachine.Assembly

open Text (index?)

/-- A token that is wrong, and its column. -/
abbrev Reading (α : Type) := Except (Cause × Nat) α

def register? : List Char → Option UInt32
  | 'r' :: digits => (index? 0x100000000 digits).map UInt32.ofNat
  | _ => none

def device? : List Char → Option DeviceAddress
  | 'd' :: rest =>
    match rest.dropWhile (· != ':') with
    | [] => none
    | _ :: register => do
      let slot ← index? 0x10000 (rest.takeWhile (· != ':'))
      let register ← index? 0x10000 register
      return ⟨UInt16.ofNat slot, UInt16.ofNat register⟩
  | _ => none

def destination? (word : List Char) : Option Destination :=
  if word = ['s', 'p'] then some .stackPointer
  else if word = ['r', 'a'] then some .returnAddress
  else ((register? word).map .register).orElse fun _ => (device? word).map .device

def operand? (word : List Char) : Option Operand :=
  ((Binary32.parse? word).map .literal).orElse fun _ =>
    (destination? word).map Destination.toOperand

def readDestination (t : Token) : Reading Destination :=
  match destination? t.text with
  | some d => .ok d
  | none =>
    let word := String.ofList t.text
    .error (if (Binary32.parse? t.text).isSome then .literalDestination word
      else .invalidDestination word, t.column)

def readOperand (t : Token) : Reading Operand :=
  match operand? t.text with
  | some o => .ok o
  | none => .error (.invalidOperand (String.ofList t.text), t.column)

/-- Words kept for operations that this machine does not have. -/
def reserved : List String := ["alloc", "free", "load", "store"]

def readMnemonic (t : Token) : Reading Operation :=
  let word := String.ofList t.text
  match Operation.ofMnemonic? word with
  | some op => .ok op
  | none =>
    .error (if word ∈ reserved then .reservedMnemonic word else .unknownMnemonic word, t.column)

/-- The tokens after the mnemonic: a destination if the shape has one, then operands; the
positions left over hold the unused operand. -/
def readArguments (op : Operation) (args : List Token) :
    Reading (Option Destination × Operand × Operand) := do
  let (destination, sources) ←
    match op.shape.hasDestination, args with
    | true, d :: rest => do pure (some (← readDestination d), rest)
    | _, rest => pure (none, rest)
  match ← sources.mapM readOperand with
  | [] => return (destination, .unused, .unused)
  | [left] => return (destination, left, .unused)
  | left :: right :: _ => return (destination, left, right)

/-- A surplus token is blamed itself; for missing ones the mnemonic is. -/
def readInstruction (line : Nat) (code : List Char) : Reading Instruction :=
  match tokens code with
  | [] => .error (.noMnemonic, 1)
  | head :: args => do
    let operation ← readMnemonic head
    let arity := operation.shape.arity
    if args.length ≠ arity then
      throw (.wrongCount operation args.length, ((args[arity]?).getD head).column)
    let (destination, left, right) ← readArguments operation args
    return { operation, destination, left, right, line := UInt64.ofNat line,
             text := String.ofList (Text.trim code) }

def readLine (line : Nat) (raw : List Char) : Except Error (Option Instruction) :=
  let code := stripComment raw
  if code.all Text.isBlank then .ok none
  else
    match readInstruction line code with
    | .ok i => .ok (some i)
    | .error (cause, column) => .error ⟨cause, line, column, String.ofList raw⟩

def readLines (source : List Char) : Except Error (List (Option Instruction)) :=
  ((Text.lines source).zipIdx 1).mapM fun (raw, line) => readLine line raw

def assemble (source : String) : Except Error Program := do
  return Program.ofInstructions ((← readLines source.toList).filterMap id)

end FloatMachine.Assembly
