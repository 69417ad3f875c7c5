import FloatMachine.Codec.Basic

/-! The operations, each with a mnemonic, an opcode and a shape: what follows the mnemonic
in source text. -/
namespace FloatMachine

inductive Shape
  | nullary
  | target
  | destination
  | unary
  | binary
deriving DecidableEq, Repr

namespace Shape

def name : Shape → String
  | .nullary => "Nullary"
  | .target => "Target"
  | .destination => "Destination"
  | .unary => "Unary"
  | .binary => "Binary"

def hasDestination : Shape → Bool
  | .nullary | .target => false
  | .destination | .unary | .binary => true

def operandCount : Shape → Nat
  | .nullary | .destination => 0
  | .target | .unary => 1
  | .binary => 2

/-- The number of tokens after the mnemonic. -/
def arity (s : Shape) : Nat := s.operandCount + if s.hasDestination then 1 else 0

end Shape

inductive Operation
  | nop
  | move
  | squareRoot
  | assert
  | add
  | subtract
  | multiply
  | divide
  | increment
  | decrement
  | equal
  | notEqual
  | greater
  | greaterOrEqual
  | lesser
  | lesserOrEqual
  | push
  | pop
  | peek
  | jump
  | jumpReturn
  | ret
deriving DecidableEq, Repr

namespace Operation

/-- In the order of the table. -/
def all : List Operation :=
  [.nop, .move, .squareRoot, .assert, .add, .subtract, .multiply, .divide, .increment,
   .decrement, .equal, .notEqual, .greater, .greaterOrEqual, .lesser, .lesserOrEqual,
   .push, .pop, .peek, .jump, .jumpReturn, .ret]

def name : Operation → String
  | .nop => "Nop"
  | .move => "Move"
  | .squareRoot => "SquareRoot"
  | .assert => "Assert"
  | .add => "Add"
  | .subtract => "Subtract"
  | .multiply => "Multiply"
  | .divide => "Divide"
  | .increment => "Increment"
  | .decrement => "Decrement"
  | .equal => "Equal"
  | .notEqual => "NotEqual"
  | .greater => "GreaterThan"
  | .greaterOrEqual => "GreaterThanOrEqual"
  | .lesser => "LesserThan"
  | .lesserOrEqual => "LesserThanOrEqual"
  | .push => "Push"
  | .pop => "Pop"
  | .peek => "Peek"
  | .jump => "Jump"
  | .jumpReturn => "JumpReturnAddress"
  | .ret => "Ret"

def mnemonic : Operation → String
  | .nop => "nop"
  | .move => "mov"
  | .squareRoot => "sqrt"
  | .assert => "assert"
  | .add => "add"
  | .subtract => "sub"
  | .multiply => "mul"
  | .divide => "div"
  | .increment => "inc"
  | .decrement => "dec"
  | .equal => "eq"
  | .notEqual => "neq"
  | .greater => "gt"
  | .greaterOrEqual => "gte"
  | .lesser => "lt"
  | .lesserOrEqual => "lte"
  | .push => "push"
  | .pop => "pop"
  | .peek => "peek"
  | .jump => "jmp"
  | .jumpReturn => "jra"
  | .ret => "ret"

def opcode : Operation → UInt8
  | .nop => 0x00
  | .move => 0x01
  | .squareRoot => 0x02
  | .assert => 0x03
  | .add => 0x10
  | .subtract => 0x11
  | .multiply => 0x12
  | .divide => 0x13
  | .increment => 0x14
  | .decrement => 0x15
  | .equal => 0x20
  | .notEqual => 0x21
  | .greater => 0x22
  | .greaterOrEqual => 0x23
  | .lesser => 0x24
  | .lesserOrEqual => 0x25
  | .push => 0x30
  | .pop => 0x31
  | .peek => 0x32
  | .jump => 0x40
  | .jumpReturn => 0x41
  | .ret => 0x42

def shape : Operation → Shape
  | .nop | .ret => .nullary
  | .jump | .jumpReturn => .target
  | .increment | .decrement | .push | .pop | .peek => .destination
  | .move | .squareRoot | .assert => .unary
  | .add | .subtract | .multiply | .divide | .equal | .notEqual | .greater
  | .greaterOrEqual | .lesser | .lesserOrEqual => .binary

def ofMnemonic? (word : String) : Option Operation := all.find? (fun op => op.mnemonic == word)

def ofOpcode? (code : UInt8) : Option Operation := all.find? (fun op => op.opcode == code)

theorem ofMnemonic?_mnemonic (op : Operation) : ofMnemonic? op.mnemonic = some op := by
  cases op <;> rfl

theorem mnemonic_of_ofMnemonic? {word : String} {op : Operation}
    (h : ofMnemonic? word = some op) : op.mnemonic = word := by
  simpa using List.find?_some h

theorem ofOpcode?_opcode (op : Operation) : ofOpcode? op.opcode = some op := by
  cases op <;> decide

theorem opcode_of_ofOpcode? {code : UInt8} {op : Operation} (h : ofOpcode? code = some op) :
    op.opcode = code := by
  simpa using List.find?_some h

def codec : Codec Operation where
  writes op := Codec.u8.writes op.opcode
  decode := do
    match ofOpcode? (← Codec.u8.decode) with
    | some op => return op
    | none => throw .invalidValue

end Operation
end FloatMachine
