import FloatMachine.Binary32.Decimal
import FloatMachine.Machine.Bus
import FloatMachine.Text.Lines
import FloatMachine.Text.Blank

/-! A table that can only be read: register `i` holds entry `i`. Its text form is numbers
between blanks, and `#` starts a comment up to the end of the line. -/
namespace FloatMachine

structure LookupTable where
  entries : Array Binary32
deriving DecidableEq, Repr

namespace LookupTable

/-- The first word that is no number, and its line. -/
structure Error where
  line : Nat
  word : String
deriving DecidableEq, Repr

def Error.message (e : Error) : String := s!"line {e.line}: `{e.word}` is not a number"

def readWord (line : Nat) (word : List Char) : Except Error Binary32 :=
  match Binary32.parse? word with
  | some v => .ok v
  | none => .error ⟨line, String.ofList word⟩

def readLine (line : Nat) (raw : List Char) : Except Error (List Binary32) :=
  (Text.words (raw.takeWhile (· != '#'))).mapM (readWord line)

def parse (text : String) : Except Error LookupTable := do
  let found ← ((Text.lines text.toList).zipIdx 1).mapM fun (raw, line) => readLine line raw
  return ⟨found.flatten.toArray⟩

instance : Device LookupTable where
  read t register := (t.entries[register.toNat]?, t)
  write t _ _ := (false, t)

end LookupTable
end FloatMachine
