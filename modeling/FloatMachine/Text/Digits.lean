/-! Runs of decimal digits, ASCII alone, and the numbers they stand for. -/
namespace FloatMachine.Text

def allDigits (s : List Char) : Bool := !s.isEmpty && s.all Char.isDigit

def digitsValue (s : List Char) : Nat :=
  s.foldl (fun n c => 10 * n + (c.toNat - '0'.toNat)) 0

/-- A number below `bound`, written with digits alone; leading zeros count for nothing. -/
def index? (bound : Nat) (s : List Char) : Option Nat :=
  if allDigits s && decide (digitsValue s < bound) then some (digitsValue s) else none

/-- An index that may also carry a plus sign. -/
def number? (bound : Nat) : List Char → Option Nat
  | '+' :: s => index? bound s
  | s => index? bound s

end FloatMachine.Text
