import FloatMachine.Binary32.Basic
import FloatMachine.Text.Digits

/-! Decimal literals: an optional sign, digits, and optionally a point with more digits.
A literal denotes the nearest number; one that would round to infinity denotes nothing. -/
namespace FloatMachine.Binary32

open Text (allDigits digitsValue)

/-- The number nearest to `digits / 10 ^ places`. -/
def ofDecimal (negative : Bool) (digits places : Nat) : Binary32 :=
  ofMagnitude negative (nearestRatio (digits * unitsOfOne) (Nat.pow 10 places))

def signed : List Char → Bool × List Char
  | '-' :: s => (true, s)
  | '+' :: s => (false, s)
  | s => (false, s)

def finite? (x : Binary32) : Option Binary32 := if x.isFinite then some x else none

def parse? (s : List Char) : Option Binary32 :=
  let (negative, unsigned) := signed s
  let whole := unsigned.takeWhile (· != '.')
  match unsigned.dropWhile (· != '.') with
  | [] => if allDigits whole then finite? (ofDecimal negative (digitsValue whole) 0) else none
  | _ :: fraction =>
    if allDigits whole && allDigits fraction then
      finite? (ofDecimal negative (digitsValue (whole ++ fraction)) fraction.length)
    else none

end FloatMachine.Binary32
