/-! Single-precision numbers, kept bit for bit so that every not-a-number stays apart.
Every finite one is a whole number of units of 2^-149, so each operation is exact
arithmetic on units followed by one rounding, `nearest`, to the even neighbour. -/
namespace FloatMachine

structure Binary32 where
  bits : UInt32
deriving DecidableEq, Repr

namespace Binary32

instance : Inhabited Binary32 := ⟨⟨0⟩⟩

def signBit : Nat := 0x80000000

/-- The number of magnitudes in a binade. -/
def binade : Nat := 0x800000

/-- One, in units of 2^-149. -/
def unitsOfOne : Nat := Nat.pow 2 149

def negative (x : Binary32) : Bool := decide (signBit ≤ x.bits.toNat)

/-- The bits below the sign: magnitudes are ordered as the values they stand for. -/
def magnitude (x : Binary32) : Nat := x.bits.toNat % signBit

def infiniteMagnitude : Nat := 0x7f800000

def ofMagnitude (negative : Bool) (m : Nat) : Binary32 :=
  ⟨UInt32.ofNat (if negative then m + signBit else m)⟩

def zero : Binary32 := ⟨0⟩
def one : Binary32 := ⟨0x3f800000⟩
def minusOne : Binary32 := ⟨0xbf800000⟩
def nan : Binary32 := ⟨0x7fc00000⟩

/-- The distance from one to the next number, 2^-23. -/
def epsilon : Binary32 := ⟨0x34000000⟩

def isNaN (x : Binary32) : Bool := decide (infiniteMagnitude < x.magnitude)
def isInfinite (x : Binary32) : Bool := x.magnitude == infiniteMagnitude
def isFinite (x : Binary32) : Bool := decide (x.magnitude < infiniteMagnitude)
def isZero (x : Binary32) : Bool := x.magnitude == 0

/-- The value of a magnitude in units of 2^-149. Infinity stands one binade above the
greatest finite number, which is all that comparisons need of it. -/
def units (m : Nat) : Nat :=
  if m < binade then m else (binade + m % binade) * Nat.pow 2 (m / binade - 1)

def signedUnits (x : Binary32) : Int :=
  if x.negative then -(units x.magnitude : Int) else units x.magnitude

/-- The magnitude nearest to `halves / 2` units, or to a little more when `beyond` says
that something was cut off. A tie goes to the even magnitude, an overflow to infinity. -/
def nearest (halves : Nat) (beyond : Bool) : Nat :=
  let shift := (halves / 2).log2 - 23
  let kept := halves / Nat.pow 2 (shift + 1)
  let rest := halves % Nat.pow 2 (shift + 1)
  let half := Nat.pow 2 shift
  let up := decide (half < rest) || (rest == half && (beyond || kept % 2 == 1))
  min (shift * binade + kept + if up then 1 else 0) infiniteMagnitude

/-- The magnitude nearest to `numerator / denominator` units. -/
def nearestRatio (numerator denominator : Nat) : Nat :=
  nearest (2 * numerator / denominator) (2 * numerator % denominator != 0)

/-- The greatest number whose square is at most `n`. -/
def squareRoot (n : Nat) : Nat :=
  if n = 0 then 0
  else
    let r := 2 * squareRoot (n / 4)
    if (r + 1) * (r + 1) ≤ n then r + 1 else r
termination_by n

def neg (x : Binary32) : Binary32 := ofMagnitude (!x.negative) x.magnitude
def abs (x : Binary32) : Binary32 := ofMagnitude false x.magnitude

def add (x y : Binary32) : Binary32 :=
  if x.isNaN || y.isNaN then nan
  else if x.isInfinite then
    if y.isInfinite && x.negative != y.negative then nan else x
  else if y.isInfinite then y
  else
    let sum := x.signedUnits + y.signedUnits
    if sum = 0 then ofMagnitude (x.negative && y.negative) 0
    else ofMagnitude (decide (sum < 0)) (nearest (2 * sum.natAbs) false)

def sub (x y : Binary32) : Binary32 := add x y.neg

def mul (x y : Binary32) : Binary32 :=
  let sign := x.negative != y.negative
  if x.isNaN || y.isNaN then nan
  else if x.isInfinite || y.isInfinite then
    if x.isZero || y.isZero then nan else ofMagnitude sign infiniteMagnitude
  else ofMagnitude sign (nearestRatio (units x.magnitude * units y.magnitude) unitsOfOne)

def div (x y : Binary32) : Binary32 :=
  let sign := x.negative != y.negative
  if x.isNaN || y.isNaN || (x.isInfinite && y.isInfinite) || (x.isZero && y.isZero) then nan
  else if x.isInfinite || y.isZero then ofMagnitude sign infiniteMagnitude
  else if y.isInfinite then ofMagnitude sign 0
  else ofMagnitude sign (nearestRatio (units x.magnitude * unitsOfOne) (units y.magnitude))

def sqrt (x : Binary32) : Binary32 :=
  if x.isZero then x
  else if x.isNaN || x.negative then nan
  else if x.isInfinite then x
  else
    let square := 4 * units x.magnitude * unitsOfOne
    let root := squareRoot square
    ofMagnitude false (nearest root (root * root != square))

/-- No comparison holds of what is not a number. -/
def lt (x y : Binary32) : Bool :=
  !x.isNaN && !y.isNaN && decide (x.signedUnits < y.signedUnits)

def le (x y : Binary32) : Bool :=
  !x.isNaN && !y.isNaN && decide (x.signedUnits ≤ y.signedUnits)

def ofNat (n : Nat) : Binary32 := ofMagnitude false (nearest (2 * (n * unitsOfOne)) false)

/-- The natural number that a finite value equals; negative zero equals zero. -/
def toNat? (x : Binary32) : Option Nat :=
  if x.isFinite && decide (0 ≤ x.signedUnits) && units x.magnitude % unitsOfOne == 0 then
    some (units x.magnitude / unitsOfOne)
  else none

end Binary32
end FloatMachine
