import FloatMachine.Binary32.Decimal

/-! The text of a number: the fewest decimal digits that read back as the same number.
A finite number is a whole number of 10^-149, so every decimal grid cuts its exact digits
after some place, and only the two neighbours on the grid can be nearest to it. -/
namespace FloatMachine.Binary32

/-- A finite magnitude as a whole number of 10^-149. -/
def exactDecimal (m : Nat) : Nat := units m * Nat.pow 5 149

def readsBack (m n : Nat) : Bool := nearestRatio n (Nat.pow 5 149) == m

/-- The neighbour of `m` on the grid of `10 ^ place` times 10^-149 that reads back: the
nearer of two, the upper one on a tie. -/
def neighbour? (m place : Nat) : Option Nat :=
  let grid := Nat.pow 10 place
  let exact := exactDecimal m
  let lower := exact / grid
  let upper := lower + 1
  if readsBack m (lower * grid) then
    if readsBack m (upper * grid) then
      some (if 2 * exact < (lower + upper) * grid then lower else upper)
    else some lower
  else if readsBack m (upper * grid) then some upper
  else none

/-- What the search finds at the greatest place below a given one, with that place; `exact` at
place zero if it finds nothing. -/
def coarsest (search : Nat → Option Nat) (exact : Nat) : Nat → Nat × Nat
  | 0 => (exact, 0)
  | place + 1 =>
    match search place with
    | some n => (n, place)
    | none => coarsest search exact place

/-- Digits and the place of the last one, in powers of ten above 10^-149: the coarsest grid
with a neighbour that reads back. -/
def shortest (m : Nat) : Nat × Nat :=
  coarsest (neighbour? m) (exactDecimal m) (Nat.toDigits 10 (exactDecimal m)).length

/-- The digits without trailing zeros, and the power of ten of the first digit. -/
def scientific (m : Nat) : List Char × Int :=
  let decimal := shortest m
  let digits := Nat.toDigits 10 decimal.1
  ((digits.reverse.dropWhile (· == '0')).reverse, (digits.length + decimal.2 : Int) - 150)

def zeros (n : Nat) : List Char := List.replicate n '0'

/-- Plain positional digits; `point` adds `.0` to a whole number. -/
def positional (digits : List Char) (leading : Int) (point : Bool) : List Char :=
  if leading < 0 then '0' :: '.' :: (zeros (-leading - 1).toNat ++ digits)
  else
    let before := leading.toNat + 1
    if digits.length ≤ before then
      digits ++ zeros (before - digits.length) ++ if point then ['.', '0'] else []
    else digits.take before ++ '.' :: digits.drop before

/-- One digit, a point if more follow, and the power of ten. -/
def exponential (digits : List Char) (leading : Int) : List Char :=
  let mantissa := match digits with
    | d :: rest@(_ :: _) => d :: '.' :: rest
    | d => d
  mantissa ++ 'e' :: (toString leading).toList

def sign (x : Binary32) : List Char := if x.negative then ['-'] else []

/-- Plain digits without an exponent; whole numbers carry no point. -/
def toDecimal (x : Binary32) : String :=
  if x.isNaN then "NaN"
  else if x.isInfinite then String.ofList (x.sign ++ "inf".toList)
  else if x.isZero then String.ofList (x.sign ++ ['0'])
  else
    let (digits, leading) := scientific x.magnitude
    String.ofList (x.sign ++ positional digits leading false)

/-- Numbers below 10^-4 and from 10^16 on are written with an exponent, all others with a
point. -/
def toPointed (x : Binary32) : String :=
  if x.isNaN then "NaN"
  else if x.isInfinite then String.ofList (x.sign ++ "inf".toList)
  else if x.isZero then String.ofList (x.sign ++ "0.0".toList)
  else
    let (digits, leading) := scientific x.magnitude
    let small := x.abs.lt (ofDecimal false 1 4)
    let large := (ofDecimal false 10000000000000000 0).le x.abs
    String.ofList (x.sign ++
      if small || large then exponential digits leading else positional digits leading true)

instance : ToString Binary32 := ⟨toDecimal⟩

end FloatMachine.Binary32
