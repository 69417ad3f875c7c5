import FloatMachine.Codec.Decoder

/-! Base64 with the standard alphabet: three bytes as four symbols, the last group filled up
with `=`. Reading accepts only what writing produces, and names the first thing wrong. -/
namespace FloatMachine.Base64

inductive Error
  | invalidSymbol (byte : UInt8) (offset : Nat)
  | invalidLength (length : Nat)
  | invalidLastSymbol (byte : UInt8) (offset : Nat)
  | invalidPadding
deriving DecidableEq, Repr

def Error.message : Error → String
  | .invalidSymbol b o => s!"Invalid symbol {b.toNat}, offset {o}."
  | .invalidLength n => s!"Invalid input length: {n}"
  | .invalidLastSymbol b o => s!"Invalid last symbol {b.toNat}, offset {o}."
  | .invalidPadding => "Invalid padding"

def pad : UInt8 := 61

/-- `A` to `Z`, `a` to `z`, `0` to `9`, `+`, `/`. -/
def symbol (sextet : Nat) : UInt8 :=
  UInt8.ofNat (if sextet < 26 then 65 + sextet
    else if sextet < 52 then 71 + sextet
    else if sextet < 62 then sextet - 4
    else if sextet = 62 then 43 else 47)

def sextet? (byte : UInt8) : Option Nat :=
  let n := byte.toNat
  if 65 ≤ n && n ≤ 90 then some (n - 65)
  else if 97 ≤ n && n ≤ 122 then some (n - 71)
  else if 48 ≤ n && n ≤ 57 then some (n + 4)
  else if n = 43 then some 62
  else if n = 47 then some 63
  else none

theorem sextet?_symbol : ∀ n < 64, sextet? (symbol n) = some n := by decide

def encode : Bytes → Bytes
  | [] => []
  | [a] => [symbol (a.toNat / 4), symbol (a.toNat % 4 * 16), pad, pad]
  | [a, b] =>
    [symbol (a.toNat / 4), symbol (a.toNat % 4 * 16 + b.toNat / 16),
     symbol (b.toNat % 16 * 4), pad]
  | a :: b :: c :: rest =>
    symbol (a.toNat / 4) :: symbol (a.toNat % 4 * 16 + b.toNat / 16) ::
    symbol (b.toNat % 16 * 4 + c.toNat / 64) :: symbol (c.toNat % 64) :: encode rest

def joined (w x y z : Nat) : Bytes :=
  [UInt8.ofNat (w * 4 + x / 16), UInt8.ofNat (x % 16 * 16 + y / 4),
   UInt8.ofNat (y % 4 * 64 + z)]

def sextetAt (byte : UInt8) (offset : Nat) : Except Error Nat :=
  match sextet? byte with
  | some n => .ok n
  | none => .error (.invalidSymbol byte offset)

/-- The symbols of the last group, which begins at `start`, and the number of its pads; what
was scanned before is passed along. Pads begin after two symbols and end the group. -/
def scanLast (start : Nat) : Bytes → List Nat → Nat → Except Error (List Nat × Nat)
  | [], symbols, pads => .ok (symbols, pads)
  | byte :: rest, symbols, pads =>
    let place := symbols.length + pads
    if byte = pad then
      if place < 2 then .error (.invalidSymbol pad (start + place))
      else scanLast start rest symbols (pads + 1)
    else if 0 < pads then .error (.invalidSymbol pad (start + symbols.length))
    else do
      let n ← sextetAt byte (start + place)
      scanLast start rest (symbols ++ [n]) pads

/-- The last one to four bytes, or none of an empty text. -/
def decodeLast (start : Nat) (group : Bytes) : Except Error Bytes := do
  let (symbols, pads) ← scanLast start group [] 0
  if !group.isEmpty && symbols.length < 2 then
    throw (.invalidLength (start + symbols.length))
  if (symbols.length + pads) % 4 != 0 then throw .invalidPadding
  match symbols with
  | [w, x] =>
    if x % 16 != 0 then throw (.invalidLastSymbol (symbol x) (start + 1))
    return (joined w x 0 0).take 1
  | [w, x, y] =>
    if y % 4 != 0 then throw (.invalidLastSymbol (symbol y) (start + 2))
    return (joined w x y 0).take 2
  | [w, x, y, z] => return joined w x y z
  | _ => return []

/-- Groups before the last one hold four symbols of the alphabet. -/
def decodeGroups (start : Nat) : Bytes → Except Error Bytes
  | a :: b :: c :: d :: e :: rest => do
    let w ← sextetAt a start
    let x ← sextetAt b (start + 1)
    let y ← sextetAt c (start + 2)
    let z ← sextetAt d (start + 3)
    return joined w x y z ++ (← decodeGroups (start + 4) (e :: rest))
  | last => decodeLast start last

def decode (text : Bytes) : Except Error Bytes :=
  match text.getLast? with
  | some byte =>
    if text.length % 4 = 1 && byte != pad && (sextet? byte).isNone then
      .error (.invalidSymbol byte (text.length - 1))
    else decodeGroups 0 text
  | none => .ok []

end FloatMachine.Base64
