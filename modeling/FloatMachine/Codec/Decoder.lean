/-! Decoders read a value from the front of a byte string and leave the rest, also when they
fail: what was read before the failure stays read, and a part too short is left in place. -/
namespace FloatMachine

abbrev Bytes := List UInt8

inductive DecodeError
  | unexpectedEnd
  | invalidValue
  | lengthOverflow
deriving DecidableEq, Repr

def DecodeError.message : DecodeError → String
  | .unexpectedEnd => "unexpected end of input"
  | .invalidValue => "invalid value"
  | .lengthOverflow => "length prefix too large"

abbrev Decoder (α : Type) := ExceptT DecodeError (StateM Bytes) α

namespace Decoder

def take (n : Nat) : Decoder Bytes := fun input =>
  let head := input.take n
  if head.length = n then (.ok head, input.drop n) else (.error .unexpectedEnd, input)

theorem take_append (head rest : Bytes) : take head.length (head ++ rest) = (.ok head, rest) := by
  simp [take]

def takeVector (n : Nat) : Decoder (Vector UInt8 n) := fun input =>
  let head := input.take n
  if h : head.length = n then (.ok ⟨head.toArray, by simpa using h⟩, input.drop n)
  else (.error .unexpectedEnd, input)

/-- The value of `item` read `n` times, after those already read. -/
def times {α : Type} (item : Decoder α) : Nat → Array α → Decoder (Array α)
  | 0, found => pure found
  | n + 1, found => do times item n (found.push (← item))

/-- A value that must span all of the input. -/
def whole {α : Type} (d : Decoder α) (input : Bytes) : Except DecodeError α :=
  match d input with
  | (.ok v, []) => .ok v
  | (.ok _, _ :: _) => .error .invalidValue
  | (.error e, _) => .error e

end Decoder
end FloatMachine
