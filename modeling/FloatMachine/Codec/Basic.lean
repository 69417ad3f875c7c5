import FloatMachine.Codec.Decoder
import FloatMachine.Binary32.Basic

/-! A codec writes each value in exactly one way, as a sequence of pieces, and reads it back.
Integers are little-endian, a list or text follows its length in eight bytes, an option
follows a byte that is 0 or 1, and a vector of bytes stands by itself. -/
namespace FloatMachine

structure Codec (α : Type) where
  writes : α → List Bytes
  decode : Decoder α

namespace Codec

def encode {α : Type} (c : Codec α) (v : α) : Bytes := (c.writes v).flatten

/-- Any consumer of bytes sees the pieces one after the other. -/
def feed {α σ : Type} (c : Codec α) (consume : σ → Bytes → σ) (s : σ) (v : α) : σ :=
  (c.writes v).foldl consume s

def size {α : Type} (c : Codec α) (v : α) : Nat := c.feed (fun n b => n + b.length) 0 v

/-- The lowest `width` base-256 digits of a number, lowest first. -/
def littleEndian : Nat → Nat → Bytes
  | 0, _ => []
  | width + 1, n => UInt8.ofNat n :: littleEndian width (n / 256)

def littleEndianValue (b : Bytes) : Nat := b.foldr (fun d n => d.toNat + 256 * n) 0

@[simp] theorem length_littleEndian (width n : Nat) : (littleEndian width n).length = width := by
  induction width generalizing n with
  | zero => rfl
  | succ width ih => simp [littleEndian, ih]

theorem littleEndianValue_littleEndian (width n : Nat) :
    littleEndianValue (littleEndian width n) = n % Nat.pow 256 width := by
  induction width generalizing n with
  | zero => simp [littleEndian, littleEndianValue, Nat.mod_one]
  | succ width ih =>
    have h : Nat.pow 256 (width + 1) = 256 * Nat.pow 256 width := Nat.pow_succ'
    rw [h, Nat.mod_mul, ← ih (n / 256)]
    simp [littleEndian, littleEndianValue]

theorem littleEndian_littleEndianValue (b : Bytes) :
    littleEndian b.length (littleEndianValue b) = b := by
  induction b with
  | nil => rfl
  | cons d b ih =>
    have high : (d.toNat + 256 * littleEndianValue b) / 256 = littleEndianValue b := by
      have := d.toNat_lt
      omega
    have digit : UInt8.ofNat (d.toNat + 256 * littleEndianValue b) = d := by
      apply UInt8.toNat_inj.1
      simp
    show UInt8.ofNat (d.toNat + 256 * littleEndianValue b) ::
      littleEndian b.length ((d.toNat + 256 * littleEndianValue b) / 256) = d :: b
    rw [digit, high, ih]

def word {α : Type} (width : Nat) (toNat : α → Nat) (ofNat : Nat → α) : Codec α where
  writes v := [littleEndian width (toNat v)]
  decode := do return ofNat (littleEndianValue (← Decoder.take width))

def u8 : Codec UInt8 := word 1 UInt8.toNat UInt8.ofNat
def u16 : Codec UInt16 := word 2 UInt16.toNat UInt16.ofNat
def u32 : Codec UInt32 := word 4 UInt32.toNat UInt32.ofNat
def u64 : Codec UInt64 := word 8 UInt64.toNat UInt64.ofNat
def binary32 : Codec Binary32 := word 4 (fun x => x.bits.toNat) (fun n => ⟨UInt32.ofNat n⟩)

/-- Longer lists and texts are never read, so that a damaged length cannot ask for more. -/
def maxLength : Nat := 0x100000

def length : Codec Nat where
  writes n := u64.writes (UInt64.ofNat n)
  decode := do
    let n ← u64.decode
    if maxLength < n.toNat then throw .lengthOverflow
    return n.toNat

def list {α : Type} (item : Codec α) : Codec (List α) where
  writes vs := length.writes vs.length ++ vs.flatMap item.writes
  decode := do
    let n ← length.decode
    return (← Decoder.times item.decode n #[]).toList

def text : Codec String where
  writes s := length.writes s.utf8ByteSize ++ [s.toUTF8.data.toList]
  decode := do
    let n ← length.decode
    match String.fromUTF8? ⟨(← Decoder.take n).toArray⟩ with
    | some s => return s
    | none => throw .invalidValue

def option {α : Type} (item : Codec α) : Codec (Option α) where
  writes
    | none => u8.writes 0
    | some v => u8.writes 1 ++ item.writes v
  decode := do
    match ← u8.decode with
    | 0 => return none
    | 1 => return some (← item.decode)
    | _ => throw .invalidValue

def vector (n : Nat) : Codec (Vector UInt8 n) where
  writes v := v.toList.map (fun b => [b])
  decode := Decoder.takeVector n

end Codec
end FloatMachine
