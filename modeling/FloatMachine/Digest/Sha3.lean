import FloatMachine.Codec.Decoder
import FloatMachine.Digest.Keccak

/-! The SHA3-256 digest of a byte string, taken byte by byte: a message fed in pieces has
the digest of the pieces put together. -/
namespace FloatMachine

/-- The lanes after all whole blocks, and the bytes of the block begun since. -/
structure Sha3 where
  lanes : Lanes
  pending : Array UInt8

namespace Sha3

def blockSize : Nat := 136

def start : Sha3 := ⟨Lanes.start, #[]⟩

def blockWord (block : Array UInt8) (i : Nat) : UInt64 :=
  (List.range 8).foldr (fun k w => w <<< 8 ||| (block.getD (8 * i + k) 0).toUInt64) 0

def absorbBlock (a : Lanes) (block : Array UInt8) : Lanes :=
  Lanes.permute (Vector.ofFn fun i => a.get i ^^^ blockWord block i.val)

def absorb (s : Sha3) (byte : UInt8) : Sha3 :=
  let pending := s.pending.push byte
  if pending.size = blockSize then ⟨absorbBlock s.lanes pending, #[]⟩
  else ⟨s.lanes, pending⟩

def update (s : Sha3) (bytes : Bytes) : Sha3 := bytes.foldl absorb s

/-- The last block: the bytes left over, a byte 6, zeros, and the top bit of the last byte. -/
def lastBlock (pending : Array UInt8) : Array UInt8 :=
  Array.ofFn (n := blockSize) fun i =>
    let byte := (pending.push 6).getD i.val 0
    if i.val + 1 = blockSize then byte ||| 0x80 else byte

def wordBytes (w : UInt64) : Bytes := (List.range 8).map (fun k => (w >>> (8 * k).toUInt64).toUInt8)

def finish (s : Sha3) : Bytes :=
  ((absorbBlock s.lanes (lastBlock s.pending)).toList.take 4).flatMap wordBytes

def digest (bytes : Bytes) : Bytes := (start.update bytes).finish

theorem update_append (s : Sha3) (a b : Bytes) : s.update (a ++ b) = (s.update a).update b :=
  List.foldl_append

end Sha3

namespace Bytes

def hexDigit (n : Nat) : Char := if n < 10 then Char.ofNat (48 + n) else Char.ofNat (87 + n)

/-- Two lower-case digits a byte. -/
def toHex (b : Bytes) : String :=
  String.ofList (b.flatMap fun d => [hexDigit (d.toNat / 16), hexDigit (d.toNat % 16)])

end Bytes
end FloatMachine
