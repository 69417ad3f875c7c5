import FloatMachine.Codec.Basic
import FloatMachine.Machine.Bus

/-! Cells that keep what was written to them. Their image is a magic word and the list of
cells, and it outlives a run in a file. -/
namespace FloatMachine

structure CellStore where
  cells : Array Binary32
deriving DecidableEq, Repr

namespace CellStore

inductive Error
  | truncated
  | badMagic
  | malformed (cause : DecodeError)
  | trailingBytes
deriving DecidableEq, Repr

def Error.reason : Error → String
  | .truncated => "truncated"
  | .badMagic => "bad magic"
  | .malformed e => e.message
  | .trailingBytes => "trailing bytes"

def Error.message (e : Error) : String := s!"invalid cell image: {e.reason}"

def zeros (n : Nat) : CellStore := ⟨Array.replicate n .zero⟩

def magic : Vector UInt8 4 := #v[0x54, 0x43, 0x45, 0x4c]

def writes (s : CellStore) : List Bytes :=
  (Codec.vector 4).writes magic ++ (Codec.list Codec.binary32).writes s.cells.toList

def toBytes (s : CellStore) : Bytes := s.writes.flatten

def loader : ExceptT Error (StateM Bytes) CellStore := do
  let found ← ExceptT.adapt (fun _ => .truncated) (Codec.vector 4).decode
  if found ≠ magic then throw .badMagic
  let cells ← ExceptT.adapt .malformed (Codec.list Codec.binary32).decode
  if !(← get).isEmpty then throw .trailingBytes
  return ⟨cells.toArray⟩

def fromBytes (input : Bytes) : Except Error CellStore := (loader input).1

instance : Device CellStore where
  read s register := (s.cells[register.toNat]?, s)
  write s register v :=
    if h : register.toNat < s.cells.size then (true, ⟨s.cells.set register.toNat v h⟩)
    else (false, s)

end CellStore
end FloatMachine
