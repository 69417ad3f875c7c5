import FloatMachine.Codec.Basic
import FloatMachine.Binary32.Shortest

/-! Where an instruction reads from and writes to. A destination is never a literal. -/
namespace FloatMachine

/-- One register of the device in one slot. -/
structure DeviceAddress where
  slot : UInt16
  register : UInt16
deriving DecidableEq, Repr

inductive Operand
  | literal (value : Binary32)
  | register (index : UInt32)
  | stackPointer
  | returnAddress
  | device (address : DeviceAddress)
deriving DecidableEq, Repr

inductive Destination
  | register (index : UInt32)
  | stackPointer
  | returnAddress
  | device (address : DeviceAddress)
deriving DecidableEq, Repr

namespace DeviceAddress

/-- The slot in the upper half of a word, the register in the lower. -/
def packed (a : DeviceAddress) : UInt32 := a.slot.toUInt32 <<< 16 ||| a.register.toUInt32

def ofPacked (w : UInt32) : DeviceAddress := ⟨(w >>> 16).toUInt16, w.toUInt16⟩

def toText (a : DeviceAddress) : String := s!"d{a.slot.toNat}:{a.register.toNat}"

def codec : Codec DeviceAddress where
  writes a := Codec.u16.writes a.slot ++ Codec.u16.writes a.register
  decode := do return ⟨← Codec.u16.decode, ← Codec.u16.decode⟩

end DeviceAddress

namespace Destination

def toOperand : Destination → Operand
  | .register i => .register i
  | .stackPointer => .stackPointer
  | .returnAddress => .returnAddress
  | .device a => .device a

def toText : Destination → String
  | .register i => s!"r{i.toNat}"
  | .stackPointer => "sp"
  | .returnAddress => "ra"
  | .device a => a.toText

def codec : Codec Destination where
  writes
    | .register i => Codec.u8.writes 0 ++ Codec.u32.writes i
    | .stackPointer => Codec.u8.writes 1
    | .returnAddress => Codec.u8.writes 2
    | .device a => Codec.u8.writes 3 ++ DeviceAddress.codec.writes a
  decode := do
    match ← Codec.u8.decode with
    | 0 => return .register (← Codec.u32.decode)
    | 1 => return .stackPointer
    | 2 => return .returnAddress
    | 3 => return .device (← DeviceAddress.codec.decode)
    | _ => throw .invalidValue

end Destination

namespace Operand

/-- What stands in a position that the shape of an operation does not use. -/
def unused : Operand := .literal Binary32.zero

def toText : Operand → String
  | .literal v => v.toDecimal
  | .register i => (Destination.register i).toText
  | .stackPointer => Destination.stackPointer.toText
  | .returnAddress => Destination.returnAddress.toText
  | .device a => a.toText

def codec : Codec Operand where
  writes
    | .literal v => Codec.u8.writes 0 ++ Codec.binary32.writes v
    | .register i => Codec.u8.writes 1 ++ Codec.u32.writes i
    | .stackPointer => Codec.u8.writes 2
    | .returnAddress => Codec.u8.writes 3
    | .device a => Codec.u8.writes 4 ++ DeviceAddress.codec.writes a
  decode := do
    match ← Codec.u8.decode with
    | 0 => return .literal (← Codec.binary32.decode)
    | 1 => return .register (← Codec.u32.decode)
    | 2 => return .stackPointer
    | 3 => return .returnAddress
    | 4 => return .device (← DeviceAddress.codec.decode)
    | _ => throw .invalidValue

end Operand
end FloatMachine
