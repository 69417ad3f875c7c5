import FloatMachine.Program.Image

/-! The types that have a codec, closed under lists and options to any depth. -/
namespace FloatMachine

inductive Schema
  | u8
  | u16
  | u32
  | u64
  | size
  | binary32
  | text
  | vector (length : Nat)
  | list (item : Schema)
  | option (item : Schema)
  | operation
  | operand
  | destination
  | address
  | instruction
  | requirements
  | body
deriving DecidableEq, Repr

namespace Schema

def Value : Schema → Type
  | .u8 => UInt8
  | .u16 => UInt16
  | .u32 => UInt32
  | .u64 => UInt64
  | .size => UInt64
  | .binary32 => Binary32
  | .text => String
  | .vector n => Vector UInt8 n
  | .list s => List s.Value
  | .option s => Option s.Value
  | .operation => Operation
  | .operand => Operand
  | .destination => Destination
  | .address => DeviceAddress
  | .instruction => Instruction
  | .requirements => Requirements
  | .body => Program

def codec : (s : Schema) → Codec s.Value
  | .u8 => Codec.u8
  | .u16 => Codec.u16
  | .u32 => Codec.u32
  | .u64 => Codec.u64
  | .size => Codec.u64
  | .binary32 => Codec.binary32
  | .text => Codec.text
  | .vector n => Codec.vector n
  | .list s => Codec.list s.codec
  | .option s => Codec.option s.codec
  | .operation => Operation.codec
  | .operand => Operand.codec
  | .destination => Destination.codec
  | .address => DeviceAddress.codec
  | .instruction => Instruction.codec
  | .requirements => Requirements.codec
  | .body => Program.body

end Schema
end FloatMachine
