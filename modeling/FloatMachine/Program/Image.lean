import FloatMachine.Base64
import FloatMachine.Digest.Sha3
import FloatMachine.Program.Instruction
import FloatMachine.Text.Blank

/-! Programs and their images. An image is a magic word, a format version, the name of the
section and the body; it is read only if the instructions fit their shapes and the stored
requirements are those of the instructions. The text form of an image is its base64. -/
namespace FloatMachine

structure Program where
  instructions : List Instruction
  requirements : Requirements
deriving DecidableEq, Repr

inductive ImageError
  | truncated
  | badMagic
  | unsupportedVersion
  | badSection
  | malformed (cause : DecodeError)
  | trailingBytes
  | misshapen (line : UInt64) (operation : Operation)
  | requirementsMismatch
  | notBase64 (cause : Base64.Error)
deriving DecidableEq, Repr

namespace ImageError

def reason : ImageError → String
  | .truncated => "truncated"
  | .badMagic => "bad magic"
  | .unsupportedVersion => "unsupported version"
  | .badSection => "bad prefix"
  | .malformed e => e.message
  | .trailingBytes => "trailing bytes"
  | .misshapen line op =>
    let verb := if op.shape.hasDestination then "requires" else "does not take"
    s!"line {line.toNat}: `{op.mnemonic}` {verb} a destination"
  | .requirementsMismatch => "requirements mismatch"
  | .notBase64 e => s!"bad base64: {e.message}"

def message (e : ImageError) : String := s!"invalid program: {e.reason}"

end ImageError

namespace Program

def ofInstructions (is : List Instruction) : Program := ⟨is, Requirements.of is⟩

def body : Codec Program where
  writes p := (Codec.list Instruction.codec).writes p.instructions ++
    Requirements.codec.writes p.requirements
  decode := do return ⟨← (Codec.list Instruction.codec).decode, ← Requirements.codec.decode⟩

def magic : Vector UInt8 4 := #v[0x54, 0x43, 0x50, 0x55]

def version : Vector UInt8 3 := #v[0, 1, 0]

def sectionName : Bytes := [0x50, 0x52, 0x4f, 0x47, 0x52, 0x41, 0x4d]

def writes (p : Program) : List Bytes :=
  (Codec.vector 4).writes magic ++ (Codec.vector 3).writes version ++
    (Codec.list Codec.u8).writes sectionName ++ body.writes p

def toBytes (p : Program) : Bytes := p.writes.flatten

def digest (p : Program) : Bytes := (p.writes.foldl Sha3.update Sha3.start).finish

abbrev Loader (α : Type) := ExceptT ImageError (StateM Bytes) α

def part {α : Type} (c : Codec α) : Loader α := ExceptT.adapt ImageError.malformed c.decode

def loader : Loader Program := do
  if (← part (Codec.vector 4)) ≠ magic then throw .badMagic
  let major ← part Codec.u8
  let minor ← part Codec.u8
  let patch ← part Codec.u8
  if #v[major, minor, patch] ≠ version then throw .unsupportedVersion
  if (← part (Codec.list Codec.u8)) ≠ sectionName then throw .badSection
  let p ← part body
  if !(← get).isEmpty then throw .trailingBytes
  return p

/-- Every instruction has the destination its shape asks for, and the requirements are
those of the instructions; the first instruction that fails is named. -/
def check (p : Program) : Except ImageError Program :=
  match p.instructions.find? (fun i => !decide i.WellShaped) with
  | some i => .error (.misshapen i.line i.operation)
  | none =>
    if Requirements.of p.instructions = p.requirements then .ok p
    else .error .requirementsMismatch

def fromBytes (input : Bytes) : Except ImageError Program :=
  if input.length < 4 then .error .truncated
  else (loader input).1.bind check

def toText (p : Program) : String :=
  String.ofList ((Base64.encode p.toBytes).map fun b => Char.ofNat b.toNat)

def fromText (text : String) : Except ImageError Program :=
  let trimmed := String.ofList (Text.trim text.toList)
  match Base64.decode trimmed.toUTF8.data.toList with
  | .ok bytes => fromBytes bytes
  | .error e => .error (.notBase64 e)

end Program
end FloatMachine
