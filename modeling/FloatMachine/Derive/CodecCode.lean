import FloatMachine.Derive.Implementation

/-! Code that encodes and decodes an item: fields in the order of their declaration, after a
tag in an enumeration. A tag is the integer written for the variant, or else one more than
the tag before it. -/
namespace FloatMachine.Derive.CodecCode

/-- Binds the fields of a value and writes the bound names one after the other. -/
structure Encoding where
  pattern : Fields
  writes : List String
deriving DecidableEq, Repr

structure EncodeArm where
  variant : String
  tag : Nat
  encoding : Encoding
deriving DecidableEq, Repr

/-- Reads a value for each field of a constructor. -/
structure DecodeArm where
  tag : Nat
  variant : String
  fields : Fields
deriving DecidableEq, Repr

inductive Code
  | record (encoding : Encoding) (decoded : Fields)
  | choice (encode : List EncodeArm) (decode : List DecodeArm)
deriving DecidableEq, Repr

/-- The tag of a variant when the one before it, if any, leaves `next` to it. -/
def tag (next : Nat) (d : Option Discriminant) : Except Error Nat :=
  match d with
  | some (.integer n) => if n < 256 then .ok n else .error .discriminantTooLarge
  | some .other => .error .discriminantNotInteger
  | none => if next < 256 then .ok next else .error .tooManyVariants

def tags : Nat → List Variant → Except Error (List Nat)
  | _, [] => .ok []
  | next, v :: vs => do
    let n ← tag next v.discriminant
    return n :: (← tags (n + 1) vs)

def destructure (f : Fields) : Encoding := ⟨f, fieldNames f⟩

def encodeArm (v : Variant) (tag : Nat) : EncodeArm := ⟨v.name, tag, destructure v.fields⟩

def decodeArm (v : Variant) (tag : Nat) : DecodeArm := ⟨tag, v.name, v.fields⟩

def ofBody : Body → Except Error Code
  | .record f => .ok (.record (destructure f) f)
  | .choice vs => do
    let ts ← tags 0 vs
    return .choice (vs.zipWith encodeArm ts) (vs.zipWith decodeArm ts)
  | .union => .error .unionCodec

def encodingModule : String := "crate :: types :: encoding"

def encodeCall (value : String) : String :=
  spaced [encodingModule, "::", "Encode :: encode", round (commas [value, "out"]), ";"]

def decodeCall : String := spaced [encodingModule, "::", "Decode :: decode (input) ?"]

def patternText : Fields → String
  | .unit => ""
  | .named names => curly (commas names)
  | f@(.tuple _) => round (commas (fieldNames f))

def constructorText : Fields → String
  | .unit => ""
  | .named names => curly (spaced (names.map fun n => spaced [n, ":", decodeCall, ","]))
  | .tuple count => round (spaced (List.replicate count (spaced [decodeCall, ","])))

def tagText (tag : Nat) : String := s!"{tag}u8"

def EncodeArm.text (a : EncodeArm) : String :=
  spaced ["Self ::", a.variant, patternText a.encoding.pattern, "=>",
    curly (spaced (encodeCall (spaced ["&", tagText a.tag]) :: a.encoding.writes.map encodeCall))]

def DecodeArm.text (a : DecodeArm) : String :=
  spaced [tagText a.tag, "=> Ok", round (spaced ["Self ::", a.variant, constructorText a.fields]), ","]

def encodeText : Code → String
  | .record e _ =>
    spaced (["let Self", patternText e.pattern, "= self ;"] ++ e.writes.map encodeCall)
  | .choice arms _ => spaced ["match self", curly (spaced (arms.map EncodeArm.text))]

def decodeText : Code → String
  | .record _ f => spaced ["Ok", round (spaced ["Self", constructorText f])]
  | .choice _ arms =>
    spaced ["let tag : u8 =", decodeCall, "; match tag",
      curly (spaced (arms.map DecodeArm.text ++
        ["_ => Err", round (spaced [encodingModule, ":: DecodeError :: InvalidValue"]), ","]))]

def allowUnused : String := "# [allow (unused_variables)]"

def text (i : Item) (c : Code) : String :=
  spaced [
    implementation i (spaced [encodingModule, ":: Encode"])
      (spaced [allowUnused, "fn encode < S :", encodingModule,
        ":: EncodeSink > (& self , out : & mut S)", curly (encodeText c)]),
    implementation i (spaced [encodingModule, ":: Decode"])
      (spaced [allowUnused,
        "fn decode (input : & mut & [u8] ,) -> :: std :: result :: Result < Self ,",
        encodingModule, ":: DecodeError >", curly (decodeText c)])]

def derive (i : Item) : Except Error String := (ofBody i.body).map (text i)

end FloatMachine.Derive.CodecCode
