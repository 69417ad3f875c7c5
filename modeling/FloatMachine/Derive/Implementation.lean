import FloatMachine.Derive.Item

/-! The head of an implementation: its generic parameters with their bounds, the type they
are applied to, and the clause. Lifetimes come first. -/
namespace FloatMachine.Derive

inductive Error
  | unionCodec
  | unionMessage
  | discriminantNotInteger
  | discriminantTooLarge
  | tooManyVariants
  | messageMissing
  | messageBare
  | messageNotText
deriving DecidableEq, Repr

def Error.message : Error → String
  | .unionCodec => "BinaryCodec derive does not support unions"
  | .unionMessage => "Error derive does not support unions"
  | .discriminantNotInteger => "BinaryCodec discriminants must be integer literals"
  | .discriminantTooLarge => "number too large to fit in target type"
  | .tooManyVariants => "BinaryCodec supports at most 256 variants"
  | .messageMissing =>
    "missing #[error(\"...\")] attribute; every error must declare a display message"
  | .messageBare => "expected #[error(\"message\")]"
  | .messageNotText =>
    "#[error] message must be a string literal, e.g. #[error(\"stack overflow\")]"

def parameterTexts (write : Parameter → String) (ps : List Parameter) : List String :=
  ps.flatMap fun p => write p :: if p.comma then [","] else []

/-- Parameters in angle brackets; a comma stands between the last lifetime and the rest. -/
def angled (write : Parameter → String) (ps : List Parameter) : String :=
  if ps.isEmpty then ""
  else
    let lifetimes := ps.filter (·.lifetime)
    let others := ps.filter (fun p => !p.lifetime)
    let between := if !others.isEmpty && lifetimes.getLast?.any (fun p => !p.comma) then [","] else []
    spaced ("<" :: parameterTexts write lifetimes ++ between ++ parameterTexts write others ++ [">"])

def commas (parts : List String) : String := " , ".intercalate parts

def implementation (i : Item) (interface body : String) : String :=
  spaced ["impl", angled (·.bounded) i.parameters, interface, "for", i.name,
    angled (·.name) i.parameters, i.whereClause, curly body]

/-- The name that stands for a field in generated code. -/
def fieldNames : Fields → List String
  | .unit => []
  | .named names => names
  | .tuple count => (List.range count).map fun i => s!"f{i}"

end FloatMachine.Derive
