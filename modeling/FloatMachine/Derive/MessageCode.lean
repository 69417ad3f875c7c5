import FloatMachine.Derive.CodecCode

/-! Code that displays an error: the message of the item or variant, with the fields that it
mentions in braces passed by name. A field of a tuple is mentioned by its place. -/
namespace FloatMachine.Derive.MessageCode

def contains (needle : List Char) : List Char → Bool
  | [] => needle.isEmpty
  | s@(_ :: rest) => needle.isPrefixOf s || contains needle rest

/-- Every place where `needle` stands, from left to right, takes `value` instead. -/
def replace (needle value : List Char) : Nat → List Char → List Char
  | _, [] => []
  | skip + 1, _ :: s => replace needle value skip s
  | 0, c :: s =>
    if needle.isPrefixOf (c :: s) then value ++ replace needle value (needle.length - 1) s
    else c :: replace needle value 0 s

/-- A name in braces, either alone or with a format after a colon. -/
def alone (name : String) : List Char := '\x7b' :: name.toList ++ ['\x7d']
def formatted (name : String) : List Char := '\x7b' :: name.toList ++ [':']

def mentions (message name : String) : Bool :=
  contains (alone name) message.toList || contains (formatted name) message.toList

/-- Places become names, the last place first. -/
def nameAt (message : List Char) (place : Nat) : List Char :=
  let name := s!"f{place}"
  replace (formatted (toString place)) (formatted name) 0
    (replace (alone (toString place)) (alone name) 0 message)

def namedMessage (message : String) : Fields → String
  | .tuple count =>
    String.ofList ((List.range count).reverse.foldl nameAt message.toList)
  | .unit | .named _ => message

/-- A field as it is bound: not at all when the message does not mention it. -/
structure Binding where
  pattern : String
  arguments : List String
deriving DecidableEq, Repr

def bind (message : String) : Fields → Binding
  | .unit => ⟨"", []⟩
  | .named names =>
    let used := names.filter (mentions message)
    ⟨curly (spaced (used.map (fun n => spaced [n, ","]) ++ [".."])), used⟩
  | .tuple count =>
    let used (i : Nat) : Bool := mentions message (toString i)
    ⟨round (commas ((List.range count).map fun i => if used i then s!"f{i}" else "_")),
      ((List.range count).filter used).map fun i => s!"f{i}"⟩

def writeText (message : String) (f : Fields) : String :=
  let arguments := (bind message f).arguments.map fun n => spaced [n, "=", n]
  spaced ["write !", round (commas ("f" :: quoted (namedMessage message f) :: arguments))]

def messageText : Message → Except Error String
  | .missing => .error .messageMissing
  | .bare => .error .messageBare
  | .notText => .error .messageNotText
  | .text m => .ok m

def arm (v : Variant) : Except Error String := do
  let message ← messageText v.message
  return spaced ["Self ::", v.name, (bind message v.fields).pattern, "=>",
    writeText message v.fields, ","]

def bodyText (i : Item) : Except Error String :=
  match i.body with
  | .record f => do
    let message ← messageText i.message
    return spaced ["let Self", (bind message f).pattern, "= self ;", writeText message f]
  | .choice vs => do return spaced ["match self", curly (spaced (← vs.mapM arm))]
  | .union => .error .unionMessage

def text (i : Item) (body : String) : String :=
  spaced [
    implementation i ":: std :: fmt :: Display"
      (spaced [CodecCode.allowUnused,
        "fn fmt (& self , f : & mut :: std :: fmt :: Formatter < '_ >) -> :: std :: fmt :: Result",
        curly body]),
    implementation i ":: std :: error :: Error" ""]

def derive (i : Item) : Except Error String := (bodyText i).map (text i)

end FloatMachine.Derive.MessageCode
