import FloatMachine.Derive.Lexer

/-! Items: a structure, enumeration or union with its generic parameters, fields, variants
and messages. Types, visibility and all other annotations are passed over. -/
namespace FloatMachine.Derive

inductive Fields
  | unit
  | named (names : List String)
  | tuple (count : Nat)
deriving DecidableEq, Repr

/-- What is written after the equals sign of a variant. -/
inductive Discriminant
  | integer (value : Nat)
  | other
deriving DecidableEq, Repr

/-- The first message annotation of an item or variant. -/
inductive Message
  | missing
  | bare
  | notText
  | text (message : String)
deriving DecidableEq, Repr

structure Variant where
  name : String
  message : Message
  fields : Fields
  discriminant : Option Discriminant
deriving DecidableEq, Repr

inductive Body
  | record (fields : Fields)
  | choice (variants : List Variant)
  | union
deriving DecidableEq, Repr

/-- A generic parameter with its bounds but without a default; `comma` says whether one
follows it. -/
structure Parameter where
  lifetime : Bool
  name : String
  bounded : String
  comma : Bool
deriving DecidableEq, Repr

structure Item where
  name : String
  parameters : List Parameter
  whereClause : String
  message : Message
  body : Body
deriving DecidableEq, Repr

def Tree.isMark (t : Tree) (mark : String) : Bool :=
  match t with
  | .leaf (.mark m) => m == mark
  | _ => false

def Tree.isWord (t : Tree) (word : String) : Bool :=
  match t with
  | .leaf (.word w) => w == word
  | _ => false

/-- Pieces between commas; inside angle brackets, of which `depth` are open, a comma does not
count. The piece after the last comma is kept even when it is empty. -/
def pieces (angles : Bool) : Nat → List Tree → List Tree → List (List Tree)
  | _, current, [] => [current.reverse]
  | depth, current, t :: ts =>
    if t.isMark "," && depth == 0 then current.reverse :: pieces angles 0 [] ts
    else if angles && t.isMark "<" then pieces angles (depth + 1) (t :: current) ts
    else if angles && t.isMark ">" then pieces angles (depth - 1) (t :: current) ts
    else pieces angles depth (t :: current) ts

def items (angles : Bool) (ts : List Tree) : List (List Tree) :=
  (pieces angles 0 [] ts).filter (fun p => !p.isEmpty)

/-- The annotations in front and what they annotate. -/
def annotations : List Tree → List (List Tree) × List Tree
  | hash :: .group .square body :: rest =>
    if hash.isMark "#" then
      let (found, rest) := annotations rest
      (body :: found, rest)
    else ([], hash :: .group .square body :: rest)
  | ts => ([], ts)

def messageOf (found : List (List Tree)) : Message :=
  let isError (body : List Tree) : Bool := match body with
    | t :: rest => t.isWord "error" && !(rest.head?.any fun u => u.isMark "::")
    | [] => false
  match found.find? isError with
  | none => .missing
  | some [_, .group _ [.leaf (.text s)]] => .text s
  | some [_, .group _ _] => .notText
  | some _ => .bare

def afterVisibility : List Tree → List Tree
  | t :: rest =>
    if t.isWord "pub" then
      match rest with
      | .group .round _ :: rest => rest
      | rest => rest
    else t :: rest
  | [] => []

def fieldName? (field : List Tree) : Option String :=
  match afterVisibility (annotations field).2 with
  | .leaf (.word name) :: _ => some name
  | _ => none

def namedFields (body : List Tree) : Fields := .named ((items true body).filterMap fieldName?)

def tupleFields (body : List Tree) : Fields := .tuple (items true body).length

/-- The value of an integer literal: the digits of its base, up to its suffix. -/
def integerValue (spelling : String) : Nat :=
  let (base, digits) := match spelling.toList with
    | '0' :: 'x' :: s => (16, s)
    | '0' :: 'o' :: s => (8, s)
    | '0' :: 'b' :: s => (2, s)
    | s => (10, s)
  let isDigit (c : Char) : Bool :=
    c == '_' || (if base == 16 then (hexDigit? c).isSome else c.isDigit)
  ((digits.takeWhile isDigit).filterMap hexDigit?).foldl (fun n d => base * n + d) 0

def discriminant? : List Tree → Option Discriminant
  | equals :: value =>
    if equals.isMark "=" then
      match (annotations value).2 with
      | [.leaf (.integer s)] => some (.integer (integerValue s))
      | _ => some .other
    else none
  | [] => none

def variant? (ts : List Tree) : Option Variant :=
  let (found, rest) := annotations ts
  match afterVisibility rest with
  | .leaf (.word name) :: .group .curly body :: rest =>
    some ⟨name, messageOf found, namedFields body, discriminant? rest⟩
  | .leaf (.word name) :: .group .round body :: rest =>
    some ⟨name, messageOf found, tupleFields body, discriminant? rest⟩
  | .leaf (.word name) :: rest => some ⟨name, messageOf found, .unit, discriminant? rest⟩
  | _ => none

def variants (body : List Tree) : List Variant := (items false body).filterMap variant?

def beforeDefault : Nat → List Tree → List Tree
  | _, [] => []
  | depth, t :: ts =>
    if t.isMark "=" && depth == 0 then []
    else if t.isMark "<" then t :: beforeDefault (depth + 1) ts
    else if t.isMark ">" then t :: beforeDefault (depth - 1) ts
    else t :: beforeDefault depth ts

/-- A colon without bounds after it is dropped. -/
def withoutColon (ts : List Tree) : List Tree :=
  if ts.getLast?.any (fun t => t.isMark ":") then ts.dropLast else ts

def parameterName : List Tree → String
  | t :: u :: _ => if t.isWord "const" then u.spelling else t.spelling
  | [t] => t.spelling
  | [] => ""

def parameter (comma : Bool) (ts : List Tree) : Parameter :=
  let kept := withoutColon (beforeDefault 0 ts)
  let name := parameterName (annotations kept).2
  { lifetime := name.toList.head? == some '\'', name, comma,
    bounded := spaced (Tree.spellings kept) }

/-- All parameters but the last are followed by a comma, and the last is if an empty piece
comes after it. -/
def parameters (body : List Tree) : List Parameter :=
  let found := pieces true 0 [] body
  match found.getLast? with
  | some [] => found.dropLast.map (parameter true)
  | some last => found.dropLast.map (parameter true) ++ [parameter false last]
  | none => []

def untilClosed : Nat → List Tree → List Tree × List Tree
  | _, [] => ([], [])
  | depth, t :: ts =>
    if t.isMark ">" && depth == 0 then ([], ts)
    else
      let depth := if t.isMark "<" then depth + 1 else if t.isMark ">" then depth - 1 else depth
      let (inside, rest) := untilClosed depth ts
      (t :: inside, rest)

def generics : List Tree → List Parameter × List Tree
  | t :: ts =>
    if t.isMark "<" then
      let (inside, rest) := untilClosed 0 ts
      (parameters inside, rest)
    else ([], t :: ts)
  | [] => ([], [])

def endsClause (t : Tree) : Bool :=
  match t with
  | .group .curly _ => true
  | t => t.isMark ";"

/-- A clause without predicates counts for nothing. -/
def whereClause : List Tree → String × List Tree
  | t :: ts =>
    if t.isWord "where" then
      let predicates := ts.takeWhile (fun u => !endsClause u)
      (if predicates.isEmpty then "" else spaced ("where" :: Tree.spellings predicates),
        ts.dropWhile (fun u => !endsClause u))
    else ("", t :: ts)
  | [] => ("", [])

/-- Fields in round brackets stand before the clause, all others after it. -/
def record (ts : List Tree) : Fields × String :=
  match ts with
  | .group .round body :: rest => (tupleFields body, (whereClause rest).1)
  | ts =>
    let (clause, rest) := whereClause ts
    match rest with
    | .group .curly body :: _ => (namedFields body, clause)
    | _ => (.unit, clause)

def choice (ts : List Tree) : List Variant × String :=
  let (clause, rest) := whereClause ts
  match rest with
  | .group .curly body :: _ => (variants body, clause)
  | _ => ([], clause)

def Item.ofTrees? (ts : List Tree) : Option Item :=
  let (found, rest) := annotations ts
  match afterVisibility rest with
  | keyword :: .leaf (.word name) :: rest =>
    let (parameters, rest) := generics rest
    let message := messageOf found
    if keyword.isWord "struct" then
      let (fields, whereClause) := record rest
      some { name, parameters, whereClause, message, body := .record fields }
    else if keyword.isWord "enum" then
      let (variants, whereClause) := choice rest
      some { name, parameters, whereClause, message, body := .choice variants }
    else if keyword.isWord "union" then
      some { name, parameters, whereClause := "", message, body := .union }
    else none
  | _ => none

def Item.read? (source : String) : Option Item := Item.ofTrees? (trees source)

end FloatMachine.Derive
