import FloatMachine.Derive.Tree
import FloatMachine.Text.Digits

/-! Tokens of the source text of an item. Comments are left out, also those that document. -/
namespace FloatMachine.Derive

def isWordStart (c : Char) : Bool :=
  c.isAlpha || c == '_' || (0x80 ≤ c.toNat && !Text.isBlank c)

def isWordChar (c : Char) : Bool := isWordStart c || c.isDigit

def hexDigit? (c : Char) : Option Nat :=
  if c.isDigit then some (c.toNat - 48)
  else if 'a' ≤ c && c ≤ 'f' then some (c.toNat - 87)
  else if 'A' ≤ c && c ≤ 'F' then some (c.toNat - 55)
  else none

def charOfHex (digits : List Char) : Char :=
  Char.ofNat ((digits.filterMap hexDigit?).foldl (fun n d => 16 * n + d) 0)

/-- The value of a text literal after its opening quote, and the rest after the closing one. -/
def textBody : Nat → List Char → List Char → List Char × List Char
  | 0, value, s => (value.reverse, s)
  | _ + 1, value, [] => (value.reverse, [])
  | fuel + 1, value, c :: s =>
    if c == '"' then (value.reverse, s)
    else if c == '\r' && s.head? == some '\n' then textBody fuel ('\n' :: value) s.tail
    else if c != '\\' then textBody fuel (c :: value) s
    else
      match s with
      | [] => (value.reverse, [])
      | 'n' :: s => textBody fuel ('\n' :: value) s
      | 'r' :: s => textBody fuel ('\r' :: value) s
      | 't' :: s => textBody fuel ('\t' :: value) s
      | '0' :: s => textBody fuel ('\x00' :: value) s
      | 'x' :: a :: b :: s => textBody fuel (charOfHex [a, b] :: value) s
      | 'u' :: s =>
        textBody fuel (charOfHex (s.takeWhile (· != '\x7d')) :: value)
          (s.dropWhile (· != '\x7d')).tail
      | d :: s =>
        if d == '\n' || d == '\r' then
          textBody fuel value (s.dropWhile fun e => e == ' ' || e == '\n' || e == '\t' || e == '\r')
        else textBody fuel (d :: value) s

/-- The value of a raw text literal closed by a quote and `hashes` hash marks. -/
def rawBody (hashes : Nat) : List Char → List Char → List Char × List Char
  | value, [] => (value.reverse, [])
  | value, c :: s =>
    if c == '"' && s.take hashes == List.replicate hashes '#' then (value.reverse, s.drop hashes)
    else rawBody hashes (c :: value) s

def rawText? (s : List Char) : Option (List Char × List Char) :=
  let hashes := (s.takeWhile (· == '#')).length
  match s.drop hashes with
  | '"' :: body => some (rawBody hashes [] body)
  | _ => none

/-- What follows a block comment, in which others may stand; `depth` counts those open. -/
def afterComment : Nat → List Char → List Char
  | depth, '*' :: '/' :: s => if depth ≤ 1 then s else afterComment (depth - 1) s
  | depth, '/' :: '*' :: s => afterComment (depth + 1) s
  | depth, _ :: s => afterComment depth s
  | _, [] => []

/-- A character literal after its opening quote: its spelling and the rest. -/
def charBody (s : List Char) : List Char × List Char :=
  let (body, rest) := match s with
    | '\\' :: c :: s => (['\\', c] ++ s.takeWhile (· != '\''), s.dropWhile (· != '\''))
    | s => (s.takeWhile (· != '\''), s.dropWhile (· != '\''))
  ('\'' :: body ++ ['\''], rest.tail)

/-- A quote begins a character if another closes it right after, or else a lifetime. -/
def quoteToken (s : List Char) : Token × List Char :=
  let character := match s with
    | '\\' :: _ => true
    | _ :: '\'' :: _ => true
    | _ => false
  if character then
    let (spelling, rest) := charBody s
    (.literal (String.ofList spelling), rest)
  else (.word (String.ofList ('\'' :: s.takeWhile isWordChar)), s.dropWhile isWordChar)

def hasExponent (whole rest : List Char) : Bool :=
  match whole.dropWhile (fun c => c.isDigit || c == '_') with
  | e :: tail =>
    (e == 'e' || e == 'E') &&
      match tail.dropWhile (· == '_') with
      | d :: _ => d.isDigit
      | [] => rest.head? == some '+' || rest.head? == some '-'
  | [] => false

/-- A number; a point belongs to it if a digit follows. -/
def numberToken (s : List Char) : Token × List Char :=
  let whole := s.takeWhile isWordChar
  let rest := s.dropWhile isWordChar
  match rest with
  | '.' :: d :: _ =>
    if d.isDigit then
      let fraction := rest.tail.takeWhile isWordChar
      (.literal (String.ofList (whole ++ '.' :: fraction)), rest.tail.dropWhile isWordChar)
    else (.integer (String.ofList whole), rest)
  | _ =>
    if hasExponent whole rest then (.literal (String.ofList whole), rest)
    else (.integer (String.ofList whole), rest)

/-- Marks of more than one character, longest first; angle brackets always stand alone. -/
def longMarks : List (List Char) :=
  ["...".toList, "..=".toList, "::".toList, "->".toList, "=>".toList, "..".toList,
   "==".toList, "!=".toList]

def markToken (c : Char) (s : List Char) : Token × List Char :=
  match longMarks.find? (fun m => m.isPrefixOf (c :: s)) with
  | some m => (.mark (String.ofList m), s.drop (m.length - 1))
  | none => (.mark (String.ofList [c]), s)

/-- A word, or a literal that a word begins: raw text, and bytes, which are no text. -/
def wordToken (s : List Char) : Token × List Char :=
  let name := String.ofList (s.takeWhile isWordChar)
  let rest := s.dropWhile isWordChar
  match rawText? rest, rest with
  | some (value, after), _ =>
    if name == "r" then (.text (String.ofList value), after)
    else if name == "b" || name == "c" then
      match rest with
      | '"' :: body =>
        let (value, after) := textBody body.length [] body
        (.literal (name ++ quoted (String.ofList value)), after)
      | _ => (.word name, rest)
    else if name == "br" || name == "cr" then
      (.literal (name ++ quoted (String.ofList value)), after)
    else (.word name, rest)
  | none, '\'' :: after =>
    if name == "b" then
      let (spelling, after) := charBody after
      (.literal ("b" ++ String.ofList spelling), after)
    else (.word name, rest)
  | none, '#' :: after =>
    if name == "r" then
      (.word ("r#" ++ String.ofList (after.takeWhile isWordChar)), after.dropWhile isWordChar)
    else (.word name, rest)
  | none, _ => (.word name, rest)

/-- The first token of a text, unless it begins with a blank or a comment. -/
def firstToken (c : Char) (s : List Char) : Token × List Char :=
  if c == '(' then (.opening .round, s)
  else if c == '[' then (.opening .square, s)
  else if c == '\x7b' then (.opening .curly, s)
  else if c == ')' || c == ']' || c == '\x7d' then (.closing, s)
  else if c == '"' then
    let (value, rest) := textBody (s.length + 1) [] s
    (.text (String.ofList value), rest)
  else if c == '\'' then quoteToken s
  else if c.isDigit then numberToken (c :: s)
  else if isWordStart c then wordToken (c :: s)
  else markToken c s

def tokensWithin : Nat → List Char → List Token
  | 0, _ | _, [] => []
  | fuel + 1, c :: s =>
    if Text.isBlank c then tokensWithin fuel s
    else if c == '/' && s.head? == some '/' then tokensWithin fuel (s.dropWhile (· != '\n'))
    else if c == '/' && s.head? == some '*' then tokensWithin fuel (afterComment 1 s.tail)
    else
      let (token, rest) := firstToken c s
      token :: tokensWithin fuel rest

/-- Each step takes a character at least, so the length of the text is enough. -/
def trees (source : String) : List Tree :=
  let s := source.toList
  Tree.ofTokens (tokensWithin s.length s)

end FloatMachine.Derive
