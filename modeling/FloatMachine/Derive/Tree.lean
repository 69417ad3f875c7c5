import FloatMachine.Text.Blank

/-! Source text of an item as trees of tokens, and how trees are written: tokens stand one
space apart, and a group keeps its brackets close unless they are braces. -/
namespace FloatMachine.Derive

inductive Bracket
  | round
  | square
  | curly
deriving DecidableEq, Repr

/-- A text literal keeps its value, any other literal only its spelling. -/
inductive Token
  | word (name : String)
  | integer (spelling : String)
  | text (value : String)
  | literal (spelling : String)
  | mark (spelling : String)
  | opening (bracket : Bracket)
  | closing
deriving DecidableEq, Repr

inductive Tree
  | leaf (token : Token)
  | group (bracket : Bracket) (body : List Tree)

/-- Parts with one space between them; empty parts leave none. -/
def spaced (parts : List String) : String := " ".intercalate (parts.filter (fun p => !p.isEmpty))

def round (body : String) : String := "(" ++ body ++ ")"
def square (body : String) : String := "[" ++ body ++ "]"
def curly (body : String) : String := spaced ["\x7b", body, "\x7d"]

/-- Ranges of characters that show nothing of their own: controls, formats, marks that join
the character before them, and those for private use. -/
def hiddenRanges : List (Nat × Nat) :=
  [(0, 0x1f), (0x7f, 0x9f), (0xad, 0xad), (0x300, 0x36f), (0x200b, 0x200f), (0x202a, 0x202e),
   (0x2060, 0x206f), (0x20d0, 0x20f0), (0xe000, 0xf8ff), (0xfe00, 0xfe0f), (0xfe20, 0xfe2f),
   (0xfeff, 0xfeff)]

/-- Hidden characters and blanks other than the space are written by their codes. -/
def isShown (c : Char) : Bool :=
  c == ' ' || (!Text.isBlank c &&
    hiddenRanges.all fun (first, last) => decide (c.toNat < first) || decide (last < c.toNat))

def escapeChar (c : Char) : List Char :=
  if c == '"' || c == '\\' then ['\\', c]
  else if c == '\n' then ['\\', 'n']
  else if c == '\r' then ['\\', 'r']
  else if c == '\t' then ['\\', 't']
  else if c == '\x00' then ['\\', '0']
  else if isShown c then [c]
  else "\\u\x7b".toList ++ Nat.toDigits 16 c.toNat ++ ['\x7d']

/-- A zero character has its longer escape before a digit that could be taken for its own. -/
def escaped : List Char → List Char
  | [] => []
  | c :: s =>
    (if c == '\x00' && s.head?.any (fun d => decide ('0' ≤ d) && decide (d ≤ '7')) then
      "\\x00".toList else escapeChar c) ++ escaped s

def quoted (s : String) : String := String.ofList ('"' :: escaped s.toList ++ ['"'])

def Token.spelling : Token → String
  | .word s | .integer s | .literal s | .mark s => s
  | .text v => quoted v
  | .opening _ | .closing => ""

mutual

def Tree.spelling : Tree → String
  | .leaf t => t.spelling
  | .group .round body => round (spaced (Tree.spellings body))
  | .group .square body => square (spaced (Tree.spellings body))
  | .group .curly body => curly (spaced (Tree.spellings body))

def Tree.spellings : List Tree → List String
  | [] => []
  | t :: ts => t.spelling :: Tree.spellings ts

end

/-- Groups still open, innermost first, each with what came before it, last first. -/
abbrev Pending := List (Bracket × List Tree)

def place : List Tree × Pending → Token → List Tree × Pending
  | (done, pending), .opening b => ([], (b, done) :: pending)
  | (done, (b, before) :: pending), .closing => (.group b done.reverse :: before, pending)
  | (done, []), .closing => (done, [])
  | (done, pending), t => (.leaf t :: done, pending)

def Tree.ofTokens (ts : List Token) : List Tree := (ts.foldl place ([], [])).1.reverse

end FloatMachine.Derive
