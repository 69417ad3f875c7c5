/-! Lines end with a newline, and a carriage return before it belongs to the ending. What
stands after the last newline is a line of its own when it is not empty, and keeps a
carriage return at its end. -/
namespace FloatMachine.Text

def dropReturn (line : List Char) : List Char :=
  if line.getLast? = some '\r' then line.dropLast else line

/-- Pieces between newlines as lines: all but the last were ended by one. -/
def endings : List (List Char) → List (List Char)
  | [] => []
  | [last] => if last.isEmpty then [] else [last]
  | line :: rest => dropReturn line :: endings rest

def lines (s : List Char) : List (List Char) := endings (s.splitOn '\n')

end FloatMachine.Text
