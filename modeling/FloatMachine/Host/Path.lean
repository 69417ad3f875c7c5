/-! Path texts: their directory, the stem of their file name, and what they are joined with.
Empty parts and `.` count for nothing except at the start. -/
namespace FloatMachine.Path

/-- The parts between slashes; the first part of an absolute path is empty. -/
def parts (path : String) : List (List Char) := path.toList.splitOn '/'

def isVoid (part : List Char) : Bool := part.isEmpty || part == ['.']

/-- Parts after the first, up to the last one that counts. -/
def significant (rest : List (List Char)) : List (List Char) :=
  (rest.reverse.dropWhile isVoid).reverse

def joined (first : List Char) (rest : List (List Char)) : String :=
  if first.isEmpty && rest.isEmpty then "/"
  else String.ofList (['/'].intercalate (first :: rest))

/-- All but the last part; nothing is above the root or an empty path. -/
def parent? (path : String) : Option String :=
  if path.isEmpty then none
  else
    match parts path with
    | [] => none
    | first :: rest =>
      match significant rest with
      | [] => if first.isEmpty then none else some ""
      | kept@(_ :: _) => some (joined first (significant kept.dropLast))

/-- The last part, unless it stands for a directory. -/
def fileName? (path : String) : Option (List Char) :=
  match parts path with
  | [] => none
  | first :: rest =>
    let last := (significant rest).getLast?.getD first
    if isVoid last || last == ['.', '.'] then none else some last

/-- The file name up to its last dot; a dot at its start does not count. -/
def stem? (path : String) : Option String := do
  let name ← fileName? path
  let before := (name.reverse.dropWhile (· != '.')).tail.reverse
  return String.ofList (if before.isEmpty then name else before)

def join (directory name : String) : String :=
  if directory.isEmpty || directory.toList.getLast? == some '/' then directory ++ name
  else directory ++ "/" ++ name

end FloatMachine.Path
