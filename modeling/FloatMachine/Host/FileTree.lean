import FloatMachine.Codec.Decoder
import FloatMachine.Host.Path

/-! Files and directories held in memory, and why a path cannot be read or written. -/
namespace FloatMachine

inductive FileError
  | notFound
  | notADirectory
  | isADirectory
  | nameTooLong
  | zeroByte
  | notText
  | other (text : String)
deriving DecidableEq, Repr

def FileError.message : FileError → String
  | .notFound => "No such file or directory (os error 2)"
  | .notADirectory => "Not a directory (os error 20)"
  | .isADirectory => "Is a directory (os error 21)"
  | .nameTooLong => "File name too long (os error 36)"
  | .zeroByte => "file name contained an unexpected NUL byte"
  | .notText => "stream did not contain valid UTF-8"
  | .other text => text

/-- A sink takes what is written to it and is always empty. -/
inductive Node
  | file (content : Bytes)
  | directory
  | sink
deriving DecidableEq, Repr

/-- Nodes by their parts below the root; relative paths begin at `home`. -/
structure FileTree where
  home : List String
  nodes : List (List String × Node)

namespace FileTree

def node? (t : FileTree) (place : List String) : Option Node :=
  if place.isEmpty then some .directory else t.nodes.lookup place

def set (t : FileTree) (place : List String) (n : Node) : FileTree :=
  { t with nodes := (place, n) :: t.nodes.filter (fun entry => entry.1 != place) }

theorem node?_set (t : FileTree) {place : List String} (n : Node) (h : place ≠ []) :
    (t.set place n).node? place = some n := by
  simp [node?, set, h]

/-- Goes down the parts of a path but for the last, through directories that exist. -/
def descend (t : FileTree) : List String → List String → Except FileError (List String)
  | place, [] =>
    match t.node? place with
    | some .directory => .ok place
    | some _ => .error .notADirectory
    | none => .error .notFound
  | place, part :: rest =>
    match t.node? place with
    | some .directory =>
      if part.isEmpty || part == "." then t.descend place rest
      else if part == ".." then t.descend place.dropLast rest
      else if 255 < part.utf8ByteSize then .error .nameTooLong
      else t.descend (place ++ [part]) rest
    | some _ => .error .notADirectory
    | none => .error .notFound

/-- Where a path ends, which may be a place without a node; `true` when the last part asks
for a directory. -/
def resolve (t : FileTree) (path : String) : Except FileError (List String × Bool) :=
  if path.toList.contains '\x00' then .error .zeroByte
  else if path.isEmpty then .error .notFound
  else if 4096 ≤ path.utf8ByteSize then .error .nameTooLong
  else do
    let parts := (Path.parts path).map String.ofList
    let start := if path.toList.head? = some '/' then [] else t.home
    let place ← t.descend start parts.dropLast
    let last := parts.getLast?.getD ""
    if last.isEmpty || last == "." then return (place, true)
    else if last == ".." then return (place.dropLast, true)
    else if 255 < last.utf8ByteSize then throw .nameTooLong
    else return (place ++ [last], false)

def exists? (t : FileTree) (path : String) : Bool :=
  match t.resolve path with
  | .ok (place, _) => (t.node? place).isSome
  | .error _ => false

def read (t : FileTree) (path : String) : Except FileError Bytes := do
  let (place, _) ← t.resolve path
  match t.node? place with
  | some (.file content) => return content
  | some .directory => throw .isADirectory
  | some .sink => return []
  | none => throw .notFound

/-- A path that ends in a slash names a directory, whether one is there or not. -/
def write (t : FileTree) (path : String) (content : Bytes) : Except FileError FileTree := do
  let name := String.ofList (path.toList.reverse.dropWhile (· == '/')).reverse
  let (place, directory) ← t.resolve (if name.isEmpty then path else name)
  if directory || name != path then throw .isADirectory
  match t.node? place with
  | some .directory => throw .isADirectory
  | some .sink => return t
  | some (.file _) | none => return t.set place (.file content)

end FileTree
end FloatMachine
