import FloatMachine.Host.FileTree
import FloatMachine.Log.Line

/-! What a command asks of the system it runs on, and a system held in memory. -/
namespace FloatMachine

class Host (m : Type → Type) extends Monad m where
  exists? : String → m Bool
  read : String → m (Except FileError Bytes)
  write : String → Bytes → m (Except FileError Unit)
  out : String → m Unit
  err : String → m Unit
  now : m Log.Timestamp
  pause : Nat → m Unit

namespace Host

variable {m : Type → Type} [Host m]

/-- A file that must hold UTF-8. -/
def readText (path : String) : m (Except FileError String) := do
  match ← Host.read path with
  | .error e => return .error e
  | .ok bytes =>
    match String.fromUTF8? ⟨bytes.toArray⟩ with
    | some text => return .ok text
    | none => return .error .notText

def log (s : Log.Settings) (level : Log.Level) (message : String) : m Unit := do
  Host.err (Log.line s (← Host.now) level message)

end Host

/-- Files, what was printed, what was logged, and a clock that stands still. -/
structure Sandbox where
  files : FileTree
  out : String := ""
  err : String := ""
  clock : Log.Timestamp

instance : Host (StateM Sandbox) where
  exists? path := fun s => (s.files.exists? path, s)
  read path := fun s => (s.files.read path, s)
  write path content := fun s =>
    match s.files.write path content with
    | .ok files => (.ok (), { s with files })
    | .error e => (.error e, s)
  out text := fun s => ((), { s with out := s.out ++ text })
  err text := fun s => ((), { s with err := s.err ++ text })
  now := fun s => (s.clock, s)
  pause _ := fun s => ((), s)

end FloatMachine
