import FloatMachine.Command.Assembler
import FloatMachine.Command.Runner
import Std.Time.DateTime.Timestamp

/-! The commands on the real system. One program holds both: called by a name that begins
with `assembler` it assembles, by any other it runs. -/
namespace FloatMachine

namespace Terminal

def fileError : IO.Error → FileError
  | .noFileOrDirectory .. => .notFound
  | .inappropriateType _ 20 _ => .notADirectory
  | .inappropriateType _ 21 _ => .isADirectory
  | e => .other e.toString

def attempt {α : Type} (act : IO α) : IO (Except FileError α) := do
  try return .ok (← act)
  catch e => return .error (fileError e)

/-- Whatever cannot be opened for another reason than that it is missing is there. -/
def isThere (path : String) : IO Bool := do
  match ← attempt (IO.FS.Handle.mk path .read) with
  | .ok _ => return true
  | .error .notFound | .error .notADirectory => return false
  | .error _ => return true

def clock : IO Log.Timestamp := do
  let nanos := (← Std.Time.Timestamp.now).toNanosecondsSinceUnixEpoch.val.toNat
  return .ofUnix (nanos / 1000000000) (nanos / 1000000 % 1000)

instance : Host IO where
  exists? := isThere
  read path := attempt do return (← IO.FS.readBinFile path).data.toList
  write path content := attempt (IO.FS.writeBinFile path ⟨content.toArray⟩)
  out text := do
    let stream ← IO.getStdout
    stream.putStr text
    stream.flush
  err text := do (← IO.getStderr).putStr text
  now := clock
  pause millis := IO.sleep millis.toUInt32

/-- Colours are for terminals that understand them and users who did not switch them off. -/
def settings : IO Log.Settings := do
  let terminal ← IO.getEnv "TERM"
  let plain ← IO.getEnv "NO_COLOR"
  return { colour := terminal.isSome && terminal != some "dumb" && plain.isNone }

/-- More steps than any run can take. -/
def enough : Nat := 0x4000000000000000

end Terminal
end FloatMachine

open FloatMachine in
def main (args : List String) : IO UInt32 := do
  let name := (← IO.appPath).fileName.getD ""
  let settings ← Terminal.settings
  let code ←
    if name.startsWith "assembler" then Command.Assembler.run (m := IO) settings name args
    else Command.Runner.run (m := IO) settings Terminal.enough name args
  return UInt32.ofNat code
