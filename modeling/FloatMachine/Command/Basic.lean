import FloatMachine.Assembly.Parser
import FloatMachine.Host.Console

/-! Commands run on a host and may end early with an exit code. -/
namespace FloatMachine

abbrev Command (m : Type → Type) (α : Type) := ExceptT Nat m α

namespace Command

variable {m : Type → Type} [Host m]

def exitCode (c : Command m Unit) : m Nat := do
  match ← c.run with
  | .ok () => return 0
  | .error code => return code

def log (s : Log.Settings) (level : Log.Level) (message : String) : Command m Unit :=
  ExceptT.lift (Host.log s level message)

def info (s : Log.Settings) (message : String) : Command m Unit := log s .info message

def fail {α : Type} (s : Log.Settings) (message : String) : Command m α := do
  log s .error message
  throw 1

def need {ε α : Type} (s : Log.Settings) (describe : ε → String) (r : Except ε α) :
    Command m α :=
  match r with
  | .ok v => return v
  | .error e => fail s (describe e)

def readText (s : Log.Settings) (path : String) : Command m String := do
  need s (fun e => s!"Failed to read {path}: {e.message}") (← ExceptT.lift (Host.readText path))

def usage {α : Type} (s : Log.Settings) (text : String) (code : Nat) : Command m α := do
  info s text
  throw code

def unexpected {α : Type} (s : Log.Settings) (usageText argument : String) : Command m α := do
  log s .error s!"Unexpected argument: {argument}\n"
  usage s usageText 1

end Command
end FloatMachine
