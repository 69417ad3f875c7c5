/-! Levels of log messages, least first. -/
namespace FloatMachine.Log

inductive Level
  | debug
  | info
  | warn
  | error
deriving DecidableEq, Repr

namespace Level

def rank : Level → Nat
  | .debug => 0
  | .info => 1
  | .warn => 2
  | .error => 3

def below (a b : Level) : Bool := decide (a.rank < b.rank)

def toText : Level → String
  | .debug => "DEBUG"
  | .info => "INFO"
  | .warn => "WARN"
  | .error => "ERROR"

def colour : Level → String
  | .debug => "\x1b[36m"
  | .info => ""
  | .warn => "\x1b[1m\x1b[33m"
  | .error => "\x1b[1m\x1b[31m"

end Level
end FloatMachine.Log
