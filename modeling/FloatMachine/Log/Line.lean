import FloatMachine.Log.Calendar
import FloatMachine.Log.Level

/-! What is written for one message. -/
namespace FloatMachine.Log

structure Settings where
  minimum : Level := .info
  showTime : Bool := true
  showLevel : Bool := true
  colour : Bool := false
deriving DecidableEq, Repr

def reset : String := "\x1b[0m"

/-- Nothing for a message below the least level that is written. -/
def line (s : Settings) (time : Timestamp) (level : Level) (message : String) : String :=
  if level.below s.minimum then ""
  else
    (if s.colour then reset ++ level.colour else "") ++
    (if s.showTime then time.toText ++ " " else "") ++
    (if s.showLevel then "[" ++ Text.alignLeft 5 level.toText ++ "] " else "") ++
    message ++ "\n" ++
    (if s.colour then reset else "")

end FloatMachine.Log
