/-! Why a run stops before its end. -/
namespace FloatMachine

inductive Fault
  | requirementsNotMet
  | operationNotImplemented
  | registerOutOfBound
  | divisionByZero
  | notANumber
  /-- A push onto a full stack, or a read from an empty one. -/
  | stackOverflow
  | invalidJump
  | deviceOverflow
  | deviceUnplugged
  | deviceFailed
  | assertFailed
deriving DecidableEq, Repr

def Fault.message : Fault → String
  | .requirementsNotMet => "machine does not meet the program requirements"
  | .operationNotImplemented => "operation not implemented"
  | .registerOutOfBound => "register out of bound"
  | .divisionByZero => "division by zero"
  | .notANumber => "result is not a number"
  | .stackOverflow => "stack overflow"
  | .invalidJump => "invalid jump"
  | .deviceOverflow => "device slot out of range"
  | .deviceUnplugged => "device unplugged"
  | .deviceFailed => "device failed"
  | .assertFailed => "assertion failed"

/-- The fault with the line and text of the instruction; a run refused before its first step
stops at line 0 with a description. -/
structure ExecutionError where
  fault : Fault
  line : UInt64
  text : String
deriving DecidableEq, Repr

def ExecutionError.message (e : ExecutionError) : String :=
  s!"{e.fault.message} at line {e.line.toNat}: {e.text}"

end FloatMachine
