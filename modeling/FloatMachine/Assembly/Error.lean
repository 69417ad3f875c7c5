import FloatMachine.Program.Operation
import FloatMachine.Text.Align

/-! Why a source line is rejected, where, and the diagnostic that shows it. -/
namespace FloatMachine.Assembly

inductive Cause
  | noMnemonic
  | reservedMnemonic (word : String)
  | unknownMnemonic (word : String)
  | wrongCount (operation : Operation) (found : Nat)
  | literalDestination (word : String)
  | invalidDestination (word : String)
  | invalidOperand (word : String)
deriving DecidableEq, Repr

inductive Kind
  | malformed
  | unsupported
deriving DecidableEq, Repr

def Kind.message : Kind → String
  | .malformed => "syntax error"
  | .unsupported => "operation not supported"

namespace Cause

def kind : Cause → Kind
  | .reservedMnemonic _ => .unsupported
  | _ => .malformed

def message : Cause → String
  | .noMnemonic => "empty instruction"
  | .reservedMnemonic w => s!"`{w}` is not supported by this processor"
  | .unknownMnemonic w => s!"unknown mnemonic `{w}`"
  | .wrongCount op found =>
    s!"`{op.mnemonic}` expects {op.shape.arity} operand(s), found {found}"
  | .literalDestination w => s!"cannot write to literal `{w}`"
  | .invalidDestination w => s!"expected register, got `{w}`"
  | .invalidOperand w => s!"invalid operand `{w}`"

end Cause

/-- Lines and columns count from 1; `text` is the whole line, comment included. -/
structure Error where
  cause : Cause
  line : Nat
  column : Nat
  text : String
deriving DecidableEq, Repr

namespace Error

def kind (e : Error) : Kind := e.cause.kind

def message (e : Error) : String :=
  s!"{e.kind.message} at line {e.line}, column {e.column}: {e.cause.message}"

def spaces (n : Nat) : String := String.ofList (List.replicate n ' ')

/-- The line without the carriage returns at its end. -/
def quotedLine (e : Error) : String :=
  String.ofList (e.text.toList.reverse.dropWhile (· == '\r')).reverse

/-- The message, the place, and the line with a caret under its column. -/
def diagnostic (file : String) (e : Error) : String :=
  s!"error: {e.kind.message}: {e.cause.message}\n" ++
  s!" --> {file}:{e.line}:{e.column}\n" ++
  "     |\n" ++
  Text.alignRight 4 (toString e.line) ++ " | " ++ e.quotedLine ++ "\n" ++
  "     | " ++ spaces (e.column - 1) ++ "^\n"

end Error
end FloatMachine.Assembly
