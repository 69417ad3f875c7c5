import FloatMachine.Binary32.Shortest
import FloatMachine.Machine.Step
import FloatMachine.Text.Align

/-! What an observer sees after a step. -/
namespace FloatMachine

structure Snapshot where
  line : UInt64
  text : String
  registers : Array Binary32
  stack : Stack
  returnAddress : Binary32

namespace Snapshot

def of {δ : Type} (i : Instruction) (m : Machine δ) : Snapshot :=
  ⟨i.line, i.text, m.registers, m.stack, m.returnAddress⟩

def listText (values : List Binary32) : String :=
  "[" ++ ", ".intercalate (values.map Binary32.toPointed) ++ "]"

def toText (s : Snapshot) : String :=
  Text.alignRight 4 (toString s.line.toNat) ++ " | " ++ Text.alignLeft 24 s.text ++
  s!" | sp={s.stack.pointer} ra={s.returnAddress.toDecimal} regs=" ++
  listText s.registers.toList ++ " stack=" ++ listText s.stack.live

end Snapshot
end FloatMachine
