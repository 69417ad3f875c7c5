import FloatMachine.Proofs.Mapped
import FloatMachine.Proofs.SourceProgram

/-! A machine never looks at the texts of instructions, so programs that differ in them alone make
the same runs; the texts come back in snapshots and errors. -/
namespace FloatMachine

/-- A snapshot without the text of its instruction. -/
def Snapshot.untexted (s : Snapshot) : Snapshot := { s with text := "" }

/-- How an execution stands, with the fault and the line of an error. -/
def Status.untexted : Status → Status
  | .failed e => .failed { e with text := "" }
  | s => s

def Execution.untexted {δ : Type} (x : Execution δ) : Execution δ :=
  { x with status := x.status.untexted }

namespace Machine

section Lines

variable {f : Instruction → Instruction} (program : List Instruction)

theorem lineOf_map (kept : ∀ i, (f i).line = i.line) (target : Binary32) :
    lineOf (program.map f) target = lineOf program target := by
  simp only [lineOf, List.findIdx?_map, Function.comp_def, kept]

theorem returnLine_map (kept : ∀ i, (f i).line = i.line) (line : UInt64) :
    returnLine (program.map f) line = returnLine program line := by
  simp only [returnLine, List.find?_map, Function.comp_def, kept]
  generalize program.find? _ = found
  cases found with
  | none => rfl
  | some i => simp only [Option.map_some, kept]

/-- Of the other instructions a step looks at nothing but the lines. -/
theorem step_map {δ : Type} [Device δ] (kept : ∀ i, (f i).line = i.line) (i : Instruction) :
    (step (program.map f) i : Action δ Flow) = step program i := by
  have jumps : ∀ target,
      (jumpTo (program.map f) target : Action δ Nat) = jumpTo program target := by
    intro target
    rw [jumpTo, lineOf_map program kept, jumpTo]
  unfold step
  simp only [jumps, returnLine_map program kept]

end Lines

theorem step_untexted {δ : Type} [Device δ] (program : List Instruction) (i : Instruction) :
    (step (program.map Instruction.untexted) i.untexted : Action δ Flow) = step program i :=
  step_map (f := Instruction.untexted) program (fun _ => rfl) i.untexted

end Machine

namespace Execution

variable {δ : Type} [Device δ] (program : List Instruction) (x : Execution δ)

theorem mapped_untexted : Mapped (δ := δ) program Instruction.untexted
    (fun e => { e with text := "" }) fun _ => True where
  kept := fun _ _ => Keeps.any _
  step := fun i _ m _ => congrFun (Machine.step_untexted program i) m
  error := fun _ _ _ => rfl

omit [Device δ] in
theorem untexted_eq : x.untexted = x.mapError fun e => { e with text := "" } := by
  obtain ⟨m, status⟩ := x
  cases status <;> rfl

theorem after_untexted (fuel : Nat) :
    after (program.map Instruction.untexted) fuel x.untexted = (after program fuel x).untexted := by
  rw [untexted_eq, untexted_eq]
  exact (mapped_untexted program).after trivial fuel

theorem seen_untexted (fuel : Nat) : seen (program.map Instruction.untexted) fuel x.untexted =
    (seen program fuel x).map Snapshot.untexted := by
  rw [untexted_eq]
  exact (mapped_untexted program).seen trivial (fun _ _ => rfl) fuel

end Execution

namespace Machine

variable {δ : Type} [Device δ]

/-- Two runs stand alike when machines, snapshots and outcomes differ in texts alone. -/
structure SameRuns (m : Machine δ) (p q : Program) : Prop where
  machine : ∀ fuel, (m.outcome fuel p).machine = (m.outcome fuel q).machine
  status : ∀ fuel, (m.outcome fuel p).status.untexted = (m.outcome fuel q).status.untexted
  seen : ∀ fuel, ((Execution.start m p).seen p.instructions fuel).map Snapshot.untexted =
    ((Execution.start m q).seen q.instructions fuel).map Snapshot.untexted

theorem sameRuns_of_untexted {p q : Program} (same : p.untexted = q.untexted) (m : Machine δ) :
    SameRuns m p q := by
  obtain ⟨instructions, requirements⟩ := Program.mk.inj same
  have start : Execution.start m p = Execution.start m q := by
    rw [Execution.start, Execution.start, requirements]
  have outcome : ∀ fuel, (m.outcome fuel p).untexted = (m.outcome fuel q).untexted := by
    intro fuel
    rw [outcome_eq, outcome_eq, ← Execution.after_untexted, instructions, start,
      Execution.after_untexted]
  constructor
  · intro fuel
    exact (Execution.mk.inj (outcome fuel)).1
  · intro fuel
    exact (Execution.mk.inj (outcome fuel)).2
  · intro fuel
    rw [← Execution.seen_untexted, instructions, start, Execution.seen_untexted]

end Machine
end FloatMachine
