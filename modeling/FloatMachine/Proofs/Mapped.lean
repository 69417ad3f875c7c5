import FloatMachine.Proofs.Runs

/-! Programs mapped instruction by instruction. When each instruction still makes the step that it
made before, so does the run: it goes through the same places and machines, and what snapshots and
errors tell of instructions is mapped with them. -/
namespace FloatMachine

def Status.mapError (h : ExecutionError → ExecutionError) : Status → Status
  | .failed e => .failed (h e)
  | s => s

namespace Execution

variable {δ : Type}

def mapError (h : ExecutionError → ExecutionError) (x : Execution δ) : Execution δ :=
  { x with status := x.status.mapError h }

variable [Device δ]

/-- On machines with the invariant, which its steps keep, the mapped program makes the steps of the
program itself; the errors are mapped as the instructions are. -/
structure Mapped (program : List Instruction) (g : Instruction → Instruction)
    (h : ExecutionError → ExecutionError) (Inv : Machine δ → Prop) : Prop where
  kept : ∀ i ∈ program, Keeps Inv (fun _ => True) (Machine.step program i) fun _ => True
  step : ∀ i ∈ program, ∀ m, Inv m →
    Machine.step (program.map g) (g i) m = Machine.step program i m
  error : ∀ i ∈ program, ∀ f, h ⟨f, i.line, i.text⟩ = ⟨f, (g i).line, (g i).text⟩

variable {program : List Instruction} {g : Instruction → Instruction}
  {h : ExecutionError → ExecutionError} {Inv : Machine δ → Prop} {x : Execution δ}

theorem Mapped.next (mapped : Mapped program g h Inv) (inv : Inv x.machine) :
    Inv (x.next program).2.machine ∧
      (x.mapError h).next (program.map g) =
        ((x.next program).1.map g, (x.next program).2.mapError h) := by
  obtain ⟨m, status⟩ := x
  cases status with
  | finished => exact ⟨inv, rfl⟩
  | failed e => exact ⟨inv, rfl⟩
  | running place =>
    have fetch : (program.map g)[place]? = program[place]?.map g := List.getElem?_map
    rcases @next_running δ _ program ⟨m, .running place⟩ place rfl with
      ⟨beyond, ended⟩ | ⟨i, fetched, ⟨flow, n, done, went⟩ | ⟨f, n, failed, stopped⟩⟩
    · rw [ended]
      rw [beyond, Option.map_none] at fetch
      exact ⟨inv, by simp only [Execution.next, mapError, Status.mapError, fetch, Option.map_none]⟩
    · have member := List.mem_of_getElem? fetched
      rw [fetched, Option.map_some] at fetch
      rw [went, next_ok rfl fetch ((mapped.step i member m inv).trans done)]
      refine ⟨((mapped.kept i member).ok inv done).1, ?_⟩
      cases flow <;> rfl
    · have member := List.mem_of_getElem? fetched
      have ended := mapped.kept i member m inv
      rw [failed] at ended
      rw [fetched, Option.map_some] at fetch
      rw [stopped, next_error rfl fetch ((mapped.step i member m inv).trans failed),
        ← mapped.error i member f]
      cases ended with
      | error kept _ => exact ⟨kept, rfl⟩

theorem Mapped.after (mapped : Mapped program g h Inv) (inv : Inv x.machine) (fuel : Nat) :
    after (program.map g) fuel (x.mapError h) = (Execution.after program fuel x).mapError h := by
  induction fuel generalizing x with
  | zero => rfl
  | succ fuel ih =>
    obtain ⟨kept, step⟩ := mapped.next inv
    rw [Execution.after, step, ih kept, Execution.after]

theorem Mapped.seen (mapped : Mapped program g h Inv) (inv : Inv x.machine)
    {shown : Snapshot → Snapshot}
    (shows : ∀ i (m : Machine δ), Snapshot.of (g i) m = shown (.of i m)) (fuel : Nat) :
    seen (program.map g) fuel (x.mapError h) = (Execution.seen program fuel x).map shown := by
  induction fuel generalizing x with
  | zero => rfl
  | succ fuel ih =>
    obtain ⟨kept, step⟩ := mapped.next inv
    rw [Execution.seen, Execution.seen, step, ih kept]
    rcases x.next program with ⟨_ | i, y⟩
    · rfl
    · simp only [Option.map_some, List.map_cons, shows]
      rfl

end Execution
end FloatMachine
