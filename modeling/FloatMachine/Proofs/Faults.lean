import FloatMachine.Proofs.Runs
import FloatMachine.Proofs.Unmoved

/-! Runs that fault. A step that faults moves nothing, so the run ends in the state that its
observer was shown last, and names the instruction that came next. -/
namespace FloatMachine

/-- The machine has the registers, the stack and the return address of the snapshot. -/
structure Snapshot.Shows {δ : Type} (s : Snapshot) (m : Machine δ) : Prop where
  registers : m.registers = s.registers
  stack : m.stack = s.stack
  returnAddress : m.returnAddress = s.returnAddress

namespace Execution

variable {δ : Type}

/-- The machine as the last snapshot shows it, or as it was before the first. -/
def LastShown (before : Machine δ) (snapshots : List Snapshot) (m : Machine δ) : Prop :=
  match snapshots.getLast? with
  | some s => s.Shows m
  | none => m.registers = before.registers ∧ m.stack = before.stack ∧
      m.returnAddress = before.returnAddress

theorem LastShown.cons {before m n : Machine δ} {i : Instruction} {snapshots : List Snapshot}
    (shown : LastShown n snapshots m) : LastShown before (.of i n :: snapshots) m := by
  unfold LastShown at shown ⊢
  rw [List.getLast?_cons]
  split at shown
  · rename_i s last
    simpa only [last, Option.getD_some] using shown
  · rename_i nothing
    simp only [nothing, Option.getD_none]
    exact ⟨shown.1, shown.2.1, shown.2.2⟩

theorem LastShown.unmoved {before n m : Machine δ} {snapshots : List Snapshot}
    (unmoved : Machine.Unmoved before (fun _ => True) n) (shown : LastShown n snapshots m) :
    LastShown before snapshots m := by
  unfold LastShown at shown ⊢
  split at shown
  · exact shown
  · exact ⟨shown.1.trans unmoved.registers, shown.2.1.trans unmoved.stack,
      shown.2.2.trans unmoved.returnAddress⟩

variable [Device δ] {program : List Instruction}

/- A snapshot shows the state after its step, and the steps without one do not move it. -/
theorem after_shown (x : Execution δ) (fuel : Nat) :
    LastShown x.machine (seen program fuel x) (after program fuel x).machine := by
  induction fuel generalizing x with
  | zero => exact ⟨rfl, rfl, rfl⟩
  | succ fuel ih =>
    by_cases halted : ∀ place, x.status ≠ .running place
    · rw [seen_stopped halted, after_stopped halted]
      exact ⟨rfl, rfl, rfl⟩
    · obtain ⟨place, running⟩ := not_forall_not.1 halted
      have rest := ih (x.next program).2
      rw [seen, after]
      rcases next_running running with
        ⟨-, ended⟩ | ⟨i, -, ⟨flow, m, -, went⟩ | ⟨f, m, faulted, failed⟩⟩
      · rw [ended] at rest ⊢
        exact rest
      · rw [went] at rest ⊢
        exact rest.cons
      · rw [failed] at rest ⊢
        exact rest.unmoved (Machine.step_unmoved faulted)

/-- What stands at a run that failed: the instruction that came next after those shown. -/
theorem failed_at {x : Execution δ} {place : Nat} (running : x.status = .running place)
    {fuel : Nat} {e : ExecutionError} (failed : (after program fuel x).status = .failed e) :
    ∃ last i, (after program (seen program fuel x).length x).status = .running last ∧
      program[last]? = some i ∧
      Machine.step program i (after program (seen program fuel x).length x).machine =
        (.error e.fault, (after program fuel x).machine) ∧
      e.line = i.line ∧ e.text = i.text := by
  induction fuel generalizing x place with
  | zero =>
    rw [after, running] at failed
    cases failed
  | succ fuel ih =>
    rw [after] at failed ⊢
    rw [seen]
    rcases next_running running with
      ⟨-, ended⟩ | ⟨i, fetched, ⟨flow, m, -, went⟩ | ⟨f, m, faulted, stopped⟩⟩
    · rw [ended, after_stopped (by simp)] at failed
      cases failed
    · rw [went] at failed ⊢
      -- only a step to another place can be followed by a fault
      cases flow with
      | next => simpa only [List.length_cons, after, went] using ih rfl failed
      | jump target => simpa only [List.length_cons, after, went] using ih rfl failed
      | halt =>
        rw [after_stopped (by simp [follow])] at failed
        cases failed
    · have halted : ∀ place, (⟨m, .failed ⟨f, i.line, i.text⟩⟩ : Execution δ).status ≠
          .running place := by simp
      rw [stopped, after_stopped halted] at failed
      cases failed
      rw [stopped, after_stopped halted, seen_stopped halted]
      exact ⟨place, i, running, fetched, faulted, rfl, rfl⟩

end Execution

namespace Machine

/-- A step that faults leaves registers, stack and return address bit for bit as they were, and
display, table and cells with their contents. So a run that faults stands as its observer was
last shown it, or all zero before the first snapshot, and names the instruction that came next. -/
theorem fault_leaves_state :
    (∀ {δ : Type} [Device δ] (program : List Instruction) (i : Instruction) (m t : Machine δ)
        (f : Fault), step program i m = (.error f, t) →
      t.registers = m.registers ∧ t.stack = m.stack ∧ t.returnAddress = m.returnAddress) ∧
    (∀ (program : List Instruction) (i : Instruction) (m t : Machine Peripheral) (f : Fault),
        step program i m = (.error f, t) →
      t.bus.slots = m.bus.slots ∧ t.bus.devices = m.bus.devices) ∧
    ∀ {δ : Type} [Device δ] (m : Machine δ) (p : Program) (fuel : Nat) (e : ExecutionError),
      (m.outcome fuel p).error? = some e → e.fault ≠ .requirementsNotMet →
      let start := Execution.start m p
      let shown := start.seen p.instructions fuel
      let left := (m.outcome fuel p).machine
      (∀ {μ : Type → Type} [Monad μ] [LawfulMonad μ] (observe : Snapshot → μ Unit),
        m.run observe fuel p = do
          shown.forM observe
          return m.outcome fuel p) ∧
      (∀ s, shown.getLast? = some s → s.Shows left) ∧
      (shown = [] → left.registers = Array.replicate m.registers.size .zero ∧
        left.stack = Stack.empty m.stack.cells.size ∧ left.returnAddress = .zero) ∧
      ∃ place i, (start.after p.instructions shown.length).status = .running place ∧
        p.instructions[place]? = some i ∧
        step p.instructions i (start.after p.instructions shown.length).machine =
          (.error e.fault, left) ∧
        e.line = i.line ∧ e.text = i.text := by
  refine ⟨?_, ?_, ?_⟩
  · intro δ _ program i m t f faulted
    have unmoved := step_unmoved faulted
    exact ⟨unmoved.registers, unmoved.stack, unmoved.returnAddress⟩
  · intro program i m t f faulted
    have same := step_same_bus Peripheral.steady faulted
    exact ⟨same.slots, same.devices⟩
  · intro δ _ m p fuel e failed other start shown left
    have status := Execution.error?_eq_some.1 failed
    have enough : ¬ m.config.FallsShort p.requirements := by
      intro short
      rw [outcome_refused short] at status
      cases status
      exact other rfl
    have begun : start = ⟨m.reset, .running 0⟩ := start_accepted enough
    have ended : m.outcome fuel p = start.after p.instructions fuel := outcome_eq fuel p m
    have last : Execution.LastShown m.reset shown left := by
      have machine : start.machine = m.reset := by rw [begun]
      rw [← machine, show left = (start.after p.instructions fuel).machine by rw [← ended]]
      exact Execution.after_shown start fuel
    refine ⟨fun observe => run_eq observe fuel p m, ?_, ?_, ?_⟩
    · intro s final
      rwa [Execution.LastShown, final] at last
    · intro nothing
      rwa [Execution.LastShown, nothing] at last
    · have running : start.status = .running 0 := by rw [begun]
      have stopped : (start.after p.instructions fuel).status = .failed e := ended ▸ status
      obtain ⟨place, i, going, fetched, faulted, line, text⟩ :=
        Execution.failed_at running stopped
      rw [← ended] at faulted
      exact ⟨place, i, going, fetched, faulted, line, text⟩

/-- The display takes no write to its capacity, so the popped value stays on the stack. -/
theorem fault_leaves_state_pop :
    let p := Program.ofInstructions
      [⟨.move, some (.register 0), .literal ⟨0x3f000000⟩, .unused, 1, "mov r0 0.5"⟩,
        ⟨.push, some (.register 0), .unused, .unused, 2, "push r0"⟩,
        ⟨.pop, some (.device ⟨0, 3⟩), .unused, .unused, 3, "pop d0:3"⟩]
    let m : Machine Peripheral := (attach (new {} #[.display (.blank 4)]) 0 0).2
    let before := (Execution.start m p).after p.instructions 2
    let left := (m.outcome 3 p).machine
    (m.outcome 3 p).error? = some ⟨.deviceFailed, 3, "pop d0:3"⟩ ∧
      left.stack.live = [⟨0x3f000000⟩] ∧ left.stack = before.machine.stack ∧
      left.bus.devices = before.machine.bus.devices := by
  intro p m before left
  have failed : (m.outcome 3 p).error? = some ⟨.deviceFailed, 3, "pop d0:3"⟩ := by
    decide +kernel
  obtain ⟨state, devices, runs⟩ := fault_leaves_state
  obtain ⟨-, last, -, place, i, -, -, faulted, -⟩ := runs m p 3 _ failed (by decide)
  have two : ((Execution.start m p).seen p.instructions 3).length = 2 := by decide +kernel
  rw [two] at faulted
  obtain ⟨s, final⟩ : ∃ s, ((Execution.start m p).seen p.instructions 3).getLast? = some s :=
    Option.isSome_iff_exists.1 (by decide +kernel)
  have live : ((Execution.start m p).seen p.instructions 3).getLast?.map (·.stack.live) =
      some [⟨0x3f000000⟩] := by decide +kernel
  rw [final] at live
  refine ⟨failed, ?_, (state _ _ _ _ _ faulted).2.1, (devices _ _ _ _ _ faulted).2⟩
  rw [(last s final).stack]
  exact Option.some.inj live

end Machine
end FloatMachine
