import FloatMachine.Machine.Run
import FloatMachine.Proofs.Needs
import FloatMachine.Proofs.Outcome

/-! Runs as iterated steps. An observer sees a run and has no part in it, so a run is a list of
snapshots and an execution; what every step keeps is kept by the execution. -/
namespace FloatMachine

namespace Execution

variable {δ : Type} [Device δ]

/-- The execution after at most that many steps. -/
def after (program : List Instruction) : Nat → Execution δ → Execution δ
  | 0, x => x
  | fuel + 1, x => after program fuel (x.next program).2

/-- What an observer of these steps is shown, first one first. -/
def seen (program : List Instruction) : Nat → Execution δ → List Snapshot
  | 0, _ => []
  | fuel + 1, x =>
    let rest := seen program fuel (x.next program).2
    match x.next program with
    | (some i, y) => .of i y.machine :: rest
    | (none, _) => rest

/- An execution that is over goes no further, so the steps left to it do nothing. -/
theorem next_stopped {program : List Instruction} {x : Execution δ}
    (stopped : ∀ place, x.status ≠ .running place) : x.next program = (none, x) := by
  unfold next
  split
  · rfl
  · rfl
  · rename_i place running
    exact absurd running (stopped place)

theorem next_running {program : List Instruction} {x : Execution δ} {place : Nat}
    (running : x.status = .running place) :
    (program[place]? = none ∧ x.next program = (none, { x with status := .finished })) ∨
    ∃ i, program[place]? = some i ∧
      ((∃ flow m, Machine.step program i x.machine = (.ok flow, m) ∧
        x.next program = (some i, ⟨m, follow place flow⟩)) ∨
      ∃ f m, Machine.step program i x.machine = (.error f, m) ∧
        x.next program = (none, ⟨m, .failed ⟨f, i.line, i.text⟩⟩)) := by
  simp only [next, running]
  rcases program[place]? with _ | i
  · exact Or.inl ⟨rfl, rfl⟩
  · refine Or.inr ⟨i, rfl, ?_⟩
    dsimp only
    rcases Machine.step program i x.machine with ⟨f | flow, m⟩
    · exact Or.inr ⟨f, m, rfl, rfl⟩
    · exact Or.inl ⟨flow, m, rfl, rfl⟩

theorem next_ok {program : List Instruction} {x : Execution δ} {place : Nat} {i : Instruction}
    {flow : Flow} {m : Machine δ} (running : x.status = .running place)
    (fetched : program[place]? = some i) (done : Machine.step program i x.machine = (.ok flow, m)) :
    x.next program = (some i, ⟨m, follow place flow⟩) := by
  simp only [next, running, fetched, done]

theorem next_error {program : List Instruction} {x : Execution δ} {place : Nat} {i : Instruction}
    {f : Fault} {m : Machine δ} (running : x.status = .running place)
    (fetched : program[place]? = some i)
    (failed : Machine.step program i x.machine = (.error f, m)) :
    x.next program = (none, ⟨m, .failed ⟨f, i.line, i.text⟩⟩) := by
  simp only [next, running, fetched, failed]

theorem next_some {program : List Instruction} {x : Execution δ} {i : Instruction}
    (done : (x.next program).1 = some i) :
    ∃ place flow m, x.status = .running place ∧ program[place]? = some i ∧
      Machine.step program i x.machine = (.ok flow, m) ∧
      (x.next program).2 = ⟨m, follow place flow⟩ := by
  by_cases stopped : ∀ place, x.status ≠ .running place
  · rw [next_stopped stopped] at done
    cases done
  · obtain ⟨place, running⟩ := not_forall_not.1 stopped
    rcases next_running running with
      ⟨-, ended⟩ | ⟨j, fetched, ⟨flow, m, stepped, went⟩ | ⟨f, m, -, failed⟩⟩
    · rw [ended] at done
      cases done
    · rw [went] at done ⊢
      cases done
      exact ⟨place, flow, m, running, fetched, stepped, rfl⟩
    · rw [failed] at done
      cases done

theorem next_none {program : List Instruction} {x : Execution δ}
    (nothing : (x.next program).1 = none) (place : Nat) :
    (x.next program).2.status ≠ .running place := by
  by_cases stopped : ∀ place, x.status ≠ .running place
  · rw [next_stopped stopped]
    exact stopped place
  · obtain ⟨here, running⟩ := not_forall_not.1 stopped
    rcases next_running running with
      ⟨-, ended⟩ | ⟨j, -, ⟨flow, m, -, went⟩ | ⟨f, m, -, failed⟩⟩
    · rw [ended]
      simp
    · rw [went] at nothing
      cases nothing
    · rw [failed]
      simp

theorem after_stopped {program : List Instruction} {x : Execution δ}
    (stopped : ∀ place, x.status ≠ .running place) (fuel : Nat) : after program fuel x = x := by
  induction fuel with
  | zero => rfl
  | succ fuel ih => rw [after, next_stopped stopped, ih]

theorem after_succ (program : List Instruction) (fuel : Nat) (x : Execution δ) :
    after program (fuel + 1) x = ((after program fuel x).next program).2 := by
  induction fuel generalizing x with
  | zero => rfl
  | succ fuel ih => exact ih (x.next program).2

theorem seen_succ (program : List Instruction) (fuel : Nat) (x : Execution δ) :
    seen program (fuel + 1) x = seen program fuel x ++
      (((after program fuel x).next program).1.map fun i =>
        Snapshot.of i ((after program fuel x).next program).2.machine).toList := by
  induction fuel generalizing x with
  | zero =>
    rw [seen, seen, seen, after]
    rcases x.next program with ⟨_ | i, y⟩ <;> rfl
  | succ fuel ih =>
    rw [seen, ih, seen, after]
    rcases x.next program with ⟨_ | i, y⟩ <;> simp

theorem seen_stopped {program : List Instruction} {x : Execution δ}
    (stopped : ∀ place, x.status ≠ .running place) (fuel : Nat) : seen program fuel x = [] := by
  induction fuel with
  | zero => rfl
  | succ fuel ih => rw [seen, next_stopped stopped]; exact ih

/-- An observer is shown the snapshots one after the other, and the execution is the same for
every observer. -/
theorem watch_eq {μ : Type → Type} [Monad μ] [LawfulMonad μ] (observe : Snapshot → μ Unit)
    (program : List Instruction) (fuel : Nat) (x : Execution δ) :
    watch observe program fuel x = do
      (seen program fuel x).forM observe
      return after program fuel x := by
  induction fuel generalizing x with
  | zero => simp [watch, seen, after]
  | succ fuel ih =>
    unfold watch
    split
    · rename_i finished
      have stopped : ∀ place, x.status ≠ .running place := by simp [finished]
      simp [seen_stopped stopped, after_stopped stopped]
    · rename_i e failed
      have stopped : ∀ place, x.status ≠ .running place := by simp [failed]
      simp [seen_stopped stopped, after_stopped stopped]
    · rw [seen, after]
      rcases x.next program with ⟨_ | i, y⟩
      · exact ih y
      · simp only [ih y, List.forM, bind_assoc]

omit [Device δ] in
theorem error?_eq_some {x : Execution δ} {e : ExecutionError} :
    x.error? = some e ↔ x.status = .failed e := by
  unfold error?
  split <;> simp_all

/-- What a fault says of the instruction that it stopped at. -/
def StoppedBy (program : List Instruction) (Allowed : Instruction → Fault → Prop)
    (e : ExecutionError) : Prop :=
  ∃ i ∈ program, e.line = i.line ∧ e.text = i.text ∧ Allowed i e.fault

/-- The machine has the invariant, and a fault is one that an instruction may raise. -/
structure Sound (program : List Instruction) (Inv : Machine δ → Prop)
    (Allowed : Instruction → Fault → Prop) (x : Execution δ) : Prop where
  machine : Inv x.machine
  stopped : ∀ e, x.status = .failed e → StoppedBy program Allowed e

variable {program : List Instruction} {Inv : Machine δ → Prop}
  {Allowed : Instruction → Fault → Prop} {x : Execution δ}

theorem follow_failed {place : Nat} {flow : Flow} {e : ExecutionError}
    (failed : follow place flow = .failed e) : False := by
  cases flow <;> cases failed

theorem next_sound
    (step : ∀ i ∈ program, Keeps Inv (Allowed i) (Machine.step program i) fun _ => True)
    (sound : Sound program Inv Allowed x) : Sound program Inv Allowed (x.next program).2 := by
  unfold next
  split
  · exact sound
  · exact sound
  · split
    · constructor
      · exact sound.machine
      · intro e h
        cases h
    · rename_i i fetched
      have member := List.mem_of_getElem? fetched
      have ended := step i member x.machine sound.machine
      generalize Machine.step program i x.machine = result at ended ⊢
      cases ended with
      | ok kept _ =>
        constructor
        · exact kept
        · intro e h
          exact (follow_failed h).elim
      | error kept allowed =>
        constructor
        · exact kept
        · intro e h
          cases h
          exact ⟨i, member, rfl, rfl, allowed⟩

theorem after_sound
    (step : ∀ i ∈ program, Keeps Inv (Allowed i) (Machine.step program i) fun _ => True)
    (sound : Sound program Inv Allowed x) (fuel : Nat) :
    Sound program Inv Allowed (after program fuel x) := by
  induction fuel generalizing x with
  | zero => exact sound
  | succ fuel ih => exact ih (next_sound step sound)

theorem seen_sound
    (step : ∀ i ∈ program, Keeps Inv (Allowed i) (Machine.step program i) fun _ => True)
    (sound : Sound program Inv Allowed x) (fuel : Nat) :
    ∀ s ∈ seen program fuel x, ∃ i m, Inv m ∧ s = .of i m := by
  induction fuel generalizing x with
  | zero =>
    intro s member
    cases member
  | succ fuel ih =>
    intro s member
    have after := next_sound step sound
    rw [seen] at member
    rcases gone : x.next program with ⟨_ | i, y⟩ <;> rw [gone] at member after
    · exact ih after s member
    · rcases List.mem_cons.1 member with rfl | later
      · exact ⟨i, y.machine, after.machine, rfl⟩
      · exact ih after s later

end Execution

namespace Machine

variable {δ : Type}

theorem start_refused {m : Machine δ} {p : Program} (short : m.config.FallsShort p.requirements) :
    Execution.start m p = ⟨m.reset, .failed ⟨.requirementsNotMet, 0,
      "; ".intercalate (m.config.shortfall p.requirements)⟩⟩ := by
  unfold Execution.start
  split
  · rename_i enough
    exact (Config.shortfall_eq_nil.1 enough short).elim
  · rfl

theorem start_accepted {m : Machine δ} {p : Program}
    (enough : ¬ m.config.FallsShort p.requirements) :
    Execution.start m p = ⟨m.reset, .running 0⟩ := by
  rw [Execution.start, Config.shortfall_eq_nil.2 enough]

variable [Device δ]

/-- How a run stands after at most that many steps, watched by nobody. -/
def outcome (fuel : Nat) (p : Program) (m : Machine δ) : Execution δ :=
  Id.run (run (fun _ => pure ()) fuel p m)

theorem outcome_eq (fuel : Nat) (p : Program) (m : Machine δ) :
    m.outcome fuel p = (Execution.start m p).after p.instructions fuel := by
  have quiet : ∀ snapshots : List Snapshot,
      (snapshots.forM fun _ => (pure () : Id Unit)) = pure () := by
    intro snapshots
    induction snapshots with
    | nil => rfl
    | cons s rest ih => exact ih
  rw [outcome, run, Execution.watch_eq, quiet]
  rfl

theorem run_eq {μ : Type → Type} [Monad μ] [LawfulMonad μ] (observe : Snapshot → μ Unit)
    (fuel : Nat) (p : Program) (m : Machine δ) :
    m.run observe fuel p = do
      ((Execution.start m p).seen p.instructions fuel).forM observe
      return m.outcome fuel p := by
  rw [run, Execution.watch_eq, outcome_eq]

theorem run_refused {m : Machine δ} {p : Program} (short : m.config.FallsShort p.requirements)
    {μ : Type → Type} [Monad μ] (observe : Snapshot → μ Unit) (fuel : Nat) :
    m.run observe fuel p = pure ⟨m.reset, .failed ⟨.requirementsNotMet, 0,
      "; ".intercalate (m.config.shortfall p.requirements)⟩⟩ := by
  rw [run, start_refused short]
  cases fuel <;> rfl

theorem outcome_refused {m : Machine δ} {p : Program} (short : m.config.FallsShort p.requirements)
    (fuel : Nat) : m.outcome fuel p = ⟨m.reset, .failed ⟨.requirementsNotMet, 0,
      "; ".intercalate (m.config.shortfall p.requirements)⟩⟩ := by
  rw [outcome, run_refused short]
  rfl

/-- The machines that a host comes by: new ones, and those left by attaching, detaching and
running. -/
inductive Built : Machine δ → Prop
  | new (c : Config) (devices : Array δ) : Built (new c devices)
  | attach {m : Machine δ} (slot device : Nat) : Built m → Built (m.attach slot device).2
  | detach {m : Machine δ} (slot : Nat) : Built m → Built (m.detach slot).2
  | run {m : Machine δ} (fuel : Nat) (p : Program) : Built m → Built (m.outcome fuel p).result

end Machine
end FloatMachine
