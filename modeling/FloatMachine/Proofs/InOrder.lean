import FloatMachine.Proofs.StraightLine

/-! Programs without jumps run in order. Each of their instructions has an effect of its own, which
the rest of the program has no part in, and a run folds these effects over the program until an
instruction returns or faults. -/
namespace FloatMachine

namespace Machine

section Alone

variable {δ : Type} [Device δ]

theorem step_alone (program : List Instruction) {i : Instruction} (jump : i.operation ≠ .jump)
    (call : i.operation ≠ .jumpReturn) :
    (step program i : Action δ Flow) = step [] i := by
  unfold step
  cases operation : i.operation with
  | jump => exact (jump operation).elim
  | jumpReturn => exact (call operation).elim
  | _ => rfl

/-- What an instruction that does not jump makes of a machine. -/
def effect (m : Machine δ) (i : Instruction) : Machine δ := (step [] i m).2

def effects (is : List Instruction) (m : Machine δ) : Machine δ := is.foldl effect m

theorem take_succ {is : List Instruction} {k : Nat} {i : Instruction} (at_k : is[k]? = some i) :
    is.take (k + 1) = is.take k ++ [i] := by
  rw [List.take_add_one, at_k]
  rfl

theorem effects_take {is : List Instruction} {k : Nat} {i : Instruction} (at_k : is[k]? = some i)
    (m : Machine δ) : effects (is.take (k + 1)) m = (effects (is.take k) m).effect i := by
  rw [effects, take_succ at_k, List.foldl_append]
  rfl

end Alone

end Machine

namespace Execution

variable {δ : Type} [Device δ]

section InOrder

variable {is : List Instruction} {m : Machine δ} {k : Nat} {last : Execution δ}

/-- The first `k` instructions succeed one after the other, and none of them ends the run. -/
structure Passes (is : List Instruction) (m : Machine δ) (k : Nat) : Prop where
  within : k ≤ is.length
  next : ∀ j i, j < k → is[j]? = some i →
    Machine.step [] i (Machine.effects (is.take j) m) =
      (.ok .next, Machine.effects (is.take (j + 1)) m)

/-- A machine that goes through the instructions in order ends after the first `k`: there are no
more, the last one of them is a return, or the next one faults. -/
inductive EndsAfter (is : List Instruction) (m : Machine δ) : Nat → Execution δ → Prop
  | through : Passes is m is.length → EndsAfter is m is.length ⟨Machine.effects is m, .finished⟩
  | returned {k : Nat} {i : Instruction} : Passes is m k → is[k]? = some i → i.operation = .ret →
      Machine.step [] i (Machine.effects (is.take k) m) =
        (.ok .halt, Machine.effects (is.take (k + 1)) m) →
      EndsAfter is m (k + 1) ⟨Machine.effects (is.take (k + 1)) m, .finished⟩
  | faulted {k : Nat} {i : Instruction} {f : Fault} {n : Machine δ} : Passes is m k →
      is[k]? = some i → Machine.step [] i (Machine.effects (is.take k) m) = (.error f, n) →
      EndsAfter is m k ⟨n, .failed ⟨f, i.line, i.text⟩⟩

/-- What is shown of the first `k` instructions: each on the machine that it leaves. -/
def shownAfter (is : List Instruction) (m : Machine δ) (k : Nat) : List Snapshot :=
  (is.take k).mapIdx fun j i => .of i (Machine.effects (is.take (j + 1)) m)

theorem shownAfter_succ {i : Instruction} (at_k : is[k]? = some i) :
    shownAfter is m (k + 1) =
      shownAfter is m k ++ [.of i (Machine.effects (is.take (k + 1)) m)] := by
  obtain ⟨inside, -⟩ := List.getElem?_eq_some_iff.1 at_k
  rw [shownAfter, Machine.take_succ at_k, List.mapIdx_concat, List.length_take,
    Nat.min_eq_left (Nat.le_of_lt inside), ← Machine.take_succ at_k]
  rfl

theorem EndsAfter.within (ends : EndsAfter is m k last) : k ≤ is.length := by
  cases ends with
  | through => exact Nat.le_refl _
  | returned _ at_k => exact (List.getElem?_eq_some_iff.1 at_k).1
  | faulted passes => exact passes.within

/-- What a fault leaves is the state before it, and with it the devices if reading leaves them
alone. -/
theorem EndsAfter.unmoved (ends : EndsAfter is m k last) :
    Machine.Unmoved (Machine.effects (is.take k) m)
      (fun b => Device.Steady δ → Bus.Same (Machine.effects (is.take k) m).bus b)
      last.machine := by
  cases ends with
  | through =>
    rw [List.take_length]
    exact ⟨rfl, rfl, rfl, fun _ => ⟨rfl, rfl⟩⟩
  | returned => exact ⟨rfl, rfl, rfl, fun _ => ⟨rfl, rfl⟩⟩
  | faulted _ _ faulted =>
    obtain ⟨registers, stack, returnAddress, -⟩ := Machine.step_unmoved faulted
    exact ⟨registers, stack, returnAddress, fun steady => Machine.step_same_bus steady faulted⟩

theorem length_shownAfter (within : k ≤ is.length) : (shownAfter is m k).length = k := by
  rw [shownAfter, List.length_mapIdx, List.length_take, Nat.min_eq_left within]

theorem Passes.succ (passes : Passes is m k) {i : Instruction} (at_k : is[k]? = some i)
    {n : Machine δ} (done : Machine.step [] i (Machine.effects (is.take k) m) = (.ok .next, n)) :
    Passes is m (k + 1) where
  within := (List.getElem?_eq_some_iff.1 at_k).1
  next := by
    intro j h less at_j
    rcases Nat.lt_succ_iff_lt_or_eq.1 less with before | rfl
    · exact passes.next j h before at_j
    · cases at_k.symm.trans at_j
      rw [Machine.effects_take at_k, Machine.effect, done]

variable (jumps : ∀ i ∈ is, i.operation ≠ .jump ∧ i.operation ≠ .jumpReturn)

include jumps

theorem Passes.further (passes : Passes is m k) (inside : k < is.length) :
    Passes is m (k + 1) ∨ ∃ j last, EndsAfter is m j last := by
  obtain ⟨i, at_k⟩ : ∃ i, is[k]? = some i := ⟨_, List.getElem?_eq_getElem inside⟩
  obtain ⟨jump, call⟩ := jumps i (List.mem_of_getElem? at_k)
  rcases done : Machine.step [] i (Machine.effects (is.take k) m) with ⟨f | flow, n⟩
  · exact Or.inr ⟨_, _, .faulted passes at_k done⟩
  · have goes := ((Machine.step_goes [] jump call).ok trivial done).2
    split at goes
    · rename_i ret
      have halted : Machine.step [] i (Machine.effects (is.take k) m) =
          (.ok .halt, Machine.effects (is.take (k + 1)) m) := by
        rw [Machine.effects_take at_k, Machine.effect, done, goes]
      exact Or.inr ⟨_, _, .returned passes at_k ret halted⟩
    · exact Or.inl (passes.succ at_k (goes ▸ done))

theorem exists_endsAfter (m : Machine δ) : ∃ k last, EndsAfter is m k last := by
  have way : ∀ k, k ≤ is.length → Passes is m k ∨ ∃ j last, EndsAfter is m j last := by
    intro k
    induction k with
    | zero => exact fun _ => Or.inl ⟨Nat.zero_le _, fun _ _ less => (Nat.not_lt_zero _ less).elim⟩
    | succ k ih =>
      intro inside
      rcases ih (Nat.le_of_lt inside) with passes | ended
      · exact passes.further jumps inside
      · exact Or.inr ended
  rcases way is.length (Nat.le_refl _) with passes | ended
  · exact ⟨_, _, .through passes⟩
  · exact ended

theorem Passes.run (passes : Passes is m k) :
    after is k ⟨m, .running 0⟩ = ⟨Machine.effects (is.take k) m, .running k⟩ ∧
      executed is k (⟨m, .running 0⟩ : Execution δ) = is.take k ∧
      seen is k ⟨m, .running 0⟩ = shownAfter is m k := by
  induction k with
  | zero => exact ⟨rfl, rfl, rfl⟩
  | succ k ih =>
    have shorter : Passes is m k :=
      ⟨Nat.le_of_lt passes.within, fun j i less => passes.next j i (Nat.lt_succ_of_lt less)⟩
    obtain ⟨place, done, views⟩ := ih shorter
    obtain ⟨i, at_k⟩ : ∃ i, is[k]? = some i := ⟨_, List.getElem?_eq_getElem passes.within⟩
    obtain ⟨jump, call⟩ := jumps i (List.mem_of_getElem? at_k)
    have step := passes.next k i (Nat.lt_succ_self k) at_k
    -- what does not jump steps in the program as it does alone
    rw [← Machine.step_alone is jump call] at step
    rw [after_succ, executed_succ, seen_succ, place, done, views, next_ok rfl at_k step,
      shownAfter_succ at_k, Machine.take_succ at_k]
    exact ⟨rfl, rfl, rfl⟩

theorem Passes.stop (passes : Passes is m k) {o : Option Instruction} {y : Execution δ}
    (step : Execution.next is ⟨Machine.effects (is.take k) m, .running k⟩ = (o, y))
    (stopped : ∀ place, y.status ≠ .running place) {fuel : Nat} (more : k < fuel) :
    after is fuel ⟨m, .running 0⟩ = y ∧
      executed is fuel (⟨m, .running 0⟩ : Execution δ) = is.take k ++ o.toList ∧
      seen is fuel ⟨m, .running 0⟩ =
        shownAfter is m k ++ (o.map fun i => Snapshot.of i y.machine).toList := by
  obtain ⟨place, done, views⟩ := passes.run jumps
  have halted : after is (k + 1) ⟨m, .running 0⟩ = y := by rw [after_succ, place, step]
  obtain ⟨ends, executed, seen⟩ := settled more (halted.symm ▸ stopped)
  rw [ends, executed, seen, executed_succ, seen_succ, place, done, views, step]
  exact ⟨halted, rfl, rfl⟩

theorem EndsAfter.run (ends : EndsAfter is m k last) {fuel : Nat} (more : k < fuel) :
    after is fuel ⟨m, .running 0⟩ = last ∧
      executed is fuel (⟨m, .running 0⟩ : Execution δ) = is.take k ∧
      seen is fuel ⟨m, .running 0⟩ = shownAfter is m k := by
  cases ends with
  | through passes =>
    have beyond : is[is.length]? = none := List.getElem?_eq_none (Nat.le_refl _)
    have step : Execution.next is ⟨Machine.effects (is.take is.length) m, .running is.length⟩ =
        (none, ⟨Machine.effects is m, .finished⟩) := by
      simp only [next, beyond, List.take_length]
    simpa using passes.stop jumps step (by simp) more
  | @returned k i passes at_k ret halted =>
    obtain ⟨jump, call⟩ := jumps i (List.mem_of_getElem? at_k)
    rw [← Machine.step_alone is jump call] at halted
    obtain ⟨ended, done, views⟩ :=
      passes.stop jumps (next_ok rfl at_k halted) (by simp [follow]) (Nat.lt_of_succ_lt more)
    exact ⟨ended, done.trans (Machine.take_succ at_k).symm,
      views.trans (shownAfter_succ at_k).symm⟩
  | @faulted k i f n passes at_k faulted =>
    obtain ⟨jump, call⟩ := jumps i (List.mem_of_getElem? at_k)
    rw [← Machine.step_alone is jump call] at faulted
    simpa using passes.stop jumps (next_error rfl at_k faulted) (by simp) more

end InOrder

end Execution

namespace Machine

/-- A program without jumps executes its first instructions in order, each once, up to the first
return and before the first fault. The state in the end is what these instructions make of the
machine one after the other, and an observer is shown it after each of them. -/
theorem runs_in_order {is : List Instruction}
    (jumps : ∀ i ∈ is, i.operation ≠ .jump ∧ i.operation ≠ .jumpReturn)
    {δ : Type} [Device δ] {m : Machine δ}
    (enough : ¬ m.config.FallsShort (Requirements.of is)) :
    ∃ k last, k ≤ is.length ∧ Execution.EndsAfter is m.reset k last ∧
      Unmoved (effects (is.take k) m.reset)
        (fun b => Device.Steady δ → Bus.Same (effects (is.take k) m.reset).bus b) last.machine ∧
      (Execution.shownAfter is m.reset k).length = k ∧
      ∀ fuel, k < fuel →
        let p := Program.ofInstructions is
        m.outcome fuel p = last ∧
        Execution.executed is fuel (Execution.start m p) = is.take k ∧
        ∀ {μ : Type → Type} [Monad μ] [LawfulMonad μ] (observe : Snapshot → μ Unit),
          m.run observe fuel p = do
            (Execution.shownAfter is m.reset k).forM observe
            return last := by
  have begun : Execution.start m (.ofInstructions is) = ⟨m.reset, .running 0⟩ :=
    start_accepted enough
  obtain ⟨k, last, ends⟩ := Execution.exists_endsAfter jumps m.reset
  refine ⟨k, last, ends.within, ends, ends.unmoved, Execution.length_shownAfter ends.within, ?_⟩
  intro fuel more p
  obtain ⟨ended, executed, seen⟩ := ends.run jumps more
  have outcome : m.outcome fuel p = last := by
    rw [outcome_eq, begun]
    exact ended
  have views : (Execution.start m p).seen p.instructions fuel =
      Execution.shownAfter is m.reset k := by
    rw [begun]
    exact seen
  refine ⟨outcome, begun ▸ executed, fun observe => ?_⟩
  rw [run_eq, outcome, views]

/-- The return is the third of four instructions and the last one executed. -/
theorem runs_in_order_return :
    let is : List Instruction := [⟨.increment, some (.register 0), .unused, .unused, 1, "inc r0"⟩,
      ⟨.push, some (.register 0), .unused, .unused, 2, "push r0"⟩,
      ⟨.ret, none, .unused, .unused, 3, "ret"⟩,
      ⟨.increment, some (.register 0), .unused, .unused, 4, "inc r0"⟩]
    let m : Machine Peripheral := .new {} #[]
    ∃ last, Execution.EndsAfter is m.reset 3 last ∧ m.outcome 5 (.ofInstructions is) = last ∧
      last.status = .finished ∧ last.machine.registers[0]? = some .one := by
  intro is m
  obtain ⟨k, last, within, ends, -, -, runs⟩ :=
    runs_in_order (by decide : ∀ i ∈ is, i.operation ≠ .jump ∧ i.operation ≠ .jumpReturn)
      (by decide +kernel : ¬ m.config.FallsShort (Requirements.of is))
  obtain ⟨outcome, executed, -⟩ := runs 5 (Nat.lt_succ_of_le within)
  have three : Execution.executed is 5 (Execution.start m (.ofInstructions is)) = is.take 3 := by
    decide +kernel
  have count := congrArg List.length (executed.symm.trans three)
  rw [List.length_take, Nat.min_eq_left within] at count
  obtain rfl : k = 3 := count
  refine ⟨last, ends, outcome, ?_, ?_⟩
  · rw [← outcome]
    decide +kernel
  · rw [← outcome]
    decide +kernel

end Machine

end FloatMachine
