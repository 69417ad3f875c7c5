import FloatMachine.Proofs.Frame
import FloatMachine.Proofs.Segments

/-! The stack along a run. What was pushed stays where it is, with all that lies under it, as long
as the run takes back no more than it has pushed since; so the pop that matches a push finds the
value that was pushed. -/
namespace FloatMachine

open Requirements (balance change)

/-- As many pops as pushes, and at no point more pops than pushes until then. -/
structure Nested (run : List Instruction) : Prop where
  above : ∀ before, before <+: run → 0 ≤ balance before
  level : balance run = 0

theorem nested_iff {run : List Instruction} :
    Nested run ↔ (∀ before ∈ run.inits, 0 ≤ balance before) ∧ balance run = 0 := by
  simp only [List.mem_inits]
  exact ⟨fun nested => ⟨nested.above, nested.level⟩, fun ⟨above, level⟩ => ⟨above, level⟩⟩

instance (run : List Instruction) : Decidable (Nested run) := decidable_of_iff _ nested_iff.symm

namespace Stack

/-- The stack is that much higher than `low`, and holds what `low` holds up to its pointer. -/
structure Above (low : Stack) (height : Int) (s : Stack) : Prop where
  pointer : (s.pointer : Int) = low.pointer + height
  cells : ∀ k < low.pointer, s.cells[k]? = low.cells[k]?

theorem above_refl (s : Stack) : Above s 0 s := ⟨by simp, fun _ _ => rfl⟩

theorem Above.pop {s low t : Stack} {v : Binary32} (pushed : push v s = (.ok (), low))
    (above : Above low 0 t) : pop t = (.ok v, ⟨t.cells, s.pointer⟩) ∧
      ∀ k < s.pointer, t.cells[k]? = s.cells[k]? := by
  obtain ⟨room, rfl⟩ := push_ok pushed
  obtain ⟨pointer, cells⟩ := above
  have level : t.pointer = s.pointer + 1 := by
    simp only at pointer
    omega
  constructor
  · have top : t.top? = some v := by
      rw [top?, level, if_neg (Nat.succ_ne_zero _), Nat.add_sub_cancel,
        cells s.pointer (Nat.lt_succ_self _)]
      simp
    rw [pop_of_top top, level, Nat.add_sub_cancel]
  · intro k under
    rw [cells k (Nat.lt_succ_of_lt under)]
    simp only [Array.getElem?_set, if_neg (Nat.ne_of_gt under)]

end Stack

namespace Machine

variable {δ : Type} [Device δ]

/-- A step moves the stack by what its operation counts for, above a height that it was at. -/
theorem step_above {program : List Instruction} {i : Instruction} {m n : Machine δ} {flow : Flow}
    (quiet : i.written ≠ some .stackPointer) (ended : step program i m = (.ok flow, n))
    {low : Stack} {height : Int} (floor : 0 ≤ height) (above : low.Above height m.stack) :
    low.Above (height + change i.operation) n.stack := by
  obtain ⟨frame, -⟩ := step_frame ended
  constructor
  · have level := above.pointer
    by_cases push : i.operation = .push
    · have up := frame.pushed push
      simp only [push, change]
      omega
    · by_cases pop : i.operation = .pop
      · have down := frame.lowered pop quiet
        simp only [pop, change]
        omega
      · have same := frame.pointer push pop quiet
        have still : change i.operation = 0 := by
          unfold change
          split
          · exact (push ‹_›).elim
          · exact (pop ‹_›).elim
          · rfl
        omega
  · intro k under
    rw [← above.cells k under]
    apply frame.cells
    intro _ here
    have level := above.pointer
    omega

end Machine

namespace Execution

variable {δ : Type} [Device δ] {program : List Instruction} {low : Stack} {height : Int}

theorem next_stack {x : Execution δ} (nothing : (x.next program).1 = none) :
    (x.next program).2.machine.stack = x.machine.stack := by
  by_cases stopped : ∀ place, x.status ≠ .running place
  · rw [next_stopped stopped]
  · obtain ⟨place, running⟩ := not_forall_not.1 stopped
    rcases next_running running with
      ⟨-, ended⟩ | ⟨i, -, ⟨flow, m, -, went⟩ | ⟨f, m, faulted, failed⟩⟩
    · rw [ended]
    · rw [went] at nothing
      cases nothing
    · rw [failed]
      exact (Machine.step_unmoved faulted).stack

theorem next_above {x : Execution δ} (floor : 0 ≤ height)
    (quiet : ∀ i ∈ (x.next program).1.toList, i.written ≠ some .stackPointer)
    (above : low.Above height x.machine.stack) :
    low.Above (height + balance (x.next program).1.toList) (x.next program).2.machine.stack := by
  cases done : (x.next program).1 with
  | none =>
    rw [next_stack done]
    simpa [balance] using above
  | some i =>
    obtain ⟨place, flow, m, -, -, ended, same⟩ := next_some done
    rw [done] at quiet
    rw [same, Option.toList_some, Requirements.balance_singleton]
    exact Machine.step_above (quiet i (List.mem_singleton_self i)) ended floor above

theorem after_above {x : Execution δ} {fuel : Nat}
    (floor : ∀ before, before <+: executed program fuel x → 0 ≤ height + balance before)
    (quiet : ∀ i ∈ executed program fuel x, i.written ≠ some .stackPointer)
    (above : low.Above height x.machine.stack) :
    low.Above (height + balance (executed program fuel x))
      (after program fuel x).machine.stack := by
  induction fuel generalizing x height with
  | zero => simpa [executed, after, balance] using above
  | succ fuel ih =>
    rw [executed] at floor quiet ⊢
    rw [List.forall_mem_append] at quiet
    have start : 0 ≤ height := by simpa [balance] using floor [] List.nil_prefix
    have once := next_above start quiet.1 above
    rw [Requirements.balance_append, ← Int.add_assoc]
    -- the floor of the whole run is also one for the rest of it, from the height after this step
    refine ih ?_ quiet.2 once
    intro before begins
    have later := floor _ ((List.prefix_append_right_inj _).2 begins)
    rwa [Requirements.balance_append, ← Int.add_assoc] at later

/-- Last in, first out. When a push is followed by a run that is nested and in which nothing writes
the stack pointer, the stack gives back the value that was pushed, with the pointer where it was
before the push and all cells under it as they were. It is this value that a pop then writes to
its destination. -/
theorem pop_takes_pushed {x : Execution δ} {push : Instruction} {fuel : Nat}
    (done : (x.next program).1 = some push) (pushes : push.operation = .push)
    (nested : Nested (executed program fuel (x.next program).2))
    (quiet : ∀ i ∈ executed program fuel (x.next program).2, i.written ≠ some .stackPointer) :
    let before := x.machine
    let last := after program fuel (x.next program).2
    ∃ d v s t left, push.destination = some d ∧ Machine.Unmoved before (fun _ => True) s ∧
      Machine.read d.toOperand s = (.ok v, t) ∧
      Stack.push v before.stack = (.ok (), (x.next program).2.machine.stack) ∧
      Stack.pop last.machine.stack = (.ok v, left) ∧
      left.pointer = before.stack.pointer ∧
      (∀ k < before.stack.pointer, left.cells[k]? = before.stack.cells[k]?) ∧
      ∀ pop, (last.next program).1 = some pop → pop.operation = .pop →
        ∃ e u, pop.destination = some e ∧ Machine.Unmoved last.machine (fun _ => True) u ∧
          u.popped.stack = left ∧
          Machine.write e v u.popped = (.ok (), (last.next program).2.machine) := by
  intro before last
  obtain ⟨place, flow, m, -, -, ended, same⟩ := next_some done
  obtain ⟨d, v, s, t, given, unmoved, current, pushed⟩ := Machine.stack_pushed pushes ended
  have stack : m.stack = (x.next program).2.machine.stack := by rw [same]
  rw [stack] at pushed
  have floor : ∀ begun, begun <+: executed program fuel (x.next program).2 →
      0 ≤ 0 + balance begun := by
    simpa only [Int.zero_add] using nested.above
  have above := after_above floor quiet (Stack.above_refl (x.next program).2.machine.stack)
  rw [nested.level, Int.add_zero] at above
  obtain ⟨taken, kept⟩ := above.pop pushed
  refine ⟨d, v, s, t, _, given, unmoved, current, pushed, taken, rfl, kept, ?_⟩
  intro pop next pops
  obtain ⟨place, flow, n, -, -, ended, same⟩ := next_some next
  obtain ⟨e, w, u, target, top, unmoved, stored⟩ := Machine.step_popped pops ended
  have found := Stack.pop_of_top top
  rw [taken] at found
  obtain ⟨value, left⟩ := Prod.mk.inj found
  obtain rfl : v = w := Except.ok.inj value
  refine ⟨e, u, target, unmoved, ?_, ?_⟩
  · rw [left, Machine.popped, unmoved.stack]
  · rw [stored, same]

/-- Between the push of 7 and the pop that brings it back, 1 is pushed, a `nop` is jumped over and
the 1 goes to a device. -/
theorem pop_takes_pushed_jump :
    let push : Instruction := ⟨.push, some (.register 0), .unused, .unused, 2, "push r0"⟩
    let nested : Instruction := ⟨.push, some .stackPointer, .unused, .unused, 3, "push sp"⟩
    let jump : Instruction := ⟨.jump, none, .literal (.ofNat 6), .unused, 4, "jmp 6"⟩
    let out : Instruction := ⟨.pop, some (.device ⟨0, 1⟩), .unused, .unused, 6, "pop d0:1"⟩
    let pop : Instruction := ⟨.pop, some (.register 1), .unused, .unused, 7, "pop r1"⟩
    let seven : Binary32 := ⟨0x40E00000⟩
    let program : List Instruction :=
      [⟨.move, some (.register 0), .literal seven, .unused, 1, "mov r0 7"⟩, push, nested, jump,
        ⟨.nop, none, .unused, .unused, 5, "nop"⟩, out, pop]
    let m : Machine Peripheral := (Machine.attach (.new {} #[.cells (.zeros 2)]) 0 0).2
    let x := after program 1 (start m (.ofInstructions program))
    (x.next program).1 = some push ∧
      executed program 4 (x.next program).2 = [nested, jump, out, pop] ∧
      ∃ left, Stack.pop (after program 3 (x.next program).2).machine.stack = (.ok seven, left) ∧
        left.pointer = x.machine.stack.pointer ∧
        (after program 4 (x.next program).2).machine.registers[1]? = some seven := by
  intro push nested jump out pop seven program m x
  have pushed : (x.next program).1 = some push := by decide +kernel
  have ran : executed program 3 (x.next program).2 = [nested, jump, out] := by decide +kernel
  have balanced : Nested (executed program 3 (x.next program).2) := by
    rw [ran]
    decide
  have quiet : ∀ i ∈ executed program 3 (x.next program).2, i.written ≠ some .stackPointer := by
    rw [ran]
    decide
  have value : (Stack.pop (after program 3 (x.next program).2).machine.stack).1 = .ok seven := by
    decide +kernel
  obtain ⟨d, v, s, t, left, -, -, -, -, taken, pointer, -, -⟩ :=
    pop_takes_pushed pushed rfl balanced quiet
  rw [taken] at value
  obtain rfl : v = seven := Except.ok.inj value
  exact ⟨pushed, by decide +kernel, left, taken, pointer, by decide +kernel⟩

end Execution
end FloatMachine
