import FloatMachine.Proofs.Calls
import FloatMachine.Proofs.Unmoved

/-! Programs without jumps. They run from top to bottom, as their requirements are counted, so the
stack pointer stands at the depth counted so far and the stack asked for is deep enough. -/
namespace FloatMachine

namespace Tally

theorem touched_level (os : List Operand) (t : Tally) :
    (os.foldl touch t).depth = t.depth ∧ (os.foldl touch t).stack = t.stack := by
  induction os generalizing t with
  | nil => exact ⟨rfl, rfl⟩
  | cons o os ih =>
    rw [List.foldl_cons, (ih _).1, (ih _).2]
    cases o <;> exact ⟨rfl, rfl⟩

theorem count_depth (t : Tally) (i : Instruction) : (t.count i).depth =
    match i.operation with
    | .push => t.depth + 1
    | .pop => t.depth - 1
    | _ => t.depth := by
  obtain ⟨depth, -⟩ := touched_level i.touched t
  unfold count
  cases i.operation <;> simp only [move, depth]

theorem count_stack (t : Tally) (i : Instruction) :
    t.stack ≤ (t.count i).stack ∧ (t.count i).depth ≤ (t.count i).stack := by
  obtain ⟨-, stack⟩ := touched_level i.touched t
  unfold count
  cases i.operation <;> simp only [move, stack] <;> omega

theorem counted_stack (is : List Instruction) (t : Tally) :
    t.stack ≤ (is.foldl count t).stack := by
  induction is generalizing t with
  | nil => exact Nat.le_refl _
  | cons i is ih => exact Nat.le_trans (count_stack t i).1 (ih _)

theorem counted_length (is : List Instruction) {t : Tally} {cells : Nat} (depth : t.depth ≤ cells)
    (stack : t.stack ≤ cells) : (is.foldl count t).stack ≤ cells + is.length := by
  induction is generalizing t cells with
  | nil => exact stack
  | cons i is ih =>
    have next : (t.count i).depth ≤ cells + 1 ∧ (t.count i).stack ≤ cells + 1 := by
      obtain ⟨level, same⟩ := touched_level i.touched t
      unfold count
      cases i.operation <;> simp only [move, level, same] <;> omega
    rw [List.length_cons, Nat.add_comm is.length, ← Nat.add_assoc]
    exact ih next.1 next.2

end Tally

namespace Requirements

def depth (is : List Instruction) : Nat := (is.foldl Tally.count {}).depth

theorem depth_concat (is : List Instruction) (i : Instruction) : depth (is ++ [i]) =
    match i.operation with
    | .push => depth is + 1
    | .pop => depth is - 1
    | _ => depth is := by
  rw [depth, List.foldl_append]
  exact Tally.count_depth _ i

theorem of_stack {is : List Instruction} (word : is.length < 2 ^ 64) :
    (of is).stack.toNat = (is.foldl Tally.count {}).stack := by
  have bound := Tally.counted_length is (t := {}) (Nat.zero_le 0) (Nat.zero_le 0)
  exact Nat.mod_eq_of_lt (by omega)

theorem depth_le_stack {is before : List Instruction} {i : Instruction} (word : is.length < 2 ^ 64)
    (begins : before ++ [i] <+: is) : depth (before ++ [i]) ≤ (of is).stack.toNat := by
  obtain ⟨rest, rfl⟩ := begins
  rw [of_stack word, List.foldl_append, depth, List.foldl_append]
  exact Nat.le_trans (Tally.count_stack _ i).2 (Tally.counted_stack rest _)

end Requirements

namespace Machine

variable {δ : Type} [Device δ] {level : Nat}

theorem read_stack (s : Stack) (o : Operand) :
    Keeps (fun m : Machine δ => m.stack = s) (fun f => f ≠ .stackOverflow) (read o)
      fun _ => True := by
  cases o with
  | literal v => exact Keeps.pure trivial
  | register r =>
    intro m same
    simp only [read, readRegister]
    split
    · exact .ok same trivial
    · exact .error same (by decide)
  | stackPointer => exact Keeps.bind Keeps.get fun _ _ => Keeps.pure trivial
  | returnAddress => exact Keeps.bind Keeps.get fun _ _ => Keeps.pure trivial
  | device a =>
    have answered : Keeps (fun _ => True) (fun f => f ≠ .stackOverflow) (Bus.read (δ := δ) a)
        fun _ => True := by
      intro b _
      have ended := Bus.read_keeps b.slots.size a b rfl
      generalize Bus.read a b = result at ended ⊢
      cases ended with
      | ok _ _ => exact .ok trivial trivial
      | error _ refused =>
        refine .error trivial ?_
        rcases refused with rfl | rfl | ⟨rfl, -⟩ <;> decide
    exact onBus_keeps answered (fun _ _ => trivial) fun _ _ same _ => same

omit [Device δ] in
theorem destinationOf_stack (s : Stack) (i : Instruction) :
    Keeps (fun m : Machine δ => m.stack = s) (fun f => f ≠ .stackOverflow) (destinationOf i)
      fun d => i.destination = some d :=
  destinationOf_keeps fun _ => by decide

theorem step_push (program : List Instruction) {i : Instruction} (m : Machine δ)
    (push : i.operation = .push) :
    (∃ f n, step program i m = (.error f, n) ∧ f ≠ .stackOverflow) ∨
      ∃ v n, n.stack = m.stack ∧
        step program i m = (onStack (Stack.push v) >>= fun _ => pure .next) n := by
  have reads := read_stack (δ := δ) m.stack
  unfold step
  rcases (reads i.left).split rfl with ⟨f, n, failed, -, other⟩ | ⟨a, n, same, -, went⟩
  · exact Or.inl ⟨f, n, failed, other⟩
  rw [went]
  rcases (reads i.right).split same with ⟨f, n, failed, -, other⟩ | ⟨b, n, same, -, went⟩
  · exact Or.inl ⟨f, n, failed, other⟩
  rw [went, push]
  rcases (destinationOf_stack m.stack i).split same with
    ⟨f, n, failed, -, other⟩ | ⟨d, n, same, -, went⟩
  · exact Or.inl ⟨f, n, failed, other⟩
  dsimp only
  rw [went]
  rcases (reads d.toOperand).split same with ⟨f, n, failed, -, other⟩ | ⟨v, n, same, -, went⟩
  · exact Or.inl ⟨f, n, failed, other⟩
  · exact Or.inr ⟨v, n, same, went⟩

omit [Device δ] in
theorem onStack_push (v : Binary32) (m : Machine δ) :
    (m.stack.pointer < m.stack.cells.size → ∃ n, n.stack.pointer = m.stack.pointer + 1 ∧
      (onStack (Stack.push v) >>= fun _ => pure Flow.next) m = (.ok .next, n)) ∧
    (m.stack.cells.size ≤ m.stack.pointer →
      (onStack (Stack.push v) >>= fun _ => pure Flow.next) m = (.error .stackOverflow, m)) := by
  rw [bind_eq, onStack, Stack.push]
  constructor
  · intro room
    rw [dif_pos room]
    exact ⟨_, rfl, rfl⟩
  · intro full
    rw [dif_neg (Nat.not_lt.2 full)]

theorem step_push_room (program : List Instruction) {i : Instruction} {m : Machine δ}
    (push : i.operation = .push) (room : m.stack.pointer < m.stack.cells.size) (n : Machine δ) :
    step program i m ≠ (.error .stackOverflow, n) := by
  rcases step_push program m push with ⟨f, t, failed, other⟩ | ⟨v, t, same, went⟩
  · rw [failed]
    intro overflow
    cases overflow
    exact other rfl
  · obtain ⟨u, -, done⟩ := (onStack_push v t).1 (same ▸ room)
    rw [went, done]
    intro overflow
    cases overflow

section Held

variable (Inv : Stack → Prop)

theorem write_stack {d : Destination} (moved : d = .stackPointer → ∀ v,
    Keeps Inv (fun _ => True) (Stack.setPointer v) fun _ => True) (v : Binary32) :
    Keeps (fun m : Machine δ => Inv m.stack) (fun _ => True) (write d v) fun _ => True := by
  cases d with
  | register r => exact writeRegister_untouched (fun _ _ same => same) r v
  | stackPointer => exact onStack_keeps (moved rfl v) (fun _ inv => inv) fun _ _ _ inv => inv
  | returnAddress => exact Keeps.modify fun _ same => same
  | device a => exact onBus_untouched (fun _ _ same => same) (Bus.write a v)

/-- Apart from pushes and pops, a step changes the stack by a write at most. -/
theorem step_stack (program : List Instruction) {i : Instruction}
    (moved : i.written = some .stackPointer → ∀ v,
      Keeps Inv (fun _ => True) (Stack.setPointer v) fun _ => True)
    (push : i.operation ≠ .push) (pop : i.operation ≠ .pop) :
    Keeps (fun m : Machine δ => Inv m.stack) (fun _ => True) (step program i)
      fun _ => True := by
  apply (step_made program i).keeps
  intro α act part
  cases part with
  | read _ => exact read_untouched (fun _ _ same => same) _
  | write v written => exact write_stack Inv (fun pointer => moved (pointer ▸ written)) v
  | push v moves =>
    rcases moves with pushes | pops
    · exact (push pushes).elim
    · exact (pop pops).elim
  | pop pops => exact (pop pops).elim
  | peek _ =>
    exact onStack_keeps (Stack.peek_keeps trivial) (fun _ inv => inv) fun _ _ _ inv => inv
  | link program _ => exact Keeps.modify fun _ same => same

end Held

def At (level : Nat) (m : Machine δ) : Prop := m.stack.pointer = level

theorem write_at {d : Destination} (other : d ≠ .stackPointer) (v : Binary32) :
    Keeps (At (δ := δ) level) (fun _ => True) (write d v) fun _ => True :=
  write_stack (fun s => s.pointer = level) (fun pointer => (other pointer).elim) v

theorem step_at (program : List Instruction) {i : Instruction}
    (quiet : i.written ≠ some .stackPointer) (push : i.operation ≠ .push)
    (pop : i.operation ≠ .pop) :
    Keeps (At (δ := δ) level) (fun _ => True) (step program i) fun _ => True :=
  step_stack (fun s => s.pointer = level) program (fun pointer => (quiet pointer).elim) push pop

theorem step_pop {program : List Instruction} {i : Instruction} {m n : Machine δ} {flow : Flow}
    (pop : i.operation = .pop) (quiet : i.written ≠ some .stackPointer)
    (ended : step program i m = (.ok flow, n)) : n.stack.pointer = m.stack.pointer - 1 := by
  obtain ⟨d, v, t, given, -, same, stored⟩ := step_popped pop ended
  have written : i.written = some d := by rw [Instruction.written, pop, given]
  have other : d ≠ .stackPointer := fun pointer => quiet (pointer ▸ written)
  have level : At (t.stack.pointer - 1) n := ((write_at other v).ok rfl stored).1
  rw [level, same.stack]

omit [Device δ] in
theorem keeps_last {α : Type} (act : Action δ α) {flow : Flow} {Fine : Flow → Prop}
    (fine : Fine flow) :
    Keeps (fun _ => True) (fun _ => True) (act >>= fun _ => pure flow) Fine :=
  Keeps.bind (Keeps.any act) fun _ _ => Keeps.pure fine

theorem step_goes (program : List Instruction) {i : Instruction} (jump : i.operation ≠ .jump)
    (call : i.operation ≠ .jumpReturn) :
    Keeps (fun _ : Machine δ => True) (fun _ => True) (step program i)
      fun flow => flow = if i.operation = .ret then .halt else .next := by
  have any : ∀ {α : Type} (act : Action δ α), Keeps (fun _ => True) (fun _ => True) act
    fun _ => True := Keeps.any
  have stores : ∀ v, Keeps (fun _ : Machine δ => True) (fun _ => True) (store i v)
      fun flow => flow = .next := by
    intro v
    refine Keeps.bind (any _) fun d _ => Keeps.bind (any _) fun w _ => ?_
    exact keeps_last _ rfl
  refine Keeps.bind (any _) fun a _ => Keeps.bind (any _) fun b _ => ?_
  cases operation : i.operation with
  | nop | ret => exact Keeps.pure rfl
  | move | equal | notEqual | greater | greaterOrEqual | lesser | lesserOrEqual =>
    exact Keeps.bind (any _) fun d _ => keeps_last _ rfl
  | squareRoot | divide => exact Keeps.unless trivial (stores _)
  | assert =>
    refine Keeps.bind (any _) fun d _ => Keeps.bind (any _) fun current _ => ?_
    split
    · exact Keeps.pure rfl
    · exact Keeps.throw trivial
  | add | subtract | multiply => exact stores _
  | increment | decrement =>
    refine Keeps.bind (any _) fun d _ => Keeps.bind (any _) fun old _ => ?_
    exact Keeps.bind (any _) fun v _ => keeps_last _ rfl
  | push => exact Keeps.bind (any _) fun d _ => Keeps.bind (any _) fun v _ => keeps_last _ rfl
  | pop => exact Keeps.bind (any _) fun d _ => keeps_last _ rfl
  | peek =>
    refine Keeps.bind (any _) fun d _ => Keeps.bind (any _) fun _ _ => ?_
    exact Keeps.bind (any _) fun v _ => keeps_last _ rfl
  | jump => exact (jump operation).elim
  | jumpReturn => exact (call operation).elim

theorem step_flow {program : List Instruction} {i : Instruction} (jump : i.operation ≠ .jump)
    (call : i.operation ≠ .jumpReturn) {m n : Machine δ} {flow : Flow}
    (done : step program i m = (.ok flow, n)) (target : Nat) : flow ≠ .jump target := by
  rw [((step_goes program jump call).ok trivial done).2]
  split <;> simp

/-- What a step makes of the stack pointer is what is counted. -/
theorem step_depth {program before : List Instruction} {i : Instruction} {m n : Machine δ}
    {flow : Flow} (quiet : i.written ≠ some .stackPointer)
    (level : m.stack.pointer = Requirements.depth before)
    (ended : step program i m = (.ok flow, n)) :
    n.stack.pointer = Requirements.depth (before ++ [i]) := by
  rw [Requirements.depth_concat, ← level]
  by_cases push : i.operation = .push
  · rw [push]
    rcases step_push program m push with ⟨f, t, failed, -⟩ | ⟨v, t, same, went⟩
    · rw [ended] at failed
      cases failed
    · by_cases room : t.stack.pointer < t.stack.cells.size
      · obtain ⟨u, up, done⟩ := (onStack_push v t).1 room
        rw [ended, done] at went
        cases went
        rw [up, same]
      · rw [ended, (onStack_push v t).2 (Nat.not_lt.1 room)] at went
        cases went
  · by_cases pop : i.operation = .pop
    · rw [pop]
      exact step_pop pop quiet ended
    · have same : n.stack.pointer = m.stack.pointer :=
        ((step_at program quiet push pop).ok rfl ended).1
      rw [same]
      split
      · rename_i operation
        exact (push operation).elim
      · rename_i operation
        exact (pop operation).elim
      · rfl

end Machine

/-- No instruction jumps or sets the stack pointer. -/
structure Straight (is : List Instruction) : Prop where
  jump : ∀ i ∈ is, i.operation ≠ .jump
  call : ∀ i ∈ is, i.operation ≠ .jumpReturn
  quiet : ∀ i ∈ is, i.written ≠ some .stackPointer

theorem Instruction.written_cases (i : Instruction) :
    i.written = i.destination ∨ i.written = none := by
  unfold Instruction.written
  split
  all_goals first | exact Or.inr rfl | exact Or.inl rfl

theorem straight_of_destinations {is : List Instruction}
    (jumps : ∀ i ∈ is, i.operation ≠ .jump ∧ i.operation ≠ .jumpReturn)
    (destinations : ∀ i ∈ is, i.destination = some .stackPointer →
      i.operation = .push ∨ i.operation = .assert) : Straight is where
  jump := fun i member => (jumps i member).1
  call := fun i member => (jumps i member).2
  quiet := by
    intro i member written
    rcases i.written_cases with same | none
    · have silent : i.written = Option.none := by
        rcases destinations i member (same ▸ written) with push | assert
        · rw [Instruction.written, push]
        · rw [Instruction.written, assert]
      rw [written] at silent
      cases silent
    · rw [written] at none
      cases none

namespace Execution

variable {δ : Type} [Device δ] {c : Config} {is before : List Instruction} {x : Execution δ}

/-- A run that has executed these instructions, the first ones of its program. Its stack pointer
stands at their depth, the next instruction follows them, and a push has not overflowed. -/
structure Along (c : Config) (is before : List Instruction) (x : Execution δ) : Prop where
  begins : before <+: is
  sized : Machine.Sized c x.machine
  pointer : x.machine.stack.pointer = Requirements.depth before
  place : ∀ place, x.status = .running place → place = before.length
  fault : ∀ e, x.status = .failed e → ∃ i, is[before.length]? = some i ∧
    e.line = i.line ∧ e.text = i.text ∧ (i.operation = .push → e.fault ≠ .stackOverflow)

variable (straight : Straight is) (word : is.length < 2 ^ 64)
  (enough : (Requirements.of is).stack.toNat ≤ c.stack)

theorem begins_concat {place : Nat} {i : Instruction} (begins : before <+: is)
    (here : place = before.length) (fetched : is[place]? = some i) : before ++ [i] <+: is := by
  obtain ⟨rest, rfl⟩ := begins
  rw [here, List.getElem?_append_right (Nat.le_refl _), Nat.sub_self] at fetched
  cases rest with
  | nil => cases fetched
  | cons j rest =>
    cases fetched
    exact ⟨rest, List.append_assoc ..⟩

include straight word enough

theorem Along.next (along : Along c is before x) :
    Along c is (before ++ (x.next is).1.toList) (x.next is).2 := by
  by_cases stopped : ∀ place, x.status ≠ .running place
  · rw [next_stopped stopped, Option.toList_none, List.append_nil]
    exact along
  · obtain ⟨place, running⟩ := not_forall_not.1 stopped
    have here := along.place place running
    rcases next_running running with
      ⟨-, ended⟩ | ⟨i, fetched, ⟨flow, m, done, went⟩ | ⟨f, m, faulted, failed⟩⟩
    · rw [ended, Option.toList_none, List.append_nil]
      exact ⟨along.begins, along.sized, along.pointer, by simp, by simp⟩
    · have member := List.mem_of_getElem? fetched
      have steps := (Machine.sized_respects (δ := δ) c i).step_keeps is
      have other := Machine.step_flow (straight.jump i member) (straight.call i member) done
      rw [went, Option.toList_some]
      refine ⟨begins_concat along.begins here fetched, (steps.ok along.sized done).1,
        Machine.step_depth (straight.quiet i member) along.pointer done, ?_, ?_⟩
      · intro next running
        cases flow with
        | next =>
          cases running
          rw [here, List.length_append]
          rfl
        | jump target => exact (other target rfl).elim
        | halt => cases running
      · intro e failed
        exact (follow_failed failed).elim
    · have member := List.mem_of_getElem? fetched
      have steps := (Machine.sized_respects (δ := δ) c i).step_keeps is
      have unmoved := Machine.step_unmoved faulted
      rw [failed, Option.toList_none, List.append_nil]
      refine ⟨along.begins, ?_, ?_, by simp, ?_⟩
      · have ended := steps x.machine along.sized
        rw [faulted] at ended
        cases ended with
        | error kept _ => exact kept
      · rw [← along.pointer]
        exact congrArg Stack.pointer unmoved.stack
      · intro e same
        cases same
        refine ⟨i, here ▸ fetched, rfl, rfl, ?_⟩
        rintro push rfl
        refine Machine.step_push_room is push ?_ m faulted
        have deep := Requirements.depth_le_stack word (begins_concat along.begins here fetched)
        rw [Requirements.depth_concat, push] at deep
        dsimp only at deep
        rw [along.pointer, along.sized.stack]
        omega

theorem Along.after (along : Along c is before x) (fuel : Nat) :
    Along c is (before ++ executed is fuel x) (after is fuel x) := by
  induction fuel generalizing before x with
  | zero =>
    rw [executed, List.append_nil]
    exact along
  | succ fuel ih =>
    rw [executed, ← List.append_assoc]
    exact ih (along.next straight word enough)

end Execution
namespace Machine

/-- A program without jumps in which only pushes and asserts name the stack pointer as their
destination runs from top to bottom: after every step the stack pointer stands at the depth that
the requirements count for the instructions executed. So on a machine that meets these
requirements no push overflows the stack, whatever the devices. (No memory holds a program of
2^64 instructions.) -/
theorem straight_line_depth {is : List Instruction} (word : is.length < 2 ^ 64)
    (jumps : ∀ i ∈ is, i.operation ≠ .jump ∧ i.operation ≠ .jumpReturn)
    (destinations : ∀ i ∈ is, i.destination = some .stackPointer →
      i.operation = .push ∨ i.operation = .assert)
    {δ : Type} [Device δ] {m : Machine δ} (built : m.Built)
    (enough : ¬ m.config.FallsShort (Requirements.of is)) (fuel : Nat) :
    let x := m.outcome fuel (.ofInstructions is)
    let done := Execution.executed is fuel (Execution.start m (.ofInstructions is))
    done <+: is ∧ x.machine.stack.pointer = Requirements.depth done ∧
      (∀ place, x.status = .running place → place = done.length) ∧
      ∀ e, x.error? = some e → ∃ i, is[done.length]? = some i ∧ e.line = i.line ∧
        e.text = i.text ∧ (i.operation = .push → e.fault ≠ .stackOverflow) := by
  intro x done
  obtain ⟨c, sized⟩ := built.sized
  have begun : Execution.start m (.ofInstructions is) = ⟨m.reset, .running 0⟩ :=
    start_accepted enough
  have start : Execution.Along c is [] (Execution.start m (.ofInstructions is)) := by
    rw [begun]
    refine ⟨List.nil_prefix, reset_sized sized, rfl, ?_, by simp⟩
    intro place running
    cases running
    rfl
  have cells : (Requirements.of is).stack.toNat ≤ c.stack := by
    simp only [Config.FallsShort, not_or, Nat.not_lt, sized.config] at enough
    exact enough.2.1
  have along := start.after (straight_of_destinations jumps destinations) word cells fuel
  rw [List.nil_append] at along
  have ended : x = (Execution.start m (.ofInstructions is)).after is fuel := outcome_eq fuel _ m
  rw [← ended] at along
  refine ⟨along.begins, along.pointer, along.place, ?_⟩
  intro e failed
  exact along.fault e (Execution.error?_eq_some.1 failed)

/-- The first two pushes fill the stack; the third pop finds it empty. -/
theorem straight_line_depth_pops :
    let is : List Instruction :=
      [⟨.push, some .stackPointer, .unused, .unused, 1, "push sp"⟩,
        ⟨.push, some .stackPointer, .unused, .unused, 2, "push sp"⟩,
        ⟨.assert, some .stackPointer, .literal ⟨0x40000000⟩, .unused, 3, "assert sp 2"⟩,
        ⟨.pop, some (.register 0), .unused, .unused, 4, "pop r0"⟩,
        ⟨.pop, some (.register 0), .unused, .unused, 5, "pop r0"⟩,
        ⟨.pop, some (.register 0), .unused, .unused, 6, "pop r0"⟩]
    let m : Machine Peripheral := new { stack := 2 } #[]
    (m.outcome 3 (.ofInstructions is)).machine.stack.pointer = Requirements.depth (is.take 3) ∧
      Requirements.depth (is.take 3) = 2 ∧
      (m.outcome 6 (.ofInstructions is)).error? = some ⟨.stackOverflow, 6, "pop r0"⟩ ∧
      ∃ i, is[5]? = some i ∧ i.operation ≠ .push := by
  intro is m
  have word : is.length < 2 ^ 64 := by decide
  have run := straight_line_depth word (m := m) (by decide) (by decide)
    (Built.new { stack := 2 } #[]) (by decide +kernel)
  have three : Execution.executed is 3 (Execution.start m (.ofInstructions is)) = is.take 3 := by
    decide +kernel
  have five : Execution.executed is 6 (Execution.start m (.ofInstructions is)) = is.take 5 := by
    decide +kernel
  have failed : (m.outcome 6 (.ofInstructions is)).error? =
      some ⟨.stackOverflow, 6, "pop r0"⟩ := by decide +kernel
  have pointer : (m.outcome 3 (.ofInstructions is)).machine.stack.pointer =
      Requirements.depth (Execution.executed is 3 (Execution.start m (.ofInstructions is))) :=
    (run 3).2.1
  obtain ⟨i, fetched, -, -, other⟩ := (run 6).2.2.2 _ failed
  rw [five] at fetched
  rw [three] at pointer
  exact ⟨pointer, by decide +kernel, failed, i, fetched, fun push => other push rfl⟩

end Machine
end FloatMachine
