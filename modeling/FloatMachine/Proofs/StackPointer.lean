import FloatMachine.Proofs.Capacity
import FloatMachine.Proofs.Rounding

/-! How high the stack pointer gets. A value is let into it up to the number of cells as single
precision tells it, which may be more than there are: the pointer stays within the stack of every
run exactly when that number is not rounded up. -/
namespace FloatMachine

namespace Stack

/-- The highest place that the pointer of a stack can be set to. -/
def reach (cells : Nat) : Nat := saturated (Binary32.ofNat cells).whole

theorem reach_of_small {cells : Nat} (small : cells ≤ 0x1000000) : reach cells = cells := by
  rw [reach, saturated, Binary32.whole_ofNat small]
  omega

theorem saturated_le {n k : Nat} (le : n ≤ k) : saturated n ≤ saturated k := by
  unfold saturated
  omega

/-- The stack has `cells` cells, and its pointer stands at most as high as it can be set. -/
structure Fits (cells : Nat) (s : Stack) : Prop where
  size : s.cells.size = cells
  pointer : s.pointer ≤ max cells (reach cells)

variable {cells : Nat}

theorem empty_fits (cells : Nat) : (empty cells).Fits cells :=
  ⟨Array.size_replicate, Nat.zero_le _⟩

theorem push_fits (v : Binary32) :
    Keeps (Fits cells) (fun _ => True) (push v) fun _ => True := by
  intro s fits
  unfold push
  split
  · rename_i inside
    refine .ok ⟨by simpa using fits.size, ?_⟩ trivial
    exact Nat.le_trans (fits.size ▸ inside) (Nat.le_max_left _ _)
  · exact .error fits trivial

theorem pop_fits : Keeps (Fits cells) (fun _ => True) pop fun _ => True := by
  intro s fits
  unfold pop
  split
  · exact .ok ⟨fits.size, Nat.le_trans (Nat.sub_le _ _) fits.pointer⟩ trivial
  · exact .error fits trivial

theorem setPointer_fits (v : Binary32) :
    Keeps (Fits cells) (fun _ => True) (setPointer v) fun _ => True := by
  intro s fits
  unfold setPointer
  split
  · rename_i n value
    split
    · rename_i le
      obtain ⟨-, from_zero, -, rfl⟩ := Binary32.toNat?_eq_some.1 value
      have top : saturated v.whole ≤ reach cells :=
        saturated_le (fits.size ▸ Binary32.whole_le_of_le from_zero le)
      exact .ok ⟨fits.size, Nat.le_trans top (Nat.le_max_right _ _)⟩ trivial
    · exact .error fits trivial
  · exact .error fits trivial

theorem live_length {s : Stack} (within : s.pointer ≤ s.cells.size) :
    s.live.length = s.pointer := by
  rw [live, List.length_take, Array.length_toList, Nat.min_eq_left within]

end Stack

namespace Machine

variable {δ : Type} {cells : Nat}

theorem onStack_fits {α : Type} {act : Stack.Action α}
    (held : Keeps (Stack.Fits cells) (fun _ => True) act fun _ => True) :
    Keeps (fun m : Machine δ => m.stack.Fits cells) (fun _ => True) (onStack act) fun _ => True :=
  onStack_keeps held (fun _ fits => fits) fun _ _ _ fits => fits

variable [Device δ]

theorem read_fits (o : Operand) :
    Keeps (fun m : Machine δ => m.stack.Fits cells) (fun _ => True) (read o) fun _ => True :=
  read_untouched (fun _ _ fits => fits) o

theorem write_fits (d : Destination) (v : Binary32) :
    Keeps (fun m : Machine δ => m.stack.Fits cells) (fun _ => True) (write d v) fun _ => True := by
  cases d with
  | register r => exact writeRegister_untouched (fun _ _ fits => fits) r v
  | stackPointer => exact onStack_fits (Stack.setPointer_fits v)
  | returnAddress => exact Keeps.modify fun _ fits => fits
  | device a => exact onBus_untouched (fun _ _ fits => fits) (Bus.write a v)

theorem fits_respects (i : Instruction) :
    Respects i (fun m : Machine δ => m.stack.Fits cells) (fun _ => True) (fun _ => True) where
  number := fun _ _ => trivial
  read := fun o _ => read_fits o
  write := fun d _ v _ => write_fits d v
  push := fun v _ => onStack_fits (Stack.push_fits v)
  pop := onStack_fits Stack.pop_fits
  peek := onStack_fits (Stack.peek_keeps trivial)
  link := fun _ _ fits => fits
  missing := fun _ _ => trivial
  refusal := fun _ _ => trivial

omit [Device δ] in
theorem start_fits {m : Machine δ} (p : Program) :
    Execution.Sound p.instructions
      (fun n : Machine δ => n.stack.Fits m.stack.cells.size) (fun _ _ => True)
      ⟨m.reset, .running 0⟩ := by
  constructor
  · exact Stack.empty_fits _
  · intro e failed
    cases failed

theorem outcome_fits (m : Machine δ) (p : Program) (fuel : Nat) :
    (m.outcome fuel p).machine.stack.Fits m.stack.cells.size := by
  by_cases short : m.config.FallsShort p.requirements
  · rw [outcome_refused short]
    exact Stack.empty_fits _
  · rw [outcome_eq, start_accepted short]
    exact (Execution.after_sound (fun i _ => (fits_respects i).step_keeps p.instructions)
      (start_fits p) fuel).machine

theorem seen_sized {c : Config} {m : Machine δ} (sized : Sized c m) (p : Program) (fuel : Nat) :
    ∀ s ∈ (Execution.start m p).seen p.instructions fuel,
      s.registers.size = c.registers ∧ s.stack.Fits c.stack := by
  by_cases short : m.config.FallsShort p.requirements
  · intro s member
    rw [start_refused short, Execution.seen_stopped (by simp)] at member
    cases member
  · rw [start_accepted short]
    intro s member
    constructor
    · obtain ⟨i, n, after, rfl⟩ := Execution.seen_sound
        (fun i _ => (sized_respects c i).step_keeps p.instructions)
        ⟨reset_sized sized, by simp⟩ fuel s member
      exact after.registers
    · obtain ⟨i, n, fits, rfl⟩ := Execution.seen_sound
        (fun i _ => (fits_respects i).step_keeps p.instructions) (start_fits p) fuel s member
      exact sized.stack ▸ fits

def setting (v : Binary32) (text : String) : Program :=
  .ofInstructions [⟨.move, some .stackPointer, .literal v, .unused, 1, text⟩]

theorem outcome_setting (c : Config) (devices : Array δ) {v : Binary32} {n : Nat} (text : String)
    (value : v.toNat? = some n) (le : v.le (.ofNat c.stack) = true) :
    (new c devices).outcome 2 (setting v text) =
      ⟨{ (new c devices).reset with
          stack := ⟨(Stack.empty c.stack).cells, Stack.saturated n⟩ }, .finished⟩ := by
  have enough : ¬ (new c devices).config.FallsShort (setting v text).requirements := by
    simp only [Config.FallsShort, not_or, Nat.not_lt]
    exact ⟨Nat.zero_le _, Nat.zero_le _, Nat.zero_le _⟩
  have size : (new c devices).reset.stack.cells.size = c.stack := by
    simp [reset, Stack.reset, new, Stack.empty]
  have set : onStack (Stack.setPointer v) (new c devices).reset =
      (.ok (), { (new c devices).reset with
        stack := ⟨(new c devices).reset.stack.cells, Stack.saturated n⟩ }) := by
    simp only [onStack, Stack.setPointer, value, size, le, if_true]
  have cells : (new c devices).reset.stack.cells = (Stack.empty c.stack).cells := by
    simp [reset, Stack.reset, new, Stack.empty]
  have stepped : ∀ program, step program ⟨.move, some .stackPointer, .literal v, .unused, 1, text⟩
      (new c devices).reset = (.ok .next, { (new c devices).reset with
        stack := ⟨(new c devices).reset.stack.cells, Stack.saturated n⟩ }) := by
    intro program
    simp only [step, read, Operand.unused, destinationOf, write, bind_eq, pure_eq, set]
  rw [outcome_eq, start_accepted enough]
  simp only [Execution.after, Execution.next, setting, Program.ofInstructions, stepped,
    List.getElem?_cons_zero, Execution.follow, cells]
  rfl

/- The pointer and the cells that such a run leaves. -/
theorem setting_ended (c : Config) (devices : Array δ) {v : Binary32} {n : Nat} (text : String)
    (value : v.toNat? = some n) (le : v.le (.ofNat c.stack) = true) :
    let x := (new c devices).outcome 2 (setting v text)
    x.status = .finished ∧ x.machine.stack.cells.size = c.stack ∧
      x.machine.stack.pointer = Stack.saturated n ∧
      x.machine.stack.live.length = min (Stack.saturated n) c.stack := by
  intro x
  have ended : x = _ := outcome_setting c devices text value le
  have size : (Stack.empty c.stack).cells.size = c.stack := Array.size_replicate
  rw [ended]
  refine ⟨rfl, size, rfl, ?_⟩
  rw [Stack.live, List.length_take, Array.length_toList, size]

/-- Where the number of cells is rounded up, a run can set the pointer beyond them. -/
theorem reach_le_of_fits {c : Config}
    (fits : ∀ (devices : Array δ) (p : Program) (fuel : Nat),
      ((new c devices).outcome fuel p).machine.stack.pointer ≤ c.stack) :
    Stack.reach c.stack ≤ c.stack := by
  by_cases word : c.stack < 2 ^ 64
  · have value := Binary32.toNat?_ofNat word
    have number : (Binary32.ofNat c.stack).isNaN = false :=
      Binary32.isNaN_of_finite (Binary32.toNat?_eq_some.1 value).1
    have le : (Binary32.ofNat c.stack).le (.ofNat c.stack) = true := by
      simp [Binary32.le, number]
    have bound := fits #[] (setting (.ofNat c.stack) "") 2
    rwa [(setting_ended c #[] "" value le).2.2.1] at bound
  · unfold Stack.reach Stack.saturated
    omega

end Machine

namespace Machine

/-- Registers, stack cells and device slots keep their configured numbers in every run, and so
do the snapshots. The pointer stays within the cells in all runs, and the live stack has as many
cells as it says, exactly when the number of cells is not rounded up in single precision: it is not
for any stack of at most two to the power of 24 cells. -/
theorem pointer_fits_iff_reach (c : Config) :
    (∀ {δ : Type} [Device δ] {m : Machine δ}, m.Built → m.config = c → ∀ (p : Program) (fuel : Nat),
      Sized c (m.outcome fuel p).machine ∧
      ∀ s ∈ (Execution.start m p).seen p.instructions fuel,
        s.registers.size = c.registers ∧ s.stack.cells.size = c.stack) ∧
    ((∀ {δ : Type} [Device δ] {m : Machine δ}, m.Built → m.config = c →
        ∀ (p : Program) (fuel : Nat),
      (m.outcome fuel p).machine.stack.pointer ≤ c.stack ∧
      ∀ s ∈ (Execution.start m p).seen p.instructions fuel,
        s.stack.pointer ≤ c.stack ∧ s.stack.live.length = s.stack.pointer) ↔
      Stack.reach c.stack ≤ c.stack) ∧
    (c.stack ≤ 0x1000000 → Stack.reach c.stack = c.stack) := by
  have setting : ∀ {δ : Type} [Device δ] {m : Machine δ}, m.Built → m.config = c →
      Sized c m := by
    intro δ _ m built same
    obtain ⟨d, sized⟩ := built.sized
    rwa [show d = c from sized.config.symm.trans same] at sized
  refine ⟨?_, ⟨?_, ?_⟩, Stack.reach_of_small⟩
  · intro δ _ m built same p fuel
    have sized := setting built same
    refine ⟨outcome_sized sized fuel p, ?_⟩
    intro s member
    obtain ⟨registers, fits⟩ := seen_sized sized p fuel s member
    exact ⟨registers, fits.size⟩
  · intro within
    exact reach_le_of_fits fun (devices : Array Peripheral) p fuel =>
      (within (Built.new c devices) rfl p fuel).1
  · intro enough δ _ m built same p fuel
    have sized := setting built same
    have limit : max c.stack (Stack.reach c.stack) ≤ c.stack :=
      Nat.max_le.2 ⟨Nat.le_refl _, enough⟩
    constructor
    · exact Nat.le_trans (sized.stack ▸ (outcome_fits m p fuel).pointer) limit
    · intro s member
      obtain ⟨-, fits⟩ := seen_sized sized p fuel s member
      have within := Nat.le_trans fits.pointer limit
      exact ⟨within, Stack.live_length (fits.size ▸ within)⟩

theorem pointer_fits_iff_reach_push :
    let p := Program.ofInstructions
      [⟨.push, some (.register 0), .unused, .unused, 1, "push r0"⟩,
        ⟨.jump, none, .literal .one, .unused, 2, "jmp 1"⟩]
    let m : Machine Peripheral := new {} #[]
    (m.outcome 40 p).error? = some ⟨.stackOverflow, 1, "push r0"⟩ ∧
      (m.outcome 40 p).machine.stack.pointer ≤ 16 := by
  intro p m
  obtain ⟨-, within, small⟩ := pointer_fits_iff_reach {}
  have built : m.Built := Built.new {} #[]
  have reach : Stack.reach ({} : Config).stack ≤ ({} : Config).stack :=
    Nat.le_of_eq (small (by decide))
  exact ⟨by decide +kernel, (within.2 reach built rfl p 40).1⟩

/-- A stack of 2^24 + 3 cells. -/
def oversized : Config := { stack := 16777219 }

/-- The size of such a stack is rounded up by one, and the stack pointer set there stands above
the last cell. -/
theorem pointer_beyond_stack : ∃ p,
    Assembly.assemble "mov sp 16777220" = .ok p ∧
      ((new oversized #[] : Machine Peripheral).outcome 2 p).status = .finished ∧
      ((new oversized #[] : Machine Peripheral).outcome 2 p).machine.stack.cells.size = 16777219 ∧
      ((new oversized #[] : Machine Peripheral).outcome 2 p).machine.stack.pointer = 16777220 ∧
      ((new oversized #[] : Machine Peripheral).outcome 2 p).machine.stack.live.length =
        16777219 := by
  have value : (Binary32.ofNat 16777220).toNat? = some 16777220 := by decide +kernel
  have le : (Binary32.ofNat 16777220).le (.ofNat oversized.stack) = true := by decide +kernel
  have top : Stack.saturated 16777220 = 16777220 := by decide +kernel
  have cells : oversized.stack = 16777219 := rfl
  have ended := setting_ended (δ := Peripheral) oversized #[] "mov sp 16777220" value le
  rw [top, cells] at ended
  refine ⟨setting (.ofNat 16777220) "mov sp 16777220", by decide +kernel, ?_⟩
  obtain ⟨status, size, pointer, live⟩ := ended
  exact ⟨status, size, pointer, live⟩

end Machine
end FloatMachine
