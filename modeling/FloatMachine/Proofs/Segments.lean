import FloatMachine.Proofs.StraightLine
import Mathlib.Data.List.Infix
import Mathlib.Order.Bounds.Basic

/-! Needs as greatest values. Registers and slots are as many as the greatest index named asks
for, cells as many as the stretch of the program that pushes most above what it pops. -/
namespace FloatMachine

theorem isGreatest_foldl_max {α : Type} (f : α → Nat) (as : List α) (first : Nat) :
    IsGreatest {n | n = first ∨ ∃ a ∈ as, n = f a} (as.foldl (fun n a => max n (f a)) first) := by
  induction as generalizing first with
  | nil => simp [IsGreatest, upperBounds]
  | cons a as ih =>
    obtain ⟨met, bound⟩ := ih (max first (f a))
    constructor
    · rcases met with start | ⟨b, member, same⟩
      · rcases max_choice first (f a) with same | same
        · exact Or.inl (start.trans same)
        · exact Or.inr ⟨a, List.mem_cons_self, start.trans same⟩
      · exact Or.inr ⟨b, List.mem_cons_of_mem a member, same⟩
    · have start := bound (Or.inl rfl)
      rintro n (rfl | ⟨b, member, rfl⟩)
      · exact Nat.le_trans (Nat.le_max_left _ _) start
      · rcases List.mem_cons.1 member with rfl | later
        · exact Nat.le_trans (Nat.le_max_right _ _) start
        · exact bound (Or.inr ⟨b, later, rfl⟩)

namespace Operand

def register? : Operand → Option Nat
  | .register i => some i.toNat
  | .literal _ | .stackPointer | .returnAddress | .device _ => none

def slot? : Operand → Option Nat
  | .device a => some a.slot.toNat
  | .literal _ | .register _ | .stackPointer | .returnAddress => none

/-- How many places there are up to an index. -/
def upTo (index : Option Nat) : Nat := index.elim 0 (· + 1)

end Operand

namespace Tally

theorem touch_eq (t : Tally) (o : Operand) : t.touch o =
    { t with
      registers := max t.registers (Operand.upTo o.register?)
      devices := max t.devices (Operand.upTo o.slot?) } := by
  cases o <;> simp [touch, Operand.upTo, Operand.register?, Operand.slot?]

theorem touched_eq (os : List Operand) (t : Tally) : os.foldl touch t =
    { t with
      registers := os.foldl (fun n o => max n (Operand.upTo o.register?)) t.registers
      devices := os.foldl (fun n o => max n (Operand.upTo o.slot?)) t.devices } := by
  induction os generalizing t with
  | nil => rfl
  | cons o os ih => rw [List.foldl_cons, ih, touch_eq, List.foldl_cons, List.foldl_cons]

theorem counted_places (is : List Instruction) (t : Tally) :
    let named := is.flatMap Instruction.touched
    (is.foldl count t).registers =
      named.foldl (fun n o => max n (Operand.upTo o.register?)) t.registers ∧
    (is.foldl count t).devices =
      named.foldl (fun n o => max n (Operand.upTo o.slot?)) t.devices := by
  induction is generalizing t with
  | nil => exact ⟨rfl, rfl⟩
  | cons i is ih =>
    simp only [List.foldl_cons, List.flatMap_cons, List.foldl_append, ih, count, move_registers,
      move_devices, touched_eq, and_self]

end Tally

namespace Requirements

/-- One more than each index that an instruction names, and zero. -/
def Counts (index? : Operand → Option Nat) (is : List Instruction) : Set Nat :=
  {n | n = 0 ∨ ∃ i ∈ is, ∃ o k, i.Names o ∧ index? o = some k ∧ n = k + 1}

theorem counts_isGreatest (index? : Operand → Option Nat) (is : List Instruction) :
    IsGreatest (Counts index? is) ((is.flatMap Instruction.touched).foldl
      (fun n o => max n (Operand.upTo (index? o))) 0) := by
  convert isGreatest_foldl_max (fun o => Operand.upTo (index? o)) _ 0 using 1
  ext n
  constructor
  · rintro (zero | ⟨i, member, o, k, named, index, same⟩)
    · exact Or.inl zero
    · refine Or.inr ⟨o, List.mem_flatMap.2 ⟨i, member, Instruction.mem_touched.2 named⟩, ?_⟩
      simp [Operand.upTo, index, same]
  · rintro (zero | ⟨o, touched, same⟩)
    · exact Or.inl zero
    · obtain ⟨i, member, named⟩ := List.mem_flatMap.1 touched
      cases index : index? o with
      | none =>
        simp only [Operand.upTo, index, Option.elim_none] at same
        exact Or.inl same
      | some k =>
        simp only [Operand.upTo, index, Option.elim_some] at same
        exact Or.inr ⟨i, member, o, k, Instruction.mem_touched.1 named, index, same⟩

theorem counts_perm (index? : Operand → Option Nat) {is js : List Instruction} (perm : is.Perm js) :
    Counts index? is = Counts index? js := by
  simp only [Counts, perm.mem_iff]

theorem registers_isGreatest (is : List Instruction) :
    IsGreatest (Counts Operand.register? is) (of is).registers.toNat := by
  rw [of_registers, (Tally.counted_places is {}).1]
  exact counts_isGreatest _ is

theorem devices_isGreatest (is : List Instruction) :
    IsGreatest (Counts Operand.slot? is) (of is).devices.toNat := by
  rw [of_devices, (Tally.counted_places is {}).2]
  exact counts_isGreatest _ is

/-- What a stretch of the program pushes above what it pops. -/
def balance (run : List Instruction) : Int :=
  run.countP (fun i => i.operation = .push) - run.countP (fun i => i.operation = .pop)

/-- What an operation does to the depth of the stack. -/
def change : Operation → Int
  | .push => 1
  | .pop => -1
  | _ => 0

theorem balance_append (is js : List Instruction) :
    balance (is ++ js) = balance is + balance js := by
  simp only [balance, List.countP_append]
  omega

theorem balance_singleton (i : Instruction) : balance [i] = change i.operation := by
  cases operation : i.operation <;> simp [balance, change, operation]

theorem depth_step (is : List Instruction) (i : Instruction) :
    (depth (is ++ [i]) : Int) = max 0 (depth is + change i.operation) := by
  rw [depth_concat]
  cases i.operation <;> simp only [change] <;> omega

/-- The depth counted is the greatest balance of the stretches that end here. -/
theorem depth_isGreatest (is : List Instruction) :
    IsGreatest {n | ∃ run, run <:+ is ∧ n = balance run} (depth is : Int) := by
  induction is using List.reverseRecOn with
  | nil => simp [depth, balance]
  | append_singleton is i ih =>
    obtain ⟨⟨run, suffix, same⟩, bound⟩ := ih
    rw [depth_step]
    constructor
    · rcases max_choice 0 (depth is + change i.operation) with level | level
      · exact ⟨[], List.nil_suffix, level⟩
      · refine ⟨run ++ [i], List.suffix_concat_iff.2 (Or.inr ⟨run, rfl, suffix⟩), ?_⟩
        rw [level, balance_append, balance_singleton, same]
    · rintro _ ⟨run, suffix, rfl⟩
      rcases List.suffix_concat_iff.1 suffix with rfl | ⟨shorter, rfl, ends⟩
      · exact le_max_left _ _
      · rw [balance_append, balance_singleton]
        have below := bound ⟨shorter, ends, rfl⟩
        omega

def peak (is : List Instruction) : Nat := (is.foldl Tally.count {}).stack

theorem peak_concat (is : List Instruction) (i : Instruction) : peak (is ++ [i]) =
    max (max (peak is) (if i.operation = .peek then 1 else 0)) (depth (is ++ [i])) := by
  unfold peak depth
  rw [List.foldl_append]
  generalize is.foldl Tally.count {} = t
  obtain ⟨depth, stack⟩ := Tally.touched_level i.touched t
  simp only [List.foldl_cons, List.foldl_nil, Tally.count]
  cases i.operation <;> simp [Tally.move, depth, stack]

theorem stretches_concat (is : List Instruction) (i : Instruction) :
    {n | ∃ run, run <:+: is ++ [i] ∧ n = balance run} =
      {n | ∃ run, run <:+ is ++ [i] ∧ n = balance run} ∪
        {n | ∃ run, run <:+: is ∧ n = balance run} := by
  ext n
  simp only [Set.mem_union, Set.mem_ofPred_eq, List.infix_concat_iff, or_and_right, exists_or]

/-- The cells counted are the greatest balance of all stretches, and one when there is a peek. -/
theorem peak_isGreatest (is : List Instruction) :
    ∃ highest : Int, IsGreatest {n | ∃ run, run <:+: is ∧ n = balance run} highest ∧
      (peak is : Int) = max highest (if ∃ i ∈ is, i.operation = .peek then 1 else 0) := by
  induction is using List.reverseRecOn with
  | nil => exact ⟨0, by simp [balance], by simp [peak]⟩
  | append_singleton is i ih =>
    obtain ⟨highest, greatest, same⟩ := ih
    refine ⟨max (depth (is ++ [i])) highest, ?_, ?_⟩
    · rw [stretches_concat]
      exact (depth_isGreatest (is ++ [i])).union greatest
    · rw [peak_concat, Nat.cast_max, Nat.cast_max, same]
      simp only [List.mem_append, List.mem_singleton, or_and_right, exists_or, exists_eq_left]
      by_cases before : ∃ j ∈ is, j.operation = .peek <;> by_cases here : i.operation = .peek <;>
        simp [before, here] <;> omega

/-- What a program needs, in closed form: registers and slots up to the greatest index that an
instruction names in any position, and cells for the stretch with the most pushes above its pops,
at least one where there is a peek. So the order of the instructions matters for the cells alone.
(No memory holds a program of 2^64 instructions.) -/
theorem of_isGreatest (is : List Instruction) :
    IsGreatest (Counts Operand.register? is) (of is).registers.toNat ∧
    IsGreatest (Counts Operand.slot? is) (of is).devices.toNat ∧
    (∃ (highest : Int) (cells : Nat),
      IsGreatest {n | ∃ run, run <:+: is ∧ n = balance run} highest ∧
      (cells : Int) = max 0 (max highest (if ∃ i ∈ is, i.operation = .peek then 1 else 0)) ∧
      (of is).stack = .ofNat cells ∧ (is.length < 2 ^ 64 → (of is).stack.toNat = cells)) ∧
    ∀ js, is.Perm js →
      (of js).registers = (of is).registers ∧ (of js).devices = (of is).devices := by
  refine ⟨registers_isGreatest is, devices_isGreatest is, ?_, ?_⟩
  · obtain ⟨highest, greatest, same⟩ := peak_isGreatest is
    refine ⟨highest, peak is, greatest, ?_, rfl, of_stack⟩
    rw [← same]
    exact (max_eq_right (Int.natCast_nonneg _)).symm
  · intro js perm
    have registers := registers_isGreatest js
    have devices := devices_isGreatest js
    rw [← counts_perm _ perm] at registers devices
    constructor
    · exact UInt64.toNat_inj.1 (registers.unique (registers_isGreatest is))
    · exact UInt64.toNat_inj.1 (devices.unique (devices_isGreatest is))

/-- The pushes of a program need one cell or two, as there is a pop between them or not. -/
theorem of_isGreatest_push :
    let push : Instruction := ⟨.push, some (.register 3), .unused, .unused, 1, "push r3"⟩
    let pop : Instruction := ⟨.pop, some (.register 1), .unused, .unused, 2, "pop r1"⟩
    let again : Instruction := ⟨.push, some (.device ⟨2, 0⟩), .unused, .unused, 3, "push d2:0"⟩
    (of [push, pop, again]).stack.toNat = 1 ∧
      IsGreatest {n | ∃ run, run <:+: [push, again, pop] ∧ n = balance run} 2 ∧
      4 ∈ Counts Operand.register? [push, pop, again] ∧
      (of [push, again, pop]).registers.toNat = 4 ∧ (of [push, again, pop]).devices.toNat = 3 := by
  intro push pop again
  obtain ⟨registers, -, -, reordered⟩ := of_isGreatest [push, pop, again]
  obtain ⟨-, -, ⟨highest, cells, greatest, same, -, exactly⟩, -⟩ :=
    of_isGreatest [push, again, pop]
  have swapped : [push, pop, again].Perm [push, again, pop] := .cons _ (.swap _ _ _)
  have two : cells = 2 := (exactly (by decide)).symm.trans (by decide)
  have none : ¬ ∃ i ∈ [push, again, pop], i.operation = .peek := by decide
  rw [two, if_neg none] at same
  obtain rfl : highest = 2 := by omega
  refine ⟨by decide, greatest, registers.1, ?_, ?_⟩
  · rw [(reordered _ swapped).1]
    decide
  · rw [(reordered _ swapped).2]
    decide

end Requirements
end FloatMachine
