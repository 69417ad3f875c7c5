import FloatMachine.Machine.Config

/-! What a program needs covers every place that its instructions name, whatever way a run
takes through them. -/
namespace FloatMachine

/-- The place exists on a machine with that many registers and device slots. -/
def Operand.Within (registers devices : Nat) : Operand → Prop
  | .register i => i.toNat < registers
  | .device a => a.slot.toNat < devices
  | .literal _ | .stackPointer | .returnAddress => True

namespace Instruction

/-- The operand is the destination or stands to the left or right, used there or not. -/
def Names (i : Instruction) (o : Operand) : Prop :=
  (∃ d, i.destination = some d ∧ d.toOperand = o) ∨ i.left = o ∨ i.right = o

theorem mem_touched {i : Instruction} {o : Operand} : o ∈ i.touched ↔ i.Names o := by
  cases given : i.destination with
  | none => simp [touched, Names, given, eq_comm]
  | some d => simp [touched, Names, given, eq_comm]

end Instruction

namespace Tally

def Covers (t : Tally) (o : Operand) : Prop := o.Within t.registers t.devices

/-- The later tally asks for as much or more; the stack is left out. -/
structure Grows (s t : Tally) : Prop where
  registers : s.registers ≤ t.registers
  devices : s.devices ≤ t.devices

theorem Grows.refl (t : Tally) : Grows t t := ⟨Nat.le_refl _, Nat.le_refl _⟩

theorem Grows.trans {s t u : Tally} (first : Grows s t) (second : Grows t u) : Grows s u :=
  ⟨Nat.le_trans first.registers second.registers, Nat.le_trans first.devices second.devices⟩

theorem Grows.covers {s t : Tally} (grows : Grows s t) {o : Operand} (covered : s.Covers o) :
    t.Covers o := by
  cases o with
  | register i => exact Nat.lt_of_lt_of_le covered grows.registers
  | device a => exact Nat.lt_of_lt_of_le covered grows.devices
  | literal | stackPointer | returnAddress => trivial

theorem touch_grows (t : Tally) (o : Operand) : Grows t (t.touch o) := by
  cases o with
  | register i => exact ⟨Nat.le_max_left _ _, Nat.le_refl _⟩
  | device a => exact ⟨Nat.le_refl _, Nat.le_max_left _ _⟩
  | literal | stackPointer | returnAddress => exact Grows.refl t

theorem touch_covers (t : Tally) (o : Operand) : (t.touch o).Covers o := by
  cases o with
  | register i => exact Nat.le_max_right _ _
  | device a => exact Nat.le_max_right _ _
  | literal | stackPointer | returnAddress => trivial

theorem touched_grows (os : List Operand) (t : Tally) : Grows t (os.foldl touch t) := by
  induction os generalizing t with
  | nil => exact Grows.refl t
  | cons o os ih => exact (touch_grows t o).trans (ih _)

theorem touched_covers {os : List Operand} {o : Operand} (member : o ∈ os) (t : Tally) :
    (os.foldl touch t).Covers o := by
  induction os generalizing t with
  | nil => cases member
  | cons first os ih =>
    rcases List.mem_cons.1 member with rfl | later
    · exact (touched_grows os _).covers (touch_covers t _)
    · exact ih later _

theorem move_registers (t : Tally) (op : Operation) : (t.move op).registers = t.registers := by
  cases op <;> rfl

theorem move_devices (t : Tally) (op : Operation) : (t.move op).devices = t.devices := by
  cases op <;> rfl

theorem move_grows (t : Tally) (op : Operation) : Grows t (t.move op) :=
  ⟨Nat.le_of_eq (move_registers t op).symm, Nat.le_of_eq (move_devices t op).symm⟩

theorem count_grows (t : Tally) (i : Instruction) : Grows t (t.count i) :=
  (touched_grows i.touched t).trans (move_grows _ _)

theorem count_covers {i : Instruction} {o : Operand} (member : o ∈ i.touched) (t : Tally) :
    (t.count i).Covers o :=
  (move_grows _ _).covers (touched_covers member t)

theorem counted_grows (is : List Instruction) (t : Tally) : Grows t (is.foldl count t) := by
  induction is generalizing t with
  | nil => exact Grows.refl t
  | cons i is ih => exact (count_grows t i).trans (ih _)

theorem counted_covers {is : List Instruction} {i : Instruction} (member : i ∈ is) {o : Operand}
    (touched : o ∈ i.touched) (t : Tally) : (is.foldl count t).Covers o := by
  induction is generalizing t with
  | nil => cases member
  | cons first is ih =>
    rcases List.mem_cons.1 member with rfl | later
    · exact (counted_grows is _).covers (count_covers touched t)
    · exact ih later _

/-- No more than an index of 32 and a slot of 16 bits can name. -/
structure Bounded (t : Tally) : Prop where
  registers : t.registers ≤ 0x100000000
  devices : t.devices ≤ 0x10000

theorem touch_bounded {t : Tally} (bounded : t.Bounded) (o : Operand) : (t.touch o).Bounded := by
  cases o with
  | register i =>
    have index := i.toNat_lt
    exact ⟨Nat.max_le.2 ⟨bounded.registers, by omega⟩, bounded.devices⟩
  | device a =>
    have slot := a.slot.toNat_lt
    exact ⟨bounded.registers, Nat.max_le.2 ⟨bounded.devices, by omega⟩⟩
  | literal | stackPointer | returnAddress => exact bounded

theorem count_bounded {t : Tally} (bounded : t.Bounded) (i : Instruction) :
    (t.count i).Bounded := by
  have touched : (i.touched.foldl touch t).Bounded := by
    induction i.touched generalizing t with
    | nil => exact bounded
    | cons o os ih => exact ih (touch_bounded bounded o)
  unfold count
  constructor
  · rw [move_registers]
    exact touched.registers
  · rw [move_devices]
    exact touched.devices

theorem counted_bounded (is : List Instruction) {t : Tally} (bounded : t.Bounded) :
    (is.foldl count t).Bounded := by
  induction is generalizing t with
  | nil => exact bounded
  | cons i is ih => exact ih (count_bounded bounded i)

end Tally

namespace Requirements

theorem counted (is : List Instruction) : (is.foldl Tally.count {}).Bounded :=
  Tally.counted_bounded is ⟨by decide, by decide⟩

theorem of_registers (is : List Instruction) :
    (of is).registers.toNat = (is.foldl Tally.count {}).registers := by
  have bound := (counted is).registers
  exact Nat.mod_eq_of_lt (by omega)

theorem of_devices (is : List Instruction) :
    (of is).devices.toNat = (is.foldl Tally.count {}).devices := by
  have bound := (counted is).devices
  exact Nat.mod_eq_of_lt (by omega)

theorem of_covers {is : List Instruction} {i : Instruction} (member : i ∈ is) {o : Operand}
    (touched : o ∈ i.touched) : o.Within (of is).registers.toNat (of is).devices.toNat := by
  rw [of_registers, of_devices]
  exact Tally.counted_covers member touched {}

end Requirements

namespace Config

def FallsShort (c : Config) (r : Requirements) : Prop :=
  c.registers < r.registers.toNat ∨ c.stack < r.stack.toNat ∨ c.devices < r.devices.toNat

instance (c : Config) (r : Requirements) : Decidable (c.FallsShort r) :=
  inferInstanceAs (Decidable (_ ∨ _))

theorem lack_eq_nil {what : String} {needed available : Nat} :
    lack what needed available = [] ↔ ¬ available < needed := by
  unfold lack
  split
  · rename_i short
    constructor
    · intro h; cases h
    · intro enough; exact (enough short).elim
  · rename_i enough
    simp [enough]

theorem shortfall_eq_nil {c : Config} {r : Requirements} :
    c.shortfall r = [] ↔ ¬ c.FallsShort r := by
  simp only [shortfall, List.append_eq_nil_iff, lack_eq_nil, FallsShort, not_or, and_assoc]

theorem fitting_fallsShort {p : Program} :
    (fitting p).FallsShort p.requirements ↔
      maxRegisters < p.requirements.registers.toNat ∨ maxStack < p.requirements.stack.toNat := by
  simp only [FallsShort, fitting, maxRegisters, maxStack]
  omega

end Config
end FloatMachine
