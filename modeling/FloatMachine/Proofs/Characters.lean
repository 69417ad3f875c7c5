import FloatMachine.Proofs.Peripherals

/-! The characters of a display. A value that is exactly the code of a character puts it at the
cursor, and so does one other: two to the power of 32 is taken for the code zero. All else is refused
and leaves the display as it is. -/
namespace FloatMachine

namespace Binary32

/-- The value is exactly this natural number. -/
def Equals (x : Binary32) (n : Nat) : Prop :=
  x.isFinite = true ∧ x.signedUnits = (n * unitsOfOne : Nat)

instance (x : Binary32) (n : Nat) : Decidable (x.Equals n) := inferInstanceAs (Decidable (_ ∧ _))

variable {x y : Binary32} {n k : Nat}

theorem toNat?_eq_some_iff : x.toNat? = some n ↔ x.Equals n := by
  have size := natAbs_signedUnits x
  rw [toNat?_eq_some, Equals, whole]
  constructor
  · rintro ⟨finite, positive, whole, value⟩
    have exact := Nat.div_mul_cancel whole
    rw [value] at exact
    exact ⟨finite, by omega⟩
  · rintro ⟨finite, value⟩
    have units : units x.magnitude = n * unitsOfOne := by omega
    refine ⟨finite, by omega, units ▸ Nat.dvd_mul_left _ _, ?_⟩
    rw [units, Nat.mul_div_cancel _ unitsOfOne_pos]

theorem Equals.unique (first : x.Equals n) (second : x.Equals k) : n = k := by
  have same := toNat?_eq_some_iff.2 first
  rw [toNat?_eq_some_iff.2 second] at same
  exact (Option.some.inj same).symm

theorem Equals.le_iff (left : x.Equals n) (right : y.Equals k) : x.le y = true ↔ n ≤ k := by
  simp only [Binary32.le, isNaN_of_finite left.1, isNaN_of_finite right.1, left.2, right.2,
    Bool.not_false, Bool.true_and, decide_eq_true_eq, Int.ofNat_le]
  exact Nat.mul_le_mul_right_iff unitsOfOne_pos

end Binary32

namespace Display

open Binary32 (Equals)

variable {d : Display} {v : Binary32} {n : Nat} {c : Char}

/-- In single precision, the greatest number of 32 bits becomes the one after it. -/
theorem index?_eq_some : index? v = some n ↔ v.Equals n ∧ n ≤ 0x100000000 := by
  have limit : (Binary32.ofNat 0xffffffff).Equals 0x100000000 := by decide +kernel
  rw [index?, Option.ite_none_right_eq_some, Binary32.toNat?_eq_some_iff]
  constructor
  · rintro ⟨le, value⟩
    exact ⟨value, (value.le_iff limit).1 le⟩
  · rintro ⟨value, le⟩
    exact ⟨(value.le_iff limit).2 le, value⟩

theorem character?_eq_some : character? n = some c ↔ n % 0x100000000 = c.toNat := by
  rw [character?]
  by_cases valid : (n % 0x100000000).isValidChar
  · rw [dif_pos valid, Option.some.injEq]
    constructor
    · rintro rfl
      rfl
    · exact fun same => Char.toNat_inj.1 same
  · rw [dif_neg valid]
    constructor
    · rintro ⟨⟩
    · intro same
      rw [same] at valid
      exact absurd c.valid valid

/-- The characters that a value is taken for: the one with this code, and the one with code zero for
two to the power of 32, of which 32 bits count. -/
def Stands (v : Binary32) (c : Char) : Prop :=
  v.Equals c.toNat ∨ v.Equals 0x100000000 ∧ c.toNat = 0

theorem character_iff : (index? v).bind character? = some c ↔ Stands v c := by
  simp only [Option.bind_eq_some_iff, index?_eq_some, character?_eq_some]
  have code : c.toNat < 0x100000000 := c.val.toNat_lt
  constructor
  · rintro ⟨n, ⟨value, bound⟩, same⟩
    rcases Nat.eq_or_lt_of_le bound with rfl | below
    · exact Or.inr ⟨value, same.symm⟩
    · rw [Nat.mod_eq_of_lt below] at same
      exact Or.inl (same ▸ value)
  · rintro (value | ⟨value, zero⟩)
    · exact ⟨c.toNat, ⟨value, Nat.le_of_lt code⟩, Nat.mod_eq_of_lt code⟩
    · exact ⟨0x100000000, ⟨value, Nat.le_refl _⟩, zero.symm⟩

/-- A write to register 0 is taken when there is room and the value stands for a character. It then
sets the cell at the cursor and no other, and moves the cursor on; else it changes nothing. -/
theorem character_written (d : Display) (v : Binary32) :
    ((Device.write d 0 v).1 = true ↔ d.cursor < d.capacity ∧ ∃ c, Stands v c) ∧
    (∀ c, d.cursor < d.capacity → Stands v c →
      (Device.write d 0 v).2.cursor = d.cursor + 1 ∧
      ∀ i, (Device.write d 0 v).2.cells[i]? = if i = d.cursor then some c else d.cells[i]?) ∧
    ((Device.write d 0 v).1 = false → (Device.write d 0 v).2 = d) := by
  have taken : ∀ c, d.cursor < d.capacity → Stands v c → ∃ room,
      Device.write d 0 v = (true, ⟨d.cells.set d.cursor c room, d.cursor + 1⟩) := by
    intro c room stands
    exact ⟨room, write_eq.2 (.put room (character_iff.2 stands))⟩
  refine ⟨⟨fun accepted => ?_, fun ⟨room, c, stands⟩ => ?_⟩, fun c room stands => ?_, ?_⟩
  · have changes : d.Changes 0 v (Device.write d 0 v).2 := write_eq.1 (Prod.ext accepted rfl)
    generalize (Device.write d 0 v).2 = e at changes
    cases changes with
    | @put _ c room stands => exact ⟨room, c, character_iff.1 stands⟩
  · obtain ⟨_, written⟩ := taken c room stands
    rw [written]
  · obtain ⟨room, written⟩ := taken c room stands
    rw [written]
    refine ⟨rfl, fun i => ?_⟩
    simp only [Array.getElem?_set, eq_comm]
  · exact steady.write d 0 v

/-- The second of two cells is left blank. -/
theorem character_written_first :
    let v : Binary32 := ⟨0x42820000⟩
    (blank 2).cursor < (blank 2).capacity ∧ Stands v 'A' ∧
      (Device.write (blank 2) 0 v).1 = true ∧
      (Device.write (blank 2) 0 v).2.cells[0]? = some 'A' ∧
      (Device.write (blank 2) 0 v).2.cells[1]? = some ' ' := by
  intro v
  have room : (blank 2).cursor < (blank 2).capacity := by decide
  have stands : Stands v 'A' := Or.inl (by decide +kernel)
  obtain ⟨taken, written, -⟩ := character_written (blank 2) v
  obtain ⟨-, cells⟩ := written 'A' room stands
  exact ⟨room, stands, taken.2 ⟨room, 'A', stands⟩, cells 0, cells 1⟩

/-- Two to the power of 32 is the code of no character, and a fresh display takes it. -/
theorem character_beyond_codes :
    Device.write (blank 1) 0 ⟨0x4f800000⟩ = (true, ⟨#['\x00'], 1⟩) ∧
    (∀ c : Char, ¬ Equals ⟨0x4f800000⟩ c.toNat) ∧
    ¬ ∀ (cells : Nat) (requests : List Device.Request) (v : Binary32),
      let d := Device.after (blank cells) requests
      (Device.write d 0 v).1 = true ↔ d.cursor < d.capacity ∧ ∃ c : Char, v.Equals c.toNat := by
  have taken : Device.write (blank 1) 0 ⟨0x4f800000⟩ = (true, ⟨#['\x00'], 1⟩) := by decide +kernel
  have value : Equals ⟨0x4f800000⟩ 0x100000000 := by decide +kernel
  have none : ∀ c : Char, ¬ Equals ⟨0x4f800000⟩ c.toNat := by
    intro c code
    have small : c.toNat < 0x100000000 := c.val.toNat_lt
    exact absurd (code.unique value) (Nat.ne_of_lt small)
  refine ⟨taken, none, fun claimed => ?_⟩
  have accepted : (Device.write (blank 1) 0 ⟨0x4f800000⟩).1 = true := by rw [taken]
  obtain ⟨-, c, code⟩ := (claimed 1 [] ⟨0x4f800000⟩).1 accepted
  exact none c code

end Display
end FloatMachine
