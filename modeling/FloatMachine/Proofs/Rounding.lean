import FloatMachine.Binary32.Decimal
import Mathlib.Tactic.Ring
import Mathlib.Tactic.Positivity

/-! Rounding keeps what single precision can hold. A magnitude is a binade, its `shift`, and a
significand of at most 24 bits, `kept`, which has all of them unless the shift is zero; the value is
`kept * 2 ^ shift` units, and `nearest` finds both numbers again. -/
namespace FloatMachine.Binary32

/-- The significand has its 24 bits, or stands in the lowest binade. -/
structure Significand (shift kept : Nat) : Prop where
  high : kept < 2 * binade
  low : shift = 0 ∨ binade ≤ kept

theorem significand_of_magnitude (m : Nat) :
    ∃ shift kept, Significand shift kept ∧ m = shift * binade + kept := by
  by_cases small : m < binade
  · refine ⟨0, m, ⟨by omega, Or.inl rfl⟩, by omega⟩
  · have rest : m % binade < binade := Nat.mod_lt m (by decide)
    have split := Nat.div_add_mod' m binade
    have quotient : 1 ≤ m / binade := (Nat.one_le_div_iff (by decide)).2 (Nat.not_lt.1 small)
    refine ⟨m / binade - 1, binade + m % binade, ⟨by omega, Or.inr (by omega)⟩, ?_⟩
    rw [Nat.sub_mul, Nat.one_mul]
    have : binade ≤ m / binade * binade := Nat.le_mul_of_pos_left _ quotient
    omega

/- A significand rounded up may reach the next power of two, which belongs to both binades. -/
theorem units_eq {shift kept : Nat} (high : kept ≤ 2 * binade) (low : shift = 0 ∨ binade ≤ kept) :
    units (shift * binade + kept) = kept * 2 ^ shift := by
  unfold units
  simp only [Nat.pow_eq]
  by_cases small : kept < binade
  · have zero : shift = 0 := by omega
    subst zero
    rw [if_pos (by omega)]
    simp
  · rw [if_neg (by unfold binade at *; omega)]
    by_cases top : kept = 2 * binade
    · have next : shift * binade + kept = (shift + 2) * binade := by rw [top]; ring
      rw [next, Nat.mul_mod_left, Nat.mul_div_cancel _ (by decide), top,
        show shift + 2 - 1 = shift + 1 by omega, pow_succ]
      ring
    · have above : shift * binade + kept = (kept - binade) + (shift + 1) * binade := by
        rw [Nat.add_mul]
        omega
      have below : kept - binade < binade := by omega
      rw [above, Nat.add_mul_mod_self_right, Nat.mod_eq_of_lt below,
        Nat.add_mul_div_right _ _ (by decide), Nat.div_eq_of_lt below,
        show 0 + (shift + 1) - 1 = shift by omega, show binade + (kept - binade) = kept by omega]

theorem log2_shifted {n : Nat} (nonzero : n ≠ 0) (shift : Nat) :
    (n * 2 ^ shift).log2 = n.log2 + shift := by
  have positive : 0 < 2 ^ shift := by positivity
  rw [Nat.log2_eq_iff (Nat.mul_ne_zero nonzero positive.ne')]
  constructor
  · rw [pow_add]
    exact Nat.mul_le_mul_right _ (Nat.log2_self_le nonzero)
  · rw [Nat.add_right_comm, pow_add]
    exact Nat.mul_lt_mul_of_pos_right Nat.lt_log2_self positive

theorem log2_kept {shift kept : Nat} (form : Significand shift kept) :
    (kept * 2 ^ shift).log2 - 23 = shift := by
  by_cases zero : kept = 0
  · have lowest : shift = 0 := by
      have low := form.low
      unfold binade at low
      omega
    simp [zero, lowest]
  · have high : kept.log2 < 24 := (Nat.log2_lt zero).2 form.high
    rw [log2_shifted zero]
    rcases form.low with lowest | low
    · omega
    · have bits : 23 ≤ kept.log2 := (Nat.le_log2 zero).2 low
      omega

theorem nearest_kept {shift kept : Nat} (form : Significand shift kept) :
    nearest (2 * (kept * 2 ^ shift)) false = min (shift * binade + kept) infiniteMagnitude := by
  have half : 2 * (kept * 2 ^ shift) / 2 = kept * 2 ^ shift := Nat.mul_div_cancel_left _ (by decide)
  have double : 2 * (kept * 2 ^ shift) = kept * 2 ^ (shift + 1) := by ring
  have positive : 0 < 2 ^ shift := by positivity
  unfold nearest
  simp only [Nat.pow_eq, half, log2_kept form]
  rw [double, Nat.mul_div_cancel _ (by positivity), Nat.mul_mod_left]
  -- nothing is cut off, so there is no reason to round up
  simp [Nat.ne_of_lt positive]

theorem nearest_units {m : Nat} (finite : m ≤ infiniteMagnitude) :
    nearest (2 * units m) false = m := by
  obtain ⟨shift, kept, form, rfl⟩ := significand_of_magnitude m
  rw [units_eq (Nat.le_of_lt form.high) form.low, nearest_kept form, Nat.min_eq_left finite]

theorem nearest_le (halves : Nat) (beyond : Bool) : nearest halves beyond ≤ infiniteMagnitude :=
  Nat.min_le_right _ _

theorem significand_of_halves (halves : Nat) :
    Significand ((halves / 2).log2 - 23) (halves / 2 ^ ((halves / 2).log2 - 23 + 1)) := by
  rw [pow_succ, Nat.mul_comm, ← Nat.div_div_eq_div_mul]
  generalize halves / 2 = value
  have positive : 0 < 2 ^ (value.log2 - 23) := by positivity
  constructor
  · rw [Nat.div_lt_iff_lt_mul positive]
    calc value < 2 ^ (value.log2 + 1) := Nat.lt_log2_self
      _ ≤ 2 ^ (24 + (value.log2 - 23)) := Nat.pow_le_pow_right (by decide) (by omega)
      _ = 2 * binade * 2 ^ (value.log2 - 23) := by rw [pow_add]; rfl
  · by_cases lowest : value.log2 - 23 = 0
    · exact Or.inl lowest
    · refine Or.inr ((Nat.le_div_iff_mul_le positive).2 ?_)
      have nonzero : value ≠ 0 := by
        rintro rfl
        exact lowest (by decide)
      calc binade * 2 ^ (value.log2 - 23) = 2 ^ (23 + (value.log2 - 23)) := by rw [pow_add]; rfl
        _ = 2 ^ value.log2 := by congr 1; omega
        _ ≤ value := Nat.log2_self_le nonzero

theorem nearest_eq (halves : Nat) (beyond : Bool) : ∃ up : Bool, nearest halves beyond =
    min (((halves / 2).log2 - 23) * binade +
      (halves / 2 ^ ((halves / 2).log2 - 23 + 1) + up.toNat)) infiniteMagnitude := by
  unfold nearest
  simp only [Nat.pow_eq, Nat.add_assoc]
  split
  · exact ⟨true, rfl⟩
  · exact ⟨false, rfl⟩

section Magnitudes

variable {m : Nat}

theorem magnitude_ofMagnitude (negative : Bool) (small : m < signBit) :
    (ofMagnitude negative m).magnitude = m := by
  unfold signBit at small
  cases negative <;> simp only [ofMagnitude, magnitude, signBit, UInt32.toNat_ofNat'] <;> simp <;>
    omega

theorem negative_ofMagnitude (negative : Bool) (small : m < signBit) :
    (ofMagnitude negative m).negative = negative := by
  unfold signBit at small
  cases negative <;> simp only [ofMagnitude, Binary32.negative, signBit, UInt32.toNat_ofNat'] <;>
    simp <;> omega

theorem ofMagnitude_magnitude (x : Binary32) : ofMagnitude x.negative x.magnitude = x := by
  have bound := x.bits.toNat_lt
  obtain ⟨bits⟩ := x
  simp only [ofMagnitude, negative, magnitude, signBit, mk.injEq] at *
  apply UInt32.toNat_inj.1
  rw [UInt32.toNat_ofNat']
  by_cases below : bits.toNat < 2147483648
  · simp [Nat.not_le.2 below]
    omega
  · simp [Nat.not_lt.1 below]
    omega

end Magnitudes

def whole (x : Binary32) : Nat := units x.magnitude / unitsOfOne

theorem unitsOfOne_pos : 0 < unitsOfOne := Nat.pow_pos (by decide)

theorem isNaN_of_finite {x : Binary32} (finite : x.isFinite = true) : x.isNaN = false := by
  rw [isFinite, decide_eq_true_eq] at finite
  rw [isNaN, decide_eq_false_iff_not]
  omega

theorem toNat?_eq_some {x : Binary32} {n : Nat} :
    x.toNat? = some n ↔ x.isFinite = true ∧ 0 ≤ x.signedUnits ∧
      unitsOfOne ∣ units x.magnitude ∧ x.whole = n := by
  simp only [toNat?, whole, Option.ite_none_right_eq_some, Bool.and_eq_true, decide_eq_true_eq,
    beq_iff_eq, Option.some.injEq, Nat.dvd_iff_mod_eq_zero, and_assoc]

theorem signedUnits_of_positive {x : Binary32} (positive : x.negative = false) :
    x.signedUnits = units x.magnitude := by
  simp [signedUnits, positive]

theorem natAbs_signedUnits (x : Binary32) : x.signedUnits.natAbs = units x.magnitude := by
  unfold signedUnits
  split <;> simp

theorem whole_le_of_le {x y : Binary32} (from_zero : 0 ≤ x.signedUnits) (le : x.le y = true) :
    x.whole ≤ y.whole := by
  simp only [Binary32.le, Bool.and_eq_true, decide_eq_true_eq] at le
  have units : units x.magnitude ≤ units y.magnitude := by
    rw [← natAbs_signedUnits x, ← natAbs_signedUnits y]
    omega
  exact Nat.div_le_div_right units

theorem nearest_small (halves : Nat) (beyond : Bool) : nearest halves beyond < signBit :=
  Nat.lt_of_le_of_lt (nearest_le halves beyond) (by decide)

theorem negative_ofNat (n : Nat) : (ofNat n).negative = false :=
  negative_ofMagnitude false (nearest_small _ _)

theorem magnitude_ofNat (n : Nat) : (ofNat n).magnitude = nearest (2 * (n * unitsOfOne)) false :=
  magnitude_ofMagnitude false (nearest_small _ _)

/-- Counted in units, a number of up to 24 bits is a significand with zeros behind it. -/
theorem exists_units {n : Nat} (small : n ≤ 2 ^ 24) :
    ∃ m, m < infiniteMagnitude ∧ units m = n * unitsOfOne := by
  obtain ⟨shift, kept, form, bound, value⟩ : ∃ shift kept, Significand shift kept ∧
      shift ≤ 150 ∧ n * unitsOfOne = kept * 2 ^ shift := by
    simp only [unitsOfOne, Nat.pow_eq]
    by_cases zero : n = 0
    · exact ⟨0, 0, ⟨by decide, Or.inl rfl⟩, by decide, by rw [zero]; rfl⟩
    · by_cases top : n = 2 ^ 24
      · exact ⟨150, binade, ⟨by decide, Or.inr (Nat.le_refl _)⟩, by decide, by rw [top]; rfl⟩
      · have bits : n.log2 < 24 := (Nat.log2_lt zero).2 (by omega)
        have all : n.log2 + (23 - n.log2) = 23 := by omega
        refine ⟨n.log2 + 126, n * 2 ^ (23 - n.log2), ⟨?_, Or.inr ?_⟩, by omega, ?_⟩
        · calc n * 2 ^ (23 - n.log2) < 2 ^ (n.log2 + 1) * 2 ^ (23 - n.log2) :=
                Nat.mul_lt_mul_of_pos_right Nat.lt_log2_self (by positivity)
            _ = 2 * binade := by rw [← pow_add, Nat.add_right_comm, all]; rfl
        · calc binade = 2 ^ n.log2 * 2 ^ (23 - n.log2) := by rw [← pow_add, all]; rfl
            _ ≤ n * 2 ^ (23 - n.log2) := Nat.mul_le_mul_right _ (Nat.log2_self_le zero)
        · rw [Nat.mul_assoc, ← pow_add, show 23 - n.log2 + (n.log2 + 126) = 149 by omega]
  refine ⟨shift * binade + kept, ?_, ?_⟩
  · have high := form.high
    unfold binade at *
    unfold infiniteMagnitude
    omega
  · rw [units_eq (Nat.le_of_lt form.high) form.low, value]

theorem ofNat_exact {n : Nat} (small : n ≤ 2 ^ 24) :
    (ofNat n).magnitude < infiniteMagnitude ∧ units (ofNat n).magnitude = n * unitsOfOne := by
  obtain ⟨m, finite, value⟩ := exists_units small
  rw [magnitude_ofNat, ← value, nearest_units (Nat.le_of_lt finite)]
  exact ⟨finite, rfl⟩

theorem whole_ofNat {n : Nat} (small : n ≤ 2 ^ 24) : (ofNat n).whole = n := by
  rw [whole, (ofNat_exact small).2, Nat.mul_div_cancel _ unitsOfOne_pos]

theorem nearest_large {n : Nat} (large : 2 ^ 24 < n) (word : n < 2 ^ 64) :
    ∃ shift kept, 149 ≤ shift ∧ shift * binade + kept < infiniteMagnitude ∧
      binade ≤ kept ∧ kept ≤ 2 * binade ∧
      nearest (2 * (n * unitsOfOne)) false = shift * binade + kept := by
  have nonzero : n ≠ 0 := by omega
  have low : 24 ≤ n.log2 := (Nat.le_log2 nonzero).2 (Nat.le_of_lt large)
  have high : n.log2 < 64 := (Nat.log2_lt nonzero).2 word
  have half : 2 * (n * unitsOfOne) / 2 = n * 2 ^ 149 := Nat.mul_div_cancel_left _ (by decide)
  have form := significand_of_halves (2 * (n * unitsOfOne))
  obtain ⟨up, rounded⟩ := nearest_eq (2 * (n * unitsOfOne)) false
  rw [half, log2_shifted nonzero] at form rounded
  obtain ⟨top, bottom⟩ := form
  generalize 2 * (n * unitsOfOne) / 2 ^ (n.log2 + 149 - 23 + 1) = kept at *
  have carry : up.toNat ≤ 1 := Bool.toNat_le up
  have finite : (n.log2 + 149 - 23) * binade + (kept + up.toNat) < infiniteMagnitude := by
    unfold binade at *
    unfold infiniteMagnitude
    omega
  rw [Nat.min_eq_left (Nat.le_of_lt finite)] at rounded
  exact ⟨n.log2 + 149 - 23, kept + up.toNat, by omega, finite, by omega, by omega, rounded⟩

theorem toNat?_ofNat {n : Nat} (word : n < 2 ^ 64) : (ofNat n).toNat? = some (ofNat n).whole := by
  have positive : 0 ≤ (ofNat n).signedUnits := by
    rw [signedUnits_of_positive (negative_ofNat n)]
    exact Int.natCast_nonneg _
  rw [toNat?_eq_some, isFinite, decide_eq_true_eq]
  by_cases small : n ≤ 2 ^ 24
  · obtain ⟨finite, value⟩ := ofNat_exact small
    exact ⟨finite, positive, value ▸ Nat.dvd_mul_left _ _, rfl⟩
  · obtain ⟨shift, kept, whole, finite, low, high, rounded⟩ :=
      nearest_large (Nat.not_le.1 small) word
    rw [magnitude_ofNat, rounded]
    refine ⟨finite, positive, ?_, rfl⟩
    rw [units_eq high (Or.inr low)]
    exact Dvd.dvd.mul_left (pow_dvd_pow 2 whole) kept

end FloatMachine.Binary32
