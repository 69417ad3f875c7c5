import FloatMachine.Proofs.Rounding
import Mathlib.Data.Nat.Dist

/-! Rounding finds the nearest magnitude. A value that is cut off at its binade lies between two
neighbours, and magnitudes are ordered as their values, so no others compete; what was cut off and
the parity decide between the two. -/
namespace FloatMachine.Binary32

/-- How far a magnitude is from `numerator / denominator` units, in parts of a unit. -/
def distance (numerator denominator m : Nat) : Nat :=
  Nat.dist (units m * denominator) numerator

/-- The magnitude that `numerator / denominator` units are rounded to: no other is nearer, and if
another is as near, this is the even one. Infinity takes part with the value one binade above the
greatest finite number. -/
structure RoundsTo (numerator denominator m : Nat) : Prop where
  bounded : m ≤ infiniteMagnitude
  nearest : ∀ n ≤ infiniteMagnitude, n ≠ m →
    distance numerator denominator m < distance numerator denominator n ∨
      distance numerator denominator m = distance numerator denominator n ∧ m % 2 = 0

/-- The finite number that a decimal, `digits / 10 ^ places` with a sign, is rounded to. -/
structure Decimal (negative : Bool) (digits places : Nat) (v : Binary32) : Prop where
  sign : v.negative = negative
  finite : v.isFinite = true
  rounds : RoundsTo (digits * unitsOfOne) (10 ^ places) v.magnitude

theorem units_strictMono : StrictMono units := by
  refine strictMono_nat_of_lt_succ fun m => ?_
  obtain ⟨shift, kept, form, rfl⟩ := significand_of_magnitude m
  have low : shift = 0 ∨ binade ≤ kept + 1 := form.low.imp_right Nat.le_succ_of_le
  rw [units_eq (Nat.le_of_lt form.high) form.low, Nat.add_assoc, units_eq form.high low]
  exact Nat.mul_lt_mul_of_pos_right (Nat.lt_succ_self kept) (by positivity)

section Neighbours

variable {a b l : Nat}

theorem scaled_lt (positive : 0 < b) {m n : Nat} (lt : m < n) : units m * b < units n * b :=
  Nat.mul_lt_mul_of_pos_right (units_strictMono lt) positive

theorem roundsTo_lower (positive : 0 < b) (finite : l ≤ infiniteMagnitude)
    (lower : units l * b ≤ a) (near : 2 * a < units l * b + units (l + 1) * b ∨
      2 * a = units l * b + units (l + 1) * b ∧ l % 2 = 0) : RoundsTo a b l := by
  refine ⟨finite, fun n _ other => ?_⟩
  unfold distance Nat.dist
  rcases Nat.lt_or_gt_of_ne other with below | above
  · have := scaled_lt positive below
    omega
  · obtain rfl | beyond : n = l + 1 ∨ l + 1 < n := by omega
    · omega
    · have := scaled_lt positive beyond
      omega

theorem roundsTo_upper (positive : 0 < b) (finite : l + 1 ≤ infiniteMagnitude)
    (upper : a < units (l + 1) * b) (near : units l * b + units (l + 1) * b < 2 * a ∨
      2 * a = units l * b + units (l + 1) * b ∧ l % 2 = 1) : RoundsTo a b (l + 1) := by
  refine ⟨finite, fun n _ other => ?_⟩
  unfold distance Nat.dist
  rcases Nat.lt_or_gt_of_ne other with below | above
  · obtain rfl | beyond : n = l ∨ n < l := by omega
    · omega
    · have := scaled_lt positive beyond
      omega
  · have := scaled_lt positive above
    omega

theorem roundsTo_infinite (positive : 0 < b) (large : units infiniteMagnitude * b ≤ a) :
    RoundsTo a b infiniteMagnitude := by
  refine ⟨Nat.le_refl _, fun n bounded other => ?_⟩
  unfold distance Nat.dist
  have := scaled_lt positive (Nat.lt_of_le_of_ne bounded other)
  omega

/-- A ratio is rounded to one magnitude alone: between two even ones lies another that is nearer. -/
theorem RoundsTo.unique {m n : Nat} (positive : 0 < b) (first : RoundsTo a b m)
    (second : RoundsTo a b n) : m = n := by
  by_contra other
  wlog below : m < n generalizing m n
  · exact this second first (Ne.symm other) (by omega)
  have tie : distance a b m = distance a b n ∧ m % 2 = 0 ∧ n % 2 = 0 := by
    have left := first.nearest n second.bounded (Ne.symm other)
    have right := second.nearest m first.bounded other
    omega
  have between : m + 1 < n := by omega
  have near := first.nearest (m + 1) (by have := second.bounded; omega) (by omega)
  have lower := scaled_lt positive (Nat.lt_add_one m)
  have upper := scaled_lt positive between
  unfold distance Nat.dist at *
  omega

theorem RoundsTo.le {m k : Nat} (positive : 0 < b) (rounds : RoundsTo a b m)
    (finite : k ≤ infiniteMagnitude) (below : units k * b ≤ a) : k ≤ m := by
  by_contra less
  have lower := scaled_lt positive (Nat.not_le.1 less)
  have near := rounds.nearest k finite (by omega)
  unfold distance Nat.dist at near
  omega

end Neighbours

/-- Of two neighbours, what is cut off of the lower one decides, against half of the last place. -/
theorem roundsTo_cut {a b l half rest r : Nat} (cut : r < b)
    (value : 2 * a = 2 * (units l * b) + (rest * b + r)) (inside : rest < 2 * half)
    (step : units (l + 1) * b = units l * b + half * b) :
    RoundsTo a b (min (l + if decide (half < rest) || (rest == half && (r != 0 || l % 2 == 1))
      then 1 else 0) infiniteMagnitude) := by
  have positive : 0 < b := Nat.zero_lt_of_lt cut
  have upper : ∀ {bound : Nat}, rest < bound → rest * b + r < bound * b := by
    intro bound less
    calc rest * b + r < (rest + 1) * b := by rw [Nat.add_mul]; omega
      _ ≤ bound * b := Nat.mul_le_mul_right b less
  have above : rest * b + r < 2 * (half * b) := Nat.mul_assoc 2 half b ▸ upper inside
  by_cases finite : l < infiniteMagnitude
  · split
    · rename_i up
      rw [Nat.min_eq_left finite]
      refine roundsTo_upper positive finite (by omega) ?_
      simp only [Bool.or_eq_true, Bool.and_eq_true, decide_eq_true_eq, beq_iff_eq, bne_iff_ne] at up
      rcases up with more | ⟨rfl, some | odd⟩
      · have := Nat.mul_lt_mul_of_pos_right more positive
        omega
      · omega
      · omega
    · rename_i down
      rw [Nat.add_zero, Nat.min_eq_left (Nat.le_of_lt finite)]
      refine roundsTo_lower positive (Nat.le_of_lt finite) (by omega) ?_
      simp only [Bool.or_eq_true, Bool.and_eq_true, decide_eq_true_eq, beq_iff_eq, bne_iff_ne,
        not_or, not_and, not_not] at down
      rcases Nat.eq_or_lt_of_le (Nat.not_lt.1 down.1) with rfl | less
      · have := down.2 rfl
        omega
      · have := upper less
        omega
  · rw [Nat.min_eq_right (by omega)]
    have large := Nat.mul_le_mul_right b (units_strictMono.monotone (Nat.not_lt.1 finite))
    exact roundsTo_infinite positive (by omega)

/-- Rounding is to the nearest magnitude, ties to even. -/
theorem nearestRatio_roundsTo (a : Nat) {b : Nat} (positive : 0 < b) :
    RoundsTo a b (nearestRatio a b) := by
  have halves := Nat.div_add_mod' (2 * a) b
  have cut := Nat.mod_lt (2 * a) positive
  obtain ⟨high, low⟩ := significand_of_halves (2 * a / b)
  unfold nearestRatio nearest
  simp only [Nat.pow_eq]
  generalize 2 * a / b = h at *
  generalize 2 * a % b = r at *
  generalize (h / 2).log2 - 23 = shift at *
  have parts := Nat.div_add_mod' h (2 ^ (shift + 1))
  have below : h % 2 ^ (shift + 1) < 2 ^ (shift + 1) := Nat.mod_lt _ (by positivity)
  generalize h / 2 ^ (shift + 1) = kept at *
  generalize h % 2 ^ (shift + 1) = rest at *
  have parity : (shift * binade + kept) % 2 = kept % 2 := by
    unfold binade
    omega
  have next : units (shift * binade + kept + 1) = (kept + 1) * 2 ^ shift := by
    rw [Nat.add_assoc, units_eq high (low.imp_right Nat.le_succ_of_le)]
  rw [← parity]
  apply roundsTo_cut cut
  · rw [units_eq (Nat.le_of_lt high) low, ← halves, ← parts]
    ring
  · rwa [pow_succ, Nat.mul_comm] at below
  · rw [next, units_eq (Nat.le_of_lt high) low]
    ring

theorem nearestRatio_eq_iff {a b m : Nat} (positive : 0 < b) :
    nearestRatio a b = m ↔ RoundsTo a b m := by
  constructor
  · rintro rfl
    exact nearestRatio_roundsTo a positive
  · exact (nearestRatio_roundsTo a positive).unique positive

/-- Reading decimals rounds them to the nearest number, ties to even. -/
theorem ofDecimal_eq_iff {negative : Bool} {digits places : Nat} {v : Binary32} :
    ofDecimal negative digits places = v ∧ v.isFinite = true ↔
      Decimal negative digits places v := by
  have positive : 0 < 10 ^ places := by positivity
  constructor
  · rintro ⟨rfl, finite⟩
    have small : nearestRatio (digits * unitsOfOne) (10 ^ places) < signBit := nearest_small _ _
    refine ⟨negative_ofMagnitude negative small, finite, ?_⟩
    rw [ofDecimal, Nat.pow_eq, magnitude_ofMagnitude negative small]
    exact nearestRatio_roundsTo _ positive
  · rintro ⟨rfl, finite, rounds⟩
    refine ⟨?_, finite⟩
    rw [ofDecimal, Nat.pow_eq, (nearestRatio_eq_iff positive).2 rounds, ofMagnitude_magnitude]

end FloatMachine.Binary32
