import FloatMachine.Binary32.Shortest
import FloatMachine.Proofs.Grammar

/-! Numbers print as digits that read back as the same number. Printing searches a decimal that
rounds to the number, so only the move of the point has to be followed, from a power of ten above
10^-149 to the places of a literal. -/
namespace FloatMachine

namespace Binary32

theorem nearestRatio_scale {a b d : Nat} (positive : 0 < d) :
    nearestRatio (a * d) (b * d) = nearestRatio a b := by
  have rest : 2 * a * d % (b * d) = 2 * a % b * d := Nat.mul_mod_mul_right d (2 * a) b
  have nonzero : (2 * a * d % (b * d) != 0) = (2 * a % b != 0) := by
    rw [rest, Bool.eq_iff_iff, bne_iff_ne, bne_iff_ne, ne_eq, ne_eq, Nat.mul_eq_zero]
    omega
  rw [nearestRatio, nearestRatio, ← Nat.mul_assoc, nonzero, Nat.mul_div_mul_right _ _ positive]

theorem nearestRatio_congr {a b c d : Nat} (left : 0 < b) (right : 0 < d)
    (same : a * d = c * b) : nearestRatio a b = nearestRatio c d := by
  rw [← nearestRatio_scale right, same, Nat.mul_comm b d, nearestRatio_scale left]

theorem nearestRatio_one (a : Nat) : nearestRatio a 1 = nearest (2 * a) false := by
  rw [nearestRatio, Nat.div_one, Nat.mod_one]
  rfl

theorem nearestRatio_zero (b : Nat) : nearestRatio 0 b = 0 := by
  rw [nearestRatio, Nat.mul_zero, Nat.zero_div, Nat.zero_mod]
  rfl

section Shortest

variable {m : Nat}

theorem coarsest_cases {P : Nat → Nat → Prop} {search : Nat → Option Nat} {exact : Nat}
    (found : ∀ place n, search place = some n → P n place) (given : P exact 0) (place : Nat) :
    P (coarsest search exact place).1 (coarsest search exact place).2 := by
  induction place with
  | zero => exact given
  | succ place ih =>
    rw [coarsest]
    split
    · rename_i n here
      exact found place n here
    · exact ih

theorem neighbour?_reads {place n : Nat} (found : neighbour? m place = some n) :
    readsBack m (n * Nat.pow 10 place) = true := by
  unfold neighbour? at found
  dsimp only at found
  generalize exactDecimal m / Nat.pow 10 place = lower at found
  generalize Nat.pow 10 place = grid at found ⊢
  split at found
  · rename_i below
    split at found
    · rename_i above
      cases found
      split
      · exact below
      · exact above
    · cases found
      exact below
  · split at found
    · rename_i above
      cases found
      exact above
    · cases found

theorem exactDecimal_reads (finite : m < infiniteMagnitude) :
    readsBack m (exactDecimal m) = true := by
  have positive : 0 < Nat.pow 5 149 := Nat.pow_pos (by decide)
  unfold readsBack exactDecimal
  generalize Nat.pow 5 149 = grid at positive ⊢
  rw [nearestRatio_congr (d := 1) (c := units m) positive Nat.one_pos (Nat.mul_one _),
    nearestRatio_one, nearest_units (Nat.le_of_lt finite), beq_self_eq_true]

/-- The shortest decimal is read as the number that it was made for. -/
theorem shortest_reads (finite : m < infiniteMagnitude) :
    readsBack m ((shortest m).1 * Nat.pow 10 (shortest m).2) = true := by
  have all : readsBack m (exactDecimal m * Nat.pow 10 0) = true := by
    rw [show Nat.pow 10 0 = 1 from rfl, Nat.mul_one]
    exact exactDecimal_reads finite
  exact coarsest_cases (P := fun n place => readsBack m (n * Nat.pow 10 place) = true)
    (fun _ _ => neighbour?_reads) all _

/-- Digits are read as the same number wherever the point stands, if the places make up for it. -/
theorem ofDecimal_moved {digits scale : Nat} (negative : Bool) (zeros places : Nat)
    (moved : zeros + 149 = scale + places)
    (reads : readsBack m (digits * Nat.pow 10 scale) = true) :
    ofDecimal negative (digits * Nat.pow 10 zeros) places = ofMagnitude negative m := by
  have ten : ∀ e, Nat.pow 2 e * Nat.pow 5 e = Nat.pow 10 e := fun e => (Nat.mul_pow 2 5 e).symm
  have positive : ∀ b e, 0 < b → 0 < Nat.pow b e := fun _ _ => Nat.pow_pos
  have powers : Nat.pow 10 zeros * Nat.pow 10 149 = Nat.pow 10 scale * Nat.pow 10 places := by
    simp only [Nat.pow_eq, ← Nat.pow_add, moved]
  have same : digits * Nat.pow 10 zeros * unitsOfOne * Nat.pow 5 149 =
      digits * Nat.pow 10 scale * Nat.pow 10 places := by
    rw [unitsOfOne, Nat.mul_assoc, ten, Nat.mul_assoc, powers, ← Nat.mul_assoc]
  rw [ofDecimal, nearestRatio_congr (positive 10 places (by decide)) (positive 5 149 (by decide))
    same, beq_iff_eq.1 reads]

end Shortest

end Binary32

namespace Assembly

open Binary32

section Digits

theorem Digits.toDigits (n : Nat) : Digits (Nat.toDigits 10 n) where
  nonempty := Nat.toDigits_ne_nil
  digits := fun _ member => Nat.isDigit_of_mem_toDigits (by decide) (by decide) member

theorem Digits.value_toDigits (n : Nat) : Digits.value (Nat.toDigits 10 n) = n :=
  Nat.ofDigitChars_toDigits (by decide) (by decide)

theorem Digits.value_append (s t : List Char) :
    Digits.value (s ++ t) = Digits.value s * 10 ^ t.length + Digits.value t := by
  rw [value, Nat.ofDigitChars_append, Nat.ofDigitChars_eq_ofDigitChars_zero, Nat.mul_comm]
  rfl

theorem Digits.value_zeros (n : Nat) : Digits.value (zeros n) = 0 := by
  rw [value, zeros, Nat.ofDigitChars_replicate_zero, Nat.mul_zero]

theorem Digits.value_zeros_append (n : Nat) (s : List Char) :
    Digits.value (zeros n ++ s) = Digits.value s := by
  rw [value_append, value_zeros, Nat.zero_mul, Nat.zero_add]

theorem Digits.part {s t : List Char} (all : Digits s) (nonempty : t ≠ [])
    (inside : ∀ c ∈ t, c ∈ s) : Digits t where
  nonempty := nonempty
  digits := fun c member => all.digits c (inside c member)

theorem Digits.append {s t : List Char} (first : Digits s) (rest : ∀ c ∈ t, c.isDigit = true) :
    Digits (s ++ t) where
  nonempty := by simp [first.nonempty]
  digits := by
    intro c member
    rcases List.mem_append.1 member with before | after
    · exact first.digits c before
    · exact rest c after

theorem Digits.prepend {s t : List Char} (first : ∀ c ∈ s, c.isDigit = true) (rest : Digits t) :
    Digits (s ++ t) where
  nonempty := by simp [rest.nonempty]
  digits := by
    intro c member
    rcases List.mem_append.1 member with before | after
    · exact first c before
    · exact rest.digits c after

theorem digits_zeros (n : Nat) : ∀ c ∈ zeros n, c.isDigit = true := by
  intro c member
  rw [List.eq_of_mem_replicate member]
  rfl

theorem exists_zeros (s : List Char) :
    ∃ k, s = (s.reverse.dropWhile (· == '0')).reverse ++ zeros k := by
  have whole := List.takeWhile_append_dropWhile (p := (· == '0')) (l := s.reverse)
  have zeros : s.reverse.takeWhile (· == '0') =
      List.replicate (s.reverse.takeWhile (· == '0')).length '0' := by
    refine List.eq_replicate_iff.2 ⟨rfl, fun c member => ?_⟩
    simpa using List.all_eq_true.1 List.all_takeWhile c member
  refine ⟨(s.reverse.takeWhile (· == '0')).length, ?_⟩
  have turned := congrArg List.reverse whole
  rw [List.reverse_append, List.reverse_reverse] at turned
  rw [zeros, List.reverse_replicate] at turned
  exact turned.symm

end Digits

section Literals

variable {sign digits : List Char} {negative : Bool} {m : Nat}

/-- Plain digits of a number are a literal for it; `scale` is the power of ten of the last digit
above 10^-149. -/
theorem literal_positional {leading : Int} (scale : Nat) (form : Sign sign negative)
    (printed : Digits digits) (finite : m < infiniteMagnitude)
    (place : leading + 150 = scale + digits.length)
    (reads : readsBack m (Digits.value digits * Nat.pow 10 scale) = true) :
    Literal (sign ++ positional digits leading false) (ofMagnitude negative m) := by
  have number : (ofMagnitude negative m).isFinite = true := by
    rw [isFinite, magnitude_ofMagnitude negative (Nat.lt_trans finite (by decide)),
      decide_eq_true finite]
  have unmoved : ∀ places, 149 = scale + places →
      ofDecimal negative (Digits.value digits) places = ofMagnitude negative m := by
    intro places moved
    have read := ofDecimal_moved negative 0 places (by omega) reads
    rwa [show Nat.pow 10 0 = 1 from rfl, Nat.mul_one] at read
  unfold positional
  split
  · -- all digits stand behind the point, after zeros
    have zero : Digits ['0'] := ⟨by simp, by simp⟩
    have places : Digits (zeros (-leading - 1).toNat ++ digits) :=
      printed.prepend (digits_zeros _)
    have value : Digits.value (['0'] ++ (zeros (-leading - 1).toNat ++ digits)) =
        Digits.value digits := by
      have one : ['0'] = zeros 1 := rfl
      rw [one, Digits.value_zeros_append, Digits.value_zeros_append]
    refine .fraction form zero places (ofDecimal_eq_iff.1 ⟨?_, number⟩)
    rw [value]
    refine unmoved _ ?_
    rw [List.length_append, zeros, List.length_replicate]
    omega
  · dsimp only
    split
    · -- all digits stand before the point, with zeros after them
      rw [if_neg Bool.false_ne_true, List.append_nil]
      refine .whole form (printed.append (digits_zeros _)) (ofDecimal_eq_iff.1 ⟨?_, number⟩)
      rw [Digits.value_append, Digits.value_zeros, Nat.add_zero, zeros, List.length_replicate]
      exact ofDecimal_moved negative _ 0 (by omega) reads
    · -- the point stands between the digits
      have before : Digits (digits.take (leading.toNat + 1)) :=
        printed.part (by simp [printed.nonempty]) fun _ => List.mem_of_mem_take
      have after : Digits (digits.drop (leading.toNat + 1)) :=
        printed.part (by simp; omega) fun _ => List.mem_of_mem_drop
      refine .fraction form before after (ofDecimal_eq_iff.1 ⟨?_, number⟩)
      rw [List.take_append_drop]
      refine unmoved _ ?_
      rw [List.length_drop]
      omega

theorem literal_scientific (form : Sign sign negative) (finite : m < infiniteMagnitude)
    (nonzero : m ≠ 0) : Literal
      (sign ++ positional (scientific m).1 (scientific m).2 false) (ofMagnitude negative m) := by
  unfold scientific
  dsimp only
  have reads := shortest_reads finite
  generalize (shortest m).2 = place at reads ⊢
  generalize (shortest m).1 = n at reads ⊢
  obtain ⟨k, whole⟩ := exists_zeros (Nat.toDigits 10 n)
  have all := Digits.toDigits n
  have value := Digits.value_toDigits n
  generalize Nat.toDigits 10 n = written at *
  generalize (written.reverse.dropWhile (· == '0')).reverse = kept at *
  subst whole
  rw [Digits.value_append, Digits.value_zeros, Nat.add_zero, zeros, List.length_replicate] at value
  have printed : Digits kept := by
    refine all.part ?_ fun c member => List.mem_append_left _ member
    rintro rfl
    -- no digits would stand for zero, which is read as the number zero
    have zero : n = 0 := by rw [← value, show Digits.value [] = 0 from rfl, Nat.zero_mul]
    rw [zero, Nat.zero_mul, readsBack, nearestRatio_zero, beq_iff_eq] at reads
    exact nonzero reads.symm
  apply literal_positional (k + place) form printed finite
  · rw [List.length_append, zeros, List.length_replicate]
    omega
  · rw [show Nat.pow 10 (k + place) = 10 ^ k * Nat.pow 10 place from Nat.pow_add 10 k place,
      ← Nat.mul_assoc, value]
    exact reads

theorem literal_toDecimal {v : Binary32} (finite : v.isFinite = true) :
    Literal v.toDecimal.toList v := by
  have small : v.magnitude < infiniteMagnitude := by simpa [isFinite] using finite
  have number : v.isNaN = false := decide_eq_false (Nat.not_lt.2 (Nat.le_of_lt small))
  have bounded : v.isInfinite = false := beq_false_of_ne (Nat.ne_of_lt small)
  have form : Sign v.sign v.negative := by
    unfold Binary32.sign
    cases v.negative with
    | true => exact .minus
    | false => exact .none
  unfold toDecimal
  rw [number, bounded, if_neg Bool.false_ne_true, if_neg Bool.false_ne_true]
  split
  · rename_i zero
    have none : v.magnitude = 0 := beq_iff_eq.1 zero
    rw [String.toList_ofList]
    refine .whole form ⟨by simp, by simp⟩ (ofDecimal_eq_iff.1 ⟨?_, finite⟩)
    rw [ofDecimal, show Digits.value ['0'] = 0 from rfl, Nat.zero_mul, nearestRatio_zero, ← none,
      ofMagnitude_magnitude]
  · rename_i nonzero
    have read := literal_scientific form small (by simpa [isZero] using nonzero)
    generalize scientific v.magnitude = parts at read ⊢
    rw [ofMagnitude_magnitude] at read
    simpa using read

end Literals

end Assembly
end FloatMachine
