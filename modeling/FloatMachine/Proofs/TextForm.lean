import Mathlib.Data.List.TakeWhile
import FloatMachine.Proofs.ProgramImage

/-! The text form of a program: base64 reads back what it writes, and what it writes is plain
text without blanks, from which trimming takes nothing. -/
namespace FloatMachine

namespace Base64

theorem symbol_ne_pad : ∀ n < 64, symbol n ≠ pad := by decide

theorem length_encode (b : Bytes) : (encode b).length % 4 = 0 := by
  fun_induction encode b with
  | case1 => simp
  | case2 => simp
  | case3 => simp
  | case4 a b c rest ih => simp only [List.length_cons]; omega

theorem joined_encoded (a b c : UInt8) :
    joined (a.toNat / 4) (a.toNat % 4 * 16 + b.toNat / 16) (b.toNat % 16 * 4 + c.toNat / 64)
      (c.toNat % 64) = [a, b, c] := by
  have ha := a.toNat_lt
  have hb := b.toNat_lt
  have hc := c.toNat_lt
  have first : a.toNat / 4 * 4 + (a.toNat % 4 * 16 + b.toNat / 16) / 16 = a.toNat := by omega
  have second : (a.toNat % 4 * 16 + b.toNat / 16) % 16 * 16 +
      (b.toNat % 16 * 4 + c.toNat / 64) / 4 = b.toNat := by omega
  have third : (b.toNat % 16 * 4 + c.toNat / 64) % 4 * 64 + c.toNat % 64 = c.toNat := by omega
  simp only [joined, first, second, third, UInt8.ofNat_toNat]

theorem sextetAt_symbol {n : Nat} (small : n < 64) (offset : Nat) :
    sextetAt (symbol n) offset = .ok n := by
  simp [sextetAt, sextet?_symbol n small]

theorem scanLast_symbol {n : Nat} (small : n < 64) (start : Nat) (rest : Bytes)
    (symbols : List Nat) :
    scanLast start (symbol n :: rest) symbols 0 = scanLast start rest (symbols ++ [n]) 0 := by
  simp only [scanLast, symbol_ne_pad n small, sextetAt_symbol small]
  rfl

/- The last group holds one, two or three bytes; what its last symbol has to spare is zero. -/
theorem decodeLast_one (a : UInt8) (start : Nat) :
    decodeLast start [symbol (a.toNat / 4), symbol (a.toNat % 4 * 16), pad, pad] = .ok [a] := by
  have bound := a.toNat_lt
  have scanned : scanLast start [symbol (a.toNat / 4), symbol (a.toNat % 4 * 16), pad, pad] [] 0 =
      .ok ([a.toNat / 4, a.toNat % 4 * 16], 2) := by
    rw [scanLast_symbol (by omega), scanLast_symbol (by omega)]
    simp [scanLast]
  have spare : a.toNat % 4 * 16 % 16 = 0 := by omega
  have joined := joined_encoded a 0 0
  simp only [decodeLast, scanned]
  simp [bind, Except.bind, pure, Except.pure, spare]
  simpa using congrArg (List.take 1) joined

theorem decodeLast_two (a b : UInt8) (start : Nat) :
    decodeLast start [symbol (a.toNat / 4), symbol (a.toNat % 4 * 16 + b.toNat / 16),
      symbol (b.toNat % 16 * 4), pad] = .ok [a, b] := by
  have bounds := And.intro a.toNat_lt b.toNat_lt
  have scanned : scanLast start [symbol (a.toNat / 4), symbol (a.toNat % 4 * 16 + b.toNat / 16),
      symbol (b.toNat % 16 * 4), pad] [] 0 =
      .ok ([a.toNat / 4, a.toNat % 4 * 16 + b.toNat / 16, b.toNat % 16 * 4], 1) := by
    rw [scanLast_symbol (by omega), scanLast_symbol (by omega), scanLast_symbol (by omega)]
    simp [scanLast]
  have spare : b.toNat % 16 * 4 % 4 = 0 := by omega
  have joined := joined_encoded a b 0
  simp only [decodeLast, scanned]
  simp [bind, Except.bind, pure, Except.pure, spare]
  simpa using congrArg (List.take 2) joined

theorem decodeLast_three (a b c : UInt8) (start : Nat) :
    decodeLast start [symbol (a.toNat / 4), symbol (a.toNat % 4 * 16 + b.toNat / 16),
      symbol (b.toNat % 16 * 4 + c.toNat / 64), symbol (c.toNat % 64)] = .ok [a, b, c] := by
  have bounds := And.intro a.toNat_lt (And.intro b.toNat_lt c.toNat_lt)
  have scanned : scanLast start [symbol (a.toNat / 4), symbol (a.toNat % 4 * 16 + b.toNat / 16),
      symbol (b.toNat % 16 * 4 + c.toNat / 64), symbol (c.toNat % 64)] [] 0 =
      .ok ([a.toNat / 4, a.toNat % 4 * 16 + b.toNat / 16, b.toNat % 16 * 4 + c.toNat / 64,
        c.toNat % 64], 0) := by
    rw [scanLast_symbol (by omega), scanLast_symbol (by omega), scanLast_symbol (by omega),
      scanLast_symbol (by omega)]
    simp [scanLast]
  simp only [decodeLast, scanned]
  simp [bind, Except.bind, pure, Except.pure, joined_encoded]

theorem decodeGroups_encode (b : Bytes) (start : Nat) : decodeGroups start (encode b) = .ok b := by
  fun_induction encode b generalizing start with
  | case1 => rfl
  | case2 a => exact decodeLast_one a start
  | case3 a b => exact decodeLast_two a b start
  | case4 a b c rest ih =>
    have bounds := And.intro a.toNat_lt (And.intro b.toNat_lt c.toNat_lt)
    -- a full group is the last one just when no byte follows it
    rcases more : encode rest with _ | ⟨e, tail⟩
    · have nothing : rest = [] := by
        have read := ih 0
        rw [more] at read
        exact (Except.ok.inj read).symm
      subst nothing
      exact decodeLast_three a b c start
    · have read := ih (start + 4)
      rw [more] at read
      rw [decodeGroups, sextetAt_symbol (by omega), sextetAt_symbol (by omega),
        sextetAt_symbol (by omega), sextetAt_symbol (by omega), read]
      simp [bind, Except.bind, pure, Except.pure, joined_encoded]

theorem decode_encode (b : Bytes) : decode (encode b) = .ok b := by
  have groups := decodeGroups_encode b 0
  unfold decode
  split
  · have whole : ¬ (encode b).length % 4 = 1 := by
      have := length_encode b
      omega
    simp [whole, groups]
  · rename_i none
    have nothing : encode b = [] := by simpa using none
    rw [nothing] at groups
    exact groups

/-- Written text holds symbols and pads alone, so each of its bytes is a character that is not
blank. -/
theorem encode_plain (b : Bytes) :
    ∀ byte ∈ encode b, byte.toNat < 128 ∧ Text.isBlank (Char.ofNat byte.toNat) = false := by
  have plain : ∀ n < 64, (symbol n).toNat < 128 ∧
      Text.isBlank (Char.ofNat (symbol n).toNat) = false := by decide
  have padding : pad.toNat < 128 ∧ Text.isBlank (Char.ofNat pad.toNat) = false := by decide
  fun_induction encode b with
  | case1 => simp
  | case2 a =>
    have bound := a.toNat_lt
    simp only [List.forall_mem_cons]
    exact ⟨plain _ (by omega), plain _ (by omega), padding, padding, by simp⟩
  | case3 a b =>
    have bounds := And.intro a.toNat_lt b.toNat_lt
    simp only [List.forall_mem_cons]
    exact ⟨plain _ (by omega), plain _ (by omega), plain _ (by omega), padding, by simp⟩
  | case4 a b c rest ih =>
    have bounds := And.intro a.toNat_lt (And.intro b.toNat_lt c.toNat_lt)
    simp only [List.forall_mem_cons]
    exact ⟨plain _ (by omega), plain _ (by omega), plain _ (by omega), plain _ (by omega), ih⟩

end Base64

theorem utf8_of_ascii {b : Bytes} (ascii : ∀ byte ∈ b, byte.toNat < 128) :
    (String.ofList (b.map fun byte => Char.ofNat byte.toNat)).toUTF8.data.toList = b := by
  have single : ∀ n < 128, String.utf8EncodeChar (Char.ofNat n) = [UInt8.ofNat n] := by decide
  simp only [String.toUTF8_eq_toByteArray, String.toByteArray_ofList, List.utf8Encode]
  rw [List.data_toByteArray, List.toList_toArray]
  induction b with
  | nil => rfl
  | cons byte b ih =>
    obtain ⟨low, rest⟩ := List.forall_mem_cons.1 ascii
    simp [single byte.toNat low, ih rest]

namespace Text

/-- A text, and what is left of it without the blanks at its ends. -/
def Trims (t s : List Char) : Prop :=
  ∃ before after, t = before ++ (s ++ after) ∧ (∀ c ∈ before, isBlank c = true) ∧
    (∀ c ∈ after, isBlank c = true) ∧ (∀ c ∈ s.head?, isBlank c = false) ∧
    ∀ c ∈ s.getLast?, isBlank c = false

theorem head?_dropWhile {p : Char → Bool} {s : List Char} {c : Char}
    (first : c ∈ (s.dropWhile p).head?) : p c = false := by
  have kept := List.head?_dropWhile_not p s
  rwa [Option.mem_def.1 first] at kept

theorem trims_trim (t : List Char) : Trims t (trim t) := by
  have front : t.takeWhile isBlank ++ trimStart t = t := List.takeWhile_append_dropWhile
  have opens : ∀ c ∈ (trimStart t).head?, isBlank c = false := fun c => head?_dropWhile
  unfold trim
  generalize trimStart t = u at front opens
  have back : trimEnd u ++ (u.reverse.takeWhile isBlank).reverse = u := by
    rw [trimEnd, ← List.reverse_append, List.takeWhile_append_dropWhile, List.reverse_reverse]
  refine ⟨t.takeWhile isBlank, (u.reverse.takeWhile isBlank).reverse, ?_,
    List.all_eq_true.1 List.all_takeWhile, ?_, ?_, ?_⟩
  · rw [back, front]
  · intro c member
    exact List.all_eq_true.1 List.all_takeWhile c (List.mem_reverse.1 member)
  · intro c first
    apply opens
    rw [← back, List.head?_append, Option.mem_def.1 first]
    rfl
  · intro c last
    rw [trimEnd, List.getLast?_reverse] at last
    exact head?_dropWhile last

theorem dropWhile_front {p : Char → Bool} {front rest : List Char}
    (dropped : ∀ c ∈ front, p c = true) (opens : ∀ c ∈ rest.head?, p c = false) :
    (front ++ rest).dropWhile p = rest := by
  induction front with
  | nil =>
    cases rest with
    | nil => rfl
    | cons c rest =>
      apply List.dropWhile_cons_of_neg
      rw [opens c rfl]
      exact Bool.false_ne_true
  | cons c front ih =>
    obtain ⟨first, others⟩ := List.forall_mem_cons.1 dropped
    rw [List.cons_append, List.dropWhile_cons_of_pos first]
    exact ih others

theorem trim_eq_iff {t s : List Char} : trim t = s ↔ Trims t s := by
  constructor
  · rintro rfl
    exact trims_trim t
  · rintro ⟨before, after, rfl, front, back, opens, closes⟩
    by_cases empty : s = []
    · have blank : ∀ c ∈ before ++ after, isBlank c = true :=
        List.forall_mem_append.2 ⟨front, back⟩
      have nothing : (before ++ after).dropWhile isBlank = [] := List.dropWhile_eq_nil_iff.2 blank
      rw [empty, List.nil_append, trim, trimStart, nothing]
      rfl
    · have start : trimStart (before ++ (s ++ after)) = s ++ after := by
        apply dropWhile_front front
        rwa [List.head?_append_of_ne_nil s empty]
      have ends : ∀ c ∈ s.reverse.head?, isBlank c = false := by rwa [List.head?_reverse]
      have reversed : ∀ c ∈ after.reverse, isBlank c = true := by simpa using back
      rw [trim, start, trimEnd, List.reverse_append, dropWhile_front reversed ends,
        List.reverse_reverse]

theorem trim_of_plain {s : List Char} (plain : ∀ c ∈ s, isBlank c = false) : trim s = s := by
  apply trim_eq_iff.2
  refine ⟨[], [], by simp, by simp, by simp, ?_, ?_⟩
  · intro c first
    exact plain c (List.mem_of_mem_head? first)
  · intro c last
    exact plain c (List.mem_of_getLast? last)

end Text

namespace Program

theorem toText_utf8 (p : Program) : p.toText.toUTF8.data.toList = Base64.encode p.toBytes :=
  utf8_of_ascii fun byte member => (Base64.encode_plain p.toBytes byte member).1

theorem toText_plain (p : Program) : ∀ c ∈ p.toText.toList, Text.isBlank c = false := by
  simp only [toText, String.toList_ofList, List.forall_mem_map]
  intro byte member
  exact (Base64.encode_plain p.toBytes byte member).2

theorem fromText_toText (p : Program) : fromText p.toText = fromBytes p.toBytes := by
  have trimmed := Text.trim_of_plain p.toText_plain
  simp only [fromText, trimmed, String.ofList_toList, toText_utf8, Base64.decode_encode]

end Program
end FloatMachine
