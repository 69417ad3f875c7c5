import FloatMachine.Proofs.Columns

/-! Tokens and code as slices of a line. A slice lies between two character boundaries of the text;
the tokens are just the slices without separators that cannot be made longer, and the code of a line
is the longest part from its start that has no comment in it. -/
namespace FloatMachine

namespace Text

section Boundaries

variable {s a b c : String} {p q : s.Pos}

theorem exists_splits {before after : List Char} (whole : s.toList = before ++ after) :
    ∃ p : s.Pos, p.Splits (.ofList before) (.ofList after) := by
  have cut : s = String.ofList before ++ String.ofList after := by
    rw [← String.ofList_append, ← whole, String.ofList_toList]
  exact ⟨⟨_, String.Pos.Raw.isValid_iff_exists_append.2 ⟨_, _, cut, rfl⟩⟩, cut, rfl⟩

theorem extract_between (first : p.Splits a (b ++ c)) (last : q.Splits (a ++ b) c) :
    s.extract p q = b := by
  have from_a : p.offset.byteIdx = a.utf8ByteSize :=
    congrArg String.Pos.Raw.byteIdx first.offset_eq_rawEndPos
  have to_b : q.offset.byteIdx = a.utf8ByteSize + b.utf8ByteSize := by
    rw [last.offset_eq_rawEndPos]
    exact String.utf8ByteSize_append
  have whole : s.toByteArray = a.toByteArray ++ (b.toByteArray ++ c.toByteArray) := by
    rw [first.eq_append, String.toByteArray_append, String.toByteArray_append]
  apply String.toByteArray_inj.1
  calc (s.extract p q).toByteArray
      = (a.toByteArray ++ (b.toByteArray ++ c.toByteArray)).extract (a.utf8ByteSize + 0)
          (a.utf8ByteSize + b.utf8ByteSize) := by
        rw [String.toByteArray_extract, whole, from_a, to_b, Nat.add_zero]
    _ = (b.toByteArray ++ c.toByteArray).extract 0 b.utf8ByteSize :=
        ByteArray.extract_append_size_add
    _ = b.toByteArray := ByteArray.extract_append_eq_left rfl

theorem extract_start (splits : p.Splits a b) : s.extract s.startPos p = a := by
  have start : s.startPos.Splits "" (a ++ b) := by
    rw [← splits.eq_append]
    exact s.splits_startPos
  exact extract_between start (String.empty_append.symm ▸ splits)

theorem extract_end (splits : p.Splits a b) : s.extract p s.endPos = b := by
  have finish : s.endPos.Splits (a ++ b) "" := by
    rw [← splits.eq_append]
    exact s.splits_endPos
  exact extract_between (String.append_empty.symm ▸ splits) finish

theorem le_of_extract (filled : s.extract p q ≠ "") : p ≤ q := by
  by_contra wrong
  apply filled
  apply String.toByteArray_inj.1
  have less : q.offset.byteIdx ≤ p.offset.byteIdx := Nat.le_of_lt (Nat.not_le.1 wrong)
  rw [String.toByteArray_extract]
  exact ByteArray.extract_eq_empty_iff.2 (Nat.le_trans (Nat.min_le_left _ _) less)

theorem extract_append (filled : s.extract p q ≠ "") :
    s = s.extract s.startPos p ++ (s.extract p q ++ s.extract q s.endPos) := by
  obtain ⟨between, longer, shorter⟩ :=
    (p.splits.le_iff_exists_eq_append q.splits).1 (le_of_extract filled)
  have first : p.Splits (s.sliceTo p).copy (between ++ (s.sliceFrom q).copy) :=
    shorter ▸ p.splits
  have last : q.Splits ((s.sliceTo p).copy ++ between) (s.sliceFrom q).copy := longer ▸ q.splits
  rw [extract_start first, extract_between first last, extract_end last]
  exact first.eq_append

end Boundaries

end Text

namespace Assembly

/-- The token is what stands between two character boundaries of the text: a maximal run without
separators, at the column that counts the characters before it. -/
structure Fills (code : String) (first last : code.Pos) (t : Token) : Prop where
  text : code.extract first last = String.ofList t.text
  run : Delimited (code.extract code.startPos first).toList t.text
    (code.extract last code.endPos).toList
  column : t.column = (code.extract code.startPos first).length + 1

section Tokens

theorem mem_tokens {code : List Char} {t : Token} :
    t ∈ tokens code ↔ ∃ before after, code = before ++ (t.text ++ after) ∧
      Delimited before t.text after ∧ t.column = before.length + 1 := by
  simp only [List.mem_iff_getElem?, tokens_found, WordAt]
  constructor
  · rintro ⟨_, before, after, split, delimited, -, place⟩
    exact ⟨before, after, split, delimited, place⟩
  · rintro ⟨before, after, split, delimited, place⟩
    exact ⟨_, before, after, split, delimited, rfl, place⟩

theorem fills_iff {code : String} {t : Token} : (∃ first last : code.Pos, Fills code first last t) ↔
    ∃ before after, code.toList = before ++ (t.text ++ after) ∧
      Delimited before t.text after ∧ t.column = before.length + 1 := by
  constructor
  · rintro ⟨first, last, fills⟩
    -- the slice is not empty, so its boundaries are in order
    have filled : code.extract first last ≠ "" := by
      rw [fills.text, ne_eq, String.ofList_eq_empty_iff]
      exact fills.run.nonempty
    refine ⟨_, _, ?_, fills.run, fills.column⟩
    conv_lhs => rw [Text.extract_append filled, fills.text]
    simp
  · rintro ⟨before, after, split, delimited, place⟩
    obtain ⟨first, starts⟩ := Text.exists_splits split
    obtain ⟨last, ends⟩ := Text.exists_splits (split.trans (List.append_assoc ..).symm)
    rw [String.ofList_append] at starts ends
    refine ⟨first, last, Text.extract_between starts ends, ?_, ?_⟩
    · rw [Text.extract_start starts, Text.extract_end ends]
      simpa using delimited
    · rw [Text.extract_start starts]
      simpa using place

theorem tokensFrom_later {column : Nat} {rest : List Char}
    (separated : ∀ c ∈ rest.head?, isSeparator c = true) {t : Token}
    (member : t ∈ tokensFrom column rest) : column < t.column := by
  obtain ⟨index, found⟩ := List.mem_iff_getElem?.1 member
  obtain ⟨before, after, rfl, delimited, -, place⟩ := tokensFrom_found found
  have positive := List.length_pos_iff.2 (delimited.begins separated)
  omega

theorem tokensFrom_ordered (column : Nat) (code : List Char) :
    (tokensFrom column code).Pairwise fun s t => s.column + s.text.length < t.column := by
  fun_induction tokensFrom column code with
  | case1 => exact .nil
  | case2 column c rest separates ih => exact ih
  | case3 column c rest inside word ih =>
    obtain ⟨-, -, after⟩ := Text.first_word isSeparator (Bool.not_eq_true _ ▸ inside) rest
    exact .cons (fun t member => tokensFrom_later after member) ih

/-- A text is a gap, and then its words, each with another gap behind it. -/
theorem tokensFrom_gaps (column : Nat) (code : List Char) : ∃ opening gaps,
    gaps.length = (tokensFrom column code).length ∧
    (∀ gap ∈ opening :: gaps, ∀ c ∈ gap, isSeparator c = true) ∧
    code = opening ++
      (List.zipWith (· ++ ·) ((tokensFrom column code).map Token.text) gaps).flatten := by
  fun_induction tokensFrom column code with
  | case1 => exact ⟨[], [], rfl, by simp, rfl⟩
  | case2 column c rest separates ih =>
    obtain ⟨opening, gaps, count, separate, whole⟩ := ih
    refine ⟨c :: opening, gaps, count, ?_, congrArg (c :: ·) whole⟩
    rw [List.forall_mem_cons] at separate ⊢
    exact ⟨List.forall_mem_cons.2 ⟨separates, separate.1⟩, separate.2⟩
  | case3 column c rest inside word ih =>
    obtain ⟨opening, gaps, count, separate, whole⟩ := ih
    obtain ⟨split, -, -⟩ := Text.first_word isSeparator (Bool.not_eq_true _ ▸ inside) rest
    -- the gap that opens the rest is the one behind this word
    refine ⟨[], opening :: gaps, congrArg Nat.succ count, ?_, ?_⟩
    · exact List.forall_mem_cons.2 ⟨by simp, separate⟩
    · rw [← split, List.nil_append, List.map_cons, List.zipWith_cons_cons, List.flatten_cons,
        List.append_assoc, ← whole]

end Tokens

section Code

variable {line code part : List Char}

theorem Uncommented.of_prefix (uncommented : Uncommented code) (begins : part <+: code) :
    Uncommented part := by
  obtain ⟨rest, rfl⟩ := begins
  rintro before after rfl
  exact uncommented before (after ++ rest) (by simp)

theorem prefix_stripComment : part <+: stripComment line ↔ part <+: line ∧ Uncommented part := by
  have cut : CodeOf line (stripComment line) := codeOf_iff.2 rfl
  generalize stripComment line = code at cut
  cases cut with
  | whole uncommented =>
    exact ⟨fun begins => ⟨begins, uncommented.of_prefix begins⟩, And.left⟩
  | commented uncommented unescaped =>
    constructor
    · intro begins
      exact ⟨begins.trans (List.prefix_append _ _), uncommented.of_prefix begins⟩
    · rintro ⟨begins, plain⟩
      rcases List.prefix_or_prefix_of_prefix begins (List.prefix_append _ _) with within | beyond
      · exact within
      · obtain ⟨rest, rfl⟩ := beyond
        cases rest with
        | nil => simp
        | cons c rest =>
          -- the part goes beyond the code and so has the `#` of the comment in it
          obtain ⟨rfl, -⟩ := List.cons_prefix_cons.1 ((List.prefix_append_right_inj _).1 begins)
          exact (unescaped (plain _ _ rfl)).elim

theorem stripComment_idem (line : List Char) :
    stripComment (stripComment line) = stripComment line := by
  have uncommented := (prefix_stripComment.1 (List.prefix_refl (stripComment line))).2
  exact codeOf_iff.1 (.whole uncommented)

end Code

/-- The tokens of a text, in order, are its runs without separators that cannot be made longer. Each
lies between two character boundaries, at a column that counts characters and not bytes, and with
the separators back between them they make up the text. The code of a line ends at a character
boundary too; it is the longest part from the start of the line in which every `#` follows a
backslash, and cutting it once more leaves it as it is. -/
theorem slices_exact :
    (∀ code : String,
      (∀ t, t ∈ tokens code.toList ↔ ∃ first last : code.Pos, Fills code first last t) ∧
      ((tokens code.toList).Pairwise fun s t => s.column + s.text.length < t.column) ∧
      ∃ opening gaps, gaps.length = (tokens code.toList).length ∧
        (∀ gap ∈ opening :: gaps, ∀ c ∈ gap, isSeparator c = true) ∧
        code.toList = opening ++
          (List.zipWith (· ++ ·) ((tokens code.toList).map Token.text) gaps).flatten) ∧
    ∀ line : String,
      (∃ last : line.Pos,
        line.extract line.startPos last = String.ofList (stripComment line.toList)) ∧
      (∀ part, part <+: stripComment line.toList ↔ part <+: line.toList ∧ Uncommented part) ∧
      stripComment (stripComment line.toList) = stripComment line.toList := by
  refine ⟨fun code => ⟨fun t => ?_, tokensFrom_ordered 1 _, tokensFrom_gaps 1 _⟩, fun line =>
    ⟨?_, fun part => prefix_stripComment, stripComment_idem _⟩⟩
  · rw [mem_tokens, fills_iff]
  · obtain ⟨comment, whole⟩ := (prefix_stripComment.1 (List.prefix_refl _)).1
    obtain ⟨last, splits⟩ := Text.exists_splits whole.symm
    exact ⟨last, Text.extract_start splits⟩

/-- Characters of one to four bytes, and a `#` that follows a backslash. -/
theorem slices_exact_wide :
    let code := "é, \u2003𝔸b"
    let line := "é \\# 𝔸 # b"
    tokens code.toList = [⟨['é'], 1⟩, ⟨['𝔸', 'b'], 5⟩] ∧
      (∃ first last : code.Pos, Fills code first last ⟨['𝔸', 'b'], 5⟩) ∧
      stripComment line.toList = "é \\# 𝔸 ".toList ∧
      ∃ last : line.Pos, line.extract line.startPos last = "é \\# 𝔸 " := by
  intro code line
  have found : tokens code.toList = [⟨['é'], 1⟩, ⟨['𝔸', 'b'], 5⟩] := by decide +kernel
  have stripped : stripComment line.toList = "é \\# 𝔸 ".toList := by decide +kernel
  obtain ⟨texts, lines⟩ := slices_exact
  refine ⟨found, ((texts code).1 _).1 (by rw [found]; simp), stripped, ?_⟩
  obtain ⟨last, slice⟩ := (lines line).1
  rw [stripped, String.ofList_toList] at slice
  exact ⟨last, slice⟩

end Assembly
end FloatMachine
