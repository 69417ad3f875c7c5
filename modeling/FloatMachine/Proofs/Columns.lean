import FloatMachine.Proofs.SourceProgram

/-! Where words stand on a line. The index of a word counts the words before it and its column the
characters before it, the column from one; both are found by the assembler for every word. -/
namespace FloatMachine

namespace Assembly

/-- A maximal run without separators between what comes before it and what comes after. -/
structure Delimited (before word after : List Char) : Prop where
  nonempty : word ≠ []
  inside : ∀ c ∈ word, isSeparator c = false
  before : ∀ c ∈ before.getLast?, isSeparator c = true
  after : ∀ c ∈ after.head?, isSeparator c = true

/-- The word of a text with this index, and the column of its first character. -/
def WordAt (code : List Char) (index : Nat) (word : List Char) (column : Nat) : Prop :=
  ∃ before after, code = before ++ (word ++ after) ∧ Delimited before word after ∧
    (Text.runs isSeparator before).length = index ∧ column = before.length + 1

/-- The word of a line with this index, where the comment is left out. -/
def StandsAt (raw : List Char) (index : Nat) (word : List Char) (column : Nat) : Prop :=
  ∃ code, CodeOf raw code ∧ WordAt code index word column

section Tokens

theorem Delimited.begins {before word after : List Char} (delimited : Delimited before word after)
    (separated : ∀ c ∈ (before ++ (word ++ after)).head?, isSeparator c = true) : before ≠ [] := by
  rintro rfl
  obtain ⟨c, word, rfl⟩ := List.exists_cons_of_ne_nil delimited.nonempty
  have plain := delimited.inside c List.mem_cons_self
  rw [separated c rfl] at plain
  cases plain

theorem ends_of_append {before rest : List Char}
    (ends : ∀ c ∈ (before ++ rest).getLast?, isSeparator c = true) :
    ∀ c ∈ rest.getLast?, isSeparator c = true := by
  intro c last
  exact ends c (by rw [List.getLast?_append, Option.mem_def.1 last]; rfl)

theorem tokensFrom_append {before : List Char} (ends : ∀ c ∈ before.getLast?, isSeparator c = true)
    (rest : List Char) (column : Nat) : tokensFrom column (before ++ rest) =
      tokensFrom column before ++ tokensFrom (column + before.length) rest := by
  fun_induction tokensFrom column before with
  | case1 => rfl
  | case2 column c before separates ih =>
    have shorter := ih (@ends_of_append [c] before ends)
    rw [List.cons_append, tokensFrom_separator _ _ separates, shorter, List.length_cons,
      Nat.add_assoc, Nat.add_comm 1]
  | case3 column c before inside word ih =>
    obtain ⟨whole, plain, after⟩ := Text.first_word isSeparator (Bool.not_eq_true _ ▸ inside) before
    have filled : word ≠ [] := List.cons_ne_nil _ _
    rw [← whole] at ends ⊢
    generalize before.dropWhile (fun d => !isSeparator d) = others at *
    -- the text ends in a separator, so the word is not all of it
    obtain ⟨d, others, rfl⟩ : ∃ d tail, others = d :: tail := by
      refine List.exists_cons_of_ne_nil ?_
      rintro rfl
      have last := List.getLast_mem filled
      rw [List.append_nil] at ends
      have separates := ends _ (List.getLast?_eq_some_getLast filled)
      rw [plain _ last] at separates
      cases separates
    have separated : ∀ e ∈ ((d :: others) ++ rest).head?, isSeparator e = true := after
    rw [List.append_assoc, tokensFrom_word column filled plain separated,
      ih (ends_of_append ends), List.length_append, Nat.add_assoc]
    rfl

theorem tokensFrom_eq_nil {column : Nat} {code : List Char} :
    tokensFrom column code = [] ↔ ∀ c ∈ code, isSeparator c = true := by
  constructor
  · intro none
    fun_induction tokensFrom column code with
    | case1 => simp
    | case2 column c rest separates ih => exact List.forall_mem_cons.2 ⟨separates, ih none⟩
    | case3 => cases none
  · exact fun only => tokensFrom_separators only column

/-- A token is a word of the text at its column. -/
theorem tokensFrom_found {column : Nat} {code : List Char} {index : Nat} {t : Token}
    (found : (tokensFrom column code)[index]? = some t) :
    ∃ before after, code = before ++ (t.text ++ after) ∧ Delimited before t.text after ∧
      (Text.runs isSeparator before).length = index ∧ t.column = column + before.length := by
  fun_induction tokensFrom column code generalizing index with
  | case1 => cases found
  | case2 column c rest separates ih =>
    obtain ⟨before, after, rfl, delimited, count, place⟩ := ih found
    refine ⟨c :: before, after, rfl, { delimited with before := ?_ }, ?_, ?_⟩
    · intro d last
      rw [← List.singleton_append, List.getLast?_append, Option.mem_def] at last
      rcases Option.or_eq_some_iff.1 last with late | ⟨-, first⟩
      · exact delimited.before d late
      · cases first
        exact separates
    · rw [Text.runs_separator separates, count]
    · rw [place, List.length_cons]
      omega
  | case3 column c rest inside word =>
    rename_i ih
    obtain ⟨whole, plain, after⟩ := Text.first_word isSeparator (Bool.not_eq_true _ ▸ inside) rest
    cases index with
    | zero =>
      cases found
      exact ⟨[], _, whole.symm, ⟨List.cons_ne_nil _ _, plain, by simp, after⟩,
        by simp [Text.runs_nil], rfl⟩
    | succ index =>
      obtain ⟨before, later, split, delimited, count, place⟩ := ih found
      rw [split] at whole after
      -- a separator stands between this word and a later token
      obtain ⟨d, before, rfl⟩ := List.exists_cons_of_ne_nil (delimited.begins after)
      refine ⟨word ++ (d :: before), later, ?_, { delimited with before := ?_ }, ?_, ?_⟩
      · rw [← whole, List.append_assoc]
      · intro e last
        rw [List.getLast?_append_cons] at last
        exact delimited.before e last
      · have separated : ∀ e ∈ (d :: before).head?, isSeparator e = true := after
        have words := Text.runs_word (List.cons_ne_nil _ _) plain separated
        exact (congrArg List.length words).trans (congrArg Nat.succ count)
      · rw [place, List.length_append, Nat.add_assoc]

theorem tokens_found {code : List Char} {index : Nat} {t : Token} :
    (tokens code)[index]? = some t ↔ WordAt code index t.text t.column := by
  constructor
  · intro found
    obtain ⟨before, after, split, delimited, count, place⟩ := tokensFrom_found found
    exact ⟨before, after, split, delimited, count, place.trans (Nat.add_comm 1 _)⟩
  · rintro ⟨before, after, rfl, delimited, rfl, place⟩
    have all : (tokensFrom 1 before).length = (Text.runs isSeparator before).length := by
      rw [← tokensFrom_text 1, List.length_map]
    rw [tokens, tokensFrom_append delimited.before,
      tokensFrom_word _ delimited.nonempty delimited.inside delimited.after, ← all,
      List.getElem?_append_right (Nat.le_refl _), Nat.sub_self, Nat.add_comm 1, ← place]
    rfl

theorem standsAt_iff {raw word : List Char} {index column : Nat} :
    StandsAt raw index word column ↔
      (tokens (stripComment raw))[index]? = some ⟨word, column⟩ := by
  simp only [StandsAt, codeOf_iff, exists_eq_left', tokens_found]

end Tokens

end Assembly
end FloatMachine
