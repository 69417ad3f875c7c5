import FloatMachine.Proofs.Assembled
import FloatMachine.Proofs.Grammar

/-! From a text to the words of its lines: where a line ends, where its comment begins, and what
stands between separators. -/
namespace FloatMachine

namespace Text

section Lines

/-- A text is a line without a newline, or a line with its newline and then a text. -/
@[elab_as_elim]
theorem lines_induction {motive : List Char → Prop}
    (last : ∀ line, '\n' ∉ line → motive line)
    (newline : ∀ line rest, '\n' ∉ line → motive rest → motive (line ++ '\n' :: rest))
    (s : List Char) : motive s := by
  induction length : s.length using Nat.strongRecOn generalizing s with
  | _ n ih =>
    by_cases ends : '\n' ∈ s
    · obtain ⟨line, rest, rfl, first⟩ := List.eq_append_cons_of_mem ends
      exact newline line rest first (ih _ (by simp [← length]; omega) rest rfl)
    · exact last s ends

theorem lines_newline {line : List Char} (one : '\n' ∉ line) (rest : List Char) :
    lines (line ++ '\n' :: rest) = dropReturn line :: lines rest := by
  rw [lines, lines, List.splitOn_append_cons_self_of_not_mem one]
  obtain ⟨first, others, pieces⟩ := List.exists_cons_of_ne_nil (List.splitOn_ne_nil '\n' rest)
  rw [pieces, endings]
  simp

theorem lines_last {line : List Char} (one : '\n' ∉ line) :
    lines line = if line.isEmpty then [] else [line] := by
  rw [lines, List.splitOn_eq_singleton one]
  rfl

/-- The same text with a carriage return before every newline. -/
def withReturns (s : List Char) : List Char :=
  s.flatMap fun c => if c = '\n' then ['\r', '\n'] else [c]

theorem withReturns_line {line : List Char} (one : '\n' ∉ line) : withReturns line = line := by
  induction line with
  | nil => rfl
  | cons c line ih =>
    obtain ⟨other, rest⟩ := not_or.1 (List.mem_cons.not.1 one)
    simpa [withReturns, Ne.symm other] using ih rest

theorem withReturns_newline {line : List Char} (one : '\n' ∉ line) (rest : List Char) :
    withReturns (line ++ '\n' :: rest) = line ++ ['\r'] ++ '\n' :: withReturns rest := by
  have first := withReturns_line one
  unfold withReturns at *
  rw [List.flatMap_append, first]
  simp

theorem dropReturn_cases (line : List Char) :
    dropReturn line = line ∨ line = dropReturn line ++ ['\r'] := by
  unfold dropReturn
  split
  · rename_i ends
    obtain ⟨before, rfl⟩ := List.getLast?_eq_some_iff.1 ends
    exact Or.inr (by simp)
  · exact Or.inl rfl

theorem dropReturn_return (line : List Char) : dropReturn (line ++ ['\r']) = line := by
  simp [dropReturn]

theorem lines_ended {ls : List (List Char)}
    (single : ∀ line ∈ ls, '\n' ∉ line ∧ '\r' ∉ line) :
    lines (ls.flatMap (· ++ ['\n'])) = ls := by
  induction ls with
  | nil => rfl
  | cons line ls ih =>
    obtain ⟨⟨newline, ret⟩, rest⟩ := List.forall_mem_cons.1 single
    have kept : dropReturn line = line := by
      rcases dropReturn_cases line with same | ends
      · exact same
      · rw [ends] at ret
        simp at ret
    rw [List.flatMap_cons, List.append_assoc, List.singleton_append, lines_newline newline,
      ih rest, kept]

/-- With carriage returns before the newlines, a line may end in one more, but no line is added. -/
theorem lines_withReturns (s : List Char) :
    List.Forall₂ (fun line other => other = line ∨ other = line ++ ['\r'])
      (lines s) (lines (withReturns s)) := by
  induction s using lines_induction with
  | last line one =>
    rw [withReturns_line one]
    exact List.forall₂_same.2 fun _ _ => Or.inl rfl
  | newline line rest one ih =>
    have unbroken : '\n' ∉ line ++ ['\r'] := by simpa using one
    rw [withReturns_newline one, lines_newline one, lines_newline unbroken, dropReturn_return]
    refine .cons ?_ ih
    rcases dropReturn_cases line with same | ends
    · exact Or.inl same.symm
    · exact Or.inr ends

end Lines

section Words

theorem runs_nil (p : Char → Bool) : runs p [] = [] := by simp [runs]

theorem runs_append_separator {p : Char → Bool} {c : Char} (separates : p c = true)
    (before after : List Char) : runs p (before ++ c :: after) = runs p before ++ runs p after := by
  rw [runs, runs, runs, List.splitOnP_append_cons before after separates, List.filter_append]

theorem runs_separator {p : Char → Bool} {c : Char} (separates : p c = true) (rest : List Char) :
    runs p (c :: rest) = runs p rest := by
  have split := runs_append_separator separates [] rest
  rwa [runs_nil] at split

theorem runs_word {p : Char → Bool} {word : List Char} (nonempty : word ≠ [])
    (inside : ∀ c ∈ word, p c = false) {rest : List Char} (after : ∀ c ∈ rest.head?, p c = true) :
    runs p (word ++ rest) = word :: runs p rest := by
  cases rest with
  | nil =>
    rw [List.append_nil, runs, List.splitOnP_eq_singleton inside, runs_nil]
    simp [nonempty]
  | cons c rest =>
    rw [runs_separator (after c rfl), runs, runs,
      List.splitOnP_append_cons_of_forall_mem inside c (after c rfl)]
    simp [nonempty]

theorem runs_last_separator {p : Char → Bool} {c : Char} (separates : p c = true) (s : List Char) :
    runs p (s ++ [c]) = runs p s := by
  rw [runs_append_separator separates, runs_nil, List.append_nil]

theorem first_word (p : Char → Bool) {c : Char} (plain : p c = false) (rest : List Char) :
    let word := c :: rest.takeWhile fun d => !p d
    let others := rest.dropWhile fun d => !p d
    word ++ others = c :: rest ∧ (∀ d ∈ word, p d = false) ∧ ∀ d ∈ others.head?, p d = true := by
  refine ⟨by simp, ?_, ?_⟩
  · intro d member
    rcases List.mem_cons.1 member with rfl | later
    · exact plain
    · simpa using List.all_eq_true.1 List.all_takeWhile d later
  · intro d first
    have stops := List.head?_dropWhile_not (fun d => !p d) rest
    rw [Option.mem_def.1 first] at stops
    simpa using stops

theorem trim_last_blank {c : Char} (blank : isBlank c = true) (s : List Char) :
    trim (s ++ [c]) = trim s := by
  unfold trim trimStart
  rw [List.dropWhile_append]
  split
  · rename_i nothing
    rw [List.isEmpty_iff.1 nothing]
    simp [blank]
  · simp [trimEnd, blank]

end Words

end Text

namespace Assembly

section Comments

/-- Every `#` follows a backslash. -/
def Uncommented (code : List Char) : Prop :=
  ∀ before after, code = before ++ '#' :: after → before.getLast? = some '\\'

/-- The code of a line is what stands before the first `#` that does not follow a backslash. -/
inductive CodeOf : List Char → List Char → Prop
  | whole {code : List Char} : Uncommented code → CodeOf code code
  | commented {code comment : List Char} : Uncommented code → code.getLast? ≠ some '\\' →
      CodeOf (code ++ '#' :: comment) code

theorem CodeOf.unique {line code other : List Char} (first : CodeOf line code)
    (second : CodeOf line other) : code = other := by
  cases first with
  | whole uncommented =>
    cases second with
    | whole => rfl
    | commented _ unescaped => exact (unescaped (uncommented _ _ rfl)).elim
  | commented uncommented unescaped =>
    generalize whole : code ++ '#' :: _ = line at second
    cases second with
    | whole plain => exact (unescaped (plain _ _ whole.symm)).elim
    | commented plain bare =>
      -- of two cuts the later one would leave a comment in the code
      rcases List.append_eq_append_iff.1 whole with ⟨between, rfl, rest⟩ | ⟨between, rfl, rest⟩
      · cases between with
        | nil => simp
        | cons c between =>
          cases rest
          exact (unescaped (plain _ _ rfl)).elim
      · cases between with
        | nil => simp
        | cons c between =>
          cases rest
          exact (bare (uncommented _ _ rfl)).elim

theorem Uncommented.concat {before : List Char} (uncommented : Uncommented before) {c : Char}
    (escaped : c = '#' → before.getLast? = some '\\') : Uncommented (before ++ [c]) := by
  intro left right same
  rcases List.eq_nil_or_concat right with rfl | ⟨right, d, rfl⟩
  · obtain ⟨rfl, hash⟩ := List.append_inj' same rfl
    exact escaped (List.cons.inj hash).1
  · rw [List.concat_eq_append, ← List.cons_append, ← List.append_assoc] at same
    exact uncommented left right (List.append_inj' same rfl).1

/-- What has been passed is kept; `escaped` is what it says of the character that comes next. -/
theorem codeOf_beforeComment {passed : List Char} (uncommented : Uncommented passed)
    (rest : List Char) :
    CodeOf (passed ++ rest)
      (passed ++ beforeComment (passed.getLast? == some '\\') rest) := by
  induction rest generalizing passed with
  | nil =>
    rw [beforeComment, List.append_nil]
    exact .whole uncommented
  | cons c rest ih =>
    rw [beforeComment]
    split
    · rename_i cut
      simp only [Bool.and_eq_true, beq_iff_eq, Bool.not_eq_true', beq_eq_false_iff_ne] at cut
      obtain ⟨rfl, unescaped⟩ := cut
      rw [List.append_nil]
      exact .commented uncommented unescaped
    · rename_i kept
      have step := ih (uncommented.concat (c := c) (by
        rintro rfl
        simpa using kept))
      simpa using step

theorem codeOf_iff {line code : List Char} : CodeOf line code ↔ stripComment line = code := by
  have nothing : Uncommented [] := by
    intro before after same
    simp at same
  have cut : CodeOf line (stripComment line) := codeOf_beforeComment nothing line
  constructor
  · intro found
    exact cut.unique found
  · rintro rfl
    exact cut

theorem stripComment_return (line : List Char) :
    stripComment (line ++ ['\r']) = stripComment line ∨
      stripComment (line ++ ['\r']) = stripComment line ++ ['\r'] := by
  have cut : CodeOf line (stripComment line) := codeOf_iff.2 rfl
  generalize stripComment line = code at cut
  simp only [← codeOf_iff]
  cases cut with
  | whole uncommented =>
    have other : '\r' ≠ '#' := by decide
    exact Or.inr (.whole (uncommented.concat fun same => (other same).elim))
  | commented uncommented unescaped =>
    rw [List.append_assoc]
    exact Or.inl (.commented uncommented unescaped)

end Comments

def words (raw : List Char) : List (List Char) := Text.runs isSeparator (stripComment raw)

theorem tokensFrom_text (column : Nat) (code : List Char) :
    (tokensFrom column code).map Token.text = Text.runs isSeparator code := by
  fun_induction tokensFrom column code with
  | case1 => rw [Text.runs_nil]; rfl
  | case2 column c rest separates ih => rw [Text.runs_separator separates, ih]
  | case3 column c rest inside word ih =>
    obtain ⟨whole, plain, after⟩ := Text.first_word isSeparator (Bool.not_eq_true _ ▸ inside) rest
    rw [List.map_cons, ih, ← whole, Text.runs_word (by simp) plain after]

theorem words_return (line : List Char) : words (line ++ ['\r']) = words line := by
  rcases stripComment_return line with same | ends
  · rw [words, words, same]
  · rw [words, words, ends, Text.runs_last_separator (by decide)]

end Assembly
end FloatMachine
