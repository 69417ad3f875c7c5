import Mathlib.Data.List.DropRight
import FloatMachine.Proofs.Joined

/-! Where the caret of a diagnostic stands. The margin of the quoted line grows with the line number
and that of the caret does not, so the caret is under the word to blame up to line 9999, and to the
left of it from there on. -/
namespace FloatMachine

theorem Text.not_newline_of_mem_lines {s line : List Char} (member : line ∈ lines s) :
    '\n' ∉ line := by
  induction s using lines_induction with
  | last other one =>
    rw [lines_last one] at member
    split at member
    · cases member
    · rwa [List.mem_singleton.1 member]
  | newline other rest one ih =>
    rw [lines_newline one] at member
    rcases List.mem_cons.1 member with rfl | later
    · rcases dropReturn_cases other with same | longer
      · rwa [same]
      · rw [longer] at one
        exact fun newline => one (List.mem_append_left _ newline)
    · exact ih later

namespace Assembly

/-- The last line of an output is blank up to its caret, and the line before it shows `line` after
a margin. The caret stands that many characters to the left of the one at this column of `line`. -/
def CaretLeft (shift : Nat) (output line : List Char) (column : Nat) : Prop :=
  ∃ above margin before c after blank,
    Text.lines output = above ++ [margin ++ line, blank ++ ['^']] ∧ '^' ∉ blank ∧
      line = before ++ c :: after ∧ before.length + 1 = column ∧
      blank.length + shift = (margin ++ before).length

section Returns

theorem tokensFrom_concat {c : Char} (separates : isSeparator c = true) (column : Nat)
    (code : List Char) : tokensFrom column (code ++ [c]) = tokensFrom column code := by
  fun_induction tokensFrom column code with
  | case1 column =>
    rw [List.nil_append, tokensFrom_separator _ _ separates, tokensFrom]
  | case2 column d rest other ih =>
    rw [List.cons_append, tokensFrom_separator _ _ other, ih]
  | case3 column d rest inside word ih =>
    obtain ⟨whole, plain, after⟩ := Text.first_word isSeparator (Bool.not_eq_true _ ▸ inside) rest
    have filled : word ≠ [] := List.cons_ne_nil _ _
    generalize rest.dropWhile (fun d => !isSeparator d) = others at *
    have still : ∀ e ∈ (others ++ [c]).head?, isSeparator e = true := by
      cases others with
      | nil => simpa using separates
      | cons e others => exact after
    rw [← whole, List.append_assoc, tokensFrom_word column filled plain still, ih]

variable {raw : List Char} {cause : Cause} {column : Nat}

theorem standsAt_return {index : Nat} {word : List Char}
    (stands : StandsAt (raw ++ ['\r']) index word column) : StandsAt raw index word column := by
  rw [standsAt_iff] at stands ⊢
  rcases stripComment_return raw with same | ends
  · rwa [same] at stands
  · rwa [ends, tokens, tokensFrom_concat (by decide)] at stands

theorem Blamed.of_return (blamed : Blamed (raw ++ ['\r']) cause column) :
    Blamed raw cause column := by
  cases blamed with
  | commas cut only comma =>
    rw [codeOf_iff] at cut
    subst cut
    rcases stripComment_return raw with same | ends
    · rw [same] at only comma
      exact .commas (codeOf_iff.2 rfl) only comma
    · rw [ends] at only comma
      have earlier : ',' ∈ stripComment raw := by simpa using comma
      exact .commas (codeOf_iff.2 rfl) (List.forall_mem_append.1 only).1 earlier
  | word offends stands =>
    rw [words_return] at offends
    exact .word offends (standsAt_return stands)

/-- The fault is on the line as it is quoted, without its carriage returns. -/
theorem Blamed.quoted (blamed : Blamed raw cause column) :
    Blamed (raw.rdropWhile (· == '\r')) cause column := by
  induction raw using List.reverseRecOn with
  | nil => exact blamed
  | append_singleton raw c ih =>
    by_cases last : c = '\r'
    · subst last
      rw [List.rdropWhile_concat_pos _ _ _ rfl]
      exact ih blamed.of_return
    · rwa [List.rdropWhile_concat_neg _ _ _ (by simpa using last)]

theorem CodeOf.starts {line code : List Char} (cut : CodeOf line code) :
    ∃ rest, line = code ++ rest := by
  cases cut with
  | whole => exact ⟨[], (List.append_nil line).symm⟩
  | commented => exact ⟨_, rfl⟩

theorem Blamed.within (blamed : Blamed raw cause column) :
    ∃ before c after, raw = before ++ c :: after ∧ before.length + 1 = column := by
  cases blamed with
  | commas cut _ comma =>
    obtain ⟨rest, rfl⟩ := cut.starts
    obtain ⟨c, code, rfl⟩ := List.exists_cons_of_ne_nil (List.ne_nil_of_mem comma)
    exact ⟨[], c, code ++ rest, rfl, rfl⟩
  | word _ stands =>
    obtain ⟨code, cut, before, after, rfl, delimited, -, rfl⟩ := stands
    obtain ⟨rest, rfl⟩ := cut.starts
    obtain ⟨c, word, rfl⟩ := List.exists_cons_of_ne_nil delimited.nonempty
    exact ⟨before, c, word ++ (after ++ rest), by simp, rfl⟩

end Returns

section Diagnostics

variable {e : Error} {raw : List Char}

def lineMargin (number : Nat) : List Char :=
  (Nat.toDigits 10 number).leftpad 4 ' ' ++ [' ', '|', ' ']

def caretMargin : List Char := [' ', ' ', ' ', ' ', ' ', '|', ' ']

theorem length_lineMargin (number : Nat) :
    (lineMargin number).length = max 4 (Nat.toDigits 10 number).length + 3 := by
  rw [lineMargin, List.length_append, List.length_leftpad]
  rfl

theorem not_newline_lineMargin (number : Nat) : '\n' ∉ lineMargin number := by
  have digits : '\n' ∉ Nat.toDigits 10 number := fun member =>
    absurd (Nat.isDigit_of_mem_toDigits (by decide) (by decide) member) (by decide)
  simp [lineMargin, List.leftpad, digits]

theorem quotedLine_eq (text : e.text = String.ofList raw) :
    e.quotedLine.toList = raw.rdropWhile (· == '\r') := by
  rw [Error.quotedLine, String.toList_ofList, text, String.toList_ofList]
  rfl

theorem dropReturn_quoted (text : e.text = String.ofList raw) (number : Nat) :
    Text.dropReturn (lineMargin number ++ e.quotedLine.toList) =
      lineMargin number ++ e.quotedLine.toList := by
  apply if_neg
  rw [quotedLine_eq text]
  intro last
  rw [List.getLast?_append] at last
  by_cases empty : raw.rdropWhile (· == '\r') = []
  · rw [empty, lineMargin, List.getLast?_append] at last
    cases last
  · rw [List.getLast?_eq_some_getLast empty] at last
    have ends := Option.some.inj last
    have other := List.rdropWhile_last_not (· == '\r') raw empty
    rw [ends] at other
    exact other rfl

theorem diagnostic_ends (file : String) (e : Error) : ∃ heading, (e.diagnostic file).toList =
    heading ++ '\n' :: (lineMargin e.line ++ e.quotedLine.toList ++ '\n' ::
      (caretMargin ++ List.replicate (e.column - 1) ' ' ++ ['^'] ++ ['\n'])) := by
  unfold Error.diagnostic
  generalize s!"error: {e.kind.message}: {e.cause.message}\n" = message
  generalize s!" --> {file}:{e.line}:{e.column}\n" = place
  have start : "     |\n".toList = "     |".toList ++ ['\n'] := by decide
  have stop : "^\n".toList = ['^', '\n'] := by decide
  have newline : "\n".toList = ['\n'] := by decide
  have bar : " | ".toList = [' ', '|', ' '] := by decide
  have wide : "     | ".toList = caretMargin := by decide
  refine ⟨message.toList ++ (place.toList ++ "     |".toList), ?_⟩
  simp only [String.toList_append, Text.alignRight, Error.spaces, String.toList_ofList,
    Nat.toString_eq_ofList_toDigits, start, stop, newline, bar, wide, lineMargin,
    List.append_assoc, List.cons_append, List.nil_append]

theorem lines_diagnostic (text : e.text = String.ofList raw) (one : '\n' ∉ raw) (file : String) :
    ∃ above, Text.lines (e.diagnostic file).toList = above ++
      [lineMargin e.line ++ e.quotedLine.toList,
        caretMargin ++ List.replicate (e.column - 1) ' ' ++ ['^']] := by
  have unbroken : '\n' ∉ lineMargin e.line ++ e.quotedLine.toList := by
    rw [quotedLine_eq text, List.mem_append, not_or]
    refine ⟨not_newline_lineMargin e.line, fun member => one ?_⟩
    exact (List.rdropWhile_prefix _ raw).subset member
  have single : '\n' ∉ caretMargin ++ List.replicate (e.column - 1) ' ' ++ ['^'] := by
    simp [caretMargin]
  have plain : Text.dropReturn (caretMargin ++ List.replicate (e.column - 1) ' ' ++ ['^']) =
      caretMargin ++ List.replicate (e.column - 1) ' ' ++ ['^'] := by
    apply if_neg
    rw [List.getLast?_concat]
    decide
  obtain ⟨heading, written⟩ := diagnostic_ends file e
  rw [written, Text.lines_append, Text.lines_newline unbroken, Text.lines_newline single, plain,
    dropReturn_quoted text]
  exact ⟨_, rfl⟩

/-- The caret is as far to the left as the number has digits over four. -/
theorem caretLeft_iff (text : e.text = String.ofList raw) (one : '\n' ∉ raw)
    (blamed : Blamed raw e.cause e.column) (file : String) (shift : Nat) :
    CaretLeft shift (e.diagnostic file).toList e.quotedLine.toList e.column ↔
      shift = (Nat.toDigits 10 e.line).length - 4 := by
  obtain ⟨above, shown⟩ := lines_diagnostic text one file
  have margin := length_lineMargin e.line
  have fixed : caretMargin.length = 7 := by decide
  constructor
  · rintro ⟨others, left, before, c, after, blank, lines, -, -, place, aligned⟩
    rw [shown] at lines
    have last := (List.append_inj' lines rfl).2
    simp only [List.cons.injEq, List.append_cancel_right_eq, and_true] at last
    obtain ⟨rfl, rfl⟩ := last
    simp only [List.length_append, List.length_replicate, margin, fixed] at aligned
    omega
  · rintro rfl
    have quoted := blamed.quoted
    rw [← quotedLine_eq text] at quoted
    obtain ⟨before, c, after, split, place⟩ := quoted.within
    refine ⟨above, _, before, c, after, _, shown, ?_, split, place, ?_⟩
    · simp [caretMargin]
    · simp only [List.length_append, List.length_replicate, margin, fixed]
      omega

end Diagnostics

theorem within_four_digits {n : Nat} : 0 = (Nat.toDigits 10 n).length - 4 ↔ n < 10000 := by
  have digits := @Nat.length_toDigits_le_iff 10 n 4 (by decide) (by decide)
  omega

/-- An error is at a character of the line that its diagnostic quotes, the first of the word to blame
or, in a line of commas, of the line. The caret stands under that character while the line number
has at most four digits, and one further to the left for each digit more. -/
theorem caret_marks_blame {source : String} {e : Error} (rejected : assemble source = .error e)
    (file : String) :
    Blamed e.quotedLine.toList e.cause e.column ∧
      (CaretLeft 0 (e.diagnostic file).toList e.quotedLine.toList e.column ↔ e.line < 10000) ∧
      CaretLeft ((Nat.toDigits 10 e.line).length - 4) (e.diagnostic file).toList
        e.quotedLine.toList e.column := by
  obtain ⟨raw, line, text, blamed, -⟩ := assemble_error.1 rejected
  obtain ⟨offset, -, found⟩ := sourceLine_eq_some.1 line
  have one := Text.not_newline_of_mem_lines (List.mem_of_getElem? found)
  have caret := caretLeft_iff text one blamed file
  refine ⟨?_, (caret 0).trans within_four_digits, (caret _).2 rfl⟩
  rw [quotedLine_eq text]
  exact blamed.quoted

/-- The line that is quoted loses the carriage return at its end, and the caret stays in place. -/
theorem caret_marks_blame_second :
    let source := "mov r0 1\n  foo r0 1\r"
    let e : Error := ⟨.unknownMnemonic "foo", 2, 3, "  foo r0 1\r"⟩
    assemble source = .error e ∧ e.quotedLine = "  foo r0 1" ∧
      Blamed "  foo r0 1".toList (.unknownMnemonic "foo") 3 ∧
      CaretLeft 0 (e.diagnostic "prog.asm").toList "  foo r0 1".toList 3 := by
  intro source e
  have rejected : assemble source = .error e := by decide +kernel
  have quoted : e.quotedLine = "  foo r0 1" := by decide +kernel
  obtain ⟨blamed, aligned, -⟩ := caret_marks_blame rejected "prog.asm"
  rw [quoted] at blamed aligned
  exact ⟨rejected, quoted, blamed, aligned.2 (by decide)⟩

/-- On line 10000 the caret is in the margin, a character before the word to blame. -/
theorem caret_misses_blame :
    let e : Error := ⟨.unknownMnemonic "foo", 10000, 1, "foo"⟩
    assemble (gapped [] 9999 "foo".toList) = .error e ∧
      ¬ CaretLeft 0 (e.diagnostic "prog.asm").toList e.quotedLine.toList e.column := by
  intro e
  have plain : ∀ line ∈ ["foo".toList], '\n' ∉ line ∧ '\r' ∉ line := by decide +kernel
  have lines := lines_gapped plain 9999
  rw [List.nil_append] at lines
  have read : readLine 10000 "foo".toList = .error e := by decide +kernel
  have blamed := (readLine_error.1 read).2.2
  constructor
  · refine assemble_error.2 ⟨"foo".toList, sourceLine_eq_some.2 ⟨9999, rfl, ?_⟩, rfl, blamed, ?_⟩
    · rw [lines, List.getElem?_append_right (by rw [List.length_replicate]), List.length_replicate]
      rfl
    · intro line other early found
      obtain ⟨offset, rfl, there⟩ := sourceLine_eq_some.1 found
      have before : offset < (List.replicate 9999 ([] : List Char)).length := by
        rw [List.length_replicate]
        dsimp only [e] at early
        omega
      rw [lines, List.getElem?_append_left before] at there
      rw [List.eq_of_mem_replicate (List.mem_of_getElem? there)]
      exact Or.inl blank_nil
  · rw [caretLeft_iff rfl (plain _ List.mem_cons_self).1 blamed]
    decide

end Assembly
end FloatMachine
