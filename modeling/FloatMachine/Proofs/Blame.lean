import FloatMachine.Proofs.Columns
import FloatMachine.Proofs.SourceLines

/-! What the assembler finds fault with. On a line that is neither blank nor grammatical one word is
to blame, the first one that the line cannot go on with, and the first such line of a source text is
the one that is reported. -/
namespace FloatMachine

namespace Text

/-- A text up to its newline with this number, which is kept; all of it when there are fewer. -/
def upToLine : Nat → List Char → List Char
  | 0, _ => []
  | _ + 1, [] => []
  | k + 1, c :: rest => c :: if c = '\n' then upToLine k rest else upToLine (k + 1) rest

theorem upToLine_newline {line : List Char} (one : '\n' ∉ line) (rest : List Char) (k : Nat) :
    upToLine (k + 1) (line ++ '\n' :: rest) = line ++ '\n' :: upToLine k rest := by
  induction line with
  | nil => rw [List.nil_append, upToLine, if_pos rfl, List.nil_append]
  | cons c line ih =>
    obtain ⟨other, later⟩ := not_or.1 (List.mem_cons.not.1 one)
    rw [List.cons_append, upToLine, if_neg (Ne.symm other), ih later, List.cons_append]

theorem upToLine_last {line : List Char} (one : '\n' ∉ line) (k : Nat) :
    upToLine (k + 1) line = line := by
  induction line with
  | nil => rw [upToLine]
  | cons c line ih =>
    obtain ⟨other, later⟩ := not_or.1 (List.mem_cons.not.1 one)
    rw [upToLine, if_neg (Ne.symm other), ih later]

theorem lines_upToLine (k : Nat) (s : List Char) : lines (upToLine k s) = (lines s).take k := by
  induction s using lines_induction generalizing k with
  | last line one =>
    cases k with
    | zero => simp [upToLine, lines_last]
    | succ k =>
      rw [upToLine_last one, lines_last one]
      split <;> simp
  | newline line rest one ih =>
    cases k with
    | zero => simp [upToLine, lines_last]
    | succ k =>
      rw [upToLine_newline one, lines_newline one, lines_newline one, ih, List.take_succ_cons]

end Text

namespace Assembly

/-- The word can stand in that position after a mnemonic of this shape. -/
def Fits (shape : Shape) (position : Nat) (word : List Char) : Prop :=
  if shape.hasDestination = true ∧ position = 0 then ∃ d, Place word d else ∃ o, Source word o

/-- Why a word cannot stand in that position. -/
inductive Misfit (shape : Shape) : Nat → List Char → Cause → Prop
  | literal {word : List Char} {v : Binary32} : shape.hasDestination = true → Literal word v →
      Misfit shape 0 word (.literalDestination (String.ofList word))
  | destination {word : List Char} : shape.hasDestination = true → (∀ v, ¬ Literal word v) →
      (∀ d, ¬ Place word d) → Misfit shape 0 word (.invalidDestination (String.ofList word))
  | operand {position : Nat} {word : List Char} :
      ¬ (shape.hasDestination = true ∧ position = 0) → (∀ o, ¬ Source word o) →
      Misfit shape position word (.invalidOperand (String.ofList word))

inductive Unnamed (word : List Char) : Cause → Prop
  | reserved : String.ofList word ∈ reserved →
      Unnamed word (.reservedMnemonic (String.ofList word))
  | unknown : (∀ op : Operation, word ≠ op.mnemonic.toList) →
      String.ofList word ∉ Assembly.reserved →
      Unnamed word (.unknownMnemonic (String.ofList word))

/-- The index of the word to blame among the words of a line, and what is wrong with it. -/
inductive Offends : List (List Char) → Nat → Cause → Prop
  | mnemonic {word : List Char} {args : List (List Char)} {cause : Cause} : Unnamed word cause →
      Offends (word :: args) 0 cause
  | missing {op : Operation} {args : List (List Char)} : args.length < op.shape.arity →
      Offends (op.mnemonic.toList :: args) 0 (.wrongCount op args.length)
  | surplus {op : Operation} {args : List (List Char)} : op.shape.arity < args.length →
      Offends (op.mnemonic.toList :: args) (op.shape.arity + 1) (.wrongCount op args.length)
  | argument {op : Operation} {args : List (List Char)} {n : Nat} {word : List Char}
      {cause : Cause} : args.length = op.shape.arity → args[n]? = some word →
      Misfit op.shape n word cause →
      (∀ (j : Nat) (w : List Char), j < n → args[j]? = some w → Fits op.shape j w) →
      Offends (op.mnemonic.toList :: args) (n + 1) cause

/-- What is wrong with a line, and the column where it is. -/
inductive Blamed (raw : List Char) : Cause → Nat → Prop
  | commas {code : List Char} : CodeOf raw code → (∀ c ∈ code, isSeparator c = true) → ',' ∈ code →
      Blamed raw .noMnemonic 1
  | word {index column : Nat} {word : List Char} {cause : Cause} :
      Offends (words raw) index cause → StandsAt raw index word column → Blamed raw cause column

section Words

theorem reserved_unknown : ∀ word ∈ reserved, Operation.ofMnemonic? word = none := by decide

theorem ofMnemonic?_eq_none {word : List Char} : Operation.ofMnemonic? (String.ofList word) = none ↔
    ∀ op : Operation, word ≠ op.mnemonic.toList := by
  constructor
  · intro unknown op same
    rw [same, String.ofList_toList, Operation.ofMnemonic?_mnemonic] at unknown
    cases unknown
  · intro other
    refine Option.eq_none_iff_forall_ne_some.2 fun op known => other op ?_
    rw [Operation.mnemonic_of_ofMnemonic? known, String.toList_ofList]

theorem destination?_eq_none {word : List Char} :
    destination? word = none ↔ ∀ d, ¬ Place word d := by
  simp only [Option.eq_none_iff_forall_ne_some, ne_eq, destination?_eq_some]

theorem parse?_eq_none {word : List Char} :
    Binary32.parse? word = none ↔ ∀ v, ¬ Literal word v := by
  simp only [Option.eq_none_iff_forall_ne_some, ne_eq, parse?_eq_some]

theorem operand?_eq_none {word : List Char} : operand? word = none ↔ ∀ o, ¬ Source word o := by
  simp only [Option.eq_none_iff_forall_ne_some, ne_eq, operand?_eq_some]

end Words

section Arguments

variable {shape : Shape} {t : Token} {cause : Cause} {column : Nat}

theorem readMnemonic_error :
    readMnemonic t = .error (cause, column) ↔ Unnamed t.text cause ∧ t.column = column := by
  constructor
  · intro read
    unfold readMnemonic at read
    dsimp only at read
    split at read
    · cases read
    · rename_i unknown
      split at read <;> cases read
      · rename_i word
        exact ⟨.reserved word, rfl⟩
      · rename_i word
        exact ⟨.unknown (ofMnemonic?_eq_none.1 unknown) word, rfl⟩
  · rintro ⟨unnamed, rfl⟩
    cases unnamed with
    | reserved word => simp [readMnemonic, reserved_unknown _ word, word]
    | unknown other word => simp [readMnemonic, ofMnemonic?_eq_none.2 other, word]

theorem readDestination_error (takes : shape.hasDestination = true) :
    readDestination t = .error (cause, column) ↔
      Misfit shape 0 t.text cause ∧ t.column = column := by
  constructor
  · intro read
    unfold readDestination at read
    split at read
    · cases read
    · rename_i other
      have other := destination?_eq_none.1 other
      split at read <;> cases read
      · rename_i number
        obtain ⟨v, number⟩ := Option.isSome_iff_exists.1 number
        exact ⟨.literal takes (parse?_eq_some.1 number), rfl⟩
      · rename_i number
        have number := parse?_eq_none.1 (Option.not_isSome_iff_eq_none.1 number)
        exact ⟨.destination takes number other, rfl⟩
  · rintro ⟨misfit, rfl⟩
    cases misfit with
    | literal _ literal =>
      have other := destination?_eq_none.2 fun d place => place.not_literal _ literal
      simp [readDestination, other, parse?_eq_some.2 literal]
    | destination _ number other =>
      simp [readDestination, destination?_eq_none.2 other, parse?_eq_none.2 number]
    | operand elsewhere => exact (elsewhere ⟨takes, rfl⟩).elim

theorem readOperand_error {n : Nat} (elsewhere : ¬ (shape.hasDestination = true ∧ n = 0)) :
    readOperand t = .error (cause, column) ↔
      Misfit shape n t.text cause ∧ t.column = column := by
  constructor
  · intro read
    unfold readOperand at read
    split at read
    · cases read
    · rename_i other
      cases read
      exact ⟨.operand elsewhere (operand?_eq_none.1 other), rfl⟩
  · rintro ⟨misfit, rfl⟩
    cases misfit with
    | literal takes => exact (elsewhere ⟨takes, rfl⟩).elim
    | destination takes => exact (elsewhere ⟨takes, rfl⟩).elim
    | operand _ other => simp [readOperand, operand?_eq_none.2 other]

theorem fits_destination (takes : shape.hasDestination = true) :
    Fits shape 0 t.text ↔ ∃ d, readDestination t = .ok d := by
  simp only [Fits, takes, and_self, if_true, readDestination_ok]

theorem fits_operand {n : Nat} (elsewhere : ¬ (shape.hasDestination = true ∧ n = 0)) :
    Fits shape n t.text ↔ ∃ o, readOperand t = .ok o := by
  simp only [Fits, if_neg elsewhere, readOperand_ok]

theorem positions_error {operands : List Operand} {d : Option Destination} {e : Cause × Nat} :
    (match operands with
      | [] => pure (d, .unused, .unused)
      | [left] => pure (d, left, .unused)
      | left :: right :: _ => pure (d, left, right) : Reading _) = .error e ↔ False := by
  split <;> exact reading_pure_error

theorem readArguments_plain_error {op : Operation} (takes : op.shape.hasDestination = false)
    {args : List Token} {e : Cause × Nat} :
    readArguments op args = .error e ↔ args.mapM readOperand = .error e := by
  simp only [readArguments, takes, reading_bind_error, reading_pure_error, reading_pure,
    false_or, exists_eq_left']
  constructor
  · rintro (wrong | ⟨operands, -, read⟩)
    · exact wrong
    · exact (positions_error.1 read).elim
  · exact Or.inl

theorem readArguments_targeted_error {op : Operation} (takes : op.shape.hasDestination = true)
    {args : List Token} {e : Cause × Nat} :
    readArguments op (t :: args) = .error e ↔ readDestination t = .error e ∨
      (∃ d, readDestination t = .ok d) ∧ args.mapM readOperand = .error e := by
  simp only [readArguments, takes, reading_bind_error, reading_pure_error, reading_pure,
    false_or, exists_eq_left']
  constructor
  · rintro (wrong | ⟨d, fine, later | ⟨operands, -, read⟩⟩)
    · exact Or.inl wrong
    · exact Or.inr ⟨⟨d, fine⟩, later⟩
    · exact (positions_error.1 read).elim
  · rintro (wrong | ⟨⟨d, fine⟩, later⟩)
    · exact Or.inl wrong
    · exact Or.inr ⟨d, fine, Or.inl later⟩

theorem readSources_error {args : List Token} {first : Nat}
    (elsewhere : ∀ n, ¬ (shape.hasDestination = true ∧ first + n = 0)) :
    args.mapM readOperand = .error (cause, column) ↔
      ∃ (n : Nat) (t : Token), args[n]? = some t ∧
        (Misfit shape (first + n) t.text cause ∧ t.column = column) ∧
        ∀ (j : Nat) (u : Token), j < n → args[j]? = some u → Fits shape (first + j) u.text := by
  simp only [mapM_error, fits_operand (elsewhere _)]
  refine exists_congr fun n => exists_congr fun t => and_congr_right fun _ => ?_
  exact and_congr_left' (readOperand_error (elsewhere n))

/-- The first argument, in order, that does not fit is the one that is wrong. -/
theorem readArguments_error {op : Operation} {args : List Token}
    (count : args.length = op.shape.arity) :
    readArguments op args = .error (cause, column) ↔
      ∃ (n : Nat) (t : Token), args[n]? = some t ∧
        (Misfit op.shape n t.text cause ∧ t.column = column) ∧
        ∀ (j : Nat) (u : Token), j < n → args[j]? = some u → Fits op.shape j u.text := by
  cases takes : op.shape.hasDestination with
  | false =>
    have elsewhere : ∀ n, ¬ (op.shape.hasDestination = true ∧ 0 + n = 0) := by simp [takes]
    rw [readArguments_plain_error takes, readSources_error elsewhere]
    simp only [Nat.zero_add]
  | true =>
    have elsewhere : ∀ n, ¬ (op.shape.hasDestination = true ∧ 1 + n = 0) := by omega
    have some : args.length = op.shape.operandCount + 1 := by simp [count, Shape.arity, takes]
    obtain ⟨t, args, rfl⟩ := List.exists_cons_of_length_eq_add_one some
    rw [readArguments_targeted_error takes, readDestination_error takes,
      ← fits_destination takes, readSources_error elsewhere]
    constructor
    · rintro (wrong | ⟨fine, n, u, found, wrong, before⟩)
      · exact ⟨0, t, rfl, wrong, fun _ _ less => (Nat.not_lt_zero _ less).elim⟩
      · refine ⟨n + 1, u, found, Nat.add_comm 1 n ▸ wrong, ?_⟩
        intro j v less at_j
        cases j with
        | zero =>
          cases at_j
          exact fine
        | succ j => exact Nat.add_comm 1 j ▸ before j v (Nat.lt_of_succ_lt_succ less) at_j
    · rintro ⟨n, u, found, wrong, before⟩
      cases n with
      | zero =>
        cases found
        exact Or.inl wrong
      | succ n =>
        refine Or.inr ⟨before 0 t (Nat.succ_pos n) rfl, n, u, found, Nat.add_comm n 1 ▸ wrong, ?_⟩
        intro j v less at_j
        exact Nat.add_comm j 1 ▸ before (j + 1) v (Nat.succ_lt_succ less) at_j

end Arguments

section Lines

variable {cause : Cause} {column : Nat}

theorem offends_miscounted {op : Operation} {head : Token} {args : List Token}
    (name : head.text = op.mnemonic.toList) (other : args.length ≠ op.shape.arity) :
    ∃ (index : Nat) (t : Token), (head :: args)[index]? = some t ∧
      Offends (head.text :: args.map Token.text) index (.wrongCount op args.length) ∧
      (args[op.shape.arity]?).getD head = t := by
  have count : (args.map Token.text).length = args.length := List.length_map _
  rw [name, ← count]
  rcases Nat.lt_or_gt_of_ne other with few | many
  · refine ⟨0, head, rfl, .missing (count ▸ few), ?_⟩
    rw [List.getElem?_eq_none (Nat.le_of_lt few)]
    rfl
  · refine ⟨op.shape.arity + 1, args[op.shape.arity], ?_, .surplus (count ▸ many), ?_⟩
    · exact List.getElem?_eq_getElem many
    · rw [List.getElem?_eq_getElem many]
      rfl

theorem readInstruction_error {number : Nat} {code : List Char} :
    readInstruction number code = .error (cause, column) ↔
      tokens code = [] ∧ cause = .noMnemonic ∧ column = 1 ∨
      ∃ (index : Nat) (t : Token), (tokens code)[index]? = some t ∧
        Offends (Text.runs isSeparator code) index cause ∧ t.column = column := by
  rw [← tokensFrom_text 1 code]
  change _ ↔ _ ∨ ∃ index t, _ ∧ Offends ((tokens code).map Token.text) index cause ∧ _
  unfold readInstruction
  generalize tokens code = ts
  cases ts with
  | nil => simp [eq_comm]
  | cons head args =>
    have count : (args.map Token.text).length = args.length := List.length_map _
    simp only [reading_bind_error, reading_unless_error, reading_pure_error, readMnemonic_error,
      readMnemonic_ok, ne_eq, Decidable.not_not, List.map_cons, reduceCtorEq, false_and, false_or,
      and_false, exists_false, or_false]
    -- the mnemonic is looked at first, then the count, then the arguments from left to right
    constructor
    · rintro (⟨unnamed, place⟩ | ⟨op, name, ⟨other, wrong⟩ | ⟨same, wrong⟩⟩)
      · exact ⟨0, head, rfl, .mnemonic unnamed, place⟩
      · obtain ⟨index, t, found, offends, blamed⟩ := offends_miscounted name other
        rw [blamed] at wrong
        cases wrong
        exact ⟨index, t, found, offends, rfl⟩
      · obtain ⟨n, t, found, ⟨misfit, place⟩, before⟩ := (readArguments_error same).1 wrong
        refine ⟨n + 1, t, found, ?_, place⟩
        rw [name]
        refine .argument (count.trans same) ?_ misfit ?_
        · rw [List.getElem?_map, found]
          rfl
        · intro j w less at_j
          rw [List.getElem?_map] at at_j
          obtain ⟨u, there, rfl⟩ := Option.map_eq_some_iff.1 at_j
          exact before j u less there
    · rintro ⟨index, t, found, offends, place⟩
      generalize words : head.text :: args.map Token.text = ws at offends
      cases offends with
      | mnemonic unnamed =>
        obtain ⟨rfl, -⟩ := List.cons.inj words
        cases found
        exact Or.inl ⟨unnamed, place⟩
      | @missing op _ few =>
        obtain ⟨name, rfl⟩ := List.cons.inj words
        cases found
        rw [count] at few ⊢
        refine Or.inr ⟨op, name, Or.inl ⟨Nat.ne_of_lt few, ?_⟩⟩
        rw [List.getElem?_eq_none (Nat.le_of_lt few), Option.getD_none, place]
      | @surplus op _ many =>
        obtain ⟨name, rfl⟩ := List.cons.inj words
        rw [count] at many ⊢
        rw [List.getElem?_cons_succ] at found
        refine Or.inr ⟨op, name, Or.inl ⟨Nat.ne_of_gt many, ?_⟩⟩
        rw [found, Option.getD_some, place]
      | @argument op _ n word _ same at_n misfit before =>
        obtain ⟨name, rfl⟩ := List.cons.inj words
        rw [count] at same
        rw [List.getElem?_cons_succ] at found
        rw [List.getElem?_map, found] at at_n
        cases at_n
        refine Or.inr ⟨op, name, Or.inr ⟨same, (readArguments_error same).2 ?_⟩⟩
        refine ⟨n, t, found, ⟨misfit, place⟩, fun j u less at_j => before j u.text less ?_⟩
        rw [List.getElem?_map, at_j]
        rfl

theorem Offends.nonempty {ws : List (List Char)} {index : Nat} (offends : Offends ws index cause) :
    ws ≠ [] := by
  cases offends <;> exact List.cons_ne_nil _ _

theorem Blamed.not_blank {raw : List Char} (blamed : Blamed raw cause column) : ¬ Blank raw := by
  intro blank
  cases blamed with
  | commas cut _ comma =>
    rw [blank_iff, codeOf_iff.1 cut] at blank
    exact absurd (List.all_eq_true.1 blank _ comma) (by decide)
  | word offends => exact offends.nonempty blank.words

theorem blamed_iff {number : Nat} {raw : List Char} (filled : ¬ Blank raw) :
    readInstruction number (stripComment raw) = .error (cause, column) ↔
      Blamed raw cause column := by
  rw [readInstruction_error]
  constructor
  · rintro (⟨none, rfl, rfl⟩ | ⟨index, t, found, offends, rfl⟩)
    · have only := tokensFrom_eq_nil.1 none
      rw [blank_iff, List.all_eq_true, not_forall] at filled
      obtain ⟨c, dark⟩ := filled
      obtain ⟨member, dark⟩ := Classical.not_imp.1 dark
      -- a separator that is no blank is a comma
      have comma : c = ',' := by
        have separates := only c member
        simp only [isSeparator, Bool.or_eq_true, beq_iff_eq] at separates
        exact separates.resolve_right dark
      exact .commas (codeOf_iff.2 rfl) only (comma ▸ member)
    · exact .word offends (standsAt_iff.2 found)
  · intro blamed
    cases blamed with
    | commas cut only =>
      rw [codeOf_iff.1 cut]
      exact Or.inl ⟨tokensFrom_eq_nil.2 only, rfl, rfl⟩
    | word offends stands => exact Or.inr ⟨_, _, standsAt_iff.1 stands, offends, rfl⟩

theorem readLine_error {number : Nat} {raw : List Char} {e : Error} :
    readLine number raw = .error e ↔
      e.line = number ∧ e.text = String.ofList raw ∧ Blamed raw e.cause e.column := by
  by_cases blank : Blank raw
  · rw [readLine_none.2 blank]
    constructor
    · intro read
      cases read
    · rintro ⟨-, -, blamed⟩
      exact (blamed.not_blank blank).elim
  · rw [readLine, if_neg (mt blank_iff.2 blank), ← @blamed_iff _ _ number raw blank]
    obtain ⟨cause, line, column, text⟩ := e
    dsimp only
    rcases readInstruction number (stripComment raw) with ⟨wrong, place⟩ | i
    · simp only [Except.error.injEq, Error.mk.injEq, Prod.mk.injEq]
      constructor
      · rintro ⟨rfl, rfl, rfl, rfl⟩
        exact ⟨rfl, rfl, rfl, rfl⟩
      · rintro ⟨rfl, rfl, rfl, rfl⟩
        exact ⟨rfl, rfl, rfl, rfl⟩
    · simp

theorem readLine_fine {number : Nat} {raw : List Char} :
    (∃ found, readLine number raw = .ok found) ↔ Blank raw ∨ Grammatical raw := by
  constructor
  · rintro ⟨_ | i, read⟩
    · exact Or.inl (readLine_none.1 read)
    · exact Or.inr (readLine_some.1 read).grammatical
  · rintro (blank | grammatical)
    · exact ⟨none, readLine_none.2 blank⟩
    · obtain ⟨i, written⟩ := grammatical.written number
      exact ⟨some i, readLine_some.2 written⟩

theorem Blamed.not_fine {raw : List Char} (blamed : Blamed raw cause column) :
    ¬ (Blank raw ∨ Grammatical raw) := by
  intro fine
  obtain ⟨found, read⟩ := (@readLine_fine 0 raw).2 fine
  have failed : readLine 0 raw = .error ⟨cause, 0, column, String.ofList raw⟩ :=
    readLine_error.2 ⟨rfl, rfl, blamed⟩
  rw [read] at failed
  cases failed

end Lines

section Sources

variable {source : String} {e : Error}

/-- The line that is reported is the first one that is neither blank nor grammatical. -/
theorem assemble_error : assemble source = .error e ↔
    ∃ raw, sourceLine source e.line = some raw ∧ e.text = String.ofList raw ∧
      Blamed raw e.cause e.column ∧
      ∀ line other, line < e.line → sourceLine source line = some other →
        Blank other ∨ Grammatical other := by
  simp only [assemble, readLines, reading_bind_error, reading_pure_error, and_false, exists_false,
    or_false, mapM_error, List.getElem?_zipIdx, Option.map_eq_some_iff]
  constructor
  · rintro ⟨n, _, ⟨raw, line, rfl⟩, failed, before⟩
    obtain ⟨number, text, blamed⟩ := readLine_error.1 failed
    refine ⟨raw, sourceLine_eq_some.2 ⟨n, number.symm, line⟩, text, blamed, ?_⟩
    intro k other less found
    obtain ⟨j, rfl, there⟩ := sourceLine_eq_some.1 found
    exact readLine_fine.1 (before j _ (by omega) ⟨other, there, rfl⟩)
  · rintro ⟨raw, line, text, blamed, before⟩
    obtain ⟨n, number, there⟩ := sourceLine_eq_some.1 line
    refine ⟨n, _, ⟨raw, there, rfl⟩, readLine_error.2 ⟨number.symm, text, blamed⟩, ?_⟩
    rintro j _ less ⟨other, found, rfl⟩
    exact readLine_fine.2 (before (1 + j) other (by omega) (sourceLine_eq_some.2 ⟨j, rfl, found⟩))

theorem assembled_upToLine {k : Nat} :
    (∃ p, assemble (String.ofList (Text.upToLine k source.toList)) = .ok p) ↔
      ∀ line other, line ≤ k → sourceLine source line = some other →
        Blank other ∨ Grammatical other := by
  rw [assembled_iff, exists_reads, String.toList_ofList, Text.lines_upToLine]
  constructor
  · intro fine line other le found
    obtain ⟨n, rfl, there⟩ := sourceLine_eq_some.1 found
    refine fine other (List.mem_iff_getElem?.2 ⟨n, ?_⟩)
    rw [List.getElem?_take_of_lt (by omega), there]
  · intro fine raw member
    obtain ⟨n, found⟩ := List.mem_iff_getElem?.1 member
    obtain ⟨early, there⟩ := Option.ite_none_right_eq_some.1 (List.getElem?_take ▸ found)
    exact fine (1 + n) raw (by omega) (sourceLine_eq_some.2 ⟨n, rfl, there⟩)

theorem sourceLine_of_take {other : String} {k : Nat}
    (same : (Text.lines other.toList).take k = (Text.lines source.toList).take k) {line : Nat}
    (le : line ≤ k) : sourceLine other line = sourceLine source line := by
  cases line with
  | zero => rfl
  | succ n =>
    rw [sourceLine, sourceLine, ← List.getElem?_take_of_lt le, same, List.getElem?_take_of_lt le]

theorem assemble_error_of_take (rejected : assemble source = .error e) {other : String}
    (same : (Text.lines other.toList).take e.line = (Text.lines source.toList).take e.line) :
    assemble other = .error e := by
  obtain ⟨raw, line, text, blamed, before⟩ := assemble_error.1 rejected
  refine assemble_error.2 ⟨raw, (sourceLine_of_take same (Nat.le_refl _)).trans line, text,
    blamed, ?_⟩
  intro n raw early found
  rw [sourceLine_of_take same (Nat.le_of_lt early)] at found
  exact before n raw early found

/-- An error tells of the first line up to which the source does not assemble: its number, its
text, and the word on it that is to blame. What comes after that line makes no difference. -/
theorem errors_located (rejected : assemble source = .error e) :
    (∃ raw, sourceLine source e.line = some raw ∧ e.text = String.ofList raw ∧
      Blamed raw e.cause e.column) ∧
    (∀ k, (∃ p, assemble (String.ofList (Text.upToLine k source.toList)) = .ok p) ↔
      k < e.line) ∧
    ∀ other : String, (Text.lines other.toList).take e.line =
      (Text.lines source.toList).take e.line → assemble other = .error e := by
  obtain ⟨raw, line, text, blamed, before⟩ := assemble_error.1 rejected
  refine ⟨⟨raw, line, text, blamed⟩, fun k => ?_, fun _ => assemble_error_of_take rejected⟩
  rw [assembled_upToLine]
  constructor
  · intro fine
    by_contra late
    exact blamed.not_fine (fine e.line raw (Nat.not_lt.1 late) line)
  · intro early n other le found
    exact before n other (Nat.lt_of_le_of_lt le early) found

/-- A comment, a line in order, and one with a number where a register should be. The space before
its mnemonic takes two bytes and counts as one column. -/
theorem errors_located_literal :
    let source := "# first\nnop\n\u00a0add, 3 r0 x\nfree"
    let e : Error := ⟨.literalDestination "3", 3, 7, "\u00a0add, 3 r0 x"⟩
    assemble source = .error e ∧
      Blamed "\u00a0add, 3 r0 x".toList (.literalDestination "3") 7 ∧
      (∃ p, assemble (String.ofList (Text.upToLine 2 source.toList)) = .ok p) ∧
      ¬ (∃ p, assemble (String.ofList (Text.upToLine 3 source.toList)) = .ok p) ∧
      assemble "# first\nnop\n\u00a0add, 3 r0 x\n" = .error e := by
  intro source e
  have rejected : assemble source = .error e := by decide +kernel
  obtain ⟨⟨raw, line, text, blamed⟩, least, later⟩ := errors_located rejected
  have third : sourceLine source 3 = some "\u00a0add, 3 r0 x".toList := by decide +kernel
  cases third.symm.trans line
  refine ⟨rejected, blamed, (least 2).2 (by decide), ?_, later _ (by decide +kernel)⟩
  intro assembled
  exact absurd ((least 3).1 assembled) (by decide)

end Sources

end Assembly
end FloatMachine
