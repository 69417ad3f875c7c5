import FloatMachine.Proofs.SourceText

/-! What a source text denotes, line by line. The assembler takes exactly the texts that denote a
program, and the words of the lines settle all of it but the texts of the instructions. -/
namespace FloatMachine

/-- What a machine executes of an instruction. -/
def Instruction.untexted (i : Instruction) : Instruction := { i with text := "" }

def Program.untexted (p : Program) : Program :=
  ⟨p.instructions.map Instruction.untexted, p.requirements⟩

theorem Requirements.of_untexted (is : List Instruction) :
    Requirements.of (is.map Instruction.untexted) = Requirements.of is := by
  have counted : ∀ t : Tally, (is.map Instruction.untexted).foldl Tally.count t =
      is.foldl Tally.count t := by
    intro t
    rw [List.foldl_map]
    rfl
  rw [Requirements.of, Requirements.of, counted]

theorem Program.untexted_eq {p q : Program}
    (same : p.instructions.map Instruction.untexted = q.instructions.map Instruction.untexted)
    (needs : p.requirements = Requirements.of p.instructions)
    (others : q.requirements = Requirements.of q.instructions) : p.untexted = q.untexted := by
  rw [untexted, untexted, needs, others, ← Requirements.of_untexted p.instructions, same,
    Requirements.of_untexted]

namespace Assembly

/-- Nothing but blanks before the comment. -/
def Blank (raw : List Char) : Prop :=
  ∃ code, CodeOf raw code ∧ ∀ c ∈ code, Text.isBlank c = true

/-- An instruction before the comment. -/
def Grammatical (raw : List Char) : Prop :=
  ∃ code, CodeOf raw code ∧ ∃ op d operands, Denotes (Text.runs isSeparator code) op d operands

/-- The instruction that stands on a line, which is the one with this number. -/
def Written (number : Nat) (raw : List Char) (i : Instruction) : Prop :=
  ∃ code, CodeOf raw code ∧
    Denotes (Text.runs isSeparator code) i.operation i.destination (i.left, i.right) ∧
    i.line = UInt64.ofNat number ∧ i.text = String.ofList (Text.trim code)

/-- Lines from one with this number on, and the instructions that stand on them. -/
inductive Reads : Nat → List (List Char) → List Instruction → Prop
  | done {number : Nat} : Reads number [] []
  | blank {number : Nat} {raw : List Char} {rest : List (List Char)} {is : List Instruction} :
      Blank raw → Reads (number + 1) rest is → Reads number (raw :: rest) is
  | instruction {number : Nat} {raw : List Char} {rest : List (List Char)} {i : Instruction}
      {is : List Instruction} :
      Written number raw i → Reads (number + 1) rest is → Reads number (raw :: rest) (i :: is)

/-- The words of a line of a source text, counted from zero; none beyond the end. -/
def lineWords (source : String) (n : Nat) : List (List Char) :=
  words (((Text.lines source.toList)[n]?).getD [])

section Words

theorem Denotes.unique {ws : List (List Char)} {op other : Operation}
    {d e : Option Destination} {operands others : Operand × Operand}
    (first : Denotes ws op d operands) (second : Denotes ws other e others) :
    op = other ∧ d = e ∧ operands = others := by
  obtain ⟨args, rfl, form⟩ := first
  obtain ⟨_, same, form'⟩ := second
  obtain ⟨name, rfl⟩ := List.cons.inj same
  have mnemonic : Operation.ofMnemonic? op.mnemonic = Operation.ofMnemonic? other.mnemonic :=
    congrArg _ (String.toList_injective name)
  rw [Operation.ofMnemonic?_mnemonic, Operation.ofMnemonic?_mnemonic] at mnemonic
  cases mnemonic
  -- the reader finds one answer for the tokens of these words
  have tokens : args = (args.map fun w => (⟨w, 0⟩ : Token)).map Token.text := by
    rw [List.map_map]
    exact (List.map_id _).symm
  rw [tokens] at form form'
  have read := (readArguments_ok.2 form).2.symm.trans (readArguments_ok.2 form').2
  cases read
  exact ⟨rfl, rfl, rfl⟩

theorem Denotes.nonempty {ws : List (List Char)} {op : Operation} {d : Option Destination}
    {operands : Operand × Operand} (denotes : Denotes ws op d operands) : ws ≠ [] := by
  obtain ⟨args, rfl, -⟩ := denotes
  simp

theorem blank_iff {raw : List Char} :
    Blank raw ↔ (stripComment raw).all Text.isBlank = true := by
  simp only [Blank, codeOf_iff, exists_eq_left', List.all_eq_true]

theorem grammatical_iff {raw : List Char} :
    Grammatical raw ↔ ∃ op d operands, Denotes (words raw) op d operands := by
  simp only [Grammatical, codeOf_iff, exists_eq_left', words]

theorem written_iff {number : Nat} {raw : List Char} {i : Instruction} :
    Written number raw i ↔
      Denotes (words raw) i.operation i.destination (i.left, i.right) ∧
        i.line = UInt64.ofNat number ∧
        i.text = String.ofList (Text.trim (stripComment raw)) := by
  simp only [Written, codeOf_iff, exists_eq_left', words]

theorem Blank.words {raw : List Char} (blank : Blank raw) : words raw = [] := by
  have separators : ∀ c ∈ stripComment raw, isSeparator c = true := by
    intro c member
    simp [isSeparator, List.all_eq_true.1 (blank_iff.1 blank) c member]
  rw [Assembly.words, ← tokensFrom_text 1, tokensFrom_separators separators, List.map_nil]

theorem Written.grammatical {number : Nat} {raw : List Char} {i : Instruction}
    (written : Written number raw i) : Grammatical raw :=
  grammatical_iff.2 ⟨_, _, _, (written_iff.1 written).1⟩

theorem Grammatical.words {raw : List Char} (grammatical : Grammatical raw) : words raw ≠ [] := by
  obtain ⟨_, _, _, denotes⟩ := grammatical_iff.1 grammatical
  exact denotes.nonempty

theorem Written.words {number : Nat} {raw : List Char} {i : Instruction}
    (written : Written number raw i) : words raw ≠ [] :=
  written.grammatical.words

theorem Grammatical.written {raw : List Char} (grammatical : Grammatical raw) (number : Nat) :
    ∃ i, Written number raw i := by
  obtain ⟨op, d, ⟨left, right⟩, denotes⟩ := grammatical_iff.1 grammatical
  exact ⟨⟨op, d, left, right, _, _⟩, written_iff.2 ⟨denotes, rfl, rfl⟩⟩

theorem Written.untexted {number : Nat} {raw other : List Char} {i j : Instruction}
    (first : Written number raw i) (second : Written number other j)
    (same : Assembly.words raw = Assembly.words other) : i.untexted = j.untexted := by
  obtain ⟨denotes, line, -⟩ := written_iff.1 first
  obtain ⟨denotes', line', -⟩ := written_iff.1 second
  obtain ⟨op, d, operands⟩ := (same ▸ denotes).unique denotes'
  obtain ⟨left, right⟩ := Prod.mk.inj operands
  simp only [Instruction.untexted, op, d, left, right, line, line']

end Words

section Reading

theorem readInstruction_ok {number : Nat} {code : List Char} {i : Instruction} :
    readInstruction number code = .ok i ↔
      Denotes (Text.runs isSeparator code) i.operation i.destination (i.left, i.right) ∧
        i.line = UInt64.ofNat number ∧ i.text = String.ofList (Text.trim code) := by
  rw [← tokensFrom_text 1 code]
  change _ ↔ Denotes ((tokens code).map Token.text) _ _ _ ∧ _
  unfold readInstruction
  generalize tokens code = ts
  cases ts with
  | nil =>
    constructor
    · intro read
      cases read
    · rintro ⟨⟨_, same, -⟩, -⟩
      cases same
  | cons head args =>
    simp only [reading_bind, reading_unless, reading_pure, readMnemonic_ok, ne_eq,
      Decidable.not_not, List.map_cons]
    constructor
    · rintro ⟨op, name, count, ⟨d, operands⟩, read, rfl⟩
      exact ⟨⟨_, by rw [name], readArguments_ok.1 ⟨count, read⟩⟩, rfl, rfl⟩
    · rintro ⟨⟨words, same, form⟩, line, text⟩
      obtain ⟨name, rfl⟩ := List.cons.inj same
      obtain ⟨count, read⟩ := readArguments_ok.2 form
      refine ⟨_, name, count, _, read, ?_⟩
      rw [← line, ← text]

theorem readLine_none {number : Nat} {raw : List Char} :
    readLine number raw = .ok none ↔ Blank raw := by
  rw [blank_iff, readLine]
  split
  · rename_i blank
    simp [blank]
  · rename_i code
    simp only [code, iff_false, Bool.false_eq_true]
    split <;> simp

theorem readLine_some {number : Nat} {raw : List Char} {i : Instruction} :
    readLine number raw = .ok (some i) ↔ Written number raw i := by
  rw [written_iff, words, ← readInstruction_ok, readLine]
  split
  · rename_i blank
    have nothing := (blank_iff.2 blank).words
    constructor
    · intro read
      cases read
    · intro read
      exact ((readInstruction_ok.1 read).1.nonempty nothing).elim
  · split
    · rename_i read
      simp [read]
    · rename_i read
      simp [read]

theorem Written.unique {number : Nat} {raw : List Char} {i j : Instruction}
    (first : Written number raw i) (second : Written number raw j) : i = j := by
  have same := (readLine_some.2 first).symm.trans (readLine_some.2 second)
  exact Option.some.inj (Except.ok.inj same)

theorem reads_iff {number : Nat} {ls : List (List Char)} {is : List Instruction} :
    Reads number ls is ↔ ∃ found,
      (ls.zipIdx number).mapM (fun (raw, line) => readLine line raw) = .ok found ∧
        found.filterMap id = is := by
  induction ls generalizing number is with
  | nil =>
    simp only [List.zipIdx_nil, List.mapM_nil, reading_pure, exists_eq_left', List.filterMap_nil]
    constructor
    · rintro ⟨⟩
      rfl
    · rintro rfl
      exact .done
  | cons raw rest ih =>
    simp only [List.zipIdx_cons, List.mapM_cons, reading_bind, reading_pure]
    constructor
    · intro reads
      cases reads with
      | blank blank reads =>
        obtain ⟨found, read, rfl⟩ := ih.1 reads
        exact ⟨none :: found, ⟨none, readLine_none.2 blank, found, read, rfl⟩, rfl⟩
      | instruction written reads =>
        obtain ⟨found, read, rfl⟩ := ih.1 reads
        exact ⟨some _ :: found, ⟨_, readLine_some.2 written, found, read, rfl⟩, rfl⟩
    · rintro ⟨_, ⟨one, first, found, read, rfl⟩, rfl⟩
      have reads := ih.2 ⟨found, read, rfl⟩
      cases one with
      | none => exact .blank (readLine_none.1 first) reads
      | some i => exact .instruction (readLine_some.1 first) reads

theorem assemble_iff {source : String} {p : Program} :
    assemble source = .ok p ↔ Reads 1 (Text.lines source.toList) p.instructions ∧
      p.requirements = Requirements.of p.instructions := by
  rw [assemble_ok, reads_iff]
  constructor
  · rintro ⟨found, read, rfl⟩
    exact ⟨⟨found, read, rfl⟩, rfl⟩
  · rintro ⟨⟨found, read, same⟩, needs⟩
    refine ⟨found, read, ?_⟩
    rw [same, Program.ofInstructions, ← needs]

theorem assembled_iff {source : String} : (∃ p, assemble source = .ok p) ↔
    ∃ is, Reads 1 (Text.lines source.toList) is := by
  constructor
  · rintro ⟨p, assembled⟩
    exact ⟨_, (assemble_iff.1 assembled).1⟩
  · rintro ⟨is, reads⟩
    exact ⟨.ofInstructions is, assemble_iff.2 ⟨reads, rfl⟩⟩

end Reading

section Lines

theorem exists_reads {number : Nat} {ls : List (List Char)} :
    (∃ is, Reads number ls is) ↔ ∀ raw ∈ ls, Blank raw ∨ Grammatical raw := by
  induction ls generalizing number with
  | nil =>
    constructor
    · rintro - raw member
      cases member
    · intro _
      exact ⟨[], .done⟩
  | cons raw rest ih =>
    rw [List.forall_mem_cons, ← @ih (number + 1)]
    constructor
    · rintro ⟨is, reads⟩
      cases reads with
      | blank blank reads => exact ⟨Or.inl blank, _, reads⟩
      | instruction written reads => exact ⟨Or.inr written.grammatical, _, reads⟩
    · rintro ⟨blank | grammatical, is, reads⟩
      · exact ⟨is, .blank blank reads⟩
      · obtain ⟨i, written⟩ := grammatical.written number
        exact ⟨i :: is, .instruction written reads⟩

theorem blank_nil : Blank [] := blank_iff.2 rfl

theorem reads_nil {number : Nat} {ls : List (List Char)} (empty : ∀ line ∈ ls, line = []) :
    Reads number ls [] := by
  induction ls generalizing number with
  | nil => exact .done
  | cons line ls ih =>
    obtain ⟨rfl, rest⟩ := List.forall_mem_cons.1 empty
    exact .blank blank_nil (ih rest)

theorem Reads.wordless {number : Nat} {ls : List (List Char)} {is : List Instruction}
    (reads : Reads number ls is) (none : ∀ raw ∈ ls, words raw = []) : is = [] := by
  induction reads with
  | done => rfl
  | blank _ _ ih => exact ih (List.forall_mem_cons.1 none).2
  | instruction written => exact (written.words (List.forall_mem_cons.1 none).1).elim

theorem words_nil : words [] = [] := Text.runs_nil _

theorem forall_words {ls : List (List Char)}
    (none : ∀ n : Nat, words ((ls[n]?).getD []) = []) : ∀ raw ∈ ls, words raw = [] := by
  intro raw member
  obtain ⟨n, found⟩ := List.mem_iff_getElem?.1 member
  simpa [found] using none n

theorem Reads.untexted {number : Nat} {ls others : List (List Char)} {is js : List Instruction}
    (first : Reads number ls is) (second : Reads number others js)
    (same : ∀ n : Nat, words ((ls[n]?).getD []) = words ((others[n]?).getD [])) :
    is.map Instruction.untexted = js.map Instruction.untexted := by
  induction first generalizing others js with
  | done =>
    have nothing := forall_words fun n => (same n).symm.trans words_nil
    rw [second.wordless nothing]
  | blank blank rest ih =>
    cases second with
    | done =>
      have nothing := forall_words fun n => same (n + 1)
      rw [rest.wordless nothing]
    | blank _ others => exact ih others fun n => same (n + 1)
    | instruction written => exact (written.words ((same 0).symm.trans blank.words)).elim
  | instruction written rest ih =>
    cases second with
    | done => exact (written.words (same 0)).elim
    | blank blank => exact (written.words ((same 0).trans blank.words)).elim
    | instruction other others =>
      rw [List.map_cons, List.map_cons, written.untexted other (same 0),
        ih others fun n => same (n + 1)]

/-- A text is rejected for its words alone, or because of a line that has none. -/
theorem assembled_of_words {source other : String} (assembled : ∃ p, assemble source = .ok p)
    (same : lineWords other = lineWords source) :
    (∃ p, assemble other = .ok p) ↔
      ∀ raw ∈ Text.lines other.toList, words raw = [] → Blank raw := by
  rw [assembled_iff, exists_reads] at *
  constructor
  · intro each raw member nothing
    rcases each raw member with blank | grammatical
    · exact blank
    · exact (grammatical.words nothing).elim
  · intro wordless raw member
    by_cases nothing : words raw = []
    · exact Or.inl (wordless raw member nothing)
    · obtain ⟨n, found⟩ := List.mem_iff_getElem?.1 member
      have line := congrFun same n
      simp only [lineWords, found, Option.getD_some] at line
      rcases source_line : (Text.lines source.toList)[n]? with _ | raw'
      · rw [source_line] at line
        exact (nothing (line.trans words_nil)).elim
      · rw [source_line, Option.getD_some] at line
        rcases assembled raw' (List.mem_of_getElem? source_line) with blank | grammatical
        · exact (nothing (line.trans blank.words)).elim
        · rw [grammatical_iff, ← line, ← grammatical_iff] at grammatical
          exact Or.inr grammatical

theorem blank_return (line : List Char) : Blank (line ++ ['\r']) ↔ Blank line := by
  rw [blank_iff, blank_iff]
  rcases stripComment_return line with same | ends
  · rw [same]
  · rw [ends, List.all_append]
    simp [Text.isBlank]

theorem written_return (line : List Char) (number : Nat) (i : Instruction) :
    Written number (line ++ ['\r']) i ↔ Written number line i := by
  have trimmed : Text.trim (stripComment (line ++ ['\r'])) = Text.trim (stripComment line) := by
    rcases stripComment_return line with same | ends
    · rw [same]
    · rw [ends, Text.trim_last_blank (by decide)]
  rw [written_iff, written_iff, words_return, trimmed]

theorem reads_returns {number : Nat} {ls others : List (List Char)} {is : List Instruction}
    (same : List.Forall₂ (fun line other => other = line ∨ other = line ++ ['\r']) ls others) :
    Reads number others is ↔ Reads number ls is := by
  induction same generalizing number is with
  | nil => rfl
  | @cons line other _ _ ending _ ih =>
    have blank : Blank other ↔ Blank line := by
      rcases ending with rfl | rfl
      · rfl
      · exact blank_return line
    have written : ∀ i, Written number other i ↔ Written number line i := by
      rcases ending with rfl | rfl
      · exact fun _ => Iff.rfl
      · exact written_return line number
    constructor
    · intro reads
      cases reads with
      | blank nothing reads => exact .blank (blank.1 nothing) (ih.1 reads)
      | instruction one reads => exact .instruction ((written _).1 one) (ih.1 reads)
    · intro reads
      cases reads with
      | blank nothing reads => exact .blank (blank.2 nothing) (ih.2 reads)
      | instruction one reads => exact .instruction ((written _).2 one) (ih.2 reads)

end Lines

theorem lineWords_eq {source other : String}
    (same : (Text.lines other.toList).map words = (Text.lines source.toList).map words) :
    lineWords other = lineWords source := by
  have form : ∀ s : String, ∀ n,
      lineWords s n = (((Text.lines s.toList).map words)[n]?).getD [] := by
    intro s n
    rw [lineWords, List.getElem?_map]
    cases (Text.lines s.toList)[n]? with
    | none => exact words_nil
    | some raw => rfl
  funext n
  rw [form, form, same]

/-- The assembler takes a text when every line is blank or grammatical, and finds the instructions
that stand on its lines. A text with the same words on its lines gives the same program but for
the texts of the instructions, unless a line of it has separators alone; and carriage returns before
the newlines change nothing. -/
theorem assembles_exactly (source : String) :
    ((∃ p, assemble source = .ok p) ↔
      ∀ raw ∈ Text.lines source.toList, Blank raw ∨ Grammatical raw) ∧
    (∀ p, assemble source = .ok p ↔ Reads 1 (Text.lines source.toList) p.instructions ∧
      p.requirements = Requirements.of p.instructions) ∧
    (∀ other p, assemble source = .ok p → lineWords other = lineWords source →
      ((∃ q, assemble other = .ok q) ↔
        ∀ raw ∈ Text.lines other.toList, words raw = [] → Blank raw) ∧
      ∀ q, assemble other = .ok q → q.untexted = p.untexted) ∧
    ∀ p, assemble (String.ofList (Text.withReturns source.toList)) = .ok p ↔
      assemble source = .ok p := by
  refine ⟨?_, fun p => assemble_iff, ?_, ?_⟩
  · rw [assembled_iff, exists_reads]
  · intro other p assembled same
    refine ⟨assembled_of_words ⟨p, assembled⟩ same, ?_⟩
    intro q accepted
    obtain ⟨first, needs⟩ := assemble_iff.1 accepted
    obtain ⟨second, needs'⟩ := assemble_iff.1 assembled
    exact Program.untexted_eq (first.untexted second (congrFun same)) needs needs'
  · intro p
    rw [assemble_iff, assemble_iff, String.toList_ofList,
      reads_returns (Text.lines_withReturns source.toList)]

theorem assembles_exactly_commas :
    let p := Program.ofInstructions
      [⟨.add, some (.register 0), .literal .one, .literal ⟨0xc0200000⟩, 1, "add r0, 1, -2.5"⟩,
        ⟨.jump, none, .literal .one, .unused, 3, "jmp 01"⟩]
    let q := Program.ofInstructions
      [⟨.add, some (.register 0), .literal .one, .literal ⟨0xc0200000⟩, 1, "add\tr0 1,-2.5"⟩,
        ⟨.jump, none, .literal .one, .unused, 3, ",jmp,,01"⟩]
    assemble "add r0, 1, -2.5 # sum\n\njmp 01" = .ok p ∧
      assemble "add\tr0 1,-2.5\r\n # none\r\n,jmp,,01" = .ok q ∧ q.untexted = p.untexted := by
  intro p q
  have first : assemble "add r0, 1, -2.5 # sum\n\njmp 01" = .ok p := by decide +kernel
  have second : assemble "add\tr0 1,-2.5\r\n # none\r\n,jmp,,01" = .ok q := by decide +kernel
  have same : lineWords "add\tr0 1,-2.5\r\n # none\r\n,jmp,,01" =
      lineWords "add r0, 1, -2.5 # sum\n\njmp 01" := lineWords_eq (by decide +kernel)
  exact ⟨first, second, ((assembles_exactly _).2.2.1 _ p first same).2 q second⟩

end Assembly
end FloatMachine
