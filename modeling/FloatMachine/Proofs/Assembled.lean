import FloatMachine.Assembly.Parser
import FloatMachine.Proofs.TextForm

/-! What the assembler hands on: its programs are valid, so the loader takes their images back
unless they are too long for it. -/
namespace FloatMachine.Assembly

theorem arity_pos {s : Shape} (takes : s.hasDestination = true) : 0 < s.arity := by
  simp [Shape.arity, takes]

theorem readArguments_destination {op : Operation} {args : List Token}
    {found : Option Destination × Operand × Operand} (count : args.length = op.shape.arity)
    (read : readArguments op args = .ok found) :
    found.1.isSome = op.shape.hasDestination := by
  unfold readArguments at read
  split at read
  · rename_i takes
    simp only [reading_bind, reading_pure] at read
    obtain ⟨d, -, _, rfl, operands, -, last⟩ := read
    have kept : found.1 = some d := by
      split at last <;> cases last <;> rfl
    rw [kept, takes]
    rfl
  · rename_i other
    simp only [reading_bind, reading_pure] at read
    obtain ⟨_, rfl, operands, -, last⟩ := read
    have kept : found.1 = none := by
      split at last <;> cases last <;> rfl
    have without : op.shape.hasDestination = false := by
      by_contra h
      have takes : op.shape.hasDestination = true := by simpa using h
      obtain ⟨d, rest, present⟩ := List.exists_cons_of_length_pos (count ▸ arity_pos takes)
      exact other d rest takes present
    rw [kept, without]
    rfl

theorem readInstruction_shaped {line : Nat} {code : List Char} {i : Instruction}
    (read : readInstruction line code = .ok i) : i.WellShaped := by
  unfold readInstruction at read
  split at read
  · cases read
  · simp only [reading_bind, reading_unless, reading_pure, ne_eq, Decidable.not_not] at read
    obtain ⟨op, -, count, found, arguments, rfl⟩ := read
    exact readArguments_destination count arguments

theorem readLine_shaped {line : Nat} {raw : List Char} {i : Instruction}
    (read : readLine line raw = .ok (some i)) : i.WellShaped := by
  unfold readLine at read
  dsimp only at read
  split at read
  · cases read
  · split at read
    · rename_i found
      cases read
      exact readInstruction_shaped found
    · cases read

theorem assemble_ok {source : String} {p : Program} :
    assemble source = .ok p ↔ ∃ found, readLines source.toList = .ok found ∧
      Program.ofInstructions (found.filterMap id) = p := by
  simp only [assemble, reading_bind, reading_pure]

theorem assembled_shaped {source : String} {p : Program} (assembled : assemble source = .ok p) :
    ∀ i ∈ p.instructions, i.WellShaped := by
  obtain ⟨found, read, rfl⟩ := assemble_ok.1 assembled
  intro i member
  obtain ⟨_, line, rfl⟩ := List.mem_filterMap.1 member
  obtain ⟨⟨raw, number⟩, -, one⟩ := mapM_mem read line
  exact readLine_shaped one

theorem assembled_loadable {source : String} {p : Program} (assembled : assemble source = .ok p) :
    p.Loadable ↔ p.Limited := by
  constructor
  · intro loadable
    exact loadable.toLimited
  · intro limited
    -- shapes and requirements come with the assembly, only the lengths are open
    obtain ⟨found, _, same⟩ := assemble_ok.1 assembled
    exact ⟨limited, assembled_shaped assembled, same ▸ rfl⟩

/-- The text form of an assembled program reads back as that program exactly when neither the
program nor a line of it is too long. -/
theorem text_form_reloads {source : String} {p : Program} (assembled : assemble source = .ok p) :
    Program.fromText p.toText = .ok p ↔
      p.instructions.length ≤ 0x100000 ∧
        ∀ i ∈ p.instructions, i.text.utf8ByteSize ≤ 0x100000 := by
  rw [Program.fromText_toText, Program.fromBytes_ok, assembled_loadable assembled]
  constructor
  · rintro ⟨-, limited⟩
    exact ⟨limited.count, limited.texts⟩
  · rintro ⟨count, texts⟩
    exact ⟨rfl, count, texts⟩

theorem text_form_reloads_jump :
    let p := Program.ofInstructions
      [⟨.move, some (.register 0), .literal ⟨0xbf000000⟩, .unused, 1, "mov r0, -0.5"⟩,
        ⟨.jump, none, .literal .one, .unused, 3, "jmp 1"⟩]
    assemble "mov r0, -0.5 # start\n\njmp 1" = .ok p ∧ Program.fromText p.toText = .ok p := by
  intro p
  have assembled : assemble "mov r0, -0.5 # start\n\njmp 1" = .ok p := by decide +kernel
  exact ⟨assembled, (text_form_reloads assembled).2 ⟨by decide, by decide⟩⟩

/-- A line that does nothing, followed by commas, which count as separators and stay in the
text of the instruction. -/
def padded (commas : Nat) : List Char := ['n', 'o', 'p'] ++ List.replicate commas ','

def paddedProgram (commas : Nat) : Program :=
  .ofInstructions [⟨.nop, none, .unused, .unused, 1, String.ofList (padded commas)⟩]

theorem padded_chars {commas : Nat} {c : Char} (member : c ∈ padded commas) :
    c = 'n' ∨ c = 'o' ∨ c = 'p' ∨ c = ',' := by
  simp only [padded, List.cons_append, List.nil_append, List.mem_cons, List.mem_replicate] at member
  rcases member with first | second | third | ⟨-, comma⟩
  · exact Or.inl first
  · exact Or.inr (Or.inl second)
  · exact Or.inr (Or.inr (Or.inl third))
  · exact Or.inr (Or.inr (Or.inr comma))

theorem beforeComment_of_plain {s : List Char} (plain : '#' ∉ s) (escaped : Bool) :
    beforeComment escaped s = s := by
  induction s generalizing escaped with
  | nil => rfl
  | cons c s ih =>
    obtain ⟨first, rest⟩ := not_or.1 (List.mem_cons.not.1 plain)
    have other : (c == '#') = false := by simpa using Ne.symm first
    simp [beforeComment, other, ih rest]

theorem tokensFrom_separators {s : List Char} (only : ∀ c ∈ s, isSeparator c = true)
    (column : Nat) : tokensFrom column s = [] := by
  induction s generalizing column with
  | nil => rw [tokensFrom]
  | cons c s ih =>
    obtain ⟨first, rest⟩ := List.forall_mem_cons.1 only
    rw [tokensFrom_separator column s first, ih rest]

theorem tokens_padded (commas : Nat) : tokens (padded commas) = [⟨['n', 'o', 'p'], 1⟩] := by
  have separators : ∀ c ∈ List.replicate commas ',', isSeparator c = true := by
    intro c member
    rw [List.eq_of_mem_replicate member]
    rfl
  have after : ∀ c ∈ (List.replicate commas ',').head?, isSeparator c = true := by
    intro c first
    exact separators c (List.mem_of_mem_head? first)
  have letters : ∀ c ∈ ['n', 'o', 'p'], isSeparator c = false := by
    simp only [List.forall_mem_cons]
    exact ⟨rfl, rfl, rfl, by simp⟩
  rw [tokens, padded, tokensFrom_word 1 (by simp) letters after, tokensFrom_separators separators]

theorem assemble_padded (commas : Nat) :
    assemble (String.ofList (padded commas)) = .ok (paddedProgram commas) := by
  have plain : ∀ c ∈ padded commas, c ≠ '#' ∧ c ≠ '\n' ∧ Text.isBlank c = false := by
    intro c member
    rcases padded_chars member with rfl | rfl | rfl | rfl <;> decide
  -- the text is one line without a comment, and commas are no blanks to be trimmed off
  have one : Text.lines (padded commas) = [padded commas] := by
    rw [Text.lines, List.splitOn_eq_singleton fun newline => (plain _ newline).2.1 rfl]
    rfl
  have uncommented : stripComment (padded commas) = padded commas :=
    beforeComment_of_plain (fun hash => (plain _ hash).1 rfl) false
  have trimmed : Text.trim (padded commas) = padded commas :=
    Text.trim_of_plain fun c member => (plain c member).2.2
  have read : readLine 1 (padded commas) =
      .ok (some ⟨.nop, none, .unused, .unused, 1, String.ofList (padded commas)⟩) := by
    have code : ¬ (padded commas).all Text.isBlank = true := by
      simp [padded, Text.isBlank]
    simp only [readLine, uncommented, if_neg code, readInstruction, tokens_padded, trimmed]
    rfl
  rw [assemble_ok]
  refine ⟨[some ⟨.nop, none, .unused, .unused, 1, String.ofList (padded commas)⟩], ?_, rfl⟩
  rw [String.toList_ofList, readLines, one, mapM_ok]
  exact .cons read .nil

theorem padded_size (commas : Nat) : (String.ofList (padded commas)).utf8ByteSize = 3 + commas := by
  have ascii : ∀ byte ∈ ([110, 111, 112] ++ List.replicate commas 44 : Bytes),
      byte.toNat < 128 := by
    intro byte member
    simp only [List.cons_append, List.nil_append, List.mem_cons, List.mem_replicate] at member
    rcases member with rfl | rfl | rfl | ⟨-, rfl⟩ <;> decide
  have same : ([110, 111, 112] ++ List.replicate commas 44 : Bytes).map (fun byte =>
      Char.ofNat byte.toNat) = padded commas := by
    simp [padded]
  have bytes := utf8_of_ascii ascii
  rw [same] at bytes
  rw [← Codec.length_utf8, bytes, List.length_append, List.length_replicate]
  rfl

/-- Two to the power of twenty is the greatest length read back, and this line is one longer. -/
theorem long_line_is_lost :
    assemble (String.ofList (padded 0xffffe)) = .ok (paddedProgram 0xffffe) ∧
      Program.fromText (paddedProgram 0xffffe).toText ≠ .ok (paddedProgram 0xffffe) := by
  refine ⟨assemble_padded _, ?_⟩
  rw [Program.fromText_toText, ne_eq, Program.fromBytes_ok]
  rintro ⟨-, loadable⟩
  have fits := loadable.texts _ List.mem_cons_self
  rw [Instruction.Limited, padded_size] at fits
  omega

end FloatMachine.Assembly
