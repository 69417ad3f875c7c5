import FloatMachine.Devices.Peripheral
import FloatMachine.Proofs.DecimalText
import FloatMachine.Proofs.Untexted

/-! Programs written out again. A listing has the source form of every instruction on the line
it came from, and assembles to the same program but for the texts. -/
namespace FloatMachine

theorem Text.runs_intercalate {p : Char → Bool} {separator : Char} (separates : p separator = true)
    {words : List (List Char)} (nonempty : ∀ w ∈ words, w ≠ [])
    (inside : ∀ w ∈ words, ∀ c ∈ w, p c = false) :
    runs p ([separator].intercalate words) = words := by
  induction words with
  | nil => exact runs_nil p
  | cons w words ih =>
    obtain ⟨first, rest⟩ := List.forall_mem_cons.1 nonempty
    obtain ⟨plain, others⟩ := List.forall_mem_cons.1 inside
    cases words with
    | nil =>
      have nothing : ∀ c ∈ ([] : List Char).head?, p c = true := by simp
      have alone := runs_word first plain nothing
      rw [List.append_nil, runs_nil] at alone
      rw [List.intercalate_singleton, alone]
    | cons v words =>
      have next : ∀ c ∈ (separator :: [separator].intercalate (v :: words)).head?, p c = true := by
        simpa using separates
      rw [List.intercalate_cons_cons, List.append_assoc, List.singleton_append,
        runs_word first plain next, runs_separator separates, ih rest others]

namespace Assembly

section Printed

theorem Place.printed (d : Destination) : Place d.toText.toList d := by
  cases d with
  | stackPointer => exact .stackPointer
  | returnAddress => exact .returnAddress
  | register i =>
    have place : Place ('r' :: Nat.toDigits 10 i.toNat) _ :=
      .register (Digits.toDigits _) (by rw [Digits.value_toDigits]; exact i.toNat_lt)
    rw [Digits.value_toDigits, UInt32.ofNat_toNat] at place
    rw [show (Destination.register i).toText = "r" ++ Nat.repr i.toNat from rfl,
      String.toList_append, Nat.toList_repr]
    exact place
  | device a =>
    have place : Place ('d' :: (Nat.toDigits 10 a.slot.toNat ++ ':' ::
        Nat.toDigits 10 a.register.toNat)) _ :=
      .device (Digits.toDigits _) (by rw [Digits.value_toDigits]; exact a.slot.toNat_lt)
        (Digits.toDigits _) (by rw [Digits.value_toDigits]; exact a.register.toNat_lt)
    rw [Digits.value_toDigits, Digits.value_toDigits, UInt16.ofNat_toNat, UInt16.ofNat_toNat]
      at place
    rw [show (Destination.device a).toText =
        "d" ++ Nat.repr a.slot.toNat ++ ":" ++ Nat.repr a.register.toNat from rfl]
    simpa [String.toList_append, Nat.toList_repr] using place

theorem Literal.finite {word : List Char} {v : Binary32} (literal : Literal word v) :
    v.isFinite = true := by
  cases literal with
  | whole _ _ decimal => exact decimal.finite
  | fraction _ _ _ decimal => exact decimal.finite

theorem Source.printed {word : List Char} {o : Operand} (source : Source word o) :
    Source o.toText.toList o := by
  cases source with
  | literal literal => exact .literal (literal_toDecimal literal.finite)
  | place place =>
    rename_i d
    have same : d.toOperand.toText = d.toText := by cases d <;> rfl
    rw [same]
    exact .place (.printed d)

theorem positions_take {operands : List Operand} {count : Nat} (few : count ≤ 2)
    (all : operands.length = count) :
    [(positions operands).1, (positions operands).2].take count = operands := by
  subst all
  match operands with
  | [] => rfl
  | [_] => rfl
  | [_, _] => rfl
  | _ :: _ :: _ :: _ => simp at few

def printedWords (i : Instruction) : List (List Char) :=
  i.operation.mnemonic.toList :: (i.destination.toList.map (·.toText.toList) ++
    ([i.left, i.right].take i.operation.shape.operandCount).map (·.toText.toList))

theorem toText_words (i : Instruction) : i.toText.toList = [' '].intercalate (printedWords i) := by
  rw [Instruction.toText, String.toList_intercalate]
  simp [printedWords, Function.comp_def]

theorem Arguments.printed {shape : Shape} {ws : List (List Char)} {d : Option Destination}
    {operands : Operand × Operand} (form : Arguments shape ws d operands) :
    Arguments shape (d.toList.map (·.toText.toList) ++
      ([operands.1, operands.2].take shape.operandCount).map (·.toText.toList)) d operands := by
  have few : shape.operandCount ≤ 2 := by cases shape <;> decide
  have again : ∀ {sources : List (List Char)} {os : List Operand},
      List.Forall₂ Source sources os → List.Forall₂ Source (os.map (·.toText.toList)) os := by
    intro sources os each
    induction each with
    | nil => exact .nil
    | cons source _ ih => exact .cons source.printed ih
  cases form with
  | plain takes count sources =>
    rw [positions_take few count]
    exact .plain takes count (again sources)
  | targeted takes place count sources =>
    rw [positions_take few count]
    exact .targeted takes (.printed _) count (again sources)

theorem Denotes.printed {ws : List (List Char)} {i : Instruction}
    (denotes : Denotes ws i.operation i.destination (i.left, i.right)) :
    Denotes (printedWords i) i.operation i.destination (i.left, i.right) := by
  obtain ⟨args, -, form⟩ := denotes
  exact ⟨_, rfl, form.printed⟩

end Printed

section Plain

/-- A character that neither ends a word nor begins a comment. -/
def WordChar (c : Char) : Prop := isSeparator c = false ∧ c ≠ '#'

instance (c : Char) : Decidable (WordChar c) := inferInstanceAs (Decidable (_ ∧ _))

theorem wordChars_of_all {s : List Char} (all : s.all (fun c => decide (WordChar c)) = true) :
    ∀ c ∈ s, WordChar c := by
  simpa using all

theorem wordChar_digit {c : Char} (digit : c.isDigit = true) : WordChar c := by
  have range : 48 ≤ c.toNat ∧ c.toNat ≤ 57 := by
    simpa [Char.isDigit, UInt32.le_iff_toNat_le] using digit
  have other : ∀ d : Char, d.toNat < 48 → c ≠ d := by
    rintro d small rfl
    omega
  refine ⟨?_, other '#' (by decide)⟩
  simp only [isSeparator, Text.isBlank, Bool.or_eq_false_iff, beq_eq_false_iff_ne]
  refine ⟨other ',' (by decide), ?_⟩
  simp
  omega

theorem Digits.wordChars {s : List Char} (digits : Digits s) : ∀ c ∈ s, WordChar c :=
  fun c member => wordChar_digit (digits.digits c member)

theorem Place.wordChars {word : List Char} {d : Destination} (place : Place word d) :
    ∀ c ∈ word, WordChar c := by
  cases place with
  | stackPointer => exact wordChars_of_all (by decide)
  | returnAddress => exact wordChars_of_all (by decide)
  | register form => exact List.forall_mem_cons.2 ⟨by decide, form.wordChars⟩
  | device first _ second _ =>
    refine List.forall_mem_cons.2 ⟨by decide, List.forall_mem_append.2 ⟨first.wordChars, ?_⟩⟩
    exact List.forall_mem_cons.2 ⟨by decide, second.wordChars⟩

theorem Sign.wordChars {s : List Char} {negative : Bool} (sign : Sign s negative) :
    ∀ c ∈ s, WordChar c := by
  cases sign <;> exact wordChars_of_all (by decide)

theorem Literal.wordChars {word : List Char} {v : Binary32} (literal : Literal word v) :
    ∀ c ∈ word, WordChar c := by
  cases literal with
  | whole sign digits => exact List.forall_mem_append.2 ⟨sign.wordChars, digits.wordChars⟩
  | fraction sign digits places =>
    refine List.forall_mem_append.2
      ⟨sign.wordChars, List.forall_mem_append.2 ⟨digits.wordChars, ?_⟩⟩
    exact List.forall_mem_cons.2 ⟨by decide, places.wordChars⟩

theorem mnemonic_wordChars (op : Operation) : ∀ c ∈ op.mnemonic.toList, WordChar c := by
  cases op <;> exact wordChars_of_all (by decide)

theorem Source.word {word : List Char} {o : Operand} (source : Source word o) :
    word ≠ [] ∧ ∀ c ∈ word, WordChar c := by
  cases source with
  | literal literal =>
    obtain ⟨_, _, rfl, -⟩ := literal.head
    exact ⟨by simp, literal.wordChars⟩
  | place place =>
    obtain ⟨_, _, rfl, -⟩ := place.head
    exact ⟨by simp, place.wordChars⟩

theorem Denotes.word {ws : List (List Char)} {op : Operation} {d : Option Destination}
    {operands : Operand × Operand} (denotes : Denotes ws op d operands) :
    ∀ w ∈ ws, w ≠ [] ∧ ∀ c ∈ w, WordChar c := by
  obtain ⟨args, rfl, form⟩ := denotes
  have each : ∀ {sources : List (List Char)} {os : List Operand}, List.Forall₂ Source sources os →
      ∀ w ∈ sources, w ≠ [] ∧ ∀ c ∈ w, WordChar c := by
    intro sources os all
    induction all with
    | nil => simp
    | cons source _ ih => exact List.forall_mem_cons.2 ⟨source.word, ih⟩
  refine List.forall_mem_cons.2 ⟨⟨?_, mnemonic_wordChars op⟩, ?_⟩
  · cases op <;> decide
  · cases form with
    | plain _ _ sources => exact each sources
    | targeted _ place _ sources =>
      exact List.forall_mem_cons.2 ⟨(Source.place place).word, each sources⟩

end Plain

section Lines

variable {i : Instruction} {ws : List (List Char)}

theorem mem_intercalate {c separator : Char} {words : List (List Char)}
    (member : c ∈ [separator].intercalate words) : c = separator ∨ ∃ w ∈ words, c ∈ w := by
  induction words with
  | nil => simp at member
  | cons w words ih =>
    cases words with
    | nil => exact Or.inr ⟨w, List.mem_cons_self, by simpa using member⟩
    | cons v words =>
      rw [List.intercalate_cons_cons, List.append_assoc, List.mem_append, List.mem_append,
        List.mem_singleton] at member
      rcases member with inside | same | later
      · exact Or.inr ⟨w, List.mem_cons_self, inside⟩
      · exact Or.inl same
      · refine (ih later).imp_right ?_
        rintro ⟨u, found, inside⟩
        exact ⟨u, List.mem_cons_of_mem _ found, inside⟩

theorem toText_chars (denotes : Denotes ws i.operation i.destination (i.left, i.right)) :
    ∀ c ∈ i.toText.toList, c = ' ' ∨ WordChar c := by
  intro c member
  rw [toText_words] at member
  rcases mem_intercalate member with space | ⟨w, found, inside⟩
  · exact Or.inl space
  · exact Or.inr ((denotes.printed.word w found).2 c inside)

theorem toText_lacks (denotes : Denotes ws i.operation i.destination (i.left, i.right)) {c : Char}
    (other : c ≠ ' ' ∧ ¬ WordChar c) : c ∉ i.toText.toList := by
  intro member
  rcases toText_chars denotes c member with space | word
  · exact other.1 space
  · exact other.2 word

/-- The source form of an instruction that some words denote is words that denote it. -/
theorem denotes_toText (denotes : Denotes ws i.operation i.destination (i.left, i.right)) :
    Denotes (words i.toText.toList) i.operation i.destination (i.left, i.right) := by
  have plain : '#' ∉ i.toText.toList := toText_lacks denotes (by decide)
  rw [words, stripComment, beforeComment_of_plain plain, toText_words,
    Text.runs_intercalate (by decide)]
  · exact denotes.printed
  · exact fun w found => (denotes.printed.word w found).1
  · exact fun w found c inside => ((denotes.printed.word w found).2 c inside).1

end Lines

/-- Lines from one with this number on, each holding the source form of the instruction that comes
from it, or nothing. The instructions stand in the order of their lines. -/
inductive Lists : Nat → List (List Char) → List Instruction → Prop
  | done {number : Nat} {ls : List (List Char)} : (∀ line ∈ ls, line = []) → Lists number ls []
  | empty {number : Nat} {rest : List (List Char)} {i : Instruction} {is : List Instruction} :
      i.line ≠ UInt64.ofNat number → Lists (number + 1) rest (i :: is) →
      Lists number ([] :: rest) (i :: is)
  | instruction {number : Nat} {rest : List (List Char)} {i : Instruction}
      {is : List Instruction} : i.line = UInt64.ofNat number → Lists (number + 1) rest is →
      Lists number (i.toText.toList :: rest) (i :: is)

def listedFrom (number : UInt64) : List Instruction → List (List Char)
  | [] => []
  | i :: is =>
    List.replicate (i.line - number).toNat [] ++ i.toText.toList :: listedFrom (i.line + 1) is

/-- The source form of a program, every instruction on the line that it came from. -/
def listing (p : Program) : String :=
  String.ofList ((listedFrom 1 p.instructions).flatMap (· ++ ['\n']))

section Listing

def Sourced (is : List Instruction) : Prop :=
  ∀ i ∈ is, ∃ ws, Denotes ws i.operation i.destination (i.left, i.right)

theorem Reads.sourced {number : Nat} {ls : List (List Char)} {is : List Instruction}
    (reads : Reads number ls is) : Sourced is := by
  induction reads with
  | done => exact List.forall_mem_nil _
  | blank _ _ ih => exact ih
  | instruction written _ ih =>
    exact List.forall_mem_cons.2 ⟨⟨_, (written_iff.1 written).1⟩, ih⟩

theorem Lists.reads {number : Nat} {ls : List (List Char)} {is : List Instruction}
    (lists : Lists number ls is) (sourced : Sourced is) :
    ∃ js, Reads number ls js ∧ js.map Instruction.untexted = is.map Instruction.untexted := by
  induction lists with
  | done empty => exact ⟨[], reads_nil empty, rfl⟩
  | empty _ _ ih =>
    obtain ⟨js, reads, same⟩ := ih sourced
    exact ⟨js, .blank blank_nil reads, same⟩
  | @instruction number rest i is line _ ih =>
    obtain ⟨⟨ws, denotes⟩, others⟩ := List.forall_mem_cons.1 sourced
    obtain ⟨js, reads, same⟩ := ih others
    let text := String.ofList (Text.trim (stripComment i.toText.toList))
    have written : Written number i.toText.toList { i with text } :=
      written_iff.2 ⟨denotes_toText denotes, line, rfl⟩
    refine ⟨_, .instruction written reads, ?_⟩
    rw [List.map_cons, List.map_cons, same, Instruction.untexted, Instruction.untexted]

theorem lists_gap {number gap : Nat} {rest : List (List Char)} {i : Instruction}
    {is : List Instruction} (distance : (i.line - UInt64.ofNat number).toNat = gap)
    (lists : Lists (number + gap + 1) rest is) :
    Lists number (List.replicate gap [] ++ i.toText.toList :: rest) (i :: is) := by
  induction gap generalizing number with
  | zero =>
    have line : i.line - UInt64.ofNat number = 0 := UInt64.toNat_inj.1 distance
    exact .instruction (by grind) lists
  | succ gap ih =>
    have other : i.line ≠ UInt64.ofNat number := by
      intro same
      simp [same] at distance
    have next : (i.line - UInt64.ofNat (number + 1)).toNat = gap := by
      have before : i.line - UInt64.ofNat (number + 1) = i.line - UInt64.ofNat number - 1 := by
        rw [UInt64.ofNat_add]
        grind
      rw [before, UInt64.toNat_sub, distance]
      have := (i.line - UInt64.ofNat number).toNat_lt
      simp
      omega
    exact .empty other (ih next (by rwa [Nat.add_right_comm number 1 gap]))

theorem lists_listedFrom (number : Nat) (is : List Instruction) :
    Lists number (listedFrom (UInt64.ofNat number) is) is := by
  induction is generalizing number with
  | nil => exact .done (List.forall_mem_nil _)
  | cons i is ih =>
    have next : i.line + 1 = UInt64.ofNat (number + (i.line - UInt64.ofNat number).toNat + 1) := by
      rw [UInt64.ofNat_add, UInt64.ofNat_add, UInt64.ofNat_toNat]
      grind
    rw [listedFrom, next]
    exact lists_gap rfl (ih _)

theorem listedFrom_single {is : List Instruction} (sourced : Sourced is) (number : UInt64) :
    ∀ line ∈ listedFrom number is, '\n' ∉ line ∧ '\r' ∉ line := by
  induction is generalizing number with
  | nil => exact List.forall_mem_nil _
  | cons i is ih =>
    obtain ⟨⟨ws, denotes⟩, others⟩ := List.forall_mem_cons.1 sourced
    rw [listedFrom, List.forall_mem_append, List.forall_mem_cons]
    refine ⟨?_, ⟨toText_lacks denotes (by decide), toText_lacks denotes (by decide)⟩, ih others _⟩
    intro line member
    rw [List.eq_of_mem_replicate member]
    simp

theorem lists_listing {p : Program} (sourced : Sourced p.instructions) :
    Lists 1 (Text.lines (listing p).toList) p.instructions := by
  rw [listing, String.toList_ofList, Text.lines_ended (listedFrom_single sourced 1)]
  exact lists_listedFrom 1 p.instructions

end Listing

/-- An assembled program has a listing, and every listing of it assembles to that program but for
the texts of its instructions, so that every machine makes the same runs with both. -/
theorem listing_assembles {source : String} {p : Program} (assembled : assemble source = .ok p) :
    Lists 1 (Text.lines (listing p).toList) p.instructions ∧
    ∀ text, Lists 1 (Text.lines text.toList) p.instructions →
      ∃ q, assemble text = .ok q ∧ q.untexted = p.untexted ∧
        ∀ {δ : Type} [Device δ] (m : Machine δ), m.SameRuns q p := by
  obtain ⟨reads, needs⟩ := assemble_iff.1 assembled
  have sourced := reads.sourced
  refine ⟨lists_listing sourced, ?_⟩
  intro text lists
  obtain ⟨js, again, same⟩ := lists.reads sourced
  have untexted : (Program.ofInstructions js).untexted = p.untexted :=
    Program.untexted_eq same rfl needs
  exact ⟨.ofInstructions js, assemble_iff.2 ⟨again, rfl⟩, untexted,
    fun m => Machine.sameRuns_of_untexted untexted m⟩

theorem listing_assembles_gap :
    let p := Program.ofInstructions
      [⟨.move, some (.register 7), .literal ⟨0xbf000000⟩, .unused, 1, "mov r007 -0.50"⟩,
        ⟨.add, some .stackPointer, .register 7, .device ⟨2, 3⟩, 3, "add sp,r7,d02:3"⟩]
    assemble "mov r007 -0.50 # start\n\nadd sp,r7,d02:3" = .ok p ∧
      listing p = "mov r7 -0.5\n\nadd sp r7 d2:3\n" ∧
      ∃ q, assemble (listing p) = .ok q ∧ q.untexted = p.untexted ∧
        (Machine.new {} #[] : Machine Peripheral).SameRuns q p := by
  intro p
  have assembled : assemble "mov r007 -0.50 # start\n\nadd sp,r7,d02:3" = .ok p := by
    decide +kernel
  obtain ⟨lists, each⟩ := listing_assembles assembled
  obtain ⟨q, again, same, runs⟩ := each _ lists
  exact ⟨assembled, by decide +kernel, q, again, same, runs _⟩

end Assembly
end FloatMachine
