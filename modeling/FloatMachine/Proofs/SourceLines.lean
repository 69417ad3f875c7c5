import FloatMachine.Proofs.SourceProgram

/-! Where the instructions of a program stand in its source. The assembler numbers the lines in
order, so the number of a line leads to the one instruction that is written there. -/
namespace FloatMachine.Assembly

/-- A line of a source text. Lines count from one. -/
def sourceLine (source : String) : Nat → Option (List Char)
  | 0 => none
  | n + 1 => (Text.lines source.toList)[n]?

/-- The instruction at that place of the program is written on line `n`. -/
def StandsOn (source : String) (p : Program) (n place : Nat) : Prop :=
  ∃ raw i, sourceLine source n = some raw ∧ p.instructions[place]? = some i ∧ Written n raw i

/-- No instruction is written on line `n`: it is blank or a comment, or there is no such line. -/
def Vacant (source : String) (n : Nat) : Prop := ∀ raw, sourceLine source n = some raw → Blank raw

theorem Blank.not_written {raw : List Char} (blank : Blank raw) {n : Nat} {i : Instruction} :
    ¬ Written n raw i :=
  fun written => written.words blank.words

theorem Written.line_toNat {n : Nat} {raw : List Char} {i : Instruction}
    (written : Written n raw i) (word : n < 2 ^ 64) : i.line.toNat = n := by
  obtain ⟨-, line, -⟩ := written_iff.1 written
  rw [line, UInt64.toNat_ofNat_of_lt' word]

section Reads

variable {number : Nat} {ls : List (List Char)} {is : List Instruction}

theorem Reads.sound (reads : Reads number ls is) {place : Nat} {i : Instruction}
    (found : is[place]? = some i) :
    ∃ offset raw, ls[offset]? = some raw ∧ Written (number + offset) raw i := by
  induction reads generalizing place with
  | done => cases found
  | blank _ _ ih =>
    obtain ⟨offset, raw, line, written⟩ := ih found
    exact ⟨offset + 1, raw, line, by rwa [Nat.add_right_comm] at written⟩
  | @instruction number raw _ j _ first _ ih =>
    cases place with
    | zero =>
      cases found
      exact ⟨0, raw, rfl, first⟩
    | succ place =>
      obtain ⟨offset, raw, line, written⟩ := ih found
      exact ⟨offset + 1, raw, line, by rwa [Nat.add_right_comm] at written⟩

theorem Reads.complete (reads : Reads number ls is) {offset : Nat} {raw : List Char}
    (line : ls[offset]? = some raw) :
    Blank raw ∨ ∃ (place : Nat) (i : Instruction),
      is[place]? = some i ∧ Written (number + offset) raw i := by
  induction reads generalizing offset with
  | done => cases line
  | blank blank _ ih =>
    cases offset with
    | zero =>
      cases line
      exact Or.inl blank
    | succ offset =>
      have later := ih line
      rwa [Nat.add_right_comm] at later
  | instruction first _ ih =>
    cases offset with
    | zero =>
      cases line
      exact Or.inr ⟨0, _, rfl, first⟩
    | succ offset =>
      rcases ih line with blank | ⟨place, i, found, written⟩
      · exact Or.inl blank
      · exact Or.inr ⟨place + 1, i, found, by rwa [Nat.add_right_comm] at written⟩

theorem Reads.line_bounds (reads : Reads number ls is) (word : number + ls.length ≤ 2 ^ 64)
    {i : Instruction} (member : i ∈ is) :
    number ≤ i.line.toNat ∧ i.line.toNat < number + ls.length := by
  obtain ⟨place, found⟩ := List.mem_iff_getElem?.1 member
  obtain ⟨offset, raw, line, written⟩ := reads.sound found
  obtain ⟨inside, -⟩ := List.getElem?_eq_some_iff.1 line
  have same := written.line_toNat (by omega)
  omega

theorem Reads.increasing (reads : Reads number ls is) (word : number + ls.length ≤ 2 ^ 64) :
    is.Pairwise fun i j => i.line.toNat < j.line.toNat := by
  induction reads with
  | done => exact .nil
  | blank _ _ ih =>
    rw [List.length_cons] at word
    exact ih (by omega)
  | instruction first rest ih =>
    rw [List.length_cons] at word
    refine .cons ?_ (ih (by omega))
    intro j later
    have here := first.line_toNat (by omega)
    have there := (rest.line_bounds (by omega) later).1
    omega

theorem Reads.append {rest : List (List Char)} {js : List Instruction}
    (reads : Reads number ls is) (others : Reads (number + ls.length) rest js) :
    Reads number (ls ++ rest) (is ++ js) := by
  induction reads with
  | done => exact others
  | blank blank _ ih =>
    rw [List.length_cons, ← Nat.add_assoc, Nat.add_right_comm] at others
    exact .blank blank (ih others)
  | instruction written _ ih =>
    rw [List.length_cons, ← Nat.add_assoc, Nat.add_right_comm] at others
    exact .instruction written (ih others)

end Reads

section Gapped

variable {ls : List (List Char)} {last : List Char}

/-- The text of some lines, then empty ones, and a last line. -/
def gapped (ls : List (List Char)) (count : Nat) (last : List Char) : String :=
  String.ofList ((ls ++ (List.replicate count [] ++ [last])).flatMap (· ++ ['\n']))

variable (plain : ∀ line ∈ last :: ls, '\n' ∉ line ∧ '\r' ∉ line) (count : Nat)

include plain

theorem lines_gapped :
    Text.lines (gapped ls count last).toList = ls ++ (List.replicate count [] ++ [last]) := by
  rw [gapped, String.toList_ofList, Text.lines_ended]
  intro line member
  rcases List.mem_append.1 member with early | late
  · exact plain line (List.mem_cons_of_mem last early)
  · rcases List.mem_append.1 late with empty | final
    · rw [List.eq_of_mem_replicate empty]
      exact ⟨List.not_mem_nil, List.not_mem_nil⟩
    · exact plain line (List.mem_singleton.1 final ▸ List.mem_cons_self)

theorem length_gapped :
    (Text.lines (gapped ls count last).toList).length = ls.length + (count + 1) := by
  rw [lines_gapped plain, List.length_append, List.length_append, List.length_replicate,
    List.length_singleton]

theorem assemble_gapped {is : List Instruction} {i : Instruction} (reads : Reads 1 ls is)
    (written : Written (1 + ls.length + count) last i) :
    assemble (gapped ls count last) = .ok (.ofInstructions (is ++ [i])) := by
  have gap : ∀ number, Reads number (List.replicate count []) [] := fun number =>
    reads_nil fun line member => List.eq_of_mem_replicate member
  rw [assemble_iff, lines_gapped plain]
  refine ⟨reads.append ((gap _).append ?_), rfl⟩
  rw [List.length_replicate]
  exact .instruction written .done

end Gapped

section Places

variable {source : String} {p : Program}

theorem sourceLine_eq_some {n : Nat} {raw : List Char} :
    sourceLine source n = some raw ↔
      ∃ offset, 1 + offset = n ∧ (Text.lines source.toList)[offset]? = some raw := by
  cases n with
  | zero => simp [sourceLine]
  | succ n => simp [sourceLine, Nat.add_comm 1]

theorem sourceLine_bounds {n : Nat} {raw : List Char} (line : sourceLine source n = some raw) :
    0 < n ∧ n ≤ (Text.lines source.toList).length := by
  obtain ⟨offset, rfl, found⟩ := sourceLine_eq_some.1 line
  obtain ⟨inside, -⟩ := List.getElem?_eq_some_iff.1 found
  omega

theorem vacant_zero (source : String) : Vacant source 0 := by
  intro raw line
  cases line

theorem vacant_beyond {n : Nat} (beyond : (Text.lines source.toList).length < n) :
    Vacant source n := by
  intro raw line
  have within := (sourceLine_bounds line).2
  omega

-- lines are numbered in words of 64 bits, so in a longer text numbers would come again
variable (assembled : assemble source = .ok p)
  (short : (Text.lines source.toList).length < 2 ^ 63)

include assembled short

theorem lines_increasing : p.instructions.Pairwise fun i j => i.line.toNat < j.line.toNat :=
  (assemble_iff.1 assembled).1.increasing (by omega)

theorem line_short {i : Instruction} (member : i ∈ p.instructions) : i.line.toNat < 2 ^ 64 - 1 := by
  have within := ((assemble_iff.1 assembled).1.line_bounds (by omega) member).2
  omega

theorem standsOn_iff {n place : Nat} :
    StandsOn source p n place ↔ ∃ i, p.instructions[place]? = some i ∧ i.line.toNat = n := by
  constructor
  · intro stands
    obtain ⟨raw, i, line, found, written⟩ := stands
    have within := (sourceLine_bounds line).2
    exact ⟨i, found, written.line_toNat (by omega)⟩
  · intro named
    obtain ⟨i, found, rfl⟩ := named
    obtain ⟨offset, raw, line, written⟩ := (assemble_iff.1 assembled).1.sound found
    obtain ⟨inside, -⟩ := List.getElem?_eq_some_iff.1 line
    have same := written.line_toNat (by omega)
    rw [same]
    exact ⟨raw, i, sourceLine_eq_some.2 ⟨offset, rfl, line⟩, found, written⟩

theorem vacant_iff {n : Nat} : Vacant source n ↔ ∀ i ∈ p.instructions, i.line.toNat ≠ n := by
  constructor
  · intro vacant i member same
    obtain ⟨place, found⟩ := List.mem_iff_getElem?.1 member
    obtain ⟨raw, j, line, -, written⟩ :=
      (standsOn_iff assembled short).2 ⟨i, found, same⟩
    exact (vacant raw line).not_written written
  · intro other raw line
    have within := (sourceLine_bounds line).2
    obtain ⟨offset, rfl, found⟩ := sourceLine_eq_some.1 line
    rcases (assemble_iff.1 assembled).1.complete found with blank | ⟨place, i, held, written⟩
    · exact blank
    · exact (other i (List.mem_of_getElem? held) (written.line_toNat (by omega))).elim

theorem findIdx?_line {n place : Nat} :
    p.instructions.findIdx? (fun i => i.line.toNat == n) = some place ↔
      StandsOn source p n place := by
  rw [standsOn_iff assembled short, List.findIdx?_eq_some_iff_getElem]
  constructor
  · intro first
    obtain ⟨inside, line, -⟩ := first
    exact ⟨_, List.getElem?_eq_getElem inside, by simpa using line⟩
  · intro named
    obtain ⟨i, found, line⟩ := named
    obtain ⟨inside, rfl⟩ := List.getElem?_eq_some_iff.1 found
    refine ⟨inside, by simpa using line, ?_⟩
    intro earlier before same
    have less := List.pairwise_iff_getElem.1 (lines_increasing assembled short) earlier place
      (Nat.lt_trans before inside) inside before
    have equal : p.instructions[earlier].line.toNat = n := by simpa using same
    omega

theorem findIdx?_vacant {n : Nat} :
    p.instructions.findIdx? (fun i => i.line.toNat == n) = none ↔ Vacant source n := by
  rw [vacant_iff assembled short, List.findIdx?_eq_none_iff]
  simp only [beq_eq_false_iff_ne]

theorem StandsOn.unique {n k place : Nat} (first : StandsOn source p n place)
    (second : StandsOn source p k place) : n = k := by
  obtain ⟨i, found, rfl⟩ := (standsOn_iff assembled short).1 first
  obtain ⟨j, same, rfl⟩ := (standsOn_iff assembled short).1 second
  rw [found] at same
  cases same
  rfl

theorem StandsOn.not_vacant {n place : Nat} (stands : StandsOn source p n place) :
    ¬ Vacant source n := by
  intro vacant
  obtain ⟨i, found, line⟩ := (standsOn_iff assembled short).1 stands
  exact (vacant_iff assembled short).1 vacant i (List.mem_of_getElem? found) line

end Places

end FloatMachine.Assembly
