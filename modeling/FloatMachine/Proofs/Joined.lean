import FloatMachine.Proofs.Blame

/-! Texts joined by a newline. The lines of both stand one after the other, so the joined text
assembles to the programs of both with the lines of the second moved down, and an error in either is
an error of the whole. -/
namespace FloatMachine

namespace Text

theorem lines_append (a b : List Char) :
    lines (a ++ '\n' :: b) = lines (a ++ ['\n']) ++ lines b := by
  induction a using lines_induction with
  | last line one =>
    rw [lines_newline one, lines_newline one]
    rfl
  | newline line rest one ih =>
    rw [List.append_assoc, List.append_assoc, List.cons_append, List.cons_append,
      lines_newline one, lines_newline one, ih, List.cons_append]

theorem length_lines_newline (a : List Char) :
    (lines (a ++ ['\n'])).length = a.count '\n' + 1 := by
  induction a using lines_induction with
  | last line one =>
    rw [lines_newline one, List.count_eq_zero_of_not_mem one]
    rfl
  | newline line rest one ih =>
    rw [List.append_assoc, List.cons_append, lines_newline one, List.length_cons, ih,
      List.count_append, List.count_eq_zero_of_not_mem one, List.count_cons_self, Nat.zero_add]

theorem lines_ended_newline {a : List Char} (plain : a.getLast? ≠ some '\r') :
    lines (a ++ ['\n']) = lines a ∨ lines (a ++ ['\n']) = lines a ++ [[]] := by
  induction a using lines_induction with
  | last line one =>
    have kept : dropReturn line = line := if_neg plain
    rw [lines_newline one, lines_last one, kept]
    split
    · rename_i empty
      rw [List.isEmpty_iff.1 empty]
      exact Or.inr rfl
    · exact Or.inl rfl
  | newline line rest one ih =>
    have later : rest.getLast? ≠ some '\r' := by
      intro last
      rw [List.getLast?_append, List.getLast?_cons, last] at plain
      exact plain rfl
    rw [List.append_assoc, List.cons_append, lines_newline one, lines_newline one]
    rcases ih later with same | longer
    · exact Or.inl (congrArg _ same)
    · exact Or.inr (congrArg _ longer)

end Text

/-- The instruction that many lines further down. No text in memory has lines enough for the number
to wrap around. -/
def Instruction.moved (n : Nat) (i : Instruction) : Instruction :=
  { i with line := i.line + UInt64.ofNat n }

namespace Assembly

theorem Written.moved {number : Nat} {raw : List Char} {i : Instruction}
    (written : Written number raw i) (n : Nat) : Written (number + n) raw (i.moved n) := by
  obtain ⟨denotes, line, text⟩ := written_iff.1 written
  refine written_iff.2 ⟨denotes, ?_, text⟩
  rw [Instruction.moved, line, UInt64.ofNat_add]

theorem Reads.moved {number : Nat} {ls : List (List Char)} {is : List Instruction}
    (reads : Reads number ls is) (n : Nat) :
    Reads (number + n) ls (is.map (Instruction.moved n)) := by
  induction reads with
  | done => exact .done
  | blank blank _ ih => exact .blank blank (Nat.add_right_comm .. ▸ ih)
  | instruction written _ ih => exact .instruction (written.moved n) (Nat.add_right_comm .. ▸ ih)

section Joined

variable {a b : String} (plain : a.toList.getLast? ≠ some '\r')

theorem lines_joined (a b : String) : Text.lines (a ++ "\n" ++ b).toList =
    Text.lines (a.toList ++ ['\n']) ++ Text.lines b.toList := by
  have text : (a ++ "\n" ++ b).toList = a.toList ++ '\n' :: b.toList := by
    simp
  rw [text, Text.lines_append]

include plain

theorem assemble_joined_first {e : Error} (rejected : assemble a = .error e) :
    assemble (a ++ "\n" ++ b) = .error e := by
  obtain ⟨raw, line, -⟩ := assemble_error.1 rejected
  have within := (sourceLine_bounds line).2
  refine assemble_error_of_take rejected ?_
  rw [lines_joined]
  rcases Text.lines_ended_newline plain with same | longer
  · rw [same, List.take_append_of_le_length within]
  · rw [longer, List.append_assoc, List.take_append_of_le_length within]

theorem reads_first {is : List Instruction} (reads : Reads 1 (Text.lines a.toList) is) :
    Reads 1 (Text.lines (a.toList ++ ['\n'])) is := by
  rcases Text.lines_ended_newline plain with same | longer
  · rwa [same]
  · rw [longer]
    have empty : Reads (1 + (Text.lines a.toList).length) [[]] [] := .blank blank_nil .done
    simpa using reads.append empty

theorem assemble_joined_second {p : Program} {e : Error} (assembled : assemble a = .ok p)
    (rejected : assemble b = .error e) : assemble (a ++ "\n" ++ b) =
      .error { e with line := e.line + (1 + a.toList.count '\n') } := by
  obtain ⟨raw, line, text, blamed, before⟩ := assemble_error.1 rejected
  obtain ⟨n, number, found⟩ := sourceLine_eq_some.1 line
  have length := Text.length_lines_newline a.toList
  have fine := exists_reads.1 ⟨_, reads_first plain (assemble_iff.1 assembled).1⟩
  have joined := lines_joined a b
  generalize Text.lines (a.toList ++ ['\n']) = first at length fine joined
  refine assemble_error.2 ⟨raw, sourceLine_eq_some.2 ⟨first.length + n, ?_, ?_⟩, text, blamed, ?_⟩
  · dsimp only
    omega
  · rw [joined, List.getElem?_append_right (Nat.le_add_right _ _), Nat.add_sub_cancel_left, found]
  · intro k other less there
    dsimp only at less
    obtain ⟨j, rfl, at_j⟩ := sourceLine_eq_some.1 there
    rw [joined] at at_j
    rcases Nat.lt_or_ge j first.length with early | late
    · rw [List.getElem?_append_left early] at at_j
      exact fine other (List.mem_of_getElem? at_j)
    · rw [List.getElem?_append_right late] at at_j
      exact before (1 + (j - first.length)) other (by omega)
        (sourceLine_eq_some.2 ⟨_, rfl, at_j⟩)

end Joined

/-- The joined text fails as the first text does, or else as the second one does, so many lines
further down; if neither fails, it assembles to the instructions of both, those of the second so
many lines further down. -/
theorem assemble_joined {a b : String} (plain : a.toList.getLast? ≠ some '\r') :
    (∀ e, assemble a = .error e → assemble (a ++ "\n" ++ b) = .error e) ∧
    (∀ p e, assemble a = .ok p → assemble b = .error e → assemble (a ++ "\n" ++ b) =
      .error { e with line := e.line + (1 + a.toList.count '\n') }) ∧
    ∀ p q, assemble a = .ok p → assemble b = .ok q → assemble (a ++ "\n" ++ b) =
      .ok (.ofInstructions (p.instructions ++
        q.instructions.map (Instruction.moved (1 + a.toList.count '\n')))) := by
  refine ⟨fun e => assemble_joined_first plain, fun p e => assemble_joined_second plain, ?_⟩
  intro p q first second
  have length := Text.length_lines_newline a.toList
  have moved := (assemble_iff.1 second).1.moved (1 + a.toList.count '\n')
  rw [assemble_iff, lines_joined]
  refine ⟨(reads_first plain (assemble_iff.1 first).1).append ?_, rfl⟩
  rwa [length, Nat.add_comm _ 1]

/-- The first text ends in a newline of its own, so the second one begins on line 3. -/
theorem assemble_joined_newline :
    assemble ("jmp 1\n" ++ "\n" ++ "free") = .error ⟨.reservedMnemonic "free", 3, 1, "free"⟩ ∧
    assemble ("jmp 1\n" ++ "\n" ++ "\nret") = .ok (.ofInstructions
      [⟨.jump, none, .literal .one, .unused, 1, "jmp 1"⟩,
        ⟨.ret, none, .unused, .unused, 4, "ret"⟩]) := by
  obtain ⟨-, fails, -⟩ := @assemble_joined "jmp 1\n" "free" (by decide)
  obtain ⟨-, -, joins⟩ := @assemble_joined "jmp 1\n" "\nret" (by decide)
  have first : assemble "jmp 1\n" =
      .ok (.ofInstructions [⟨.jump, none, .literal .one, .unused, 1, "jmp 1"⟩]) := by
    decide +kernel
  have second : assemble "\nret" =
      .ok (.ofInstructions [⟨.ret, none, .unused, .unused, 2, "ret"⟩]) := by
    decide +kernel
  have rejected : assemble "free" = .error ⟨.reservedMnemonic "free", 1, 1, "free"⟩ := by
    decide +kernel
  exact ⟨fails _ _ first rejected, joins _ _ first second⟩

end Assembly
end FloatMachine
