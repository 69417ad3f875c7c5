import FloatMachine.Devices.Peripheral
import FloatMachine.Proofs.DecimalText
import FloatMachine.Proofs.Runs
import FloatMachine.Proofs.SourceLines

/-! Where jumps lead. A jump names a line of the source, and the number of the line goes through
single precision on its way: it is rounded when it has more than 24 bits, and the jump leads to the
line that it is rounded to. -/
namespace FloatMachine

namespace Binary32

theorem pow_le_whole_ofNat {bits n : Nat} (finite : bits ≤ 127) (large : 2 ^ bits ≤ n) :
    2 ^ bits ≤ (ofNat n).whole := by
  have value : units ((bits + 126) * binade + binade) = 2 ^ bits * unitsOfOne := by
    rw [units_eq (by unfold binade; omega) (Or.inr (Nat.le_refl _)), unitsOfOne, Nat.pow_eq,
      show binade = 2 ^ 23 from rfl, ← pow_add, ← pow_add]
    congr 1
    omega
  have rounds := nearestRatio_roundsTo (n * unitsOfOne) Nat.one_pos
  have above := rounds.le Nat.one_pos (k := (bits + 126) * binade + binade)
    (by unfold binade infiniteMagnitude; omega)
    (by rw [value, Nat.mul_one]; exact Nat.mul_le_mul_right _ large)
  rw [nearestRatio_one, ← magnitude_ofNat] at above
  rw [whole, Nat.le_div_iff_mul_le unitsOfOne_pos, ← value]
  exact units_strictMono.monotone above

end Binary32

namespace Machine

theorem lineOf_ofNat {program : List Instruction}
    (short : ∀ i ∈ program, i.line.toNat < 2 ^ 64 - 1) (n : Nat) :
    lineOf program (.ofNat n) =
      program.findIdx? fun i => i.line.toNat == (Binary32.ofNat n).whole := by
  -- numbers that do not fit a word saturate, and no line has the number they saturate to
  have nothing : ∀ k, 2 ^ 64 - 1 ≤ k →
      program.findIdx? (fun i => i.line.toNat == k) = none := by
    intro k large
    apply List.findIdx?_eq_none_iff.2
    intro i member
    have word := short i member
    rw [beq_eq_false_iff_ne]
    omega
  rcases value : (Binary32.ofNat n).toNat? with _ | k
  · have large : 2 ^ 64 ≤ n := by
      by_contra word
      rw [Binary32.toNat?_ofNat (Nat.not_le.1 word)] at value
      cases value
    have beyond := Binary32.pow_le_whole_ofNat (by decide) large
    rw [lineOf, value, nothing _ (by omega)]
    rfl
  · obtain ⟨-, -, -, rfl⟩ := Binary32.toNat?_eq_some.1 value
    rw [lineOf, value]
    change program.findIdx? (fun i => i.line.toNat == Stack.saturated _) = _
    by_cases word : (Binary32.ofNat n).whole < 2 ^ 64 - 1
    · have kept : Stack.saturated (Binary32.ofNat n).whole = (Binary32.ofNat n).whole := by
        rw [Stack.saturated]
        omega
      rw [kept]
    · rw [nothing _ (Nat.not_lt.1 word), nothing]
      rw [Stack.saturated]
      omega

end Machine

namespace Execution

variable {δ : Type} [Device δ]

theorem next_jump {program : List Instruction} {m : Machine δ} {place : Nat} {i : Instruction}
    {v : Binary32} (fetched : program[place]? = some i)
    (jumps : i.operation = .jump ∨ i.operation = .jumpReturn)
    (target : Machine.read i.left m = (.ok v, m)) (plain : i.right = .unused) :
    ((⟨m, .running place⟩ : Execution δ).next program).2.status =
      match Machine.lineOf program v with
      | some there => .running there
      | none => .failed ⟨.invalidJump, i.line, i.text⟩ := by
  have nothing : Machine.read .unused m = (.ok .zero, m) := rfl
  simp only [next, fetched]
  rcases jumps with operation | operation
  · simp only [Machine.step, bind_eq, target, plain, nothing, operation, Machine.jumpTo]
    rcases Machine.lineOf program v with _ | there <;> rfl
  · simp only [Machine.step, bind_eq, target, plain, nothing, operation, Machine.jumpTo]
    rcases Machine.lineOf program v with _ | there <;> rfl

end Execution

namespace Assembly

/-- How a run stands after a jump to line `n`: at the instruction that is written there, or stopped
at the jump if there is none. -/
inductive Lands (source : String) (p : Program) (jump : Instruction) (n : Nat) : Status → Prop
  | found {place : Nat} : StandsOn source p n place → Lands source p jump n (.running place)
  | missing : Vacant source n → Lands source p jump n (.failed ⟨.invalidJump, jump.line, jump.text⟩)

section Lines

variable {source : String} {p : Program} (assembled : assemble source = .ok p)
  (short : (Text.lines source.toList).length < 2 ^ 63)

include assembled short

theorem lands_of_find (jump : Instruction) (n : Nat) :
    Lands source p jump n (match p.instructions.findIdx? fun i => i.line.toNat == n with
      | some there => .running there
      | none => .failed ⟨.invalidJump, jump.line, jump.text⟩) := by
  split
  · rename_i there found
    exact .found ((findIdx?_line assembled short).1 found)
  · rename_i nothing
    exact .missing ((findIdx?_vacant assembled short).1 nothing)

/-- After a jump to one line a run stands as after one to another if both lines are vacant. -/
theorem Lands.iff {jump : Instruction} {n k : Nat} {status : Status}
    (lands : Lands source p jump n status) :
    Lands source p jump k status ↔ n = k ∨ Vacant source n ∧ Vacant source k := by
  constructor
  · intro other
    cases lands with
    | found stands =>
      cases other with
      | found same => exact Or.inl (stands.unique assembled short same)
    | missing vacant =>
      cases other with
      | missing empty => exact Or.inr ⟨vacant, empty⟩
  · intro either
    rcases either with rfl | ⟨vacant, empty⟩
    · exact lands
    · cases lands with
      | found stands => exact (stands.not_vacant assembled short vacant).elim
      | missing _ => exact .missing empty

theorem jump_lands {δ : Type} [Device δ] {m : Machine δ} {place n : Nat} {i : Instruction}
    (fetched : p.instructions[place]? = some i)
    (jumps : i.operation = .jump ∨ i.operation = .jumpReturn)
    (target : Machine.read i.left m = (.ok (.ofNat n), m)) (plain : i.right = .unused) :
    Lands source p i (Binary32.ofNat n).whole
      ((⟨m, .running place⟩ : Execution δ).next p.instructions).2.status := by
  rw [Execution.next_jump fetched jumps target plain,
    Machine.lineOf_ofNat fun i member => line_short assembled short member]
  exact lands_of_find assembled short i _

end Lines

theorem Literal.of_digits {digits : List Char} (form : Digits digits) {v : Binary32}
    (literal : Literal digits v) : v = .ofNat (Digits.value digits) := by
  obtain ⟨c, rest, starts, digit⟩ := form.starts []
  rw [List.append_nil] at starts
  generalize word : digits = word at literal
  cases literal with
  | @whole sign others negative _ signed _ decimal =>
    have unsigned : sign = [] ∧ negative = false := by
      cases signed with
      | none => exact ⟨rfl, rfl⟩
      | plus => exact absurd (form.digits '+' (by simp [word])) (by decide)
      | minus => exact absurd (form.digits '-' (by simp [word])) (by decide)
    obtain ⟨rfl, rfl⟩ := unsigned
    rw [List.nil_append] at word
    subst word
    rw [← (Binary32.ofDecimal_eq_iff.2 decimal).1, Binary32.ofDecimal, Nat.pow_eq, pow_zero,
      Binary32.nearestRatio_one]
    rfl
  | fraction => exact absurd (form.digits '.' (by simp [word])) (by decide)

theorem Source.of_digits {digits : List Char} (form : Digits digits) {o : Operand}
    (source : Source digits o) : o = .literal (.ofNat (Digits.value digits)) := by
  cases source with
  | literal literal => rw [literal.of_digits form]
  | place place =>
    obtain ⟨c, rest, rfl, letter⟩ := place.head
    have digit := form.digits c List.mem_cons_self
    rcases letter with rfl | rfl | rfl <;> exact absurd digit (by decide)

theorem Written.literal_jump {n : Nat} {raw digits : List Char} {i : Instruction} {op : Operation}
    (written : Written n raw i) (jumps : op = .jump ∨ op = .jumpReturn)
    (line : Assembly.words raw = [op.mnemonic.toList, digits]) (form : Digits digits) :
    i.operation = op ∧ i.left = .literal (.ofNat (Digits.value digits)) ∧ i.right = .unused := by
  obtain ⟨⟨args, same, arguments⟩, -⟩ := written_iff.1 written
  rw [line] at same
  obtain ⟨name, rfl⟩ := List.cons.inj same
  have operation : op = i.operation := by
    have found := congrArg Operation.ofMnemonic? (String.toList_injective name)
    rw [Operation.ofMnemonic?_mnemonic, Operation.ofMnemonic?_mnemonic] at found
    exact Option.some.inj found
  rw [← operation] at arguments
  generalize filled : (i.left, i.right) = operands at arguments
  generalize i.destination = d at arguments
  cases arguments with
  | plain _ _ sources =>
    cases sources with
    | cons first rest =>
      cases rest
      obtain ⟨left, right⟩ := Prod.mk.inj filled
      exact ⟨operation.symm, left.trans (first.of_digits form), right⟩
  | targeted takes => rcases jumps with rfl | rfl <;> cases takes

/-- A jump to digits leads to the line that the number is rounded to in single precision. This is
the line that the digits name up to two to the power of 24, and so in every text of fewer lines;
another one will do only where nothing is written on either. -/
theorem literal_jump_lands {source : String} {p : Program} (assembled : assemble source = .ok p)
    (short : (Text.lines source.toList).length < 2 ^ 63) {line : Nat} {raw digits : List Char}
    {op : Operation} (written : sourceLine source line = some raw)
    (jumps : op = .jump ∨ op = .jumpReturn) (form : words raw = [op.mnemonic.toList, digits])
    (number : Digits digits) :
    ∃ (place : Nat) (i : Instruction), p.instructions[place]? = some i ∧ Written line raw i ∧
      ∀ {δ : Type} [Device δ] (m : Machine δ),
        let status := ((⟨m, .running place⟩ : Execution δ).next p.instructions).2.status
        let n := Digits.value digits
        let rounded := (Binary32.ofNat n).whole
        Lands source p i rounded status ∧
        (Lands source p i n status ↔ rounded = n ∨ Vacant source rounded ∧ Vacant source n) ∧
        (n ≤ 2 ^ 24 → rounded = n) ∧
        ((Text.lines source.toList).length < 2 ^ 24 → Lands source p i n status) := by
  obtain ⟨offset, same, found⟩ := sourceLine_eq_some.1 written
  rcases (assemble_iff.1 assembled).1.complete found with blank | ⟨place, i, held, stands⟩
  · rw [blank.words] at form
    cases form
  · rw [same] at stands
    obtain ⟨operation, left, right⟩ := stands.literal_jump jumps form number
    refine ⟨place, i, held, stands, ?_⟩
    intro δ _ m status n rounded
    have target : Machine.read i.left m = (.ok (.ofNat n), m) := by
      rw [left]
      rfl
    have lands : Lands source p i rounded status :=
      jump_lands assembled short held (operation ▸ jumps) target right
    have exact_below : n ≤ 2 ^ 24 → rounded = n := Binary32.whole_ofNat
    refine ⟨lands, lands.iff assembled short, exact_below, ?_⟩
    intro few
    apply (lands.iff assembled short).2
    by_cases small : n ≤ 2 ^ 24
    · exact Or.inl (exact_below small)
    · have large : 2 ^ 24 ≤ rounded := Binary32.pow_le_whole_ofNat (by decide) (by omega)
      exact Or.inr ⟨vacant_beyond (by omega), vacant_beyond (by omega)⟩

theorem literal_jump_lands_third :
    let p := Program.ofInstructions
      [⟨.jump, none, .literal (.ofNat 3), .unused, 1, "jmp 003"⟩,
        ⟨.ret, none, .unused, .unused, 3, "ret"⟩]
    assemble "jmp 003 # the end\n\nret" = .ok p ∧ ∃ (place : Nat) (i : Instruction),
      p.instructions[place]? = some i ∧ Written 1 "jmp 003 # the end".toList i ∧
        ∀ m : Machine Peripheral, Lands "jmp 003 # the end\n\nret" p i 3
          ((⟨m, .running place⟩ : Execution Peripheral).next p.instructions).2.status := by
  intro p
  have assembled : assemble "jmp 003 # the end\n\nret" = .ok p := by decide +kernel
  have digits : Digits ['0', '0', '3'] := allDigits_iff.1 rfl
  have few : (Text.lines "jmp 003 # the end\n\nret".toList).length = 3 := by decide +kernel
  have first : sourceLine "jmp 003 # the end\n\nret" 1 = some "jmp 003 # the end".toList := by
    decide +kernel
  have form : words "jmp 003 # the end".toList =
      [Operation.jump.mnemonic.toList, ['0', '0', '3']] := by
    decide +kernel
  obtain ⟨place, i, found, written, lands⟩ :=
    literal_jump_lands assembled (by omega) first (Or.inl rfl) form digits
  refine ⟨assembled, place, i, found, written, fun m => ?_⟩
  exact (lands m).2.2.2 (by omega)

/-- A text of 2^24 lines, with a jump to the line after the last one. -/
def farJump : String := gapped ["jmp 16777217".toList] 16777214 "ret".toList

def farJumpProgram : Program := .ofInstructions
  [⟨.jump, none, .literal (.ofNat 16777217), .unused, 1, "jmp 16777217"⟩,
    ⟨.ret, none, .unused, .unused, 16777216, "ret"⟩]

theorem farJump_plain : ∀ line ∈ ["ret".toList, "jmp 16777217".toList],
    '\n' ∉ line ∧ '\r' ∉ line := by
  decide +kernel

theorem assemble_farJump : assemble farJump = .ok farJumpProgram := by
  have first : Written 1 "jmp 16777217".toList
      ⟨.jump, none, .literal (.ofNat 16777217), .unused, 1, "jmp 16777217"⟩ :=
    readLine_some.1 (by decide +kernel)
  have last : Written 16777216 "ret".toList
      ⟨.ret, none, .unused, .unused, 16777216, "ret"⟩ := readLine_some.1 (by decide +kernel)
  exact assemble_gapped farJump_plain 16777214 (.instruction first .done) last

/-- The number of the line is rounded, and the jump leads to the last line. -/
theorem jump_past_end_lands : ∃ source p,
    assemble source = .ok p ∧ sourceLine source 1 = some "jmp 16777217".toList ∧
      Vacant source 16777217 ∧ StandsOn source p 16777216 1 ∧
      ∀ m : Machine Peripheral,
        ((⟨m, .running 0⟩ : Execution Peripheral).next p.instructions).2.status = .running 1 := by
  have length : (Text.lines farJump.toList).length = 1 + (16777214 + 1) :=
    length_gapped farJump_plain 16777214
  refine ⟨farJump, farJumpProgram, assemble_farJump, ?_, vacant_beyond (by omega), ?_, ?_⟩
  · rw [sourceLine, farJump, lines_gapped farJump_plain]
    rfl
  · exact (standsOn_iff assemble_farJump (by omega)).2 ⟨_, rfl, rfl⟩
  · intro m
    have found : Machine.lineOf farJumpProgram.instructions (.ofNat 16777217) = some 1 := by
      decide +kernel
    rw [Execution.next_jump rfl (Or.inl rfl) rfl rfl, found]

end Assembly
end FloatMachine
