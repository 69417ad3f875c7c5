import FloatMachine.Proofs.Jumps
import FloatMachine.Proofs.Untexted

/-! Line numbers as labels. Only jumps look at them, and to a jump with a literal it is all one
which numbers the lines have as long as their order and the targets go with them: the program makes
the same run, and what it shows of lines is renumbered. -/
namespace FloatMachine

variable (f : Nat → Nat)

/-- A whole number names a line and goes with it. -/
def Operand.renumbered : Operand → Operand
  | .literal v =>
    match v.toNat? with
    | some n => .literal (.ofNat (f n))
    | none => .literal v
  | o => o

/-- The instruction on its new line, and its target if it is a jump. -/
def Instruction.renumbered (i : Instruction) : Instruction :=
  { i with
    left := if i.operation = .jump then i.left.renumbered f else i.left
    line := UInt64.ofNat (f i.line.toNat) }

def Program.renumbered (p : Program) : Program :=
  ofInstructions (p.instructions.map (Instruction.renumbered f))

def ExecutionError.renumbered (e : ExecutionError) : ExecutionError :=
  { e with line := UInt64.ofNat (f e.line.toNat) }

def Snapshot.renumbered (s : Snapshot) : Snapshot :=
  { s with line := UInt64.ofNat (f s.line.toNat) }

/-- There are no calls and all jumps are to literals; lines and targets are numbers of single
precision, and so are the new ones. -/
structure Labelled (is : List Instruction) : Prop where
  call : ∀ i ∈ is, i.operation ≠ .jumpReturn
  literal : ∀ i ∈ is, i.operation = .jump → ∃ v, i.left = .literal v
  lines : ∀ i ∈ is, i.line.toNat ≤ 2 ^ 24 ∧ f i.line.toNat ≤ 2 ^ 24
  targets : ∀ i ∈ is, i.operation = .jump → ∀ v n, i.left = .literal v → v.toNat? = some n →
    n ≤ 2 ^ 24 ∧ f n ≤ 2 ^ 24

variable {f}

theorem Operand.touch_renumbered (t : Tally) (o : Operand) :
    t.touch (o.renumbered f) = t.touch o := by
  cases o with
  | literal v => cases whole : v.toNat? <;> simp only [renumbered, whole, Tally.touch]
  | register | stackPointer | returnAddress | device => rfl

theorem Requirements.of_renumbered (is : List Instruction) :
    Requirements.of (is.map (Instruction.renumbered f)) = Requirements.of is := by
  have count : ∀ (t : Tally) (i : Instruction), t.count (i.renumbered f) = t.count i := by
    intro t i
    unfold Tally.count Instruction.touched Instruction.renumbered
    split
    · simp only [List.foldl_append, List.foldl_cons, Operand.touch_renumbered]
    · rfl
  have counted : ∀ t : Tally, (is.map (Instruction.renumbered f)).foldl Tally.count t =
      is.foldl Tally.count t := by
    intro t
    simp only [List.foldl_map, count]
  rw [Requirements.of, Requirements.of, counted]

theorem Instruction.renumbered_line {i : Instruction} (small : f i.line.toNat ≤ 2 ^ 24) :
    (i.renumbered f).line.toNat = f i.line.toNat :=
  UInt64.toNat_ofNat_of_lt' (Nat.lt_of_le_of_lt small (by decide))

namespace Machine

section Lines

variable {program : List Instruction}

theorem saturated_small {n : Nat} (small : n ≤ 2 ^ 24) : Stack.saturated n = n := by
  unfold Stack.saturated
  omega

theorem findIdx?_renumbered (injective : Function.Injective f)
    (lines : ∀ i ∈ program, f i.line.toNat ≤ 2 ^ 24) (n : Nat) :
    (program.map (Instruction.renumbered f)).findIdx? (fun i => i.line.toNat == f n) =
      program.findIdx? fun i => i.line.toNat == n := by
  induction program with
  | nil => rfl
  | cons i program ih =>
    obtain ⟨first, rest⟩ := List.forall_mem_cons.1 lines
    rw [List.map_cons, List.findIdx?_cons, List.findIdx?_cons, ih rest,
      Instruction.renumbered_line first, beq_eq_beq.2 injective.eq_iff]

theorem lineOf_renumbered (injective : Function.Injective f)
    (lines : ∀ i ∈ program, f i.line.toNat ≤ 2 ^ 24) {v : Binary32} {n : Nat}
    (whole : v.toNat? = some n) (small : n ≤ 2 ^ 24) (after : f n ≤ 2 ^ 24) :
    lineOf (program.map (Instruction.renumbered f)) (.ofNat (f n)) = lineOf program v := by
  have value : (Binary32.ofNat (f n)).toNat? = some (f n) := by
    rw [Binary32.toNat?_ofNat (by omega), Binary32.whole_ofNat after]
  simp only [lineOf, whole, value, Option.bind_eq_bind, Option.bind_some, saturated_small small,
    saturated_small after, findIdx?_renumbered injective lines]

end Lines

section Step

variable {δ : Type} [Device δ] {is : List Instruction} {i : Instruction}

omit [Device δ] in
theorem jumpTo_renumbered (injective : Function.Injective f) (labelled : Labelled f is)
    (member : i ∈ is) (jump : i.operation = .jump) {v : Binary32} (left : i.left = .literal v) :
    ∃ w, (i.renumbered f).left = .literal w ∧
      (jumpTo (is.map (Instruction.renumbered f)) w : Action δ Nat) = jumpTo is v := by
  have lines : ∀ j ∈ is, f j.line.toNat ≤ 2 ^ 24 := fun j other => (labelled.lines j other).2
  rcases whole : v.toNat? with _ | n
  · have nowhere : ∀ program, lineOf program v = none := by
      intro program
      rw [lineOf, whole]
      rfl
    refine ⟨v, ?_, ?_⟩
    · simp only [Instruction.renumbered, jump, if_true, left, Operand.renumbered, whole]
    · rw [jumpTo, jumpTo, nowhere, nowhere]
  · obtain ⟨small, after⟩ := labelled.targets i member jump v n left whole
    refine ⟨.ofNat (f n), ?_, ?_⟩
    · simp only [Instruction.renumbered, jump, if_true, left, Operand.renumbered, whole]
    · rw [jumpTo, jumpTo, lineOf_renumbered injective lines whole small after]

theorem step_renumbered (injective : Function.Injective f) (labelled : Labelled f is)
    (member : i ∈ is) :
    (step (is.map (Instruction.renumbered f)) (i.renumbered f) : Action δ Flow) = step is i := by
  by_cases jump : i.operation = .jump
  · obtain ⟨v, left⟩ := labelled.literal i member jump
    obtain ⟨w, moved, same⟩ := jumpTo_renumbered (δ := δ) injective labelled member jump left
    have operation : (i.renumbered f).operation = .jump := jump
    have right : (i.renumbered f).right = i.right := rfl
    have literal : ∀ u, (read (.literal u) : Action δ Binary32) = pure u := fun _ => rfl
    simp only [step, left, moved, right, operation, jump, literal, pure_bind, same]
  · -- no other operation looks at lines
    have kept : i.renumbered f = { i with line := UInt64.ofNat (f i.line.toNat) } := by
      rw [Instruction.renumbered, if_neg jump]
    rw [kept]
    unfold step
    cases operation : i.operation with
    | jump => exact (jump operation).elim
    | jumpReturn => exact (labelled.call i member operation).elim
    | _ => rfl

end Step

end Machine

namespace Execution

variable {δ : Type} [Device δ] {is : List Instruction}

theorem mapped_renumbered (injective : Function.Injective f) (labelled : Labelled f is) :
    Mapped (δ := δ) is (Instruction.renumbered f) (ExecutionError.renumbered f) fun _ => True where
  kept := fun _ _ => Keeps.any _
  step := fun _ member m _ => congrFun (Machine.step_renumbered injective labelled member) m
  error := fun _ _ _ => rfl

end Execution

namespace Assembly

/-- Lines of two texts, from ones with these numbers on. Instructions stand in the same order, and
on its new line each is what it was with its target adjusted; blank lines and comments come and
go. -/
inductive Moved (f : Nat → Nat) :
    Nat → List (List Char) → Nat → List (List Char) → Prop
  | done {n k : Nat} : Moved f n [] k []
  | dropped {n k : Nat} {raw : List Char} {ls others : List (List Char)} :
      Blank raw → Moved f (n + 1) ls k others → Moved f n (raw :: ls) k others
  | inserted {n k : Nat} {raw : List Char} {ls others : List (List Char)} :
      Blank raw → Moved f n ls (k + 1) others → Moved f n ls k (raw :: others)
  | instruction {n k : Nat} {raw other : List Char} {ls others : List (List Char)}
      {i j : Instruction} : Written n raw i → Written k other j →
      j.untexted = (i.renumbered f).untexted → Moved f (n + 1) ls (k + 1) others →
      Moved f n (raw :: ls) k (other :: others)

theorem Moved.reads {n k : Nat} {ls others : List (List Char)} {is : List Instruction}
    (moved : Moved f n ls k others) (reads : Reads n ls is) :
    ∃ js, Reads k others js ∧
      js.map Instruction.untexted = (is.map (Instruction.renumbered f)).map .untexted := by
  induction moved generalizing is with
  | done =>
    cases reads
    exact ⟨[], .done, rfl⟩
  | dropped blank _ ih =>
    cases reads with
    | blank _ rest => exact ih rest
    | instruction written _ => exact (blank.not_written written).elim
  | inserted blank _ ih =>
    obtain ⟨js, rest, same⟩ := ih reads
    exact ⟨js, .blank blank rest, same⟩
  | @instruction _ _ _ _ _ _ i j written there same _ ih =>
    cases reads with
    | blank blank _ => exact (blank.not_written written).elim
    | instruction found rest =>
      obtain ⟨js, others, alike⟩ := ih rest
      refine ⟨j :: js, .instruction there others, ?_⟩
      rw [List.map_cons, same, alike, found.unique written]
      rfl

end Assembly

namespace Machine

section Runs

variable {δ : Type} [Device δ] {m : Machine δ}

theorem refused_alike {p q : Program} (needs : q.requirements = p.requirements)
    (short : m.config.FallsShort p.requirements) (fuel : Nat) :
    m.outcome fuel q = m.outcome fuel p ∧
      (Execution.start m q).seen q.instructions fuel = [] ∧
      (Execution.start m p).seen p.instructions fuel = [] := by
  have start : Execution.start m q = Execution.start m p := by
    rw [Execution.start, Execution.start, needs]
  have stopped : ∀ place, (Execution.start m p).status ≠ .running place := by
    rw [start_refused short]
    simp
  rw [outcome_eq, outcome_eq, start, Execution.after_stopped stopped,
    Execution.after_stopped stopped]
  exact ⟨rfl, Execution.seen_stopped stopped fuel, Execution.seen_stopped stopped fuel⟩

theorem outcome_renumbered (injective : Function.Injective f) {is : List Instruction}
    (labelled : Labelled f is) (enough : ¬ m.config.FallsShort (Requirements.of is))
    (fuel : Nat) :
    let p := Program.ofInstructions is
    let q := p.renumbered f
    m.outcome fuel q = (m.outcome fuel p).mapError (.renumbered f) ∧
      (Execution.start m q).seen q.instructions fuel =
        ((Execution.start m p).seen p.instructions fuel).map (Snapshot.renumbered f) := by
  intro p q
  have needs : q.requirements = p.requirements := Requirements.of_renumbered is
  have begun : Execution.start m p = ⟨m.reset, .running 0⟩ := start_accepted enough
  have again : Execution.start m q = (Execution.start m p).mapError (.renumbered f) := by
    rw [begun]
    exact start_accepted (needs ▸ enough)
  have mapped := Execution.mapped_renumbered (δ := δ) injective labelled
  rw [outcome_eq, outcome_eq, again]
  exact ⟨mapped.after trivial fuel, mapped.seen trivial (fun _ _ => rfl) fuel⟩

end Runs

end Machine

/-- With other numbers on its lines a program makes the same run, step by step, and an error names
the new line of its instruction; only a run that is refused before its first step is on no line
and keeps the number zero. The numbers may come from moving lines of the source. -/
theorem renumbered_lockstep (increasing : StrictMono f) {is : List Instruction}
    (labelled : Labelled f is) :
    (∀ {δ : Type} [Device δ] (m : Machine δ) (fuel : Nat),
      let p := Program.ofInstructions is
      let q := p.renumbered f
      (m.outcome fuel q).machine = (m.outcome fuel p).machine ∧
      (Execution.start m q).seen q.instructions fuel =
        ((Execution.start m p).seen p.instructions fuel).map (Snapshot.renumbered f) ∧
      (¬ m.config.FallsShort p.requirements →
        (m.outcome fuel q).status = (m.outcome fuel p).status.mapError (.renumbered f)) ∧
      (m.config.FallsShort p.requirements →
        (m.outcome fuel q).status = (m.outcome fuel p).status ∧
          ∃ text, (m.outcome fuel p).status = .failed ⟨.requirementsNotMet, 0, text⟩)) ∧
    ∀ source other, Assembly.assemble source = .ok (.ofInstructions is) →
      Assembly.Moved f 1 (Text.lines source.toList) 1 (Text.lines other.toList) →
      ∃ q, Assembly.assemble other = .ok q ∧ ∀ {δ : Type} [Device δ] (m : Machine δ),
        Machine.SameRuns m q ((Program.ofInstructions is).renumbered f) := by
  constructor
  · intro δ _ m fuel p q
    by_cases short : m.config.FallsShort p.requirements
    · have needs : q.requirements = p.requirements := Requirements.of_renumbered is
      obtain ⟨same, none_q, none_p⟩ := Machine.refused_alike needs short fuel
      refine ⟨by rw [same], by rw [none_q, none_p]; rfl, fun enough => (enough short).elim, ?_⟩
      intro _
      rw [same]
      exact ⟨rfl, _, congrArg Execution.status (Machine.outcome_refused short fuel)⟩
    · obtain ⟨ends, views⟩ := Machine.outcome_renumbered increasing.injective labelled short fuel
      obtain ⟨machine, status⟩ := Execution.mk.inj ends
      exact ⟨machine, views, fun _ => status, fun refused => (short refused).elim⟩
  · intro source other assembled moved
    obtain ⟨js, reads, same⟩ := moved.reads (Assembly.assemble_iff.1 assembled).1
    refine ⟨.ofInstructions js, Assembly.assemble_iff.2 ⟨reads, rfl⟩, fun m => ?_⟩
    exact Machine.sameRuns_of_untexted (Program.untexted_eq same rfl rfl) m

/-- Twice as many lines, and a jump over one instruction to another that faults. -/
theorem renumbered_lockstep_doubled :
    let is : List Instruction := [⟨.jump, none, .literal (.ofNat 3), .unused, 1, "jmp 3"⟩,
      ⟨.nop, none, .unused, .unused, 2, "nop"⟩,
      ⟨.pop, some (.register 0), .unused, .unused, 3, "pop r0"⟩]
    let p := Program.ofInstructions is
    let m : Machine Peripheral := .new {} #[]
    StrictMono (2 * ·) ∧ Labelled (2 * ·) is ∧ Assembly.assemble "jmp 3\nnop\npop r0" = .ok p ∧
      (m.outcome 2 p).status = .failed ⟨.stackOverflow, 3, "pop r0"⟩ ∧
      (m.outcome 2 (p.renumbered (2 * ·))).status = .failed ⟨.stackOverflow, 6, "pop r0"⟩ ∧
      ∃ q, Assembly.assemble "# skip\njmp 6\n\nnop\n\npop r0" = .ok q ∧
        m.SameRuns q (p.renumbered (2 * ·)) := by
  intro is p m
  have increasing : StrictMono (2 * · : Nat → Nat) := fun a b less => by
    dsimp only
    omega
  have small : Labelled (2 * ·) is := by
    have target : ∀ v n, Operand.literal (.ofNat 3) = .literal v → v.toNat? = some n → n = 3 := by
      intro v n left whole
      cases left
      exact Option.some.inj (whole.symm.trans (by decide +kernel))
    constructor
    · decide
    · exact List.forall_mem_cons.2 ⟨fun _ => ⟨_, rfl⟩, by simp⟩
    · decide
    · refine List.forall_mem_cons.2 ⟨fun _ v n left whole => ?_, by simp⟩
      have three := target v n left whole
      omega
  have assembled : Assembly.assemble "jmp 3\nnop\npop r0" = .ok p := by decide +kernel
  have moved : Assembly.Moved (2 * ·) 1 (Text.lines "jmp 3\nnop\npop r0".toList)
      1 (Text.lines "# skip\njmp 6\n\nnop\n\npop r0".toList) := by
    have first : Text.lines "jmp 3\nnop\npop r0".toList =
        ["jmp 3".toList, "nop".toList, "pop r0".toList] := by decide +kernel
    have second : Text.lines "# skip\njmp 6\n\nnop\n\npop r0".toList =
        ["# skip".toList, "jmp 6".toList, [], "nop".toList, [], "pop r0".toList] := by
      decide +kernel
    have comment : Assembly.Blank "# skip".toList := Assembly.blank_iff.2 (by decide +kernel)
    rw [first, second]
    refine .inserted comment (.instruction (i := is[0])
      (j := ⟨.jump, none, .literal (.ofNat 6), .unused, 2, "jmp 6"⟩) ?_ ?_ (by decide +kernel)
      (.inserted Assembly.blank_nil (.instruction (i := is[1])
        (j := ⟨.nop, none, .unused, .unused, 4, "nop"⟩) ?_ ?_ (by decide +kernel)
        (.inserted Assembly.blank_nil (.instruction (i := is[2])
          (j := ⟨.pop, some (.register 0), .unused, .unused, 6, "pop r0"⟩) ?_ ?_
          (by decide +kernel) .done)))))
    all_goals exact Assembly.readLine_some.1 (by decide +kernel)
  obtain ⟨runs, texts⟩ := renumbered_lockstep increasing small
  have faulted : (m.outcome 2 p).status = .failed ⟨.stackOverflow, 3, "pop r0"⟩ := by
    decide +kernel
  have enough : ¬ m.config.FallsShort p.requirements := by decide +kernel
  obtain ⟨q, found, same⟩ := texts _ _ assembled moved
  refine ⟨increasing, small, assembled, faulted, ?_, q, found, same m⟩
  rw [(runs m 2).2.2.1 enough, faulted]
  rfl

/-- A program that needs more registers than there are is refused without a line, so the new number
of line zero is nowhere to be seen. -/
theorem refused_not_renumbered :
    let is : List Instruction :=
      [⟨.increment, some (.register 16), .unused, .unused, 1, "inc r16"⟩]
    let p := Program.ofInstructions is
    let m : Machine Peripheral := .new {} #[]
    StrictMono (· + 1) ∧ Labelled (· + 1) is ∧
      (m.outcome 1 p).error?.map (·.line) = some 0 ∧
      (m.outcome 1 (p.renumbered (· + 1))).error?.map (·.line) = some 0 ∧
      (m.outcome 1 (p.renumbered (· + 1))).status ≠
        (m.outcome 1 p).status.mapError (.renumbered (· + 1)) := by
  intro is p m
  have increasing : StrictMono (· + 1 : Nat → Nat) := fun a b less => by
    dsimp only
    omega
  have small : Labelled (· + 1) is := by
    constructor
    · decide
    · intro i member jump
      rw [List.mem_singleton.1 member] at jump
      cases jump
    · decide
    · intro i member jump
      rw [List.mem_singleton.1 member] at jump
      cases jump
  exact ⟨increasing, small, by decide +kernel, by decide +kernel, by decide +kernel⟩

end FloatMachine
