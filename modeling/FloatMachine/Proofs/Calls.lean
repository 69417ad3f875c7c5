import FloatMachine.Proofs.Hidden
import FloatMachine.Proofs.Jumps
import FloatMachine.Proofs.Parts

/-! Calls and returns. A call leaves the number of a line in the return address, and until some
instruction writes there a jump through it leads to that line as far as single precision tells the
number. -/
namespace FloatMachine

namespace Instruction

/-- The instruction gives the return address a value. -/
def Links (i : Instruction) : Prop :=
  i.written = some .returnAddress ∨ i.operation = .jumpReturn

end Instruction

namespace Machine

variable {δ : Type} [Device δ] {v : Binary32}

omit [Device δ] in
theorem onStack_returnAddress {α : Type} (act : Stack.Action α) :
    Keeps (fun m : Machine δ => m.returnAddress = v) (fun _ => True) (onStack act)
      fun _ => True :=
  onStack_keeps (Keeps.any act) (fun _ _ => trivial) fun _ _ kept _ => kept

theorem write_returnAddress {d : Destination} (other : d ≠ .returnAddress) (w : Binary32) :
    Keeps (fun m : Machine δ => m.returnAddress = v) (fun _ => True) (write d w)
      fun _ => True := by
  cases d with
  | register r => exact writeRegister_untouched (fun _ _ kept => kept) r w
  | stackPointer => exact onStack_returnAddress (Stack.setPointer w)
  | returnAddress => exact (other rfl).elim
  | device a => exact onBus_untouched (fun _ _ kept => kept) (Bus.write a w)

theorem step_returnAddress (program : List Instruction) {i : Instruction} (quiet : ¬ i.Links) :
    Keeps (fun m : Machine δ => m.returnAddress = v) (fun _ => True) (step program i)
      fun _ => True := by
  apply (step_made program i).keeps
  intro α act part
  cases part with
  | read _ => exact read_untouched (fun _ _ kept => kept) _
  | @write d w written =>
    apply write_returnAddress
    rintro rfl
    exact quiet (Or.inl written)
  | push w _ => exact onStack_returnAddress _
  | pop _ => exact onStack_returnAddress _
  | peek _ => exact onStack_returnAddress _
  | link program operation => exact (quiet (Or.inr operation)).elim

theorem find?_later (program : List Instruction) {line : UInt64} (small : line.toNat < 2 ^ 64 - 1) :
    program.find? (fun i => decide (line + 1 < i.line)) =
      program.find? fun i => decide (line.toNat + 1 < i.line.toNat) := by
  have next : (line + 1).toNat = line.toNat + 1 := by
    rw [UInt64.toNat_add, UInt64.toNat_one, Nat.mod_eq_of_lt (by omega)]
  simp only [UInt64.lt_iff_toNat_lt, next]

theorem step_call {program : List Instruction} {i : Instruction} {m n : Machine δ} {flow : Flow}
    (call : i.operation = .jumpReturn) (ended : step program i m = (.ok flow, n)) :
    n.returnAddress = returnLine program i.line := by
  simp only [step, call, bind_ok, pure_ok] at ended
  obtain ⟨_, _, -, _, _, -, _, s, -, _, t, linked, -, rfl⟩ := ended
  cases linked
  rfl

end Machine

namespace Execution

variable {δ : Type} [Device δ] {program : List Instruction}

/-- The instructions that have been executed after at most that many steps. -/
def executed (program : List Instruction) : Nat → Execution δ → List Instruction
  | 0, _ => []
  | fuel + 1, x => (x.next program).1.toList ++ executed program fuel (x.next program).2

theorem executed_succ (program : List Instruction) (fuel : Nat) (x : Execution δ) :
    executed program (fuel + 1) x =
      executed program fuel x ++ ((after program fuel x).next program).1.toList := by
  induction fuel generalizing x with
  | zero => simp [executed, after]
  | succ fuel ih => rw [executed, ih, executed, after, List.append_assoc]

theorem settled {x : Execution δ} {fuel more : Nat} (le : fuel ≤ more)
    (stopped : ∀ place, (after program fuel x).status ≠ .running place) :
    after program more x = after program fuel x ∧
      executed program more x = executed program fuel x ∧
      seen program more x = seen program fuel x := by
  induction more, le using Nat.le_induction with
  | base => exact ⟨rfl, rfl, rfl⟩
  | succ more _ ih =>
    obtain ⟨ends, done, views⟩ := ih
    rw [after_succ, executed_succ, seen_succ, ends, done, views, next_stopped stopped]
    simp

/-- While a run goes on and no instruction of it links, the return address stays. -/
theorem after_returnAddress {x : Execution δ} {fuel place : Nat}
    (quiet : ∀ i ∈ executed program fuel x, ¬ i.Links)
    (going : (after program fuel x).status = .running place) :
    (after program fuel x).machine.returnAddress = x.machine.returnAddress := by
  induction fuel generalizing x with
  | zero => rfl
  | succ fuel ih =>
    rw [executed, List.forall_mem_append] at quiet
    rw [after] at going ⊢
    rw [ih quiet.2 going]
    rcases done : (x.next program).1 with _ | i
    · rw [after_stopped (next_none done)] at going
      exact (next_none done place going).elim
    · obtain ⟨here, flow, m, -, -, ended, same⟩ := next_some done
      have silent : ¬ i.Links := quiet.1 i (by rw [done]; exact List.mem_singleton_self i)
      rw [same]
      exact ((Machine.step_returnAddress program silent).ok rfl ended).1

/-- From here the run comes to a `jmp ra` before the return address gets another value. -/
structure Returns (program : List Instruction) (x : Execution δ) (back : Instruction) (place : Nat)
    (m : Machine δ) : Prop where
  kept : ∃ fuel, after program fuel x = ⟨m, .running place⟩ ∧
    ∀ i ∈ executed program fuel x, ¬ i.Links
  fetched : program[place]? = some back
  jump : back.operation = .jump
  target : back.left = .returnAddress

theorem Returns.returnAddress {x : Execution δ} {back : Instruction} {place : Nat} {m : Machine δ}
    (returns : Returns program x back place m) : m.returnAddress = x.machine.returnAddress := by
  obtain ⟨fuel, there, quiet⟩ := returns.kept
  have kept := after_returnAddress quiet (congrArg Execution.status there)
  rwa [there] at kept

end Execution

namespace Assembly

/-- The first line after another one that has an instruction. -/
structure FirstAfter (source : String) (line n : Nat) : Prop where
  after : line < n
  filled : ¬ Vacant source n
  between : ∀ k, line < k → k < n → Vacant source k

theorem exists_firstAfter {source : String} {line k : Nat} (after : line < k)
    (filled : ¬ Vacant source k) : ∃ n, FirstAfter source line n := by
  classical
  have some : ∃ n, line < n ∧ ¬ Vacant source n := ⟨k, after, filled⟩
  obtain ⟨beyond, there⟩ := Nat.find_spec some
  refine ⟨Nat.find some, beyond, there, ?_⟩
  intro j later before
  by_contra occupied
  exact Nat.find_min some before ⟨later, occupied⟩

section Lines

variable {source : String} {p : Program} (assembled : assemble source = .ok p)

include assembled

theorem jump_plain {place : Nat} {i : Instruction} (found : p.instructions[place]? = some i)
    (jump : i.operation = .jump) : i.right = .unused := by
  obtain ⟨offset, raw, -, written⟩ := (assemble_iff.1 assembled).1.sound found
  have hidden := (written_iff.1 written).1.hidden
  apply hidden
  rw [Instruction.hidden, jump]
  exact List.mem_singleton_self _

variable (short : (Text.lines source.toList).length < 2 ^ 63)

include short

theorem returnLine_first {call : Instruction} (member : call ∈ p.instructions) {n : Nat}
    (first : FirstAfter source (call.line.toNat + 1) n) :
    Machine.returnLine p.instructions call.line = .ofNat n := by
  have vacant := fun k => vacant_iff assembled short (n := k)
  obtain ⟨i, there, rfl⟩ : ∃ i ∈ p.instructions, i.line.toNat = n := by
    by_contra none
    apply first.filled
    rw [vacant]
    intro i there same
    exact none ⟨i, there, same⟩
  rw [Machine.returnLine, Machine.find?_later _ (line_short assembled short member)]
  split
  · rename_i j found
    obtain ⟨beyond, front, rest, whole, earlier⟩ := List.find?_eq_some_iff_append.1 found
    have least : i.line.toNat ≤ j.line.toNat := by
      by_contra less
      have empty := first.between _ (of_decide_eq_true beyond) (Nat.not_le.1 less)
      exact (vacant _).1 empty j (List.mem_of_find?_eq_some found) rfl
    -- lines increase, so the first one found is the least one beyond the call
    have order := lines_increasing assembled short
    rw [whole] at there order
    have same : i.line.toNat = j.line.toNat := by
      rcases List.mem_append.1 there with before | later
      · have passed := earlier i before
        simp [first.after] at passed
      · rcases List.mem_cons.1 later with rfl | later
        · rfl
        · have above := (List.pairwise_cons.1 (List.pairwise_append.1 order).2.1).1 i later
          omega
    rw [same]
  · rename_i nothing
    have passed := List.find?_eq_none.1 nothing i there
    simp [first.after] at passed

theorem returnLine_none {call : Instruction} (member : call ∈ p.instructions)
    (nothing : ∀ n, call.line.toNat + 1 < n → Vacant source n) :
    Machine.returnLine p.instructions call.line = .zero := by
  rw [Machine.returnLine, Machine.find?_later _ (line_short assembled short member)]
  split
  · rename_i j found
    have beyond : call.line.toNat + 1 < j.line.toNat := by simpa using List.find?_some found
    exact ((vacant_iff assembled short).1 (nothing _ beyond) j
      (List.mem_of_find?_eq_some found) rfl).elim
  · rfl

/-- A return leads to the line that the return address held, rounded. -/
theorem return_lands {δ : Type} [Device δ] {x : Execution δ} {back : Instruction} {place n : Nat}
    {m : Machine δ} (returns : x.Returns p.instructions back place m)
    (held : x.machine.returnAddress = .ofNat n) :
    Lands source p back (Binary32.ofNat n).whole
      ((⟨m, .running place⟩ : Execution δ).next p.instructions).2.status := by
  have target : Machine.read back.left m = (.ok (.ofNat n), m) := by
    rw [returns.target, ← held, ← returns.returnAddress]
    rfl
  exact jump_lands assembled short returns.fetched (Or.inl returns.jump) target
    (jump_plain assembled returns.fetched returns.jump)

end Lines

/-- After a call the return address is the number of the first line more than one after that of the
call that has an instruction, and a return leads to the line that this number is rounded to: to the
line itself exactly when it is not rounded, as up to two to the power of 24. Where there is no such
line the return address is zero, and a return faults. -/
theorem call_returns {source : String} {p : Program} (assembled : assemble source = .ok p)
    (short : (Text.lines source.toList).length < 2 ^ 63) {δ : Type} [Device δ] {x : Execution δ}
    {call : Instruction} (called : (x.next p.instructions).1 = some call)
    (links : call.operation = .jumpReturn) :
    let y := (x.next p.instructions).2
    let status (place : Nat) (m : Machine δ) :=
      ((⟨m, .running place⟩ : Execution δ).next p.instructions).2.status
    ((∃ k, call.line.toNat + 1 < k ∧ ¬ Vacant source k) →
      ∃ n, FirstAfter source (call.line.toNat + 1) n ∧ y.machine.returnAddress = .ofNat n ∧
        (n ≤ 2 ^ 24 → (Binary32.ofNat n).whole = n) ∧
        ∀ back place m, y.Returns p.instructions back place m →
          Lands source p back (Binary32.ofNat n).whole (status place m) ∧
          (Lands source p back n (status place m) ↔ (Binary32.ofNat n).whole = n)) ∧
    ((∀ n, call.line.toNat + 1 < n → Vacant source n) →
      y.machine.returnAddress = .zero ∧
      ∀ back place m, y.Returns p.instructions back place m →
        status place m = .failed ⟨.invalidJump, back.line, back.text⟩) := by
  intro y status
  obtain ⟨here, flow, after, -, fetched, ended, same⟩ := Execution.next_some called
  have member : call ∈ p.instructions := List.mem_of_getElem? fetched
  have linked : y.machine.returnAddress = Machine.returnLine p.instructions call.line := by
    have machine : y.machine = after := congrArg Execution.machine same
    rw [machine, Machine.step_call links ended]
  constructor
  · rintro ⟨k, beyond, filled⟩
    obtain ⟨n, first⟩ := exists_firstAfter beyond filled
    have address : y.machine.returnAddress = .ofNat n :=
      linked.trans (returnLine_first assembled short member first)
    refine ⟨n, first, address, Binary32.whole_ofNat, ?_⟩
    intro back place m returns
    have lands := return_lands assembled short returns address
    refine ⟨lands, (lands.iff assembled short).trans ?_⟩
    constructor
    · intro either
      rcases either with kept | ⟨-, vacant⟩
      · exact kept
      · exact (first.filled vacant).elim
    · exact Or.inl
  · intro nothing
    have address : y.machine.returnAddress = .zero :=
      linked.trans (returnLine_none assembled short member nothing)
    refine ⟨address, ?_⟩
    intro back place m returns
    -- no instruction stands on line zero
    have zero : Binary32.zero = .ofNat 0 := by decide +kernel
    have lands : Lands source p back _ (status place m) :=
      return_lands assembled short returns (address.trans zero)
    rw [Binary32.whole_ofNat (by decide)] at lands
    generalize status place m = ended at lands ⊢
    cases lands with
    | found stands => exact (stands.not_vacant assembled short (vacant_zero source)).elim
    | missing _ => rfl

/-- The line right after the call is passed over, and the one after it is the place to return. -/
theorem call_returns_third :
    let source := "jra 4\nret\nassert r0 1\ninc r0\njmp ra"
    let back : Instruction := ⟨.jump, none, .returnAddress, .unused, 5, "jmp ra"⟩
    let p := Program.ofInstructions
      [⟨.jumpReturn, none, .literal (.ofNat 4), .unused, 1, "jra 4"⟩,
        ⟨.ret, none, .unused, .unused, 2, "ret"⟩,
        ⟨.assert, some (.register 0), .literal .one, .unused, 3, "assert r0 1"⟩,
        ⟨.increment, some (.register 0), .unused, .unused, 4, "inc r0"⟩, back]
    let x := Execution.start (.new {} #[] : Machine Peripheral) p
    let z := ((x.next p.instructions).2.next p.instructions).2
    assemble source = .ok p ∧ (x.next p.instructions).2.machine.returnAddress = .ofNat 3 ∧
      z.status = .running 4 ∧ Lands source p back 3 (z.next p.instructions).2.status := by
  intro source back p x z
  have assembled : assemble source = .ok p := by decide +kernel
  have short : (Text.lines source.toList).length < 2 ^ 63 := by decide +kernel
  have stands : StandsOn source p 3 2 := (standsOn_iff assembled short).2 ⟨_, rfl, rfl⟩
  have filled : ¬ Vacant source 3 := stands.not_vacant assembled short
  have status : z.status = .running 4 := by decide +kernel
  have called : (x.next p.instructions).1 =
      some ⟨.jumpReturn, none, .literal (.ofNat 4), .unused, 1, "jra 4"⟩ := by decide +kernel
  have between : Execution.executed p.instructions 1 (x.next p.instructions).2 =
      [⟨.increment, some (.register 0), .unused, .unused, 4, "inc r0"⟩] := by decide +kernel
  have quiet : ∀ i ∈ Execution.executed p.instructions 1 (x.next p.instructions).2, ¬ i.Links := by
    rw [between, List.forall_mem_singleton]
    rintro (written | operation)
    · cases written
    · cases operation
  have returns : (x.next p.instructions).2.Returns p.instructions back 4 z.machine := by
    refine ⟨⟨1, ?_, quiet⟩, rfl, rfl, rfl⟩
    change z = _
    rw [← status]
  obtain ⟨n, first, address, small, lands⟩ :=
    (call_returns assembled short called rfl).1 ⟨3, by decide, filled⟩
  obtain rfl : n = 3 := by
    have after : 2 < n := first.after
    by_contra other
    exact filled (first.between 3 (by decide) (by omega))
  have there : z = ⟨z.machine, .running 4⟩ := by rw [← status]
  refine ⟨assembled, address, status, ?_⟩
  rw [there]
  exact (lands back 4 z.machine returns).2.2 (small (by decide))

/-- A call in a text of 2^24 + 1 lines, the last of which it links to. -/
def farReturn : String := gapped ["jra 2".toList, "jmp ra".toList] 16777214 "ret".toList

def farReturnProgram : Program := .ofInstructions
  [⟨.jumpReturn, none, .literal (.ofNat 2), .unused, 1, "jra 2"⟩,
    ⟨.jump, none, .returnAddress, .unused, 2, "jmp ra"⟩,
    ⟨.ret, none, .unused, .unused, 16777217, "ret"⟩]

theorem farReturn_plain : ∀ line ∈ ["ret".toList, "jra 2".toList, "jmp ra".toList],
    '\n' ∉ line ∧ '\r' ∉ line := by
  decide +kernel

theorem assemble_farReturn : assemble farReturn = .ok farReturnProgram := by
  have first : Written 1 "jra 2".toList
      ⟨.jumpReturn, none, .literal (.ofNat 2), .unused, 1, "jra 2"⟩ :=
    readLine_some.1 (by decide +kernel)
  have second : Written 2 "jmp ra".toList
      ⟨.jump, none, .returnAddress, .unused, 2, "jmp ra"⟩ := readLine_some.1 (by decide +kernel)
  have last : Written 16777217 "ret".toList
      ⟨.ret, none, .unused, .unused, 16777217, "ret"⟩ := readLine_some.1 (by decide +kernel)
  exact assemble_gapped farReturn_plain 16777214 (.instruction first (.instruction second .done))
    last

/-- The return address is rounded to the line before, and the return faults. -/
theorem return_misses_line : ∃ source p,
    assemble source = .ok p ∧ FirstAfter source 2 16777217 ∧ StandsOn source p 16777217 2 ∧
      p.instructions.map Instruction.toText = ["jra 2", "jmp ra", "ret"] ∧
      ((.new {} #[] : Machine Peripheral).outcome 1 p).status = .running 1 ∧
      ((.new {} #[] : Machine Peripheral).outcome 2 p).error? =
        some ⟨.invalidJump, 2, "jmp ra"⟩ := by
  have assembled := assemble_farReturn
  have length : (Text.lines farReturn.toList).length = 2 + (16777214 + 1) :=
    length_gapped farReturn_plain 16777214
  have short : (Text.lines farReturn.toList).length < 2 ^ 63 := by omega
  have stands : StandsOn farReturn farReturnProgram 16777217 2 :=
    (standsOn_iff assembled short).2 ⟨_, rfl, rfl⟩
  have first : FirstAfter farReturn 2 16777217 := by
    refine ⟨by decide, stands.not_vacant assembled short, ?_⟩
    intro k after before
    apply (vacant_iff assembled short).2
    simp only [farReturnProgram, Program.ofInstructions, List.forall_mem_cons]
    refine ⟨?_, ?_, ?_, fun i nothing => (List.not_mem_nil nothing).elim⟩
    · change 1 ≠ k
      omega
    · change 2 ≠ k
      omega
    · change 16777217 ≠ k
      omega
  exact ⟨_, _, assembled, first, stands, by decide +kernel, by decide +kernel, by decide +kernel⟩

end Assembly
end FloatMachine
