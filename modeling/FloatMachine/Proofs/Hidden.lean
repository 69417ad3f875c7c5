import FloatMachine.Proofs.Capacity
import FloatMachine.Proofs.Faults
import FloatMachine.Proofs.Untexted

/-! Operands that the source form of an instruction leaves out. The assembler has nothing stand
there, but the loader does not look, and a step resolves whatever it finds. A run can tell only when
it is the address of a device. -/
namespace FloatMachine

namespace Instruction

/-- The operands that the source form leaves out. -/
def hidden (i : Instruction) : List Operand :=
  [i.left, i.right].drop i.operation.shape.operandCount

/-- A destination is there exactly when the shape takes one, and nothing stands in the positions
that it does not use. -/
structure Modelled (i : Instruction) : Prop where
  shaped : i.WellShaped
  hidden : ∀ o ∈ i.hidden, o = .unused

/-- The instruction that the source form tells of. -/
def bare (i : Instruction) : Instruction :=
  { i with
    left := if i.operation.shape.operandCount = 0 then .unused else i.left
    right := if i.operation.shape.operandCount ≤ 1 then .unused else i.right }

theorem hidden_touched {i : Instruction} {o : Operand} (member : o ∈ i.hidden) :
    o ∈ i.touched :=
  List.mem_append_right _ (List.mem_of_mem_drop member)

theorem bare_toText (i : Instruction) : i.bare.toText = i.toText := by
  unfold toText bare
  cases i.operation.shape <;> rfl

end Instruction

/-- The program that a disassembly tells of. -/
def Program.bare (p : Program) : Program :=
  { p with instructions := p.instructions.map Instruction.bare }

namespace Assembly

theorem positions_hidden {operands : List Operand} {count : Nat}
    (all : operands.length = count) :
    ∀ o ∈ [(positions operands).1, (positions operands).2].drop count, o = .unused := by
  subst all
  match operands with
  | [] => simp [positions]
  | [_] => simp [positions]
  | _ :: _ :: _ => simp

theorem Arguments.filled {shape : Shape} {ws : List (List Char)} {d : Option Destination}
    {operands : Operand × Operand} (form : Arguments shape ws d operands) :
    ∃ given, given.length = shape.operandCount ∧ positions given = operands := by
  cases form with
  | plain _ count _ => exact ⟨_, count, rfl⟩
  | targeted _ _ count _ => exact ⟨_, count, rfl⟩

theorem Denotes.hidden {ws : List (List Char)} {i : Instruction}
    (denotes : Denotes ws i.operation i.destination (i.left, i.right)) :
    ∀ o ∈ i.hidden, o = .unused := by
  obtain ⟨args, -, form⟩ := denotes
  obtain ⟨operands, count, same⟩ := form.filled
  have nothing := positions_hidden count
  rwa [same] at nothing

end Assembly

namespace Machine

section Silent

variable {δ : Type} [Device δ]

/-- The operand has a value in every state of these capacities, and reading it changes nothing. -/
def Silent (δ : Type) [Device δ] (c : Config) (o : Operand) : Prop :=
  ∀ m : Machine δ, Sized c m → ∃ v, read o m = (.ok v, m)

theorem silent_of_within {c : Config} {o : Operand} (within : o.Within c.registers c.devices)
    (other : ∀ a, o ≠ .device a) : Silent δ c o := by
  intro m sized
  cases o with
  | literal v => exact ⟨v, rfl⟩
  | register r =>
    have inside : r.toNat < m.registers.size := sized.registers ▸ within
    refine ⟨m.registers[r.toNat], ?_⟩
    simp only [read, readRegister, Array.getElem?_eq_getElem inside]
  | stackPointer => exact ⟨_, rfl⟩
  | returnAddress => exact ⟨_, rfl⟩
  | device a => exact (other a rfl).elim

theorem read_device_moves (a : DeviceAddress) (m : Machine δ) (v : Binary32) :
    read (.device a) m ≠ (.ok v, m) := by
  intro same
  have accesses : (Bus.read a m.bus).2.accesses = m.bus.accesses :=
    congrArg (fun result => result.2.bus.accesses) same
  have answer : (Bus.read a m.bus).1 = .ok v := congrArg Prod.fst same
  unfold Bus.read at accesses answer
  rcases found : m.bus.locate a.slot with f | ⟨place, d⟩
  · rw [found] at answer
    cases answer
  · rw [found] at accesses
    have size := congrArg Array.size accesses
    simp [Bus.replace] at size

theorem silent_iff {c : Config} {m : Machine δ} (sized : Sized c m) {o : Operand}
    (within : o.Within c.registers c.devices) : Silent δ c o ↔ ∀ a, o ≠ .device a := by
  constructor
  · intro silent a same
    obtain ⟨v, unmoved⟩ := silent m sized
    rw [same] at unmoved
    exact read_device_moves a m v unmoved
  · exact silent_of_within within

end Silent

section Bare

variable {δ : Type} [Device δ] {program : List Instruction} {i : Instruction} {c : Config}

/- The operations that use fewer operands throw the others away. -/
theorem step_bare {m : Machine δ} (sized : Sized c m)
    (silent : ∀ o ∈ i.hidden, Silent δ c o) : step program i.bare m = step program i m := by
  have nothing : ∀ n : Machine δ, read .unused n = (.ok .zero, n) := fun _ => rfl
  unfold Instruction.hidden at silent
  cases operation : i.operation with
  | nop | ret | increment | decrement | push | pop | peek =>
    have count : i.operation.shape.operandCount = 0 := by rw [operation]; rfl
    rw [count, List.drop_zero, List.forall_mem_cons, List.forall_mem_singleton] at silent
    obtain ⟨a, first⟩ := silent.1 m sized
    obtain ⟨b, second⟩ := silent.2 m sized
    have bare : i.bare = { i with left := .unused, right := .unused } := by
      unfold Instruction.bare
      rw [count]
      rfl
    unfold step
    simp only [bare, bind_eq, first, second, nothing, operation] <;> rfl
  | move | squareRoot | assert | jump | jumpReturn =>
    have count : i.operation.shape.operandCount = 1 := by rw [operation]; rfl
    rw [count, List.drop_one, List.tail_cons, List.forall_mem_singleton] at silent
    have bare : i.bare = { i with right := .unused } := by
      unfold Instruction.bare
      rw [count]
      rfl
    unfold step
    simp only [bare, bind_eq, nothing, operation]
    rcases read : read i.left m with ⟨f | a, t⟩
    · rfl
    -- the right operand is read from what the left one leaves, which has the same capacities
    · have after := ((read_sized (left_touched i)).ok sized read).1
      obtain ⟨b, second⟩ := silent t after
      simp only [second] <;> rfl
  | add | subtract | multiply | divide | equal | notEqual | greater | greaterOrEqual | lesser |
    lesserOrEqual =>
    have count : i.operation.shape.operandCount = 2 := by rw [operation]; rfl
    have bare : i.bare = i := by
      unfold Instruction.bare
      rw [count]
      rfl
    rw [bare]

end Bare

end Machine

namespace Execution

variable {δ : Type} [Device δ] {program : List Instruction} {c : Config}

theorem mapped_bare (silent : ∀ i ∈ program, ∀ o ∈ i.hidden, Machine.Silent δ c o) :
    Mapped program Instruction.bare id (Machine.Sized (δ := δ) c) where
  kept := fun i _ => ((Machine.sized_respects c i).step_keeps program).mono fun _ _ => trivial
  step := by
    intro i member m sized
    have lines : ∀ j : Instruction, j.bare.line = j.line := fun _ => rfl
    rw [Machine.step_map program lines, Machine.step_bare sized (silent i member)]
  error := fun _ _ _ => rfl

theorem run_bare {x : Execution δ} (sound : Sound program (Machine.Sized c) (Machine.Possible c) x)
    (silent : ∀ i ∈ program, ∀ o ∈ i.hidden, Machine.Silent δ c o) (fuel : Nat) :
    after (program.map Instruction.bare) fuel x = after program fuel x ∧
      seen (program.map Instruction.bare) fuel x = seen program fuel x := by
  have same : ∀ y : Execution δ, y.mapError id = y := by
    rintro ⟨m, status⟩
    cases status <;> rfl
  have shows : ∀ i (m : Machine δ), Snapshot.of i.bare m = id (.of i m) := fun _ _ => rfl
  have ends := (mapped_bare silent).after sound.machine fuel
  have views := (mapped_bare silent).seen sound.machine shows fuel
  rw [same, same] at ends
  rw [same, List.map_id] at views
  exact ⟨ends, views⟩

end Execution

namespace Program

theorem mem_bare {is js : List Instruction}
    (same : is.map Instruction.bare = js.map Instruction.bare) {i : Instruction} (member : i ∈ is) :
    ∃ j ∈ js, j.bare = i.bare := by
  have inside : i.bare ∈ is.map Instruction.bare := List.mem_map_of_mem member
  rw [same] at inside
  exact List.mem_map.1 inside

theorem loadable_of_bare {p : Program} (loadable : p.Loadable) {is : List Instruction}
    (same : is.map Instruction.bare = p.instructions.map Instruction.bare) :
    (ofInstructions is).Loadable := by
  refine { count := ?_, texts := ?_, shaped := ?_, requirements := rfl }
  · have length := congrArg List.length same
    rw [List.length_map, List.length_map] at length
    exact length ▸ loadable.count
  · intro i member
    obtain ⟨j, other, alike⟩ := mem_bare same member
    have text : j.bare.text = i.bare.text := congrArg Instruction.text alike
    have fits : j.Limited := loadable.texts j other
    unfold Instruction.Limited at fits ⊢
    exact text ▸ fits
  · intro i member
    obtain ⟨j, other, alike⟩ := mem_bare same member
    have shaped : j.bare.WellShaped := loadable.shaped j other
    have kept : i.bare.WellShaped := alike ▸ shaped
    exact kept

theorem toText_of_bare {is js : List Instruction}
    (same : is.map Instruction.bare = js.map Instruction.bare) :
    is.map Instruction.toText = js.map Instruction.toText := by
  have texts := congrArg (List.map Instruction.toText) same
  simpa only [List.map_map, Function.comp_def, Instruction.bare_toText] using texts

theorem hidden_within {p : Program} (loadable : p.Loadable) {c : Config}
    (enough : ¬ c.FallsShort p.requirements) {i : Instruction} (member : i ∈ p.instructions)
    {o : Operand} (hidden : o ∈ i.hidden) : o.Within c.registers c.devices := by
  have covered := Requirements.of_covers member (Instruction.hidden_touched hidden)
  rw [← loadable.requirements] at covered
  simp only [Config.FallsShort, not_or, Nat.not_lt] at enough
  cases o with
  | register r => exact Nat.lt_of_lt_of_le covered enough.1
  | device a => exact Nat.lt_of_lt_of_le covered enough.2.2
  | literal | stackPointer | returnAddress => trivial

/-- The loader checks that destinations are there when the shapes ask for them, but lets anything
stand in the positions that the disassembly leaves out. On a machine that meets the requirements
such an operand is read without a fault and without a trace exactly when it is on no device, and if
all of them are, the program runs as its disassembly says. -/
theorem loads_any_hidden {input : Bytes} {p : Program} (loaded : fromBytes input = .ok p) :
    (∀ i ∈ p.instructions, i.WellShaped) ∧
    (∀ is, is.map Instruction.bare = p.instructions.map Instruction.bare →
      fromBytes (ofInstructions is).toBytes = .ok (ofInstructions is) ∧
        is.map Instruction.toText = p.instructions.map Instruction.toText) ∧
    ∀ {δ : Type} [Device δ] {m : Machine δ}, m.Built → ¬ m.config.FallsShort p.requirements →
      (∀ i ∈ p.instructions, ∀ o ∈ i.hidden,
        Machine.Silent δ m.config o ↔ ∀ a, o ≠ .device a) ∧
      ((∀ i ∈ p.instructions, ∀ a, .device a ∉ i.hidden) → ∀ fuel,
        m.outcome fuel p.bare = m.outcome fuel p ∧
          (Execution.start m p.bare).seen p.bare.instructions fuel =
            (Execution.start m p).seen p.instructions fuel) := by
  obtain ⟨-, loadable⟩ := fromBytes_ok.1 loaded
  refine ⟨loadable.shaped, ?_, ?_⟩
  · intro is same
    exact ⟨fromBytes_ok.2 ⟨rfl, loadable_of_bare loadable same⟩, toText_of_bare same⟩
  · intro δ _ m built enough
    obtain ⟨c, sized⟩ := built.sized
    have silent : ∀ i ∈ p.instructions, ∀ o ∈ i.hidden,
        Machine.Silent δ m.config o ↔ ∀ a, o ≠ .device a := by
      intro i member o hidden
      rw [sized.config] at enough ⊢
      exact Machine.silent_iff sized (hidden_within loadable enough member hidden)
    refine ⟨silent, fun bus fuel => ?_⟩
    have start : Execution.start m p = ⟨m.reset, .running 0⟩ := Machine.start_accepted enough
    have sound : Execution.Sound p.instructions (Machine.Sized c) (Machine.Possible c)
        (Execution.start m p) := by
      rw [start]
      exact ⟨Machine.reset_sized sized, by simp⟩
    have quiet : ∀ i ∈ p.instructions, ∀ o ∈ i.hidden, Machine.Silent δ c o := by
      intro i member o hidden
      rw [← sized.config]
      refine (silent i member o hidden).2 fun a same => ?_
      exact bus i member a (same ▸ hidden)
    rw [Machine.outcome_eq, Machine.outcome_eq]
    exact Execution.run_bare sound quiet fuel

/-- The image of one `ret` with an operand in a position that it does not use. -/
def retImage (operand requirements : Bytes) : Bytes :=
  [0x54, 0x43, 0x50, 0x55, 0, 1, 0, 7, 0, 0, 0, 0, 0, 0, 0,
    0x50, 0x52, 0x4f, 0x47, 0x52, 0x41, 0x4d, 1, 0, 0, 0, 0, 0, 0, 0, 0x42, 0] ++ operand ++
    [0, 0, 0, 0, 0, 1, 0, 0, 0, 0, 0, 0, 0, 3, 0, 0, 0, 0, 0, 0, 0, 0x72, 0x65, 0x74] ++
    requirements

/-- A register that is read in vain: the run is that of a plain `ret`. -/
theorem loads_any_hidden_register :
    let p := ofInstructions [⟨.ret, none, .register 3, .unused, 1, "ret"⟩]
    let m : Machine Peripheral := .new {} #[]
    fromBytes (retImage [1, 3, 0, 0, 0]
      [4, 0, 0, 0, 0, 0, 0, 0, 0, 0, 0, 0, 0, 0, 0, 0, 0, 0, 0, 0, 0, 0, 0, 0]) = .ok p ∧
      Machine.Silent Peripheral m.config (.register 3) ∧
      m.outcome 2 (ofInstructions [⟨.ret, none, .unused, .unused, 1, "ret"⟩]) = m.outcome 2 p := by
  intro p m
  have loaded : fromBytes (retImage [1, 3, 0, 0, 0]
      [4, 0, 0, 0, 0, 0, 0, 0, 0, 0, 0, 0, 0, 0, 0, 0, 0, 0, 0, 0, 0, 0, 0, 0]) = .ok p := by
    decide +kernel
  obtain ⟨-, -, runs⟩ := loads_any_hidden loaded
  obtain ⟨silent, alike⟩ := runs (Machine.Built.new {} #[] : m.Built) (by decide)
  have hidden : ∀ i ∈ p.instructions, ∀ a, .device a ∉ i.hidden := by
    intro i member a bus
    rw [List.mem_singleton.1 member] at bus
    simp [Instruction.hidden, Operation.shape, Shape.operandCount, Operand.unused] at bus
  exact ⟨loaded, (silent _ List.mem_cons_self _ (by decide)).2 nofun, (alike hidden 2).1⟩

/-- The address of a device that nothing shows stops a loaded `ret`. -/
theorem hidden_device_faults : ∃ input p,
    fromBytes input = .ok p ∧ (¬ ∀ i ∈ p.instructions, i.Modelled) ∧
      p.instructions.map Instruction.toText = ["ret"] ∧
      ((Machine.new {} #[] : Machine Peripheral).outcome 2 p).error? =
        some ⟨.deviceUnplugged, 1, "ret"⟩ := by
  refine ⟨retImage [4, 0, 0, 0, 0] [0, 0, 0, 0, 0, 0, 0, 0, 0, 0, 0, 0, 0, 0, 0, 0,
    1, 0, 0, 0, 0, 0, 0, 0], ofInstructions [⟨.ret, none, .device ⟨0, 0⟩, .unused, 1, "ret"⟩],
    by decide +kernel, ?_, by decide +kernel, by decide +kernel⟩
  intro modelled
  have unused : Operand.device ⟨0, 0⟩ = .unused :=
    (modelled _ List.mem_cons_self).hidden _ List.mem_cons_self
  cases unused

end Program

end FloatMachine
