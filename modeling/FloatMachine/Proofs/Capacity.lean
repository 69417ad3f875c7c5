import FloatMachine.Devices.Peripheral
import FloatMachine.Proofs.Assembled
import FloatMachine.Proofs.Needs
import FloatMachine.Proofs.Runs
import FloatMachine.Proofs.Steps

/-! A machine keeps the capacities that it was built with, and a run that is not refused finds
every register and device slot it asks for. -/
namespace FloatMachine

namespace Stack

variable {Allowed : Fault → Prop} {cells : Nat}

theorem push_size (overflow : Allowed .stackOverflow) (v : Binary32) :
    Keeps (fun s => s.cells.size = cells) Allowed (push v) fun _ => True := by
  intro s size
  unfold push
  split
  · exact .ok (by simpa using size) trivial
  · exact .error size overflow

theorem pop_size (overflow : Allowed .stackOverflow) :
    Keeps (fun s => s.cells.size = cells) Allowed pop fun _ => True := by
  intro s size
  unfold pop
  split
  · exact .ok size trivial
  · exact .error size overflow

theorem setPointer_size (overflow : Allowed .stackOverflow) (v : Binary32) :
    Keeps (fun s => s.cells.size = cells) Allowed (setPointer v) fun _ => True :=
  setPointer_keeps overflow (fun _ _ size => size) v

end Stack

def Program.Complete (p : Program) : Prop :=
  ∀ i ∈ p.instructions, i.operation.shape.hasDestination = true → i.destination.isSome = true

theorem Program.complete_of_shaped {p : Program} (shaped : ∀ i ∈ p.instructions, i.WellShaped) :
    p.Complete := by
  intro i member takes
  exact (shaped i member).trans takes

theorem Program.complete_of_origin {p : Program}
    (origin : (∃ source, Assembly.assemble source = .ok p) ∨ ∃ input, fromBytes input = .ok p) :
    p.Complete := by
  rcases origin with ⟨source, assembled⟩ | ⟨input, loaded⟩
  · exact complete_of_shaped (Assembly.assembled_shaped assembled)
  · exact complete_of_shaped (fromBytes_ok.1 loaded).2.shaped

namespace Machine

variable {δ : Type}

structure Sized (c : Config) (m : Machine δ) : Prop where
  config : m.config = c
  registers : m.registers.size = c.registers
  stack : m.stack.cells.size = c.stack
  devices : m.bus.slots.size = c.devices

/-- What a step of the instruction may fault with on a machine of these capacities. -/
def Possible (c : Config) (i : Instruction) : Fault → Prop
  | .requirementsNotMet => False
  | .operationNotImplemented => i.operation.shape.hasDestination = true ∧ i.destination = none
  | .registerOutOfBound => ∃ r, .register r ∈ i.touched ∧ c.registers ≤ r.toNat
  | .deviceOverflow => ∃ a, .device a ∈ i.touched ∧ c.devices ≤ a.slot.toNat
  | _ => True

theorem possible_of_refuses {c : Config} {i : Instruction} {a : DeviceAddress}
    (touched : .device a ∈ i.touched) {f : Fault} (refused : Bus.Refuses c.devices a f) :
    Possible c i f := by
  rcases refused with rfl | rfl | ⟨rfl, outside⟩
  · trivial
  · trivial
  · exact ⟨a, touched, outside⟩

theorem Sized.onStack_keeps {α : Type} {c : Config} {Allowed : Fault → Prop}
    {act : Stack.Action α}
    (held : Keeps (fun s => s.cells.size = c.stack) Allowed act fun _ => True) :
    Keeps (Sized (δ := δ) c) Allowed (onStack act) fun _ => True :=
  Machine.onStack_keeps held (fun _ sized => sized.stack) fun _ _ sized size =>
    ⟨sized.config, sized.registers, size, sized.devices⟩

theorem Sized.onBus_keeps {α : Type} {c : Config} {Allowed : Fault → Prop}
    {act : Bus.Action δ α}
    (held : Keeps (fun b => b.slots.size = c.devices) Allowed act fun _ => True) :
    Keeps (Sized c) Allowed (onBus act) fun _ => True :=
  Machine.onBus_keeps held (fun _ sized => sized.devices) fun _ _ sized size =>
    ⟨sized.config, sized.registers, sized.stack, size⟩

theorem readRegister_sized {c : Config} {i : Instruction} {r : UInt32}
    (touched : .register r ∈ i.touched) :
    Keeps (Sized (δ := δ) c) (Possible c i) (readRegister r) fun _ => True := by
  intro m sized
  unfold readRegister
  split
  · exact .ok sized trivial
  · rename_i outside
    exact .error sized ⟨r, touched, sized.registers ▸ Array.getElem?_eq_none_iff.1 outside⟩

theorem writeRegister_sized {c : Config} {i : Instruction} {r : UInt32}
    (touched : .register r ∈ i.touched) (v : Binary32) :
    Keeps (Sized (δ := δ) c) (Possible c i) (writeRegister r v) fun _ => True := by
  intro m sized
  unfold writeRegister
  split
  · have size : (m.registers.set r.toNat v).size = c.registers := by simpa using sized.registers
    exact .ok ⟨sized.config, size, sized.stack, sized.devices⟩ trivial
  · rename_i outside
    exact .error sized ⟨r, touched, sized.registers ▸ Nat.not_lt.1 outside⟩

theorem reset_sized {c : Config} {m : Machine δ} (sized : Sized c m) : Sized c m.reset := by
  constructor
  · exact sized.config
  · simpa [reset] using sized.registers
  · simpa [reset, Stack.reset, Stack.empty] using sized.stack
  · exact sized.devices

theorem plug_sized {c : Config} {m : Machine δ} (sized : Sized c m) (slot : Nat)
    (device : Option Nat) : Sized c { m with bus := (m.bus.plug slot device).2 } := by
  constructor
  · exact sized.config
  · exact sized.registers
  · exact sized.stack
  · rw [Bus.plug_slots]
    exact sized.devices

variable [Device δ]

theorem read_sized {c : Config} {i : Instruction} {o : Operand} (touched : o ∈ i.touched) :
    Keeps (Sized (δ := δ) c) (Possible c i) (read o) fun _ => True := by
  cases o with
  | literal v => exact Keeps.pure trivial
  | register r => exact readRegister_sized touched
  | stackPointer => exact Keeps.bind Keeps.get fun _ _ => Keeps.pure trivial
  | returnAddress => exact Keeps.bind Keeps.get fun _ _ => Keeps.pure trivial
  | device a =>
    unfold read
    apply Sized.onBus_keeps
    exact Keeps.mono (Bus.read_keeps c.devices a) fun f => possible_of_refuses touched

theorem write_sized {c : Config} {i : Instruction} {d : Destination}
    (touched : d.toOperand ∈ i.touched) (v : Binary32) :
    Keeps (Sized (δ := δ) c) (Possible c i) (write d v) fun _ => True := by
  cases d with
  | register r => exact writeRegister_sized touched v
  | stackPointer => exact Sized.onStack_keeps (Stack.setPointer_size trivial v)
  | returnAddress =>
    refine Keeps.modify fun m sized => ?_
    exact ⟨sized.config, sized.registers, sized.stack, sized.devices⟩
  | device a =>
    unfold write
    apply Sized.onBus_keeps
    exact Keeps.mono (Bus.write_keeps c.devices a v) fun f => possible_of_refuses touched

theorem sized_respects (c : Config) (i : Instruction) :
    Respects (δ := δ) i (Sized c) (fun _ => True) (Possible c i) where
  number := fun _ _ => trivial
  read := fun o touched => read_sized touched
  write := fun d given v _ => write_sized (destination_touched given) v
  push := fun v _ => Sized.onStack_keeps (Stack.push_size trivial v)
  pop := Sized.onStack_keeps (Stack.pop_size trivial)
  peek := Sized.onStack_keeps (Stack.peek_keeps trivial)
  link := fun _ _ sized => ⟨sized.config, sized.registers, sized.stack, sized.devices⟩
  missing := fun takes none => ⟨takes, none⟩
  refusal := by
    intro f member
    simp only [List.mem_cons, List.not_mem_nil, or_false] at member
    rcases member with rfl | rfl | rfl | rfl <;> trivial

theorem outcome_sound {c : Config} {m : Machine δ} {p : Program} (sized : Sized c m)
    (enough : ¬ m.config.FallsShort p.requirements) (fuel : Nat) :
    Execution.Sound p.instructions (Sized c) (Possible c) (m.outcome fuel p) := by
  rw [outcome_eq, start_accepted enough]
  refine Execution.after_sound (fun i _ => (sized_respects c i).step_keeps p.instructions) ?_ fuel
  constructor
  · exact reset_sized sized
  · intro e h
    cases h

theorem outcome_sized {c : Config} {m : Machine δ} (sized : Sized c m) (fuel : Nat)
    (p : Program) : Sized c (m.outcome fuel p).machine := by
  by_cases short : m.config.FallsShort p.requirements
  · rw [outcome_refused short]
    exact reset_sized sized
  · exact (outcome_sound sized short fuel).machine

theorem Built.sized {m : Machine δ} (built : m.Built) : ∃ c, Sized c m := by
  induction built with
  | new c devices => exact ⟨c, rfl, by simp [Machine.new], by simp [Machine.new, Stack.empty],
      by simp [Machine.new, Bus.empty]⟩
  | attach slot device _ ih =>
    obtain ⟨c, sized⟩ := ih
    exact ⟨c, plug_sized sized slot (some device)⟩
  | detach slot _ ih =>
    obtain ⟨c, sized⟩ := ih
    exact ⟨c, plug_sized sized slot none⟩
  | run fuel p _ ih =>
    obtain ⟨c, sized⟩ := ih
    have after := outcome_sized sized fuel p
    exact ⟨c, after.config, after.registers, after.stack, after.devices⟩

/-- How a run stands that was refused: the machine is at its start, the devices are as they were
and untouched. -/
structure Refused (m : Machine δ) (p : Program) (x : Execution δ) : Prop where
  status : x.status = .failed ⟨.requirementsNotMet, 0,
    "; ".intercalate (m.config.shortfall p.requirements)⟩
  registers : x.machine.registers = Array.replicate m.config.registers .zero
  stack : x.machine.stack = Stack.empty m.config.stack
  returnAddress : x.machine.returnAddress = .zero
  accesses : x.machine.bus.accesses = #[]
  slots : x.machine.bus.slots = m.bus.slots
  devices : x.machine.bus.devices = m.bus.devices

theorem refused_of_short {c : Config} {m : Machine δ} {p : Program} (sized : Sized c m)
    (short : m.config.FallsShort p.requirements) (fuel : Nat) :
    Refused m p (m.outcome fuel p) := by
  have registers : m.registers.size = m.config.registers := by
    rw [sized.registers, sized.config]
  have cells : m.stack.cells.size = m.config.stack := by
    rw [sized.stack, sized.config]
  rw [outcome_refused short]
  refine ⟨rfl, ?_, ?_, rfl, rfl, rfl, rfl⟩
  · rw [← registers]
    rfl
  · rw [← cells]
    rfl

theorem places_found {c : Config} {is : List Instruction} {i : Instruction} (member : i ∈ is)
    (enough : ¬ c.FallsShort (Requirements.of is)) {f : Fault} (possible : Possible c i f) :
    f ≠ .requirementsNotMet ∧ f ≠ .registerOutOfBound ∧ f ≠ .deviceOverflow := by
  simp only [Config.FallsShort, not_or, Nat.not_lt] at enough
  obtain ⟨registers, -, devices⟩ := enough
  refine ⟨?_, ?_, ?_⟩
  · rintro rfl
    exact possible
  · rintro rfl
    obtain ⟨r, touched, outside⟩ := possible
    have inside : r.toNat < (Requirements.of is).registers.toNat :=
      Requirements.of_covers member touched
    omega
  · rintro rfl
    obtain ⟨a, touched, outside⟩ := possible
    have inside : a.slot.toNat < (Requirements.of is).devices.toNat :=
      Requirements.of_covers member touched
    omega

/- Wherever a run has jumped to, its fault is one that some instruction may raise here. -/
theorem fault_possible {c : Config} {m : Machine δ} {p : Program} (sized : Sized c m)
    (enough : ¬ m.config.FallsShort p.requirements) {fuel : Nat} {e : ExecutionError}
    (failed : (m.outcome fuel p).error? = some e) :
    ∃ i ∈ p.instructions, Possible m.config i e.fault := by
  have stopped := (outcome_sound sized enough fuel).stopped e (Execution.error?_eq_some.1 failed)
  obtain ⟨i, member, -, -, possible⟩ := stopped
  exact ⟨i, member, sized.config ▸ possible⟩

theorem refused_iff_short {c : Config} {m : Machine δ} (sized : Sized c m)
    (is : List Instruction) (fuel : Nat) :
    (∃ e, (m.outcome fuel (.ofInstructions is)).error? = some e ∧ e.fault = .requirementsNotMet) ↔
      m.config.FallsShort (Requirements.of is) := by
  constructor
  · rintro ⟨e, failed, refusal⟩
    by_contra enough
    obtain ⟨i, member, possible⟩ := fault_possible sized enough failed
    exact (places_found member enough possible).1 refusal
  · intro short
    have refused := refused_of_short (p := .ofInstructions is) sized short fuel
    exact ⟨_, Execution.error?_eq_some.2 refused.status, rfl⟩

/-- A run is refused exactly when a capacity falls short of what the program needs, and then
leaves everything at its start; any other run finds every register, device slot and destination
that its instructions name, wherever it jumps. -/
theorem requirements_sound {m : Machine δ} (built : m.Built) (is : List Instruction) (fuel : Nat) :
    let p := Program.ofInstructions is
    let x := m.outcome fuel p
    let refused := ∃ e, x.error? = some e ∧ e.fault = .requirementsNotMet
    (refused ↔ m.config.FallsShort p.requirements) ∧
    (refused → Refused m p x ∧ ∀ {μ : Type → Type} [Monad μ] (observe : Snapshot → μ Unit),
      m.run observe fuel p = pure x) ∧
    (¬ refused → ∀ e, x.error? = some e →
      e.fault ≠ .registerOutOfBound ∧ e.fault ≠ .deviceOverflow ∧
      (p.Complete → e.fault ≠ .operationNotImplemented)) ∧
    ((∃ source, Assembly.assemble source = .ok p) ∨ (∃ input, Program.fromBytes input = .ok p) →
      p.Complete) ∧
    (m.config = Config.fitting p → (refused ↔
      0x10000 < p.requirements.registers.toNat ∨ 0x10000 < p.requirements.stack.toNat)) := by
  intro p x refused
  obtain ⟨c, sized⟩ := built.sized
  have refusal : refused ↔ m.config.FallsShort p.requirements := refused_iff_short sized is fuel
  refine ⟨refusal, ?_, ?_, Program.complete_of_origin, ?_⟩
  · intro h
    have short := refusal.1 h
    refine ⟨refused_of_short sized short fuel, fun observe => ?_⟩
    rw [run_refused short, ← outcome_refused short fuel]
  · intro accepted e failed
    have enough := mt refusal.2 accepted
    obtain ⟨i, member, possible⟩ := fault_possible sized enough failed
    obtain ⟨-, register, device⟩ := places_found member enough possible
    refine ⟨register, device, ?_⟩
    intro complete missing
    rw [missing] at possible
    obtain ⟨takes, none⟩ := possible
    have present := complete i member takes
    rw [none] at present
    cases present
  · intro fitting
    rw [refusal, fitting]
    exact Config.fitting_fallsShort

/-- One register too many for the least machine; on a fitting one the loop never stops. -/
theorem requirements_sound_loop :
    let p := Program.ofInstructions
      [⟨.move, some (.register 16), .literal .one, .unused, 1, "mov r16, 1"⟩,
        ⟨.jump, none, .literal .one, .unused, 2, "jmp 1"⟩]
    let small : Machine Peripheral := new {} #[]
    let large : Machine Peripheral := new (.fitting p) #[]
    Refused small p (small.outcome 3 p) ∧
      ∀ fuel e, (large.outcome fuel p).error? = some e →
        e.fault ≠ .requirementsNotMet ∧ e.fault ≠ .registerOutOfBound ∧
          e.fault ≠ .operationNotImplemented := by
  intro p small large
  constructor
  · obtain ⟨exactly, refused, -⟩ :=
      requirements_sound (Built.new {} #[] : small.Built) p.instructions 3
    exact (refused (exactly.2 (by decide))).1
  · intro fuel e failed
    obtain ⟨exactly, -, found, -, -⟩ :=
      requirements_sound (Built.new (.fitting p) #[] : large.Built) p.instructions fuel
    have accepted := mt exactly.1 (by decide)
    obtain ⟨register, -, destination⟩ := found accepted e failed
    refine ⟨fun refusal => accepted ⟨e, failed, refusal⟩, register, destination ?_⟩
    intro i member takes
    exact (by decide : ∀ i ∈ p.instructions, i.operation.shape.hasDestination = true →
      i.destination.isSome = true) i member takes

end Machine
end FloatMachine
