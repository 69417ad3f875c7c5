import FloatMachine.Proofs.Capacity
import FloatMachine.Proofs.Parts

/-! Runs do not depend on what a machine has been through. All that a run finds of the past are the
devices in the slots, and it cannot tell at which places the host keeps them. -/
namespace FloatMachine

namespace Bus

variable {δ : Type}

def placeIn (b : Bus δ) (slot : Nat) : Option Nat := b.slots[slot]?.join

def deviceIn (b : Bus δ) (slot : Nat) : Option δ := (b.placeIn slot).bind (b.devices[·]?)

/-- The same slots hold devices in the same states, and what is one device in two slots of one bus
is one device in these slots of the other. -/
structure Alike (b c : Bus δ) : Prop where
  size : b.slots.size = c.slots.size
  device : ∀ slot, b.deviceIn slot = c.deviceIn slot
  shared : ∀ s t, (b.deviceIn s).isSome → (b.deviceIn t).isSome →
    (b.placeIn s = b.placeIn t ↔ c.placeIn s = c.placeIn t)

/-- No device is in two slots. -/
def Exclusive (b : Bus δ) : Prop :=
  ∀ s t, (b.deviceIn s).isSome → b.placeIn s = b.placeIn t → s = t

variable {b c : Bus δ}

theorem alike_of_exclusive (size : b.slots.size = c.slots.size)
    (device : ∀ slot, b.deviceIn slot = c.deviceIn slot) (left : b.Exclusive)
    (right : c.Exclusive) : b.Alike c := by
  refine ⟨size, device, ?_⟩
  intro s t occupied _
  constructor
  · intro same
    rw [left s t occupied same]
  · intro same
    rw [right s t (device s ▸ occupied) same]

theorem exclusive_of_single (slot : Nat) (others : ∀ t, t ≠ slot → b.placeIn t = none) :
    b.Exclusive := by
  have there : ∀ s, (b.placeIn s).isSome → s = slot := by
    intro s some
    by_contra other
    rw [others s other] at some
    cases some
  intro s t occupied same
  have placed : (b.placeIn s).isSome := Option.isSome_of_isSome_bind occupied
  rw [there s placed, there t (same ▸ placed)]

theorem alike_of_places (size : b.slots.size = c.slots.size)
    (places : ∀ slot, b.placeIn slot = c.placeIn slot) (devices : b.devices = c.devices) :
    b.Alike c := by
  refine ⟨size, ?_, ?_⟩
  · intro slot
    rw [deviceIn, deviceIn, places, devices]
  · intro s t _ _
    rw [places, places]

theorem deviceIn_eq_some {slot : Nat} {d : δ} :
    b.deviceIn slot = some d ↔ ∃ place, b.placeIn slot = some place ∧ b.devices[place]? = some d :=
  Option.bind_eq_some_iff

theorem locate_ok {slot : UInt16} {place : Nat} {d : δ}
    (placed : b.placeIn slot.toNat = some place) (held : b.devices[place]? = some d) :
    b.locate slot = .ok (place, d) := by
  unfold placeIn at placed
  unfold locate
  rcases found : b.slots[slot.toNat]? with _ | _ | p <;> rw [found] at placed <;> cases placed
  simp only [held]

theorem locate_none {slot : UInt16} (nothing : b.deviceIn slot.toNat = none) :
    b.locate slot =
      .error (if slot.toNat < b.slots.size then .deviceUnplugged else .deviceOverflow) := by
  unfold deviceIn placeIn at nothing
  unfold locate
  split
  · rename_i outside
    rw [if_neg (Nat.not_lt.2 (Array.getElem?_eq_none_iff.1 outside))]
  · rename_i empty
    rw [if_pos (Array.getElem?_eq_some_iff.1 empty).1]
  · rename_i place plugged
    rw [plugged, Option.join_some, Option.bind_some] at nothing
    rw [nothing, if_pos (Array.getElem?_eq_some_iff.1 plugged).1]

theorem Alike.locate (alike : b.Alike c) (slot : UInt16) :
    (∃ f, b.locate slot = .error f ∧ c.locate slot = .error f) ∨
    ∃ p q d, b.locate slot = .ok (p, d) ∧ c.locate slot = .ok (q, d) := by
  rcases left : b.deviceIn slot.toNat with _ | d
  · have right := (alike.device slot.toNat).symm.trans left
    exact Or.inl ⟨_, locate_none left, alike.size ▸ locate_none right⟩
  · have right := (alike.device slot.toNat).symm.trans left
    obtain ⟨p, placed, held⟩ := deviceIn_eq_some.1 left
    obtain ⟨q, other, same⟩ := deviceIn_eq_some.1 right
    exact Or.inr ⟨p, q, d, locate_ok placed held, locate_ok other same⟩

theorem locate_placed {slot : UInt16} {place : Nat} {d : δ}
    (found : b.locate slot = .ok (place, d)) :
    b.placeIn slot.toNat = some place ∧ place < b.devices.size := by
  unfold Bus.locate at found
  split at found
  · cases found
  · cases found
  · rename_i p plugged
    split at found
    · cases found
    · rename_i held
      cases found
      refine ⟨?_, (Array.getElem?_eq_some_iff.1 held).1⟩
      rw [placeIn, plugged]
      rfl

theorem occupied_of_placed {slot place : Nat} (placed : b.placeIn slot = some place)
    (inside : place < b.devices.size) : (b.deviceIn slot).isSome := by
  rw [deviceIn, placed]
  simpa using inside

theorem deviceIn_replace {place : Nat} (inside : place < b.devices.size) (d : δ) (access : Access)
    (slot : Nat) : (b.replace place d access).deviceIn slot =
      if b.placeIn slot = some place then some d else b.deviceIn slot := by
  have placed : (b.replace place d access).placeIn slot = b.placeIn slot := rfl
  rw [deviceIn, placed, deviceIn]
  rcases b.placeIn slot with _ | p
  · rfl
  · simp only [Option.bind_some, replace, Array.getElem?_setIfInBounds, Option.some.injEq]
    by_cases same : place = p
    · subst same
      simp [inside]
    · rw [if_neg same, if_neg (Ne.symm same)]

/- A device that was in other slots as well has changed in all of them, on both buses. -/
theorem Alike.replace (alike : b.Alike c) {slot : UInt16} {p q : Nat} {d e : δ}
    (left : b.locate slot = .ok (p, d)) (right : c.locate slot = .ok (q, e)) (changed : δ)
    (access : Access) : (b.replace p changed access).Alike (c.replace q changed access) := by
  obtain ⟨placed, inside⟩ := locate_placed left
  obtain ⟨other, within⟩ := locate_placed right
  have occupied := occupied_of_placed placed inside
  have together : ∀ t, b.placeIn t = some p ↔ c.placeIn t = some q := by
    intro t
    rw [← placed, ← other]
    constructor
    · intro same
      exact (alike.shared t _ (occupied_of_placed (same.trans placed) inside) occupied).1 same
    · intro same
      have there := occupied_of_placed (same.trans other) within
      exact (alike.shared t _ (alike.device t ▸ there) occupied).2 same
  have kept : ∀ s, ((b.replace p changed access).deviceIn s).isSome → (b.deviceIn s).isSome := by
    intro s some
    rw [deviceIn_replace inside] at some
    split at some
    · rename_i same
      exact occupied_of_placed same inside
    · exact some
  refine ⟨alike.size, ?_, ?_⟩
  · intro t
    rw [deviceIn_replace inside, deviceIn_replace within, alike.device t]
    simp only [together t]
  · intro s t first second
    exact alike.shared s t (kept s first) (kept t second)

/-- Buses in the middle of the same run. -/
structure InStep (b c : Bus δ) : Prop extends Alike b c where
  accesses : b.accesses = c.accesses

theorem InStep.replace (step : b.InStep c) {slot : UInt16} {p q : Nat} {d e : δ}
    (left : b.locate slot = .ok (p, d)) (right : c.locate slot = .ok (q, e)) (changed : δ)
    (access : Access) : (b.replace p changed access).InStep (c.replace q changed access) where
  toAlike := step.toAlike.replace left right changed access
  accesses := congrArg (·.push access) step.accesses

section Accesses

variable [Device δ]

theorem read_inStep (a : DeviceAddress) : Respectful InStep (read a : Action δ Binary32) := by
  intro b c step
  unfold read
  rcases step.toAlike.locate a.slot with ⟨f, left, right⟩ | ⟨p, q, d, left, right⟩
  · rw [left, right]
    exact ⟨rfl, step⟩
  · rw [left, right]
    exact ⟨rfl, step.replace left right _ _⟩

theorem write_inStep (a : DeviceAddress) (v : Binary32) :
    Respectful InStep (write a v : Action δ Unit) := by
  intro b c step
  unfold write
  rcases step.toAlike.locate a.slot with ⟨f, left, right⟩ | ⟨p, q, d, left, right⟩
  · rw [left, right]
    exact ⟨rfl, step⟩
  · rw [left, right]
    exact ⟨rfl, step.replace left right _ _⟩

end Accesses

theorem placeIn_plug (b : Bus δ) {slot : Nat} (inside : slot < b.slots.size) (held : Option Nat)
    (t : Nat) : (b.plug slot held).2.placeIn t = if t = slot then held else b.placeIn t := by
  rw [plug, dif_pos inside, placeIn, placeIn]
  simp only [Array.getElem?_set]
  by_cases same : t = slot
  · subst same
    simp
  · rw [if_neg (Ne.symm same), if_neg same]

end Bus

namespace Machine

variable {δ : Type}

/-- Machines in the middle of the same run. -/
structure InStep (m n : Machine δ) : Prop where
  registers : m.registers = n.registers
  stack : m.stack = n.stack
  returnAddress : m.returnAddress = n.returnAddress
  bus : m.bus.InStep n.bus

theorem onStack_inStep {α : Type} (act : Stack.Action α) :
    Respectful InStep (onStack act : Action δ α) := by
  intro m n step
  simp only [onStack, step.stack]
  exact ⟨rfl, step.registers, rfl, step.returnAddress, step.bus⟩

theorem onBus_inStep {α : Type} {act : Bus.Action δ α} (held : Respectful Bus.InStep act) :
    Respectful InStep (onBus act) := by
  intro m n step
  obtain ⟨same, after⟩ := held m.bus n.bus step.bus
  exact ⟨same, step.registers, step.stack, step.returnAddress, after⟩

theorem writeRegister_inStep (r : UInt32) (v : Binary32) :
    Respectful InStep (writeRegister r v : Action δ Unit) := by
  intro m n step
  unfold writeRegister
  by_cases inside : r.toNat < m.registers.size
  · rw [dif_pos inside, dif_pos (step.registers ▸ inside)]
    refine ⟨rfl, ?_, step.stack, step.returnAddress, step.bus⟩
    simp only [step.registers]
  · rw [dif_neg inside, dif_neg (step.registers ▸ inside)]
    exact ⟨rfl, step⟩

section Steps

variable [Device δ]

theorem read_inStep (o : Operand) : Respectful InStep (read o : Action δ Binary32) := by
  intro m n step
  cases o with
  | literal v => exact ⟨rfl, step⟩
  | register r =>
    simp only [read, readRegister, step.registers]
    split
    · exact ⟨rfl, step⟩
    · exact ⟨rfl, step⟩
  | stackPointer =>
    have same : m.stack.pointer = n.stack.pointer := congrArg Stack.pointer step.stack
    exact ⟨congrArg (fun pointer => Except.ok (Binary32.ofNat pointer)) same, step⟩
  | returnAddress => exact ⟨congrArg Except.ok step.returnAddress, step⟩
  | device a => exact onBus_inStep (Bus.read_inStep a) m n step

theorem write_inStep (d : Destination) (v : Binary32) :
    Respectful InStep (write d v : Action δ Unit) := by
  intro m n step
  cases d with
  | register r => exact writeRegister_inStep r v m n step
  | stackPointer => exact onStack_inStep _ m n step
  | returnAddress => exact ⟨rfl, step.registers, step.stack, rfl, step.bus⟩
  | device a => exact onBus_inStep (Bus.write_inStep a v) m n step

theorem part_inStep {i : Instruction} {α : Type} {act : Action δ α} (part : Part i act) :
    Respectful InStep act := by
  cases part with
  | read _ => exact read_inStep _
  | write v _ => exact write_inStep _ v
  | push v _ => exact onStack_inStep _
  | pop _ => exact onStack_inStep _
  | peek _ => exact onStack_inStep _
  | link program _ =>
    intro m n step
    exact ⟨rfl, step.registers, step.stack, rfl, step.bus⟩

theorem step_inStep (program : List Instruction) (i : Instruction) :
    Respectful InStep (step program i : Action δ Flow) :=
  (step_made program i).respectful fun _ => part_inStep

end Steps
end Machine

namespace Execution

variable {δ : Type}

structure InStep (x y : Execution δ) : Prop where
  status : x.status = y.status
  machine : x.machine.InStep y.machine

theorem start_inStep {m n : Machine δ} {c : Config} (left : Machine.Sized c m)
    (right : Machine.Sized c n) (alike : m.bus.Alike n.bus) (p : Program) :
    InStep (start m p) (start n p) := by
  have reset : m.reset.InStep n.reset := by
    refine ⟨?_, ?_, rfl, ⟨alike.size, alike.device, alike.shared⟩, rfl⟩
    · simp only [Machine.reset, left.registers, right.registers]
    · simp only [Machine.reset, Stack.reset, left.stack, right.stack]
  simp only [start, left.config, right.config]
  split
  · exact ⟨rfl, reset⟩
  · exact ⟨rfl, reset⟩

variable [Device δ] (program : List Instruction) {x y : Execution δ}

theorem next_inStep (step : InStep x y) :
    (x.next program).1 = (y.next program).1 ∧ InStep (x.next program).2 (y.next program).2 := by
  obtain ⟨m, status⟩ := x
  obtain ⟨n, other⟩ := y
  obtain ⟨rfl, machine⟩ := step
  cases status with
  | finished => exact ⟨rfl, rfl, machine⟩
  | failed e => exact ⟨rfl, rfl, machine⟩
  | running place =>
    simp only [next]
    rcases program[place]? with _ | i
    · exact ⟨rfl, rfl, machine⟩
    · have ends := Machine.step_inStep program i m n machine
      rcases left : Machine.step program i m with ⟨f | flow, s⟩ <;>
        rcases right : Machine.step program i n with ⟨g | other, t⟩ <;>
        rw [left, right] at ends <;> obtain ⟨same, after⟩ := ends <;> cases same <;>
        simp only [left, right]
      · exact ⟨trivial, rfl, after⟩
      · exact ⟨trivial, rfl, after⟩

theorem after_inStep (step : InStep x y) (fuel : Nat) :
    InStep (after program fuel x) (after program fuel y) := by
  induction fuel generalizing x y with
  | zero => exact step
  | succ fuel ih => exact ih (next_inStep program step).2

theorem seen_inStep (step : InStep x y) (fuel : Nat) :
    seen program fuel x = seen program fuel y := by
  induction fuel generalizing x y with
  | zero => rfl
  | succ fuel ih =>
    have shown : ∀ (i : Instruction) {x y : Execution δ}, InStep x y →
        Snapshot.of i x.machine = Snapshot.of i y.machine := by
      intro i x y step
      obtain ⟨registers, stack, returnAddress, -⟩ := step.machine
      rw [Snapshot.of, Snapshot.of, registers, stack, returnAddress]
    obtain ⟨same, after⟩ := next_inStep program step
    have rest := ih after
    rw [seen, seen, rest]
    rcases left : x.next program with ⟨_ | i, s⟩ <;>
      rcases right : y.next program with ⟨_ | j, t⟩ <;>
      rw [left, right] at same after <;> cases same
    simp only [shown i after]

end Execution

namespace Machine

variable {δ : Type}

/-- A slot has been given to a device or emptied; all else is as it was. -/
structure Plugged (m : Machine δ) (slot : Nat) (held : Option Nat) (result : Bool × Machine δ) :
    Prop where
  outside : m.config.devices ≤ slot → result = (false, m)
  inside : slot < m.config.devices → result.1 = true ∧ result.2.bus.slots[slot]? = some held
  others : ∀ t, t ≠ slot → result.2.bus.slots[t]? = m.bus.slots[t]?
  rest : result.2 = { m with bus := { m.bus with slots := result.2.bus.slots } }

theorem plugged {c : Config} {m : Machine δ} (sized : Sized c m) (slot : Nat)
    (held : Option Nat) :
    Plugged m slot held ((m.bus.plug slot held).1, { m with bus := (m.bus.plug slot held).2 }) := by
  have slots : m.bus.slots.size = m.config.devices := by rw [sized.devices, sized.config]
  by_cases inside : slot < m.bus.slots.size
  · rw [Bus.plug, dif_pos inside]
    refine ⟨fun outside => absurd (slots ▸ inside) (Nat.not_lt.2 outside), fun _ => ?_, ?_, rfl⟩
    · simp [inside]
    · intro t other
      simp [Ne.symm other]
  · rw [Bus.plug, dif_neg inside]
    exact ⟨fun _ => rfl, fun within => absurd (slots ▸ within) inside, fun _ _ => rfl, rfl⟩

theorem new_vacant (c : Config) (devices : Array δ) (slot : Nat) :
    (new c devices).bus.placeIn slot = none := by
  simp only [new, Bus.empty, Bus.placeIn, Array.getElem?_replicate]
  split <;> rfl

/-- A new machine, the first slots of which have been given the devices of a bus. -/
def furnished (c : Config) (b : Bus δ) : Nat → Machine δ
  | 0 => new c b.devices
  | slot + 1 =>
    match b.placeIn slot with
    | some place => ((furnished c b slot).attach slot place).2
    | none => furnished c b slot

/-- A new machine with the devices that the slots hold now. -/
def fresh (m : Machine δ) : Machine δ := furnished m.config m.bus m.config.devices

theorem furnished_slots (c : Config) (b : Bus δ) {count : Nat} (within : count ≤ c.devices) :
    (furnished c b count).config = c ∧ (furnished c b count).bus.devices = b.devices ∧
      (furnished c b count).bus.slots.size = c.devices ∧
      ∀ t, (furnished c b count).bus.placeIn t = if t < count then b.placeIn t else none := by
  induction count with
  | zero =>
    refine ⟨rfl, rfl, by simp [furnished, new, Bus.empty], ?_⟩
    intro t
    rw [if_neg (Nat.not_lt_zero t)]
    exact new_vacant c b.devices t
  | succ slot ih =>
    obtain ⟨config, devices, size, places⟩ := ih (Nat.le_of_succ_le within)
    have before : ∀ t, t ≠ slot → (t < slot + 1 ↔ t < slot) := fun t other => by omega
    unfold furnished
    split
    · rename_i place found
      have inside : slot < (furnished c b slot).bus.slots.size := size ▸ within
      refine ⟨config, ?_, ?_, ?_⟩
      · rw [attach, Bus.plug, dif_pos inside]
        exact devices
      · rw [attach, Bus.plug_slots]
        exact size
      · intro t
        rw [attach, Bus.placeIn_plug _ inside, places]
        by_cases same : t = slot
        · rw [if_pos same, same, if_pos (Nat.lt_succ_self slot), found]
        · rw [if_neg same]
          simp only [before t same]
    · rename_i empty
      refine ⟨config, devices, size, ?_⟩
      intro t
      rw [places]
      by_cases same : t = slot
      · rw [same, if_neg (Nat.lt_irrefl slot), if_pos (Nat.lt_succ_self slot), empty]
      · simp only [before t same]

theorem fresh_alike {c : Config} {m : Machine δ} (sized : Sized c m) :
    m.bus.Alike m.fresh.bus := by
  obtain ⟨-, devices, size, places⟩ := furnished_slots m.config m.bus (Nat.le_refl _)
  have slots : m.bus.slots.size = m.config.devices := by rw [sized.devices, sized.config]
  refine Bus.alike_of_places (slots.trans size.symm) ?_ devices.symm
  intro slot
  rw [fresh, places]
  split
  · rfl
  · rename_i outside
    rw [Bus.placeIn, Array.getElem?_eq_none (slots ▸ Nat.not_lt.1 outside)]
    rfl

variable [Device δ]

theorem furnished_built (c : Config) (b : Bus δ) (count : Nat) :
    (furnished c b count).Built := by
  induction count with
  | zero => exact Built.new c b.devices
  | succ slot ih =>
    unfold furnished
    split
    · exact Built.attach slot _ ih
    · exact ih

/-- Nothing that a host can see tells the runs on these machines apart. -/
structure RunAlike (m n : Machine δ) (p : Program) (fuel : Nat) : Prop where
  status : (m.outcome fuel p).status = (n.outcome fuel p).status
  seen : (Execution.start m p).seen p.instructions fuel =
    (Execution.start n p).seen p.instructions fuel
  accesses : (m.outcome fuel p).result.bus.accesses = (n.outcome fuel p).result.bus.accesses
  devices : (m.outcome fuel p).result.bus.Alike (n.outcome fuel p).result.bus
  registers : (m.outcome fuel p).result.registers = (n.outcome fuel p).result.registers
  stack : (m.outcome fuel p).result.stack = (n.outcome fuel p).result.stack
  returnAddress : (m.outcome fuel p).result.returnAddress = (n.outcome fuel p).result.returnAddress
  lastError : (m.outcome fuel p).result.lastError = (n.outcome fuel p).result.lastError

theorem runAlike_of_alike {c : Config} {m n : Machine δ} (left : Sized c m) (right : Sized c n)
    (alike : m.bus.Alike n.bus) (p : Program) (fuel : Nat) : RunAlike m n p fuel := by
  have start := Execution.start_inStep left right alike p
  have ended := Execution.after_inStep p.instructions start fuel
  rw [← outcome_eq, ← outcome_eq] at ended
  obtain ⟨status, registers, stack, returnAddress, bus⟩ := ended
  refine ⟨status, Execution.seen_inStep p.instructions start fuel, bus.accesses, bus.toAlike,
    registers, stack, returnAddress, ?_⟩
  simp only [Execution.result, Execution.error?, status]

/-- Whatever machines of one configuration have been through, a program runs the same on them when
their slots hold devices in the same states, and as on a new machine with these devices. To plug and
to unplug touches no slot but the one named. -/
theorem runs_forget_history {m : Machine δ} (built : m.Built) :
    (∀ {n : Machine δ}, n.Built → m.config = n.config → m.bus.Alike n.bus →
      ∀ p fuel, RunAlike m n p fuel) ∧
    (m.fresh.config = m.config ∧ m.bus.Alike m.fresh.bus ∧ ∀ p fuel, RunAlike m m.fresh p fuel) ∧
    ∀ slot, (∀ device, Plugged m slot (some device) (m.attach slot device)) ∧
      Plugged m slot none (m.detach slot) := by
  obtain ⟨c, sized⟩ := built.sized
  have alone : ∀ {n : Machine δ}, n.Built → m.config = n.config → m.bus.Alike n.bus →
      ∀ p fuel, RunAlike m n p fuel := by
    intro n other config alike p fuel
    obtain ⟨d, same⟩ := other.sized
    have agree : d = c := same.config.symm.trans (config.symm.trans sized.config)
    exact runAlike_of_alike sized (agree ▸ same) alike p fuel
  refine ⟨alone, ?_, ?_⟩
  · have config : m.fresh.config = m.config := (furnished_slots _ _ (Nat.le_refl _)).1
    have alike := fresh_alike sized
    exact ⟨config, alike, alone (furnished_built _ _ _) config.symm alike⟩
  · intro slot
    exact ⟨fun device => plugged sized slot (some device), plugged sized slot none⟩

/-- A machine that has left a value above the top of its stack, and has its device at another place
than a new one. -/
theorem runs_forget_history_stale :
    let past := Program.ofInstructions
      [⟨.increment, some .returnAddress, .unused, .unused, 1, "inc ra"⟩,
        ⟨.push, some .returnAddress, .unused, .unused, 2, "push ra"⟩,
        ⟨.divide, some (.register 0), .literal .one, .literal .zero, 3, "div r0, 1, 0"⟩]
    let p := Program.ofInstructions
      [⟨.move, some .stackPointer, .literal .one, .unused, 1, "mov sp, 1"⟩,
        ⟨.add, some (.device ⟨0, 0⟩), .device ⟨0, 0⟩, .literal .one, 2, "add d0:0, d0:0, 1"⟩,
        ⟨.pop, some (.register 0), .unused, .unused, 3, "pop r0"⟩]
    let before := ((new {} #[.zeros 0, .zeros 1] : Machine CellStore).attach 0 1).2
    let m := (before.outcome 4 past).result
    let n := ((new {} #[.zeros 1] : Machine CellStore).attach 0 0).2
    m.lastError = some ⟨.divisionByZero, 3, "div r0, 1, 0"⟩ ∧ m.stack ≠ n.stack ∧
      RunAlike m n p 4 := by
  intro past p before m n
  have left : m.Built := .run 4 past (.attach 0 1 (.new {} _))
  have right : n.Built := .attach 0 0 (.new {} _)
  have slots : m.bus.slots = #[some 1, none, none, none] := by decide +kernel
  have devices : m.bus.devices = #[.zeros 0, .zeros 1] := by decide +kernel
  have alike : m.bus.Alike n.bus := by
    apply Bus.alike_of_exclusive
    · rw [slots]
      rfl
    · intro slot
      rw [Bus.deviceIn, Bus.placeIn, slots, devices]
      match slot with
      | 0 | 1 | 2 | 3 => rfl
      | slot + 4 => rfl
    · apply Bus.exclusive_of_single 0
      intro t other
      rw [Bus.placeIn, slots]
      match t with
      | 0 => exact absurd rfl other
      | 1 | 2 | 3 => rfl
      | t + 4 => rfl
    · apply Bus.exclusive_of_single 0
      intro t other
      match t with
      | 0 => exact absurd rfl other
      | 1 | 2 | 3 => rfl
      | t + 4 => rfl
  have config : m.config = n.config := by decide +kernel
  exact ⟨by decide +kernel, by decide +kernel,
    (runs_forget_history left).1 right config alike p 4⟩

end Machine
end FloatMachine
