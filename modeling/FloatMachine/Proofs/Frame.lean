import FloatMachine.Proofs.Accesses
import FloatMachine.Proofs.History
import FloatMachine.Proofs.StraightLine

/-! What a step leaves alone. A step that succeeds changes the place that its instruction writes,
the stack if it pushes or pops, the return address if it is a call, and the devices that it asks;
everything else is bit for bit what it was. -/
namespace FloatMachine

namespace Instruction

/-- The devices that the instruction names may be read, the one it writes to may be written. -/
def Permits (i : Instruction) : Errand → Prop
  | .read a => i.Names (.device a)
  | .write a => i.written = some (.device a)

theorem names_of_written {i : Instruction} {d : Destination} (written : i.written = some d) :
    i.Names d.toOperand := by
  rcases i.written_cases with same | nothing
  · exact Or.inl ⟨d, same ▸ written, rfl⟩
  · rw [nothing] at written
    cases written

end Instruction

namespace Stack

theorem push_ok {v : Binary32} {s t : Stack} (pushed : push v s = (.ok (), t)) :
    ∃ room : s.pointer < s.cells.size, t = ⟨s.cells.set s.pointer v room, s.pointer + 1⟩ := by
  unfold push at pushed
  split at pushed
  · rename_i room
    cases pushed
    exact ⟨room, rfl⟩
  · cases pushed

theorem pointer_pos {s : Stack} {v : Binary32} (top : s.top? = some v) : 0 < s.pointer := by
  unfold top? at top
  split at top
  · cases top
  · omega

end Stack

namespace Bus

variable {δ : Type} {i : Instruction} {b c : Bus δ}

/-- The bus `c` comes from `b` by accesses that the instruction permits. No device has changed but
those in slots that the instruction names. -/
structure Confined (i : Instruction) (b c : Bus δ) : Prop where
  slots : c.slots = b.slots
  size : c.devices.size = b.devices.size
  devices : ∀ place : Nat, (∀ a, i.Names (.device a) → b.placeIn a.slot.toNat ≠ some place) →
    c.devices[place]? = b.devices[place]?
  accesses : ∃ made, c.accesses.toList = b.accesses.toList ++ made ∧
    ∀ access ∈ made, i.Permits access.errand

theorem confined_refl (i : Instruction) (b : Bus δ) : Confined i b b :=
  ⟨rfl, rfl, fun _ _ => rfl, [], by simp, by simp⟩

theorem Confined.replace (confined : Confined i b c) {a : DeviceAddress} {place : Nat} {d e : δ}
    (named : i.Names (.device a)) (located : c.locate a.slot = .ok (place, d)) {access : Access}
    (permitted : i.Permits access.errand) : Confined i b (c.replace place e access) where
  slots := confined.slots
  size := by simp [Bus.replace, confined.size]
  devices := by
    intro other apart
    obtain ⟨placed, -⟩ := locate_placed located
    have here : place ≠ other := by
      rintro rfl
      rw [placeIn, confined.slots] at placed
      exact apart a named placed
    rw [← confined.devices other apart]
    simp only [Bus.replace, Array.getElem?_setIfInBounds, if_neg here]
  accesses := by
    obtain ⟨made, asked, permits⟩ := confined.accesses
    refine ⟨made ++ [access], ?_, ?_⟩
    · simp [Bus.replace, asked]
    · intro other member
      rcases List.mem_append.1 member with old | new
      · exact permits other old
      · exact List.mem_singleton.1 new ▸ permitted

/-- What holds of places holds of slots, where no device is in two of them. -/
theorem Confined.deviceIn (confined : Confined i b c) (exclusive : b.Exclusive) {slot : Nat}
    (unnamed : ∀ a, i.Names (.device a) → a.slot.toNat ≠ slot) :
    c.deviceIn slot = b.deviceIn slot := by
  have same : c.placeIn slot = b.placeIn slot := by rw [placeIn, confined.slots, placeIn]
  rw [Bus.deviceIn, same, Bus.deviceIn]
  cases placed : b.placeIn slot with
  | none => rfl
  | some place =>
    by_cases inside : place < b.devices.size
    · apply confined.devices
      intro a named shared
      exact unnamed a named (exclusive slot a.slot.toNat (occupied_of_placed placed inside)
        (placed.trans shared.symm)).symm
    · have beyond : ¬ place < c.devices.size := confined.size ▸ inside
      simp [inside, beyond]

variable [Device δ]

theorem read_confined {a : DeviceAddress} (named : i.Names (.device a)) :
    Keeps (Confined i b) (fun _ => True) (read a) fun _ => True := by
  intro c confined
  unfold read
  rcases located : c.locate a.slot with f | ⟨place, d⟩
  · exact .error confined trivial
  · dsimp only
    split
    · exact .ok (confined.replace named located named) trivial
    · exact .error (confined.replace named located named) trivial

theorem write_confined {a : DeviceAddress} (written : i.written = some (.device a))
    (v : Binary32) : Keeps (Confined i b) (fun _ => True) (write a v) fun _ => True := by
  intro c confined
  have named : i.Names (.device a) := Instruction.names_of_written written
  unfold write
  rcases located : c.locate a.slot with f | ⟨place, d⟩
  · exact .error confined trivial
  · dsimp only
    split
    · exact .ok (confined.replace named located written) trivial
    · exact .error (confined.replace named located written) trivial

end Bus

namespace Machine

variable {δ : Type} {i : Instruction} {m n : Machine δ}

/-- What the instruction leaves alone, the stack aside. -/
structure Outside (i : Instruction) (m n : Machine δ) : Prop where
  config : n.config = m.config
  lastError : n.lastError = m.lastError
  size : n.registers.size = m.registers.size
  registers : ∀ k : Nat, (∀ r, i.written = some (.register r) → r.toNat ≠ k) →
    n.registers[k]? = m.registers[k]?
  returnAddress : i.operation ≠ .jumpReturn → i.written ≠ some .returnAddress →
    n.returnAddress = m.returnAddress
  bus : Bus.Confined i m.bus n.bus

theorem outside_refl (i : Instruction) (m : Machine δ) : Outside i m m :=
  ⟨rfl, rfl, rfl, fun _ _ => rfl, fun _ _ => rfl, Bus.confined_refl i m.bus⟩

theorem Outside.stack (outside : Outside i m n) (s : Stack) :
    Outside i m { n with stack := s } :=
  ⟨outside.config, outside.lastError, outside.size, outside.registers, outside.returnAddress,
    outside.bus⟩

theorem Outside.onStack {α : Type} (act : Stack.Action α) :
    Keeps (Outside i m) (fun _ => True) (onStack act) fun _ => True :=
  onStack_keeps (Keeps.any act) (fun _ _ => trivial) fun _ s outside _ => outside.stack s

theorem Outside.onBus {α : Type} {act : Bus.Action δ α}
    (held : Keeps (Bus.Confined i m.bus) (fun _ => True) act fun _ => True) :
    Keeps (Outside i m) (fun _ => True) (onBus act) fun _ => True :=
  onBus_keeps held (fun _ outside => outside.bus) fun _ _ outside confined =>
    ⟨outside.config, outside.lastError, outside.size, outside.registers, outside.returnAddress,
      confined⟩

variable [Device δ]

theorem read_outside {o : Operand} (named : i.Names o) :
    Keeps (Outside i m) (fun _ => True) (read o) fun _ => True := by
  cases o with
  | literal v => exact Keeps.pure trivial
  | register r =>
    intro n outside
    simp only [read, readRegister]
    split
    · exact .ok outside trivial
    · exact .error outside trivial
  | stackPointer => exact Keeps.bind Keeps.get fun _ _ => Keeps.pure trivial
  | returnAddress => exact Keeps.bind Keeps.get fun _ _ => Keeps.pure trivial
  | device a => exact Outside.onBus (Bus.read_confined named)

theorem write_outside {d : Destination} (written : i.written = some d) (v : Binary32) :
    Keeps (Outside i m) (fun _ => True) (write d v) fun _ => True := by
  cases d with
  | register r =>
    intro n outside
    simp only [write, writeRegister]
    split
    · refine .ok ?_ trivial
      refine ⟨outside.config, outside.lastError, by simp [outside.size], ?_,
        outside.returnAddress, outside.bus⟩
      intro k apart
      rw [← outside.registers k apart]
      simp only [Array.getElem?_set, if_neg (apart r written)]
    · exact .error outside trivial
  | stackPointer => exact Outside.onStack (Stack.setPointer v)
  | returnAddress =>
    refine Keeps.modify fun n outside => ?_
    exact ⟨outside.config, outside.lastError, outside.size, outside.registers,
      fun _ apart => (apart written).elim, outside.bus⟩
  | device a => exact Outside.onBus (Bus.write_confined written v)

theorem step_outside (program : List Instruction) :
    Keeps (Outside i m) (fun _ => True) (step program i) fun _ => True := by
  apply (step_made program i).keeps
  intro α act part
  cases part with
  | read touched => exact read_outside (Instruction.mem_touched.1 touched)
  | write v written => exact write_outside written v
  | push v _ => exact Outside.onStack _
  | pop _ => exact Outside.onStack _
  | peek _ => exact Outside.onStack _
  | link program call =>
    refine Keeps.modify fun n outside => ?_
    exact ⟨outside.config, outside.lastError, outside.size, outside.registers,
      fun other => (other call).elim, outside.bus⟩

theorem write_cells (cells : Array Binary32) (d : Destination) (v : Binary32) :
    Keeps (fun m : Machine δ => m.stack.cells = cells) (fun _ => True) (write d v)
      fun _ => True :=
  write_stack (fun s => s.cells = cells)
    (fun _ => Stack.setPointer_keeps trivial fun _ _ same => same) v

theorem step_cells (program : List Instruction) (cells : Array Binary32)
    (push : i.operation ≠ .push) (pop : i.operation ≠ .pop) :
    Keeps (fun m : Machine δ => m.stack.cells = cells) (fun _ => True) (step program i)
      fun _ => True :=
  step_stack (fun s => s.cells = cells) program
    (fun _ => Stack.setPointer_keeps trivial fun _ _ same => same) push pop

theorem stack_pushed {program : List Instruction} {flow : Flow} (push : i.operation = .push)
    (ended : step program i m = (.ok flow, n)) :
    ∃ d v s t, i.destination = some d ∧ Unmoved m (fun _ => True) s ∧
      read d.toOperand s = (.ok v, t) ∧ Stack.push v m.stack = (.ok (), n.stack) := by
  obtain ⟨d, v, s, t, given, unmoved, current, after, pushed⟩ := step_pushed push ended
  refine ⟨d, v, s, t, given, unmoved, current, ?_⟩
  rw [← after.stack]
  unfold onStack at pushed
  rcases done : Stack.push v t.stack with ⟨f | _, u⟩ <;> rw [done] at pushed <;> cases pushed
  rfl

/-- What a step that succeeded may have changed, and what a push and a pop do to the stack. -/
structure Frame (i : Instruction) (m n : Machine δ) : Prop extends Outside i m n where
  height : n.stack.cells.size = m.stack.cells.size
  cells : ∀ k : Nat, (i.operation = .push → k ≠ m.stack.pointer) →
    n.stack.cells[k]? = m.stack.cells[k]?
  pointer : i.operation ≠ .push → i.operation ≠ .pop → i.written ≠ some .stackPointer →
    n.stack.pointer = m.stack.pointer
  pushed : i.operation = .push → n.stack.pointer = m.stack.pointer + 1
  lowered : i.operation = .pop → i.written ≠ some .stackPointer →
    n.stack.pointer + 1 = m.stack.pointer
  popped : i.operation = .pop → ∃ d v t, i.destination = some d ∧ m.stack.top? = some v ∧
    Unmoved m (fun _ => True) t ∧ write d v t.popped = (.ok (), n)

theorem Frame.of_push (outside : Outside i m n) (push : i.operation = .push) {v : Binary32}
    (pushed : Stack.push v m.stack = (.ok (), n.stack)) : Frame i m n where
  toOutside := outside
  height := by
    obtain ⟨room, same⟩ := Stack.push_ok pushed
    simp [same]
  cells := by
    intro k apart
    obtain ⟨room, same⟩ := Stack.push_ok pushed
    rw [same]
    simp only [Array.getElem?_set, if_neg (Ne.symm (apart push))]
  pointer := fun other => (other push).elim
  pushed := by
    intro _
    obtain ⟨room, same⟩ := Stack.push_ok pushed
    rw [same]
  lowered := by
    intro pop
    rw [push] at pop
    cases pop
  popped := by
    intro pop
    rw [push] at pop
    cases pop

theorem Frame.of_pop (outside : Outside i m n) (pop : i.operation = .pop) {d : Destination}
    {v : Binary32} {t : Machine δ} (given : i.destination = some d) (top : m.stack.top? = some v)
    (unmoved : Unmoved m (fun _ => True) t) (stored : write d v t.popped = (.ok (), n)) :
    Frame i m n := by
  have cells : n.stack.cells = m.stack.cells := by
    have kept : t.popped.stack.cells = m.stack.cells := by
      simp only [Machine.popped, unmoved.stack]
    exact ((write_cells m.stack.cells d v).ok kept stored).1
  refine ⟨outside, by rw [cells], fun _ _ => by rw [cells], fun _ other => (other pop).elim, ?_, ?_,
    fun _ => ⟨d, v, t, given, top, unmoved, stored⟩⟩
  · intro push
    rw [pop] at push
    cases push
  · intro _ quiet
    have written : i.written = some d := by rw [Instruction.written, pop, given]
    have other : d ≠ .stackPointer := fun pointer => quiet (pointer ▸ written)
    have level : n.stack.pointer = t.stack.pointer - 1 := ((write_at other v).ok rfl stored).1
    have occupied := Stack.pointer_pos top
    rw [level, unmoved.stack]
    omega

theorem Frame.of_other {program : List Instruction} {flow : Flow} (push : i.operation ≠ .push)
    (pop : i.operation ≠ .pop) (ended : step program i m = (.ok flow, n)) : Frame i m n := by
  have outside := ((step_outside program).ok (outside_refl i m) ended).1
  have cells := ((step_cells program m.stack.cells push pop).ok rfl ended).1
  refine ⟨outside, by rw [cells], fun _ _ => by rw [cells], ?_, fun pushes => (push pushes).elim,
    fun pops => (pop pops).elim, fun pops => (pop pops).elim⟩
  intro _ _ quiet
  exact ((step_at program quiet push pop).ok rfl ended).1

/-- A step that succeeded changed nothing but the place it writes, which push and assert never do,
the cell at the stack pointer and the pointer above it for a push, the pointer for a pop, before
the value is written, and the return address for a call. The devices in slots that the instruction
does not name were not asked and have not changed. -/
theorem step_frame {program : List Instruction} {flow : Flow}
    (ended : step program i m = (.ok flow, n)) :
    Frame i m n ∧ (m.bus.Exclusive → ∀ slot : Nat,
      (∀ a, i.Names (.device a) → a.slot.toNat ≠ slot) →
      n.bus.deviceIn slot = m.bus.deviceIn slot) := by
  have outside := ((step_outside program).ok (outside_refl i m) ended).1
  refine ⟨?_, fun exclusive slot unnamed => outside.bus.deviceIn exclusive unnamed⟩
  by_cases push : i.operation = .push
  · obtain ⟨d, v, s, t, -, -, -, pushed⟩ := stack_pushed push ended
    exact .of_push outside push pushed
  · by_cases pop : i.operation = .pop
    · obtain ⟨d, v, t, given, top, unmoved, stored⟩ := step_popped pop ended
      exact .of_pop outside pop given top unmoved stored
    · exact .of_other push pop ended

/-- The pointer is lowered to 2 and then written: the value popped is where it ends. -/
theorem step_frame_pop :
    let i : Instruction := ⟨.pop, some .stackPointer, .unused, .unused, 1, "pop sp"⟩
    let m : Machine Peripheral :=
      { (attach (new { stack := 4 } #[.cells (.zeros 2)]) 0 0).2 with
        stack := ⟨#[.zero, .zero, .one, .zero], 3⟩ }
    let n := (step [i] i m).2
    step [i] i m = (.ok .next, n) ∧ Frame i m n ∧ n.stack = ⟨m.stack.cells, 1⟩ ∧
      n.registers[0]? = m.registers[0]? ∧ m.bus.Exclusive ∧
      n.bus.deviceIn 0 = m.bus.deviceIn 0 := by
  intro i m n
  have done : (step [i] i m).1 = .ok .next := by decide +kernel
  have ended : step [i] i m = (.ok .next, n) := Prod.ext done rfl
  have exclusive : m.bus.Exclusive := by
    apply Bus.exclusive_of_single 0
    intro t other
    match t with
    | 0 => exact absurd rfl other
    | 1 | 2 | 3 => rfl
    | t + 4 => rfl
  obtain ⟨frame, alone⟩ := step_frame ended
  refine ⟨ended, frame, by decide +kernel, frame.registers 0 ?_, exclusive,
    alone exclusive 0 ?_⟩
  · intro r written
    cases written
  · intro a named
    rcases named with ⟨d, given, same⟩ | same | same
    · cases given
      cases same
    · cases same
    · cases same

end Machine
end FloatMachine
