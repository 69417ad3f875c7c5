import FloatMachine.Devices.Peripheral
import FloatMachine.Proofs.Steps

/-! A step that faults leaves the machine as it found it: whatever an instruction reads is read
before its one write, and a pop puts back what it could not store. -/
namespace FloatMachine

namespace Stack

theorem push_restores (v : Binary32) (s : Stack) : Restores (fun t => t = s) (push v) := by
  rintro _ rfl f t failed
  unfold push at failed
  split at failed <;> cases failed
  rfl

theorem setPointer_restores (v : Binary32) (s : Stack) :
    Restores (fun t => t = s) (setPointer v) := by
  rintro _ rfl f t failed
  unfold setPointer at failed
  split at failed
  · split at failed <;> cases failed
    rfl
  · cases failed
    rfl

theorem pop_of_top {s : Stack} {v : Binary32} (top : s.top? = some v) :
    pop s = (.ok v, { s with pointer := s.pointer - 1 }) := by
  unfold pop
  rw [top]

theorem push_popped {s t : Stack} {v : Binary32} (popped : pop s = (.ok v, t)) :
    push v t = (.ok (), s) := by
  unfold pop at popped
  split at popped
  · rename_i top found
    cases popped
    unfold top? at found
    split at found
    · cases found
    · rename_i nonempty
      obtain ⟨inside, same⟩ := Array.getElem?_eq_some_iff.1 found
      have again : s.pointer - 1 + 1 = s.pointer := by omega
      unfold push
      rw [dif_pos inside]
      simp only [again, ← same, Array.set_getElem_self]
  · cases popped

end Stack

/-- Reading leaves the device as it is, and so does a write that it refuses. -/
structure Device.Steady (δ : Type) [Device δ] : Prop where
  read : ∀ (d : δ) (r : UInt16), (Device.read d r).2 = d
  write : ∀ (d : δ) (r : UInt16) (v : Binary32),
    (Device.write d r v).1 = false → (Device.write d r v).2 = d

namespace Display

theorem put_refused {d : Display} {code : Binary32} (refused : (d.put code).1 = false) :
    (d.put code).2 = d := by
  unfold put at refused ⊢
  split
  · split
    · simp_all
    · rfl
  · rfl

theorem moveCursor_refused {d : Display} {v : Binary32} (refused : (d.moveCursor v).1 = false) :
    (d.moveCursor v).2 = d := by
  unfold moveCursor at refused ⊢
  split
  · split
    · simp_all
    · rfl
  · rfl

theorem steady : Device.Steady Display where
  read := fun _ _ => rfl
  write := by
    intro d r v refused
    simp only [Device.write] at refused ⊢
    split
    · rw [if_pos ‹_›] at refused
      exact put_refused refused
    · rw [if_neg ‹_›] at refused
      split
      · rw [if_pos ‹_›] at refused
        exact moveCursor_refused refused
      · rw [if_neg ‹_›] at refused
        split
        · rw [if_pos ‹_›] at refused
          cases refused
        · rfl

end Display

namespace CellStore

theorem steady : Device.Steady CellStore where
  read := fun _ _ => rfl
  write := by
    intro s r v refused
    simp only [Device.write] at refused ⊢
    split
    · rw [dif_pos ‹_›] at refused
      cases refused
    · rfl

end CellStore

namespace LookupTable

theorem steady : Device.Steady LookupTable where
  read := fun _ _ => rfl
  write := fun _ _ _ _ => rfl

end LookupTable

namespace Peripheral

theorem steady : Device.Steady Peripheral where
  read := by
    intro d r
    cases d with
    | display d => rfl
    | table t => rfl
    | cells s => rfl
  write := by
    intro d r v refused
    cases d with
    | display d => exact congrArg Peripheral.display (Display.steady.write d r v refused)
    | table t => exact congrArg Peripheral.table (LookupTable.steady.write t r v refused)
    | cells s => exact congrArg Peripheral.cells (CellStore.steady.write s r v refused)

end Peripheral

namespace Bus

variable {δ : Type}

theorem locate_found {b : Bus δ} {slot : UInt16} {place : Nat} {d : δ}
    (found : b.locate slot = .ok (place, d)) : b.devices[place]? = some d := by
  unfold locate at found
  split at found
  · cases found
  · cases found
  · split at found
    · cases found
    · rename_i present
      cases found
      exact present

/-- The same slots, and the same devices with the same contents. -/
structure Same (b c : Bus δ) : Prop where
  slots : c.slots = b.slots
  devices : c.devices = b.devices

theorem Same.replace {b c : Bus δ} (same : Same b c) {place : Nat} {d : δ}
    (present : c.devices[place]? = some d) (access : Access) :
    Same b (c.replace place d access) := by
  constructor
  · exact same.slots
  · obtain ⟨inside, rfl⟩ := Array.getElem?_eq_some_iff.1 present
    simp only [Bus.replace, Array.setIfInBounds, dif_pos inside, Array.set_getElem_self]
    exact same.devices

variable [Device δ]

theorem Same.read_keeps (steady : Device.Steady δ) (b : Bus δ) (a : DeviceAddress) :
    Keeps (Same b) (fun _ => True) (read a) fun _ => True := by
  intro c same
  unfold read
  rcases found : c.locate a.slot with f | ⟨place, d⟩
  · exact .error same trivial
  · have present : c.devices[place]? = some (Device.read d a.register).2 := by
      rw [steady.read]
      exact locate_found found
    rcases answer : Device.read d a.register with ⟨_ | v, e⟩ <;> rw [answer] at present <;>
      simp only [answer]
    · exact .error (same.replace present _) trivial
    · exact .ok (same.replace present _) trivial

theorem Same.write_restores (steady : Device.Steady δ) (b : Bus δ) (a : DeviceAddress)
    (v : Binary32) : Restores (Same b) (write a v) := by
  intro c same f t failed
  unfold write at failed
  rcases found : c.locate a.slot with g | ⟨place, d⟩ <;> simp only [found] at failed
  · cases failed
    exact same
  · rcases answer : Device.write d a.register v with ⟨accepted, e⟩
    simp only [answer] at failed
    cases accepted with
    | true => cases failed
    | false =>
      have unchanged : e = d := by
        have kept := steady.write d a.register v (by rw [answer])
        rwa [answer] at kept
      cases failed
      exact same.replace (unchanged ▸ locate_found found) _

end Bus

namespace Machine

variable {δ : Type}

/-- Registers, stack and return address are bit for bit those of `m`, and the bus is as it
should be. -/
structure Unmoved (m : Machine δ) (Kept : Bus δ → Prop) (t : Machine δ) : Prop where
  registers : t.registers = m.registers
  stack : t.stack = m.stack
  returnAddress : t.returnAddress = m.returnAddress
  bus : Kept t.bus

variable {m : Machine δ} {Kept : Bus δ → Prop}

theorem Unmoved.onStack_restores {α : Type} {act : Stack.Action α}
    (held : ∀ s, Restores (fun t => t = s) act) : Restores (Unmoved m Kept) (onStack act) := by
  intro s unmoved f t failed
  unfold onStack at failed
  rcases result : act s.stack with ⟨g | a, stack⟩ <;> rw [result] at failed <;> cases failed
  have same : stack = s.stack := held s.stack s.stack rfl f stack result
  exact ⟨unmoved.registers, same.trans unmoved.stack, unmoved.returnAddress, unmoved.bus⟩

theorem Unmoved.onBus_restores {α : Type} {act : Bus.Action δ α} (held : Restores Kept act) :
    Restores (Unmoved m Kept) (onBus act) := by
  intro s unmoved f t failed
  unfold onBus at failed
  rcases result : act s.bus with ⟨g | a, bus⟩ <;> rw [result] at failed <;> cases failed
  have kept : Kept bus := held s.bus unmoved.bus f bus result
  exact ⟨unmoved.registers, unmoved.stack, unmoved.returnAddress, kept⟩

theorem Unmoved.readRegister_keeps (r : UInt32) :
    Keeps (Unmoved m Kept) (fun _ => True) (readRegister r) fun _ => True := by
  intro s unmoved
  unfold readRegister
  split
  · exact .ok unmoved trivial
  · exact .error unmoved trivial

theorem Unmoved.writeRegister_restores (r : UInt32) (v : Binary32) :
    Restores (Unmoved m Kept) (writeRegister r v) := by
  intro s unmoved f t failed
  unfold writeRegister at failed
  split at failed <;> cases failed
  exact unmoved

theorem Unmoved.peek_keeps :
    Keeps (Unmoved m Kept) (fun _ => True) (onStack Stack.peek) fun _ => True := by
  have held : Keeps (· = m.stack) (fun _ => True) Stack.peek fun _ => True :=
    Stack.peek_keeps trivial
  exact onStack_keeps held (fun _ unmoved => unmoved.stack)
    fun _ _ unmoved same => ⟨unmoved.registers, same, unmoved.returnAddress, unmoved.bus⟩

theorem Unmoved.destinationOf_keeps (i : Instruction) :
    Keeps (Unmoved m Kept) (fun _ => True) (destinationOf i) fun d => i.destination = some d :=
  Machine.destinationOf_keeps fun _ => trivial

theorem Unmoved.number_keeps (v : Binary32) :
    Keeps (Unmoved m Kept) (fun _ => True) (number v) fun _ => True :=
  Machine.number_keeps (fun _ => trivial) trivial

theorem Unmoved.jumpTo_keeps (program : List Instruction) (target : Binary32) :
    Keeps (Unmoved m Kept) (fun _ => True) (jumpTo program target) fun _ => True :=
  Machine.jumpTo_keeps trivial program target

variable [Device δ]

/-- What a kept bus asks of single accesses: a read keeps it, and a write that fails. -/
structure Harmless (Kept : Bus δ → Prop) : Prop where
  read : ∀ a, Keeps Kept (fun _ => True) (Bus.read a) fun _ => True
  write : ∀ a v, Restores Kept (Bus.write a v)

theorem Unmoved.read_keeps (harmless : Harmless Kept) (o : Operand) :
    Keeps (Unmoved m Kept) (fun _ => True) (read o) fun _ => True := by
  cases o with
  | literal v => exact Keeps.pure trivial
  | register r => exact readRegister_keeps r
  | stackPointer => exact Keeps.bind Keeps.get fun _ _ => Keeps.pure trivial
  | returnAddress => exact Keeps.bind Keeps.get fun _ _ => Keeps.pure trivial
  | device a =>
    exact onBus_keeps (harmless.read a) (fun _ unmoved => unmoved.bus)
      fun _ _ unmoved kept => ⟨unmoved.registers, unmoved.stack, unmoved.returnAddress, kept⟩

theorem Unmoved.write_restores (harmless : Harmless Kept) (d : Destination) (v : Binary32) :
    Restores (Unmoved m Kept) (write d v) := by
  cases d with
  | register r => exact writeRegister_restores r v
  | stackPointer => exact onStack_restores (Stack.setPointer_restores v)
  | returnAddress =>
    intro s _ f t failed
    cases failed
  | device a => exact onBus_restores (harmless.write a v)

theorem harmless_any : Harmless fun _ : Bus δ => True where
  read := fun a => Keeps.any (Bus.read a)
  write := fun _ _ _ _ _ _ _ => trivial

omit [Device δ] in
def popped (m : Machine δ) : Machine δ :=
  { m with stack := { m.stack with pointer := m.stack.pointer - 1 } }

theorem popInto_none (d : Destination) (empty : m.stack.top? = none) :
    popInto d m = (.error .stackOverflow, m) := by
  have taken : onStack (δ := δ) Stack.pop m = (.error .stackOverflow, m) := by
    simp only [onStack, Stack.pop, empty]
  rw [popInto, bind_eq, taken]

theorem popInto_some (d : Destination) {v : Binary32} (top : m.stack.top? = some v) :
    popInto d m = match write d v m.popped with
      | (.ok (), n) => (.ok (), n)
      | (.error f, n) => (.error f, { n with stack := m.stack }) := by
  have taken : Stack.pop m.stack = (.ok v, m.popped.stack) := Stack.pop_of_top top
  have lowered : onStack (δ := δ) Stack.pop m = (.ok v, m.popped) := by
    rw [onStack, taken]
    rfl
  rw [popInto, bind_eq, lowered]
  simp only [tryCatch_eq]
  rcases stored : write d v m.popped with ⟨f | _, n⟩
  · -- the failed write leaves the shorter stack, on which the value is pushed again
    have left : n.stack = m.popped.stack :=
      (Unmoved.write_restores harmless_any d v m.popped ⟨rfl, rfl, rfl, trivial⟩ f n stored).stack
    have back : onStack (Stack.push v) n = (.ok (), { n with stack := m.stack }) := by
      rw [onStack, left, Stack.push_popped taken]
    simp only [bind_eq, back]
    rfl
  · rfl

theorem popInto_ok {d : Destination} {n : Machine δ} (done : popInto d m = (.ok (), n)) :
    ∃ v, m.stack.top? = some v ∧ write d v m.popped = (.ok (), n) := by
  cases top : m.stack.top? with
  | none =>
    rw [popInto_none d top] at done
    cases done
  | some v =>
    rw [popInto_some d top] at done
    split at done
    · rename_i stored
      cases done
      exact ⟨v, rfl, stored⟩
    · cases done

theorem Unmoved.popInto_restores (harmless : Harmless Kept) (d : Destination) :
    Restores (Unmoved m Kept) (popInto d) := by
  intro s unmoved f t failed
  cases top : s.stack.top? with
  | none =>
    rw [popInto_none d top] at failed
    cases failed
    exact unmoved
  | some v =>
    rw [popInto_some d top] at failed
    split at failed
    · cases failed
    · rename_i stored
      cases failed
      have left : Unmoved s.popped Kept _ :=
        write_restores harmless d v s.popped ⟨rfl, rfl, rfl, unmoved.bus⟩ _ _ stored
      exact ⟨left.registers.trans unmoved.registers, unmoved.stack,
        left.returnAddress.trans unmoved.returnAddress, left.bus⟩

theorem Unmoved.store_restores (harmless : Harmless Kept) (i : Instruction) (v : Binary32) :
    Restores (Unmoved m Kept) (store i v) := by
  refine Restores.bind (destinationOf_keeps i) fun d _ => ?_
  refine Restores.bind (number_keeps _) fun v _ => ?_
  exact Restores.last (write_restores harmless d v)

theorem Unmoved.storeFlag_restores (harmless : Harmless Kept) (i : Instruction) (c : Bool) :
    Restores (Unmoved m Kept) (storeFlag i c) := by
  refine Restores.bind (destinationOf_keeps i) fun d _ => ?_
  exact Restores.last (write_restores harmless d _)

theorem Unmoved.adjust_restores (harmless : Harmless Kept) (i : Instruction)
    (change : Binary32) : Restores (Unmoved m Kept) (adjust i change) := by
  refine Restores.bind (destinationOf_keeps i) fun d _ => ?_
  refine Restores.bind (read_keeps harmless _) fun old _ => ?_
  refine Restores.bind (number_keeps _) fun v _ => ?_
  exact Restores.last (write_restores harmless d v)

theorem Unmoved.step_restores (harmless : Harmless Kept) (program : List Instruction)
    (i : Instruction) : Restores (Unmoved m Kept) (step program i) := by
  refine Restores.bind (read_keeps harmless _) fun a _ => ?_
  refine Restores.bind (read_keeps harmless _) fun b _ => ?_
  -- nothing has been written so far, and each operation writes once, at its end
  have destination : Keeps (Unmoved m Kept) (fun _ => True) (destinationOf i) fun d =>
      i.destination = some d := destinationOf_keeps i
  cases i.operation with
  | nop | ret => exact Restores.pure
  | move =>
    refine Restores.bind destination fun d _ => ?_
    exact Restores.last (write_restores harmless d a)
  | squareRoot => exact Restores.unless (store_restores harmless i _)
  | assert =>
    refine Restores.bind destination fun d _ => ?_
    refine Restores.bind (read_keeps harmless _) fun current _ => ?_
    split
    · exact Restores.pure
    · exact Restores.throw
  | add | subtract | multiply => exact store_restores harmless i _
  | divide => exact Restores.unless (store_restores harmless i _)
  | increment | decrement => exact adjust_restores harmless i _
  | equal | notEqual | greater | greaterOrEqual | lesser | lesserOrEqual =>
    exact storeFlag_restores harmless i _
  | push =>
    refine Restores.bind destination fun d _ => ?_
    refine Restores.bind (read_keeps harmless _) fun v _ => ?_
    exact Restores.last (onStack_restores (Stack.push_restores v))
  | pop =>
    refine Restores.bind destination fun d _ => ?_
    exact Restores.last (popInto_restores harmless d)
  | peek =>
    refine Restores.bind destination fun d _ => ?_
    refine Restores.bind (read_keeps harmless _) fun _ _ => ?_
    refine Restores.bind peek_keeps fun v _ => ?_
    exact Restores.last (write_restores harmless d v)
  | jump => exact Restores.last (jumpTo_keeps program a).restores
  | jumpReturn =>
    refine Restores.bind (jumpTo_keeps program a) fun target _ => ?_
    intro s _ f t failed
    cases failed

theorem harmless_same (steady : Device.Steady δ) (b : Bus δ) : Harmless (Bus.Same b) where
  read := Bus.Same.read_keeps steady b
  write := Bus.Same.write_restores steady b

theorem step_unmoved {program : List Instruction} {i : Instruction} {t : Machine δ} {f : Fault}
    (faulted : step program i m = (.error f, t)) : Unmoved m (fun _ => True) t :=
  Unmoved.step_restores harmless_any program i m ⟨rfl, rfl, rfl, trivial⟩ f t faulted

/-- What a step has read by the time it comes to its operation left the machine as it was. -/
theorem operands_unmoved {i : Instruction} {s t : Machine δ} {a b : Binary32}
    (left : read i.left m = (.ok a, s)) (right : read i.right s = (.ok b, t)) :
    Unmoved m (fun _ => True) t := by
  have reads : ∀ o, Keeps (Unmoved m fun _ => True) (fun _ => True) (read o) fun _ => True :=
    Unmoved.read_keeps harmless_any
  have first := ((reads i.left).ok ⟨rfl, rfl, rfl, trivial⟩ left).1
  exact ((reads i.right).ok first right).1

omit [Device δ] in
theorem destinationOf_ok {i : Instruction} {d : Destination} {s t : Machine δ}
    (found : destinationOf i s = (.ok d, t)) : i.destination = some d ∧ t = s := by
  unfold destinationOf at found
  cases given : i.destination with
  | none =>
    rw [given] at found
    cases found
  | some e =>
    rw [given] at found
    cases found
    exact ⟨rfl, rfl⟩

theorem step_pushed {program : List Instruction} {i : Instruction} {n : Machine δ} {flow : Flow}
    (push : i.operation = .push) (ended : step program i m = (.ok flow, n)) :
    ∃ d v s t, i.destination = some d ∧ Unmoved m (fun _ => True) s ∧
      read d.toOperand s = (.ok v, t) ∧ Unmoved m (fun _ => True) t ∧
      onStack (Stack.push v) t = (.ok (), n) := by
  unfold step at ended
  obtain ⟨a, r, left, ended⟩ := bind_ok.1 ended
  obtain ⟨b, s, right, ended⟩ := bind_ok.1 ended
  rw [push] at ended
  obtain ⟨d, u, found, ended⟩ := bind_ok.1 ended
  obtain ⟨v, t, current, ended⟩ := bind_ok.1 ended
  obtain ⟨_, w, pushed, done⟩ := bind_ok.1 ended
  have unmoved := operands_unmoved left right
  obtain ⟨given, same⟩ := destinationOf_ok found
  rw [same] at current
  have after := ((Unmoved.read_keeps harmless_any d.toOperand).ok unmoved current).1
  rw [(pure_ok.1 done).2] at pushed
  exact ⟨d, v, s, t, given, unmoved, current, after, pushed⟩

theorem step_popped {program : List Instruction} {i : Instruction} {n : Machine δ} {flow : Flow}
    (pop : i.operation = .pop) (ended : step program i m = (.ok flow, n)) :
    ∃ d v t, i.destination = some d ∧ m.stack.top? = some v ∧ Unmoved m (fun _ => True) t ∧
      write d v t.popped = (.ok (), n) := by
  unfold step at ended
  obtain ⟨a, s, left, ended⟩ := bind_ok.1 ended
  obtain ⟨b, t, right, ended⟩ := bind_ok.1 ended
  rw [pop] at ended
  obtain ⟨d, u, found, ended⟩ := bind_ok.1 ended
  obtain ⟨_, w, taken, done⟩ := bind_ok.1 ended
  have unmoved := operands_unmoved left right
  obtain ⟨given, same⟩ := destinationOf_ok found
  rw [same, (pure_ok.1 done).2] at taken
  obtain ⟨v, top, stored⟩ := popInto_ok taken
  exact ⟨d, v, t, given, unmoved.stack ▸ top, unmoved, stored⟩

theorem step_same_bus (steady : Device.Steady δ) {program : List Instruction} {i : Instruction}
    {t : Machine δ} {f : Fault} (faulted : step program i m = (.error f, t)) :
    Bus.Same m.bus t.bus := by
  have start : Unmoved m (Bus.Same m.bus) m := ⟨rfl, rfl, rfl, rfl, rfl⟩
  exact (Unmoved.step_restores (harmless_same steady m.bus) program i m start f t faulted).bus

end Machine

end FloatMachine
