import FloatMachine.Machine.Step
import FloatMachine.Proofs.Outcome

/-! What one step keeps. A step is put together from reads of the places its instruction names,
a write to its destination and moves of the stack; whatever all of these keep, a step keeps. -/
namespace FloatMachine

namespace Stack

variable {Inv : Stack → Prop} {Allowed : Fault → Prop}

theorem peek_keeps (overflow : Allowed .stackOverflow) :
    Keeps Inv Allowed peek fun _ => True := by
  intro s inv
  unfold peek
  split
  · exact .ok inv trivial
  · exact .error inv overflow

theorem setPointer_keeps (overflow : Allowed .stackOverflow)
    (apart : ∀ s pointer, Inv s → Inv { s with pointer }) (v : Binary32) :
    Keeps Inv Allowed (setPointer v) fun _ => True := by
  intro s inv
  unfold setPointer
  split
  · split
    · exact .ok (apart s _ inv) trivial
    · exact .error inv overflow
  · exact .error inv overflow

end Stack

namespace Bus

variable {δ : Type}

theorem plug_slots (b : Bus δ) (slot : Nat) (device : Option Nat) :
    (b.plug slot device).2.slots.size = b.slots.size := by
  unfold Bus.plug
  split
  · simp
  · rfl

theorem plug_devices (b : Bus δ) (slot : Nat) (device : Option Nat) :
    (b.plug slot device).2.devices = b.devices := by
  unfold plug
  split <;> rfl

theorem locate_error {b : Bus δ} {slot : UInt16} {f : Fault} (failed : b.locate slot = .error f) :
    f = .deviceUnplugged ∨ f = .deviceOverflow ∧ b.slots.size ≤ slot.toNat := by
  unfold locate at failed
  split at failed
  · rename_i outside
    cases failed
    exact Or.inr ⟨rfl, Array.getElem?_eq_none_iff.1 outside⟩
  · cases failed
    exact Or.inl rfl
  · split at failed
    · cases failed
      exact Or.inl rfl
    · cases failed

/-- The faults of an access, on a bus with that many slots. -/
def Refuses (slots : Nat) (a : DeviceAddress) (f : Fault) : Prop :=
  f = .deviceUnplugged ∨ f = .deviceFailed ∨ f = .deviceOverflow ∧ slots ≤ a.slot.toNat

theorem refuses_of_locate {b : Bus δ} {a : DeviceAddress} {f : Fault}
    (failed : b.locate a.slot = .error f) : Refuses b.slots.size a f := by
  rcases locate_error failed with unplugged | overflow
  · exact Or.inl unplugged
  · exact Or.inr (Or.inr overflow)

variable [Device δ]

theorem read_keeps (slots : Nat) (a : DeviceAddress) :
    Keeps (fun b : Bus δ => b.slots.size = slots) (Refuses slots a) (read a) fun _ => True := by
  intro b size
  unfold read
  rcases found : b.locate a.slot with f | ⟨place, d⟩
  · exact .error size (size ▸ refuses_of_locate found)
  · rcases answer : Device.read d a.register with ⟨_ | v, d⟩ <;> simp only [answer]
    · exact .error size (Or.inr (Or.inl rfl))
    · exact .ok size trivial

theorem write_keeps (slots : Nat) (a : DeviceAddress) (v : Binary32) :
    Keeps (fun b : Bus δ => b.slots.size = slots) (Refuses slots a) (write a v) fun _ => True := by
  intro b size
  unfold write
  rcases found : b.locate a.slot with f | ⟨place, d⟩
  · exact .error size (size ▸ refuses_of_locate found)
  · rcases answer : Device.write d a.register v with ⟨_ | _, d⟩ <;> simp only [answer]
    · exact .error size (Or.inr (Or.inl rfl))
    · exact .ok size trivial

end Bus

namespace Machine

variable {δ α : Type} {Inv : Machine δ → Prop} {Allowed : Fault → Prop} {Good : α → Prop}

theorem onStack_keeps {act : Stack.Action α} {Kept : Stack → Prop}
    (held : Keeps Kept Allowed act Good) (into : ∀ m, Inv m → Kept m.stack)
    (back : ∀ m s, Inv m → Kept s → Inv { m with stack := s }) :
    Keeps Inv Allowed (onStack (δ := δ) act) Good := by
  intro m inv
  have ended := held m.stack (into m inv)
  unfold onStack
  generalize act m.stack = result at ended ⊢
  cases ended with
  | ok kept good => exact .ok (back m _ inv kept) good
  | error kept allowed => exact .error (back m _ inv kept) allowed

theorem onBus_keeps {act : Bus.Action δ α} {Kept : Bus δ → Prop}
    (held : Keeps Kept Allowed act Good) (into : ∀ m, Inv m → Kept m.bus)
    (back : ∀ m b, Inv m → Kept b → Inv { m with bus := b }) :
    Keeps Inv Allowed (onBus act) Good := by
  intro m inv
  have ended := held m.bus (into m inv)
  unfold onBus
  generalize act m.bus = result at ended ⊢
  cases ended with
  | ok kept good => exact .ok (back m _ inv kept) good
  | error kept allowed => exact .error (back m _ inv kept) allowed

theorem onBus_untouched (bus : ∀ m b, Inv m → Inv { m with bus := b }) (act : Bus.Action δ α) :
    Keeps Inv (fun _ => True) (onBus act) fun _ => True :=
  onBus_keeps (Keeps.any act) (fun _ _ => trivial) fun m b inv _ => bus m b inv

theorem writeRegister_untouched (registers : ∀ m rs, Inv m → Inv { m with registers := rs })
    (r : UInt32) (v : Binary32) :
    Keeps Inv (fun _ => True) (writeRegister r v) fun _ => True := by
  intro m inv
  unfold writeRegister
  split
  · exact .ok (registers m _ inv) trivial
  · exact .error inv trivial

theorem read_untouched [Device δ] (bus : ∀ m b, Inv m → Inv { m with bus := b }) (o : Operand) :
    Keeps Inv (fun _ => True) (read o) fun _ => True := by
  cases o with
  | literal v => exact Keeps.pure trivial
  | register r =>
    intro m inv
    simp only [read, readRegister]
    split
    · exact .ok inv trivial
    · exact .error inv trivial
  | stackPointer => exact Keeps.bind Keeps.get fun _ _ => Keeps.pure trivial
  | returnAddress => exact Keeps.bind Keeps.get fun _ _ => Keeps.pure trivial
  | device a => exact onBus_untouched bus (Bus.read a)

theorem destinationOf_keeps {i : Instruction}
    (missing : i.destination = none → Allowed .operationNotImplemented) :
    Keeps Inv Allowed (destinationOf i) fun d => i.destination = some d := by
  unfold destinationOf
  split
  · rename_i given
    exact Keeps.pure given
  · rename_i none
    exact Keeps.throw (missing none)

theorem number_keeps {v : Binary32} {Good : Binary32 → Prop} (good : v.isNaN = false → Good v)
    (refusal : Allowed .notANumber) : Keeps Inv Allowed (number v) Good := by
  unfold number
  split
  · exact Keeps.throw refusal
  · rename_i real
    exact Keeps.pure (good (Bool.eq_false_iff.2 real))

theorem jumpTo_keeps (refusal : Allowed .invalidJump) (program : List Instruction)
    (target : Binary32) : Keeps Inv Allowed (jumpTo program target) fun _ => True := by
  unfold jumpTo
  split
  · exact Keeps.pure trivial
  · exact Keeps.throw refusal

/-- What an invariant must say of the actions of an instruction. `Good` is what the invariant
promises of a value that is read, and asks of one that is written. -/
structure Respects [Device δ] (i : Instruction) (Inv : Machine δ → Prop)
    (Good : Binary32 → Prop) (Allowed : Fault → Prop) : Prop where
  number : ∀ v : Binary32, v.isNaN = false → Good v
  read : ∀ o ∈ i.touched, Keeps Inv Allowed (read o) Good
  write : ∀ d, i.destination = some d → ∀ v, Good v → Keeps Inv Allowed (write d v) fun _ => True
  push : ∀ v, Good v → Keeps Inv Allowed (onStack (Stack.push v)) fun _ => True
  pop : Keeps Inv Allowed (onStack Stack.pop) Good
  peek : Keeps Inv Allowed (onStack Stack.peek) Good
  link : ∀ program m, Inv m → Inv { m with returnAddress := returnLine program i.line }
  missing : i.operation.shape.hasDestination = true → i.destination = none →
    Allowed .operationNotImplemented
  refusal : ∀ f ∈ [Fault.notANumber, .divisionByZero, .invalidJump, .assertFailed], Allowed f

section Respects

variable [Device δ] {i : Instruction} {Good : Binary32 → Prop}

theorem left_touched (i : Instruction) : i.left ∈ i.touched := by
  simp [Instruction.touched]

theorem right_touched (i : Instruction) : i.right ∈ i.touched := by
  simp [Instruction.touched]

theorem destination_touched {d : Destination} (given : i.destination = some d) :
    d.toOperand ∈ i.touched := by
  simp [Instruction.touched, given]

theorem flag_isNaN (c : Bool) : (flag c).isNaN = false := by
  cases c <;> decide

theorem Respects.destinationOf_keeps (h : Respects i Inv Good Allowed)
    (takes : i.operation.shape.hasDestination = true) :
    Keeps Inv Allowed (destinationOf i) fun d => i.destination = some d :=
  Machine.destinationOf_keeps (h.missing takes)

theorem Respects.number_keeps (h : Respects i Inv Good Allowed) (v : Binary32) :
    Keeps Inv Allowed (Machine.number v) Good :=
  Machine.number_keeps (h.number v) (h.refusal _ (by decide))

theorem Respects.store_keeps (h : Respects i Inv Good Allowed)
    (takes : i.operation.shape.hasDestination = true) (v : Binary32) :
    Keeps Inv Allowed (store i v) fun _ => True := by
  refine Keeps.bind (h.destinationOf_keeps takes) fun d given => ?_
  refine Keeps.bind (h.number_keeps v) fun v good => ?_
  refine Keeps.bind (h.write d given v good) fun _ _ => ?_
  exact Keeps.pure trivial

theorem Respects.storeFlag_keeps (h : Respects i Inv Good Allowed)
    (takes : i.operation.shape.hasDestination = true) (c : Bool) :
    Keeps Inv Allowed (storeFlag i c) fun _ => True := by
  refine Keeps.bind (h.destinationOf_keeps takes) fun d given => ?_
  refine Keeps.bind (h.write d given _ (h.number _ (flag_isNaN c))) fun _ _ => ?_
  exact Keeps.pure trivial

theorem Respects.adjust_keeps (h : Respects i Inv Good Allowed)
    (takes : i.operation.shape.hasDestination = true) (change : Binary32) :
    Keeps Inv Allowed (adjust i change) fun _ => True := by
  refine Keeps.bind (h.destinationOf_keeps takes) fun d given => ?_
  refine Keeps.bind (h.read _ (destination_touched given)) fun old _ => ?_
  refine Keeps.bind (h.number_keeps _) fun v good => ?_
  refine Keeps.bind (h.write d given v good) fun _ _ => ?_
  exact Keeps.pure trivial

theorem Respects.popInto_keeps (h : Respects i Inv Good Allowed) {d : Destination}
    (given : i.destination = some d) : Keeps Inv Allowed (popInto d) fun _ => True := by
  refine Keeps.bind h.pop fun v good => ?_
  refine Keeps.tryCatch (h.write d given v good) fun f allowed => ?_
  refine Keeps.bind (h.push v good) fun _ _ => ?_
  exact Keeps.throw allowed

theorem Respects.jumpTo_keeps (h : Respects i Inv Good Allowed) (program : List Instruction)
    (target : Binary32) : Keeps Inv Allowed (jumpTo program target) fun _ => True :=
  Machine.jumpTo_keeps (h.refusal _ (by decide)) program target

theorem Respects.step_keeps (h : Respects i Inv Good Allowed) (program : List Instruction) :
    Keeps Inv Allowed (step program i) fun _ => True := by
  refine Keeps.bind (h.read _ (left_touched i)) fun a good => ?_
  refine Keeps.bind (h.read _ (right_touched i)) fun b _ => ?_
  -- both operands are read by now, whether the operation uses them or not
  have destination := h.destinationOf_keeps
  cases operation : i.operation with
  | nop => exact Keeps.pure trivial
  | move =>
    refine Keeps.bind (destination (by rw [operation]; rfl)) fun d given => ?_
    refine Keeps.bind (h.write d given a good) fun _ _ => ?_
    exact Keeps.pure trivial
  | squareRoot =>
    refine Keeps.unless (h.refusal _ (by decide)) ?_
    exact h.store_keeps (by rw [operation]; rfl) _
  | assert =>
    refine Keeps.bind (destination (by rw [operation]; rfl)) fun d given => ?_
    refine Keeps.bind (h.read _ (destination_touched given)) fun current _ => ?_
    split
    · exact Keeps.pure trivial
    · exact Keeps.throw (h.refusal _ (by decide))
  | add | subtract | multiply => exact h.store_keeps (by rw [operation]; rfl) _
  | divide =>
    refine Keeps.unless (h.refusal _ (by decide)) ?_
    exact h.store_keeps (by rw [operation]; rfl) _
  | increment | decrement => exact h.adjust_keeps (by rw [operation]; rfl) _
  | equal | notEqual | greater | greaterOrEqual | lesser | lesserOrEqual =>
    exact h.storeFlag_keeps (by rw [operation]; rfl) _
  | push =>
    refine Keeps.bind (destination (by rw [operation]; rfl)) fun d given => ?_
    refine Keeps.bind (h.read _ (destination_touched given)) fun v good => ?_
    refine Keeps.bind (h.push v good) fun _ _ => ?_
    exact Keeps.pure trivial
  | pop =>
    refine Keeps.bind (destination (by rw [operation]; rfl)) fun d given => ?_
    refine Keeps.bind (h.popInto_keeps given) fun _ _ => ?_
    exact Keeps.pure trivial
  | peek =>
    refine Keeps.bind (destination (by rw [operation]; rfl)) fun d given => ?_
    refine Keeps.bind (h.read _ (destination_touched given)) fun _ _ => ?_
    refine Keeps.bind h.peek fun v good => ?_
    refine Keeps.bind (h.write d given v good) fun _ _ => ?_
    exact Keeps.pure trivial
  | jump =>
    refine Keeps.bind (h.jumpTo_keeps program a) fun target _ => ?_
    exact Keeps.pure trivial
  | jumpReturn =>
    refine Keeps.bind (h.jumpTo_keeps program a) fun target _ => ?_
    refine Keeps.bind (Keeps.modify (h.link program)) fun _ _ => ?_
    exact Keeps.pure trivial
  | ret => exact Keeps.pure trivial

end Respects

end Machine
end FloatMachine
