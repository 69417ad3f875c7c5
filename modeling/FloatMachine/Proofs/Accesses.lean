import FloatMachine.Proofs.Capacity
import FloatMachine.Proofs.Unmoved

/-! What a step asks of the devices, and in which order. A step goes through stages: it reads
places, works on what it has read, and writes what came of it. A fault ends the step at a stage, so
the devices are asked for the stages before it and at most for this one. -/
namespace FloatMachine

inductive Errand
  | read (address : DeviceAddress)
  | write (address : DeviceAddress)
deriving DecidableEq, Repr

namespace Access

def errand : Access → Errand
  | .read a _ => .read a
  | .write a _ _ => .write a

def accepted : Access → Bool
  | .read _ value => value.isSome
  | .write _ _ taken => taken

end Access

inductive Stage
  | read (place : Operand)
  | work
  | write (place : Destination)
deriving DecidableEq, Repr

namespace Stage

def errand? : Stage → Option Errand
  | .read (.device a) => some (.read a)
  | .write (.device a) => some (.write a)
  | _ => none

/-- What can go wrong with values, the stack and jumps. -/
def faults : List Fault :=
  [.notANumber, .divisionByZero, .stackOverflow, .invalidJump, .assertFailed]

end Stage

namespace Instruction

/-- The destination is looked at by the operations that need what is there. -/
def inspected (i : Instruction) : List Stage :=
  match i.operation with
  | .increment | .decrement | .push | .peek | .assert =>
    i.destination.toList.map fun d => .read d.toOperand
  | _ => []

/-- A destination is written to, unless the operation only looks at it. -/
def stored (i : Instruction) : List Stage :=
  match i.operation with
  | .push | .assert => []
  | _ => i.destination.toList.map .write

/-- Everything that a step does, in order. -/
def stages (i : Instruction) : List Stage :=
  .read i.left :: .read i.right :: (i.inspected ++ .work :: i.stored)

/-- What a step asks of devices, in order. -/
def errands (i : Instruction) : List Errand := i.stages.filterMap Stage.errand?

end Instruction

namespace Bus

variable {δ : Type} {b c : Bus δ}

theorem within_of_locate {slot : UInt16} {found : Nat × δ} (located : b.locate slot = .ok found) :
    slot.toNat < b.slots.size := by
  unfold locate at located
  split at located
  · cases located
  · cases located
  · rename_i plugged
    exact (Array.getElem?_eq_some_iff.1 plugged).1

theorem locate_error_of (slots : c.slots = b.slots) (devices : c.devices.size = b.devices.size)
    {slot : UInt16} {f : Fault} (failed : c.locate slot = .error f) : b.locate slot = .error f := by
  unfold locate at failed ⊢
  rw [slots] at failed
  split at failed
  · exact failed
  · exact failed
  · split at failed
    · rename_i beyond
      rw [Array.getElem?_eq_none_iff, devices, ← Array.getElem?_eq_none_iff] at beyond
      rw [beyond]
      exact failed
    · cases failed

end Bus

namespace Machine

variable {δ : Type}

/-- Why there is no such place on the machine. -/
def Lacks (m : Machine δ) : Operand → Fault → Prop
  | .register r, f => m.registers.size ≤ r.toNat ∧ f = .registerOutOfBound
  | .device a, f => m.bus.locate a.slot = .error f
  | .literal _, _ | .stackPointer, _ | .returnAddress, _ => False

/-- How a stage faults before a device is asked. -/
def Raises (m : Machine δ) : Stage → Fault → Prop
  | .read o, f => m.Lacks o f
  | .work, f => f ∈ Stage.faults
  | .write d, f => m.Lacks d.toOperand f ∨ d = .stackPointer ∧ f = .stackOverflow

/-- These stages are over, with one accepted access for each that asks a device, and no place to
read was missing. -/
structure Passed (m : Machine δ) (stages : List Stage) (made : List Access) : Prop where
  errands : made.map Access.errand = stages.filterMap Stage.errand?
  accepted : ∀ a ∈ made, a.accepted = true
  within : ∀ o, .read o ∈ stages → o.Within m.registers.size m.bus.slots.size

/-- The stages ended with a fault at one of them. The accesses are those of the stages before it,
and the one that was refused. -/
inductive Stopped (m : Machine δ) (f : Fault) : List Stage → List Access → Prop
  | raised {before after : List Stage} {stage : Stage} {made : List Access} :
      m.Passed before made → m.Raises stage f → Stopped m f (before ++ stage :: after) made
  | refused {before after : List Stage} {stage : Stage} {made : List Access} {access : Access} :
      m.Passed before made → stage.errand? = some access.errand → access.accepted = false →
      f = .deviceFailed → Stopped m f (before ++ stage :: after) (made ++ [access])

variable {m : Machine δ} {f : Fault}

theorem passed_nil : m.Passed [] [] := ⟨rfl, by simp, by simp⟩

theorem Passed.append {before after : List Stage} {made more : List Access}
    (first : m.Passed before made) (second : m.Passed after more) :
    m.Passed (before ++ after) (made ++ more) where
  errands := by rw [List.map_append, List.filterMap_append, first.errands, second.errands]
  accepted := by
    intro a member
    rcases List.mem_append.1 member with old | new
    · exact first.accepted a old
    · exact second.accepted a new
  within := by
    intro o member
    rcases List.mem_append.1 member with old | new
    · exact first.within o old
    · exact second.within o new

theorem Stopped.append {before stages : List Stage} {made more : List Access}
    (first : m.Passed before made) (stopped : m.Stopped f stages more) :
    m.Stopped f (before ++ stages) (made ++ more) := by
  cases stopped with
  | raised passed raises =>
    rw [← List.append_assoc]
    exact .raised (first.append passed) raises
  | refused passed asked denied failed =>
    rw [← List.append_assoc, ← List.append_assoc]
    exact .refused (first.append passed) asked denied failed

/-- Whatever stopped the stages, they were not asked for more than they ask, nor in another
order. -/
theorem Stopped.isPrefix {stages : List Stage} {made : List Access}
    (stopped : m.Stopped f stages made) :
    made.map Access.errand <+: stages.filterMap Stage.errand? := by
  cases stopped with
  | raised passed _ =>
    rw [passed.errands, List.filterMap_append]
    exact List.prefix_append _ _
  | refused passed asked _ _ =>
    rw [List.map_append, passed.errands, List.filterMap_append, List.filterMap_cons, asked]
    exact ⟨_, List.append_assoc ..⟩

/-- What no step changes of the places of a machine. -/
structure Fixed (m t : Machine δ) : Prop where
  registers : t.registers.size = m.registers.size
  slots : t.bus.slots = m.bus.slots
  devices : t.bus.devices.size = m.bus.devices.size

theorem Fixed.lacks {t : Machine δ} (fixed : m.Fixed t) {o : Operand} (lacks : t.Lacks o f) :
    m.Lacks o f := by
  cases o with
  | register r => exact ⟨fixed.registers ▸ lacks.1, lacks.2⟩
  | device a => exact Bus.locate_error_of fixed.slots fixed.devices lacks
  | literal | stackPointer | returnAddress => exact lacks.elim

/-- How an action went through stages, up to those that are left. -/
inductive Went {α : Type} (m : Machine δ) (stages rest : List Stage) (before : List Access) :
    Except Fault α × Machine δ → Prop
  | ok {a : α} {n : Machine δ} {done : List Stage} {made : List Access} :
      stages = done ++ rest → m.Passed done made → m.Fixed n →
      n.bus.accesses.toList = before ++ made → Went m stages rest before (.ok a, n)
  | error {f : Fault} {n : Machine δ} {made : List Access} :
      m.Stopped f stages made → n.bus.accesses.toList = before ++ made →
      Went m stages rest before (.error f, n)

section Single

variable {α : Type} {stage : Stage} {rest last : List Stage} {before : List Access} {n : Machine δ}

theorem passed_single (within : ∀ o, stage = .read o → o.Within m.registers.size m.bus.slots.size)
    {made : List Access} (errands : made.map Access.errand = stage.errand?.toList)
    (accepted : ∀ a ∈ made, a.accepted = true) : m.Passed [stage] made where
  errands := by
    rw [errands]
    cases asked : stage.errand? <;> simp [asked]
  accepted := accepted
  within := fun o member => within o (List.mem_singleton.1 member).symm

theorem Went.silent {a : α} (quiet : stage.errand? = none)
    (within : ∀ o, stage = .read o → o.Within m.registers.size m.bus.slots.size)
    (fixed : m.Fixed n) (same : n.bus.accesses.toList = before) :
    Went m (stage :: rest) rest before (.ok a, n) := by
  have passes : m.Passed [stage] [] := passed_single within (by simp [quiet]) (by simp)
  exact .ok rfl passes fixed (by simp [same])

theorem Went.accepted {a : α} (access : Access) (asked : stage.errand? = some access.errand)
    (taken : access.accepted = true)
    (within : ∀ o, stage = .read o → o.Within m.registers.size m.bus.slots.size)
    (fixed : m.Fixed n) (made : n.bus.accesses.toList = before ++ [access]) :
    Went m (stage :: rest) rest before (.ok a, n) :=
  .ok rfl (passed_single within (by simp [asked]) (by simp [taken])) fixed made

theorem Went.raised (raises : m.Raises stage f) (same : n.bus.accesses.toList = before) :
    Went m (stage :: rest) last before ((.error f, n) : Except Fault α × Machine δ) :=
  .error (Stopped.raised passed_nil raises) (by simp [same])

theorem Went.refused (access : Access) (asked : stage.errand? = some access.errand)
    (denied : access.accepted = false) (made : n.bus.accesses.toList = before ++ [access]) :
    Went m (stage :: rest) last before ((.error .deviceFailed, n) : Except Fault α × Machine δ) :=
  .error (Stopped.refused passed_nil asked denied rfl) made

end Single

/-- The action takes a step through these stages up to those that are left. -/
def Takes {α : Type} (m : Machine δ) (stages rest : List Stage) (act : Action δ α) : Prop :=
  ∀ t, m.Fixed t → Went m stages rest t.bus.accesses.toList (act t)

section Stages

variable {α β : Type} {stages middle rest : List Stage}

theorem Takes.pure (a : α) : m.Takes rest rest (pure a) := by
  intro t fixed
  exact .ok (List.nil_append _).symm passed_nil fixed (List.append_nil _).symm

theorem Takes.bind {act : Action δ α} {next : α → Action δ β} (first : m.Takes stages middle act)
    (later : ∀ a, m.Takes middle rest (next a)) : m.Takes stages rest (act >>= next) := by
  intro t fixed
  have went := first t fixed
  rw [bind_eq]
  generalize act t = result at went ⊢
  cases went with
  | error stopped made => exact .error stopped made
  | @ok a n done made split passed fixed asked =>
    subst split
    have goes := later a n fixed
    rw [asked] at goes
    dsimp only
    generalize next a n = result at goes ⊢
    cases goes with
    | ok split passing fixed more =>
      subst split
      exact .ok (List.append_assoc ..).symm (passed.append passing) fixed
        (more.trans (List.append_assoc ..))
    | error stopped more =>
      exact .error (stopped.append passed) (more.trans (List.append_assoc ..))

theorem Takes.worked {act : Action δ α} (takes : m.Takes stages rest act) :
    m.Takes (.work :: stages) rest act := by
  intro t fixed
  have went := takes t fixed
  have quiet : m.Passed [.work] [] := ⟨rfl, by simp, by simp⟩
  generalize act t = result at went ⊢
  cases went with
  | ok split passed fixed asked =>
    subst split
    exact .ok rfl (quiet.append passed) fixed asked
  | error stopped asked => exact .error (stopped.append quiet) asked

theorem Takes.throw {f : Fault} (allowed : f ∈ Stage.faults) :
    m.Takes (.work :: stages) rest (throw f : Action δ α) := by
  intro t fixed
  exact .raised allowed rfl

theorem Takes.work {act : Action δ α}
    (works : ∀ rs cells b, Keeps
      (fun n : Machine δ => n.registers = rs ∧ n.stack.cells.size = cells ∧ n.bus = b)
      (· ∈ Stage.faults) act fun _ => True) :
    m.Takes (.work :: rest) (.work :: rest) act := by
  intro t fixed
  have ended := works t.registers t.stack.cells.size t.bus t ⟨rfl, rfl, rfl⟩
  generalize act t = result at ended ⊢
  cases ended with
  | ok same _ =>
    obtain ⟨registers, -, bus⟩ := same
    refine .ok (List.nil_append _).symm passed_nil ?_ ?_
    · exact ⟨registers ▸ fixed.registers, bus ▸ fixed.slots, bus ▸ fixed.devices⟩
    · rw [bus, List.append_nil]
  | error same allowed => exact .raised allowed (by rw [same.2.2])

theorem Takes.onStack {act : Stack.Action α}
    (held : ∀ cells, Keeps (fun s => s.cells.size = cells) (· ∈ Stage.faults) act fun _ => True) :
    m.Takes (.work :: rest) (.work :: rest) (onStack act) :=
  .work fun _ cells _ => onStack_keeps (held cells) (fun _ same => same.2.1)
    fun _ _ same size => ⟨same.1, size, same.2.2⟩

theorem Takes.number (v : Binary32) :
    m.Takes (.work :: rest) (.work :: rest) (number v) :=
  .work fun _ _ _ => number_keeps (fun _ => trivial) (by decide)

theorem Takes.jumpTo (program : List Instruction) (target : Binary32) :
    m.Takes (.work :: rest) (.work :: rest) (jumpTo program target) :=
  .work fun _ _ _ => jumpTo_keeps (by decide) program target

theorem Takes.unless {c : Prop} [Decidable c] {f : Fault} (allowed : f ∈ Stage.faults)
    {skipped : PUnit → Action δ α} {next : Action δ α}
    (later : m.Takes (.work :: stages) rest next) :
    m.Takes (.work :: stages) rest (if c then MonadExcept.throw f >>= skipped else next) := by
  split
  · intro t fixed
    exact .raised allowed rfl
  · exact later

theorem Fixed.replace {t : Machine δ} (fixed : m.Fixed t) (place : Nat) (d : δ) (access : Access) :
    m.Fixed { t with bus := t.bus.replace place d access } :=
  ⟨fixed.registers, fixed.slots, by simp [Bus.replace, fixed.devices]⟩

variable [Device δ]

theorem Takes.read (o : Operand) : m.Takes (.read o :: rest) rest (read o) := by
  intro t fixed
  cases o with
  | literal | stackPointer | returnAddress =>
    exact .silent rfl (by simp [Operand.Within]) fixed rfl
  | register r =>
    simp only [Machine.read, readRegister]
    split
    · rename_i v found
      have inside := (Array.getElem?_eq_some_iff.1 found).1
      exact .silent rfl (by simp [Operand.Within, ← fixed.registers, inside]) fixed rfl
    · rename_i beyond
      have outside := Array.getElem?_eq_none_iff.1 beyond
      exact .raised ⟨fixed.registers ▸ outside, rfl⟩ rfl
  | device a =>
    simp only [Machine.read, onBus, Bus.read]
    rcases located : t.bus.locate a.slot with f | ⟨place, d⟩
    · exact .raised (fixed.lacks (show t.Lacks (.device a) f from located)) rfl
    · have inside := Bus.within_of_locate located
      dsimp only
      cases answer : (Device.read d a.register).1 with
      | none => exact .refused (.read a none) rfl rfl (by simp [Bus.replace])
      | some v =>
        exact .accepted (.read a (some v)) rfl rfl
          (by simp [Operand.Within, ← fixed.slots, inside]) (fixed.replace ..)
          (by simp [Bus.replace])

theorem Takes.write (d : Destination) (v : Binary32) :
    m.Takes (.write d :: rest) rest (write d v) := by
  intro t fixed
  cases d with
  | returnAddress =>
    exact .silent rfl (by simp) ⟨fixed.registers, fixed.slots, fixed.devices⟩ rfl
  | register r =>
    simp only [Machine.write, writeRegister]
    split
    · exact .silent rfl (by simp) ⟨by simp [fixed.registers], fixed.slots, fixed.devices⟩ rfl
    · rename_i outside
      have lacks : m.Lacks (.register r) .registerOutOfBound :=
        ⟨fixed.registers ▸ Nat.not_lt.1 outside, rfl⟩
      exact .raised (Or.inl lacks) rfl
  | stackPointer =>
    have overflow : Keeps (fun s => s.cells.size = t.stack.cells.size) (Fault.stackOverflow = ·)
        (Stack.setPointer v) fun _ => True := Stack.setPointer_size rfl v
    have ended := overflow t.stack rfl
    simp only [Machine.write, Machine.onStack]
    generalize Stack.setPointer v t.stack = result at ended ⊢
    cases ended with
    | ok _ _ => exact .silent rfl (by simp) ⟨fixed.registers, fixed.slots, fixed.devices⟩ rfl
    | error _ same => exact .raised (Or.inr ⟨rfl, same.symm⟩) rfl
  | device a =>
    simp only [Machine.write, onBus, Bus.write]
    rcases located : t.bus.locate a.slot with f | ⟨place, d⟩
    · exact .raised (Or.inl (fixed.lacks (show t.Lacks (.device a) f from located))) rfl
    · dsimp only
      cases answer : (Device.write d a.register v).1 with
      | false => exact .refused (.write a v false) rfl rfl (by simp [Bus.replace])
      | true =>
        exact .accepted (.write a v true) rfl rfl (by simp) (fixed.replace ..)
          (by simp [Bus.replace])

/- A value that is put back on the stack is no access. -/
theorem Takes.popInto (d : Destination) : m.Takes [.work, .write d] [] (popInto d) := by
  intro t fixed
  cases top : t.stack.top? with
  | none =>
    rw [popInto_none d top]
    exact .raised (show Fault.stackOverflow ∈ Stage.faults by decide) rfl
  | some v =>
    rw [popInto_some d top]
    have takes : m.Takes [.work, .write d] [] (Machine.write d v) := .worked (.write d v)
    have went := takes t.popped ⟨fixed.registers, fixed.slots, fixed.devices⟩
    generalize Machine.write d v t.popped = result at went ⊢
    cases went with
    | ok split passed fixed made => exact .ok split passed fixed made
    | error stopped made => exact .error stopped made

end Stages

section Operations

variable {i : Instruction} {d : Destination}

theorem Takes.destination {α : Type} {stages rest : List Stage} {next : Destination → Action δ α}
    (given : i.destination = some d) (later : m.Takes stages rest (next d)) :
    m.Takes stages rest (destinationOf i >>= next) := by
  rw [destinationOf, given, pure_bind]
  exact later

variable [Device δ]

theorem store_takes (given : i.destination = some d) (v : Binary32) :
    m.Takes [.work, .write d] [] (store i v) :=
  .destination given (.bind (.number v) fun w => .worked (.bind (.write d w) fun _ => .pure _))

theorem storeFlag_takes (given : i.destination = some d) (c : Bool) :
    m.Takes [.work, .write d] [] (storeFlag i c) :=
  .destination given (.worked (.bind (.write d _) fun _ => .pure _))

theorem adjust_takes (given : i.destination = some d) (change : Binary32) :
    m.Takes [.read d.toOperand, .work, .write d] [] (adjust i change) := by
  refine .destination given (.bind (.read d.toOperand) fun old => .bind (.number _) fun v => ?_)
  exact .worked (.bind (.write d v) fun _ => .pure _)

/-- A step goes through the stages of its instruction. -/
theorem step_takes (program : List Instruction) (shaped : i.WellShaped) :
    m.Takes i.stages [] (step program i) := by
  refine .bind (.read i.left) fun a => .bind (.read i.right) fun b => ?_
  unfold Instruction.inspected Instruction.stored
  have shape : i.destination.isSome = i.operation.shape.hasDestination := shaped
  cases given : i.destination with
  | none =>
    rw [given] at shape
    cases operation : i.operation with
    | nop | ret => exact .worked (.pure _)
    | jump => exact .bind (.jumpTo program a) fun target => .worked (.pure _)
    | jumpReturn =>
      refine .bind (.jumpTo program a) fun target => ?_
      refine .bind (.work fun _ _ _ => Keeps.modify fun _ same => same) fun _ => ?_
      exact .worked (.pure _)
    | _ =>
      rw [operation] at shape
      cases shape
  | some d =>
    rw [given] at shape
    cases operation : i.operation with
    | nop | jump | jumpReturn | ret =>
      rw [operation] at shape
      cases shape
    | move => exact .destination given (.worked (.bind (.write d a) fun _ => .pure _))
    | add | subtract | multiply => exact store_takes given _
    | squareRoot | divide => exact .unless (by decide) (store_takes given _)
    | increment | decrement => exact adjust_takes given _
    | equal | notEqual | greater | greaterOrEqual | lesser | lesserOrEqual =>
      exact storeFlag_takes given _
    | assert =>
      refine .destination given (.bind (.read d.toOperand) fun current => ?_)
      by_cases near : nearlyEqual current a = true
      · rw [if_pos near]
        exact .worked (.pure _)
      · rw [if_neg near]
        exact .throw (by decide)
    | push =>
      refine .destination given (.bind (.read d.toOperand) fun v => ?_)
      exact .bind (.onStack fun _ => Stack.push_size (by decide) v) fun _ => .worked (.pure _)
    | pop => exact .destination given (.bind (.popInto d) fun _ => .pure _)
    | peek =>
      refine .destination given (.bind (.read d.toOperand) fun _ => ?_)
      refine .bind (.onStack fun _ => Stack.peek_keeps (by decide)) fun v => ?_
      exact .worked (.bind (.write d v) fun _ => .pure _)

end Operations

/-- What a step asks of the devices, for an instruction that has a destination exactly when its
operation takes one: reads of the left and right operands, a read of the destination where it is
looked at, a write of it where a result is stored, each only for a device and in this order. A step
that succeeds was given all of this; one that faults stopped at a stage, having asked for what
comes before and at most for the one access that was refused. -/
theorem step_accesses {program : List Instruction} {i : Instruction} (shaped : i.WellShaped)
    {m n : Machine δ} [Device δ] {result : Except Fault Flow}
    (ended : step program i m = (result, n)) :
    ∃ made, n.bus.accesses.toList = m.bus.accesses.toList ++ made ∧
      made.map Access.errand <+: i.errands ∧
      (∀ flow, result = .ok flow →
        made.map Access.errand = i.errands ∧ ∀ a ∈ made, a.accepted = true) ∧
      ∀ f, result = .error f → m.Stopped f i.stages made := by
  have went := step_takes (m := m) program shaped m ⟨rfl, rfl, rfl⟩
  rw [ended] at went
  cases went with
  | @ok flow _ done made split passed _ asked =>
    rw [List.append_nil] at split
    subst split
    have errands : made.map Access.errand = i.errands := passed.errands
    refine ⟨made, asked, errands ▸ List.prefix_rfl, fun _ _ => ⟨errands, passed.accepted⟩, ?_⟩
    intro f failed
    cases failed
  | @error f _ made stopped asked =>
    refine ⟨made, asked, stopped.isPrefix, ?_, ?_⟩
    · intro flow done
      cases done
    · intro g same
      cases same
      exact stopped

/-- The divisor is zero, so the quotient is not written. -/
theorem step_accesses_divide :
    let i : Instruction :=
      ⟨.divide, some (.device ⟨0, 2⟩), .device ⟨0, 0⟩, .device ⟨0, 1⟩, 1, "div d0:2 d0:0 d0:1"⟩
    let m : Machine Peripheral := (attach (new {} #[.cells (.zeros 3)]) 0 0).2
    let made := [.read ⟨0, 0⟩ (some .zero), .read ⟨0, 1⟩ (some .zero)]
    i.errands = [.read ⟨0, 0⟩, .read ⟨0, 1⟩, .write ⟨0, 2⟩] ∧
      (step [i] i m).1 = .error .divisionByZero ∧ (step [i] i m).2.bus.accesses.toList = made ∧
      m.Stopped .divisionByZero i.stages made := by
  intro i m made
  have failed : (step [i] i m).1 = .error .divisionByZero := by rfl
  have asked : (step [i] i m).2.bus.accesses.toList = made := by decide +kernel
  obtain ⟨found, accesses, -, -, stopped⟩ :=
    step_accesses (by decide : i.WellShaped) (rfl : step [i] i m = (_, (step [i] i m).2))
  have same : made = found := asked.symm.trans accesses
  exact ⟨by decide, failed, asked, same ▸ stopped _ failed⟩

end Machine
end FloatMachine
