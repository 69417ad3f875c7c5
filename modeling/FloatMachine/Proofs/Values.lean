import FloatMachine.Proofs.History
import FloatMachine.Proofs.Rounding
import FloatMachine.Proofs.Unmoved

/-! Where the values of a run come from. What holds of all numbers, of the literals of a program
and of the answers of its devices holds of every value that a run stores or writes; and a run makes
of a device what reads and such writes make of it. -/
namespace FloatMachine

namespace Device

variable {δ ε : Type} [Device δ] [Device ε] {Good : Binary32 → Prop}

/-- What reads, and writes of good values, make of a device. -/
inductive Reaches (Good : Binary32 → Prop) : δ → δ → Prop
  | refl (d : δ) : Reaches Good d d
  | read {d e : δ} (r : UInt16) : Reaches Good d e → Reaches Good d (Device.read e r).2
  | write {d e : δ} (r : UInt16) {v : Binary32} : Good v → Reaches Good d e →
      Reaches Good d (Device.write e r v).2

/-- As long as it is written good values only, the device answers with good values. -/
def Answers (Good : Binary32 → Prop) (d : δ) : Prop :=
  ∀ e, Reaches Good d e → ∀ r v, (Device.read e r).1 = some v → Good v

/-- The devices of one type are among those of another, and answer there as they do. -/
structure Includes (kind : δ → ε) : Prop where
  injective : Function.Injective kind
  read : ∀ d r, Device.read (kind d) r = ((Device.read d r).1, kind (Device.read d r).2)
  write : ∀ d r v, Device.write (kind d) r v = ((Device.write d r v).1, kind (Device.write d r v).2)

variable {kind : δ → ε}

theorem Includes.reaches (includes : Includes kind) {d : δ} {e : ε}
    (reached : Reaches Good (kind d) e) : ∃ f, e = kind f ∧ Reaches Good d f := by
  induction reached with
  | refl => exact ⟨d, rfl, .refl d⟩
  | read r _ ih =>
    obtain ⟨f, rfl, reached⟩ := ih
    rw [includes.read]
    exact ⟨_, rfl, reached.read r⟩
  | write r good _ ih =>
    obtain ⟨f, rfl, reached⟩ := ih
    rw [includes.write]
    exact ⟨_, rfl, reached.write r good⟩

theorem Includes.answers (includes : Includes kind) {d : δ} (answers : Answers Good d) :
    Answers Good (kind d) := by
  intro e reached r v answer
  obtain ⟨f, rfl, below⟩ := includes.reaches reached
  rw [includes.read] at answer
  exact answers f below r v answer

end Device

namespace Peripheral

theorem includes_display : Device.Includes Peripheral.display :=
  ⟨fun _ _ => Peripheral.display.inj, fun _ _ => rfl, fun _ _ _ => rfl⟩

theorem includes_table : Device.Includes Peripheral.table :=
  ⟨fun _ _ => Peripheral.table.inj, fun _ _ => rfl, fun _ _ _ => rfl⟩

theorem includes_cells : Device.Includes Peripheral.cells :=
  ⟨fun _ _ => Peripheral.cells.inj, fun _ _ => rfl, fun _ _ _ => rfl⟩

end Peripheral

namespace Stack

variable {Good : Binary32 → Prop}

/-- Good values in all cells, above the pointer as well. -/
def Filled (Good : Binary32 → Prop) (s : Stack) : Prop := ∀ v ∈ s.cells, Good v

theorem empty_filled (zero : Good .zero) (capacity : Nat) : (empty capacity).Filled Good := by
  intro v member
  rw [Array.eq_of_mem_replicate member]
  exact zero

theorem push_filled {v : Binary32} (good : Good v) :
    Keeps (Filled Good) (fun _ => True) (push v) fun _ => True := by
  intro s filled
  unfold push
  split
  · rename_i inside
    refine .ok (fun w member => ?_) trivial
    rcases Array.mem_or_eq_of_mem_set (w := inside) member with old | rfl
    · exact filled w old
    · exact good
  · exact .error filled trivial

theorem top_filled {s : Stack} (filled : s.Filled Good) {v : Binary32} (top : s.top? = some v) :
    Good v := by
  unfold top? at top
  split at top
  · cases top
  · exact filled v (Array.mem_of_getElem? top)

theorem pop_filled : Keeps (Filled Good) (fun _ => True) pop Good := by
  intro s filled
  unfold pop
  split
  · rename_i v top
    exact .ok filled (top_filled filled top)
  · exact .error filled trivial

theorem peek_filled : Keeps (Filled Good) (fun _ => True) peek Good := by
  intro s filled
  unfold peek
  split
  · rename_i v top
    exact .ok filled (top_filled filled top)
  · exact .error filled trivial

theorem setPointer_filled (v : Binary32) :
    Keeps (Filled Good) (fun _ => True) (setPointer v) fun _ => True := by
  intro s filled
  unfold setPointer
  split
  · split
    · exact .ok filled trivial
    · exact .error filled trivial
  · exact .error filled trivial

end Stack

namespace Bus

variable {δ : Type} [Device δ] {Good : Binary32 → Prop} {b c : Bus δ}

/-- The slots are those of `b`, the devices what reads and writes of good values have made of those
of `b`, and no other value was written since the run began. -/
structure Evolved (Good : Binary32 → Prop) (b c : Bus δ) : Prop where
  slots : c.slots = b.slots
  devices : ∀ place : Nat, Option.Rel (Device.Reaches Good) b.devices[place]? c.devices[place]?
  written : ∀ a v accepted, .write a v accepted ∈ c.accesses → Good v

theorem evolved_start (b : Bus δ) : Evolved Good b { b with accesses := #[] } where
  slots := rfl
  devices := by
    intro place
    cases b.devices[place]? with
    | none => exact .none
    | some d => exact .some (.refl d)
  written := by
    intro a v accepted member
    cases Array.not_mem_empty _ member

theorem Evolved.before (evolved : Evolved Good b c) {place : Nat} {e : δ}
    (held : c.devices[place]? = some e) :
    ∃ d, b.devices[place]? = some d ∧ Device.Reaches Good d e := by
  have related := evolved.devices place
  rw [held] at related
  generalize b.devices[place]? = first at related ⊢
  cases related with
  | some reached => exact ⟨_, rfl, reached⟩

theorem Evolved.later (evolved : Evolved Good b c) {place : Nat} {d : δ}
    (held : b.devices[place]? = some d) :
    ∃ e, c.devices[place]? = some e ∧ Device.Reaches Good d e := by
  have related := evolved.devices place
  rw [held] at related
  generalize c.devices[place]? = last at related ⊢
  cases related with
  | some reached => exact ⟨_, rfl, reached⟩

theorem Evolved.located (evolved : Evolved Good b c) {slot : UInt16} {place : Nat} {e : δ}
    (found : c.locate slot = .ok (place, e)) :
    ∃ d, b.deviceIn slot.toNat = some d ∧ Device.Reaches Good d e := by
  obtain ⟨placed, -⟩ := locate_placed found
  obtain ⟨d, first, reached⟩ := evolved.before (locate_found found)
  have same : b.placeIn slot.toNat = c.placeIn slot.toNat := by
    rw [placeIn, placeIn, evolved.slots]
  exact ⟨d, deviceIn_eq_some.2 ⟨place, same.trans placed, first⟩, reached⟩

/- One more access to the device at a place. -/
theorem Evolved.replace (evolved : Evolved Good b c) {place : Nat} {e f : δ}
    (held : c.devices[place]? = some e)
    (next : ∀ d, Device.Reaches Good d e → Device.Reaches Good d f) {access : Access}
    (written : ∀ a v accepted, access = .write a v accepted → Good v) :
    Evolved Good b (c.replace place f access) where
  slots := evolved.slots
  devices := by
    intro other
    simp only [Bus.replace, Array.getElem?_setIfInBounds]
    by_cases here : place = other
    · subst here
      obtain ⟨d, first, reached⟩ := evolved.before held
      rw [if_pos rfl, if_pos (Array.getElem?_eq_some_iff.1 held).1, first]
      exact .some (next d reached)
    · rw [if_neg here]
      exact evolved.devices other
  written := by
    intro a v accepted member
    rcases Array.mem_push.1 member with old | new
    · exact evolved.written a v accepted old
    · exact written a v accepted new.symm

theorem read_evolved (answers : ∀ slot d, b.deviceIn slot = some d → Device.Answers Good d)
    (a : DeviceAddress) : Keeps (Evolved Good b) (fun _ => True) (read a) Good := by
  intro c evolved
  unfold read
  rcases found : c.locate a.slot with f | ⟨place, e⟩
  · exact .error evolved trivial
  · have kept : Evolved Good b
        (c.replace place (Device.read e a.register).2 (.read a (Device.read e a.register).1)) := by
      refine evolved.replace (locate_found found) (fun d reached => reached.read a.register) ?_
      intro _ _ _ same
      cases same
    dsimp only
    cases answer : (Device.read e a.register).1 with
    | none =>
      rw [answer] at kept
      exact .error kept trivial
    | some v =>
      rw [answer] at kept
      obtain ⟨d, plugged, reached⟩ := evolved.located found
      exact .ok kept (answers _ d plugged e reached a.register v answer)

theorem write_evolved {v : Binary32} (good : Good v) (a : DeviceAddress) :
    Keeps (Evolved Good b) (fun _ => True) (write a v) fun _ => True := by
  intro c evolved
  unfold write
  rcases found : c.locate a.slot with f | ⟨place, e⟩
  · exact .error evolved trivial
  · have kept : ∀ accepted, Evolved Good b
        (c.replace place (Device.write e a.register v).2 (.write a v accepted)) := by
      intro accepted
      refine evolved.replace (locate_found found)
        (fun d reached => reached.write a.register good) ?_
      intro _ _ _ same
      cases same
      exact good
    dsimp only
    split
    · exact .ok (kept _) trivial
    · exact .error (kept _) trivial

end Bus

namespace Binary32

theorem ofNat_isNaN (n : Nat) : (ofNat n).isNaN = false := by
  rw [isNaN, magnitude_ofNat, decide_eq_false_iff_not, Nat.not_lt]
  exact nearest_le _ _

end Binary32

namespace Program

/-- All literals of the program are good, also those in positions that are not used. -/
def Literals (Good : Binary32 → Prop) (p : Program) : Prop :=
  ∀ i ∈ p.instructions, ∀ v, .literal v ∈ i.touched → Good v

end Program

namespace Machine

variable {δ : Type} [Device δ] {Good : Binary32 → Prop} {b : Bus δ}

/-- All values in the machine are good, and all that were written to the devices of `b`. -/
structure Holds (Good : Binary32 → Prop) (b : Bus δ) (m : Machine δ) : Prop where
  registers : ∀ v ∈ m.registers, Good v
  stack : m.stack.Filled Good
  returnAddress : Good m.returnAddress
  bus : Bus.Evolved Good b m.bus

theorem Holds.onStack_keeps {α : Type} {act : Stack.Action α} {Fine : α → Prop}
    (held : Keeps (Stack.Filled Good) (fun _ => True) act Fine) :
    Keeps (Holds Good b) (fun _ => True) (onStack act) Fine :=
  Machine.onStack_keeps held (fun _ holds => holds.stack) fun _ _ holds filled =>
    ⟨holds.registers, filled, holds.returnAddress, holds.bus⟩

theorem Holds.onBus_keeps {α : Type} {act : Bus.Action δ α} {Fine : α → Prop}
    (held : Keeps (Bus.Evolved Good b) (fun _ => True) act Fine) :
    Keeps (Holds Good b) (fun _ => True) (onBus act) Fine :=
  Machine.onBus_keeps held (fun _ holds => holds.bus) fun _ _ holds evolved =>
    ⟨holds.registers, holds.stack, holds.returnAddress, evolved⟩

theorem readRegister_holds (r : UInt32) :
    Keeps (Holds Good b) (fun _ => True) (readRegister r) Good := by
  intro m holds
  unfold readRegister
  split
  · rename_i v found
    exact .ok holds (holds.registers v (Array.mem_of_getElem? found))
  · exact .error holds trivial

theorem writeRegister_holds (r : UInt32) {v : Binary32} (good : Good v) :
    Keeps (Holds Good b) (fun _ => True) (writeRegister r v) fun _ => True := by
  intro m holds
  unfold writeRegister
  split
  · rename_i inside
    refine .ok ⟨fun w member => ?_, holds.stack, holds.returnAddress, holds.bus⟩ trivial
    rcases Array.mem_or_eq_of_mem_set (w := inside) member with old | rfl
    · exact holds.registers w old
    · exact good
  · exact .error holds trivial

section Values

variable (numbers : ∀ v : Binary32, v.isNaN = false → Good v)

include numbers

theorem reset_holds (m : Machine δ) : Holds Good m.bus m.reset where
  registers := by
    intro v member
    rw [Array.eq_of_mem_replicate member]
    exact numbers _ (by decide)
  stack := Stack.empty_filled (numbers _ (by decide)) _
  returnAddress := numbers .zero (by decide)
  bus := Bus.evolved_start m.bus

theorem returnLine_good (program : List Instruction) (line : UInt64) :
    Good (returnLine program line) := by
  unfold returnLine
  split
  · exact numbers _ (Binary32.ofNat_isNaN _)
  · exact numbers _ (by decide)

variable (answers : ∀ slot d, b.deviceIn slot = some d → Device.Answers Good d)

include answers

theorem read_holds {o : Operand} (literal : ∀ v, o = .literal v → Good v) :
    Keeps (Holds Good b) (fun _ => True) (read o) Good := by
  cases o with
  | literal v => exact Keeps.pure (literal v rfl)
  | register r => exact readRegister_holds r
  | stackPointer =>
    exact Keeps.bind Keeps.get fun m _ => Keeps.pure (numbers _ (Binary32.ofNat_isNaN _))
  | returnAddress => exact Keeps.bind Keeps.get fun m holds => Keeps.pure holds.returnAddress
  | device a => exact Holds.onBus_keeps (Bus.read_evolved answers a)

omit numbers answers in
theorem write_holds (d : Destination) {v : Binary32} (good : Good v) :
    Keeps (Holds Good b) (fun _ => True) (write d v) fun _ => True := by
  cases d with
  | register r => exact writeRegister_holds r good
  | stackPointer => exact Holds.onStack_keeps (Stack.setPointer_filled v)
  | returnAddress =>
    exact Keeps.modify fun m holds => ⟨holds.registers, holds.stack, good, holds.bus⟩
  | device a => exact Holds.onBus_keeps (Bus.write_evolved good a)

theorem holds_respects {i : Instruction} (literals : ∀ v, .literal v ∈ i.touched → Good v) :
    Respects i (Holds Good b) Good fun _ => True where
  number := numbers
  read := by
    intro o touched
    refine read_holds numbers answers fun v same => literals v (same ▸ touched)
  write := fun d _ v good => write_holds d good
  push := fun v good => Holds.onStack_keeps (Stack.push_filled good)
  pop := Holds.onStack_keeps Stack.pop_filled
  peek := Holds.onStack_keeps Stack.peek_filled
  link := fun program m holds =>
    ⟨holds.registers, holds.stack, returnLine_good numbers program i.line, holds.bus⟩
  missing := fun _ _ => trivial
  refusal := fun _ _ => trivial

omit answers in
theorem outcome_holds {m : Machine δ} {p : Program} (literals : p.Literals Good)
    (answers : ∀ slot d, m.bus.deviceIn slot = some d → Device.Answers Good d) (fuel : Nat) :
    Holds Good m.bus (m.outcome fuel p).machine := by
  by_cases short : m.config.FallsShort p.requirements
  · rw [outcome_refused short]
    exact reset_holds numbers m
  · rw [outcome_eq, start_accepted short]
    have step : ∀ i ∈ p.instructions,
        Keeps (Holds Good m.bus) (fun _ => True) (step p.instructions i) fun _ => True :=
      fun i member => (holds_respects numbers answers (literals i member)).step_keeps _
    have start : Execution.Sound p.instructions (Holds Good m.bus) (fun _ _ => True)
        ⟨m.reset, .running 0⟩ := by
      constructor
      · exact reset_holds numbers m
      · intro e failed
        cases failed
    exact (Execution.after_sound step start fuel).machine

end Values

end Machine
end FloatMachine
