import FloatMachine.Proofs.Listing
import FloatMachine.Proofs.Values

/-! What is not a number never gets into a machine. A result that is none is refused, so where the
literals of a program and the answers of its devices are numbers all values of its runs are, and a
cell store that holds numbers goes on holding numbers. -/
namespace FloatMachine

/-- An infinity counts as a number here. -/
def Binary32.IsNumber (v : Binary32) : Prop := v.isNaN = false

instance (v : Binary32) : Decidable v.IsNumber := inferInstanceAs (Decidable (_ = _))

namespace Assembly

theorem positions_mem {operands : List Operand} {o : Operand}
    (member : o = (positions operands).1 ∨ o = (positions operands).2) :
    o ∈ operands ∨ o = .unused := by
  match operands with
  | [] => simpa [positions] using member
  | [_] => simpa [positions] using member
  | _ :: _ :: _ =>
    rcases member with rfl | rfl
    · simp
    · simp

theorem sources_numbers {ws : List (List Char)} {operands : List Operand}
    (sources : List.Forall₂ Source ws operands) {v : Binary32} (member : .literal v ∈ operands) :
    v.IsNumber := by
  induction sources with
  | nil => cases member
  | cons source _ ih =>
    rcases List.mem_cons.1 member with same | later
    · cases source with
      | literal literal =>
        cases same
        exact Binary32.isNaN_of_finite literal.finite
      | @place _ d => cases d <;> cases same
    · exact ih later

theorem Arguments.numbers {shape : Shape} {ws : List (List Char)} {d : Option Destination}
    {operands : Operand × Operand} (form : Arguments shape ws d operands) {v : Binary32}
    (member : .literal v = operands.1 ∨ .literal v = operands.2) : v.IsNumber := by
  have given : ∃ sources os, List.Forall₂ Source sources os ∧ operands = positions os := by
    cases form with
    | plain _ _ sources => exact ⟨_, _, sources, rfl⟩
    | targeted _ _ _ sources => exact ⟨_, _, sources, rfl⟩
  obtain ⟨sources, os, each, rfl⟩ := given
  rcases positions_mem member with there | unused
  · exact sources_numbers each there
  · cases unused
    decide

theorem assembled_numbers {source : String} {p : Program} (assembled : assemble source = .ok p) :
    p.Literals Binary32.IsNumber := by
  intro i member v touched
  obtain ⟨ws, args, -, form⟩ := (assemble_iff.1 assembled).1.sourced i member
  rcases List.mem_append.1 touched with destination | operand
  · obtain ⟨d, -, same⟩ := List.mem_map.1 destination
    cases d <;> cases same
  · exact form.numbers (by simpa using operand)

end Assembly

namespace CellStore

variable {Good : Binary32 → Prop}

theorem cells_good {s t : CellStore} (held : ∀ v ∈ s.cells, Good v)
    (reached : Device.Reaches Good s t) : ∀ v ∈ t.cells, Good v := by
  induction reached with
  | refl => exact held
  | read r _ ih => exact ih
  | @write t r v good _ ih =>
    intro w member
    simp only [Device.write] at member
    split at member
    · rename_i inside
      rcases Array.mem_or_eq_of_mem_set (w := inside) member with old | rfl
      · exact ih w old
      · exact good
    · exact ih w member

theorem answers_good {s : CellStore} (held : ∀ v ∈ s.cells, Good v) : Device.Answers Good s := by
  intro t reached r v answer
  exact cells_good held reached v (Array.mem_of_getElem? answer)

/-- Runs, one after the other, of programs whose literals are numbers: each on a machine that has
the store among its devices as the run before has left it, and in its other slots devices that
answer with numbers. -/
inductive Serves {ε : Type} [Device ε] (kind : CellStore → ε) : CellStore → CellStore → Prop
  | start (s : CellStore) : Serves kind s s
  | run {s t u : CellStore} {m : Machine ε} {p : Program} {place fuel : Nat} :
      Serves kind s t → p.Literals Binary32.IsNumber →
      m.bus.devices[place]? = some (kind t) →
      (∀ slot d, m.bus.placeIn slot ≠ some place → m.bus.deviceIn slot = some d →
        Device.Answers Binary32.IsNumber d) →
      (m.outcome fuel p).machine.bus.devices[place]? = some (kind u) →
      Serves kind s u

theorem Serves.numbers {ε : Type} [Device ε] {kind : CellStore → ε}
    (includes : Device.Includes kind) {s t : CellStore} (serves : Serves kind s t)
    (held : ∀ v ∈ s.cells, v.IsNumber) : ∀ v ∈ t.cells, v.IsNumber := by
  induction serves with
  | start => exact held
  | @run t u m p place fuel _ literals plugged others left ih =>
    have answers : ∀ slot d, m.bus.deviceIn slot = some d →
        Device.Answers Binary32.IsNumber d := by
      intro slot d found
      by_cases here : m.bus.placeIn slot = some place
      · obtain ⟨_, placed, device⟩ := Bus.deviceIn_eq_some.1 found
        rw [here] at placed
        cases placed
        rw [plugged] at device
        cases device
        exact includes.answers (answers_good ih)
      · exact others slot d here found
    have holds := Machine.outcome_holds (fun _ number => number) literals answers fuel
    obtain ⟨e, after, reached⟩ := holds.bus.later plugged
    rw [left] at after
    cases after
    obtain ⟨f, same, below⟩ := includes.reaches reached
    rw [includes.injective same]
    exact cells_good ih below

end CellStore

namespace Machine

/-- The literals of assembled programs are numbers. When the literals of a program are, and the
devices in the slots answer with numbers as long as they are written numbers, then after every step
all registers, all stack cells, live or not, and the return address hold numbers, and nothing else
has been written to a device. So a cell store that holds numbers does so after any sequence of such
runs. -/
theorem numbers_stay_numbers :
    (∀ {source : String} {p : Program}, Assembly.assemble source = .ok p →
      p.Literals Binary32.IsNumber) ∧
    (∀ {δ : Type} [Device δ] {m : Machine δ} {p : Program}, p.Literals Binary32.IsNumber →
      (∀ slot d, m.bus.deviceIn slot = some d → Device.Answers Binary32.IsNumber d) →
      ∀ fuel, let n := (m.outcome fuel p).machine
        (∀ v ∈ n.registers, v.IsNumber) ∧ (∀ v ∈ n.stack.cells, v.IsNumber) ∧
        n.returnAddress.IsNumber ∧
        ∀ a v accepted, .write a v accepted ∈ n.bus.accesses → v.IsNumber) ∧
    ∀ {ε : Type} [Device ε] {kind : CellStore → ε}, Device.Includes kind →
      ∀ {s t : CellStore}, CellStore.Serves kind s t →
        (∀ v ∈ s.cells, v.IsNumber) → ∀ v ∈ t.cells, v.IsNumber := by
  refine ⟨Assembly.assembled_numbers, ?_, CellStore.Serves.numbers⟩
  intro δ _ m p literals answers fuel n
  have holds := outcome_holds (fun _ number => number) literals answers fuel
  exact ⟨holds.registers, holds.stack, holds.returnAddress, holds.bus.written⟩

/-- A product that overflows is stored and read back; its difference with itself is refused. -/
theorem numbers_stay_numbers_infinity :
    let source := "mul r0 1000000000000000000000 1000000000000000000000\n" ++
      "mov d0:1 r0\nsub d0:0 d0:1 r0"
    let p := Program.ofInstructions
      [⟨.multiply, some (.register 0), .literal ⟨0x6258d727⟩, .literal ⟨0x6258d727⟩, 1,
          "mul r0 1000000000000000000000 1000000000000000000000"⟩,
        ⟨.move, some (.device ⟨0, 1⟩), .register 0, .unused, 2, "mov d0:1 r0"⟩,
        ⟨.subtract, some (.device ⟨0, 0⟩), .device ⟨0, 1⟩, .register 0, 3, "sub d0:0 d0:1 r0"⟩]
    let m : Machine CellStore := (attach (new {} #[.zeros 2]) 0 0).2
    let s : CellStore := ⟨#[.zero, ⟨0x7f800000⟩]⟩
    Assembly.assemble source = .ok p ∧
      (m.outcome 3 p).error? = some ⟨.notANumber, 3, "sub d0:0 d0:1 r0"⟩ ∧
      (∀ v ∈ (m.outcome 3 p).machine.registers, v.IsNumber) ∧
      (m.outcome 3 p).machine.bus.devices = #[s] ∧ ∀ v ∈ s.cells, v.IsNumber := by
  intro source p m s
  have assembled : Assembly.assemble source = .ok p := by decide +kernel
  have left : (m.outcome 3 p).machine.bus.devices = #[s] := by decide +kernel
  have zeros : ∀ v ∈ (CellStore.zeros 2).cells, v.IsNumber := by decide
  obtain ⟨numbers, runs, stores⟩ := numbers_stay_numbers
  have answers : ∀ slot d, m.bus.deviceIn slot = some d →
      Device.Answers Binary32.IsNumber d := by
    intro slot d found
    match slot with
    | 0 =>
      cases found
      exact CellStore.answers_good zeros
    | 1 | 2 | 3 => cases found
    | slot + 4 => cases found
  have same : Device.Includes (id : CellStore → CellStore) :=
    ⟨Function.injective_id, fun _ _ => rfl, fun _ _ _ => rfl⟩
  have plugged : m.bus.devices[0]? = some (CellStore.zeros 2) := rfl
  have ended : (m.outcome 3 p).machine.bus.devices[0]? = some s := by
    rw [left]
    rfl
  have serves : CellStore.Serves id (.zeros 2) s :=
    .run (.start _) (numbers assembled) plugged (fun slot d _ => answers slot d) ended
  exact ⟨assembled, by decide +kernel, (runs (numbers assembled) answers 3).1, left,
    stores same serves zeros⟩

end Machine
end FloatMachine
