import FloatMachine.Proofs.Values

/-! Devices under any accesses. One access keeps the capacity of a display and its cursor within it,
and sets no other cell of a store than the one it is written to; so does any number of accesses, and
what a store answers is what was written to it last. -/
namespace FloatMachine

namespace Device

inductive Request
  | read (register : UInt16)
  | write (register : UInt16) (value : Binary32)
deriving DecidableEq, Repr

variable {δ : Type} [Device δ] {d e : δ}

def serve (d : δ) : Request → δ
  | .read r => (Device.read d r).2
  | .write r v => (Device.write d r v).2

/-- What accesses make of a device, first one first. -/
def after (d : δ) (requests : List Request) : δ := requests.foldl serve d

theorem after_concat (d : δ) (requests : List Request) (request : Request) :
    after d (requests ++ [request]) = serve (after d requests) request := by
  simp [after]

theorem reaches_after (d : δ) (requests : List Request) :
    Reaches (fun _ => True) d (after d requests) := by
  induction requests using List.reverseRecOn with
  | nil => exact .refl d
  | append_singleton requests request ih =>
    rw [after_concat]
    cases request with
    | read r => exact ih.read r
    | write r v => exact ih.write r trivial

def lastWritten (r : UInt16) (requests : List Request) : Option Binary32 :=
  requests.reverse.findSome? fun
    | .read _ => none
    | .write q v => if q = r then some v else none

theorem lastWritten_read (r q : UInt16) (requests : List Request) :
    lastWritten r (requests ++ [.read q]) = lastWritten r requests := by
  simp [lastWritten]

theorem lastWritten_write (r q : UInt16) (v : Binary32) (requests : List Request) :
    lastWritten r (requests ++ [.write q v]) =
      if q = r then some v else lastWritten r requests := by
  simp only [lastWritten, List.reverse_append, List.reverse_singleton, List.singleton_append,
    List.findSome?_cons]
  split <;> rename_i found <;> split at found <;> simp_all

end Device

open Device (Request Reaches after lastWritten)

namespace Display

/-- All that a write may do to a display that takes it. -/
inductive Changes (d : Display) : UInt16 → Binary32 → Display → Prop
  | put {v : Binary32} {c : Char} (room : d.cursor < d.cells.size) :
      (index? v).bind character? = some c →
      Changes d 0 v ⟨d.cells.set d.cursor c room, d.cursor + 1⟩
  | move {v : Binary32} {n : Nat} : index? v = some n → n < d.capacity →
      Changes d 1 v { d with cursor := n }
  | clear (v : Binary32) : Changes d 2 v (blank d.capacity)

variable {d e : Display} {r : UInt16} {v : Binary32}

theorem put_eq : d.put v = (true, e) ↔ ∃ c, ∃ room : d.cursor < d.cells.size,
    (index? v).bind character? = some c ∧ e = ⟨d.cells.set d.cursor c room, d.cursor + 1⟩ := by
  unfold put
  split
  · rename_i c stands
    split
    · rename_i room
      constructor
      · rintro ⟨⟩
        exact ⟨c, room, stands, rfl⟩
      · rintro ⟨_, _, same, rfl⟩
        cases stands.symm.trans same
        rfl
    · rename_i full
      constructor
      · rintro ⟨⟩
      · rintro ⟨_, room, -⟩
        exact absurd room full
  · rename_i nothing
    constructor
    · rintro ⟨⟩
    · rintro ⟨_, _, same, -⟩
      cases nothing.symm.trans same

theorem moveCursor_eq : d.moveCursor v = (true, e) ↔
    ∃ n, index? v = some n ∧ n < d.capacity ∧ e = { d with cursor := n } := by
  unfold moveCursor
  split
  · rename_i n stands
    split
    · rename_i inside
      constructor
      · rintro ⟨⟩
        exact ⟨n, stands, inside, rfl⟩
      · rintro ⟨_, same, -, rfl⟩
        cases stands.symm.trans same
        rfl
    · rename_i outside
      constructor
      · rintro ⟨⟩
      · rintro ⟨_, same, inside, -⟩
        cases stands.symm.trans same
        exact absurd inside outside
  · rename_i nothing
    constructor
    · rintro ⟨⟩
    · rintro ⟨_, same, -⟩
      cases nothing.symm.trans same

theorem write_eq : Device.write d r v = (true, e) ↔ d.Changes r v e := by
  constructor
  · intro written
    simp only [Device.write] at written
    split at written
    · subst_vars
      obtain ⟨c, room, stands, rfl⟩ := put_eq.1 written
      exact .put room stands
    split at written
    · subst_vars
      obtain ⟨n, stands, inside, rfl⟩ := moveCursor_eq.1 written
      exact .move stands inside
    split at written
    · subst_vars
      cases written
      exact .clear v
    · cases written
  · rintro (⟨room, stands⟩ | ⟨stands, inside⟩ | _)
    · exact put_eq.2 ⟨_, room, stands, rfl⟩
    · exact moveCursor_eq.2 ⟨_, stands, inside, rfl⟩
    · rfl

/-- A display with that many cells, and its cursor at one of them or behind the last. -/
structure Within (cells : Nat) (d : Display) : Prop where
  capacity : d.capacity = cells
  cursor : d.cursor ≤ cells

theorem blank_within (cells : Nat) : (blank cells).Within cells where
  capacity := Array.size_replicate
  cursor := Nat.zero_le cells

variable {cells : Nat} {Good : Binary32 → Prop}

theorem Changes.within (changes : d.Changes r v e) (within : d.Within cells) : e.Within cells := by
  obtain ⟨rfl, -⟩ := within
  cases changes with
  | put room _ => exact ⟨Array.size_set room, room⟩
  | move _ inside => exact ⟨rfl, Nat.le_of_lt inside⟩
  | clear => exact blank_within d.capacity

theorem reaches_within (within : d.Within cells) (reached : Reaches Good d e) : e.Within cells := by
  induction reached with
  | refl => exact within
  | read _ _ ih => exact ih
  | @write f q w _ _ ih =>
    rcases written : Device.write f q w with ⟨_ | _, e⟩
    · have kept := steady.write f q w (by rw [written])
      rw [written] at kept
      exact kept ▸ ih
    · exact (write_eq.1 written).within ih

end Display

theorem LookupTable.reaches_eq {Good : Binary32 → Prop} {t u : LookupTable}
    (reached : Reaches Good t u) : u = t := by
  induction reached with
  | refl => rfl
  | read _ _ ih => exact ih
  | write _ _ _ ih => exact ih

namespace CellStore

theorem write_accepted (s : CellStore) (r : UInt16) (v : Binary32) :
    (Device.write s r v).1 = true ↔ r.toNat < s.cells.size := by
  simp only [Device.write]
  split <;> simp_all

theorem write_cell (s : CellStore) (r : UInt16) (v : Binary32) (i : Nat) :
    (Device.write s r v).2.cells[i]? =
      if i = r.toNat then s.cells[i]?.map fun _ => v else s.cells[i]? := by
  simp only [Device.write]
  split
  · rename_i inside
    rw [Array.getElem?_set]
    by_cases here : r.toNat = i
    · subst here
      simp [inside]
    · rw [if_neg here, if_neg (Ne.symm here)]
  · rename_i outside
    split
    · subst_vars
      rw [Array.getElem?_eq_none (Nat.not_lt.1 outside)]
      rfl
    · rfl

theorem reaches_size {Good : Binary32 → Prop} {s t : CellStore} (reached : Reaches Good s t) :
    t.cells.size = s.cells.size := by
  induction reached with
  | refl => rfl
  | read _ _ ih => exact ih
  | @write u r v _ _ ih =>
    rw [← ih]
    simp only [Device.write]
    split
    · simp
    · rfl

theorem after_cell (s : CellStore) (requests : List Request) (r : UInt16) :
    (after s requests).cells[r.toNat]? =
      s.cells[r.toNat]?.map fun old => (lastWritten r requests).getD old := by
  induction requests using List.reverseRecOn with
  | nil => simp [after, lastWritten]
  | append_singleton requests request ih =>
    rw [Device.after_concat]
    cases request with
    | read q =>
      rw [Device.lastWritten_read]
      exact ih
    | write q v =>
      rw [Device.lastWritten_write, Device.serve, write_cell, ih]
      by_cases same : q = r
      · subst same
        simp [Function.comp_def]
      · have apart : ¬ r.toNat = q.toNat := fun equal => same (UInt16.toNat_inj.1 equal.symm)
        rw [if_neg same, if_neg apart]

end CellStore

namespace Peripheral

/-- Whatever is read and written: a display that began blank keeps its capacity and its cursor within
it, a table stays as it is, and a store is an array of cells, each with what was written to it last.
Reading changes no device, and neither does a write that is refused. -/
theorem accesses_keep :
    (∀ (cells : Nat) (requests : List Request),
      let d := after (Display.blank cells) requests
      d.cursor ≤ d.capacity ∧ d.capacity = cells) ∧
    (∀ (t : LookupTable) (requests : List Request), after t requests = t) ∧
    (∀ (s : CellStore) (requests : List Request) (r : UInt16),
      let t := after s requests
      t.cells.size = s.cells.size ∧
      (Device.read t r).1 =
        s.cells[r.toNat]?.map (fun old => (lastWritten r requests).getD old) ∧
      ∀ v, ((Device.write t r v).1 = true ↔ r.toNat < s.cells.size) ∧
        ∀ i, (Device.write t r v).2.cells[i]? =
          if i = r.toNat then t.cells[i]?.map fun _ => v else t.cells[i]?) ∧
    ∀ (d : Peripheral) (r : UInt16), (Device.read d r).2 = d ∧
      ∀ v, (Device.write d r v).1 = false → (Device.write d r v).2 = d := by
  refine ⟨?_, ?_, ?_, ?_⟩
  · intro cells requests d
    have within : d.Within cells :=
      Display.reaches_within (Display.blank_within cells) (Device.reaches_after _ requests)
    exact ⟨within.capacity ▸ within.cursor, within.capacity⟩
  · intro t requests
    exact LookupTable.reaches_eq (Device.reaches_after t requests)
  · intro s requests r t
    have size : t.cells.size = s.cells.size :=
      CellStore.reaches_size (Device.reaches_after s requests)
    refine ⟨size, CellStore.after_cell s requests r, fun v => ⟨?_, t.write_cell r v⟩⟩
    rw [← size]
    exact t.write_accepted r v
  · intro d r
    exact ⟨steady.read d r, steady.write d r⟩

/-- A full display takes no further character, and its cursor cannot be moved to what is no number. -/
theorem accesses_keep_full :
    let d := after (Display.blank 1) [.write 0 ⟨0x42820000⟩, .write 1 .nan, .read 3]
    let s := after (CellStore.zeros 2) [.write 1 .nan, .write 2 .one, .write 0 .one, .read 1]
    d.cursor ≤ 1 ∧ (Device.read s 1).1 = some .nan ∧
      (Device.write (Peripheral.display d) 0 .one).1 = false ∧
      (Device.write (Peripheral.display d) 0 .one).2 = .display d := by
  intro d s
  obtain ⟨displays, -, stores, refused⟩ := accesses_keep
  obtain ⟨within, capacity⟩ := displays 1 [.write 0 ⟨0x42820000⟩, .write 1 .nan, .read 3]
  have answer := (stores (.zeros 2) [.write 1 .nan, .write 2 .one, .write 0 .one, .read 1] 1).2.1
  have full : (Device.write (Peripheral.display d) 0 .one).1 = false := by decide +kernel
  exact ⟨capacity ▸ within, answer, full, (refused (.display d) 0).2 .one full⟩

end Peripheral
end FloatMachine
