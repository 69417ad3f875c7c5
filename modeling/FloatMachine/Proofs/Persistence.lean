import FloatMachine.Proofs.Peripherals
import FloatMachine.Proofs.Files
import FloatMachine.Proofs.Preparation

/-! The cell store outlives the runs. A run makes of it what its accesses make of it, the runner
writes it back whatever the end of the run, and the next run reads the same cells. -/
namespace FloatMachine

namespace Peripheral

variable {Good : Binary32 → Prop}

def store? : Peripheral → Option CellStore
  | .cells c => some c
  | .display _ | .table _ => none

theorem store?_reaches {d e : Peripheral} (reached : Device.Reaches Good d e) :
    Option.Rel (Device.Reaches Good) d.store? e.store? := by
  cases d with
  | display d =>
    obtain ⟨f, rfl, -⟩ := includes_display.reaches reached
    exact .none
  | table d =>
    obtain ⟨f, rfl, -⟩ := includes_table.reaches reached
    exact .none
  | cells d =>
    obtain ⟨f, rfl, below⟩ := includes_cells.reaches reached
    exact .some below

theorem findSome?_reaches {ds es : List Peripheral}
    (reached : ∀ i : Nat, Option.Rel (Device.Reaches Good) ds[i]? es[i]?) :
    Option.Rel (Device.Reaches Good) (ds.findSome? store?) (es.findSome? store?) := by
  induction ds generalizing es with
  | nil =>
    have first := reached 0
    cases es with
    | nil => exact .none
    | cons => cases first
  | cons d ds ih =>
    have first := reached 0
    cases es with
    | nil => cases first
    | cons e es =>
      cases first with
      | some head =>
        have stores := store?_reaches head
        rw [List.findSome?_cons, List.findSome?_cons]
        generalize d.store? = s at stores ⊢
        generalize e.store? = u at stores ⊢
        cases stores with
        | none => exact ih fun i => reached (i + 1)
        | some below => exact .some below

end Peripheral

namespace Command.Runner

open Sandbox

theorem cells?_eq (devices : Array Peripheral) :
    cells? devices = devices.toList.findSome? Peripheral.store? := rfl

theorem outcome_cells (m : Machine Peripheral) (p : Program) (fuel : Nat) :
    Option.Rel (Device.Reaches fun _ => True) (cells? m.bus.devices)
      (cells? (m.outcome fuel p).machine.bus.devices) := by
  have holds : Machine.Holds (fun _ => True) m.bus (m.outcome fuel p).machine :=
    Machine.outcome_holds (fun _ _ => trivial) (fun _ _ _ _ => trivial)
      (fun _ _ _ _ _ _ _ _ => trivial) fuel
  rw [cells?_eq, cells?_eq]
  refine Peripheral.findSome?_reaches fun i => ?_
  simpa using holds.bus.devices i

variable {t : FileTree} {s : Log.Settings} {job : Job}

/-- The cells that the machine has among its devices after at most that many steps of the run. -/
def Job.cells (job : Job) (fuel : Nat) : Option CellStore :=
  cells? (job.machine.outcome fuel job.program).machine.bus.devices

/-- What becomes of the files when a store is saved, if there are a path and a store. -/
def saved (t : FileTree) : Option String → Option CellStore → FileTree
  | some path, some store => (t.write path store.toBytes).toOption.getD t
  | some _, none | none, _ => t

theorem quiet_observe (s : Log.Settings) (c : Config) (trace : Bool) (snapshot : Snapshot) :
    Quiet (observe s c trace snapshot) := by
  unfold observe
  dsimp only
  split
  · refine (quiet_log s .debug _).bind fun _ => ?_
    split <;> exact fun _ => rfl
  · split <;> exact fun _ => rfl

theorem run_quiet (m : Machine Peripheral) (p : Program) (fuel : Nat)
    {observe : Snapshot → StateM Sandbox Unit} (quiet : ∀ snapshot, Quiet (observe snapshot))
    (b : Sandbox) : ∃ c, m.run observe fuel p b = (m.outcome fuel p, c) ∧ c.files = b.files := by
  rw [Machine.run_eq]
  exact ⟨_, rfl, quiet_forM quiet _ b⟩

theorem saveCells_files (path : String) (store : CellStore) (b : Sandbox) :
    ∃ c, saveCells (m := StateM Sandbox) s path store b = (.ok (), c) ∧
      c.files = saved b.files (some path) (some store) := by
  rw [saveCells, bind_eq, lift_eq]
  simp only [Host.write, saved]
  rcases b.files.write path store.toBytes with e | files
  · exact ⟨_, rfl, rfl⟩
  · exact ⟨_, rfl, rfl⟩

theorem showScreen_spares (screen : Display) : Spares t (showScreen screen) fun _ => True := by
  unfold showScreen
  split
  · exact silent_spares fun _ => rfl
  · exact Keeps.pure trivial

theorem conclude_spares (status : Status) : Spares t (conclude s status) fun _ => True := by
  have code : Spares t (throw 1) fun _ : Unit => True := Keeps.throw trivial
  cases status with
  | failed e =>
    refine Keeps.bind (log_spares _ _) fun _ _ => ?_
    dsimp only
    split
    · exact Keeps.bind (log_spares _ _) fun _ _ => code
    · exact code
  | finished => exact log_spares _ _
  | running place => exact Keeps.pure trivial

theorem finish_spares (job : Job) (x : Execution Peripheral) :
    Spares t (finish job x) fun _ => True := by
  unfold finish
  split
  · exact Keeps.bind (showScreen_spares _) fun _ _ => conclude_spares _
  · exact conclude_spares _

/-- The store is saved after the run, whatever its end, and no other file is written. -/
theorem perform_files (job : Job) (fuel : Nat) (b : Sandbox) :
    (perform (m := StateM Sandbox) fuel job b).2.files =
      saved b.files job.options.cells (job.cells fuel) := by
  obtain ⟨c, ran, same⟩ := run_quiet job.machine job.program fuel
    (quiet_observe job.settings job.config job.options.trace) b
  unfold perform
  rw [bind_eq, lift_eq, ran, Job.cells]
  dsimp only
  generalize job.machine.outcome fuel job.program = x
  rw [← same]
  rcases job.options.cells with _ | path
  · exact (finish_spares job x).files rfl
  · rcases cells? x.machine.bus.devices with _ | store
    · exact (finish_spares job x).files rfl
    · obtain ⟨d, written, files⟩ := saveCells_files (s := job.settings) path store c
      dsimp only
      rw [bind_eq, written]
      exact (finish_spares job x).files files

theorem Job.cells_zero (job : Job) : job.cells 0 = cells? job.machine.bus.devices := by
  unfold cells
  by_cases short : job.machine.config.FallsShort job.program.requirements
  · rw [Machine.outcome_refused short]
    rfl
  · rw [Machine.outcome_eq, Machine.start_accepted short]
    rfl

theorem cells?_plugged (o : Options) (rom : Option LookupTable) (cells : Option CellStore) :
    cells? ((plugged o rom cells).map (·.2)).toArray = cells := by
  rcases rom with _ | _ <;> rcases cells with _ | _ <;> rfl

theorem Prepared.kept (prepared : Prepared t job) :
    Option.Rel (Kept t) job.options.cells (job.cells 0) := by
  obtain ⟨rom, cells, kept, equipped⟩ := prepared.equipped
  rwa [Job.cells_zero, equipped.devices, cells?_plugged]

theorem Job.cells_reaches (job : Job) (fuel : Nat) :
    Option.Rel (Device.Reaches fun _ => True) (job.cells 0) (job.cells fuel) := by
  rw [Job.cells_zero]
  exact outcome_cells job.machine job.program fuel

variable {path : String} {place : List String} {store : CellStore}

theorem zeros_loadable : (CellStore.zeros defaultCells).Loadable := by
  rw [CellStore.Loadable, CellStore.zeros, Array.size_replicate]
  decide

theorem kept_named (named : t.Names path place) (kept : Kept t path store) :
    store.Loadable ∧ ((t.node? place = none ∧ store = .zeros defaultCells) ∨
      ∃ image, t.node? place = some (.file image) ∧ CellStore.fromBytes image = .ok store) := by
  unfold Kept at kept
  rw [named.exists?, named.read] at kept
  generalize t.node? place = held at kept ⊢
  rcases held with _ | n
  · rw [if_neg (by decide)] at kept
    subst kept
    exact ⟨zeros_loadable, Or.inl ⟨rfl, rfl⟩⟩
  · rw [Option.isSome_some, if_pos rfl] at kept
    obtain ⟨bytes, read, loaded⟩ := kept
    obtain ⟨-, small⟩ := CellStore.fromBytes_ok.1 loaded
    cases n with
    | file content =>
      cases read
      exact ⟨small, Or.inr ⟨_, rfl, loaded⟩⟩
    | directory => cases read
    | sink =>
      -- an empty file is no image
      cases read
      cases loaded

theorem saved_node (named : t.Names path place)
    (ordinary : ∀ n, t.node? place = some n → ∃ old, n = .file old) :
    (saved t (some path) (some store)).node? place = some (.file store.toBytes) := by
  have written := named.write store.toBytes ordinary
  simp only [saved, written]
  exact FileTree.node?_set t (.file store.toBytes) named.last.1

end Command.Runner

open Command Command.Runner Sandbox

/-- One call of the runner: its arguments, and the system as it finds it. -/
structure Visit where
  settings : Log.Settings
  fuel : Nat
  program : String
  arguments : List String
  before : Sandbox

namespace Visit

def after (v : Visit) : Sandbox :=
  (run (m := StateM Sandbox) v.settings v.fuel v.program v.arguments v.before).2

/-- The run, if the visit gets so far that it executes a program. -/
def job? (v : Visit) : Option Job :=
  match v.arguments with
  | [] => none
  | path :: args =>
    if path == "--help" || path == "-h" then none
    else (prepare (m := StateM Sandbox) v.settings v.program path args v.before).1.toOption

/-- The cells that a program is executed with, at its start and at its end. -/
def starts (v : Visit) : Option CellStore := v.job?.bind fun job => job.cells 0

def ends (v : Visit) : Option CellStore := v.job?.bind fun job => job.cells v.fuel

theorem exitCode_state (c : Command (StateM Sandbox) Unit) (b : Sandbox) :
    (exitCode c b).2 = (c b).2 := by
  simp only [exitCode, bind, StateT.bind, ExceptT.run]
  rcases c b with ⟨_ | _, d⟩ <;> rfl

theorem usage_files (v : Visit) (code : Nat) :
    (exitCode (usage (m := StateM Sandbox) v.settings (usageText v.program) code)
      v.before).2.files = v.before.files := by
  have shown : Spares v.before.files (usage v.settings (usageText v.program) code)
      fun _ : Unit => True := usage_spares _ _
  rw [exitCode_state]
  exact shown.files rfl

/-- A visit comes to its end before a program is executed and has changed no file, or it performs
the run that it has prepared from the files as it found them. -/
theorem idle_or_performs (v : Visit) :
    (v.job? = none ∧ v.after.files = v.before.files) ∨
    ∃ job b, v.job? = some job ∧ Prepared v.before.files job ∧ b.files = v.before.files ∧
      v.after = (perform (m := StateM Sandbox) v.fuel job b).2 := by
  unfold after job?
  rcases v.arguments with _ | ⟨path, args⟩
  · exact Or.inl ⟨rfl, v.usage_files 1⟩
  · rw [run]
    dsimp only
    split
    · exact Or.inl ⟨rfl, v.usage_files 0⟩
    · rw [exitCode_state, execute_eq, bind_eq]
      rcases ready : prepare (m := StateM Sandbox) v.settings v.program path args v.before with
        ⟨code | job, b⟩
      · have files := prepare_files (s := v.settings) v.program path args v.before
        rw [ready] at files
        exact Or.inl ⟨rfl, files⟩
      · obtain ⟨files, prepared⟩ := prepared_of_prepare ready
        exact Or.inr ⟨job, b, rfl, prepared, files, rfl⟩

theorem idle_files {v : Visit} (idle : v.job? = none) : v.after.files = v.before.files := by
  rcases v.idle_or_performs with ⟨-, same⟩ | ⟨job, _, executes, -⟩
  · exact same
  · rw [idle] at executes
    cases executes

/-- The visit uses the file at that place for its cells, if it executes a program at all. -/
def Uses (place : List String) (v : Visit) : Prop :=
  ∀ job, v.job? = some job →
    ∃ path, job.options.cells = some path ∧ v.before.files.Names path place

theorem uses_of_all {place : List String} {v : Visit} (path : String)
    (asked : (v.job?.all fun job => decide (job.options.cells = some path)) = true)
    (named : v.before.files.Names path place) : Uses place v := by
  intro job executes
  rw [executes] at asked
  exact ⟨path, of_decide_eq_true asked, named⟩

/-- What such a visit starts with and ends with, and what it leaves in the file. -/
theorem executed {place : List String} {v : Visit} {job : Job} (uses : Uses place v)
    (executes : v.job? = some job) :
    ∃ first last, v.starts = some first ∧ v.ends = some last ∧
      ((v.before.files.node? place = none ∧ first = .zeros defaultCells) ∨
        ∃ image, v.before.files.node? place = some (.file image) ∧
          CellStore.fromBytes image = .ok first) ∧
      ∃ image, v.after.files.node? place = some (.file image) ∧
        CellStore.fromBytes image = .ok last := by
  obtain ⟨path, asked, named⟩ := uses job executes
  rcases v.idle_or_performs with ⟨idle, -⟩ | ⟨_, b, same, prepared, files, performed⟩
  · rw [executes] at idle
    cases idle
  obtain rfl := Option.some.inj (executes.symm.trans same)
  have kept := prepared.kept
  have reached := job.cells_reaches v.fuel
  have left := perform_files job v.fuel b
  simp only [starts, ends, executes, Option.bind_some]
  rw [← performed, files, asked] at left
  rw [asked] at kept
  generalize job.cells 0 = start at kept reached ⊢
  generalize job.cells v.fuel = stop at left reached ⊢
  cases kept with
  | some kept =>
    cases reached with
    | some reached =>
      rename_i first last
      obtain ⟨small, held⟩ := kept_named named kept
      have fits : last.Loadable := by
        rwa [CellStore.Loadable, CellStore.reaches_size reached]
      -- a store was loaded from there or nothing was there, so a file can be written
      have ordinary : ∀ n, v.before.files.node? place = some n → ∃ old, n = .file old := by
        intro n found
        rcases held with ⟨nothing, -⟩ | ⟨image, file, -⟩
        · rw [nothing] at found
          cases found
        · exact ⟨image, Option.some.inj (found.symm.trans file)⟩
      refine ⟨first, last, rfl, rfl, held, last.toBytes, ?_, CellStore.fromBytes_ok.2 ⟨rfl, fits⟩⟩
      rw [left]
      exact saved_node named ordinary

/-- Nothing but the visits touches the file at that place. -/
def Undisturbed (place : List String) (u v : Visit) : Prop :=
  v.before.files.node? place = u.after.files.node? place

theorem idle_keeps {place : List String} {u v : Visit} {between later : List Visit}
    (undisturbed : List.IsChain (Undisturbed place) (u :: (between ++ v :: later)))
    (idle : ∀ w ∈ between, w.job? = none) :
    v.before.files.node? place = u.after.files.node? place := by
  induction between generalizing u with
  | nil => exact (List.isChain_cons_cons.1 undisturbed).1
  | cons w between ih =>
    obtain ⟨next, rest⟩ := List.isChain_cons_cons.1 undisturbed
    have same : w.after.files = w.before.files := idle_files (idle w List.mem_cons_self)
    rw [ih rest fun x member => idle x (List.mem_cons_of_mem _ member), same]
    exact next

/-- Over any visits that use one file for their cells, a visit that executes a program starts with
the cells at the end of the one before it that did, however that one ended, or with 256 zeros when
there is no file; a visit that executes nothing changes no file. -/
theorem cells_persist {place : List String} {visits : List Visit}
    (uses : ∀ v ∈ visits, Uses place v)
    (undisturbed : visits.IsChain (Undisturbed place)) :
    (∀ v ∈ visits, v.job? = none → v.after.files = v.before.files) ∧
    (∀ v ∈ visits, v.job?.isSome → v.starts.isSome ∧ v.ends.isSome ∧
      (v.before.files.node? place = none → v.starts = some (.zeros 256))) ∧
    ∀ earlier u between v later, visits = earlier ++ u :: (between ++ v :: later) →
      u.job?.isSome → (∀ w ∈ between, w.job? = none) → v.job?.isSome → v.starts = u.ends := by
  refine ⟨?_, ?_, ?_⟩
  · intro v _ idle
    exact idle_files idle
  · intro v member executes
    obtain ⟨job, executes⟩ := Option.isSome_iff_exists.1 executes
    obtain ⟨first, last, starts, ends, held, -⟩ := executed (uses v member) executes
    refine ⟨by rw [starts]; rfl, by rw [ends]; rfl, fun nothing => ?_⟩
    rcases held with ⟨-, zeros⟩ | ⟨image, file, -⟩
    · rw [starts, zeros]
      rfl
    · rw [nothing] at file
      cases file
  · rintro earlier u between v later rfl one idle two
    obtain ⟨j, one⟩ := Option.isSome_iff_exists.1 one
    obtain ⟨k, two⟩ := Option.isSome_iff_exists.1 two
    obtain ⟨-, last, -, ends, -, image, left, saves⟩ := executed (uses u (by simp)) one
    obtain ⟨first, -, starts, -, held, -⟩ := executed (uses v (by simp)) two
    have kept := idle_keeps (List.isChain_append.1 undisturbed).2.1 idle
    rw [kept, left] at held
    rcases held with ⟨nothing, -⟩ | ⟨_, same, loads⟩
    · cases nothing
    · cases same
      rw [starts, ends, Except.ok.inj (loads.symm.trans saves)]

/-- The first program counts in a cell and faults; the second call has a bad option. -/
theorem cells_persist_counter :
    let b : Sandbox :=
      { files := ⟨[], [(["p.asm"], .file "inc d2:0\npop r0\n".toUTF8.data.toList)]⟩
        clock := ⟨⟨1970, 1, 1⟩, 0, 0⟩ }
    let u : Visit := ⟨{}, 5, "tinycpu", ["p.asm", "--cells", "c.bin"], b⟩
    let w : Visit := ⟨{}, 5, "tinycpu", ["p.asm", "--cells", "c.bin", "--stack", "x"], u.after⟩
    let v : Visit := ⟨{}, 5, "tinycpu", ["p.asm", "--cells", "./c.bin"], w.after⟩
    u.starts = some (.zeros 256) ∧ w.after.files = w.before.files ∧ v.starts = u.ends ∧
      (u.ends.bind fun s => s.cells[0]?) = some .one := by
  intro b u w v
  have one : u.job?.isSome = true := by decide +kernel
  have idle : w.job?.isNone = true := by decide +kernel
  have two : v.job?.isSome = true := by decide +kernel
  have uses : ∀ x ∈ [u, w, v], Uses ["c.bin"] x := by
    intro x member
    rcases List.mem_cons.1 member with rfl | member
    · exact uses_of_all "c.bin" (by decide +kernel) (by unfold FileTree.Names; decide +kernel)
    rcases List.mem_cons.1 member with rfl | member
    · intro job executes
      rw [executes] at idle
      cases idle
    · obtain rfl := List.mem_singleton.1 member
      exact uses_of_all "./c.bin" (by decide +kernel) (by unfold FileTree.Names; decide +kernel)
  have undisturbed : [u, w, v].IsChain (Undisturbed ["c.bin"]) :=
    .cons_cons rfl (.cons_cons rfl (.singleton v))
  obtain ⟨quiet, ends, passes⟩ := cells_persist uses undisturbed
  have idle := Option.isNone_iff_eq_none.1 idle
  have starts := (ends u List.mem_cons_self one).2.2 (by decide +kernel)
  have passed := passes [] u [w] v [] rfl one (List.forall_mem_singleton.2 idle) two
  have kept := quiet w (List.mem_cons_of_mem u List.mem_cons_self) idle
  exact ⟨starts, kept, passed, by decide +kernel⟩

end Visit
end FloatMachine
