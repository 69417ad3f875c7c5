import FloatMachine.Command.Runner
import FloatMachine.Proofs.Capacity

/-! What the runner does before a run: it reads the options and all files, sizes a machine and
plugs in its devices. Whether that succeeds or not, no file is changed. -/
namespace FloatMachine

namespace Sandbox

variable {α β : Type}

def Quiet (act : StateM Sandbox α) : Prop := ∀ b, (act b).2.files = b.files

theorem quiet_pure (a : α) : Quiet (pure a) := fun _ => rfl

theorem Quiet.bind {act : StateM Sandbox α} {next : α → StateM Sandbox β} (first : Quiet act)
    (rest : ∀ a, Quiet (next a)) : Quiet (act >>= next) :=
  fun b => (rest _ _).trans (first b)

theorem quiet_forM {act : α → StateM Sandbox Unit} (each : ∀ a, Quiet (act a)) (as : List α) :
    Quiet (as.forM act) := by
  induction as with
  | nil => exact quiet_pure ()
  | cons a as ih => exact (each a).bind fun _ => ih

theorem quiet_log (s : Log.Settings) (level : Log.Level) (message : String) :
    Quiet (Host.log s level message) := fun _ => rfl

theorem quiet_readText (path : String) : Quiet (Host.readText path) := by
  have read : Quiet (Host.read path) := fun _ => rfl
  refine read.bind fun r => ?_
  rcases r with e | bytes
  · exact quiet_pure _
  · dsimp only
    split <;> exact quiet_pure _

end Sandbox

namespace Command

open Sandbox

/-- The command leaves the files as they are, and what it returns from there is good. -/
abbrev Spares {α : Type} (t : FileTree) (act : Command (StateM Sandbox) α) (Good : α → Prop) :
    Prop :=
  Keeps (fun b : Sandbox => b.files = t) (fun _ => True) act Good

variable {t : FileTree} {α ε : Type} {Good : α → Prop} {s : Log.Settings}

theorem lift_spares {act : StateM Sandbox α} (quiet : Quiet act)
    (good : ∀ b : Sandbox, b.files = t → Good (act b).1) : Spares t (ExceptT.lift act) Good := by
  intro b same
  exact .ok ((quiet b).trans same) (good b same)

theorem silent_spares {act : StateM Sandbox α} (quiet : Quiet act) :
    Spares t (ExceptT.lift act) fun _ => True :=
  lift_spares quiet fun _ _ => trivial

theorem log_spares (level : Log.Level) (message : String) :
    Spares t (log s level message) fun _ => True :=
  silent_spares (quiet_log s level message)

theorem Spares.files {act : Command (StateM Sandbox) α} (held : Spares t act Good) {b : Sandbox}
    (same : b.files = t) : (act b).2.files = t := by
  have ended := held b same
  generalize act b = result at ended ⊢
  cases ended with
  | ok same _ => exact same
  | error same _ => exact same

theorem fail_spares (message : String) : Spares t (fail s message) Good :=
  Keeps.bind (log_spares _ _) fun _ _ => Keeps.throw trivial

theorem need_spares {describe : ε → String} {r : Except ε α} (good : ∀ v, r = .ok v → Good v) :
    Spares t (need s describe r) Good := by
  unfold need
  split
  · exact Keeps.pure (good _ rfl)
  · exact fail_spares _

theorem readText_spares (path : String) : Spares t (readText s path) fun _ => True :=
  Keeps.bind (silent_spares (quiet_readText path)) fun _ _ => need_spares fun _ _ => trivial

theorem usage_spares (text : String) (code : Nat) : Spares t (usage s text code) Good :=
  Keeps.bind (log_spares _ _) fun _ _ => Keeps.throw trivial

theorem unexpected_spares (text argument : String) :
    Spares t (unexpected s text argument) Good :=
  Keeps.bind (log_spares _ _) fun _ _ => usage_spares _ _

namespace Runner

structure Job where
  options : Options
  settings : Log.Settings
  program : Program
  config : Config
  machine : Machine Peripheral

section Parts

variable {m : Type → Type} [Host m]

def prepare (s : Log.Settings) (program path : String) (args : List String) : Command m Job := do
  let o ← parseOptions s (usageText program) {} args
  let s := if o.trace then { s with minimum := .debug } else s
  let p ← loadProgram s path o.encoded
  let config ← configure s o p
  info s (s!"Loaded {p.instructions.length} instruction(s); registers={config.registers} " ++
    s!"stack={config.stack} devices={config.devices}")
  let rom ← o.rom.mapM (loadRom s)
  let cells ← o.cells.mapM (loadCells s)
  let devices := plugged o rom cells
  let machine := Machine.new config (devices.map (·.2)).toArray
  let machine ← (devices.zipIdx).foldlM (fun machine ((slot, _), place) =>
    wire s slot place machine) machine
  return { options := o, settings := s, program := p, config, machine }

def finish (job : Job) (x : Execution Peripheral) : Command m Unit := do
  if let some screen := screen? x.machine.bus.devices then showScreen screen
  conclude job.settings x.status

def perform (fuel : Nat) (job : Job) : Command m Unit := do
  let x ← ExceptT.lift
    (job.machine.run (observe job.settings job.config job.options.trace) fuel job.program)
  if let (some path, some store) := (job.options.cells, cells? x.machine.bus.devices) then
    saveCells job.settings path store
  finish job x

theorem execute_eq [LawfulMonad m] (s : Log.Settings) (fuel : Nat) (program path : String)
    (args : List String) : (execute s fuel program path args : Command m Unit) =
      prepare s program path args >>= perform fuel := by
  simp only [prepare, bind_assoc, pure_bind]
  rfl

end Parts

variable {program : String} {o : Options} {p : Program}

theorem number_spares (option : String) (bound : Nat) (set : Nat → Options) (value : String) :
    Spares t (number s option bound set value) fun _ => True := by
  unfold number
  split
  · exact Keeps.pure trivial
  · exact fail_spares _

theorem setter_spares {option : String} {set : String → Command (StateM Sandbox) Options}
    (known : setter? s o option = some set) (value : String) :
    Spares t (set value) fun _ => True := by
  unfold setter? at known
  split at known <;> cases known
  all_goals first
    | exact number_spares _ _ _ _
    | exact Keeps.pure trivial

theorem parseOptions_spares (text : String) (args : List String) :
    Spares t (parseOptions s text o args) fun _ => True := by
  fun_induction parseOptions s text o args (m := StateM Sandbox) with
  | case1 => exact Keeps.pure trivial
  | case2 _ _ _ _ ih => exact ih
  | case3 _ _ _ _ _ ih => exact ih
  | case4 => exact unexpected_spares _ _
  | case5 => exact fail_spares _
  | case6 _ _ _ _ _ _ _ known ih => exact Keeps.bind (setter_spares known _) fun o _ => ih o

/-- A program as a file can hold it. -/
def Loaded (p : Program) : Prop :=
  (∃ source, Assembly.assemble source = .ok p) ∨ ∃ input, Program.fromBytes input = .ok p

theorem loadProgram_spares (path : String) (encoded : Bool) :
    Spares t (loadProgram s path encoded) Loaded := by
  refine Keeps.bind (readText_spares path) fun source _ => ?_
  split
  · refine need_spares fun p loaded => Or.inr ?_
    unfold Program.fromText at loaded
    dsimp only at loaded
    split at loaded
    · exact ⟨_, loaded⟩
    · cases loaded
  · split
    · rename_i p assembled
      exact Keeps.pure (Or.inl ⟨source, assembled⟩)
    · exact Keeps.bind (silent_spares fun _ => rfl) fun _ _ => Keeps.throw trivial

theorem capacity_spares (option : String) (asked : Option Nat) {limit fitted : Nat}
    (within : fitted ≤ limit) :
    Spares t (capacity s option asked limit fitted) (· ≤ limit) := by
  unfold capacity
  split
  · exact Keeps.pure within
  · split
    · exact fail_spares _
    · rename_i fits
      exact Keeps.pure (Nat.not_lt.1 fits)

/-- The capacities are at most the greatest there are. -/
structure Capped (c : Config) : Prop where
  registers : c.registers ≤ Config.maxRegisters
  stack : c.stack ≤ Config.maxStack
  devices : c.devices ≤ Config.maxDevices

theorem Loaded.requirements (loaded : Loaded p) :
    p.requirements = Requirements.of p.instructions := by
  rcases loaded with ⟨source, assembled⟩ | ⟨input, image⟩
  · obtain ⟨found, -, rfl⟩ := Assembly.assemble_ok.1 assembled
    rfl
  · exact (Program.fromBytes_ok.1 image).2.requirements

theorem fitting_capped (loaded : Loaded p) : Capped (Config.fitting p) := by
  have devices : p.requirements.devices.toNat ≤ Config.maxDevices := by
    rw [loaded.requirements, Requirements.of_devices]
    exact (Requirements.counted p.instructions).devices
  constructor
  · exact Nat.max_le.2 ⟨by decide, Nat.min_le_right _ _⟩
  · exact Nat.max_le.2 ⟨by decide, Nat.min_le_right _ _⟩
  · exact Nat.max_le.2 ⟨by decide, devices⟩

theorem configure_spares (loaded : Loaded p) : Spares t (configure s o p) Capped := by
  have fitting := fitting_capped loaded
  exact Keeps.bind (capacity_spares _ _ fitting.registers) fun _ registers =>
    Keeps.bind (capacity_spares _ _ fitting.stack) fun _ stack =>
    Keeps.bind (capacity_spares _ _ fitting.devices) fun _ devices =>
    Keeps.pure ⟨registers, stack, devices⟩

theorem loadRom_spares (path : String) : Spares t (loadRom s path) fun _ => True :=
  Keeps.bind (readText_spares path) fun _ _ => need_spares fun _ _ => trivial

/-- The store kept at a path of these files: zeros as long as nothing is there. -/
def Kept (t : FileTree) (path : String) (store : CellStore) : Prop :=
  if t.exists? path then ∃ bytes, t.read path = .ok bytes ∧ CellStore.fromBytes bytes = .ok store
  else store = CellStore.zeros defaultCells

theorem loadCells_spares (path : String) : Spares t (loadCells s path) (Kept t path) := by
  have asked : Spares t (ExceptT.lift (Host.exists? path)) fun found => found = t.exists? path :=
    lift_spares (fun _ => rfl) fun b same => congrArg (fun t => t.exists? path) same
  have read : Spares t (ExceptT.lift (Host.read path)) fun found => found = t.read path :=
    lift_spares (fun _ => rfl) fun b same => congrArg (fun t => t.read path) same
  refine Keeps.bind asked fun found same => ?_
  unfold Kept
  rw [← same]
  cases found with
  | true =>
    refine Keeps.bind read fun bytes same => ?_
    refine Keeps.bind (need_spares fun v ok => same ▸ ok) fun bytes held => ?_
    exact need_spares fun store loaded => ⟨bytes, held, loaded⟩
  | false => exact Keeps.bind (log_spares _ _) fun _ _ => Keeps.pure rfl

/-- A machine of these capacities among the devices of its host, as `wire` leaves it. -/
structure Equipped (c : Config) (devices : Array Peripheral) (machine : Machine Peripheral) :
    Prop where
  built : machine.Built
  sized : Machine.Sized c machine
  devices : machine.bus.devices = devices

theorem new_equipped (c : Config) (devices : Array Peripheral) :
    Equipped c devices (Machine.new c devices) where
  built := .new c devices
  sized := ⟨rfl, by simp [Machine.new], by simp [Machine.new, Stack.empty],
    by simp [Machine.new, Bus.empty]⟩
  devices := rfl

theorem attach_equipped {c : Config} {devices : Array Peripheral} {machine : Machine Peripheral}
    (equipped : Equipped c devices machine) (slot device : Nat) :
    Equipped c devices (machine.attach slot device).2 where
  built := equipped.built.attach slot device
  sized := Machine.plug_sized equipped.sized slot (some device)
  devices := by
    rw [← equipped.devices]
    exact Bus.plug_devices machine.bus slot (some device)

theorem wire_spares {c : Config} {devices : Array Peripheral} {machine : Machine Peripheral}
    (equipped : Equipped c devices machine) (slot device : Nat) :
    Spares t (wire s slot device machine) (Equipped c devices) := by
  have after := attach_equipped equipped slot device
  unfold wire
  dsimp only
  split
  · exact Keeps.bind (log_spares _ _) fun _ _ => Keeps.pure after
  · exact Keeps.pure after

/-- What is known of a run that only has to be performed: its program, machine and cell store
are those that the options and the files give. -/
structure Prepared (t : FileTree) (job : Job) : Prop where
  loaded : Loaded job.program
  capped : Capped job.config
  equipped : ∃ rom cells, Option.Rel (Kept t) job.options.cells cells ∧
    Equipped job.config ((plugged job.options rom cells).map (·.2)).toArray job.machine

theorem prepare_spares (program path : String) (args : List String) :
    Spares t (prepare s program path args) (Prepared t) := by
  refine Keeps.bind (parseOptions_spares _ _) fun o _ => ?_
  refine Keeps.bind (loadProgram_spares _ _) fun p loaded => ?_
  refine Keeps.bind (configure_spares loaded) fun c capped => ?_
  refine Keeps.bind (log_spares _ _) fun _ _ => ?_
  refine Keeps.bind (Keeps.option (fun path => loadRom_spares path) _) fun rom _ => ?_
  refine Keeps.bind (Keeps.option (fun path => loadCells_spares path) _) fun cells kept => ?_
  have start := new_equipped c ((plugged o rom cells).map (·.2)).toArray
  refine Keeps.bind (Keeps.foldlM ?_ start _) fun machine equipped => ?_
  · intro machine ((slot, _), place) equipped
    exact wire_spares equipped slot place
  · exact Keeps.pure ⟨loaded, capped, rom, cells, kept, equipped⟩

theorem prepared_of_prepare {path : String} {args : List String} {before after : Sandbox}
    {job : Job}
    (ready : prepare (m := StateM Sandbox) s program path args before = (.ok job, after)) :
    after.files = before.files ∧ Prepared before.files job :=
  (prepare_spares program path args).ok rfl ready

theorem Prepared.sized {job : Job} (prepared : Prepared t job) :
    Machine.Sized job.config job.machine := by
  obtain ⟨_, _, -, equipped⟩ := prepared.equipped
  exact equipped.sized

theorem prepare_files (program path : String) (args : List String) (b : Sandbox) :
    (prepare (m := StateM Sandbox) s program path args b).2.files = b.files :=
  Spares.files (prepare_spares program path args) rfl

end Runner
end Command
end FloatMachine
