import FloatMachine.Command.Basic
import FloatMachine.Devices.Peripheral
import FloatMachine.Machine.Run

/-! The command that runs a program on a machine with a display in slot 0 and, if asked for,
a lookup table in slot 1 and a cell store kept in a file in slot 2. -/
namespace FloatMachine.Command.Runner

def usageText (program : String) : String :=
"tinycpu runner

USAGE:
    " ++ program ++ " <program> [OPTIONS]

ARGS:
    <program>    Assembly source file (or encoded program with --encoded)

OPTIONS:
    --encoded             Read the program as encoded text produced by `assembler`
    --registers <n>       Register count (defaults to the program's needs, at least 16)
    --stack <n>           Stack depth (defaults to the program's needs, at least 16)
    --devices <n>         Device slot count (defaults to the program's needs, at least 4)
    --frequency <hz>      Instructions per second (unpaced by default)
    --trace               Log every executed step
    --rom <file>          Lookup memory contents for slot 1
    --cells <file>        Persistent cell store for slot 2 (created if missing)
    --display <n>         Display width for slot 0 (default 80)
    -h, --help            Print this help message

EXAMPLES:
    " ++ program ++ " hello.asm
    " ++ program ++ " hello.tcp --encoded --trace
    " ++ program ++ " table.asm --rom squares.txt --cells state.bin
"

structure Options where
  encoded : Bool := false
  registers : Option Nat := none
  stack : Option Nat := none
  devices : Option Nat := none
  frequency : Option UInt32 := none
  trace : Bool := false
  rom : Option String := none
  cells : Option String := none
  display : Nat := 80

def defaultCells : Nat := 256

/-- Numbers are those of a 64-bit word. -/
def wordBound : Nat := 0x10000000000000000

variable {m : Type → Type} [Host m]

def number (s : Log.Settings) (option : String) (bound : Nat) (set : Nat → Options)
    (value : String) : Command m Options :=
  match Text.number? bound value.toList with
  | some n => return set n
  | none => fail s s!"Invalid value for {option}: '{value}' is not a valid number"

def setter? (s : Log.Settings) (o : Options) (option : String) :
    Option (String → Command m Options) :=
  match option with
  | "--registers" => some (number s option wordBound fun n => { o with registers := some n })
  | "--stack" => some (number s option wordBound fun n => { o with stack := some n })
  | "--devices" => some (number s option wordBound fun n => { o with devices := some n })
  | "--frequency" =>
    some (number s option 0x100000000 fun n => { o with frequency := some (UInt32.ofNat n) })
  | "--display" => some (number s option wordBound fun n => { o with display := n })
  | "--rom" => some fun path => return { o with rom := some path }
  | "--cells" => some fun path => return { o with cells := some path }
  | _ => none

/-- Options from left to right; the last of several counts. -/
def parseOptions (s : Log.Settings) (usageText : String) : Options → List String → Command m Options
  | o, [] => return o
  | o, option :: rest =>
    if option == "--encoded" then parseOptions s usageText { o with encoded := true } rest
    else if option == "--trace" then parseOptions s usageText { o with trace := true } rest
    else
      match setter? s o option, rest with
      | none, _ => unexpected s usageText option
      | some _, [] => fail s s!"{option} requires an argument"
      | some set, value :: rest => do parseOptions s usageText (← set value) rest

def loadProgram (s : Log.Settings) (path : String) (encoded : Bool) : Command m Program := do
  let source ← readText s path
  if encoded then need s (fun e => s!"{path}: {e.message}") (Program.fromText source)
  else
    match Assembly.assemble source with
    | .ok p => return p
    | .error e =>
      ExceptT.lift (Host.err (e.diagnostic path))
      throw 1

def capacity (s : Log.Settings) (option : String) (asked : Option Nat) (limit fitted : Nat) :
    Command m Nat :=
  match asked with
  | none => return fitted
  | some n =>
    if limit < n then fail s s!"Invalid value for {option}: {n} exceeds the limit of {limit}"
    else return n

def configure (s : Log.Settings) (o : Options) (p : Program) : Command m Config := do
  let fitted := Config.fitting p
  let registers ← capacity s "--registers" o.registers Config.maxRegisters fitted.registers
  let stack ← capacity s "--stack" o.stack Config.maxStack fitted.stack
  let devices ← capacity s "--devices" o.devices Config.maxDevices fitted.devices
  return { registers, stack, devices, frequency := o.frequency }

def loadRom (s : Log.Settings) (path : String) : Command m LookupTable := do
  let text ← readText s path
  need s (fun e => s!"{path}: {e.message}") (LookupTable.parse text)

/-- A store that is not there yet begins with zeros. -/
def loadCells (s : Log.Settings) (path : String) : Command m CellStore := do
  if ← ExceptT.lift (Host.exists? path) then
    let bytes ← need s (fun e => s!"{path}: {e.message}") (← ExceptT.lift (Host.read path))
    need s CellStore.Error.message (CellStore.fromBytes bytes)
  else
    info s s!"Creating cell store {path} ({defaultCells} cells)"
    return CellStore.zeros defaultCells

def wire (s : Log.Settings) (slot device : Nat) (machine : Machine Peripheral) :
    Command m (Machine Peripheral) := do
  let (done, machine) := machine.attach slot device
  if !done then log s .warn s!"No slot {slot} on this machine; device left unplugged"
  return machine

/-- The devices of a run: a display, then the table and the cells if there are any, each with
its slot. -/
def plugged (o : Options) (rom : Option LookupTable) (cells : Option CellStore) :
    List (Nat × Peripheral) :=
  (0, .display (.blank o.display)) ::
    (rom.toList.map fun t => (1, .table t)) ++ (cells.toList.map fun c => (2, .cells c))

def observe (s : Log.Settings) (c : Config) (trace : Bool) (snapshot : Snapshot) : m Unit := do
  if trace then Host.log s .debug snapshot.toText
  match c.pause? with
  | some millis => Host.pause millis
  | none => return

def cells? (devices : Array Peripheral) : Option CellStore :=
  devices.toList.findSome? fun
    | .cells c => some c
    | .display _ | .table _ => none

def screen? (devices : Array Peripheral) : Option Display :=
  devices.toList.findSome? fun
    | .display d => some d
    | .cells _ | .table _ => none

def saveCells (s : Log.Settings) (path : String) (store : CellStore) : Command m Unit := do
  match ← ExceptT.lift (Host.write path store.toBytes) with
  | .ok () => return
  | .error e => log s .error s!"Failed to save cells: {path}: {e.message}"

def showScreen (screen : Display) : Command m Unit := do
  if !screen.text.isEmpty then ExceptT.lift (Host.out (screen.text ++ "\n"))

/-- A run cut short says nothing. -/
def conclude (s : Log.Settings) : Status → Command m Unit
  | .failed e => do
    log s .error s!"Fault: {e.fault.message} at line {e.line.toNat}"
    if !e.text.isEmpty then log s .error s!"    {e.text}"
    throw 1
  | .finished => info s "Program finished"
  | .running _ => return

/-- Runs a program for at most `fuel` steps. -/
def execute (s : Log.Settings) (fuel : Nat) (program path : String) (args : List String) :
    Command m Unit := do
  let o ← parseOptions s (usageText program) {} args
  let s := if o.trace then { s with minimum := .debug } else s
  let p ← loadProgram s path o.encoded
  let config ← configure s o p
  info s (s!"Loaded {p.instructions.length} instruction(s); registers={config.registers} " ++
    s!"stack={config.stack} devices={config.devices}")
  let rom ← o.rom.mapM (loadRom s)
  let cells ← o.cells.mapM (loadCells s)
  let devices := plugged o rom cells
  let machine := Machine.new config (devices.map (·.2)).toArray
  let machine ← (devices.zipIdx).foldlM (fun machine ((slot, _), place) =>
    wire s slot place machine) machine
  let x ← ExceptT.lift (machine.run (observe s config o.trace) fuel p)
  let devices := x.machine.bus.devices
  if let (some path, some store) := (o.cells, cells? devices) then saveCells s path store
  if let some screen := screen? devices then showScreen screen
  conclude s x.status

def run (s : Log.Settings) (fuel : Nat) (program : String) : List String → m Nat
  | [] => exitCode (usage s (usageText program) 1)
  | path :: args =>
    if path == "--help" || path == "-h" then exitCode (usage s (usageText program) 0)
    else exitCode (execute s fuel program path args)

end FloatMachine.Command.Runner
