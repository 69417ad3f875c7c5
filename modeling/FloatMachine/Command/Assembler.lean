import FloatMachine.Command.Basic

/-! The command that turns an assembly source file into the text form of its program. -/
namespace FloatMachine.Command.Assembler

def usageText (program : String) : String :=
"Assembly Compiler

USAGE:
    " ++ program ++ " <input.asm> [OPTIONS]

ARGS:
    <input.asm>    Assembly source file to compile

OPTIONS:
    -o, --output <file>     Output file path (defaults to <input>.tcp)
    --listing               Log the decoded instructions with their source lines
    -h, --help              Print this help message

EXAMPLES:
    # Compile to default output name
    " ++ program ++ " program.asm

    # Compile with explicit output
    " ++ program ++ " program.asm -o output.tcp

    # Show what was assembled
    " ++ program ++ " program.asm --listing
"

structure Options where
  output : Option String := none
  listing : Bool := false

variable {m : Type → Type} [Host m]

/-- Options from left to right; the last output path counts. -/
def parseOptions (s : Log.Settings) (usageText : String) : Options → List String → Command m Options
  | o, [] => return o
  | o, "--listing" :: rest => parseOptions s usageText { o with listing := true } rest
  | o, arg :: rest =>
    if arg == "--output" || arg == "-o" then
      match rest with
      | [] => fail s s!"{arg} requires an argument"
      | path :: rest => parseOptions s usageText { o with output := some path } rest
    else unexpected s usageText arg

/-- Beside the input, with the stem of its name. -/
def defaultOutput (input : String) : String :=
  Path.join ((Path.parent? input).getD ".") ((Path.stem? input).getD "" ++ ".tcp")

def checkDirectory (s : Log.Settings) (output : String) : Command m Unit := do
  match Path.parent? output with
  | some directory =>
    if !directory.isEmpty && !(← ExceptT.lift (Host.exists? directory)) then
      fail s s!"Output directory does not exist: {directory}"
  | none => return

def assemble (s : Log.Settings) (input source : String) : Command m Program :=
  match Assembly.assemble source with
  | .ok p => return p
  | .error e => do
    ExceptT.lift (Host.err (e.diagnostic input))
    fail s s!"Assembly failed: {e.message}"

def report (s : Log.Settings) (input output : String) (p : Program) (encoded : Nat) :
    Command m Unit := do
  let r := p.requirements
  info s s!"Compiled {input} -> {output} ({p.instructions.length} instruction(s), {encoded} bytes encoded)"
  info s s!"Requirements: registers={r.registers.toNat} stack={r.stack.toNat} devices={r.devices.toNat}"
  info s s!"Digest: {Bytes.toHex p.digest}"

def listing (s : Log.Settings) (p : Program) : Command m Unit :=
  p.instructions.forM fun i =>
    info s (Text.alignRight 4 (toString i.line.toNat) ++ " | " ++ i.toText)

def compile (s : Log.Settings) (program input : String) (args : List String) :
    Command m Unit := do
  let options ← parseOptions s (usageText program) {} args
  if !(← ExceptT.lift (Host.exists? input)) then
    fail s s!"Input file does not exist: {input}"
  let output := options.output.getD (defaultOutput input)
  checkDirectory s output
  let p ← assemble s input (← readText s input)
  let text := p.toText
  need s (fun e => s!"Failed to write output file: {e.message}")
    (← ExceptT.lift (Host.write output (text ++ "\n").toUTF8.data.toList))
  report s input output p text.utf8ByteSize
  if options.listing then listing s p

def run (s : Log.Settings) (program : String) : List String → m Nat
  | [] => exitCode (usage s (usageText program) 1)
  | input :: args =>
    if input == "--help" || input == "-h" then exitCode (usage s (usageText program) 0)
    else exitCode (compile s program input args)

end FloatMachine.Command.Assembler
