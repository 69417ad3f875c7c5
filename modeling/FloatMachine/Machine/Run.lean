import FloatMachine.Machine.Snapshot

/-! Runs: steps from the first instruction on until the program ends, halts or faults. A run
may go on forever, so it is given a number of steps and says whether it is still going. -/
namespace FloatMachine

inductive Status
  | running (place : Nat)
  | finished
  | failed (error : ExecutionError)
deriving DecidableEq, Repr

structure Execution (δ : Type) where
  machine : Machine δ
  status : Status

namespace Execution

variable {δ : Type}

/-- A machine set back to the start, refused when it falls short of what the program needs. -/
def start (m : Machine δ) (p : Program) : Execution δ :=
  match m.config.shortfall p.requirements with
  | [] => ⟨m.reset, .running 0⟩
  | missing => ⟨m.reset, .failed ⟨.requirementsNotMet, 0, "; ".intercalate missing⟩⟩

variable [Device δ]

def follow (place : Nat) : Flow → Status
  | .next => .running (place + 1)
  | .jump target => .running target
  | .halt => .finished

/-- One step, with the instruction when it succeeded. -/
def next (program : List Instruction) (x : Execution δ) : Option Instruction × Execution δ :=
  match x.status with
  | .finished | .failed _ => (none, x)
  | .running place =>
    match program[place]? with
    | none => (none, { x with status := .finished })
    | some i =>
      match Machine.step program i x.machine with
      | (.ok flow, m) => (some i, ⟨m, follow place flow⟩)
      | (.error f, m) => (none, ⟨m, .failed ⟨f, i.line, i.text⟩⟩)

/-- At most `fuel` steps, each shown to an observer once it has succeeded. -/
def watch {μ : Type → Type} [Monad μ] (observe : Snapshot → μ Unit)
    (program : List Instruction) : Nat → Execution δ → μ (Execution δ)
  | 0, x => pure x
  | fuel + 1, x =>
    match x.status with
    | .finished | .failed _ => pure x
    | .running _ =>
      match x.next program with
      | (some i, y) => do
        observe (.of i y.machine)
        watch observe program fuel y
      | (none, y) => watch observe program fuel y

def error? (x : Execution δ) : Option ExecutionError :=
  match x.status with
  | .failed e => some e
  | .running _ | .finished => none

/-- The machine after the run, which remembers the fault that ended it. -/
def result (x : Execution δ) : Machine δ := { x.machine with lastError := x.error? }

end Execution

def Machine.run {δ : Type} [Device δ] {μ : Type → Type} [Monad μ]
    (observe : Snapshot → μ Unit) (fuel : Nat) (p : Program) (m : Machine δ) :
    μ (Execution δ) :=
  (Execution.start m p).watch observe p.instructions fuel

end FloatMachine
