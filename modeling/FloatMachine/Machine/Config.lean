import FloatMachine.Program.Image

/-! The capacities of a machine, and the least ones that a program fits. -/
namespace FloatMachine

/-- `frequency` paces a run in instructions per second and never changes its result. -/
structure Config where
  registers : Nat := 16
  stack : Nat := 16
  devices : Nat := 4
  frequency : Option UInt32 := none
deriving DecidableEq, Repr

namespace Config

def maxRegisters : Nat := 0x10000
def maxStack : Nat := 0x10000

/-- As many slots as a device address can name. -/
def maxDevices : Nat := 0x10000

/-- The default capacities, grown where the program needs more, up to the greatest register
file and stack. -/
def fitting (p : Program) : Config :=
  let base : Config := {}
  { registers := max base.registers (min p.requirements.registers.toNat maxRegisters)
    stack := max base.stack (min p.requirements.stack.toNat maxStack)
    devices := max base.devices p.requirements.devices.toNat
    frequency := none }

def lack (what : String) (needed available : Nat) : List String :=
  if available < needed then [s!"program needs {needed} {what}, machine has {available}"] else []

/-- A description of every capacity that falls short. -/
def shortfall (c : Config) (r : Requirements) : List String :=
  lack "register(s)" r.registers.toNat c.registers ++
  lack "stack cell(s)" r.stack.toNat c.stack ++
  lack "device slot(s)" r.devices.toNat c.devices

/-- The pause after each step, in milliseconds. -/
def pause? (c : Config) : Option Nat :=
  match c.frequency with
  | some hertz => if hertz = 0 then none else some (1000 / hertz.toNat)
  | none => none

end Config
end FloatMachine
