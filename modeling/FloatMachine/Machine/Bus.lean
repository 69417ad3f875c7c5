import FloatMachine.Machine.Fault
import FloatMachine.Program.Operand

/-! The slots of a machine and the devices plugged into them. A slot names a device by its
place among all devices of the host, so that one device may sit in several slots and keeps
its contents when it is unplugged. -/
namespace FloatMachine

/-- What a device answers and becomes: a register that cannot be read has no value, and a
refused write is answered by `false`. -/
class Device (δ : Type) where
  read : δ → UInt16 → Option Binary32 × δ
  write : δ → UInt16 → Binary32 → Bool × δ

inductive Access
  | read (address : DeviceAddress) (value : Option Binary32)
  | write (address : DeviceAddress) (value : Binary32) (accepted : Bool)
deriving DecidableEq, Repr

/-- The accesses are those since the run began, first one first. -/
structure Bus (δ : Type) where
  slots : Array (Option Nat)
  devices : Array δ
  accesses : Array Access

namespace Bus

def empty {δ : Type} (slots : Nat) (devices : Array δ) : Bus δ :=
  ⟨Array.replicate slots none, devices, #[]⟩

/-- Plugs a device into a slot, or empties the slot; `false` when there is no such slot. -/
def plug {δ : Type} (b : Bus δ) (slot : Nat) (device : Option Nat) : Bool × Bus δ :=
  if h : slot < b.slots.size then (true, { b with slots := b.slots.set slot device h })
  else (false, b)

abbrev Action (δ α : Type) := ExceptT Fault (StateM (Bus δ)) α

def locate {δ : Type} (b : Bus δ) (slot : UInt16) : Except Fault (Nat × δ) :=
  match b.slots[slot.toNat]? with
  | none => .error .deviceOverflow
  | some none => .error .deviceUnplugged
  | some (some place) =>
    match b.devices[place]? with
    | none => .error .deviceUnplugged
    | some d => .ok (place, d)

def replace {δ : Type} (b : Bus δ) (place : Nat) (d : δ) (access : Access) : Bus δ :=
  { b with devices := b.devices.setIfInBounds place d, accesses := b.accesses.push access }

def read {δ : Type} [Device δ] (a : DeviceAddress) : Action δ Binary32 := fun b =>
  match b.locate a.slot with
  | .error f => (.error f, b)
  | .ok (place, d) =>
    let (value, d) := Device.read d a.register
    (match value with
      | some v => .ok v
      | none => .error .deviceFailed, b.replace place d (.read a value))

def write {δ : Type} [Device δ] (a : DeviceAddress) (v : Binary32) : Action δ Unit := fun b =>
  match b.locate a.slot with
  | .error f => (.error f, b)
  | .ok (place, d) =>
    let (accepted, d) := Device.write d a.register v
    (if accepted then .ok () else .error .deviceFailed, b.replace place d (.write a v accepted))

end Bus
end FloatMachine
