import FloatMachine.Devices.CellStore
import FloatMachine.Devices.Display
import FloatMachine.Devices.LookupTable

/-! Any of the devices, and one with registers that refuse. -/
namespace FloatMachine

inductive Peripheral
  | display (device : Display)
  | table (device : LookupTable)
  | cells (device : CellStore)

namespace Peripheral

instance : Device Peripheral where
  read
    | .display d, r => let (v, d) := Device.read d r; (v, .display d)
    | .table d, r => let (v, d) := Device.read d r; (v, .table d)
    | .cells d, r => let (v, d) := Device.read d r; (v, .cells d)
  write
    | .display d, r, v => let (ok, d) := Device.write d r v; (ok, .display d)
    | .table d, r, v => let (ok, d) := Device.write d r v; (ok, .table d)
    | .cells d, r, v => let (ok, d) := Device.write d r v; (ok, .cells d)

end Peripheral

/-- A device of which one register cannot be read, or one cannot be written. -/
structure Guarded (δ : Type) where
  device : δ
  unreadable : Option UInt16 := none
  unwritable : Option UInt16 := none

namespace Guarded

instance {δ : Type} [Device δ] : Device (Guarded δ) where
  read g r :=
    if g.unreadable = some r then (none, g)
    else
      let (v, device) := Device.read g.device r
      (v, { g with device })
  write g r v :=
    if g.unwritable = some r then (false, g)
    else
      let (ok, device) := Device.write g.device r v
      (ok, { g with device })

end Guarded
end FloatMachine
