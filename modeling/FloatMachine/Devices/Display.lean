import FloatMachine.Machine.Bus
import FloatMachine.Text.Blank

/-! A character display. Register 0 writes a character at the cursor, 1 reads or moves the
cursor, a write to 2 clears the screen, and 3 reads the capacity. -/
namespace FloatMachine

structure Display where
  cells : Array Char
  cursor : Nat
deriving DecidableEq, Repr

namespace Display

def blank (capacity : Nat) : Display := ⟨Array.replicate capacity ' ', 0⟩

/-- The index a value stands for: a whole number up to the greatest of a 32-bit word, as far
as single precision tells it. -/
def index? (v : Binary32) : Option Nat :=
  if v.le (.ofNat 0xffffffff) then v.toNat? else none

def capacity (d : Display) : Nat := d.cells.size

/-- The contents without the blanks at their end. -/
def text (d : Display) : String := String.ofList (Text.trimEnd d.cells.toList)

def clear (d : Display) : Display := blank d.capacity

/-- The character with a code, of which 32 bits count. -/
def character? (code : Nat) : Option Char :=
  let n := code % 0x100000000
  if h : n.isValidChar then some (Char.ofNatAux n h) else none

def put (d : Display) (code : Binary32) : Bool × Display :=
  match (index? code).bind character? with
  | some c =>
    if h : d.cursor < d.cells.size then (true, ⟨d.cells.set d.cursor c h, d.cursor + 1⟩)
    else (false, d)
  | none => (false, d)

def moveCursor (d : Display) (v : Binary32) : Bool × Display :=
  match index? v with
  | some n => if n < d.capacity then (true, { d with cursor := n }) else (false, d)
  | none => (false, d)

instance : Device Display where
  read d register :=
    (if register = 1 then some (.ofNat d.cursor)
      else if register = 3 then some (.ofNat d.capacity)
      else none, d)
  write d register v :=
    if register = 0 then d.put v
    else if register = 1 then d.moveCursor v
    else if register = 2 then (true, d.clear)
    else (false, d)

end Display
end FloatMachine
