import FloatMachine.Binary32.Basic
import FloatMachine.Machine.Fault

/-! The operand stack. The pointer is the place of the next push: 0 on an empty stack, the
number of cells on a full one. -/
namespace FloatMachine

structure Stack where
  cells : Array Binary32
  pointer : Nat
deriving DecidableEq, Repr

namespace Stack

def empty (capacity : Nat) : Stack := ⟨Array.replicate capacity .zero, 0⟩

def reset (s : Stack) : Stack := empty s.cells.size

/-- A fault leaves the stack as it was. -/
abbrev Action (α : Type) := ExceptT Fault (StateM Stack) α

def push (v : Binary32) : Action Unit := fun s =>
  if h : s.pointer < s.cells.size then (.ok (), ⟨s.cells.set s.pointer v h, s.pointer + 1⟩)
  else (.error .stackOverflow, s)

def top? (s : Stack) : Option Binary32 :=
  if s.pointer = 0 then none else s.cells[s.pointer - 1]?

def peek : Action Binary32 := fun s =>
  match s.top? with
  | some v => (.ok v, s)
  | none => (.error .stackOverflow, s)

def pop : Action Binary32 := fun s =>
  match s.top? with
  | some v => (.ok v, { s with pointer := s.pointer - 1 })
  | none => (.error .stackOverflow, s)

/-- The greatest number that a word of 64 bits holds stands for all beyond it. -/
def saturated (n : Nat) : Nat := min n 0xffffffffffffffff

/-- The value must be a whole number from 0 to the capacity, as far as single precision tells
the capacity. -/
def setPointer (v : Binary32) : Action Unit := fun s =>
  match v.toNat? with
  | some n =>
    if v.le (.ofNat s.cells.size) then (.ok (), { s with pointer := saturated n })
    else (.error .stackOverflow, s)
  | none => (.error .stackOverflow, s)

/-- The cells in use, bottom first. -/
def live (s : Stack) : List Binary32 := s.cells.toList.take s.pointer

end Stack
end FloatMachine
