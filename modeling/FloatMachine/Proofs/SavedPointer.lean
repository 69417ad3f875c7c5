import FloatMachine.Proofs.Preparation
import FloatMachine.Proofs.StackPointer

/-! The stack pointer as a value of the program. On the machines of the runner it is read exactly,
and a program that has saved it gets it back. -/
namespace FloatMachine

namespace Binary32

theorem ofNat_le {n k : Nat} (le : n ≤ k) (small : k ≤ 0x1000000) :
    (ofNat n).le (ofNat k) = true := by
  obtain ⟨finite, units⟩ := ofNat_exact (Nat.le_trans le small)
  obtain ⟨finite', units'⟩ := ofNat_exact small
  have numbers : (ofNat n).isNaN = false ∧ (ofNat k).isNaN = false := by
    simp only [isNaN, decide_eq_false_iff_not]
    omega
  simp only [Binary32.le, numbers, signedUnits_of_positive (negative_ofNat _), units, units',
    Bool.not_false, Bool.true_and, decide_eq_true_eq, Int.ofNat_le]
  exact Nat.mul_le_mul_right _ le

theorem toNat?_small {n : Nat} (small : n ≤ 0x1000000) : (ofNat n).toNat? = some n := by
  rw [toNat?_ofNat (by omega), whole_ofNat small]

end Binary32

namespace Stack

/-- The pointer of a stack that is not too high for single precision. -/
structure Exact (cells : Nat) (s : Stack) : Prop extends Fits cells s where
  small : cells ≤ 0x1000000

variable {cells : Nat} {s : Stack}

theorem Exact.within (exact : s.Exact cells) : s.pointer ≤ cells := by
  have bound := exact.pointer
  rwa [reach_of_small exact.small, Nat.max_self] at bound

theorem Exact.read (exact : s.Exact cells) : (Binary32.ofNat s.pointer).toNat? = some s.pointer :=
  Binary32.toNat?_small (Nat.le_trans exact.within exact.small)

theorem setPointer_ok {v : Binary32} {n : Nat} (value : v.toNat? = some n)
    (le : v.le (.ofNat s.cells.size) = true) :
    setPointer v s = (.ok (), { s with pointer := saturated n }) := by
  simp only [setPointer, value, le, if_true]

theorem Exact.setPointer {t : Stack} (exact : s.Exact cells) (other : t.Exact cells) :
    setPointer (.ofNat s.pointer) t = (.ok (), { t with pointer := s.pointer }) := by
  have within := exact.within
  have small := exact.small
  have word : saturated s.pointer = s.pointer := Nat.min_eq_left (by omega)
  rw [setPointer_ok exact.read (other.size ▸ Binary32.ofNat_le within small), word]

end Stack

namespace Instruction

end Instruction

namespace Config

end Config

namespace Machine

variable {δ : Type} [Device δ] {i : Instruction} {d : Destination}
  {o : Operand} {v : Binary32} {m n : Machine δ}

end Machine

namespace Command.Runner

open Machine

end Command.Runner
end FloatMachine
