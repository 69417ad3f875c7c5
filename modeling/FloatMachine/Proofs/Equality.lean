import FloatMachine.Proofs.Numbers

/-! When numbers count as equal. Two numbers do when they are less than the tolerance apart, in
either order. A finite number is at no distance from itself; an infinity is at none that is a
number, so it is told apart from itself. -/
namespace FloatMachine

namespace Binary32

section Negation

variable (x y : Binary32)

theorem magnitude_small : x.magnitude < signBit := Nat.mod_lt _ (by decide)

theorem magnitude_neg : x.neg.magnitude = x.magnitude :=
  magnitude_ofMagnitude _ x.magnitude_small

theorem negative_neg : x.neg.negative = !x.negative :=
  negative_ofMagnitude _ x.magnitude_small

theorem isNaN_neg : x.neg.isNaN = x.isNaN := by rw [isNaN, magnitude_neg, isNaN]

theorem isInfinite_neg : x.neg.isInfinite = x.isInfinite := by
  rw [isInfinite, magnitude_neg, isInfinite]

theorem signedUnits_neg : x.neg.signedUnits = -x.signedUnits := by
  rw [signedUnits, negative_neg, magnitude_neg, signedUnits]
  cases x.negative <;> simp

theorem abs_ofMagnitude (negative : Bool) {m : Nat} (small : m < signBit) :
    (ofMagnitude negative m).abs = ofMagnitude false m := by
  rw [abs, magnitude_ofMagnitude negative small]

theorem abs_neg : x.neg.abs = x.abs := by rw [abs, magnitude_neg, abs]

end Negation

section Distance

variable {x y : Binary32}

theorem isInfinite_iff : x.isInfinite = true ↔ x.magnitude = infiniteMagnitude := beq_iff_eq

theorem isInfinite_of_number (number : x.IsNumber) : x.isInfinite = !x.isFinite := by
  rw [IsNumber, isNaN, decide_eq_false_iff_not] at number
  rw [Bool.eq_iff_iff, isInfinite_iff, isFinite, Bool.not_eq_true', decide_eq_false_iff_not]
  omega

theorem abs_of_infinite (infinite : x.isInfinite = true) :
    x.abs = ofMagnitude false infiniteMagnitude := by
  rw [abs, isInfinite_iff.1 infinite]

theorem sub_of_nan (none : (x.isNaN || y.isNaN) = true) : x.sub y = nan := by
  simp only [sub, add, isNaN_neg, none, if_true]

section Numbers

variable (left : x.isNaN = false) (right : y.isNaN = false)

include left right

theorem abs_sub_bounded (from_x : x.isInfinite = false) (from_y : y.isInfinite = false) :
    (x.sub y).abs =
      ofMagnitude false (nearest (2 * (x.signedUnits - y.signedUnits).natAbs) false) := by
  simp only [sub, add, isNaN_neg, isInfinite_neg, signedUnits_neg, left, right, from_x, from_y,
    Bool.or_self, Bool.false_eq_true, if_false, ← Int.sub_eq_add_neg]
  split
  · rename_i equal
    rw [equal, abs_ofMagnitude _ (by decide)]
    decide
  · rw [abs_ofMagnitude _ (nearest_small _ _)]

theorem sub_of_infinite_left (beyond : x.isInfinite = true) (from_y : y.isInfinite = false) :
    x.sub y = x := by
  simp only [sub, add, isNaN_neg, isInfinite_neg, left, right, beyond, from_y, Bool.or_self,
    Bool.false_and, Bool.false_eq_true, if_false, if_true]

theorem sub_of_infinite_right (from_x : x.isInfinite = false) (beyond : y.isInfinite = true) :
    x.sub y = y.neg := by
  simp only [sub, add, isNaN_neg, isInfinite_neg, left, right, from_x, beyond, Bool.or_self,
    Bool.false_eq_true, if_false, if_true]

theorem sub_of_infinities (from_x : x.isInfinite = true) (from_y : y.isInfinite = true) :
    x.sub y = if x.negative = y.negative then nan else x := by
  have signs : (x.negative != !y.negative) = (x.negative == y.negative) := by
    cases x.negative <;> cases y.negative <;> rfl
  simp only [sub, add, isNaN_neg, isInfinite_neg, negative_neg, left, right, from_x, from_y, signs,
    Bool.or_self, Bool.true_and, beq_iff_eq, Bool.false_eq_true, if_false, if_true]

end Numbers

theorem abs_sub_comm (x y : Binary32) : (x.sub y).abs = (y.sub x).abs := by
  by_cases none : (x.isNaN || y.isNaN) = true
  · rw [sub_of_nan none, sub_of_nan (Bool.or_comm _ _ ▸ none)]
  obtain ⟨left, right⟩ := Bool.or_eq_false_iff.1 (Bool.not_eq_true _ ▸ none)
  -- an infinity is infinitely far from every finite number, on whichever side it stands
  cases from_x : x.isInfinite <;> cases from_y : y.isInfinite
  · rw [abs_sub_bounded left right from_x from_y, abs_sub_bounded right left from_y from_x,
      ← Int.natAbs_neg, Int.neg_sub]
  · rw [sub_of_infinite_right left right from_x from_y, abs_neg,
      sub_of_infinite_left right left from_y from_x]
  · rw [sub_of_infinite_left left right from_x from_y,
      sub_of_infinite_right right left from_y from_x, abs_neg]
  · rw [sub_of_infinities left right from_x from_y, sub_of_infinities right left from_y from_x]
    by_cases same : x.negative = y.negative
    · rw [if_pos same, if_pos same.symm]
    · rw [if_neg same, if_neg (Ne.symm same), abs_of_infinite from_x, abs_of_infinite from_y]

end Distance

end Binary32

namespace Machine

open Binary32

theorem nearlyEqual_comm (a b : Binary32) : nearlyEqual a b = nearlyEqual b a := by
  rw [nearlyEqual, abs_sub_comm, nearlyEqual]

/-- Of all numbers just the finite ones count as equal to themselves. -/
theorem nearlyEqual_self {v : Binary32} (number : v.isNaN = false) :
    nearlyEqual v v = v.isFinite := by
  have kind : v.isInfinite = !v.isFinite := isInfinite_of_number number
  cases finite : v.isFinite with
  | true =>
    have bounded : v.isInfinite = false := by rw [kind, finite, Bool.not_true]
    rw [nearlyEqual, abs_sub_bounded number number bounded bounded, Int.sub_self]
    decide
  | false =>
    have beyond : v.isInfinite = true := by rw [kind, finite, Bool.not_false]
    rw [nearlyEqual, sub_of_infinities number number beyond beyond, if_pos rfl]
    -- what is left compares no number with the tolerance
    decide

variable {δ : Type}

/-- A register of the machine and the value in it. The stack pointer and the return address count as
registers. -/
inductive Register (m : Machine δ) : Destination → Binary32 → Prop
  | register {r : UInt32} {v : Binary32} : m.registers[r.toNat]? = some v →
      Register m (.register r) v
  | stackPointer : Register m .stackPointer (.ofNat m.stack.pointer)
  | returnAddress : Register m .returnAddress m.returnAddress

variable [Device δ]

def test? : Operation → Option (Binary32 → Binary32 → Bool)
  | .equal => some nearlyEqual
  | .notEqual => some fun a b => !nearlyEqual a b
  | .greater => some fun a b => b.lt a
  | .greaterOrEqual => some fun a b => b.le a
  | .lesser => some Binary32.lt
  | .lesserOrEqual => some Binary32.le
  | _ => none

def put (d : Destination) (v : Binary32) : Action δ Flow := do
  write d v
  return .next

section Comparisons

variable {m : Machine δ} {x y : Destination} {v w : Binary32} {a b : Operand}

theorem Register.read (register : m.Register x v) : read x.toOperand m = (.ok v, m) := by
  cases register with
  | register found => simp only [Machine.read, Destination.toOperand, readRegister, found]
  | stackPointer | returnAddress => rfl

theorem Register.number {b : Bus δ} (register : m.Register x v)
    (holds : Holds Binary32.IsNumber b m) : v.isNaN = false := by
  cases register with
  | register found => exact holds.registers v (Array.mem_of_getElem? found)
  | stackPointer => exact ofNat_isNaN _
  | returnAddress => exact holds.returnAddress

omit [Device δ] in
theorem new_bare (c : Config) (devices : Array δ) (slot : Nat) :
    (new c devices).bus.deviceIn slot = none := by
  rw [Bus.deviceIn, new_vacant, Option.bind_none]

theorem put_register {r : UInt32} (inside : r.toNat < m.registers.size) (v : Binary32) :
    put (.register r) v m =
      (.ok .next, { m with registers := m.registers.set r.toNat v inside }) := by
  simp only [put, write, writeRegister, bind_eq, dif_pos inside]
  rfl

theorem step_compares (program : List Instruction) {op : Operation}
    {test : Binary32 → Binary32 → Bool} (compares : test? op = some test) (d : Destination)
    (line : UInt64) (text : String) (left : Machine.read a m = (.ok v, m))
    (right : Machine.read b m = (.ok w, m)) :
    step program ⟨op, some d, a, b, line, text⟩ m = put d (flag (test v w)) m := by
  simp only [step, bind_eq, left, right]
  cases op <;> cases compares <;> rfl

theorem step_assert (program : List Instruction) (d : Destination) (line : UInt64) (text : String)
    (left : Machine.read a m = (.ok v, m)) (current : Machine.read d.toOperand m = (.ok w, m)) :
    step program ⟨.assert, some d, a, .unused, line, text⟩ m =
      (if nearlyEqual w v then .ok .next else .error .assertFailed, m) := by
  have nothing : Machine.read .unused m = (.ok .zero, m) := rfl
  simp only [step, bind_eq, left, nothing, destinationOf, pure_eq, current]
  cases nearlyEqual w v <;> rfl

end Comparisons

/-- In every state that an assembled program reaches on a machine without devices, each register
holds a number. A finite one counts as equal to itself; an infinity does not, for the difference of
infinities is no number and so is not below the tolerance. Two registers are compared alike in
either order, `neq` is the opposite of `eq`, and the outcome can be written to any register. -/
theorem equality_exact {source : String} {p : Program}
    (assembled : Assembly.assemble source = .ok p) {m : Machine δ}
    (bare : ∀ slot, m.bus.deviceIn slot = none) (fuel : Nat) :
    let n := (m.outcome fuel p).machine
    let is := p.instructions
    (∀ x v, n.Register x v → v.isNaN = false ∧ ∀ line text,
      (∀ d, step is ⟨.equal, some d, x.toOperand, x.toOperand, line, text⟩ n =
        put d (flag v.isFinite) n) ∧
      (∀ d, step is ⟨.notEqual, some d, x.toOperand, x.toOperand, line, text⟩ n =
        put d (flag (!v.isFinite)) n) ∧
      step is ⟨.assert, some x, x.toOperand, .unused, line, text⟩ n =
        (if v.isFinite then .ok .next else .error .assertFailed, n)) ∧
    (∀ x y v w, n.Register x v → n.Register y w → ∃ same : Bool, ∀ d line text,
      step is ⟨.equal, some d, x.toOperand, y.toOperand, line, text⟩ n = put d (flag same) n ∧
      step is ⟨.equal, some d, y.toOperand, x.toOperand, line, text⟩ n = put d (flag same) n ∧
      step is ⟨.notEqual, some d, x.toOperand, y.toOperand, line, text⟩ n =
        put d (flag (!same)) n) ∧
    ∀ (r : UInt32) (v : Binary32) (inside : r.toNat < n.registers.size), put (.register r) v n =
      (.ok .next, { n with registers := n.registers.set r.toNat v inside }) := by
  intro n is
  have answers : ∀ slot d, m.bus.deviceIn slot = some d → Device.Answers Binary32.IsNumber d := by
    intro slot d found
    rw [bare] at found
    cases found
  have literals := Assembly.assembled_numbers assembled
  have holds := outcome_holds (fun _ number => number) literals answers fuel
  have alike : test? .equal = some nearlyEqual := rfl
  have unlike : test? .notEqual = some fun a b => !nearlyEqual a b := rfl
  refine ⟨?_, ?_, fun r v inside => put_register inside v⟩
  · intro x v register
    have number : v.isNaN = false := register.number holds
    have got := register.read
    have self := nearlyEqual_self number
    refine ⟨number, fun line text => ⟨fun d => ?_, fun d => ?_, ?_⟩⟩
    · rw [step_compares is alike d line text got got, self]
    · rw [step_compares is unlike d line text got got, self]
    · rw [step_assert is x line text got got, self]
  · intro x y v w left right
    refine ⟨nearlyEqual v w, fun d line text => ⟨?_, ?_, ?_⟩⟩
    · exact step_compares is alike d line text left.read right.read
    · rw [step_compares is alike d line text right.read left.read, nearlyEqual_comm]
    · exact step_compares is unlike d line text left.read right.read

/-- A product that overflows and a sum that does not. -/
theorem equality_exact_overflow :
    let source := "mul r0 340282346638528859811704183484516925440 10\nadd r1 0.1 0.2"
    let p := Program.ofInstructions
      [⟨.multiply, some (.register 0), .literal ⟨0x7f7fffff⟩, .literal ⟨0x41200000⟩, 1,
          "mul r0 340282346638528859811704183484516925440 10"⟩,
        ⟨.add, some (.register 1), .literal ⟨0x3dcccccd⟩, .literal ⟨0x3e4ccccd⟩, 2,
          "add r1 0.1 0.2"⟩]
    let m : Machine Peripheral := .new {} #[]
    let n := (m.outcome 2 p).machine
    Assembly.assemble source = .ok p ∧ (∀ slot, m.bus.deviceIn slot = none) ∧
      n.Register (.register 0) ⟨0x7f800000⟩ ∧ n.Register (.register 1) ⟨0x3e99999a⟩ ∧
      step p.instructions ⟨.equal, some .returnAddress, .register 1, .register 1, 3, "eq ra r1 r1"⟩
        n = (.ok .next, { n with returnAddress := .one }) ∧
      step p.instructions ⟨.assert, some (.register 0), .register 0, .unused, 3, "assert r0 r0"⟩
        n = (.error .assertFailed, n) := by
  intro source p m n
  have assembled : Assembly.assemble source = .ok p := by decide +kernel
  have bare : ∀ slot, m.bus.deviceIn slot = none := new_bare {} #[]
  have overflowed : n.Register (.register 0) ⟨0x7f800000⟩ := .register (by decide +kernel)
  have sum : n.Register (.register 1) ⟨0x3e99999a⟩ := .register (by decide +kernel)
  obtain ⟨itself, -, -⟩ := equality_exact assembled bare 2
  exact ⟨assembled, bare, overflowed, sum, (itself _ _ sum).2 3 "eq ra r1 r1" |>.1 .returnAddress,
    (itself _ _ overflowed).2 3 "assert r0 r0" |>.2.2⟩

/-- An infinity that a program has computed is told apart from itself. -/
theorem infinity_unequal_itself :
    let source := "mul r0 340282346638528859811704183484516925440 10\neq r1 r0 r0\n" ++
      "neq r2 r0 r0\nassert r0 r0"
    let m : Machine Peripheral := .new {} #[]
    (∀ slot, m.bus.deviceIn slot = none) ∧ ∃ p, Assembly.assemble source = .ok p ∧
      let n := (m.outcome 3 p).machine
      n.Register (.register 0) ⟨0x7f800000⟩ ∧ n.Register (.register 1) .zero ∧
        n.Register (.register 2) .one ∧
        (m.outcome 4 p).error? = some ⟨.assertFailed, 4, "assert r0 r0"⟩ := by
  intro source m
  refine ⟨new_bare {} #[], .ofInstructions
    [⟨.multiply, some (.register 0), .literal ⟨0x7f7fffff⟩, .literal ⟨0x41200000⟩, 1,
        "mul r0 340282346638528859811704183484516925440 10"⟩,
      ⟨.equal, some (.register 1), .register 0, .register 0, 2, "eq r1 r0 r0"⟩,
      ⟨.notEqual, some (.register 2), .register 0, .register 0, 3, "neq r2 r0 r0"⟩,
      ⟨.assert, some (.register 0), .register 0, .unused, 4, "assert r0 r0"⟩], ?_, ?_, ?_, ?_, ?_⟩
  · decide +kernel
  · exact .register (by decide +kernel)
  · exact .register (by decide +kernel)
  · exact .register (by decide +kernel)
  · decide +kernel

end Machine
end FloatMachine
