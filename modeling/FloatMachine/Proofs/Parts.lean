import FloatMachine.Proofs.Steps

/-! What a step is put together from. What all accesses of an instruction have in common holds of
its step, so facts about what an instruction leaves alone, or about two machines side by side, are
shown of single accesses. -/
namespace FloatMachine

section Composition

variable {ε σ : Type}

/-- The action can end with this value. -/
def Returns {α : Type} (act : ExceptT ε (StateM σ) α) (a : α) : Prop :=
  ∃ s t, act s = (.ok a, t)

/-- Actions put together from basic ones: one after the other, giving up, or recovering. -/
inductive Composed (Basic : {α : Type} → ExceptT ε (StateM σ) α → Prop) :
    {α : Type} → ExceptT ε (StateM σ) α → Prop
  | basic {α : Type} {act : ExceptT ε (StateM σ) α} : Basic act → Composed Basic act
  | pure {α : Type} (a : α) : Composed Basic (pure a)
  | throw {α : Type} (e : ε) : Composed Basic (throw e : ExceptT ε (StateM σ) α)
  | bind {α β : Type} {act : ExceptT ε (StateM σ) α} {next : α → ExceptT ε (StateM σ) β} :
      Composed Basic act → (∀ a, Returns act a → Composed Basic (next a)) →
      Composed Basic (act >>= next)
  | tryCatch {α : Type} {act : ExceptT ε (StateM σ) α} {undo : ε → ExceptT ε (StateM σ) α} :
      Composed Basic act → (∀ e, Composed Basic (undo e)) →
      Composed Basic (tryCatch act undo)

/-- From related states the action ends alike: with the same value or the same error, and in
related states. -/
def Respectful {α : Type} (Rel : σ → σ → Prop) (act : ExceptT ε (StateM σ) α) : Prop :=
  ∀ s t, Rel s t → (act s).1 = (act t).1 ∧ Rel (act s).2 (act t).2

variable {Basic : {α : Type} → ExceptT ε (StateM σ) α → Prop} {α : Type}
  {act : ExceptT ε (StateM σ) α}

theorem Composed.keeps {Inv : σ → Prop} (composed : Composed Basic act)
    (basic : ∀ {β : Type} (part : ExceptT ε (StateM σ) β), Basic part →
      Keeps Inv (fun _ => True) part fun _ => True) :
    Keeps Inv (fun _ => True) act fun _ => True := by
  induction composed with
  | basic part => exact basic _ part
  | pure a => exact Keeps.pure trivial
  | throw e => exact Keeps.throw trivial
  | @bind _ _ first next _ _ ihFirst ihNext =>
    intro s inv
    have ended := ihFirst s inv
    rw [bind_eq]
    rcases result : first s with ⟨e | a, m⟩
    · rw [result] at ended
      cases ended with
      | error kept _ => exact .error kept trivial
    · rw [result] at ended
      cases ended with
      | ok kept _ => exact ihNext a ⟨s, m, result⟩ m kept
  | tryCatch _ _ ihFirst ihUndo => exact Keeps.tryCatch ihFirst fun e _ => ihUndo e

theorem Composed.respectful {Rel : σ → σ → Prop} (composed : Composed Basic act)
    (basic : ∀ {β : Type} (part : ExceptT ε (StateM σ) β), Basic part → Respectful Rel part) :
    Respectful Rel act := by
  induction composed with
  | basic part => exact basic _ part
  | pure a =>
    intro s t related
    exact ⟨rfl, related⟩
  | throw e =>
    intro s t related
    exact ⟨rfl, related⟩
  | @bind _ _ first next _ _ ihFirst ihNext =>
    intro s t related
    have step := ihFirst s t related
    simp only [bind_eq]
    rcases left : first s with ⟨e | a, m⟩ <;> rcases right : first t with ⟨f | b, n⟩ <;>
      rw [left, right] at step <;> obtain ⟨same, after⟩ := step <;> cases same
    · exact ⟨rfl, after⟩
    · exact ihNext a ⟨s, m, left⟩ m n after
  | @tryCatch _ first undo _ _ ihFirst ihUndo =>
    intro s t related
    have step := ihFirst s t related
    simp only [tryCatch_eq]
    rcases left : first s with ⟨e | a, m⟩ <;> rcases right : first t with ⟨f | b, n⟩ <;>
      rw [left, right] at step <;> obtain ⟨same, after⟩ := step <;> cases same
    · exact ihUndo e m n after
    · exact ⟨rfl, after⟩

end Composition

namespace Instruction

/-- The place that the instruction writes its result to. -/
def written (i : Instruction) : Option Destination :=
  match i.operation with
  | .nop | .assert | .push | .jump | .jumpReturn | .ret => none
  | _ => i.destination

end Instruction

namespace Machine

variable {δ : Type} [Device δ]

/-- The accesses that an instruction makes. -/
inductive Part (i : Instruction) : {α : Type} → Action δ α → Prop
  | read {o : Operand} : o ∈ i.touched → Part i (read o)
  | write {d : Destination} (v : Binary32) : i.written = some d → Part i (write d v)
  | push (v : Binary32) : i.operation = .push ∨ i.operation = .pop →
      Part i (onStack (Stack.push v))
  | pop : i.operation = .pop → Part i (onStack Stack.pop)
  | peek : i.operation = .peek → Part i (onStack Stack.peek)
  | link (program : List Instruction) : i.operation = .jumpReturn →
      Part i (modify fun m => { m with returnAddress := returnLine program i.line })

variable {i : Instruction}

/-- An action put together from accesses of the instruction. -/
abbrev Made (i : Instruction) {α : Type} (act : Action δ α) : Prop := Composed (Part i) act

theorem made_read {o : Operand} (touched : o ∈ i.touched) : Made i (read o : Action δ _) :=
  .basic (.read touched)

omit [Device δ] in
theorem destinationOf_returns {d : Destination} (found : Returns (destinationOf (δ := δ) i) d) :
    i.destination = some d := by
  obtain ⟨s, t, ended⟩ := found
  unfold destinationOf at ended
  cases given : i.destination with
  | some e =>
    rw [given] at ended
    cases ended
    rfl
  | none =>
    rw [given] at ended
    cases ended

theorem made_destinationOf : Made i (destinationOf i : Action δ _) := by
  unfold destinationOf
  cases i.destination with
  | some d => exact .pure d
  | none => exact .throw _

theorem made_number (v : Binary32) : Made i (number v : Action δ _) := by
  unfold number
  split
  · exact .throw _
  · exact .pure _

theorem made_jumpTo (program : List Instruction) (target : Binary32) :
    Made i (jumpTo program target : Action δ _) := by
  unfold jumpTo
  cases lineOf program target with
  | some place => exact .pure place
  | none => exact .throw _

/- Of the operations that need a destination only two do not write there. -/
theorem made_write (writes : i.written = i.destination) {d : Destination}
    (found : Returns (destinationOf (δ := δ) i) d) (v : Binary32) :
    Made i (write d v : Action δ _) :=
  .basic (.write v (writes.trans (destinationOf_returns found)))

theorem made_current {d : Destination} (found : Returns (destinationOf (δ := δ) i) d) :
    Made i (read d.toOperand : Action δ _) :=
  made_read (destination_touched (destinationOf_returns found))

theorem made_store (writes : i.written = i.destination) (v : Binary32) :
    Made i (store i v : Action δ _) := by
  apply Composed.bind made_destinationOf
  intro d found
  apply Composed.bind (made_number v)
  intro v _
  exact .bind (made_write writes found v) fun _ _ => .pure _

theorem made_storeFlag (writes : i.written = i.destination) (c : Bool) :
    Made i (storeFlag i c : Action δ _) := by
  apply Composed.bind made_destinationOf
  intro d found
  exact .bind (made_write writes found _) fun _ _ => .pure _

theorem made_adjust (writes : i.written = i.destination) (change : Binary32) :
    Made i (adjust i change : Action δ _) := by
  apply Composed.bind made_destinationOf
  intro d found
  apply Composed.bind (made_current found)
  intro old _
  apply Composed.bind (made_number _)
  intro v _
  exact .bind (made_write writes found v) fun _ _ => .pure _

theorem made_popInto (pops : i.operation = .pop) (writes : i.written = i.destination)
    {d : Destination} (found : Returns (destinationOf (δ := δ) i) d) :
    Made i (popInto d : Action δ _) := by
  apply Composed.bind (.basic (.pop pops))
  intro v _
  apply Composed.tryCatch (made_write writes found v)
  intro f
  exact .bind (.basic (.push v (Or.inr pops))) fun _ _ => .throw f

theorem made_unless {c : Prop} [Decidable c] {f : Fault} {skipped : PUnit → Action δ Flow}
    {next : Action δ Flow} (rest : Made i next) :
    Made i (if c then MonadExcept.throw f >>= skipped else next) := by
  split
  · apply Composed.bind (.throw f)
    rintro _ ⟨s, t, ended⟩
    cases ended
  · exact rest

/-- A step makes no accesses but those of its instruction. -/
theorem step_made (program : List Instruction) (i : Instruction) :
    Made i (step program i : Action δ _) := by
  apply Composed.bind (made_read (left_touched i))
  intro a _
  apply Composed.bind (made_read (right_touched i))
  intro b _
  have destination : Made i (destinationOf i : Action δ _) := made_destinationOf
  have written : i.written = match i.operation with
    | .nop | .assert | .push | .jump | .jumpReturn | .ret => none
    | _ => i.destination := rfl
  cases operation : i.operation with
  | nop | ret => exact .pure _
  | move =>
    rw [operation] at written
    apply Composed.bind destination
    intro d found
    exact .bind (made_write written found a) fun _ _ => .pure _
  | squareRoot =>
    rw [operation] at written
    exact made_unless (made_store written _)
  | assert =>
    apply Composed.bind destination
    intro d found
    apply Composed.bind (made_current found)
    intro current _
    split
    · exact .pure _
    · exact .throw _
  | add | subtract | multiply =>
    rw [operation] at written
    exact made_store written _
  | divide =>
    rw [operation] at written
    exact made_unless (made_store written _)
  | increment | decrement =>
    rw [operation] at written
    exact made_adjust written _
  | equal | notEqual | greater | greaterOrEqual | lesser | lesserOrEqual =>
    rw [operation] at written
    exact made_storeFlag written _
  | push =>
    apply Composed.bind destination
    intro d found
    apply Composed.bind (made_current found)
    intro v _
    exact .bind (.basic (.push v (Or.inl operation))) fun _ _ => .pure _
  | pop =>
    rw [operation] at written
    apply Composed.bind destination
    intro d found
    exact .bind (made_popInto operation written found) fun _ _ => .pure _
  | peek =>
    rw [operation] at written
    apply Composed.bind destination
    intro d found
    apply Composed.bind (made_current found)
    intro _ _
    apply Composed.bind (.basic (.peek operation))
    intro v _
    exact .bind (made_write written found v) fun _ _ => .pure _
  | jump => exact .bind (made_jumpTo program a) fun _ _ => .pure _
  | jumpReturn =>
    apply Composed.bind (made_jumpTo program a)
    intro target _
    exact .bind (.basic (.link program operation)) fun _ _ => .pure _

end Machine
end FloatMachine
