import FloatMachine.Codec.Decoder
import Mathlib.Data.List.Forall2

/-! How actions that carry a state and may fail come to an end. Decoders, loaders and steps of
the machine are such actions, so what holds of a sequence is said here once. -/
namespace FloatMachine

section Success

variable {ε σ α β : Type} {s t : σ}

theorem bind_eq (act : ExceptT ε (StateM σ) α) (next : α → ExceptT ε (StateM σ) β) (s : σ) :
    (act >>= next) s = match act s with
      | (.ok a, m) => next a m
      | (.error e, m) => (.error e, m) := by
  simp only [Bind.bind, ExceptT.bind, ExceptT.mk, StateT.bind, ExceptT.bindCont]
  rcases act s with ⟨_ | _, m⟩ <;> rfl

theorem pure_eq (a : α) (s : σ) : (pure a : ExceptT ε (StateM σ) α) s = (.ok a, s) := rfl

theorem get_eq (s : σ) : (get : ExceptT ε (StateM σ) σ) s = (.ok s, s) := rfl

theorem lift_eq (act : StateM σ α) (s : σ) :
    (ExceptT.lift act : ExceptT ε (StateM σ) α) s = (.ok (act s).1, (act s).2) := rfl

theorem tryCatch_eq (act : ExceptT ε (StateM σ) α) (undo : ε → ExceptT ε (StateM σ) α) (s : σ) :
    (tryCatch act undo : ExceptT ε (StateM σ) α) s = match act s with
      | (.ok a, m) => (.ok a, m)
      | (.error e, m) => undo e m := by
  simp only [MonadExcept.tryCatch, tryCatchThe, MonadExceptOf.tryCatch, ExceptT.tryCatch,
    ExceptT.mk, Bind.bind, StateT.bind]
  rcases act s with ⟨_ | _, m⟩ <;> rfl

theorem bind_ok {act : ExceptT ε (StateM σ) α} {next : α → ExceptT ε (StateM σ) β} {b : β} :
    (act >>= next) s = (.ok b, t) ↔ ∃ a m, act s = (.ok a, m) ∧ next a m = (.ok b, t) := by
  rw [bind_eq]
  rcases act s with ⟨e | a, m⟩
  · constructor
    · intro h; cases h
    · rintro ⟨a, n, h, _⟩; cases h
  · constructor
    · intro h; exact ⟨a, m, rfl, h⟩
    · rintro ⟨a, n, h, hn⟩; cases h; exact hn

theorem pure_ok {a b : α} :
    (pure a : ExceptT ε (StateM σ) α) s = (.ok b, t) ↔ a = b ∧ s = t := by
  constructor
  · intro h; cases h; exact ⟨rfl, rfl⟩
  · rintro ⟨rfl, rfl⟩; rfl

theorem throw_ok {e : ε} {b : α} :
    (throw e : ExceptT ε (StateM σ) α) s = (.ok b, t) ↔ False := by
  constructor
  · intro h; cases h
  · exact False.elim

theorem get_ok {a : σ} : (get : ExceptT ε (StateM σ) σ) s = (.ok a, t) ↔ s = a ∧ s = t := by
  constructor
  · intro h; cases h; exact ⟨rfl, rfl⟩
  · rintro ⟨rfl, rfl⟩; rfl

theorem adapt_eq {δ : Type} (f : δ → ε) (act : ExceptT δ (StateM σ) α) (s : σ) :
    (ExceptT.adapt f act : ExceptT ε (StateM σ) α) s = match act s with
      | (.ok a, m) => (.ok a, m)
      | (.error e, m) => (.error (f e), m) := by
  change (Functor.map (Except.mapError f) act : StateM σ (Except ε α)) s = _
  simp only [Functor.map, StateT.map]
  rcases act s with ⟨_ | _, m⟩ <;> rfl

theorem adapt_ok {δ : Type} {f : δ → ε} {act : ExceptT δ (StateM σ) α} {a : α} :
    (ExceptT.adapt f act : ExceptT ε (StateM σ) α) s = (.ok a, t) ↔ act s = (.ok a, t) := by
  rw [adapt_eq]
  rcases act s with ⟨e | v, m⟩
  · constructor <;> intro h <;> cases h
  · constructor <;> intro h <;> cases h <;> rfl

theorem unless_ok {c : Prop} [Decidable c] {e : ε} {skipped : Unit → ExceptT ε (StateM σ) α}
    {next : ExceptT ε (StateM σ) α} {b : α} :
    (if c then throw e >>= skipped else next) s = (.ok b, t) ↔ ¬ c ∧ next s = (.ok b, t) := by
  -- the form that a check without an else takes inside a sequence
  by_cases h : c
  · rw [if_pos h, bind_ok]
    constructor
    · rintro ⟨_, _, thrown, _⟩; exact (throw_ok.1 thrown).elim
    · intro both; exact (both.1 h).elim
  · rw [if_neg h]
    simp only [h, not_false_eq_true, true_and]

end Success

section Invariants

variable {ε σ α β : Type} {Inv : σ → Prop} {Allowed : ε → Prop} {Good : α → Prop}

/-- An action ended in a state with the invariant, with a good value or an allowed error. -/
inductive Ends (Inv : σ → Prop) (Allowed : ε → Prop) (Good : α → Prop) :
    Except ε α × σ → Prop
  | ok {a : α} {t : σ} : Inv t → Good a → Ends Inv Allowed Good (.ok a, t)
  | error {e : ε} {t : σ} : Inv t → Allowed e → Ends Inv Allowed Good (.error e, t)

/-- From any state with the invariant the action ends well. -/
def Keeps (Inv : σ → Prop) (Allowed : ε → Prop) (act : ExceptT ε (StateM σ) α)
    (Good : α → Prop) : Prop :=
  ∀ s, Inv s → Ends Inv Allowed Good (act s)

theorem Keeps.pure {a : α} (good : Good a) :
    Keeps Inv Allowed (pure a : ExceptT ε (StateM σ) α) Good := by
  intro s inv
  exact .ok inv good

theorem Keeps.throw {e : ε} (allowed : Allowed e) :
    Keeps Inv Allowed (throw e : ExceptT ε (StateM σ) α) Good := by
  intro s inv
  exact .error inv allowed

theorem Keeps.get : Keeps Inv Allowed (get : ExceptT ε (StateM σ) σ) Inv := by
  intro s inv
  exact .ok inv inv

theorem Keeps.modify {change : σ → σ} (kept : ∀ s, Inv s → Inv (change s)) :
    Keeps Inv Allowed (modify change : ExceptT ε (StateM σ) PUnit) fun _ => True := by
  intro s inv
  exact .ok (kept s inv) trivial

theorem Keeps.any (act : ExceptT ε (StateM σ) α) :
    Keeps (fun _ => True) (fun _ => True) act fun _ => True := by
  intro s _
  rcases act s with ⟨_ | _, _⟩
  · exact .error trivial trivial
  · exact .ok trivial trivial

theorem Keeps.mono {act : ExceptT ε (StateM σ) α} {Wider : ε → Prop}
    (held : Keeps Inv Allowed act Good) (wider : ∀ e, Allowed e → Wider e) :
    Keeps Inv Wider act Good := by
  intro s inv
  have ended := held s inv
  generalize act s = result at ended ⊢
  cases ended with
  | ok kept good => exact .ok kept good
  | error kept allowed => exact .error kept (wider _ allowed)

theorem Keeps.bind {act : ExceptT ε (StateM σ) α} {next : α → ExceptT ε (StateM σ) β}
    {Fine : β → Prop} (first : Keeps Inv Allowed act Good)
    (rest : ∀ a, Good a → Keeps Inv Allowed (next a) Fine) :
    Keeps Inv Allowed (act >>= next) Fine := by
  intro s inv
  have ended := first s inv
  rw [bind_eq]
  generalize act s = result at ended ⊢
  cases ended with
  | ok kept good => exact rest _ good _ kept
  | error kept allowed => exact .error kept allowed

theorem Keeps.unless {c : Prop} [Decidable c] {e : ε} {skipped : PUnit → ExceptT ε (StateM σ) α}
    {next : ExceptT ε (StateM σ) α} (allowed : Allowed e) (rest : Keeps Inv Allowed next Good) :
    Keeps Inv Allowed (if c then MonadExcept.throw e >>= skipped else next) Good := by
  have never : Keeps Inv Allowed (MonadExcept.throw e : ExceptT ε (StateM σ) PUnit)
      fun _ => False := Keeps.throw allowed
  split
  · exact Keeps.bind never fun _ => False.elim
  · exact rest

theorem Keeps.tryCatch {act : ExceptT ε (StateM σ) α} {undo : ε → ExceptT ε (StateM σ) α}
    (first : Keeps Inv Allowed act Good)
    (rest : ∀ e, Allowed e → Keeps Inv Allowed (undo e) Good) :
    Keeps Inv Allowed (tryCatch act undo) Good := by
  intro s inv
  have ended := first s inv
  rw [tryCatch_eq]
  generalize act s = result at ended ⊢
  cases ended with
  | ok kept good => exact .ok kept good
  | error kept allowed => exact rest _ allowed _ kept

theorem Keeps.ok {act : ExceptT ε (StateM σ) α} (held : Keeps Inv Allowed act Good) {s t : σ}
    {a : α} (inv : Inv s) (ended : act s = (.ok a, t)) : Inv t ∧ Good a := by
  have result := held s inv
  rw [ended] at result
  cases result with
  | ok kept good => exact ⟨kept, good⟩

theorem Keeps.option {f : α → ExceptT ε (StateM σ) β} {Fine : α → β → Prop}
    (each : ∀ a, Keeps Inv Allowed (f a) (Fine a)) (o : Option α) :
    Keeps Inv Allowed (o.mapM f) (Option.Rel Fine o) := by
  cases o with
  | none => exact Keeps.pure .none
  | some a =>
    change Keeps Inv Allowed (some <$> f a) _
    rw [map_eq_pure_bind]
    exact Keeps.bind (each a) fun b fine => Keeps.pure (.some fine)

theorem Keeps.foldlM {f : β → α → ExceptT ε (StateM σ) β} {Fine : β → Prop}
    (each : ∀ b a, Fine b → Keeps Inv Allowed (f b a) Fine) {b : β} (fine : Fine b)
    (as : List α) : Keeps Inv Allowed (as.foldlM f b) Fine := by
  induction as generalizing b with
  | nil => exact Keeps.pure fine
  | cons a as ih =>
    rw [List.foldlM_cons]
    exact Keeps.bind (each b a fine) fun c fine => ih fine

/-- A sequence whose first part keeps an invariant ends with that part, or goes on from there. -/
theorem Keeps.split {act : ExceptT ε (StateM σ) α} {next : α → ExceptT ε (StateM σ) β}
    (held : Keeps Inv Allowed act Good) {s : σ} (inv : Inv s) :
    (∃ e t, (act >>= next) s = (.error e, t) ∧ Inv t ∧ Allowed e) ∨
      ∃ a m, Inv m ∧ Good a ∧ (act >>= next) s = next a m := by
  have ended := held s inv
  rw [bind_eq]
  generalize act s = result at ended ⊢
  cases ended with
  | ok kept good => exact Or.inr ⟨_, _, kept, good, rfl⟩
  | error kept allowed => exact Or.inl ⟨_, _, rfl, kept, allowed⟩

/-- From a state with the invariant the action fails only into such a state. -/
def Restores (Inv : σ → Prop) (act : ExceptT ε (StateM σ) α) : Prop :=
  ∀ s, Inv s → ∀ e t, act s = (.error e, t) → Inv t

theorem Keeps.restores {act : ExceptT ε (StateM σ) α} (held : Keeps Inv Allowed act Good) :
    Restores Inv act := by
  intro s inv e t failed
  have ended := held s inv
  rw [failed] at ended
  cases ended with
  | error kept _ => exact kept

theorem Restores.pure {a : α} : Restores Inv (Pure.pure a : ExceptT ε (StateM σ) α) := by
  intro s inv e t failed
  cases failed

theorem Restores.throw {e : ε} : Restores Inv (MonadExcept.throw e : ExceptT ε (StateM σ) α) := by
  intro s inv f t failed
  cases failed
  exact inv

/- What comes before the part that may have to undo something must not change anything. -/
theorem Restores.bind {act : ExceptT ε (StateM σ) α} {next : α → ExceptT ε (StateM σ) β}
    (first : Keeps Inv Allowed act Good) (rest : ∀ a, Good a → Restores Inv (next a)) :
    Restores Inv (act >>= next) := by
  intro s inv e t failed
  have ended := first s inv
  rw [bind_eq] at failed
  generalize act s = result at ended failed
  cases ended with
  | ok kept good => exact rest _ good _ kept e t failed
  | error kept _ =>
    cases failed
    exact kept

theorem Restores.last {act : ExceptT ε (StateM σ) α} {answer : α → β} (first : Restores Inv act) :
    Restores Inv (act >>= fun a => Pure.pure (answer a)) := by
  intro s inv e t failed
  rw [bind_eq] at failed
  rcases result : act s with ⟨f | a, m⟩
  · rw [result] at failed
    cases failed
    exact first s inv e t result
  · rw [result] at failed
    cases failed

theorem Restores.unless {c : Prop} [Decidable c] {e : ε} {skipped : PUnit → ExceptT ε (StateM σ) α}
    {next : ExceptT ε (StateM σ) α} (rest : Restores Inv next) :
    Restores Inv (if c then MonadExcept.throw e >>= skipped else next) := by
  split
  · intro s inv f t failed
    cases failed
    exact inv
  · exact rest

end Invariants

section Readings

variable {ε α β : Type}

theorem reading_bind {x : Except ε α} {next : α → Except ε β} {b : β} :
    (x >>= next) = .ok b ↔ ∃ a, x = .ok a ∧ next a = .ok b := by
  cases x <;> simp [bind, Except.bind]

theorem reading_pure {a b : α} : (pure a : Except ε α) = .ok b ↔ a = b := by
  simp [pure, Except.pure]

theorem reading_pure_error {a : α} {e : ε} : (pure a : Except ε α) = .error e ↔ False := by
  simp [pure, Except.pure]

theorem reading_throw {e : ε} {a : α} : (throw e : Except ε α) = .ok a ↔ False := by
  simp [throw, throwThe, MonadExceptOf.throw]

theorem reading_unless {c : Prop} [Decidable c] {e : ε} {skipped : Unit → Except ε α}
    {next : Except ε α} {a : α} :
    (if c then throw e >>= skipped else next) = .ok a ↔ ¬ c ∧ next = .ok a := by
  by_cases h : c <;> simp [h, reading_bind, reading_throw]

theorem reading_bind_error {x : Except ε α} {next : α → Except ε β} {e : ε} :
    (x >>= next) = .error e ↔ x = .error e ∨ ∃ a, x = .ok a ∧ next a = .error e := by
  cases x <;> simp [bind, Except.bind]

theorem reading_unless_error {c : Prop} [Decidable c] {d e : ε} {skipped : Unit → Except ε α}
    {next : Except ε α} :
    (if c then throw d >>= skipped else next) = .error e ↔
      c ∧ d = e ∨ ¬ c ∧ next = .error e := by
  by_cases h : c <;> simp [h, bind, Except.bind, throw, throwThe, MonadExceptOf.throw]

theorem mapM_ok {f : α → Except ε β} {xs : List α} {ys : List β} :
    xs.mapM f = .ok ys ↔ List.Forall₂ (fun x y => f x = .ok y) xs ys := by
  induction xs generalizing ys with
  | nil =>
    simp only [List.mapM_nil, reading_pure, List.forall₂_nil_left_iff]
    exact eq_comm
  | cons x xs ih =>
    simp only [List.mapM_cons, reading_bind, reading_pure, ih, List.forall₂_cons_left_iff]
    constructor
    · rintro ⟨y, one, rest, others, rfl⟩
      exact ⟨y, rest, one, others, rfl⟩
    · rintro ⟨y, rest, one, others, rfl⟩
      exact ⟨y, one, rest, others, rfl⟩

theorem exists_forall₂ {R : α → β → Prop} {xs : List α} :
    (∃ ys, List.Forall₂ R xs ys) ↔ ∀ x ∈ xs, ∃ y, R x y := by
  induction xs with
  | nil => simp
  | cons x xs ih =>
    rw [List.forall_mem_cons, ← ih]
    constructor
    · rintro ⟨_, related⟩
      cases related with
      | cons one others => exact ⟨⟨_, one⟩, _, others⟩
    · rintro ⟨⟨_, one⟩, _, others⟩
      exact ⟨_, .cons one others⟩

theorem mapM_mem {f : α → Except ε β} {xs : List α} {ys : List β} (read : xs.mapM f = .ok ys)
    {y : β} (member : y ∈ ys) : ∃ x ∈ xs, f x = .ok y := by
  have related := mapM_ok.1 read
  clear read
  induction related with
  | nil => cases member
  | cons one _ ih =>
    rcases List.mem_cons.1 member with rfl | later
    · exact ⟨_, List.mem_cons_self, one⟩
    · obtain ⟨x, inside, same⟩ := ih later
      exact ⟨x, List.mem_cons_of_mem _ inside, same⟩

theorem mapM_error {f : α → Except ε β} {xs : List α} {e : ε} :
    xs.mapM f = .error e ↔ ∃ (n : Nat) (x : α), xs[n]? = some x ∧ f x = .error e ∧
      ∀ (j : Nat) (y : α), j < n → xs[j]? = some y → ∃ b, f y = .ok b := by
  induction xs with
  | nil => simp [pure, Except.pure]
  | cons x xs ih =>
    simp only [List.mapM_cons, reading_bind_error, reading_pure_error, and_false, exists_false,
      or_false, ih]
    constructor
    · rintro (first | ⟨b, fine, n, y, found, failed, before⟩)
      · exact ⟨0, x, rfl, first, fun _ _ less => (Nat.not_lt_zero _ less).elim⟩
      · refine ⟨n + 1, y, found, failed, ?_⟩
        intro j z less at_j
        cases j with
        | zero =>
          cases at_j
          exact ⟨b, fine⟩
        | succ j => exact before j z (Nat.lt_of_succ_lt_succ less) at_j
    · rintro ⟨n, y, found, failed, before⟩
      cases n with
      | zero =>
        cases found
        exact Or.inl failed
      | succ n =>
        obtain ⟨b, fine⟩ := before 0 x (Nat.succ_pos n) rfl
        refine Or.inr ⟨b, fine, n, y, found, failed, ?_⟩
        intro j z less at_j
        exact before (j + 1) z (Nat.succ_lt_succ less) at_j

end Readings

end FloatMachine
