import Mathlib.Tactic.Common

/-!
# Computations that can panic, fail and change a state

`Fallible σ ε α` runs on a state `σ`: `none` is a panic, an error leaves the state as it was
when it arose, and a bind stops at the first error.
-/

abbrev Fallible (σ ε : Type) (α : Type) := ExceptT ε (StateT σ Option) α

namespace Fallible
variable {σ ε ε' α β : Type}

/-- A computation given by what it does to the state. -/
def of (f : σ → Option (Except ε α × σ)) : Fallible σ ε α := f

/-- What a computation does to a state. -/
def runOn (x : Fallible σ ε α) (s : σ) : Option (Except ε α × σ) := x s

/-- A step that never panics. -/
def step (f : σ → Except ε α × σ) : Fallible σ ε α := of fun s => some (f s)

/-- A value, or a panic. -/
def lift (x : Option α) : Fallible σ ε α := of fun s => x.map fun a => (.ok a, s)

/-- An error converted as `?` does it. -/
def mapError (f : ε → ε') (x : Fallible σ ε α) : Fallible σ ε' α := of fun s =>
  (x.runOn s).map fun (r, s) => (r.mapError f, s)

@[simp] theorem runOn_of (f : σ → Option (Except ε α × σ)) (s : σ) : (of f).runOn s = f s := rfl

@[simp] theorem runOn_step (f : σ → Except ε α × σ) (s : σ) :
    (step f).runOn s = some (f s) := rfl

@[simp] theorem runOn_pure (a : α) (s : σ) :
    (pure a : Fallible σ ε α).runOn s = some (.ok a, s) := rfl

@[simp] theorem runOn_throw (e : ε) (s : σ) :
    (throw e : Fallible σ ε α).runOn s = some (.error e, s) := rfl

@[simp] theorem runOn_lift_some (a : α) (s : σ) :
    (lift (some a) : Fallible σ ε α).runOn s = some (.ok a, s) := rfl

@[simp] theorem runOn_lift_none (s : σ) :
    (lift none : Fallible σ ε α).runOn s = none := rfl

theorem runOn_bind (x : Fallible σ ε α) (f : α → Fallible σ ε β) (s : σ) :
    (x >>= f).runOn s = match x.runOn s with
      | none => none
      | some (.error e, s) => some (.error e, s)
      | some (.ok a, s) => (f a).runOn s := by
  simp only [runOn, bind, ExceptT.bind, ExceptT.mk, StateT.bind]
  cases x s with
  | none => rfl
  | some r =>
    obtain ⟨r, s⟩ := r
    cases r <;> rfl

/-- A bind whose first part succeeds goes on with the second. -/
theorem bind_ok {x : Fallible σ ε α} {f : α → Fallible σ ε β} {s s' : σ} {a : α}
    (h : x.runOn s = some (.ok a, s')) : (x >>= f).runOn s = (f a).runOn s' := by
  rw [runOn_bind, h]

theorem bind_error {x : Fallible σ ε α} {f : α → Fallible σ ε β} {s s' : σ} {e : ε}
    (h : x.runOn s = some (.error e, s')) : (x >>= f).runOn s = some (.error e, s') := by
  rw [runOn_bind, h]

theorem bind_panic {x : Fallible σ ε α} {f : α → Fallible σ ε β} {s : σ}
    (h : x.runOn s = none) : (x >>= f).runOn s = none := by
  rw [runOn_bind, h]

theorem runOn_lift (o : Option α) (s : σ) :
    (lift o : Fallible σ ε α).runOn s = o.map fun a => (.ok a, s) := rfl

/-- A bind whose first part succeeds or panics. -/
theorem bind_map {x : Fallible σ ε α} {f : α → Fallible σ ε β} {s : σ} {s' : α → σ} {o : Option α}
    (h : x.runOn s = o.map fun a => (.ok a, s' a)) :
    (x >>= f).runOn s = o.bind fun a => (f a).runOn (s' a) := by
  cases o with
  | none => exact bind_panic h
  | some a => exact bind_ok h

/-- A bind that succeeds has two parts that do. -/
theorem of_bind_ok {x : Fallible σ ε α} {f : α → Fallible σ ε β} {s s'' : σ} {b : β}
    (h : (x >>= f).runOn s = some (.ok b, s'')) :
    ∃ a s', x.runOn s = some (.ok a, s') ∧ (f a).runOn s' = some (.ok b, s'') := by
  rw [runOn_bind] at h
  cases hx : x.runOn s with
  | none =>
    rw [hx] at h
    cases h
  | some r =>
    obtain ⟨r, s'⟩ := r
    rw [hx] at h
    cases r with
    | error e => cases h
    | ok a => exact ⟨a, s', rfl, h⟩

theorem of_lift_ok {x : Option α} {s s' : σ} {a : α}
    (h : (lift x : Fallible σ ε α).runOn s = some (.ok a, s')) : x = some a := by
  cases x with
  | none => cases h
  | some b =>
    cases h
    rfl

theorem mapError_ok {x : Fallible σ ε α} {f : ε → ε'} {s s' : σ} {a : α}
    (h : x.runOn s = some (.ok a, s')) : (x.mapError f).runOn s = some (.ok a, s') := by
  simp [mapError, h, Except.mapError]

theorem mapError_error {x : Fallible σ ε α} {f : ε → ε'} {s s' : σ} {e : ε}
    (h : x.runOn s = some (.error e, s')) : (x.mapError f).runOn s = some (.error (f e), s') := by
  simp [mapError, h, Except.mapError]

theorem runOn_mapError (x : Fallible σ ε α) (f : ε → ε') (s : σ) :
    (x.mapError f).runOn s = (x.runOn s).map fun (r, s) => (r.mapError f, s) := rfl

theorem mapError_panic {x : Fallible σ ε α} {f : ε → ε'} {s : σ} (h : x.runOn s = none) :
    (x.mapError f).runOn s = none := by
  simp [mapError, h]

/-- However the computation ends, it has moved the state along `R`. -/
def Moves (R : σ → σ → Prop) (x : Fallible σ ε α) : Prop :=
  ∀ s r s', x.runOn s = some (r, s') → R s s'

section
variable {R : σ → σ → Prop}

theorem moves_step {f : σ → Except ε α × σ} (h : ∀ s, R s (f s).2) : (step f).Moves R := by
  intro s r s' hrun
  have heq : f s = (r, s') := Option.some.inj hrun
  have hmoved := h s
  rwa [heq] at hmoved

theorem moves_pure (hrefl : ∀ s, R s s) (a : α) : (pure a : Fallible σ ε α).Moves R := by
  intro s r s' hrun
  cases hrun
  exact hrefl s

theorem moves_throw (hrefl : ∀ s, R s s) (e : ε) : (throw e : Fallible σ ε α).Moves R := by
  intro s r s' hrun
  cases hrun
  exact hrefl s

theorem moves_lift (hrefl : ∀ s, R s s) (o : Option α) : (lift o : Fallible σ ε α).Moves R := by
  intro s r s' hrun
  obtain ⟨a, _, heq⟩ := Option.map_eq_some_iff.mp ((runOn_lift o s).symm.trans hrun)
  cases heq
  exact hrefl s

theorem Moves.bind (htrans : ∀ {s s' s''}, R s s' → R s' s'' → R s s'') {x : Fallible σ ε α}
    {f : α → Fallible σ ε β} (hx : x.Moves R) (hf : ∀ a, (f a).Moves R) : (x >>= f).Moves R := by
  intro s r s' hrun
  rw [runOn_bind] at hrun
  cases hfirst : x.runOn s with
  | none =>
    rw [hfirst] at hrun
    cases hrun
  | some first =>
    obtain ⟨r1, s1⟩ := first
    have hmoved := hx s r1 s1 hfirst
    rw [hfirst] at hrun
    cases r1 with
    | error e =>
      cases hrun
      exact hmoved
    | ok a => exact htrans hmoved (hf a s1 r s' hrun)

theorem Moves.mapError {x : Fallible σ ε α} (hx : x.Moves R) (f : ε → ε') :
    (x.mapError f).Moves R := by
  intro s r s' hrun
  obtain ⟨first, hfirst, heq⟩ := Option.map_eq_some_iff.mp ((runOn_mapError x f s).symm.trans hrun)
  cases heq
  exact hx s first.1 first.2 hfirst

end

end Fallible
