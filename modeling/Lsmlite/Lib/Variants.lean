import Mathlib.Order.Monotone.Basic

/-!
# Variants

Steps with labels that make a number smaller. A path of them is no longer than the number, and every
path goes on to a state where no step is left. In a run that goes on forever, what stays possible
happens if the run is fair.
-/

namespace Variants
variable {σ α : Type} {step : σ → α → σ → Prop}

/-- Steps in a row, with their labels. -/
inductive Path (step : σ → α → σ → Prop) : σ → List α → σ → Prop
  | nil (s : σ) : Path step s [] s
  | cons {s s' s'' : σ} {a : α} {as : List α} (h : step s a s') (rest : Path step s' as s'') :
    Path step s (a :: as) s''

theorem Path.invariant {P : σ → Prop} (hstep : ∀ s a s', P s → step s a s' → P s') {s s' : σ}
    {as : List α} (h : Path step s as s') (hs : P s) : P s' := by
  induction h with
  | nil s => exact hs
  | cons h _ ih => exact ih (hstep _ _ _ hs h)

section
variable {work : σ → Nat} (hwork : ∀ s a s', step s a s' → work s' < work s)
include hwork

/-- Each step of a path takes from the variant. -/
theorem Path.length_le {s s' : σ} {as : List α} (h : Path step s as s') :
    as.length + work s' ≤ work s := by
  induction h with
  | nil s => exact Nat.le_of_eq (Nat.zero_add _)
  | cons h _ ih =>
    have hlt := hwork _ _ _ h
    rw [List.length_cons]
    omega

end

/-! ## Runs that go on forever -/

/-- Progress that is made again and again passes every bound. -/
theorem passes (progress : Nat → Nat) {t : Nat}
    (hgrows : ∀ u, t ≤ u → ∃ v, u ≤ v ∧ progress u < progress v) (bound : Nat) :
    ∃ u, t ≤ u ∧ bound ≤ progress u := by
  induction bound with
  | zero => exact ⟨t, Nat.le_refl t, Nat.zero_le _⟩
  | succ bound ih =>
    obtain ⟨u, hu, hbound⟩ := ih
    obtain ⟨v, hv, hlt⟩ := hgrows u hu
    exact ⟨v, by omega, by omega⟩

/-- What is possible from some time on happens after it. -/
def WeaklyFair (possible happens : Nat → Prop) : Prop :=
  ∀ t, (∀ u, t ≤ u → possible u) → ∃ u, t ≤ u ∧ happens u

/-- What is possible again and again happens. -/
def StronglyFair (possible happens : Nat → Prop) : Prop :=
  ∀ t, (∀ u, t ≤ u → ∃ v, u ≤ v ∧ possible v) → ∃ u, t ≤ u ∧ happens u

/-- What is kept until a step happens is kept forever if the step never happens. -/
theorem kept_or_happens {happens holds : Nat → Prop}
    (hkeep : ∀ u, holds u → ¬ happens u → holds (u + 1)) {t : Nat} (ht : holds t) :
    (∃ u, t ≤ u ∧ holds u ∧ happens u) ∨ ∀ u, t ≤ u → holds u ∧ ¬ happens u := by
  by_cases hever : ∃ u, t ≤ u ∧ holds u ∧ happens u
  · exact Or.inl hever
  · push Not at hever
    have hholds : ∀ u, t ≤ u → holds u := by
      intro u hu
      induction hu with
      | refl => exact ht
      | step hu ih => exact hkeep _ ih (hever _ hu ih)
    exact Or.inr fun u hu => ⟨hholds u hu, hever u hu (hholds u hu)⟩

/-- What stays and makes a step possible until the step happens sees it happen. -/
theorem WeaklyFair.until {possible happens : Nat → Prop} (h : WeaklyFair possible happens)
    (holds : Nat → Prop) (hpossible : ∀ u, holds u → possible u)
    (hkeep : ∀ u, holds u → ¬ happens u → holds (u + 1)) {t : Nat} (ht : holds t) :
    ∃ u, t ≤ u ∧ holds u ∧ happens u := by
  rcases kept_or_happens hkeep ht with hever | hnever
  · exact hever
  · obtain ⟨u, hu, hhappens⟩ := h t fun u hu => hpossible u (hnever u hu).1
    exact absurd hhappens (hnever u hu).2

/-- As `WeaklyFair.until`, where the step need only be possible again and again. -/
theorem StronglyFair.until {possible happens : Nat → Prop} (h : StronglyFair possible happens)
    (holds : Nat → Prop) (hkeep : ∀ u, holds u → ¬ happens u → holds (u + 1)) {t : Nat}
    (ht : holds t) (hagain : (∀ u, t ≤ u → holds u) → ∀ u, t ≤ u → ∃ v, u ≤ v ∧ possible v) :
    ∃ u, t ≤ u ∧ holds u ∧ happens u := by
  rcases kept_or_happens hkeep ht with hever | hnever
  · exact hever
  · obtain ⟨u, hu, hhappens⟩ := h t (hagain fun u hu => (hnever u hu).1)
    exact absurd hhappens (hnever u hu).2

/-- Fairness is about what is left of a run. -/
theorem WeaklyFair.later {possible happens : Nat → Prop}
    (h : WeaklyFair (fun t => possible (t + 1)) fun t => happens (t + 1)) :
    WeaklyFair possible happens := by
  intro t hpossible
  obtain ⟨u, hu, hhappens⟩ := h t fun u hu => hpossible (u + 1) (by omega)
  exact ⟨u + 1, by omega, hhappens⟩

theorem StronglyFair.later {possible happens : Nat → Prop}
    (h : StronglyFair (fun t => possible (t + 1)) fun t => happens (t + 1)) :
    StronglyFair possible happens := by
  intro t hpossible
  obtain ⟨u, hu, hhappens⟩ := h t fun u hu => by
    obtain ⟨v, hv, hv'⟩ := hpossible (u + 1) (by omega)
    cases v with
    | zero => omega
    | succ v => exact ⟨v, by omega, hv'⟩
  exact ⟨u + 1, by omega, hhappens⟩

end Variants
