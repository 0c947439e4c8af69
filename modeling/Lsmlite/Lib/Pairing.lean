import Mathlib.Data.List.Forall2

/-!
# Lists paired element by element

What `mapM` in `Option` makes of a list, and lists related to one list.
-/

theorem mapM_some {α β : Type} {f : α → Option β} {xs : List α} {ys : List β}
    (h : xs.mapM f = some ys) : List.Forall₂ (fun x y => f x = some y) xs ys := by
  induction xs generalizing ys with
  | nil =>
    cases h
    exact .nil
  | cons x xs ih =>
    simp only [List.mapM_cons, Option.bind_eq_bind, Option.bind_eq_some_iff, Option.pure_def,
      Option.some.injEq] at h
    obtain ⟨y, hy, ys', hys, rfl⟩ := h
    exact .cons hy (ih hys)

/-- A map over the results is a map over each of them. -/
theorem mapM_map_results {α β γ : Type} {f : α → Option β} {g : α → Option γ} {p : β → γ}
    {xs : List α} (h : ∀ x ∈ xs, (f x).map p = g x) : (xs.mapM f).map (List.map p) = xs.mapM g := by
  induction xs with
  | nil => rfl
  | cons x xs ih =>
    have hx := h x (List.mem_cons_self ..)
    have hxs := ih fun x' hx' => h x' (List.mem_cons_of_mem _ hx')
    rw [List.mapM_cons, List.mapM_cons, ← hx, ← hxs]
    cases f x with
    | none => rfl
    | some y => cases xs.mapM f <;> rfl

theorem forall₂_join {α β γ : Type} {R : α → β → Prop} {S : α → γ → Prop} {T : β → γ → Prop}
    {xs : List α} {ys : List β} {zs : List γ} (hr : List.Forall₂ R xs ys)
    (hs : List.Forall₂ S xs zs) (ht : ∀ x ∈ xs, ∀ y z, R x y → S x z → T y z) :
    List.Forall₂ T ys zs := by
  induction hr generalizing zs with
  | nil =>
    cases hs
    exact .nil
  | @cons x y xs ys hxy _ ih =>
    cases hs with
    | cons hxz hs =>
      refine .cons (ht x (List.mem_cons_self ..) _ _ hxy hxz) (ih hs fun x' hx' => ?_)
      exact ht x' (List.mem_cons_of_mem _ hx')

/-- Every element has a partner. -/
theorem exists_of_forall₂ {α β : Type} {R : α → β → Prop} {xs : List α} {ys : List β}
    (h : List.Forall₂ R xs ys) {x : α} (hx : x ∈ xs) : ∃ y ∈ ys, R x y := by
  induction h with
  | nil => cases hx
  | @cons x' y xs ys hxy _ ih =>
    rcases List.mem_cons.mp hx with rfl | hx
    · exact ⟨y, List.mem_cons_self .., hxy⟩
    · obtain ⟨y', hy', hr⟩ := ih hx
      exact ⟨y', List.mem_cons_of_mem _ hy', hr⟩
