import Mathlib.Data.List.Induction
import Mathlib.Order.Lattice
import Mathlib.Tactic.Common

/-!
# Lists of writes

A list of key-value pairs, oldest first, read as a map: the last pair of a key decides. Sorted
lists hold one pair for each key.
-/

namespace KeyValue

variable {K V : Type} [LinearOrder K]

/-- What the last pair with key `k` holds. -/
def last (k : K) : List (K × V) → Option V
  | [] => none
  | w :: ws => (last k ws).or (if k = w.1 then some w.2 else none)

/-- What the first pair with key `k` holds. -/
def first (k : K) : List (K × V) → Option V
  | [] => none
  | w :: ws => if k = w.1 then some w.2 else first k ws

@[simp] theorem last_nil (k : K) : last k ([] : List (K × V)) = none := rfl

theorem last_cons (k : K) (w : K × V) (ws : List (K × V)) :
    last k (w :: ws) = (last k ws).or (if k = w.1 then some w.2 else none) := rfl

/-- The later part decides where it has the key. -/
theorem last_append (k : K) (xs ys : List (K × V)) :
    last k (xs ++ ys) = (last k ys).or (last k xs) := by
  induction xs with
  | nil => simp
  | cons w xs ih => rw [List.cons_append, last_cons, last_cons, ih, Option.or_assoc]

theorem last_snoc (k : K) (xs : List (K × V)) (w : K × V) :
    last k (xs ++ [w]) = if k = w.1 then some w.2 else last k xs := by
  rw [last_append, last_cons, last_nil, Option.none_or]
  split <;> simp

theorem last_eq_none_iff {k : K} {ws : List (K × V)} :
    last k ws = none ↔ ∀ w ∈ ws, w.1 ≠ k := by
  induction ws with
  | nil => simp
  | cons w ws ih =>
    rw [last_cons, Option.or_eq_none_iff, ih, List.forall_mem_cons, and_comm]
    refine and_congr_left fun _ => ?_
    rw [ite_eq_right_iff]
    exact ⟨fun h hk => absurd (h hk.symm) (by simp), fun h hk => absurd hk.symm h⟩

theorem first_snoc (k : K) (xs : List (K × V)) (w : K × V) :
    first k (xs ++ [w]) = (first k xs).or (if k = w.1 then some w.2 else none) := by
  induction xs with
  | nil => simp [first]
  | cons x xs ih =>
    rw [List.cons_append, first, first, ih]
    split <;> simp

theorem first_eq_none_iff {k : K} {ws : List (K × V)} : first k ws = none ↔ last k ws = none := by
  rw [last_eq_none_iff]
  induction ws with
  | nil => simp [first]
  | cons w ws ih =>
    rw [first, List.forall_mem_cons, ← ih]
    by_cases hk : k = w.1
    · rw [if_pos hk]
      exact ⟨fun h => absurd h (by simp), fun h => absurd hk.symm h.1⟩
    · rw [if_neg hk]
      exact ⟨fun h => ⟨Ne.symm hk, h⟩, fun h => h.2⟩

theorem mem_of_first {k : K} {v : V} {ws : List (K × V)} (h : first k ws = some v) :
    (k, v) ∈ ws := by
  induction ws with
  | nil => cases h
  | cons w ws ih =>
    rw [first] at h
    split at h
    · rename_i hk
      cases h
      rw [hk]
      exact List.mem_cons_self ..
    · exact List.mem_cons_of_mem _ (ih h)

theorem mem_of_last {k : K} {v : V} {ws : List (K × V)} (h : last k ws = some v) :
    (k, v) ∈ ws := by
  induction ws with
  | nil => cases h
  | cons w ws ih =>
    rw [last_cons, Option.or_eq_some_iff] at h
    rcases h with h | ⟨_, h⟩
    · exact List.mem_cons_of_mem _ (ih h)
    · split at h
      · rename_i hk
        cases h
        rw [hk]
        exact List.mem_cons_self ..
      · cases h

/-- What is left out has other keys. -/
theorem last_filter {k : K} {p : K × V → Bool} {ws : List (K × V)}
    (h : ∀ w ∈ ws, w.1 = k → p w = true) :
    last k (ws.filter p) = last k ws := by
  induction ws with
  | nil => rfl
  | cons w ws ih =>
    have ih := ih fun v hv => h v (List.mem_cons_of_mem _ hv)
    by_cases hw : p w = true
    · rw [List.filter_cons_of_pos hw, last_cons, last_cons, ih]
    · have hk : k ≠ w.1 := fun hk => hw (h w (List.mem_cons_self ..) hk.symm)
      rw [List.filter_cons_of_neg hw, last_cons, ih, if_neg hk, Option.or_none]

/-- Strictly ascending keys. -/
def Sorted (m : List (K × V)) : Prop := m.Pairwise (·.1 < ·.1)

/-- The sorted list with `v` under `k`. -/
def insert (k : K) (v : V) : List (K × V) → List (K × V)
  | [] => [(k, v)]
  | w :: m =>
    if k < w.1 then (k, v) :: w :: m
    else if k = w.1 then (k, v) :: m
    else w :: insert k v m

theorem last_of_mem {k : K} {v : V} {m : List (K × V)} (hs : Sorted m) (h : (k, v) ∈ m) :
    last k m = some v := by
  induction m with
  | nil => cases h
  | cons w m ih =>
    obtain ⟨hw, hm⟩ := List.pairwise_cons.mp hs
    rcases List.mem_cons.mp h with rfl | h
    · rw [last_cons, last_eq_none_iff.mpr fun w' hw' => ne_of_gt (hw w' hw')]
      simp
    · rw [last_cons, ih hm h, Option.some_or]

/-- A sorted list is what is in it. -/
theorem sorted_mem_ext {m m' : List (K × V)} (hs : Sorted m) (hs' : Sorted m')
    (h : ∀ w, w ∈ m ↔ w ∈ m') : m = m' := by
  have hnodup : m.Nodup :=
    List.Pairwise.imp (fun hlt heq => ne_of_lt hlt (congrArg Prod.fst heq)) hs
  have hnodup' : m'.Nodup :=
    List.Pairwise.imp (fun hlt heq => ne_of_lt hlt (congrArg Prod.fst heq)) hs'
  have hperm := (List.perm_ext_iff_of_nodup hnodup hnodup').mpr h
  exact hperm.eq_of_pairwise (fun _ _ _ _ hab hba => absurd hab hba.asymm) hs hs'

/-- A sorted list is what it has for the keys. -/
theorem sorted_ext {m m' : List (K × V)} (hs : Sorted m) (hs' : Sorted m')
    (h : ∀ k, last k m = last k m') : m = m' := by
  apply sorted_mem_ext hs hs'
  intro w
  constructor
  · intro hw
    exact mem_of_last (h w.1 ▸ last_of_mem hs hw)
  · intro hw
    exact mem_of_last (h w.1 ▸ last_of_mem hs' hw)

theorem first_eq_last {m : List (K × V)} (hs : Sorted m) (k : K) : first k m = last k m := by
  induction m with
  | nil => rfl
  | cons w m ih =>
    obtain ⟨hw, hm⟩ := List.pairwise_cons.mp hs
    rw [first, last_cons, ih hm]
    by_cases hk : k = w.1
    · subst hk
      rw [last_eq_none_iff.mpr fun w' hw' => ne_of_gt (hw w' hw'), Option.none_or]
    · rw [if_neg hk, if_neg hk, Option.or_none]

/-- Keys that occur once are found in any order. -/
theorem last_perm {m m' : List (K × V)} (hs : Sorted m) (h : m'.Perm m) (k : K) :
    last k m' = last k m := by
  cases hk : last k m' with
  | none =>
    symm
    rw [last_eq_none_iff] at hk ⊢
    exact fun w hw => hk w (h.mem_iff.mpr hw)
  | some v => exact (last_of_mem hs (h.mem_iff.mp (mem_of_last hk))).symm

theorem mem_insert {k : K} {v : V} {m : List (K × V)} {w : K × V} (h : w ∈ insert k v m) :
    w = (k, v) ∨ w ∈ m := by
  induction m with
  | nil => simpa [insert] using h
  | cons w' m ih =>
    rw [insert] at h
    split at h
    · simpa using h
    · split at h
      · rcases List.mem_cons.mp h with h | h
        · exact Or.inl h
        · exact Or.inr (List.mem_cons_of_mem _ h)
      · rcases List.mem_cons.mp h with h | h
        · exact Or.inr (h ▸ List.mem_cons_self ..)
        · exact (ih h).imp_right (List.mem_cons_of_mem _)

theorem sorted_insert {m : List (K × V)} (hs : Sorted m) (k : K) (v : V) :
    Sorted (insert k v m) := by
  induction m with
  | nil => exact List.pairwise_singleton _ _
  | cons w m ih =>
    obtain ⟨hw, hm⟩ := List.pairwise_cons.mp hs
    rw [insert]
    split
    · rename_i hk
      refine List.pairwise_cons.mpr ⟨fun w' hw' => ?_, hs⟩
      rcases List.mem_cons.mp hw' with rfl | hw'
      · exact hk
      · exact lt_trans hk (hw w' hw')
    · split
      · rename_i hk
        exact List.pairwise_cons.mpr ⟨fun w' hw' => by rw [hk]; exact hw w' hw', hm⟩
      · rename_i hnlt hne
        refine List.pairwise_cons.mpr ⟨fun w' hw' => ?_, ih hm⟩
        rcases mem_insert hw' with rfl | hw'
        · exact lt_of_le_of_ne (le_of_not_gt hnlt) (Ne.symm hne)
        · exact hw w' hw'

theorem last_insert {m : List (K × V)} (hs : Sorted m) (k k' : K) (v : V) :
    last k' (insert k v m) = if k' = k then some v else last k' m := by
  induction m with
  | nil => simp [insert, last_cons]
  | cons w m ih =>
    obtain ⟨hw, hm⟩ := List.pairwise_cons.mp hs
    rw [insert]
    split
    · rename_i hk
      rw [last_cons]
      by_cases hkk : k' = k
      · subst hkk
        rw [last_eq_none_iff.mpr]
        · simp
        · intro w' hw'
          rcases List.mem_cons.mp hw' with rfl | hw'
          · exact ne_of_gt hk
          · exact ne_of_gt (lt_trans hk (hw w' hw'))
      · simp [hkk]
    · split
      · rename_i hk
        rw [last_cons, last_cons]
        by_cases hkk : k' = k
        · subst hkk
          rw [last_eq_none_iff.mpr fun w' hw' => ne_of_gt (hk ▸ hw w' hw')]
          simp
        · simp [hkk, show k' ≠ w.1 from fun h => hkk (h.trans hk.symm)]
      · rename_i hne
        rw [last_cons, last_cons, ih hm]
        by_cases hkk : k' = k
        · subst hkk
          simp
        · simp [hkk]

/-- Where the keys of `xs` lie before `k` and those of `ys` behind it. -/
theorem insert_between {xs ys : List (K × V)} {k : K} (v : V) (hx : ∀ w ∈ xs, w.1 < k)
    (hy : ∀ w ∈ ys, k < w.1) : insert k v (xs ++ ys) = xs ++ (k, v) :: ys := by
  induction xs with
  | nil =>
    cases ys with
    | nil => rfl
    | cons w ys =>
      rw [List.nil_append, insert, if_pos (hy w (List.mem_cons_self ..)), List.nil_append]
  | cons w xs ih =>
    have hw := hx w (List.mem_cons_self ..)
    rw [List.cons_append, insert, if_neg (not_lt_of_gt hw), if_neg (ne_of_gt hw),
      ih fun w' hw' => hx w' (List.mem_cons_of_mem _ hw')]
    rfl

/-- Where the list has `k` already. -/
theorem insert_at {xs ys : List (K × V)} {k : K} (v v' : V) (hx : ∀ w ∈ xs, w.1 < k) :
    insert k v (xs ++ (k, v') :: ys) = xs ++ (k, v) :: ys := by
  induction xs with
  | nil => simp [insert]
  | cons w xs ih =>
    have hw := hx w (List.mem_cons_self ..)
    rw [List.cons_append, insert, if_neg (not_lt_of_gt hw), if_neg (ne_of_gt hw),
      ih fun w' hw' => hx w' (List.mem_cons_of_mem _ hw')]
    rfl

/-- The map that writes from the oldest to the newest make. -/
def ofWrites (ws : List (K × V)) : List (K × V) := ws.foldl (fun m w => insert w.1 w.2 m) []

@[simp] theorem ofWrites_nil : ofWrites ([] : List (K × V)) = [] := rfl

theorem ofWrites_snoc (ws : List (K × V)) (w : K × V) :
    ofWrites (ws ++ [w]) = insert w.1 w.2 (ofWrites ws) := by
  simp [ofWrites]

theorem sorted_ofWrites (ws : List (K × V)) : Sorted (ofWrites ws) := by
  induction ws using List.reverseRecOn with
  | nil => exact List.Pairwise.nil
  | append_singleton ws w ih =>
    rw [ofWrites_snoc]
    exact sorted_insert ih w.1 w.2

theorem last_ofWrites (k : K) (ws : List (K × V)) : last k (ofWrites ws) = last k ws := by
  induction ws using List.reverseRecOn with
  | nil => rfl
  | append_singleton ws w ih =>
    rw [ofWrites_snoc, last_insert (sorted_ofWrites ws), last_snoc, ih]

end KeyValue
