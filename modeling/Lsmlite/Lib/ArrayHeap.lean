import Mathlib.Tactic.Common
import Mathlib.Data.List.Perm.Basic

/-!
# Array heaps

A binary max-heap in a list, with the moves of `std::collections::BinaryHeap`: `push` sifts the
new last element up, `pop` puts the last element at the root, moves the hole it leaves down to
the bottom along the greater children, and sifts up from there. Elements are compared by `le`
alone, so which of two level elements comes out first is up to the shape.

* `push_perm`, `pop_perm`: nothing is lost or made up;
* `push_heap`, `pop_heap`: the order is kept;
* `pop_max`: what comes out is at or above everything else;
* `push_head`: of two level elements the older one stays at the root.
-/

namespace ArrayHeap

variable {α : Type}

/-- Moves the hole at `pos` up while `x` is above its parent, then fills it. -/
def siftUp (le : α → α → Bool) (x : α) : Nat → List α → Nat → List α
  | 0, data, pos => data.set pos x
  | fuel + 1, data, pos =>
    if pos = 0 then data.set pos x
    else
      let parent := (pos - 1) / 2
      if le x (data.getD parent x) then data.set pos x
      else siftUp le x fuel (data.set pos (data.getD parent x)) parent

/-- Moves the hole at `pos` down to the bottom along the greater children. -/
def sinkHole (le : α → α → Bool) (x : α) : Nat → List α → Nat → List α × Nat
  | 0, data, pos => (data, pos)
  | fuel + 1, data, pos =>
    let child := 2 * pos + 1
    if child + 2 ≤ data.length then
      let child := if le (data.getD child x) (data.getD (child + 1) x) then child + 1 else child
      sinkHole le x fuel (data.set pos (data.getD child x)) child
    else if child + 1 = data.length then (data.set pos (data.getD child x), child)
    else (data, pos)

def push (le : α → α → Bool) (data : List α) (x : α) : List α :=
  siftUp le x data.length (data ++ [x]) data.length

def siftDownToBottom (le : α → α → Bool) (x : α) (data : List α) : List α :=
  let (data, pos) := sinkHole le x data.length data 0
  siftUp le x data.length data pos

def pop (le : α → α → Bool) (data : List α) : Option (α × List α) :=
  match data.getLast?, data.dropLast with
  | none, _ => none
  | some item, [] => some (item, [])
  | some item, root :: rest => some (root, siftDownToBottom le item (item :: rest))

/-! ## Nothing is lost -/

variable (le : α → α → Bool)

/-- Moving a neighbour into the hole moves the hole. -/
theorem move_perm {data : List α} {x y : α} {i j : Nat} (hi : i < data.length)
    (hj : j < data.length) (hij : i ≠ j) (hy : data[j]? = some y) :
    ((data.set i y).set j x).Perm (data.set i x) := by
  have hj' : j < (data.set i x).length := by rwa [List.length_set]
  have hi' : i < (data.set i x).length := by rwa [List.length_set]
  have hswap := List.set_set_perm hi' hj'
  obtain ⟨_, rfl⟩ := List.getElem?_eq_some_iff.mp hy
  rw [List.getElem_set_self, List.getElem_set_ne hij, List.set_set] at hswap
  exact hswap

theorem getElem?_getD {data : List α} {i : Nat} (h : i < data.length) (x : α) :
    data[i]? = some (data.getD i x) := by
  rw [List.getD_eq_getElem?_getD, List.getElem?_eq_getElem h]
  rfl

theorem siftUp_perm (x : α) (fuel : Nat) {data : List α} {pos : Nat} (hpos : pos < data.length) :
    (siftUp le x fuel data pos).Perm (data.set pos x) := by
  induction fuel generalizing data pos with
  | zero => exact List.Perm.refl _
  | succ fuel ih =>
    rw [siftUp]
    split
    · exact List.Perm.refl _
    · dsimp only
      split
      · exact List.Perm.refl _
      · have hparent : (pos - 1) / 2 < data.length := by omega
        exact (ih (by rwa [List.length_set])).trans
          (move_perm hpos hparent (by omega) (getElem?_getD hparent x))

theorem sinkHole_perm (x : α) (fuel : Nat) {data : List α} {pos : Nat} (hpos : pos < data.length) :
    (sinkHole le x fuel data pos).2 < (sinkHole le x fuel data pos).1.length ∧
      ((sinkHole le x fuel data pos).1.set (sinkHole le x fuel data pos).2 x).Perm
        (data.set pos x) := by
  induction fuel generalizing data pos with
  | zero => exact ⟨hpos, List.Perm.refl _⟩
  | succ fuel ih =>
    have hmove : ∀ child, pos < child → child < data.length →
        ((data.set pos (data.getD child x)).set child x).Perm (data.set pos x) :=
      fun child hlt hchild => move_perm hpos hchild (by omega) (getElem?_getD hchild x)
    rw [sinkHole]
    split
    · obtain ⟨child, hchild⟩ : ∃ child, child =
        if le (data.getD (2 * pos + 1) x) (data.getD (2 * pos + 1 + 1) x) then 2 * pos + 1 + 1
        else 2 * pos + 1 := ⟨_, rfl⟩
      have hbounds : pos < child ∧ child < data.length := by
        rw [hchild]
        split <;> omega
      simp only [← hchild]
      have hset : child < (data.set pos (data.getD child x)).length := by
        rw [List.length_set]
        exact hbounds.2
      obtain ⟨hlt, hperm⟩ := ih hset
      exact ⟨hlt, hperm.trans (hmove child hbounds.1 hbounds.2)⟩
    · split
      · exact ⟨by rw [List.length_set]; omega, hmove _ (by omega) (by omega)⟩
      · exact ⟨hpos, List.Perm.refl _⟩

theorem push_perm (data : List α) (x : α) : (push le data x).Perm (x :: data) := by
  have hlast : data.length < (data ++ [x]).length := by simp
  refine (siftUp_perm le x data.length hlast).trans ?_
  rw [List.set_append_right _ _ (Nat.le_refl _), Nat.sub_self]
  exact List.perm_append_comm

theorem pop_concat (first item : α) (rest : List α) :
    pop le (first :: rest ++ [item]) = some (first, siftDownToBottom le item (item :: rest)) := by
  rw [pop, List.getLast?_concat, List.dropLast_concat]

/-- What `pop` takes is at the root. -/
theorem pop_cases {data data' : List α} {root : α} (h : pop le data = some (root, data')) :
    data.head? = some root ∧ data.Perm (root :: data') := by
  rcases List.eq_nil_or_concat data with rfl | ⟨init, item, rfl⟩
  · cases h
  rw [List.concat_eq_append] at h ⊢
  cases init with
  | nil =>
    cases h
    exact ⟨rfl, List.Perm.refl _⟩
  | cons first rest =>
    cases (pop_concat le first item rest).symm.trans h
    have hpos : 0 < (item :: rest).length := by simp
    obtain ⟨hlt, hperm⟩ := sinkHole_perm le item (item :: rest).length hpos
    have hsift := (siftUp_perm le item
      (sinkHole le item (item :: rest).length (item :: rest) 0).1.length hlt).trans hperm
    refine ⟨rfl, List.Perm.cons _ ?_⟩
    exact (List.perm_append_comm : (rest ++ [item]).Perm ([item] ++ rest)).trans hsift.symm

theorem pop_eq_none_iff {data : List α} : pop le data = none ↔ data = [] := by
  rcases List.eq_nil_or_concat data with rfl | ⟨init, item, rfl⟩
  · simp [pop]
  · rw [List.concat_eq_append]
    cases init with
    | nil => simp [pop]
    | cons first rest =>
      rw [pop_concat]
      simp

/-! ## The order is kept -/

variable {le}

/-- What stands at `i` is not above what stands at `j`. -/
def Below (le : α → α → Bool) (data : List α) (i j : Nat) : Prop :=
  ∀ a b, data[i]? = some a → data[j]? = some b → le a b = true

/-- No element is above its parent. -/
def IsHeap (le : α → α → Bool) (data : List α) : Prop :=
  ∀ i, 0 < i → Below le data i ((i - 1) / 2)

/-- The order without the element at `pos`. -/
structure HoleHeap (le : α → α → Bool) (data : List α) (pos : Nat) : Prop where
  off : ∀ i, 0 < i → i ≠ pos → (i - 1) / 2 ≠ pos → Below le data i ((i - 1) / 2)
  across : 0 < pos → ∀ i, 0 < i → (i - 1) / 2 = pos → Below le data i ((pos - 1) / 2)

theorem below_set_ne {data : List α} {pos i j : Nat} {x : α} (hi : i ≠ pos) (hj : j ≠ pos) :
    Below le (data.set pos x) i j ↔ Below le data i j := by
  simp only [Below, List.getElem?_set_ne hi.symm, List.getElem?_set_ne hj.symm]

theorem below_set_left {data : List α} {pos j : Nat} {x : α} (hj : j ≠ pos)
    (h : ∀ b, data[j]? = some b → le x b = true) : Below le (data.set pos x) pos j := by
  intro a b ha hb
  rw [List.getElem?_set_ne hj.symm] at hb
  rw [List.getElem?_set] at ha
  split at ha
  · split at ha
    · cases ha
      exact h b hb
    · cases ha
  · rename_i hne
    exact absurd rfl hne

theorem below_set_right {data : List α} {pos i : Nat} {x : α} (hi : i ≠ pos)
    (h : ∀ a, data[i]? = some a → le a x = true) : Below le (data.set pos x) i pos := by
  intro a b ha hb
  rw [List.getElem?_set_ne hi.symm] at ha
  rw [List.getElem?_set] at hb
  split at hb
  · split at hb
    · cases hb
      exact h a ha
    · cases hb
  · rename_i hne
    exact absurd rfl hne

/-- The hole filled with something between its parent and its children. -/
theorem HoleHeap.fill {data : List α} {pos : Nat} {x : α} (h : HoleHeap le data pos)
    (hx : ∀ i a, 0 < i → (i - 1) / 2 = pos → data[i]? = some a → le a x = true)
    (hparent : 0 < pos → ∀ b, data[(pos - 1) / 2]? = some b → le x b = true) :
    IsHeap le (data.set pos x) := by
  intro i hi
  by_cases hip : i = pos
  · subst hip
    exact below_set_left (by omega) fun b hb => hparent hi b hb
  · by_cases hpp : (i - 1) / 2 = pos
    · rw [hpp]
      exact below_set_right hip fun a ha => hx i a hi hpp ha
    · exact (below_set_ne hip hpp).mpr (h.off i hi hip hpp)

section
variable (total : ∀ a b, le a b = true ∨ le b a = true)
  (trans : ∀ a b c, le a b = true → le b c = true → le a c = true)
include total trans

/-- Sifting `x` up from a hole whose children are not above it. -/
theorem siftUp_heap {x : α} {fuel : Nat} {data : List α} {pos : Nat} (hpos : pos < data.length)
    (hfuel : pos ≤ fuel) (h : HoleHeap le data pos)
    (hx : ∀ i a, 0 < i → (i - 1) / 2 = pos → data[i]? = some a → le a x = true) :
    IsHeap le (siftUp le x fuel data pos) := by
  induction fuel generalizing data pos with
  | zero => exact h.fill hx fun hp => by omega
  | succ fuel ih =>
    rw [siftUp]
    split
    · exact h.fill hx fun hp => by omega
    · have hplt : (pos - 1) / 2 < data.length := by omega
      have hget := getElem?_getD hplt x
      dsimp only
      split
      · rename_i hle
        refine h.fill hx fun _ b hb => ?_
        rw [hget] at hb
        cases hb
        exact hle
      · rename_i hnle
        have hle : le (data.getD ((pos - 1) / 2) x) x = true := (total _ _).resolve_right hnle
        -- The parent's other child is not above the parent.
        have hsibling : ∀ i, 0 < i → i ≠ pos → (i - 1) / 2 = (pos - 1) / 2 →
            Below le data i ((pos - 1) / 2) := by
          intro i hi hip hpp
          rw [← hpp]
          exact h.off i hi hip (by omega)
        refine ih (by rwa [List.length_set]) (by omega) ⟨?_, ?_⟩ ?_
        · intro i hi hip hpp
          by_cases hi' : i = pos
          · exact absurd (by rw [hi']) hpp
          · by_cases hpp' : (i - 1) / 2 = pos
            · rw [hpp']
              exact below_set_right hi' fun a ha => h.across (by omega) i hi hpp' a _ ha hget
            · exact (below_set_ne hi' hpp').mpr (h.off i hi hi' hpp')
        · intro hp i hi hpp
          have hup := h.off ((pos - 1) / 2) hp (by omega) (by omega)
          by_cases hi' : i = pos
          · subst hi'
            exact below_set_left (by omega) fun b hb => hup _ b hget hb
          · refine (below_set_ne hi' (by omega)).mpr fun a b ha hb => ?_
            exact trans _ _ _ (hsibling i hi hi' hpp a _ ha hget) (hup _ b hget hb)
        · intro i a hi hpp ha
          by_cases hi' : i = pos
          · subst hi'
            rw [List.getElem?_set_self hpos] at ha
            cases ha
            exact hle
          · rw [List.getElem?_set_ne (Ne.symm hi')] at ha
            exact trans _ _ _ (hsibling i hi hi' hpp a _ ha hget) hle

omit trans in
/-- The hole sinks to a place without children. -/
theorem sinkHole_heap {x : α} {fuel : Nat} {data : List α} {pos : Nat} (hpos : pos < data.length)
    (hfuel : data.length ≤ pos + fuel) (h : HoleHeap le data pos) :
    HoleHeap le (sinkHole le x fuel data pos).1 (sinkHole le x fuel data pos).2 ∧
      (sinkHole le x fuel data pos).1.length ≤ 2 * (sinkHole le x fuel data pos).2 + 1 := by
  -- One move, to the child above the other one.
  have hmove : ∀ {data : List α} {pos child : Nat}, HoleHeap le data pos → 0 < child →
      (child - 1) / 2 = pos → child < data.length →
      (∀ i, 0 < i → i ≠ child → (i - 1) / 2 = pos → Below le data i child) →
      HoleHeap le (data.set pos (data.getD child x)) child := by
    intro data pos child h hc hcp hclt hother
    have hget := getElem?_getD hclt x
    refine ⟨fun i hi hic hpc => ?_, fun _ i hi hpc => ?_⟩
    · by_cases hip : i = pos
      · subst hip
        exact below_set_left (by omega) fun b hb => h.across hi child hc hcp _ b hget hb
      · by_cases hpp : (i - 1) / 2 = pos
        · rw [hpp]
          exact below_set_right hip fun a ha => hother i hi hic hpp a _ ha hget
        · exact (below_set_ne hip hpp).mpr (h.off i hi hip hpp)
    · rw [hcp]
      refine below_set_right (by omega) fun a ha => ?_
      have hoff := h.off i hi (by omega) (by omega)
      rw [hpc] at hoff
      exact hoff a _ ha hget
  induction fuel generalizing data pos with
  | zero => omega
  | succ fuel ih =>
    rw [sinkHole]
    dsimp only
    split
    · rename_i hroom
      have hl := getElem?_getD (show 2 * pos + 1 < data.length by omega) x
      have hr := getElem?_getD (show 2 * pos + 1 + 1 < data.length by omega) x
      split
      · rename_i hle
        refine ih (by rw [List.length_set]; omega) (by rw [List.length_set]; omega)
          (hmove h (by omega) (by omega) (by omega) fun i hi hic hip a b ha hb => ?_)
        obtain rfl : i = 2 * pos + 1 := by omega
        rw [hl] at ha
        rw [hr] at hb
        cases ha
        cases hb
        exact hle
      · rename_i hnle
        refine ih (by rw [List.length_set]; omega) (by rw [List.length_set]; omega)
          (hmove h (by omega) (by omega) (by omega) fun i hi hic hip a b ha hb => ?_)
        obtain rfl : i = 2 * pos + 1 + 1 := by omega
        rw [hr] at ha
        rw [hl] at hb
        cases ha
        cases hb
        exact (total _ _).resolve_left hnle
    · split
      · rename_i hlast
        refine ⟨hmove h (by omega) (by omega) (by omega) fun i hi hic hip a b ha hb => ?_, by
          rw [List.length_set]
          omega⟩
        have := (List.getElem?_eq_some_iff.mp ha).1
        omega
      · refine ⟨h, ?_⟩
        dsimp only
        omega

theorem push_heap {data : List α} (h : IsHeap le data) (x : α) : IsHeap le (push le data x) := by
  refine siftUp_heap total trans (by simp) (Nat.le_refl _) ⟨?_, ?_⟩ ?_
  · intro i hi hne hpp a b ha hb
    have hlt := (List.getElem?_eq_some_iff.mp ha).1
    rw [List.length_append, List.length_singleton] at hlt
    rw [List.getElem?_append_left (by omega)] at ha hb
    exact h i hi a b ha hb
  · intro hp i hi hpp a b ha hb
    have hlt := (List.getElem?_eq_some_iff.mp ha).1
    rw [List.length_append, List.length_singleton] at hlt
    omega
  · intro i a hi hpp ha
    have hlt := (List.getElem?_eq_some_iff.mp ha).1
    rw [List.length_append, List.length_singleton] at hlt
    omega

theorem pop_heap {data data' : List α} {root : α} (h : IsHeap le data)
    (hpop : pop le data = some (root, data')) : IsHeap le data' := by
  rcases List.eq_nil_or_concat data with rfl | ⟨init, item, rfl⟩
  · cases hpop
  rw [List.concat_eq_append] at h hpop
  cases init with
  | nil =>
    cases hpop
    intro i hi a b ha
    simp at ha
  | cons first rest =>
    cases (pop_concat le first item rest).symm.trans hpop
    have hpos : 0 < (item :: rest).length := by simp
    have hstart : HoleHeap le (item :: rest) 0 := by
      refine ⟨fun i hi hne hpp a b ha hb => ?_, fun hp => absurd hp (Nat.lt_irrefl 0)⟩
      have hlt := (List.getElem?_eq_some_iff.mp ha).1
      have hsame : ∀ j, j ≠ 0 → j < (item :: rest).length →
          (item :: rest)[j]? = (root :: rest ++ [item])[j]? := by
        intro j hj hjlt
        obtain ⟨j, rfl⟩ : ∃ k, j = k + 1 := ⟨j - 1, by omega⟩
        rw [List.length_cons] at hjlt
        rw [List.cons_append, List.getElem?_cons_succ, List.getElem?_cons_succ,
          List.getElem?_append_left (by omega)]
      rw [hsame i (by omega) hlt] at ha
      rw [hsame _ hpp (by omega)] at hb
      exact h i hi a b ha hb
    obtain ⟨hsunk, hleaf⟩ := sinkHole_heap (x := item) total hpos
      (show (item :: rest).length ≤ 0 + (item :: rest).length by omega) hstart
    obtain ⟨hlt, _⟩ := sinkHole_perm le item (item :: rest).length hpos
    generalize hhole : sinkHole le item (item :: rest).length (item :: rest) 0 = hole at *
    have hup :
        siftDownToBottom le item (item :: rest) = siftUp le item hole.1.length hole.1 hole.2 := by
      rw [← hhole]
      rfl
    rw [hup]
    refine siftUp_heap total trans hlt (Nat.le_of_lt hlt) hsunk fun i a hi hpp ha => ?_
    have := (List.getElem?_eq_some_iff.mp ha).1
    omega

/-- Nothing is above the root. -/
theorem heap_root {data : List α} {root : α} (h : IsHeap le data) (hroot : data.head? = some root) :
    ∀ x ∈ data, le x root = true := by
  have hget : data[0]? = some root := by rwa [← List.head?_eq_getElem?]
  have hat : ∀ (i : Nat) (a : α), data[i]? = some a → le a root = true := by
    intro i
    induction i using Nat.strongRecOn with
    | ind i ih =>
      intro a ha
      by_cases hi : i = 0
      · subst hi
        rw [hget] at ha
        cases ha
        exact (total root root).elim id id
      · have hlt := (List.getElem?_eq_some_iff.mp ha).1
        have hparent : data[(i - 1) / 2]? = some data[(i - 1) / 2] :=
          List.getElem?_eq_getElem (by omega)
        exact trans _ _ _ (h i (by omega) a _ ha hparent) (ih _ (by omega) _ hparent)
  intro x hx
  obtain ⟨i, hi⟩ := List.mem_iff_getElem?.mp hx
  exact hat i x hi

theorem pop_max {data data' : List α} {root : α} (h : IsHeap le data)
    (hpop : pop le data = some (root, data')) : ∀ x ∈ data, le x root = true :=
  heap_root total trans h (pop_cases le hpop).1

end

/-! ## What comes to the root -/

/-- Sifting up from below the root leaves the root, or brings `x` there over what it is above. -/
theorem siftUp_head {x root : α} {fuel : Nat} {data : List α} {pos : Nat} (hpos : pos ≠ 0)
    (hroot : data.head? = some root) :
    (siftUp le x fuel data pos).head? = some root ∨
      (siftUp le x fuel data pos).head? = some x ∧ le x root = false := by
  have hset : ∀ {data : List α} {pos : Nat} (y : α), pos ≠ 0 →
      (data.set pos y).head? = data.head? := by
    intro data pos y hne
    rw [List.head?_eq_getElem?, List.head?_eq_getElem?, List.getElem?_set_ne hne]
  induction fuel generalizing data pos with
  | zero => exact Or.inl ((hset x hpos).trans hroot)
  | succ fuel ih =>
    rw [siftUp, if_neg hpos]
    dsimp only
    split
    · exact Or.inl ((hset x hpos).trans hroot)
    · rename_i hnle
      by_cases hparent : (pos - 1) / 2 = 0
      · -- The parent is the root.
        obtain ⟨rest, rfl⟩ : ∃ rest, data = root :: rest := by
          cases data with
          | nil => cases hroot
          | cons first rest => exact ⟨rest, by rw [Option.some.inj hroot]⟩
        obtain ⟨pos, rfl⟩ : ∃ k, pos = k + 1 := ⟨pos - 1, by omega⟩
        rw [hparent] at hnle ⊢
        refine Or.inr ⟨?_, by simpa using hnle⟩
        cases fuel <;> rfl
      · exact ih hparent ((hset _ hpos).trans hroot)

/-- A new element takes the root's place only if it is above it: the older of two level ones
stays. -/
theorem push_head {data : List α} {x root : α} (hroot : data.head? = some root) :
    (push le data x).head? = some root ∨ (push le data x).head? = some x ∧ le x root = false := by
  obtain ⟨rest, rfl⟩ : ∃ rest, data = root :: rest := by
    cases data with
    | nil => cases hroot
    | cons first rest => exact ⟨rest, by rw [Option.some.inj hroot]⟩
  exact siftUp_head (Nat.succ_ne_zero _) rfl

end ArrayHeap
