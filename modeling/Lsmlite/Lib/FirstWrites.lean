import Lsmlite.Lib.KeyValue
import Mathlib.Algebra.Order.BigOperators.Group.Finset

/-!
# The weight of first writes

A list of writes weighs what the first write of each key weighs; the very first write weighs
nothing. Writes that follow others add the weight of their new keys only.
-/

namespace KeyValue

variable {K V : Type} [LinearOrder K]

/-! ## The keys of a list of writes -/

def keys (ws : List (K × V)) : Finset K := (ws.map Prod.fst).toFinset

@[simp] theorem keys_nil : keys ([] : List (K × V)) = ∅ := rfl

theorem mem_keys {k : K} {ws : List (K × V)} : k ∈ keys ws ↔ ∃ w ∈ ws, w.1 = k := by
  simp only [keys, List.mem_toFinset, List.mem_map]

theorem keys_append (xs ys : List (K × V)) : keys (xs ++ ys) = keys xs ∪ keys ys := by
  rw [keys, List.map_append, List.toFinset_append]
  rfl

theorem keys_snoc (ws : List (K × V)) (w : K × V) :
    keys (ws ++ [w]) = Insert.insert w.1 (keys ws) := by
  rw [keys_append, Finset.union_comm, Finset.insert_eq]
  rfl

theorem mem_keys_snoc {k : K} {ws : List (K × V)} {w : K × V} :
    k ∈ keys (ws ++ [w]) ↔ k = w.1 ∨ k ∈ keys ws := by
  rw [keys_snoc, Finset.mem_insert]

theorem card_keys_snoc (ws : List (K × V)) (w : K × V) :
    (keys (ws ++ [w])).card ≤ (keys ws).card + 1 := by
  rw [keys_snoc]
  exact Finset.card_insert_le _ _

theorem card_keys_le_append (xs ys : List (K × V)) : (keys ys).card ≤ (keys (xs ++ ys)).card := by
  rw [keys_append]
  exact Finset.card_le_card Finset.subset_union_right

theorem not_mem_keys {k : K} {ws : List (K × V)} : k ∉ keys ws ↔ last k ws = none := by
  rw [last_eq_none_iff, mem_keys]
  push Not
  rfl

theorem mem_keys_iff {k : K} {ws : List (K × V)} : k ∈ keys ws ↔ (last k ws).isSome := by
  rw [← not_iff_not, not_mem_keys, Option.isSome_iff_ne_none, not_not]

/-- A sorted list has one pair for each key. -/
theorem length_eq_card_keys {m : List (K × V)} (hs : Sorted m) : m.length = (keys m).card := by
  rw [keys, List.toFinset_card_of_nodup, List.length_map]
  rw [List.nodup_iff_pairwise_ne, List.pairwise_map]
  exact hs.imp fun h => ne_of_lt h

theorem keys_ofWrites (ws : List (K × V)) : keys (ofWrites ws) = keys ws := by
  ext k
  rw [mem_keys_iff, mem_keys_iff, last_ofWrites]

theorem length_ofWrites (ws : List (K × V)) : (ofWrites ws).length = (keys ws).card := by
  rw [length_eq_card_keys (sorted_ofWrites ws), keys_ofWrites]

/-! ## Weights -/

theorem first_append (k : K) (xs ys : List (K × V)) :
    first k (xs ++ ys) = (first k xs).or (first k ys) := by
  induction xs with
  | nil => rfl
  | cons x xs ih =>
    rw [List.cons_append, first, first, ih]
    split <;> simp

theorem first_eq_none {k : K} {ws : List (K × V)} (h : k ∉ keys ws) : first k ws = none :=
  first_eq_none_iff.mpr (not_mem_keys.mp h)

theorem first_ne_none {k : K} {ws : List (K × V)} (h : k ∈ keys ws) : first k ws ≠ none :=
  fun hnone => not_mem_keys.mpr (first_eq_none_iff.mp hnone) h

variable (weight : K → V → Nat)

/-- What the first write of `k` weighs; the first write of all weighs nothing. -/
def firstWeight (k : K) (ws : List (K × V)) : Nat :=
  if ws.head?.map Prod.fst = some k then 0 else ((first k ws).map (weight k)).getD 0

def firstsWeight (ws : List (K × V)) : Nat := ∑ k ∈ keys ws, firstWeight weight k ws

@[simp] theorem firstsWeight_nil : firstsWeight weight ([] : List (K × V)) = 0 := rfl

theorem head_ne {k : K} {ws : List (K × V)} (h : k ∉ keys ws) : ws.head?.map Prod.fst ≠ some k := by
  intro hhead
  obtain ⟨w, hw, hk⟩ := Option.map_eq_some_iff.mp hhead
  exact h (mem_keys.mpr ⟨w, List.mem_of_head? hw, hk⟩)

/-- Later writes do not change what an old key weighs. -/
theorem firstWeight_append_of_mem {k : K} {xs : List (K × V)} (ys : List (K × V))
    (h : k ∈ keys xs) :
    firstWeight weight k (xs ++ ys) = firstWeight weight k xs := by
  have hne : xs ≠ [] := by
    rintro rfl
    simp at h
  obtain ⟨v, hv⟩ := Option.ne_none_iff_exists'.mp (first_ne_none h)
  rw [firstWeight, firstWeight, List.head?_append_of_ne_nil _ hne, first_append, hv, Option.some_or]

/-- A new key weighs what its first write does. -/
theorem firstWeight_append_of_not_mem {k : K} {xs : List (K × V)} (ys : List (K × V))
    (hne : xs ≠ []) (h : k ∉ keys xs) :
    firstWeight weight k (xs ++ ys) = ((first k ys).map (weight k)).getD 0 := by
  rw [firstWeight, List.head?_append_of_ne_nil _ hne, if_neg (head_ne h), first_append,
    first_eq_none h, Option.none_or]

theorem firstWeight_le (k : K) (ws : List (K × V)) :
    firstWeight weight k ws ≤ ((first k ws).map (weight k)).getD 0 := by
  unfold firstWeight
  split
  · exact Nat.zero_le _
  · exact Nat.le_refl _

/-- One more write adds its weight if its key is new and it is not the first. -/
theorem firstsWeight_snoc (ws : List (K × V)) (w : K × V) :
    firstsWeight weight (ws ++ [w]) =
      firstsWeight weight ws + if ws = [] ∨ (last w.1 ws).isSome then 0 else weight w.1 w.2 := by
  have hold : ∑ k ∈ keys ws, firstWeight weight k (ws ++ [w]) = firstsWeight weight ws :=
    Finset.sum_congr rfl fun k hk => firstWeight_append_of_mem weight [w] hk
  rw [firstsWeight, keys_snoc]
  by_cases hmem : w.1 ∈ keys ws
  · rw [Finset.insert_eq_of_mem hmem, hold, if_pos (Or.inr (mem_keys_iff.mp hmem)), Nat.add_zero]
  · rw [Finset.sum_insert hmem, hold, Nat.add_comm]
    congr 1
    by_cases hnil : ws = []
    · rw [if_pos (Or.inl hnil), hnil]
      exact if_pos rfl
    · rw [firstWeight_append_of_not_mem weight [w] hnil hmem, if_neg]
      · simp [first]
      · rw [not_or]
        exact ⟨hnil, fun hsome => hmem (mem_keys_iff.mpr hsome)⟩

/-- One more write whose key is old, is not an overwrite or weighs no more than the write it
overwrites keeps every key within its old weight. -/
theorem firstWeight_snoc_le {xs ys : List (K × V)}
    (h : ∀ k ∈ keys ys, k ∈ keys xs → firstWeight weight k ys ≤ firstWeight weight k xs) {w : K × V}
    (hw : ys = [] ∨ w.1 ∉ keys xs ∨ w.1 ∈ keys ys ∨ weight w.1 w.2 ≤ firstWeight weight w.1 xs) :
    ∀ k ∈ keys (ys ++ [w]), k ∈ keys xs →
      firstWeight weight k (ys ++ [w]) ≤ firstWeight weight k xs := by
  intro k hk hold
  by_cases hmem : k ∈ keys ys
  · rw [firstWeight_append_of_mem weight [w] hmem]
    exact h k hmem hold
  · obtain rfl := (mem_keys_snoc.mp hk).resolve_right hmem
    by_cases hnil : ys = []
    · have hroot : firstWeight weight w.1 (ys ++ [w]) = 0 := by
        rw [hnil]
        exact if_pos rfl
      rw [hroot]
      exact Nat.zero_le _
    · rw [firstWeight_append_of_not_mem weight [w] hnil hmem]
      rcases hw with hw | hw | hw | hw
      · exact absurd hw hnil
      · exact absurd hold hw
      · exact absurd hw hmem
      · simpa [first] using hw

/-- Writes weigh no more alone than behind others, if none of them weighs more than the write to
the same key that was there before. -/
theorem firstsWeight_le_append {xs ys : List (K × V)}
    (h : ∀ k ∈ keys ys, k ∈ keys xs → firstWeight weight k ys ≤ firstWeight weight k xs) :
    firstsWeight weight ys ≤ firstsWeight weight (xs ++ ys) := by
  have hsub : keys ys ⊆ keys (xs ++ ys) := by
    rw [keys_append]
    exact Finset.subset_union_right
  refine (Finset.sum_le_sum fun k hk => ?_).trans (Finset.sum_le_sum_of_subset hsub)
  by_cases hmem : k ∈ keys xs
  · rw [firstWeight_append_of_mem weight ys hmem]
    exact h k hk hmem
  · by_cases hnil : xs = []
    · rw [hnil, List.nil_append]
    · rw [firstWeight_append_of_not_mem weight ys hnil hmem]
      exact firstWeight_le weight k ys

end KeyValue
