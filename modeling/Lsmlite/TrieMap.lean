import Lsmlite.Trie
import Mathlib.Data.List.Induction
import Mathlib.Data.List.Nodup
import Mathlib.Data.List.Perm.Subperm

/-!
# The trie as a map

`Labeled`: node `i` stands for a prefix of keys, `labels[i]`. Insertion adds the prefixes that are
missing and `get` follows them. Nodes are numbered with 32 bits and count their children with 8:
`Roomy` is what a set of prefixes needs for that.
-/

namespace Lsmlite
open Bytes

/-! ## The search among the children -/

/-- Children in ascending order. -/
def Ascending (children : List TriePointer) : Prop := children.Pairwise (·.1 < ·.1)

/-- The loop ends at the last child that is not above `c`; there are `k` of these. -/
theorem binarySearchLoop_spec (children : List TriePointer) (c : UInt8) (k : Nat)
    (hle : ∀ i (child : TriePointer), children[i]? = some child → i < k → child.1 ≤ c)
    (hgt : ∀ i (child : TriePointer), children[i]? = some child → k ≤ i → c < child.1) :
    ∀ fuel size base, 0 < size → size ≤ fuel → base ≤ k - 1 → k ≤ base + size →
      base + size ≤ children.length →
      binarySearchLoop children c fuel size base = k - 1 := by
  intro fuel
  induction fuel with
  | zero =>
    intro size base hpos hfuel
    omega
  | succ fuel ih =>
    intro size base hpos hfuel hbase hsize hlen
    rw [binarySearchLoop]
    split
    · have hmid : base + size / 2 < children.length := by omega
      have hget : children[base + size / 2]? = some children[base + size / 2] :=
        List.getElem?_eq_getElem hmid
      simp only [hget]
      split
      · rename_i hlt
        have hkm : k ≤ base + size / 2 := by
          by_contra hcon
          exact absurd hlt (not_lt_of_ge (hle _ _ hget (by omega)))
        exact ih (size - size / 2) base (by omega) (by omega) hbase (by omega) (by omega)
      · rename_i hlt
        have hkm : base + size / 2 < k := by
          by_contra hcon
          exact hlt (hgt _ _ hget (by omega))
        exact ih (size - size / 2) (base + size / 2) (by omega) (by omega) (by omega) (by omega)
          (by omega)
    · omega

theorem binarySearch_found {xs ys : List TriePointer} {c : UInt8} {j : Nat}
    (h : Ascending (xs ++ (c, j) :: ys)) :
    binarySearch (xs ++ (c, j) :: ys) c = .ok xs.length := by
  obtain ⟨_, hys, hxs⟩ := List.pairwise_append.mp h
  have hlen : xs.length + 1 ≤ (xs ++ (c, j) :: ys).length := by
    rw [List.length_append, List.length_cons]
    omega
  have hloop := binarySearchLoop_spec (xs ++ (c, j) :: ys) c (xs.length + 1)
    (fun i child hi hlt => by
      by_cases heq : i < xs.length
      · rw [List.getElem?_append_left heq] at hi
        exact le_of_lt (hxs child (List.mem_of_getElem? hi) (c, j) (List.mem_cons_self ..))
      · obtain rfl : i = xs.length := by omega
        rw [List.getElem?_append_right (Nat.le_refl _), Nat.sub_self] at hi
        cases hi
        exact le_refl _)
    (fun i child hi hle => by
      rw [List.getElem?_append_right (by omega),
        show i - xs.length = (i - xs.length - 1) + 1 by omega, List.getElem?_cons_succ] at hi
      exact (List.pairwise_cons.mp hys).1 child (List.mem_of_getElem? hi))
    _ (xs ++ (c, j) :: ys).length 0 (by omega) (Nat.le_refl _) (by omega) (by omega) (by omega)
  have hget : (xs ++ (c, j) :: ys)[xs.length]? = some (c, j) := by simp
  simp only [binarySearch, hloop, Nat.add_sub_cancel, hget, ↓reduceIte]

theorem binarySearch_missing {xs ys : List TriePointer} {c : UInt8} (hx : ∀ p ∈ xs, p.1 < c)
    (hy : ∀ p ∈ ys, c < p.1) : binarySearch (xs ++ ys) c = .error xs.length := by
  by_cases hnil : xs ++ ys = []
  · rw [hnil]
    obtain ⟨rfl, rfl⟩ := List.append_eq_nil_iff.mp hnil
    rfl
  have hpos : 0 < (xs ++ ys).length := List.length_pos_iff.mpr hnil
  have hloop := binarySearchLoop_spec (xs ++ ys) c xs.length
    (fun i child hi hlt => by
      rw [List.getElem?_append_left hlt] at hi
      exact le_of_lt (hx child (List.mem_of_getElem? hi)))
    (fun i child hi hle => by
      rw [List.getElem?_append_right hle] at hi
      exact hy child (List.mem_of_getElem? hi))
    (xs ++ ys).length (xs ++ ys).length 0 hpos (Nat.le_refl _) (by omega) (by simp) (by simp)
  simp only [binarySearch, hloop]
  by_cases hxs : xs = []
  · subst hxs
    obtain ⟨y, ys, rfl⟩ := List.exists_cons_of_ne_nil (by simpa using hnil)
    have hlt := hy y (List.mem_cons_self ..)
    simp [ne_of_gt hlt, not_lt_of_gt hlt]
  · have hlast : xs.length - 1 < xs.length := by
      have := List.length_pos_iff.mpr hxs
      omega
    have hget : (xs ++ ys)[xs.length - 1]? = some xs[xs.length - 1] := by
      rw [List.getElem?_append_left hlast, List.getElem?_eq_getElem hlast]
    have hlt := hx _ (List.getElem_mem hlast)
    simp only [hget, if_neg (ne_of_lt hlt), if_pos hlt, Except.error.injEq]
    omega

/-- A label is among ascending children, or has a place between them. -/
theorem ascending_split {children : List TriePointer} (h : Ascending children) (c : UInt8) :
    (∃ xs j ys, children = xs ++ (c, j) :: ys) ∨
    ∃ xs ys, children = xs ++ ys ∧ (∀ p ∈ xs, p.1 < c) ∧ ∀ p ∈ ys, c < p.1 := by
  induction children with
  | nil => exact Or.inr ⟨[], [], rfl, by simp, by simp⟩
  | cons p children ih =>
    obtain ⟨hp, hrest⟩ := List.pairwise_cons.mp h
    rcases lt_trichotomy p.1 c with hlt | heq | hgt
    · rcases ih hrest with ⟨xs, j, ys, rfl⟩ | ⟨xs, ys, rfl, hx, hy⟩
      · exact Or.inl ⟨p :: xs, j, ys, rfl⟩
      · refine Or.inr ⟨p :: xs, ys, rfl, fun q hq => ?_, hy⟩
        rcases List.mem_cons.mp hq with rfl | hq
        · exact hlt
        · exact hx q hq
    · exact Or.inl ⟨[], p.2, children, by rw [← heq]; rfl⟩
    · refine Or.inr ⟨[], p :: children, rfl, by simp, fun q hq => ?_⟩
      rcases List.mem_cons.mp hq with rfl | hq
      · exact hgt
      · exact lt_trans hgt (hp q hq)

/-! ## Nodes and prefixes -/

/-- What a node's offset word holds for a key's offset. -/
def offsetWord : Option Nat → Nat
  | none => unmarkedFlag
  | some offset => offset ||| wordEndFlag

/-- The trie of the keys of `m`: node `i` stands for `labels[i]`, all of them prefixes that are
in `all`. -/
structure Trie.Labeled (t : Trie) (all labels : List Blob) (m : Blob → Option Nat) : Prop where
  length : labels.length = t.arena.length
  root : labels[0]? = some []
  nodup : labels.Nodup
  within : labels ⊆ all
  ascending : ∀ node ∈ t.arena, Ascending node.children
  child : ∀ (i : Nat) (node : TrieNode) (label : Blob) (c : UInt8) (j : Nat),
    t.arena[i]? = some node → labels[i]? = some label →
    ((c, j) ∈ node.children ↔ labels[j]? = some (label ++ [c]))
  closed : ∀ (label : Blob) (c : UInt8), label ++ [c] ∈ labels → label ∈ labels
  offset : ∀ (i : Nat) (node : TrieNode) (label : Blob), t.arena[i]? = some node →
    labels[i]? = some label → node.offset = offsetWord (m label)
  below : ∀ (label : Blob) (offset : Nat), m label = some offset → offset < 2 ^ 63
  covered : ∀ (label : Blob), m label ≠ none → label ∈ labels

/-- The prefixes can be numbered with 32 bits and leave room in every node's count of children. -/
structure Roomy (all : List Blob) : Prop where
  nodes : all.length < 2 ^ 32
  children : ∀ label ∈ all, ∃ c : UInt8, label ++ [c] ∉ all

theorem offsetWord_eq_zero {o : Option Nat} : offsetWord o = 0 ↔ o = none := by
  cases o with
  | none => simp [offsetWord]
  | some offset =>
    have hor : wordEndFlag ≤ offset ||| wordEndFlag := Nat.right_le_or
    simp only [offsetWord, reduceCtorEq, iff_false]
    have : 0 < wordEndFlag := by decide
    omega

theorem getOffset_offsetWord {o : Option Nat} (h : ∀ offset, o = some offset → offset < 2 ^ 63)
    (children : List TriePointer) : (TrieNode.mk (offsetWord o) children).getOffset = o := by
  simp only [TrieNode.getOffset, offsetWord_eq_zero]
  cases o with
  | none => rfl
  | some offset =>
    simp only [reduceCtorEq, ↓reduceIte, offsetWord, Option.some.injEq]
    have hlt := h offset rfl
    refine Nat.eq_of_testBit_eq fun i => ?_
    simp only [Nat.testBit_and, Nat.testBit_or, offsetMask, wordEndFlag,
      Nat.testBit_two_pow_sub_one, Nat.testBit_two_pow]
    by_cases hi : i < 63
    · simp [hi, show 63 ≠ i by omega]
    · have hbit : offset.testBit i = false :=
        Nat.testBit_lt_two_pow
          (Nat.lt_of_lt_of_le hlt (Nat.pow_le_pow_right (by decide) (by omega)))
      simp [hi, hbit]

/-- The child of a node for `c`, with the place of a missing one. -/
theorem getChildIdx_cases {node : TrieNode} (h : Ascending node.children) (c : UInt8) :
    (∃ j, (c, j) ∈ node.children ∧ node.getChildIdx c = some (.ok j)) ∨
    ∃ xs ys, node.children = xs ++ ys ∧ (∀ p ∈ xs, p.1 < c) ∧ (∀ p ∈ ys, c < p.1) ∧
      node.getChildIdx c = some (.error xs.length) := by
  rcases ascending_split h c with ⟨xs, j, ys, hxy⟩ | ⟨xs, ys, hxy, hx, hy⟩
  · refine Or.inl ⟨j, by simp [hxy], ?_⟩
    rw [hxy] at h
    simp only [TrieNode.getChildIdx, hxy, binarySearch_found h]
    simp
  · exact Or.inr ⟨xs, ys, hxy, hx, hy, by
      simp only [TrieNode.getChildIdx, hxy, binarySearch_missing hx hy]⟩

namespace Trie

/-- The nodes on the way to a label are there. -/
theorem Labeled.mem_of_append {t : Trie} {all labels : List Blob} {m : Blob → Option Nat}
    (h : t.Labeled all labels m) (label rest : Blob) (hmem : label ++ rest ∈ labels) :
    label ∈ labels := by
  induction rest using List.reverseRecOn with
  | nil => simpa using hmem
  | append_singleton rest c ih =>
    rw [← List.append_assoc] at hmem
    exact ih (h.closed _ _ hmem)

/-- Two nodes of one label are the same. -/
theorem Labeled.unique {t : Trie} {all labels : List Blob} {m : Blob → Option Nat}
    (h : t.Labeled all labels m) {i j : Nat} {label : Blob} (hi : labels[i]? = some label)
    (hj : labels[j]? = some label) : i = j := by
  obtain ⟨hlt, hgi⟩ := List.getElem?_eq_some_iff.mp hi
  obtain ⟨hlt', hgj⟩ := List.getElem?_eq_some_iff.mp hj
  exact (List.Nodup.getElem_inj_iff h.nodup).mp (hgi.trans hgj.symm)

theorem Labeled.node {t : Trie} {all labels : List Blob} {m : Blob → Option Nat}
    (h : t.Labeled all labels m) {i : Nat} {label : Blob} (hi : labels[i]? = some label) :
    ∃ node, t.arena[i]? = some node ∧ node ∈ t.arena := by
  have hlt : i < t.arena.length := h.length ▸ (List.getElem?_eq_some_iff.mp hi).1
  exact ⟨t.arena[i], List.getElem?_eq_getElem hlt, List.getElem_mem hlt⟩

/-- A walk finds what is stored for the label and the key behind it. -/
theorem Labeled.walk {t : Trie} {all labels : List Blob} {m : Blob → Option Nat}
    (h : t.Labeled all labels m) (key : Blob) {i : Nat} {label : Blob}
    (hi : labels[i]? = some label) : t.walk i key = some (m (label ++ key)) := by
  induction key generalizing i label with
  | nil =>
    obtain ⟨node, hnode, _⟩ := h.node hi
    have hoff := h.offset i node label hnode hi
    simp only [Trie.walk, hnode, Option.bind_eq_bind, Option.bind_some, Option.pure_def,
      Option.some.injEq, List.append_nil]
    rw [← getOffset_offsetWord (h.below label) node.children, ← hoff]
  | cons c key ih =>
    obtain ⟨node, hnode, hmem⟩ := h.node hi
    simp only [Trie.walk, hnode, Option.bind_eq_bind, Option.bind_some]
    rcases getChildIdx_cases (h.ascending node hmem) c with ⟨j, hj, hget⟩ |
      ⟨xs, ys, hxy, hx, hy, hget⟩
    · simp only [hget, Option.bind_some]
      have hchild := (h.child i node label c j hnode hi).mp hj
      have := ih hchild
      rwa [List.append_assoc] at this
    · simp only [hget, Option.bind_some, Option.pure_def, Option.some.injEq]
      by_contra hne
      have hcov := h.covered (label ++ c :: key) (Ne.symm hne)
      rw [show label ++ c :: key = (label ++ [c]) ++ key by simp] at hcov
      obtain ⟨j, hj⟩ := List.mem_iff_getElem?.mp (h.mem_of_append _ _ hcov)
      have hmem' := (h.child i node label c j hnode hi).mpr hj
      rw [hxy] at hmem'
      rcases List.mem_append.mp hmem' with hmem' | hmem'
      · exact absurd (hx _ hmem') (lt_irrefl _)
      · exact absurd (hy _ hmem') (lt_irrefl _)

theorem insertIdx_between {α : Type} (xs ys : List α) (a : α) :
    (xs ++ ys).insertIdx xs.length a = xs ++ a :: ys := by
  induction xs with
  | nil => rfl
  | cons x xs ih => simp [List.insertIdx_succ_cons, ih]

/-- The elements of a list that has got one more. -/
theorem getElem?_concat_iff {α : Type} {xs : List α} {x y : α} {j : Nat} :
    (xs ++ [x])[j]? = some y ↔ xs[j]? = some y ∨ (j = xs.length ∧ y = x) := by
  by_cases hj : j < xs.length
  · rw [List.getElem?_append_left hj]
    exact ⟨Or.inl, fun h' => h'.resolve_right fun h'' => by omega⟩
  · rw [List.getElem?_append_right (by omega), List.getElem?_eq_none (by omega : xs.length ≤ j)]
    simp only [List.getElem?_singleton, reduceCtorEq, false_or]
    split
    · simp only [Option.some.injEq]
      exact ⟨fun he => ⟨by omega, he.symm⟩, fun he => he.2.symm⟩
    · simp only [reduceCtorEq, false_iff, not_and]
      exact fun he => absurd he (by omega)

/-- Which element and which label stand where, when element `i` is changed and one is added. -/
theorem set_concat_cases {α β : Type} {xs : List α} {ys : List β} {x x' new : α} {y l : β}
    {i k : Nat} (hlen : ys.length = xs.length) (hi : ys[i]? = some y) {l' : β}
    (hk : ((xs ++ [new]).set i x)[k]? = some x') (hl : (ys ++ [l])[k]? = some l') :
    (k = i ∧ x' = x ∧ l' = y) ∨ (k ≠ i ∧ xs[k]? = some x' ∧ ys[k]? = some l') ∨
      (k = xs.length ∧ x' = new ∧ l' = l) := by
  have hlt : i < ys.length := (List.getElem?_eq_some_iff.mp hi).1
  rw [List.getElem?_set] at hk
  split at hk
  · rename_i hik
    subst hik
    split at hk
    · cases hk
      rw [List.getElem?_append_left hlt, hi] at hl
      cases hl
      exact Or.inl ⟨rfl, rfl, rfl⟩
    · cases hk
  · rename_i hik
    rcases getElem?_concat_iff.mp hk with hk | ⟨rfl, rfl⟩
    · have hkl : k < xs.length := (List.getElem?_eq_some_iff.mp hk).1
      rw [List.getElem?_append_left (hlen ▸ hkl)] at hl
      exact Or.inr (Or.inl ⟨Ne.symm hik, hk, hl⟩)
    · rw [← hlen, List.getElem?_concat_length] at hl
      cases hl
      exact Or.inr (Or.inr ⟨rfl, rfl, rfl⟩)

theorem insertChild_children {node : TrieNode} {xs ys : List TriePointer}
    (hxy : node.children = xs ++ ys) (c : UInt8) (idx : Nat) :
    (node.insertChild xs.length c idx).children = xs ++ (c, idx) :: ys := by
  simp only [TrieNode.insertChild, hxy, insertIdx_between]

theorem ascending_insert {xs ys : List TriePointer} (h : Ascending (xs ++ ys)) {c : UInt8}
    {idx : Nat} (hx : ∀ p ∈ xs, p.1 < c) (hy : ∀ p ∈ ys, c < p.1) :
    Ascending (xs ++ (c, idx) :: ys) := by
  unfold Ascending at h ⊢
  obtain ⟨h1, h2, h3⟩ := List.pairwise_append.mp h
  rw [List.pairwise_append, List.pairwise_cons]
  refine ⟨h1, ⟨hy, h2⟩, fun a ha b hb => ?_⟩
  rcases List.mem_cons.mp hb with rfl | hb
  · exact hx a ha
  · exact h3 a ha b hb

/-- A label for which its node has no child is new. -/
theorem Labeled.missing {t : Trie} {all labels : List Blob} {m : Blob → Option Nat}
    (h : t.Labeled all labels m) {i : Nat} {label : Blob} {c : UInt8} {node : TrieNode}
    {xs ys : List TriePointer} (hi : labels[i]? = some label) (hnode : t.arena[i]? = some node)
    (hxy : node.children = xs ++ ys) (hx : ∀ p ∈ xs, p.1 < c) (hy : ∀ p ∈ ys, c < p.1) :
    label ++ [c] ∉ labels := by
  intro hmem
  obtain ⟨j, hj⟩ := List.mem_iff_getElem?.mp hmem
  have hin := (h.child i node label c j hnode hi).mpr hj
  rw [hxy] at hin
  rcases List.mem_append.mp hin with hin | hin
  · exact absurd (hx _ hin) (lt_irrefl _)
  · exact absurd (hy _ hin) (lt_irrefl _)

/-- A new child of node `i`, for the label behind which nothing was yet. -/
theorem Labeled.grow {t : Trie} {all labels : List Blob} {m : Blob → Option Nat}
    (h : t.Labeled all labels m) {i : Nat} {label : Blob} {c : UInt8} {node : TrieNode}
    {xs ys : List TriePointer} (hi : labels[i]? = some label) (hnode : t.arena[i]? = some node)
    (hxy : node.children = xs ++ ys) (hx : ∀ p ∈ xs, p.1 < c) (hy : ∀ p ∈ ys, c < p.1)
    (hall : label ++ [c] ∈ all) :
    Labeled ⟨(t.arena ++ [TrieNode.default]).set i
        (node.insertChild xs.length c t.arena.length)⟩ all (labels ++ [label ++ [c]]) m := by
  have hchildren := insertChild_children hxy c t.arena.length
  have hasc : Ascending (xs ++ ys) := hxy ▸ h.ascending node (List.mem_of_getElem? hnode)
  have hnew := h.missing hi hnode hxy hx hy
  refine ⟨by simp [h.length], ?_, ?_, ?_, ?_, ?_, ?_, ?_, h.below, ?_⟩
  · exact getElem?_concat_iff.mpr (Or.inl h.root)
  · rw [List.nodup_append]
    refine ⟨h.nodup, List.nodup_singleton _, fun a ha b hb hab => ?_⟩
    rw [List.mem_singleton.mp hb] at hab
    exact hnew (hab ▸ ha)
  · intro l hl
    rcases List.mem_append.mp hl with hl | hl
    · exact h.within hl
    · exact List.mem_singleton.mp hl ▸ hall
  · intro n hn
    rcases List.mem_or_eq_of_mem_set hn with hn | rfl
    · rcases List.mem_append.mp hn with hn | hn
      · exact h.ascending n hn
      · rw [List.mem_singleton.mp hn]
        exact List.Pairwise.nil
    · rw [hchildren]
      exact ascending_insert hasc hx hy
  · intro k n l c' j hk hl
    rw [getElem?_concat_iff, h.length]
    rcases set_concat_cases h.length hi hk hl with ⟨rfl, rfl, rfl⟩ |
      ⟨hki, hk', hl'⟩ | ⟨rfl, rfl, rfl⟩
    · have hold := h.child k node l c' j hnode hi
      rw [hxy] at hold
      rw [hchildren, List.mem_append, List.mem_cons, ← hold, List.mem_append]
      constructor
      · rintro (hin | hin | hin)
        · exact Or.inl (Or.inl hin)
        · cases hin
          exact Or.inr ⟨rfl, rfl⟩
        · exact Or.inl (Or.inr hin)
      · rintro ((hin | hin) | ⟨rfl, hl'⟩)
        · exact Or.inl hin
        · exact Or.inr (Or.inr hin)
        · obtain rfl : c' = c := by simpa using hl'
          exact Or.inr (Or.inl rfl)
    · rw [h.child k n l c' j hk' hl']
      refine ⟨Or.inl, fun h' => h'.resolve_right ?_⟩
      rintro ⟨_, hsame⟩
      obtain ⟨rfl, _⟩ := List.append_inj' hsame rfl
      exact hki (h.unique hl' hi)
    · simp only [TrieNode.default, List.not_mem_nil, false_iff, not_or, not_and]
      refine ⟨fun hj => hnew (h.closed _ _ (List.mem_of_getElem? hj)), fun _ hl' => ?_⟩
      have := congrArg List.length hl'
      simp at this
  · intro l c' hl
    rcases List.mem_append.mp hl with hl | hl
    · exact List.mem_append_left _ (h.closed l c' hl)
    · obtain ⟨rfl, _⟩ := List.append_inj' (List.mem_singleton.mp hl) rfl
      exact List.mem_append_left _ (List.mem_of_getElem? hi)
  · intro k n l hk hl
    rcases set_concat_cases h.length hi hk hl with ⟨rfl, rfl, rfl⟩ | ⟨_, hk, hl⟩ | ⟨rfl, rfl, rfl⟩
    · exact h.offset k node l hnode hi
    · exact h.offset k n l hk hl
    · have hnone : m (label ++ [c]) = none := by
        by_contra hne
        exact hnew (h.covered _ hne)
      rw [hnone]
      rfl
  · exact fun l hl => List.mem_append_left _ (h.covered l hl)

theorem Labeled.length_le {t : Trie} {all labels : List Blob} {m : Blob → Option Nat}
    (h : t.Labeled all labels m) : t.arena.length ≤ all.length := by
  rw [← h.length]
  exact (List.subperm_of_subset h.nodup h.within).length_le

/-- The node of a prefix and one more byte is found or made, and has its label while 32 bits number
the nodes. -/
theorem Labeled.getOrInsertNode {t : Trie} {all labels : List Blob} {m : Blob → Option Nat}
    (h : t.Labeled all labels m) {i : Nat} {label : Blob} {c : UInt8} (hi : labels[i]? = some label)
    (hall : label ++ [c] ∈ all) :
    ∃ t' j, t.getOrInsertNode i c = some (t', j) ∧ t'.arena.length ≤ all.length ∧
      (t'.arena.length ≤ 2 ^ 32 → ∃ more, t'.Labeled all (labels ++ more) m ∧
        (labels ++ more)[j]? = some (label ++ [c])) := by
  obtain ⟨node, hnode, hmem⟩ := h.node hi
  rcases getChildIdx_cases (h.ascending node hmem) c with ⟨j, hj, hget⟩ |
    ⟨xs, ys, hxy, hx, hy, hget⟩
  · refine ⟨t, j, ?_, h.length_le, fun _ => ⟨[], by simpa using h, ?_⟩⟩
    · simp only [Trie.getOrInsertNode, hnode, hget, Option.bind_eq_bind, Option.bind_some,
        Option.pure_def]
    · simpa using (h.child i node label c j hnode hi).mp hj
  · have hgrow := h.grow hi hnode hxy hx hy hall
    have hlength := hgrow.length_le
    refine ⟨⟨(t.arena ++ [TrieNode.default]).set i
      (node.insertChild xs.length c (t.arena.length % 2 ^ 32))⟩, t.arena.length, ?_, ?_,
      fun hlen => ⟨[label ++ [c]], ?_, ?_⟩⟩
    · simp only [Trie.getOrInsertNode, hnode, hget, Option.bind_eq_bind, Option.bind_some,
        Option.pure_def]
    · simpa using hlength
    · have hlt : t.arena.length < 2 ^ 32 := by
        rw [List.length_set, List.length_append, List.length_singleton] at hlen
        omega
      rw [Nat.mod_eq_of_lt hlt]
      exact hgrow
    · rw [← h.length, List.getElem?_concat_length]

theorem Labeled.descend {t : Trie} {all labels : List Blob} {m : Blob → Option Nat}
    (h : t.Labeled all labels m) (hroom : all.length ≤ 2 ^ 32) (key : Blob) {i : Nat} {label : Blob}
    (hi : labels[i]? = some label) (hall : ∀ pre, pre <+: key → label ++ pre ∈ all) :
    ∃ t' more j, t.descend i key = some (t', j) ∧ t'.Labeled all (labels ++ more) m ∧
      (labels ++ more)[j]? = some (label ++ key) := by
  induction key generalizing t labels i label with
  | nil => exact ⟨t, [], i, rfl, by simpa using h, by simpa using hi⟩
  | cons c key ih =>
    obtain ⟨t1, j, hget, hlength, hlabeled⟩ := h.getOrInsertNode hi (hall [c] (by simp))
    obtain ⟨more, h1, hj⟩ := hlabeled (hlength.trans hroom)
    obtain ⟨t2, more', k, hdesc, h2, hk⟩ := ih h1 hj fun pre hpre => by
      have := hall (c :: pre) (by simpa using hpre)
      simpa using this
    refine ⟨t2, more ++ more', k, ?_, by simpa using h2, by simpa using hk⟩
    simp only [Trie.descend, hget, Option.bind_eq_bind, Option.bind_some, hdesc]

/-- Setting the offset of a key's node. -/
theorem Labeled.setOffset {t : Trie} {all labels : List Blob} {m : Blob → Option Nat}
    (h : t.Labeled all labels m) {i : Nat} {key : Blob} {node : TrieNode} {offset : Nat}
    (hi : labels[i]? = some key) (hnode : t.arena[i]? = some node) (hoff : offset < 2 ^ 63) :
    Labeled ⟨t.arena.set i (node.setOffset offset)⟩ all labels
      (Function.update m key (some offset)) := by
  have hcases : ∀ (k : Nat) (n : TrieNode), (t.arena.set i (node.setOffset offset))[k]? = some n →
      (k = i ∧ n = node.setOffset offset) ∨ (k ≠ i ∧ t.arena[k]? = some n) := by
    intro k n hk
    rw [List.getElem?_set] at hk
    split at hk
    · rename_i hik
      split at hk
      · cases hk
        exact Or.inl ⟨hik.symm, rfl⟩
      · cases hk
    · rename_i hik
      exact Or.inr ⟨fun he => hik he.symm, hk⟩
  refine ⟨by simpa using h.length, h.root, h.nodup, h.within, fun n hn => ?_,
    fun k n label c j hk hl => ?_, h.closed, fun k n label hk hl => ?_, fun label o ho => ?_,
    fun label hl => ?_⟩
  · rcases List.mem_or_eq_of_mem_set hn with hn | rfl
    · exact h.ascending n hn
    · exact h.ascending node (List.mem_of_getElem? hnode)
  · rcases hcases k n hk with ⟨rfl, rfl⟩ | ⟨_, hk⟩
    · exact h.child k node label c j hnode hl
    · exact h.child k n label c j hk hl
  · rcases hcases k n hk with ⟨rfl, rfl⟩ | ⟨hki, hk⟩
    · obtain rfl : label = key := Option.some.inj (hl.symm.trans hi)
      rw [Function.update_self]
      rfl
    · have hne : label ≠ key := fun he => hki (h.unique (he ▸ hl) hi)
      rw [Function.update_of_ne hne]
      exact h.offset k n label hk hl
  · by_cases hlk : label = key
    · subst hlk
      rw [Function.update_self] at ho
      cases ho
      exact hoff
    · rw [Function.update_of_ne hlk] at ho
      exact h.below label o ho
  · by_cases hlk : label = key
    · exact hlk ▸ List.mem_of_getElem? hi
    · rw [Function.update_of_ne hlk] at hl
      exact h.covered label hl

/-- The trie stores `m`. -/
def Maps (t : Trie) (all : List Blob) (m : Blob → Option Nat) : Prop :=
  (t.arena = [] ∧ ∀ key, m key = none) ∨ ∃ labels, t.Labeled all labels m

theorem maps_new (all : List Blob) : Trie.new.Maps all fun _ => none := Or.inl ⟨rfl, fun _ => rfl⟩

/-- `get` reads the map. -/
theorem Maps.get {t : Trie} {all : List Blob} {m : Blob → Option Nat} (h : t.Maps all m)
    (key : Blob) : t.get key = some (m key) := by
  rcases h with ⟨hnil, hm⟩ | ⟨labels, h⟩
  · simp [Trie.get, hnil, hm]
  · have hne : t.arena ≠ [] := by
      have := (List.getElem?_eq_some_iff.mp h.root).1
      rw [h.length] at this
      exact List.length_pos_iff.mp this
    rw [Trie.get, if_neg hne]
    exact h.walk key h.root

/-- The root is there before the first key. -/
theorem Maps.start {t : Trie} {all : List Blob} {m : Blob → Option Nat} (h : t.Maps all m)
    (hall : [] ∈ all) :
    ∃ labels, Labeled (if t.arena = [] then ⟨[TrieNode.default]⟩ else t) all labels m := by
  rcases h with ⟨hnil, hm⟩ | ⟨labels, h⟩
  · refine ⟨[[]], ?_⟩
    rw [if_pos hnil]
    refine ⟨rfl, rfl, List.nodup_singleton _, ?_, ?_, ?_, ?_, ?_, ?_, ?_⟩
    · simpa using hall
    · intro node hnode
      rw [List.mem_singleton.mp hnode]
      exact List.Pairwise.nil
    · intro i node label c j hi hl
      have hnode := List.mem_singleton.mp (List.mem_of_getElem? hi)
      simp only [hnode, TrieNode.default, List.not_mem_nil, false_iff]
      intro hj
      have := List.mem_singleton.mp (List.mem_of_getElem? hj)
      simp at this
    · simp
    · intro i node label hi _
      rw [List.mem_singleton.mp (List.mem_of_getElem? hi), hm]
      rfl
    · exact fun label offset ho => by rw [hm] at ho; cases ho
    · exact fun label ho => absurd (hm label) ho
  · refine ⟨labels, ?_⟩
    have hne : t.arena ≠ [] := by
      have := (List.getElem?_eq_some_iff.mp h.root).1
      rw [h.length] at this
      exact List.length_pos_iff.mp this
    rwa [if_neg hne]

/-- `insert` updates the map. -/
theorem Maps.insert {t : Trie} {all : List Blob} {m : Blob → Option Nat} (h : t.Maps all m)
    (hroom : all.length ≤ 2 ^ 32) {key : Blob} (hall : ∀ pre, pre <+: key → pre ∈ all)
    {offset : Nat} (hoff : offset < 2 ^ 63) :
    ∃ t', t.insert key offset = some t' ∧ t'.Maps all (Function.update m key (some offset)) := by
  obtain ⟨labels, h0⟩ := h.start (hall [] List.nil_prefix)
  obtain ⟨t1, more, j, hdesc, h1, hj⟩ := h0.descend hroom key h0.root (by simpa using hall)
  rw [List.nil_append] at hj
  obtain ⟨node, hnode, _⟩ := h1.node hj
  refine ⟨_, ?_, Or.inr ⟨_, h1.setOffset hj hnode hoff⟩⟩
  simp only [Trie.insert, hdesc, hnode, Option.bind_eq_bind, Option.bind_some, Option.pure_def]

end Trie

end Lsmlite
