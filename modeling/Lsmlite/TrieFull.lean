import Lsmlite.IndexCodec

/-!
# A trie node with a child for every byte

The number of children is cast to one byte, so 256 of them are written as none. A trie read back
from such bytes is cut off at the first full node: nothing below it is found.
-/

namespace Lsmlite
open Bytes

namespace Trie

/-! ## Nodes come before their children -/

def Upward (t : Trie) : Prop :=
  ∀ (i : Nat) (node : TrieNode), t.arena[i]? = some node → ∀ p ∈ node.children, i < p.2

theorem upward_new : Trie.new.Upward := by
  intro i node hnode
  cases hnode

/-- What an insertion does to the order of the nodes, while 32 bits number them. -/
structure Grows (t t' : Trie) : Prop where
  length : t.arena.length ≤ t'.arena.length
  upward : t'.arena.length ≤ 2 ^ 32 → t.Upward → t'.Upward

theorem Grows.refl (t : Trie) : t.Grows t := ⟨Nat.le_refl _, fun _ h => h⟩

theorem Grows.trans {a b c : Trie} (h : a.Grows b) (h' : b.Grows c) : a.Grows c where
  length := h.length.trans h'.length
  upward hlen ha := h'.upward hlen (h.upward (h'.length.trans hlen) ha)

theorem getOrInsertNode_grows {t t' : Trie} {i j : Nat} {c : UInt8}
    (h : t.getOrInsertNode i c = some (t', j)) : t.Grows t' := by
  simp only [getOrInsertNode, Option.bind_eq_bind, Option.bind_eq_some_iff] at h
  obtain ⟨node, hnode, found, _, h⟩ := h
  cases found with
  | ok idx =>
    cases h
    exact Grows.refl t
  | error pos =>
    cases h
    have hi := (List.getElem?_eq_some_iff.mp hnode).1
    constructor
    · simp
    · intro hlen hup k n hn p hp
      have hlt : t.arena.length < 2 ^ 32 := by
        rw [List.length_set, List.length_append, List.length_singleton] at hlen
        omega
      rw [Nat.mod_eq_of_lt hlt, List.getElem?_set] at hn
      split at hn
      · rename_i hik
        subst hik
        rw [if_pos (by simp; omega)] at hn
        cases hn
        rcases List.eq_or_mem_of_mem_insertIdx hp with rfl | hp
        · exact hi
        · exact hup i node hnode p hp
      · by_cases hk : k < t.arena.length
        · rw [List.getElem?_append_left hk] at hn
          exact hup k n hn p hp
        · -- The new node has no children.
          have hlast : n = TrieNode.default := by
            have hmem := List.mem_of_getElem? hn
            rcases List.mem_append.mp hmem with hmem | hmem
            · rw [List.getElem?_append_right (by omega)] at hn
              exact List.mem_singleton.mp (List.mem_of_getElem? hn)
            · exact List.mem_singleton.mp hmem
          rw [hlast] at hp
          cases hp

theorem descend_grows {t t' : Trie} {i j : Nat} {key : Blob} (h : t.descend i key = some (t', j)) :
    t.Grows t' := by
  induction key generalizing t i with
  | nil =>
    cases h
    exact Grows.refl _
  | cons c key ih =>
    simp only [descend, Option.bind_eq_bind, Option.bind_eq_some_iff, Prod.exists] at h
    obtain ⟨t1, k, hget, h⟩ := h
    exact (getOrInsertNode_grows hget).trans (ih h)

theorem insert_grows {t t' : Trie} {key : Blob} {offset : Nat} (h : t.insert key offset = some t') :
    t.Grows t' := by
  have hstart : t.Grows (if t.arena = [] then ⟨[TrieNode.default]⟩ else t) := by
    split
    · rename_i hnil
      constructor
      · simp [hnil]
      · intro _ _ i node hnode p hp
        rw [List.mem_singleton.mp (List.mem_of_getElem? hnode)] at hp
        cases hp
    · exact Grows.refl t
  simp only [insert, Option.bind_eq_bind, Option.bind_eq_some_iff, Prod.exists] at h
  obtain ⟨t1, idx, hdesc, node, hnode, h⟩ := h
  cases h
  apply (hstart.trans (descend_grows hdesc)).trans
  constructor
  · simp
  · intro _ hup i n hn p hp
    rw [List.getElem?_set] at hn
    split at hn
    · rename_i hik
      subst hik
      rw [if_pos (List.getElem?_eq_some_iff.mp hnode).1] at hn
      cases hn
      exact hup _ node hnode p hp
    · exact hup i n hn p hp

/-- A label's node is not behind those of the labels that extend it. -/
theorem Labeled.le_of_append {t : Trie} {all labels : List Blob} {m : Blob → Option Nat}
    (h : t.Labeled all labels m) (hup : t.Upward) {rest label : Blob} {i k : Nat}
    (hk : labels[k]? = some label) (hi : labels[i]? = some (label ++ rest)) : k ≤ i := by
  induction rest generalizing k label with
  | nil =>
    rw [List.append_nil] at hi
    exact Nat.le_of_eq (h.unique hk hi)
  | cons c rest ih =>
    have hi' : labels[i]? = some ((label ++ [c]) ++ rest) := by
      rw [hi]
      simp
    obtain ⟨j, hj⟩ := List.mem_iff_getElem?.mp (h.mem_of_append _ _ (List.mem_of_getElem? hi'))
    obtain ⟨node, hnode, _⟩ := h.node hk
    have hlt := hup k node hnode _ ((h.child k node label c j hnode hk).mpr hj)
    have hle := ih hj hi'
    simp only at hlt
    omega

/-- The search at a node finds the child of a longer label. -/
theorem Labeled.getChildIdx {t : Trie} {all labels : List Blob} {m : Blob → Option Nat}
    (h : t.Labeled all labels m) {k : Nat} {label : Blob} {c : UInt8} {node : TrieNode}
    (hk : labels[k]? = some label) (hnode : t.arena[k]? = some node)
    (hmem : label ++ [c] ∈ labels) :
    ∃ j : Nat, node.getChildIdx c = some (.ok j) ∧ labels[j]? = some (label ++ [c]) := by
  rcases getChildIdx_cases (h.ascending node (List.mem_of_getElem? hnode)) c with
    ⟨j, hj, hget⟩ | ⟨xs, ys, hxy, hx, hy, _⟩
  · exact ⟨j, hget, (h.child k node label c j hnode hk).mp hj⟩
  · obtain ⟨j, hj⟩ := List.mem_iff_getElem?.mp hmem
    have hchild := (h.child k node label c j hnode hk).mpr hj
    rw [hxy] at hchild
    rcases List.mem_append.mp hchild with hchild | hchild
    · exact absurd (hx _ hchild) (lt_irrefl _)
    · exact absurd (hy _ hchild) (lt_irrefl _)

/-! ## Reading a full node -/

theorem deserialize_full {n : TrieNode} (hfull : n.children.length = 256) (hoff : n.offset < 2 ^ 64)
    (pre suf : Blob) {offset : Nat} (ho : offset = pre.length) :
    TrieNode.deserializeFromDisk (pre ++ (n.bytes ++ suf)) offset =
      some (⟨n.offset, []⟩, offset + 1 + 8) := by
  have hcat : pre ++ (n.bytes ++ suf) = (pre ++ [UInt8.ofNat n.children.length]) ++
      (toBe 8 n.offset ++ (pointerBytes n.children ++ suf)) := by simp [TrieNode.bytes]
  have hhead : (pre ++ (n.bytes ++ suf))[offset]? = some 0 := by
    simp [TrieNode.bytes, ho, hfull]
  have hslice : slice (pre ++ (n.bytes ++ suf)) (offset + 1) (offset + 1 + 8) =
      some (toBe 8 n.offset) := by
    rw [hcat]
    exact slice_mid _ _ _ (by simp [ho]) (by rw [toBe_length])
  simp only [TrieNode.deserializeFromDisk, hhead, hslice, Option.bind_eq_bind, Option.bind_some,
    fromBe_toBe (show n.offset < 256 ^ 8 from hoff), Option.pure_def]
  rfl

/-- Nodes are read up to the first full one, which comes without its children. -/
theorem readNodes_full {nodes : List TrieNode} (hsized : ∀ n ∈ nodes, n.Sized) {full : TrieNode}
    (hfull : full.children.length = 256) (hoff : full.offset < 2 ^ 64) (suf : Blob) {count : Nat}
    (pre : Blob) {offset : Nat} (ho : offset = pre.length) {read : List TrieNode}
    (h : readNodes (pre ++ (nodes.flatMap TrieNode.bytes ++ (full.bytes ++ suf)))
      (nodes.length + (count + 1)) offset = some read) :
    ∃ more, read = nodes ++ ⟨full.offset, []⟩ :: more := by
  induction nodes generalizing pre offset read with
  | nil =>
    simp only [List.flatMap_nil, List.nil_append, List.length_nil, Nat.zero_add] at h
    simp only [readNodes, deserialize_full hfull hoff pre suf ho, Option.bind_eq_bind,
      Option.bind_some, Option.bind_eq_some_iff] at h
    obtain ⟨more, _, h⟩ := h
    cases h
    exact ⟨more, rfl⟩
  | cons n nodes ih =>
    rw [List.flatMap_cons, List.append_assoc, List.length_cons,
      show nodes.length + 1 + (count + 1) = nodes.length + (count + 1) + 1 by omega] at h
    have hn := TrieNode.deserialize_bytes (hsized n (List.mem_cons_self ..)) pre
      (nodes.flatMap TrieNode.bytes ++ (full.bytes ++ suf)) ho
    rw [readNodes, hn, Option.bind_eq_bind, Option.bind_some, Option.bind_eq_bind,
      Option.bind_eq_some_iff] at h
    obtain ⟨rest, hrest, h⟩ := h
    cases h
    rw [← List.append_assoc pre] at hrest
    obtain ⟨more, rfl⟩ := ih (fun n' hn' => hsized n' (List.mem_cons_of_mem _ hn')) (pre ++ n.bytes)
      (by rw [List.length_append, ho]) hrest
    exact ⟨more, rfl⟩

/-- In a trie cut off below the node of `label`, a walk through it finds nothing. -/
theorem Labeled.walk_cut {t cut : Trie} {all labels : List Blob} {m : Blob → Option Nat}
    (h : t.Labeled all labels m) (hup : t.Upward) {nodes rest more : List TrieNode}
    {full : TrieNode} (harena : t.arena = nodes ++ full :: rest)
    (hcut : cut.arena = nodes ++ ⟨full.offset, []⟩ :: more) {label : Blob}
    (hlabel : labels[nodes.length]? = some label) (c : UInt8) (key : Blob) {suffix pre : Blob}
    {k : Nat} (hk : labels[k]? = some pre) (hpre : pre ++ suffix = label) :
    cut.walk k (suffix ++ c :: key) = some none := by
  induction suffix generalizing pre k with
  | nil =>
    rw [List.append_nil] at hpre
    subst hpre
    obtain rfl : k = nodes.length := h.unique hk hlabel
    have hnode : cut.arena[nodes.length]? = some ⟨full.offset, []⟩ := by
      rw [hcut, List.getElem?_append_right (Nat.le_refl _), Nat.sub_self]
      rfl
    simp only [List.nil_append, Trie.walk, hnode, Option.bind_eq_bind, Option.bind_some]
    rfl
  | cons d suffix ih =>
    have hlabel' : labels[nodes.length]? = some (pre ++ d :: suffix) := by rw [hpre]; exact hlabel
    have hle := h.le_of_append hup hk hlabel'
    have hne : k ≠ nodes.length := by
      intro he
      rw [he, hlabel'] at hk
      have hlength := congrArg List.length (Option.some.inj hk)
      simp at hlength
    have hlt : k < nodes.length := by omega
    obtain ⟨node, hnode, _⟩ := h.node hk
    have hmem : pre ++ [d] ∈ labels := by
      apply h.mem_of_append (pre ++ [d]) suffix
      rw [List.append_assoc]
      exact List.mem_of_getElem? hlabel'
    obtain ⟨j, hget, hj⟩ := h.getChildIdx hk hnode hmem
    have hsame : cut.arena[k]? = some node := by
      rw [hcut, List.getElem?_append_left hlt]
      rwa [harena, List.getElem?_append_left hlt] at hnode
    simp only [List.cons_append, Trie.walk, hsame, hget, Option.bind_eq_bind, Option.bind_some]
    exact ih hj (by rw [List.append_assoc]; exact hpre)

/-- A label whose every child is stored has 256 of them. -/
theorem Labeled.full {t : Trie} {all labels : List Blob} {m : Blob → Option Nat}
    (h : t.Labeled all labels m) {label : Blob} (hall : ∀ c : UInt8, label ++ [c] ∈ labels) :
    ∃ node ∈ t.arena, node.children.length = 256 := by
  obtain ⟨i, hi⟩ := List.mem_iff_getElem?.mp (h.closed label 0 (hall 0))
  obtain ⟨node, hnode, hmem⟩ := h.node hi
  refine ⟨node, hmem, Nat.le_antisymm (h.children_le hmem) ?_⟩
  have hsub : (List.range 256).map UInt8.ofNat ⊆ node.children.map (·.1) := by
    intro c _
    obtain ⟨j, hj⟩ := List.mem_iff_getElem?.mp (hall c)
    exact List.mem_map.mpr ⟨(c, j), (h.child i node label c j hnode hi).mpr hj, rfl⟩
  have hnodup : ((List.range 256).map UInt8.ofNat).Nodup := by
    refine List.nodup_range.map_on fun a ha b hb hab => ?_
    have htoNat := congrArg UInt8.toNat hab
    rw [List.mem_range] at ha hb
    rwa [UInt8.toNat_ofNat', UInt8.toNat_ofNat', Nat.mod_eq_of_lt ha, Nat.mod_eq_of_lt hb] at htoNat
  have hle := (List.subperm_of_subset hnodup hsub).length_le
  simpa using hle

/-- A trie with a full label is read back, if at all, as one that has lost the keys below some
label. -/
theorem Labeled.lost {t cut : Trie} {all labels : List Blob} {m : Blob → Option Nat}
    (h : t.Labeled all labels m) (hup : t.Upward) (hnodes : t.arena.length < 2 ^ 32) {label : Blob}
    (hall : ∀ c : UInt8, label ++ [c] ∈ labels) (hcut : deserializeFromDisk t.bytes = some cut) :
    ∃ label c, label ++ [c] ∈ labels ∧ ∀ key, cut.get (label ++ c :: key) = some none := by
  obtain ⟨node, hmem, hnode⟩ := h.full hall
  obtain ⟨full, hfind⟩ : ∃ full, t.arena.find? (·.children.length = 256) = some full := by
    rw [← Option.isSome_iff_exists, List.find?_isSome]
    exact ⟨node, hmem, by simpa using hnode⟩
  obtain ⟨hfull, nodes, rest, harena, hbefore⟩ := List.find?_eq_some_iff_append.mp hfind
  simp only [decide_eq_true_eq] at hfull
  have hsized : ∀ n ∈ nodes, n.Sized := by
    intro n hn
    have hn' : n ∈ t.arena := harena ▸ List.mem_append_left _ hn
    have hnot := hbefore n hn
    simp only [Bool.not_eq_eq_eq_not, Bool.not_true, decide_eq_false_iff_not] at hnot
    have hle := h.children_le hn'
    refine ⟨by omega, fun p hp => ?_, h.offset_lt hn'⟩
    have hlt := h.pointers_lt hn' p hp
    omega
  have hfullmem : full ∈ t.arena := harena ▸ List.mem_append_right _ (List.mem_cons_self ..)
  have hslice : slice t.bytes 0 4 = some (toBe 4 t.arena.length) := by
    simp [slice, bytes]
  simp only [deserializeFromDisk, hslice, Option.bind_eq_bind, Option.bind_some,
    fromBe_toBe (show t.arena.length < 256 ^ 4 by omega), Option.bind_eq_some_iff] at hcut
  obtain ⟨read, hread, hcut⟩ := hcut
  cases hcut
  have hbytes : t.bytes = toBe 4 t.arena.length ++ (nodes.flatMap TrieNode.bytes ++
      (full.bytes ++ rest.flatMap TrieNode.bytes)) := by
    rw [bytes]
    congr 1
    rw [harena, List.flatMap_append, List.flatMap_cons]
  rw [hbytes, show t.arena.length = nodes.length + (rest.length + 1) by
    rw [harena, List.length_append, List.length_cons]] at hread
  obtain ⟨more, rfl⟩ := readNodes_full hsized hfull (h.offset_lt hfullmem) _ _ (by simp) hread
  have hlt : nodes.length < labels.length := by
    rw [h.length, harena, List.length_append, List.length_cons]
    omega
  have hlabel := List.getElem?_eq_getElem hlt
  obtain ⟨p, hp⟩ := List.exists_mem_of_length_pos (show 0 < full.children.length by omega)
  have hget : t.arena[nodes.length]? = some full := by
    rw [harena, List.getElem?_append_right (Nat.le_refl _), Nat.sub_self]
    rfl
  have hchild := (h.child nodes.length full _ p.1 p.2 hget hlabel).mp hp
  refine ⟨_, p.1, List.mem_of_getElem? hchild, fun key => ?_⟩
  rw [Trie.get, if_neg (by simp)]
  exact h.walk_cut hup harena rfl hlabel p.1 key h.root (List.nil_append _)

end Trie

end Lsmlite
