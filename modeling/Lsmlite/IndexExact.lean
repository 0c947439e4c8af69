import Lsmlite.Lib.KeyValue
import Lsmlite.SSTable
import Lsmlite.TrieRoundTrip

/-!
# What the index answers

Insertions never panic, and while 32 bits number the nodes the trie maps every key to its last
offset. The bloom filter misses no inserted key, also when it is read back.
-/

namespace Lsmlite
open Bytes KeyValue

/-! ## Insertions end -/

theorem getChildIdx_total (node : TrieNode) (c : UInt8) :
    (∃ pos, node.getChildIdx c = some (.error pos)) ∨
      ∃ child ∈ node.children, node.getChildIdx c = some (.ok child.2) := by
  unfold TrieNode.getChildIdx binarySearch
  dsimp only
  cases hget : node.children[binarySearchLoop node.children c node.children.length
      node.children.length 0]? with
  | none => exact Or.inl ⟨0, rfl⟩
  | some child =>
    dsimp only
    by_cases hfound : child.1 = c
    · right
      refine ⟨child, List.mem_of_getElem? hget, ?_⟩
      rw [if_pos hfound]
      dsimp only
      rw [hget]
      rfl
    · left
      rw [if_neg hfound]
      by_cases hlt : child.1 < c
      · rw [if_pos hlt]
        exact ⟨_, rfl⟩
      · rw [if_neg hlt]
        exact ⟨_, rfl⟩

namespace Trie

/-- Every child is a node of the arena. -/
def Linked (t : Trie) : Prop := ∀ node ∈ t.arena, ∀ p ∈ node.children, p.2 < t.arena.length

theorem linked_new : Trie.new.Linked := by
  intro node hnode
  cases hnode

theorem Linked.getOrInsertNode {t : Trie} (h : t.Linked) {i : Nat} (hi : i < t.arena.length)
    (c : UInt8) :
    ∃ t' j, t.getOrInsertNode i c = some (t', j) ∧ t'.Linked ∧ j < t'.arena.length := by
  have hnode : t.arena[i]? = some t.arena[i] := List.getElem?_eq_getElem hi
  have hmem : t.arena[i] ∈ t.arena := List.getElem_mem hi
  rcases getChildIdx_total t.arena[i] c with ⟨pos, hget⟩ | ⟨child, hchild, hget⟩
  · refine ⟨⟨(t.arena ++ [TrieNode.default]).set i
      (t.arena[i].insertChild pos c (t.arena.length % 2 ^ 32))⟩, t.arena.length, ?_, ?_, ?_⟩
    · simp only [Trie.getOrInsertNode, hnode, hget, Option.bind_eq_bind,
        Option.bind_some, Option.pure_def]
    · intro node hin p hp
      have hlength : ((t.arena ++ [TrieNode.default]).set i
          (t.arena[i].insertChild pos c (t.arena.length % 2 ^ 32))).length =
              t.arena.length + 1 := by
        rw [List.length_set, List.length_append, List.length_singleton]
      dsimp only at hin ⊢
      rw [hlength]
      apply Nat.lt_succ_of_le
      rcases List.mem_or_eq_of_mem_set hin with hin | rfl
      · rcases List.mem_append.mp hin with hin | hin
        · exact Nat.le_of_lt (h node hin p hp)
        · rw [List.mem_singleton.mp hin] at hp
          cases hp
      · rcases List.eq_or_mem_of_mem_insertIdx hp with rfl | hp
        · exact Nat.mod_le _ _
        · exact Nat.le_of_lt (h _ hmem p hp)
    · rw [List.length_set, List.length_append, List.length_singleton]
      exact Nat.lt_succ_self _
  · refine ⟨t, child.2, ?_, h, h _ hmem child hchild⟩
    simp only [Trie.getOrInsertNode, hnode, hget, Option.bind_eq_bind,
      Option.bind_some, Option.pure_def]

theorem Linked.descend {t : Trie} (h : t.Linked) {i : Nat} (hi : i < t.arena.length) (key : Blob) :
    ∃ t' j, t.descend i key = some (t', j) ∧ t'.Linked ∧ j < t'.arena.length := by
  induction key generalizing t i with
  | nil => exact ⟨t, i, rfl, h, hi⟩
  | cons c key ih =>
    obtain ⟨t1, j, hget, h1, hj⟩ := h.getOrInsertNode hi c
    obtain ⟨t2, k, hdesc, h2, hk⟩ := ih h1 hj
    refine ⟨t2, k, ?_, h2, hk⟩
    simp only [Trie.descend, hget, Option.bind_eq_bind, Option.bind_some, hdesc]

theorem Linked.insert {t : Trie} (h : t.Linked) (key : Blob) (offset : Nat) :
    ∃ t', t.insert key offset = some t' ∧ t'.Linked := by
  obtain ⟨t0, ht0, h0, hpos⟩ : ∃ t0, (if t.arena = [] then ⟨[TrieNode.default]⟩ else t) = t0 ∧
      t0.Linked ∧ 0 < t0.arena.length := by
    by_cases hnil : t.arena = []
    · refine ⟨⟨[TrieNode.default]⟩, if_pos hnil, fun node hnode p hp => ?_, Nat.one_pos⟩
      rw [List.mem_singleton.mp hnode] at hp
      cases hp
    · exact ⟨t, if_neg hnil, h, List.length_pos_iff.mpr hnil⟩
  obtain ⟨t1, j, hdesc, h1, hj⟩ := h0.descend hpos key
  refine ⟨⟨t1.arena.set j (t1.arena[j].setOffset offset)⟩, ?_, ?_⟩
  · simp only [Trie.insert, ht0, hdesc, List.getElem?_eq_getElem hj, Option.bind_eq_bind,
      Option.bind_some, Option.pure_def]
  · intro node hnode p hp
    dsimp only at hnode ⊢
    rw [List.length_set]
    rcases List.mem_or_eq_of_mem_set hnode with hnode | rfl
    · exact h1 node hnode p hp
    · exact h1 _ (List.getElem_mem hj) p hp

theorem insertAll_total (inserts : List (Blob × Nat)) :
    ∃ t, insertAll inserts = some t ∧ t.Linked := by
  induction inserts using List.reverseRecOn with
  | nil => exact ⟨new, rfl, linked_new⟩
  | append_singleton inserts w ih =>
    obtain ⟨t, hrun, h⟩ := ih
    obtain ⟨t', hinsert, h'⟩ := h.insert w.1 w.2
    refine ⟨t', ?_, h'⟩
    rw [insertAll_snoc, hrun, Option.bind_some, hinsert]

/-! ## The trie maps a key to its last offset -/

/-- Whatever is inserted, the insertions end, and with fewer than 2^32 nodes `get` answers every key
with the offset it was inserted at last. -/
theorem get_last_inserted {inserts : List (Blob × Nat)} (hoff : ∀ w ∈ inserts, w.2 < 2 ^ 63) :
    ∃ t, insertAll inserts = some t ∧
      (t.arena.length < 2 ^ 32 → ∀ key, t.get key = some (last key inserts)) := by
  obtain ⟨t, hrun, _⟩ := insertAll_total inserts
  refine ⟨t, hrun, fun hnodes key => ?_⟩
  have hmaps := insertAll_maps (fun w hw pre hpre =>
    mem_insertedPrefixes.mpr ⟨w, hw, hpre⟩) hoff hrun (Nat.le_of_lt hnodes)
  exact hmaps.get key

/-- The empty key, a key inserted twice, one that extends another, and offset zero. -/
theorem get_last_inserted_words : ∃ t,
    insertAll [([97, 98], 0), ([], 7), ([97, 98, 99], 2 ^ 63 - 1), ([97, 98], 31)] = some t ∧
      (t.arena.length < 2 ^ 32 → ∀ key, t.get key =
        some (last key [([97, 98], 0), ([], 7), ([97, 98, 99], 2 ^ 63 - 1), ([97, 98], 31)])) :=
  get_last_inserted (by decide)

end Trie

/-! ## The bloom filter misses no key -/

namespace BloomFilter

/-- The calls of `insert` on a new filter. -/
def insertAll (h : Hashing) (size : Nat) (keys : List Blob) : Option BloomFilter :=
  keys.foldlM (fun f key => f.insert h key) (new h size)

theorem insertAll_extends (h : Hashing) (size : Nat) (keys : List Blob) :
    ∃ f, insertAll h size keys = some f ∧ f.Extends (new h size) ∧ ∀ key ∈ keys, f.Added h key := by
  induction keys using List.reverseRecOn with
  | nil => exact ⟨new h size, rfl, .refl (formed_new h size), by simp⟩
  | append_singleton keys key ih =>
    obtain ⟨f, hrun, hext, hadded⟩ := ih
    obtain ⟨g, hinsert, hgrown, hkey⟩ := hext.formed.insert h key
    refine ⟨g, ?_, hgrown.trans hext, fun k hk => ?_⟩
    · rw [insertAll, List.foldlM_append]
      refine Option.bind_eq_some_iff.mpr ⟨f, hrun, ?_⟩
      rw [List.foldlM_cons, hinsert]
      rfl
    · rcases List.mem_append.mp hk with hk | hk
      · exact hgrown.added (hadded k hk)
      · exact List.mem_singleton.mp hk ▸ hkey

/-- A serialized filter fits a `Vec`. -/
theorem serialize_some {f : BloomFilter} {buffer : Blob} (h : f.serialize = some buffer) :
    f.bytes.length < 2 ^ 63 := by
  simp only [serialize, Option.bind_eq_bind, Option.bind_eq_some_iff] at h
  obtain ⟨⟨bitLenVarint, varintSize⟩, hvarint, _, hguard, _⟩ := h
  obtain ⟨rfl, _⟩ := encodeVarint_some hvarint
  have hsize : (leb f.bits.length).length + 8 * (f.bits.length + 1) < 2 ^ 63 := by
    by_contra hnot
    rw [guard, if_neg hnot] at hguard
    cases hguard
  rwa [bytes_length]

/-- The filter contains every inserted key. What it is serialized to is read back within the buffer,
as a filter that answers alike for every key; a filter of a size below 2^59 can be serialized. -/
theorem no_false_negatives (h : Hashing) (size : Nat) (keys : List Blob) :
    ∃ f, insertAll h size keys = some f ∧ (∀ key ∈ keys, f.contains h key = some true) ∧
      (∀ buffer, f.serialize = some buffer → ∃ g, fromBytes buffer = some g ∧
        ∀ key, ∃ answer, f.contains h key = some answer ∧ g.contains h key = some answer) ∧
      (size < 2 ^ 59 → ∃ buffer, f.serialize = some buffer) := by
  obtain ⟨f, hrun, hext, hadded⟩ := insertAll_extends h size keys
  refine ⟨f, hrun, fun key hkey => hext.formed.contains (hadded key hkey), fun buffer hbuffer => ?_,
    fun hsize => ?_⟩
  · have hlength := serialize_some hbuffer
    obtain rfl := Option.some.inj (hbuffer.symm.trans (serialize_eq hlength))
    refine ⟨f, hext.formed.codec hlength, fun key => ?_⟩
    obtain ⟨answer, hanswer⟩ := hext.formed.contains_isSome h key
    exact ⟨answer, hanswer, hanswer⟩
  · have hbits : f.bits.length = (size * 10 + 63 + 63) / 64 := hext.length.trans (by simp [new])
    have hten := leb_length_le_ten (show f.bits.length < 2 ^ 64 by omega)
    refine ⟨f.bytes, serialize_eq ?_⟩
    rw [bytes_length]
    omega

end BloomFilter

/-! ## The index of a table -/

/-- The index of the inserted keys answers every key with its last offset. -/
theorem SstIndex.getOffsetForKey_last {i : SstIndex} {h : Hashing} {inserts : List (Blob × Nat)}
    (hoff : ∀ w ∈ inserts, w.2 < 2 ^ 63) (htrie : Trie.insertAll inserts = some i.trie)
    (hnodes : i.trie.arena.length < 2 ^ 32) {size : Nat}
    (hbloom : BloomFilter.insertAll h size (inserts.map Prod.fst) = some i.bloomFilter)
    (key : Blob) :
    i.getOffsetForKey h key = some (last key inserts) := by
  have hmaps := Trie.insertAll_maps (fun w hw pre hpre =>
    Trie.mem_insertedPrefixes.mpr ⟨w, hw, hpre⟩) hoff htrie (Nat.le_of_lt hnodes)
  have hget := hmaps.get key
  obtain ⟨f, hrun, hext, hadded⟩ := BloomFilter.insertAll_extends h size (inserts.map Prod.fst)
  obtain rfl := Option.some.inj (hrun.symm.trans hbloom)
  obtain ⟨answer, hanswer⟩ := hext.formed.contains_isSome h key
  rw [SstIndex.getOffsetForKey, hanswer, Option.bind_eq_bind, Option.bind_some]
  cases answer with
  | true => exact hget
  | false =>
    -- A key that the filter does not contain was not inserted.
    have hnone : last key inserts = none := by
      rw [last_eq_none_iff]
      intro w hw hkey
      have hin := hext.formed.contains (hadded w.1 (List.mem_map_of_mem hw))
      rw [hkey, hanswer] at hin
      cases hin
    rw [hnone]
    rfl

end Lsmlite
