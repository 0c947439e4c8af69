import Lsmlite.LogReading

/-!
# Reading any index

What the readers of the index block and of the filter block make of an arbitrary buffer: each reads
the bytes of a trie, or of a filter, from the front of the buffer and ignores the rest; at anything
else it panics.
-/

namespace Lsmlite
open Bytes

theorem getElem_behind {pre rest : Blob} {c : UInt8} (h : (pre ++ rest)[pre.length]? = some c) :
    ∃ suf, rest = c :: suf := by
  rw [List.getElem?_append_right (Nat.le_refl _), Nat.sub_self] at h
  cases rest with
  | nil => cases h
  | cons d suf =>
    cases h
    exact ⟨suf, rfl⟩

/-! ## The trie -/

theorem readChildren_sound {n : Nat} {pre rest : Blob} {children : List TriePointer}
    {offset' : Nat}
    (h : TrieNode.readChildren (pre ++ rest) n pre.length = some (children, offset')) :
    ∃ suf, rest = pointerBytes children ++ suf ∧ children.length = n ∧
      (∀ p ∈ children, p.2 < 2 ^ 32) ∧ offset' = (pre ++ pointerBytes children).length := by
  induction n generalizing pre rest children offset' with
  | zero =>
    cases h
    exact ⟨rest, rfl, rfl, by simp, by simp [pointerBytes]⟩
  | succ n ih =>
    simp only [TrieNode.readChildren, Option.bind_eq_bind, Option.bind_eq_some_iff, Prod.exists,
      Option.pure_def, Option.some.injEq, Prod.mk.injEq] at h
    obtain ⟨c, hc, idx, hidx, more, offset, hmore, rfl, rfl⟩ := h
    obtain ⟨rest, rfl⟩ := getElem_behind hc
    have hcat : pre ++ c :: rest = (pre ++ [c]) ++ rest := by simp
    rw [hcat] at hidx hmore
    obtain ⟨rest, rfl, hfour⟩ := slice_behind hidx (by simp)
    have hidxlen : idx.length = 4 := by omega
    have hcat' : pre ++ [c] ++ (idx ++ rest) = (pre ++ [c] ++ idx) ++ rest := by simp
    have hnext : pre.length + 1 + 4 = (pre ++ [c] ++ idx).length := by
      simp only [List.length_append, List.length_singleton, hidxlen]
    rw [hcat', hnext] at hmore
    obtain ⟨suf, rfl, hlength, hpointers, rfl⟩ := ih hmore
    have hbytes : pointerBytes ((c, fromBe idx) :: more) = c :: (idx ++ pointerBytes more) := by
      have htoBe := toBe_fromBe idx
      rw [hidxlen] at htoBe
      simp only [pointerBytes, List.flatMap_cons, htoBe, List.cons_append]
    refine ⟨suf, by rw [hbytes]; simp, by rw [List.length_cons, hlength], fun p hp => ?_, ?_⟩
    · rcases List.mem_cons.mp hp with rfl | hp
      · have hlt := fromBe_lt idx
        rw [hidxlen] at hlt
        exact hlt
      · exact hpointers p hp
    · rw [hbytes]
      simp

theorem TrieNode.deserialize_sound {pre rest : Blob} {n : TrieNode} {offset' : Nat}
    (h : TrieNode.deserializeFromDisk (pre ++ rest) pre.length = some (n, offset')) :
    ∃ suf, rest = n.bytes ++ suf ∧ n.Sized ∧ offset' = (pre ++ n.bytes).length := by
  simp only [TrieNode.deserializeFromDisk, Option.bind_eq_bind, Option.bind_eq_some_iff,
    Prod.exists, Option.pure_def, Option.some.injEq, Prod.mk.injEq] at h
  obtain ⟨count, hcount, word, hword, children, offset, hchildren, rfl, rfl⟩ := h
  obtain ⟨rest, rfl⟩ := getElem_behind hcount
  have hcat : pre ++ count :: rest = (pre ++ [count]) ++ rest := by simp
  rw [hcat] at hword hchildren
  obtain ⟨rest, rfl, height⟩ := slice_behind hword (by simp)
  have hwordlen : word.length = 8 := by omega
  have hcat' : pre ++ [count] ++ (word ++ rest) = (pre ++ [count] ++ word) ++ rest := by simp
  have hnext : pre.length + 1 + 8 = (pre ++ [count] ++ word).length := by
    simp only [List.length_append, List.length_singleton, hwordlen]
  rw [hcat', hnext] at hchildren
  obtain ⟨suf, rfl, hlength, hpointers, rfl⟩ := readChildren_sound hchildren
  have hbytes : TrieNode.bytes ⟨fromBe word, children⟩ = count ::
      (word ++ pointerBytes children) := by
    have htoBe := toBe_fromBe word
    rw [hwordlen] at htoBe
    simp only [TrieNode.bytes, hlength, htoBe, UInt8.ofNat_toNat, List.singleton_append]
  have hlt := fromBe_lt word
  rw [hwordlen] at hlt
  refine ⟨suf, by rw [hbytes]; simp, ⟨by rw [hlength]; exact count.toNat_lt, hpointers, hlt⟩, ?_⟩
  rw [hbytes]
  simp

theorem readNodes_sound {count : Nat} {pre rest : Blob} {nodes : List TrieNode}
    (h : Trie.readNodes (pre ++ rest) count pre.length = some nodes) :
    ∃ suf, rest = nodes.flatMap TrieNode.bytes ++ suf ∧ nodes.length = count ∧
      ∀ n ∈ nodes, n.Sized := by
  induction count generalizing pre rest nodes with
  | zero =>
    cases h
    exact ⟨rest, rfl, rfl, by simp⟩
  | succ count ih =>
    simp only [Trie.readNodes, Option.bind_eq_bind, Option.bind_eq_some_iff, Prod.exists,
      Option.pure_def, Option.some.injEq] at h
    obtain ⟨n, offset, hn, more, hmore, rfl⟩ := h
    obtain ⟨rest, rfl, hsized, rfl⟩ := TrieNode.deserialize_sound hn
    rw [← List.append_assoc] at hmore
    obtain ⟨suf, rfl, hlength, hall⟩ := ih hmore
    refine ⟨suf, by simp, by rw [List.length_cons, hlength], fun n' hn' => ?_⟩
    rcases List.mem_cons.mp hn' with rfl | hn'
    · exact hsized
    · exact hall n' hn'

/-- The numbers of the trie fit the bytes they are written in. -/
structure Trie.Sized (t : Trie) : Prop where
  nodes : t.arena.length < 2 ^ 32
  sized : ∀ n ∈ t.arena, n.Sized

/-- The node count in front of a trie's bytes. -/
theorem Trie.count_slice (t : Trie) (h : t.Sized) (suf : Blob) {count : Blob}
    (hcount : slice (t.bytes ++ suf) 0 4 = some count) : fromBe count = t.arena.length := by
  have hslice : slice (t.bytes ++ suf) 0 4 = some (toBe 4 t.arena.length) := by simp [slice, bytes]
  rw [Option.some.inj (hcount.symm.trans hslice)]
  exact fromBe_toBe h.nodes

/-- A trie is read from a buffer that begins with its bytes, and from no other. -/
theorem Trie.deserialize_iff {buffer : Blob} {t : Trie} :
    deserializeFromDisk buffer = some t ↔ t.Sized ∧ t.bytes <+: buffer := by
  constructor
  · intro h
    simp only [deserializeFromDisk, Option.bind_eq_bind, Option.bind_eq_some_iff, Option.pure_def,
      Option.some.injEq] at h
    obtain ⟨count, hcount, nodes, hnodes, rfl⟩ := h
    obtain ⟨rest, rfl, hfour⟩ :=
      slice_behind (show slice ([] ++ buffer) 0 4 = some count from hcount) rfl
    have hcountlen : count.length = 4 := by omega
    rw [← hcountlen] at hnodes
    obtain ⟨suf, rfl, hlength, hall⟩ := readNodes_sound hnodes
    have hlt := fromBe_lt count
    have htoBe := toBe_fromBe count
    rw [hcountlen] at hlt htoBe
    refine ⟨⟨by simp only [hlength]; exact hlt, hall⟩, suf, ?_⟩
    simp only [bytes, hlength, htoBe, List.append_assoc]
  · rintro ⟨hsized, suf, rfl⟩
    exact deserialize_bytes hsized.nodes hsized.sized suf

/-- There has to be memory for as many nodes as the trie has. -/
theorem Trie.deserializeWithin_iff {memory : Nat} {buffer : Blob} {t : Trie} :
    deserializeWithin memory buffer = some t ↔
      Allocates memory (nodeSize * t.arena.length) ∧ t.Sized ∧ t.bytes <+: buffer := by
  rw [← deserialize_iff]
  simp only [deserializeWithin, Option.bind_eq_bind, Option.bind_eq_some_iff]
  constructor
  · rintro ⟨count, hcount, _, hfits, h⟩
    refine ⟨?_, h⟩
    have hnodes := of_guard hfits
    obtain ⟨hsized, suf, rfl⟩ := deserialize_iff.mp h
    rwa [t.count_slice hsized suf hcount] at hnodes
  · rintro ⟨hfits, h⟩
    obtain ⟨hsized, suf, rfl⟩ := deserialize_iff.mp h
    have hcount : slice (t.bytes ++ suf) 0 4 = some (toBe 4 t.arena.length) := by
      simp [slice, bytes]
    refine ⟨_, hcount, (), ?_, h⟩
    rw [t.count_slice hsized suf hcount]
    exact if_pos hfits

/-! ## The bloom filter -/

namespace BloomFilter

theorem readWords_sound {count : Nat} {pre rest : Blob} {words : List Nat} {offset' : Nat}
    (h : readWords (pre ++ rest) count pre.length = some (words, offset')) :
    ∃ suf, rest = words.flatMap (toBe 8) ++ suf ∧ words.length = count ∧
      (∀ word ∈ words, word < 2 ^ 64) ∧ offset' = (pre ++ words.flatMap (toBe 8)).length := by
  induction count generalizing pre rest words offset' with
  | zero =>
    cases h
    exact ⟨rest, rfl, rfl, by simp, by simp⟩
  | succ count ih =>
    simp only [readWords, Option.bind_eq_bind, Option.bind_eq_some_iff, Prod.exists,
      Option.pure_def, Option.some.injEq, Prod.mk.injEq] at h
    obtain ⟨word, hword, more, offset, hmore, rfl, rfl⟩ := h
    obtain ⟨rest, rfl, height⟩ := slice_behind hword rfl
    have hwordlen : word.length = 8 := by omega
    have hnext : pre.length + 8 = (pre ++ word).length := by rw [List.length_append, hwordlen]
    rw [← List.append_assoc, hnext] at hmore
    obtain ⟨suf, rfl, hlength, hall, rfl⟩ := ih hmore
    have htoBe := toBe_fromBe word
    have hlt := fromBe_lt word
    rw [hwordlen] at htoBe hlt
    refine ⟨suf, by
      simp [htoBe], by rw [List.length_cons, hlength], fun w hw => ?_, by simp [htoBe]⟩
    rcases List.mem_cons.mp hw with rfl | hw
    · exact hlt
    · exact hall w hw

/-- The buffer begins with the filter, its words counted by a varint. -/
structure InBlock (f : BloomFilter) (buffer : Blob) : Prop where
  bytes : ∃ count, IsVarint count ∧ varintValue count = f.bits.length ∧
    count ++ (f.bits.flatMap (toBe 8) ++ toBe 8 f.numHashes) <+: buffer
  numBits : f.numBits = 64 * f.bits.length
  words : ∀ word ∈ f.bits, word < 2 ^ 64
  numHashes : f.numHashes < 2 ^ 64
  capacity : 8 * f.bits.length < 2 ^ 63

/-- A filter is read from a buffer that begins with it, and from no other. -/
theorem fromBytes_iff {buffer : Blob} {f : BloomFilter} :
    fromBytes buffer = some f ↔ f.InBlock buffer := by
  constructor
  · intro h
    simp only [fromBytes, Option.bind_eq_bind, Option.bind_eq_some_iff, Prod.exists,
      Option.pure_def, Option.some.injEq] at h
    obtain ⟨numWords, walked, hcount, _, hcapacity, bits, offset, hbits, hashes, hhashes, rfl⟩ := h
    have hfits := of_guard hcapacity
    obtain ⟨count, rest, rfl, hvarint, rfl, rfl⟩ := (decodeVarint_iff (show 0 = ([] : Blob).length
      from rfl)).mp (show decodeVarint ([] ++ buffer) 0 = some (numWords, walked) from hcount)
    obtain ⟨rest, rfl, hlength, hwords, rfl⟩ := readWords_sound hbits
    rw [← List.append_assoc] at hhashes
    obtain ⟨suf, rfl, height⟩ := slice_behind hhashes rfl
    have hhasheslen : hashes.length = 8 := by omega
    have htoBe := toBe_fromBe hashes
    have hlt := fromBe_lt hashes
    rw [hhasheslen] at htoBe hlt
    refine ⟨⟨count, hvarint, hlength.symm, suf, ?_⟩, rfl, hwords, hlt, by rw [hlength]; exact hfits⟩
    simp only [htoBe, List.append_assoc]
  · rintro ⟨⟨count, hvarint, hvalue, suf, rfl⟩, hbits, hwords, hhashes, hcapacity⟩
    have hdec :
        decodeVarint ([] ++ (count ++ (f.bits.flatMap (toBe 8) ++ (toBe 8 f.numHashes ++ suf)))) 0 =
        some (varintValue count, count.length) :=
      (decodeVarint_iff rfl).mpr ⟨count, _, rfl, hvarint, rfl, rfl⟩
    have hread := readWords_eq f.bits hwords count (toBe 8 f.numHashes ++ suf) rfl
    have hslice := slice_mid (count ++ f.bits.flatMap (toBe 8)) (toBe 8 f.numHashes) suf
      (show count.length + 8 * f.bits.length = _ by rw [List.length_append, flatMap_toBe_length])
      (show _ = _ + (toBe 8 f.numHashes).length by rw [toBe_length])
    have hguard : (guard (8 * f.bits.length < 2 ^ 63) : Option Unit) = some () := by
      rw [guard, if_pos hcapacity]
      rfl
    simp only [List.nil_append, List.append_assoc] at hdec hread hslice ⊢
    simp only [fromBytes, hdec, hvalue, hguard, hread, hslice, Option.bind_eq_bind,
      Option.bind_some, Option.pure_def,
      fromBe_toBe (show f.numHashes < 256 ^ 8 from hhashes), ← hbits]

end BloomFilter

end Lsmlite
