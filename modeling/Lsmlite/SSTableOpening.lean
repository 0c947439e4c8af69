import Lsmlite.IndexReading
import Lsmlite.SSTableFormat

/-!
# Opening any file

`from_fd` on an arbitrary file, in a process that gets at most `memory` bytes in one piece. The
footer's offsets are subtracted and both blocks decoded without a check, and room for the index
block is made before it is read, so a file opens safely only if what is behind a valid header is
what the writers put there, as far as the readers look.
-/

namespace Lsmlite
open Bytes

/-! ## What the footer names -/

/-- The `i`-th word of the last 24 bytes. -/
def footerWord (content : Blob) (i : Nat) : Nat :=
  fromBe ((content.drop (content.length - footerSize + 8 * i)).take 8)

def indexStart (content : Blob) : Nat := footerWord content 0

def filterStart (content : Blob) : Nat := footerWord content 2

def indexBlock (content : Blob) : Blob :=
  (content.drop (indexStart content)).take (filterStart content - indexStart content)

def filterBlock (content : Blob) : Blob :=
  (content.drop (filterStart content)).take (content.length - footerSize - filterStart content)

/-- The file ends before its version or does not begin with the header. -/
def HeaderFails (content : Blob) : Prop :=
  content.length < headerSize ∨ content.take 7 ≠ lsmliteSstableHeader

/-- The file ends before the index block does. -/
def IndexCut (content : Blob) : Prop :=
  content.length < filterStart content ∧ indexStart content < filterStart content

/-- The length of the index block is computed without an underflow, and there is memory for as
much. -/
structure FooterSound (memory : Nat) (content : Blob) : Prop where
  room : footerSize ≤ content.length
  order : indexStart content ≤ filterStart content
  capacity : Allocates memory (filterStart content - indexStart content)

instance (content : Blob) : Decidable (HeaderFails content) := inferInstanceAs (Decidable (_ ∨ _))

instance (content : Blob) : Decidable (IndexCut content) := inferInstanceAs (Decidable (_ ∧ _))

/-! ## The run of `from_fd` -/

theorem File.readExact_nil (content : Blob) (pos n : Nat) : File.readExact ⟨content, pos, []⟩ n =
    if ((content.drop pos).take n).length = n then
      (.ok ((content.drop pos).take n), ⟨content, pos + ((content.drop pos).take n).length, []⟩)
    else (.error .unexpectedEof, ⟨content, pos + ((content.drop pos).take n).length, []⟩) := rfl

theorem readExact_ok {content : Blob} {pos n : Nat} (h : ((content.drop pos).take n).length = n) :
    (Fd.readExact n).runOn ⟨content, pos, []⟩ =
      some (.ok ((content.drop pos).take n), ⟨content, pos + n, []⟩) := by
  rw [Fd.readExact, Fallible.runOn_step, File.readExact_nil, if_pos h, h]

theorem readExact_eof {content : Blob} {pos n : Nat} (h : ((content.drop pos).take n).length ≠ n) :
    ∃ fd, (Fd.readExact n).runOn ⟨content, pos, []⟩ = some (.error .unexpectedEof, fd) := by
  rw [Fd.readExact, Fallible.runOn_step, File.readExact_nil, if_neg h]
  exact ⟨_, rfl⟩

theorem length_take_drop {content : Blob} {pos n : Nat} :
    ((content.drop pos).take n).length = n ↔ pos + n ≤ content.length ∨ n = 0 := by
  rw [List.length_take, List.length_drop]
  omega

theorem footer_run {content : Blob} (hroom : footerSize ≤ content.length) (pos : Nat) :
    (SSTableFooter.fromDiskSstable (content.length - footerSize)).runOn ⟨content, pos, []⟩ =
      some (.ok ⟨footerWord content 0, footerWord content 1, footerWord content 2⟩,
        ⟨content, content.length - footerSize + 3 * 8, []⟩) := by
  have hlength : ((content.drop (content.length - footerSize)).take (3 * 8)).length = 3 * 8 :=
    length_take_drop.mpr (Or.inl (by simp only [footerSize] at hroom ⊢; omega))
  have hword : ∀ i, i < 3 → slice ((content.drop (content.length - footerSize)).take (3 * 8))
      (8 * i) (8 * i + 8) = some ((content.drop (content.length - footerSize + 8 * i)).take 8) := by
    intro i hi
    rw [slice_isSome (by omega) (by rw [hlength]; omega), List.drop_take,
      List.drop_drop, List.take_take]
    congr 2
    omega
  rw [SSTableFooter.fromDiskSstable]
  refine (Fallible.bind_ok (show (Fd.seek _).runOn _ = some (.ok _, _) from rfl)).trans ?_
  refine (Fallible.bind_ok (readExact_ok hlength)).trans ?_
  rw [show slice _ 0 8 = _ from hword 0 (by decide), show slice _ 8 16 = _ from hword 1 (by decide),
    show slice _ 16 24 = _ from hword 2 (by decide)]
  rfl

theorem runOn_guard_neg {σ ε : Type} {p : Prop} [Decidable p] (hp : ¬p) (s : σ) :
    (Fallible.lift (guard p) : Fallible σ ε Unit).runOn s = none := by
  rw [guard, if_neg hp]
  rfl

section
variable {memory : Nat}

/-- A footer out of order, or no room for one, is an underflow or a length for which there is no
`Vec`. -/
theorem fromDiskSstable_unsound {content : Blob} (h : ¬ FooterSound memory content) (pos : Nat) :
    (SstIndex.fromDiskSstable memory).runOn ⟨content, pos, []⟩ = none := by
  rw [SstIndex.fromDiskSstable]
  refine (Fallible.bind_ok (show Fd.len.runOn _ = some (.ok content.length, ⟨content, pos, []⟩)
    from rfl)).trans ?_
  by_cases hroom : footerSize ≤ content.length
  · refine (Fallible.bind_ok (runOn_guard hroom _)).trans ?_
    refine (Fallible.bind_ok (footer_run hroom pos)).trans ?_
    by_cases horder : indexStart content ≤ filterStart content
    · refine (Fallible.bind_ok (runOn_guard horder _)).trans ?_
      exact Fallible.bind_panic (runOn_guard_neg (fun hcapacity => h ⟨hroom, horder, hcapacity⟩) _)
    · exact Fallible.bind_panic (runOn_guard_neg horder _)
  · exact Fallible.bind_panic (runOn_guard_neg hroom _)

theorem fromDiskSstable_cut {content : Blob} (h : FooterSound memory content)
    (hcut : IndexCut content) (pos : Nat) :
    ∃ fd, (SstIndex.fromDiskSstable memory).runOn ⟨content, pos,
      []⟩ = some (.error .unexpectedEof, fd) := by
  have hshort :
      ((content.drop (indexStart content)).take (filterStart content - indexStart content)).length ≠
      filterStart content - indexStart content := by
    obtain ⟨hlength, horder⟩ := hcut
    rw [Ne, length_take_drop]
    omega
  obtain ⟨fd, heof⟩ := readExact_eof hshort
  refine ⟨fd, ?_⟩
  rw [SstIndex.fromDiskSstable]
  refine (Fallible.bind_ok (show Fd.len.runOn _ = some (.ok content.length, ⟨content, pos, []⟩)
    from rfl)).trans ?_
  refine (Fallible.bind_ok (runOn_guard h.room _)).trans ?_
  refine (Fallible.bind_ok (footer_run h.room pos)).trans ?_
  refine (Fallible.bind_ok (runOn_guard h.order _)).trans ?_
  refine (Fallible.bind_ok (runOn_allocate h.capacity _)).trans ?_
  refine (Fallible.bind_ok
    (show (Fd.seek _).runOn _ = some (.ok (), ⟨content, indexStart content, []⟩) from rfl)).trans ?_
  exact Fallible.bind_error heof

/-- The footer's offset is at the end of the filter block, for which there is memory. -/
structure FilterSound (memory : Nat) (content : Blob) : Prop where
  order : filterStart content ≤ content.length - footerSize
  capacity : Allocates memory (content.length - footerSize - filterStart content)

instance (content : Blob) : Decidable (FilterSound memory content) :=
  decidable_of_iff (filterStart content ≤ content.length - footerSize ∧
    Allocates memory (content.length - footerSize - filterStart content))
    ⟨fun h => ⟨h.1, h.2⟩, fun h => ⟨h.1, h.2⟩⟩

/-- Behind a sound footer and a whole index block, both blocks are decoded. -/
theorem fromDiskSstable_blocks {content : Blob} (h : FooterSound memory content)
    (hcut : ¬ IndexCut content) (pos : Nat) :
    ∃ fd : File, fd.content = content ∧ fd.faults = [] ∧
      (SstIndex.fromDiskSstable memory).runOn ⟨content, pos, []⟩ =
        (Trie.deserializeWithin memory (indexBlock content)).bind fun trie =>
          if FilterSound memory content then
            (BloomFilter.fromBytes (filterBlock content)).map fun bloomFilter =>
              (.ok ⟨trie, bloomFilter, indexStart content⟩, fd)
          else none := by
  have hwhole :
      ((content.drop (indexStart content)).take (filterStart content - indexStart content)).length =
      filterStart content - indexStart content := by
    have horder := h.order
    rw [length_take_drop]
    by_contra hnot
    exact hcut ⟨by omega, by omega⟩
  refine ⟨⟨content, indexStart content + (filterStart content - indexStart content) +
    (content.length - footerSize - filterStart content), []⟩, rfl, rfl, ?_⟩
  rw [SstIndex.fromDiskSstable]
  refine (Fallible.bind_ok (show Fd.len.runOn _ = some (.ok content.length, ⟨content, pos, []⟩)
    from rfl)).trans ?_
  refine (Fallible.bind_ok (runOn_guard h.room _)).trans ?_
  refine (Fallible.bind_ok (footer_run h.room pos)).trans ?_
  refine (Fallible.bind_ok (runOn_guard h.order _)).trans ?_
  refine (Fallible.bind_ok (runOn_allocate h.capacity _)).trans ?_
  refine (Fallible.bind_ok
    (show (Fd.seek _).runOn _ = some (.ok (), ⟨content, indexStart content, []⟩) from rfl)).trans ?_
  refine (Fallible.bind_ok (readExact_ok hwhole)).trans ?_
  refine (Fallible.bind_map (Fallible.runOn_lift _ _)).trans ?_
  refine Option.bind_congr fun trie _ => ?_
  by_cases hfilter : FilterSound memory content
  · rw [if_pos hfilter]
    have hend := hfilter.order
    refine (Fallible.bind_ok (runOn_guard hend _)).trans ?_
    refine (Fallible.bind_ok (runOn_allocate hfilter.capacity _)).trans ?_
    have hread : (Fd.readExact (content.length - footerSize - filterStart content)).runOn
        ⟨content, indexStart content + (filterStart content - indexStart content), []⟩ =
        some (.ok (filterBlock content), ⟨content, indexStart content +
          (filterStart content - indexStart content) +
          (content.length - footerSize - filterStart content), []⟩) := by
      have horder := h.order
      have hroom := h.room
      rw [readExact_ok (length_take_drop.mpr (Or.inl (by omega))), filterBlock]
      congr 5
      omega
    refine (Fallible.bind_ok hread).trans ?_
    refine (Fallible.bind_map (Fallible.runOn_lift _ _)).trans ?_
    rw [Option.map_eq_bind]
    rfl
  · rw [if_neg hfilter]
    by_cases hend : filterStart content ≤ content.length - footerSize
    · refine (Fallible.bind_ok (runOn_guard hend _)).trans ?_
      exact Fallible.bind_panic (runOn_guard_neg (fun hcapacity => hfilter ⟨hend, hcapacity⟩) _)
    · exact Fallible.bind_panic (runOn_guard_neg hend _)

theorem version_fails {content : Blob} (h : HeaderFails content) :
    ∃ e fd, validateBufferAndGetVersion.runOn (.opened content []) = some (.error e, fd) := by
  rw [validateBufferAndGetVersion]
  by_cases hseven : ((content.drop 0).take 7).length = 7
  · have hread := readExact_ok hseven
    by_cases hheader : (content.drop 0).take 7 = lsmliteSstableHeader
    · have htwo : ((content.drop 7).take 2).length ≠ 2 := by
        rw [List.drop_zero] at hheader
        have hlength := h.resolve_right (not_not.mpr hheader)
        rw [Ne, length_take_drop]
        simp only [headerSize] at hlength
        omega
      obtain ⟨fd, heof⟩ := readExact_eof htwo
      refine ⟨.ioError .unexpectedEof, fd, ?_⟩
      refine (Fallible.bind_ok (show (Fd.readExact 7).sst.runOn _ = _
        from Fallible.mapError_ok hread)).trans ?_
      rw [if_neg (not_not.mpr hheader)]
      exact Fallible.bind_error (Fallible.mapError_error heof)
    · refine ⟨.invalidSSTableFile, ⟨content, 0 + 7, []⟩, ?_⟩
      refine (Fallible.bind_ok (show (Fd.readExact 7).sst.runOn _ = _
        from Fallible.mapError_ok hread)).trans ?_
      rw [if_pos hheader]
      rfl
  · obtain ⟨fd, heof⟩ := readExact_eof hseven
    exact ⟨.ioError .unexpectedEof, fd, Fallible.bind_error (Fallible.mapError_error heof)⟩

theorem version_ok {content : Blob} (h : ¬ HeaderFails content) :
    ∃ version, validateBufferAndGetVersion.runOn (.opened content []) =
      some (.ok version, ⟨content, headerSize, []⟩) := by
  obtain ⟨hlength, hheader⟩ := not_or.mp h
  rw [not_not] at hheader
  simp only [headerSize] at hlength
  refine ⟨fromBe ((content.drop 7).take 2), ?_⟩
  rw [validateBufferAndGetVersion]
  have hread : (Fd.readExact 7).runOn (.opened content []) =
      some (.ok ((content.drop 0).take 7), ⟨content, 0 + 7, []⟩) :=
    readExact_ok (length_take_drop.mpr (Or.inl (by omega)))
  refine (Fallible.bind_ok (show (Fd.readExact 7).sst.runOn _ = _
    from Fallible.mapError_ok hread)).trans ?_
  rw [List.drop_zero, if_neg (not_not.mpr hheader)]
  have htwo : (Fd.readExact 2).runOn ⟨content, 7, []⟩ =
      some (.ok ((content.drop 7).take 2), ⟨content, 7 + 2, []⟩) :=
    readExact_ok (length_take_drop.mpr (Or.inl (by omega)))
  refine (Fallible.bind_ok (show (Fd.readExact 2).sst.runOn _ = _
    from Fallible.mapError_ok htwo)).trans ?_
  rfl

namespace SSTable

theorem fromFd_invalid {content : Blob} (h : HeaderFails content) :
    ∃ e, fromFdWithin memory (.opened content []) = some (.error e) := by
  obtain ⟨e, fd, hversion⟩ := version_fails h
  refine ⟨e, ?_⟩
  rw [fromFdWithin]
  rw [Fallible.bind_error hversion]
  rfl

/-- What `from_fd` makes of the run on the index. -/
theorem fromFd_index {content : Blob} (h : ¬ HeaderFails content) :
    ∃ version, fromFdWithin memory (.opened content []) =
      ((SstIndex.fromDiskSstable memory).runOn ⟨content, headerSize, []⟩).map fun (r, fd) =>
        (r.mapError .ioError).map fun index => ⟨index, fd, version⟩ := by
  obtain ⟨version, hversion⟩ := version_ok h
  refine ⟨version, ?_⟩
  rw [fromFdWithin]
  rw [Fallible.bind_ok hversion, Fallible.runOn_bind, Fd.sst, Fallible.runOn_mapError]
  cases (SstIndex.fromDiskSstable memory).runOn ⟨content, headerSize, []⟩ with
  | none => rfl
  | some r =>
    obtain ⟨r, fd⟩ := r
    cases r <;> rfl

/-- What `from_fd` makes of whole blocks. -/
theorem fromFd_blocks {content : Blob} (hheader : ¬ HeaderFails content)
    (hfooter : FooterSound memory content) (hcut : ¬ IndexCut content) :
    ∃ version, ∃ fd : File, fd.content = content ∧ fd.faults = [] ∧
      fromFdWithin memory (.opened content []) =
        (Trie.deserializeWithin memory (indexBlock content)).bind fun trie =>
        if FilterSound memory content then
          (BloomFilter.fromBytes (filterBlock content)).map fun bloomFilter =>
            .ok ⟨⟨trie, bloomFilter, indexStart content⟩, fd, version⟩
        else none := by
  obtain ⟨version, hload⟩ := fromFd_index hheader
  obtain ⟨fd, hcontent, hfaults, hblocks⟩ := fromDiskSstable_blocks hfooter hcut headerSize
  refine ⟨version, fd, hcontent, hfaults, ?_⟩
  rw [hload, hblocks, Option.map_bind]
  refine Option.bind_congr fun trie _ => ?_
  rw [Function.comp_apply]
  split
  · rw [Option.map_map]
    rfl
  · rfl

/-- A table that opens has been read from both blocks. -/
theorem fromFd_ok {content : Blob} {s : SSTable}
    (h : fromFdWithin memory (.opened content []) = some (.ok s)) :
    s.fd.content = content ∧ s.fd.faults = [] ∧ s.index.dataBlockEnd = indexStart content ∧
      FooterSound memory content ∧ FilterSound memory content ∧
      Trie.deserializeWithin memory (indexBlock content) = some s.index.trie ∧
      BloomFilter.fromBytes (filterBlock content) = some s.index.bloomFilter := by
  by_cases hheader : HeaderFails content
  · obtain ⟨e, herror⟩ := fromFd_invalid hheader
    rw [herror] at h
    cases h
  by_cases hfooter : FooterSound memory content
  · by_cases hcut : IndexCut content
    · obtain ⟨version, hload⟩ := fromFd_index hheader
      obtain ⟨fd, hindex⟩ := fromDiskSstable_cut hfooter hcut headerSize
      rw [hload, hindex] at h
      cases h
    · obtain ⟨version, fd, hcontent, hfaults, hblocks⟩ := fromFd_blocks hheader hfooter hcut
      rw [hblocks, Option.bind_eq_some_iff] at h
      obtain ⟨trie, htrie, h⟩ := h
      split at h
      · rename_i hfilter
        obtain ⟨bloomFilter, hbloom, hs⟩ := Option.map_eq_some_iff.mp h
        cases hs
        exact ⟨hcontent, hfaults, rfl, hfooter, hfilter, htrie, hbloom⟩
      · cases h
  · obtain ⟨version, hload⟩ := fromFd_index hheader
    rw [hload, fromDiskSstable_unsound hfooter] at h
    cases h

end SSTable

end

/-! ## The search in the index -/

/-- The node a prefix leads to, whether there is one or not. -/
inductive Trie.Reaches (t : Trie) : Blob → Nat → Prop
  | root : t.Reaches [] 0
  | child {pre : Blob} {i j : Nat} {node : TrieNode} {c : UInt8} : t.Reaches pre i →
      t.arena[i]? = some node → node.getChildIdx c = some (.ok j) → t.Reaches (pre ++ [c]) j

theorem TrieNode.getChildIdx_ne_none (n : TrieNode) (c : UInt8) : n.getChildIdx c ≠ none := by
  unfold getChildIdx binarySearch
  intro hnone
  cases hbase :
      n.children[binarySearchLoop n.children c n.children.length n.children.length 0]? with
  | none => simp [hbase] at hnone
  | some child =>
    by_cases heq : child.1 = c
    · simp [hbase, heq] at hnone
    · by_cases hlt : child.1 < c <;> simp [hbase, heq, hlt] at hnone

namespace Trie

theorem Reaches.walk {t : Trie} {pre : Blob} {i : Nat} (h : t.Reaches pre i) (rest : Blob) :
    t.walk 0 (pre ++ rest) = t.walk i rest := by
  induction h generalizing rest with
  | root => rfl
  | @child pre i j node c _ hnode hchild ih =>
    rw [List.append_assoc, ih, List.singleton_append, Trie.walk]
    simp only [hnode, hchild, Option.bind_eq_bind, Option.bind_some]

/-- A walk panics where a prefix leads out of the arena. -/
theorem Reaches.walk_none {t : Trie} {pre rest : Blob} {i : Nat} (h : t.Reaches pre i)
    (hwalk : t.walk i rest = none) :
    ∃ mid j, mid <+: rest ∧ t.Reaches (pre ++ mid) j ∧ t.arena.length ≤ j := by
  induction rest generalizing pre i with
  | nil =>
    refine ⟨[], i, List.nil_prefix, by simpa using h, ?_⟩
    simp only [Trie.walk, Option.bind_eq_bind, Option.pure_def] at hwalk
    rw [← List.getElem?_eq_none_iff]
    cases hnode : t.arena[i]? with
    | none => rfl
    | some node => simp [hnode] at hwalk
  | cons c rest ih =>
    cases hnode : t.arena[i]? with
    | none => exact ⟨[], i, List.nil_prefix, by simpa using h, List.getElem?_eq_none_iff.mp hnode⟩
    | some node =>
      simp only [Trie.walk, hnode, Option.bind_eq_bind, Option.bind_some] at hwalk
      cases hchild : node.getChildIdx c with
      | none => exact absurd hchild (node.getChildIdx_ne_none c)
      | some found =>
        rw [hchild, Option.bind_some] at hwalk
        cases found with
        | error pos => cases hwalk
        | ok j =>
          obtain ⟨mid, k, hmid, hreach, hout⟩ := ih (h.child hnode hchild) hwalk
          exact ⟨c :: mid, k, by simpa using hmid, by simpa using hreach, hout⟩

theorem get_none_iff {t : Trie} {key : Blob} : t.get key = none ↔
    t.arena ≠ [] ∧ ∃ pre j, pre <+: key ∧ t.Reaches pre j ∧ t.arena.length ≤ j := by
  unfold Trie.get
  by_cases hnil : t.arena = []
  · simp [hnil]
  · rw [if_neg hnil]
    simp only [hnil, ne_eq, not_false_eq_true, true_and]
    constructor
    · intro hwalk
      exact Reaches.walk_none .root hwalk
    · rintro ⟨pre, j, ⟨rest, rfl⟩, hreach, hout⟩
      rw [hreach.walk]
      have hnode := List.getElem?_eq_none_iff.mpr hout
      cases rest <;> simp [Trie.walk, hnode]

end Trie

/-- No key is led out of the filter's words or, past the filter, out of the trie's nodes. -/
structure Searchable (h : Hashing) (t : Trie) (f : BloomFilter) : Prop where
  words : f.bits = [] → f.numHashes = 0
  nodes : t.arena ≠ [] → ∀ pre j, t.Reaches pre j → t.arena.length ≤ j →
    ∀ key, pre <+: key → f.contains h key = some false

theorem contains_none_iff {f : BloomFilter} {buffer : Blob} (hf : f.InBlock buffer) {h : Hashing}
    {key : Blob} : f.contains h key = none ↔ f.bits = [] ∧ f.numHashes ≠ 0 := by
  by_cases hnil : f.bits = []
  · have hzero : f.numBits = 0 := by
      rw [hf.numBits, hnil]
      rfl
    have hbit : ∀ h1 h2 i, f.bitIdx h1 h2 i = none := fun _ _ _ => if_pos hzero
    rw [BloomFilter.contains]
    cases f.numHashes with
    | zero => simp [BloomFilter.containsLoop]
    | succ n => simp [BloomFilter.containsLoop, hbit, hnil]
  · obtain ⟨b, hb⟩ := BloomFilter.Formed.contains_isSome ⟨hnil, hf.numBits,
      hf.words, hf.numHashes⟩ h key
    simp [hb, hnil]

theorem searchable_iff {h : Hashing} {i : SstIndex} {buffer : Blob}
    (hf : i.bloomFilter.InBlock buffer) :
    (∀ key, i.getOffsetForKey h key ≠ none) ↔ Searchable h i.trie i.bloomFilter := by
  simp only [SstIndex.getOffsetForKey, Option.bind_eq_bind, Option.pure_def]
  constructor
  · intro hsearch
    constructor
    · intro hnil
      by_contra hhashes
      apply hsearch []
      rw [(contains_none_iff hf).mpr ⟨hnil, hhashes⟩, Option.bind_none]
    · intro hne pre j hreach hout key hpre
      have hget : i.trie.get key = none := Trie.get_none_iff.mpr ⟨hne, pre, j, hpre, hreach, hout⟩
      have hkey := hsearch key
      rw [hget] at hkey
      cases hcontains : i.bloomFilter.contains h key with
      | none => simp [hcontains] at hkey
      | some b =>
        cases b with
        | false => rfl
        | true => simp [hcontains] at hkey
  · intro hsearch key hnone
    rw [Option.bind_eq_none_iff] at hnone
    cases hcontains : i.bloomFilter.contains h key with
    | none =>
      obtain ⟨hnil, hhashes⟩ := (contains_none_iff hf).mp hcontains
      exact hhashes (hsearch.words hnil)
    | some b =>
      have hget := hnone b hcontains
      cases b with
      | false => cases hget
      | true =>
        obtain ⟨hne, pre, j, hpre, hreach, hout⟩ := Trie.get_none_iff.mp hget
        rw [hsearch.nodes hne pre j hreach hout key hpre] at hcontains
        cases hcontains

/-! ## Safe files -/

/-- The file is rejected at its header, or at the end of its index block; or both blocks begin with
what their readers take, there is memory for them and for the trie's nodes, and the index leads no
key astray. -/
inductive OpensSafely (memory : Nat) (h : Hashing) (content : Blob) : Prop
  | header (hheader : HeaderFails content)
  | cut (hfooter : FooterSound memory content) (hcut : IndexCut content)
  | blocks (t : Trie) (f : BloomFilter) (hfooter : FooterSound memory content)
      (hfilter : FilterSound memory content) (hsized : t.Sized)
      (hnodes : Allocates memory (Trie.nodeSize * t.arena.length))
      (hindex : t.bytes <+: indexBlock content) (hbloom : f.InBlock (filterBlock content))
      (hsearch : Searchable h t f)

/-- A file opens without a panic or an abort, as a table whose index every key can be searched in,
or as an error, if and only if it opens safely. -/
theorem opens_safely_iff (memory : Nat) (h : Hashing) (content : Blob) :
    (SSTable.fromFdWithin memory (.opened content []) ≠ none ∧
      ∀ s, SSTable.fromFdWithin memory (.opened content []) = some (.ok s) →
        ∀ key, s.index.getOffsetForKey h key ≠ none) ↔
    OpensSafely memory h content := by
  by_cases hheader : HeaderFails content
  · obtain ⟨e, herror⟩ := SSTable.fromFd_invalid hheader
    rw [herror]
    exact ⟨fun _ => .header hheader, fun _ => ⟨Option.some_ne_none _, nofun⟩⟩
  by_cases hfooter : FooterSound memory content
  · by_cases hcut : IndexCut content
    · obtain ⟨version, hload⟩ := SSTable.fromFd_index hheader
      obtain ⟨fd, hindex⟩ := fromDiskSstable_cut hfooter hcut headerSize
      rw [hload, hindex]
      exact ⟨fun _ => .cut hfooter hcut, fun _ => ⟨Option.some_ne_none _, nofun⟩⟩
    · obtain ⟨version, fd, _, _, hblocks⟩ := SSTable.fromFd_blocks hheader hfooter hcut
      constructor
      · rintro ⟨hsome, hsearch⟩
        obtain ⟨r, hr⟩ := Option.ne_none_iff_exists'.mp hsome
        have hload := hr
        rw [hblocks, Option.bind_eq_some_iff] at hr
        obtain ⟨trie, htrie, hr⟩ := hr
        split at hr
        · rename_i hfilter
          obtain ⟨bloomFilter, hbloom, rfl⟩ := Option.map_eq_some_iff.mp hr
          obtain ⟨hnodes, hsized, hbytes⟩ := Trie.deserializeWithin_iff.mp htrie
          have hblock := BloomFilter.fromBytes_iff.mp hbloom
          exact .blocks trie bloomFilter hfooter hfilter hsized hnodes hbytes hblock
            ((searchable_iff hblock).mp (hsearch _ hload))
        · cases hr
      · intro hsafe
        obtain ⟨hfails⟩ | ⟨_, hcut'⟩ | ⟨t, f, _, hfilter, hsized, hnodes, hbytes,
          hblock, hsearch⟩ := hsafe
        · exact absurd hfails hheader
        · exact absurd hcut' hcut
        · rw [hblocks, Trie.deserializeWithin_iff.mpr ⟨hnodes, hsized, hbytes⟩, Option.bind_some,
            if_pos hfilter, BloomFilter.fromBytes_iff.mpr hblock, Option.map_some]
          refine ⟨Option.some_ne_none _, ?_⟩
          intro s hs
          cases hs
          exact (searchable_iff hblock).mpr hsearch
  · obtain ⟨version, hload⟩ := SSTable.fromFd_index hheader
    rw [hload, fromDiskSstable_unsound hfooter]
    constructor
    · rintro ⟨hsome, _⟩
      exact absurd rfl hsome
    · intro hsafe
      obtain ⟨hfails⟩ | ⟨hsound, _⟩ | ⟨_, _, hsound⟩ := hsafe
      · exact absurd hfails hheader
      · exact absurd hsound hfooter
      · exact absurd hsound hfooter

/-- A file that ends behind its version: the footer's offset underflows. -/
theorem header_only_panics :
    SSTable.fromFd (.opened [108, 115, 109, 108, 105, 116, 101, 0, 0] []) = none := by
  decide +kernel

end Lsmlite
