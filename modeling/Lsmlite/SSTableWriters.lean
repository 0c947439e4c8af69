import Lsmlite.MemtableCount
import Lsmlite.SSTableSorted
import Mathlib.Data.List.Perm.Basic
import Mathlib.Data.List.Sort

/-!
# The two writers

A flush walks the tree of a memtable, a compaction pushes records one by one through a buffer. From
the same records they write the same file, but for the bloom filter.
-/

namespace Lsmlite
open Bytes KeyValue

/-! ## The records of a memtable -/

/-- The records as they stand in the arena, in key order. -/
structure InKeyOrder (t : MemtableInner) (rs : List Record) : Prop where
  perm : rs.Perm (t.arena.map (·.record))
  ascending : rs.Pairwise (·.keyBytes < ·.keyBytes)

/-- The prefixes of the keys, each once. -/
def keyPrefixes (rs : List Record) : List Blob := (rs.flatMap (·.keyBytes.inits)).dedup

/-- One record stands for one entry each. -/
abbrev StandFor (rs : List Record) (es : Entries) : Prop :=
  List.Forall₂ (fun r w => r.Canonical w.1 w.2) rs es

theorem StandFor.keys {rs : List Record} {es : Entries} (h : StandFor rs es) :
    rs.map (·.keyBytes) = es.map (·.1) := by
  induction h with
  | nil => rfl
  | cons hr _ ih => rw [List.map_cons, List.map_cons, hr.keyBytes, ih]

theorem StandFor.blobs {rs : List Record} {es : Entries} (h : StandFor rs es) :
    blobs rs = logBlob es := by
  induction h with
  | nil => rfl
  | @cons r w rs es hr _ ih =>
    have hhead : r.blob = (Record.of w.1 w.2).blob := hr.blob
    simp only [Lsmlite.blobs, logBlob, List.flatMap_cons, hhead] at ih ⊢
    rw [ih]

theorem StandFor.split {pre rest : List Record} {es : Entries} (h : StandFor (pre ++ rest) es) :
    ∃ es1 es2, es = es1 ++ es2 ∧ StandFor pre es1 ∧ StandFor rest es2 := by
  induction pre generalizing es with
  | nil => exact ⟨[], es, rfl, .nil, h⟩
  | cons r pre ih =>
    obtain ⟨w, es', hr, hrest, rfl⟩ := List.forall₂_cons_left_iff.mp h
    obtain ⟨es1, es2, rfl, hpre, hrest⟩ := ih hrest
    exact ⟨w :: es1, es2, rfl, .cons hr hpre, hrest⟩

theorem StandFor.keyPrefixes {rs : List Record} {es : Entries} (h : StandFor rs es) :
    keyPrefixes rs = prefixes es := by
  have hrs : rs.flatMap (·.keyBytes.inits) = (rs.map (·.keyBytes)).flatMap List.inits :=
    (List.flatMap_map _ _ _).symm
  have hes : es.flatMap (fun w => w.1.inits) = (es.map (·.1)).flatMap List.inits :=
    (List.flatMap_map _ _ _).symm
  rw [Lsmlite.keyPrefixes, prefixes, hrs, hes, h.keys]

theorem StandFor.ascending {rs : List Record} {es : Entries} (h : StandFor rs es) (hs : Sorted es) :
    rs.Pairwise (·.keyBytes < ·.keyBytes) := by
  have hkeys : (es.map (·.1)).Pairwise (· < ·) := List.pairwise_map.mpr hs
  rw [← h.keys] at hkeys
  exact List.pairwise_map.mp hkeys

/-- The records of the arena in the order of the walk. -/
theorem MemtableInner.Holds.records {t : MemtableInner} {es : Entries} (h : t.Holds es) :
    ∃ rs, InKeyOrder t rs ∧ StandFor rs es := by
  have hsorted := h.sorted
  obtain ⟨tree, slot, htree, rfl⟩ := h.shape
  have hslots : StandFor (t.arena.map (·.record)) ((List.range t.arena.length).map slot) := by
    rw [StandFor, List.forall₂_iff_get]
    refine ⟨by simp, fun i hi hi' => ?_⟩
    simp only [List.length_map] at hi
    simpa using htree.canonical i _ (List.getElem?_eq_getElem hi)
  have hcomp : Relation.Comp (List.Forall₂ fun (r : Record) (w : Blob × Entry) =>
      r.Canonical w.1 w.2) List.Perm (t.arena.map (·.record)) (tree.inorder.map slot) :=
    ⟨_, hslots, (htree.perm.map slot).symm⟩
  rw [List.forall₂_comp_perm_eq_perm_comp_forall₂] at hcomp
  obtain ⟨rs, hperm, hrs⟩ := hcomp
  exact ⟨rs, ⟨hperm.symm, StandFor.ascending hrs hsorted⟩, hrs⟩

/-- Keys that differ leave one order. -/
theorem InKeyOrder.eq {t : MemtableInner} {rs rs' : List Record} (h : InKeyOrder t rs)
    (h' : InKeyOrder t rs') : rs = rs' := by
  apply List.Perm.eq_of_pairwise _ h.ascending h'.ascending (h.perm.trans h'.perm.symm)
  intro r r' _ _ hlt hgt
  exact absurd hgt (lt_asymm hlt)

/-! ## The pushes -/

/-- A push reads the key and the bytes of its record. -/
theorem pushDropped_canonical (h : Hashing) (w : CompactionWriter) {r : Record} {v : Blob × Entry}
    (hr : r.Canonical v.1 v.2) : w.pushDropped h r = w.pushDropped h (recordOf v) := by
  have hkey : (recordOf v).keySlice = some v.1 := (Record.canonical_of v.1 v.2).keySlice
  have hblob : r.blob = (recordOf v).blob := hr.blob
  have hsize : r.size = (recordOf v).size := by rw [Record.size, Record.size, hblob]
  rw [CompactionWriter.pushDropped, CompactionWriter.pushDropped, CompactionWriter.push,
    CompactionWriter.push, hr.keySlice, hkey, hblob, hsize]

theorem StandFor.pushes {rs : List Record} {es : Entries} (hrs : StandFor rs es) (h : Hashing)
    (w : CompactionWriter) : rs.foldlM (CompactionWriter.pushDropped h) w =
      (es.map recordOf).foldlM (CompactionWriter.pushDropped h) w := by
  induction hrs generalizing w with
  | nil => rfl
  | @cons r v rs es hr _ ih =>
    have hhead := pushDropped_canonical h w hr
    rw [List.map_cons, List.foldlM_cons, List.foldlM_cons]
    refine (congrArg (· >>= _) hhead).trans ?_
    exact Option.bind_congr fun w' _ => ih w'

/-- The offsets and the trie do not depend on the filter. -/
theorem indexAll_filter {h : Hashing} {es : Entries} {offset : Nat} {trie : Trie}
    {f g : BloomFilter} (hg : g.Formed) {st : Nat × Trie × BloomFilter}
    (hst : indexAll h (offset, trie, f) es = some st) :
    ∃ g', indexAll h (offset, trie, g) es = some (st.1, st.2.1, g') ∧ g'.Extends g := by
  induction es generalizing offset trie f g with
  | nil =>
    cases hst
    exact ⟨g, rfl, BloomFilter.Extends.refl hg⟩
  | cons w es ih =>
    rw [indexAll_cons, Option.bind_eq_some_iff] at hst
    obtain ⟨st1, h1, hst⟩ := hst
    simp only [indexRecord, Option.bind_eq_bind, Option.bind_eq_some_iff] at h1
    obtain ⟨f1, _, trie1, htrie, h1⟩ := h1
    cases h1
    obtain ⟨g1, hins, hext, _⟩ := hg.insert h w.1
    obtain ⟨g', hrest, hext'⟩ := ih hext.formed hst
    refine ⟨g', ?_, hext'.trans hext⟩
    rw [indexAll_cons, indexRecord]
    simp only [hins, htrie, Option.bind_eq_bind, Option.bind_some, Option.pure_def]
    exact hrest

/-! ## The parts of a file -/

/-- The last 24 bytes. -/
def footer (content : Blob) : Blob := content.drop (content.length - footerSize)

/-- The files differ at most in the block of the bloom filter. -/
structure SameButFilter (content content' : Blob) : Prop where
  header : content.take headerSize = content'.take headerSize
  data : dataRegion content = dataRegion content'
  index : indexBlock content = indexBlock content'
  footer : footer content = footer content'

/-- The index block is read as a trie that leads every key to where its record begins, with the
records of `rs` from the end of the header on. -/
def Locates (content : Blob) (rs : List Record) : Prop :=
  ∃ trie, Trie.deserializeFromDisk (indexBlock content) = some trie ∧
    ∀ pre r post, rs = pre ++ r :: post →
      trie.get r.keyBytes = some (some (headerSize + (blobs pre).length))

theorem header_tableBytes (es : Entries) (index bloom : Blob) :
    (tableBytes es index bloom).take headerSize = lsmliteSstableHeader ++ toBe 2 v0Header := by
  rw [tableBytes, List.take_left' header_length]

theorem footer_tableBytes (es : Entries) (index bloom : Blob) : footer (tableBytes es index bloom) =
    encodeFooter (headerSize + (logBlob es).length) index.length
      (headerSize + (logBlob es).length + index.length) := by
  have hlen := tableBytes_length es index bloom
  have hsplit : tableBytes es index bloom =
      ((lsmliteSstableHeader ++ toBe 2 v0Header) ++ (logBlob es ++ (index ++ bloom))) ++
        encodeFooter (headerSize + (logBlob es).length) index.length
          (headerSize + (logBlob es).length + index.length) := by
    simp only [tableBytes, List.append_assoc]
  have hfront : ((lsmliteSstableHeader ++ toBe 2 v0Header) ++ (logBlob es ++
      (index ++ bloom))).length = (tableBytes es index bloom).length - footerSize := by
    have hheader := header_length
    rw [List.length_append] at hheader
    rw [hlen]
    simp only [List.length_append]
    omega
  rw [footer, ← hfront, hsplit, List.drop_left]

/-- The footer's last word is the end of the index block. -/
theorem filterStart_tableBytes {es : Entries} {index bloom : Blob}
    (hlength : (tableBytes es index bloom).length < 2 ^ 64) :
    filterStart (tableBytes es index bloom) = headerSize + (logBlob es).length + index.length := by
  have hlen := tableBytes_length es index bloom
  have hword : filterStart (tableBytes es index bloom) =
      fromBe (((footer (tableBytes es index bloom)).drop (8 * 2)).take 8) := by
    rw [filterStart, footerWord, footer, List.drop_drop]
  have hfront :
      (toBe 8 (headerSize + (logBlob es).length) ++ toBe 8 index.length).length = 8 * 2 := by
    simp
  rw [hword, footer_tableBytes, encodeFooter, List.drop_left' hfront,
    List.take_of_length_le (by simp), fromBe_toBe (show _ < 256 ^ 8 by omega)]

theorem indexBlock_tableBytes {es : Entries} {index bloom : Blob}
    (hlength : (tableBytes es index bloom).length < 2 ^ 64) :
    indexBlock (tableBytes es index bloom) = index := by
  have hfront : ((lsmliteSstableHeader ++ toBe 2 v0Header) ++ logBlob es).length =
      headerSize + (logBlob es).length := by
    rw [List.length_append, header_length]
  rw [indexBlock, filterStart_tableBytes hlength, indexStart_tableBytes hlength, tableBytes,
    ← List.append_assoc, List.drop_left' hfront, List.take_left' (by omega)]

theorem sameButFilter_tableBytes {es : Entries} {index bloom bloom' : Blob}
    (hlength : (tableBytes es index bloom).length < 2 ^ 64)
    (hlength' : (tableBytes es index bloom').length < 2 ^ 64) :
    SameButFilter (tableBytes es index bloom) (tableBytes es index bloom') where
  header := by rw [header_tableBytes, header_tableBytes]
  data := by rw [dataRegion_tableBytes hlength, dataRegion_tableBytes hlength']
  index := by rw [indexBlock_tableBytes hlength, indexBlock_tableBytes hlength']
  footer := by rw [footer_tableBytes, footer_tableBytes]

/-! ## The offsets -/

/-- A key's record is behind those of the keys before it. -/
theorem recordOffset_at {start : Nat} {pre post : Entries} {w : Blob × Entry}
    (hs : Sorted (pre ++ w :: post)) :
    recordOffset start (pre ++ w :: post) w.1 = some (start + (logBlob pre).length) := by
  induction pre generalizing start with
  | nil => simp [recordOffset, logBlob]
  | cons v pre ih =>
    rw [List.cons_append] at hs
    obtain ⟨hv, hrest⟩ := List.pairwise_cons.mp hs
    have hne : w.1 ≠ v.1 := ne_of_gt (hv w (List.mem_append_right _ (List.mem_cons_self ..)))
    rw [List.cons_append, recordOffset, if_neg hne, ih hrest, Option.some.injEq]
    simp only [logBlob, List.flatMap_cons, List.length_append]
    omega

theorem mem_keyPrefixes {rs : List Record} {pre : Blob} :
    pre ∈ keyPrefixes rs ↔ ∃ r ∈ rs, pre <+: r.keyBytes := by
  rw [keyPrefixes, List.mem_dedup, List.mem_flatMap]
  simp only [List.mem_inits]

/-- The index locates the records if and only if no prefix of the keys goes on with every byte. -/
theorem locates_iff {h : Hashing} {rs : List Record} {es : Entries} (hrs : StandFor rs es)
    (hs : Sorted es) (hnum : Numbered es) {size : Nat} {st : Nat × Trie × BloomFilter}
    (hindexed : indexAll h (headerSize, Trie.new, BloomFilter.new h size) es = some st)
    {content : Blob} (hblock : indexBlock content = st.2.1.bytes) :
    Locates content rs ↔ Roomy (keyPrefixes rs) := by
  obtain ⟨st', hst', hb⟩ := built_all hs hnum size (h := h)
  cases hindexed.symm.trans hst'
  rw [Locates, hblock, hrs.keyPrefixes]
  constructor
  · rintro ⟨cut, hcut, hget⟩
    refine ⟨hnum.nodes, fun label _ => ?_⟩
    by_contra hall
    push Not at hall
    obtain ⟨w, hw, hlost⟩ := hb.key_lost hs hnum.nodes hindexed hall hcut
    obtain ⟨r, hr, hkey⟩ : ∃ r ∈ rs, r.keyBytes = w.1 := by
      have hmem : w.1 ∈ rs.map (·.keyBytes) := hrs.keys ▸ List.mem_map_of_mem hw
      exact List.mem_map.mp hmem
    obtain ⟨pre, post, hsplit⟩ := List.append_of_mem hr
    have hfound := hget pre r post hsplit
    rw [hkey, hlost] at hfound
    cases hfound
  · intro hroom
    refine ⟨st.2.1, hb.maps.codec hroom, ?_⟩
    rintro pre r post rfl
    obtain ⟨es1, es2, rfl, hpre, hrest⟩ := StandFor.split hrs
    cases hrest with
    | @cons _ w _ post' hr _ =>
      rw [hb.maps.get, hr.keyBytes, recordOffset_at hs, StandFor.blobs hpre]

/-! ## The writers agree -/

/-- What `finish` leaves behind the pushes of records in key order, next to what a flush leaves. -/
theorem finish_same {h : Hashing} {t : MemtableInner} {es : Entries} (ht : t.Holds es)
    {rs : List Record} (hrs : StandFor rs es) {fd : File}
    (hwrite : (writeSstable h t).runOn (File.create []) = some (.ok (), fd))
    (hlength : fd.content.length < 2 ^ 63) (ts : Nat) :
    ∃ w0 w path file, CompactionWriter.new h ts [] = some (.ok w0) ∧
      rs.foldlM (CompactionWriter.pushDropped h) w0 = some w ∧ w.finish = some (.ok path, file) ∧
      ∃ st index bloom bloom', indexAll h (headerSize, Trie.new, BloomFilter.new h es.length) es =
        some st ∧ st.2.1.serialize = some index ∧ fd.content = tableBytes es index bloom ∧
        file.content = tableBytes es index bloom' ∧ file.content.length < 2 ^ 64 := by
  rw [writeSstable_run h ht, Option.bind_eq_some_iff] at hwrite
  obtain ⟨st, hindexed, hwrite⟩ := hwrite
  obtain ⟨index, hindex, hwrite⟩ := Option.bind_eq_some_iff.mp hwrite
  obtain ⟨bloom, _, hfd⟩ := Option.map_eq_some_iff.mp hwrite
  cases hfd
  obtain ⟨w0, hnew, hw0, hstart⟩ := CompactionWriter.new_written h ts
  obtain ⟨filter, hindexed', hext⟩ := indexAll_filter (BloomFilter.formed_new h 1024) hindexed
  rcases hw0.pushAll h es with ⟨hnone, _⟩ | ⟨w, hsome, hpush, hw⟩
  · rw [hstart, hindexed'] at hnone
    cases hnone
  · rw [hstart, hindexed', Option.some.injEq] at hsome
    have htrie : w.trie = st.2.1 := (congrArg (·.2.1) hsome).symm
    have hfilter : w.bloomFilter = filter := (congrArg (·.2.2) hsome).symm
    have hdisk : w.diskOffset = headerSize + (logBlob es).length := by
      have hoffset : w.diskOffset = st.1 := (congrArg (·.1) hsome).symm
      rw [hoffset]
      exact indexAll_disk hindexed
    have hbytes := bloom_bytes_lt hext (show 1024 < 2 ^ 32 by decide)
    have hfinish := hw.finish hdisk
    rw [List.nil_append, htrie, hfilter, hindex, Option.bind_some,
      BloomFilter.serialize_eq (show filter.bytes.length < 2 ^ 63 by omega)] at hfinish
    have hlen := tableBytes_length es index bloom
    have hlen' := tableBytes_length es index filter.bytes
    exact ⟨w0, w, w.filename, _, hnew, (hrs.pushes h w0).trans hpush, hfinish, st, index, bloom,
      filter.bytes, hindexed, hindex, rfl, rfl, by dsimp only at hlength ⊢; omega⟩

/-- The two writers make one file of a memtable, but for the bloom filter. Its index locates every
record if no node of the trie is full, and where the trie can be numbered only then. -/
theorem writers_agree {h : Hashing} {t : MemtableInner} (ht : t.Reached) {rs : List Record}
    (hrs : InKeyOrder t rs) {fd : File}
    (hwrite : (writeSstable h t).runOn (File.create []) = some (.ok (), fd))
    (hlength : fd.content.length < 2 ^ 63) (ts : Nat) :
    ∃ w0 w path file, CompactionWriter.new h ts [] = some (.ok w0) ∧
      rs.foldlM (CompactionWriter.pushDropped h) w0 = some w ∧ w.finish = some (.ok path, file) ∧
      SameButFilter fd.content file.content ∧ dataRegion fd.content = blobs rs ∧
      (Roomy (keyPrefixes rs) → Locates fd.content rs ∧ Locates file.content rs) ∧
      ((keyPrefixes rs).length < 2 ^ 32 → Locates fd.content rs ∨ Locates file.content rs →
        Roomy (keyPrefixes rs)) := by
  obtain ⟨es, hes⟩ := ht.holds
  obtain ⟨rs', hrs', hstand⟩ := hes.records
  obtain rfl := hrs.eq hrs'
  obtain ⟨w0, w, path, file, hnew, hpush, hfinish, st, index, bloom, bloom', hindexed, hindex, hfd,
    hfile, hlength'⟩ := finish_same hes hstand hwrite hlength ts
  rw [hfile] at hlength'
  have hlong := hlength
  rw [hfd] at hlength
  have hlt : (tableBytes es index bloom).length < 2 ^ 64 := by omega
  have hlocates : (keyPrefixes rs).length < 2 ^ 32 →
      (Locates fd.content rs ↔ Roomy (keyPrefixes rs)) ∧
          (Locates file.content rs ↔ Roomy (keyPrefixes rs)) := by
    intro hnodes
    have hlen := tableBytes_length es index bloom
    rw [hstand.keyPrefixes] at hnodes
    have hnum : Numbered es := ⟨hnodes, by omega⟩
    obtain ⟨st', hst', hb⟩ := built_all hes.sorted hnum es.length (h := h)
    cases hindexed.symm.trans hst'
    have hcount := length_le_prefixes hes.sorted
    have hblock := (index_blocks hnum hb (by omega)).1
    cases hindex.symm.trans hblock
    constructor
    · exact locates_iff hstand hes.sorted hnum hindexed (hfd ▸ indexBlock_tableBytes hlt)
    · exact locates_iff hstand hes.sorted hnum hindexed (hfile ▸ indexBlock_tableBytes hlength')
  refine ⟨w0, w, path, file, hnew, hpush, hfinish, ?_, ?_, ?_, ?_⟩
  · rw [hfd, hfile]
    exact sameButFilter_tableBytes hlt hlength'
  · rw [hfd, dataRegion_tableBytes hlt, hstand.blobs]
  · intro hroom
    exact ⟨(hlocates hroom.nodes).1.mpr hroom, (hlocates hroom.nodes).2.mpr hroom⟩
  · rintro hnodes (hfound | hfound)
    · exact (hlocates hnodes).1.mp hfound
    · exact (hlocates hnodes).2.mp hfound

/-- Two values and a key that begins as another. -/
theorem writers_agree_written :
    ∃ (t : MemtableInner) (rs : List Record) (fd : File), InKeyOrder t rs ∧
    rs.length = 2 ∧ (∀ r ∈ t.arena.map (·.record), r.recordType = .data) ∧
    ∃ w0 w path file, CompactionWriter.new flatHashing 7 [] = some (.ok w0) ∧
      rs.foldlM (CompactionWriter.pushDropped flatHashing) w0 = some w ∧
        w.finish = some (.ok path, file) ∧
      SameButFilter fd.content file.content ∧ dataRegion fd.content = blobs rs ∧
      (Roomy (keyPrefixes rs) → Locates fd.content rs ∧ Locates file.content rs) ∧
      ((keyPrefixes rs).length < 2 ^ 32 → Locates fd.content rs ∨ Locates file.content rs →
        Roomy (keyPrefixes rs)) := by
  have hrun :
      (([⟨[98, 97], .data [1, 2], ⟨0, 0⟩⟩, ⟨[98], .data [], ⟨0, 0⟩⟩].foldlM MemtableInner.call
      (.new 100 5 (Wal.new 0 0 []))).bind fun t =>
        ((writeSstable flatHashing t).runOn (File.create [])).map fun p =>
        (p.1, p.2.content.length, t.arena.map (·.record.recordType))) =
      some (.ok (), 112, [.data, .data]) := by
    decide +kernel
  obtain ⟨t, ht, hwrite⟩ := Option.bind_eq_some_iff.mp hrun
  obtain ⟨⟨r, fd⟩, hwrite, heq⟩ := Option.map_eq_some_iff.mp hwrite
  simp only [Prod.mk.injEq] at heq
  obtain ⟨rfl, hlength, htypes⟩ := heq
  have hreached := (MemtableInner.Reached.new 100 5 (Wal.new 0 0 [])).calls ht
  obtain ⟨es, hes⟩ := hreached.holds
  obtain ⟨rs, hrs, _⟩ := hes.records
  have hcount : t.arena.length = 2 := by simpa using congrArg List.length htypes
  refine ⟨t, rs, fd, hrs, ?_, ?_, writers_agree hreached hrs hwrite (by omega) 7⟩
  · rw [hrs.perm.length_eq, List.length_map, hcount]
  · intro r hr
    obtain ⟨node, hnode, rfl⟩ := List.mem_map.mp hr
    have hmem : node.record.recordType ∈ t.arena.map (·.record.recordType) :=
      List.mem_map.mpr ⟨node, hnode, rfl⟩
    simpa [htypes] using hmem

/-! ## A table with every key of one byte -/

/-- An empty value under each of the first `n` keys of one byte. -/
def byteEntries (n : Nat) : Entries := (List.range n).map fun i => ([UInt8.ofNat i], .data [])

theorem byteEntries_succ (n : Nat) :
    byteEntries (n + 1) = byteEntries n ++ [([UInt8.ofNat n], .data [])] := by
  rw [byteEntries, List.range_succ, List.map_append]
  rfl

theorem byteEntries_below {n : Nat} (hn : n < 256) :
    ∀ w ∈ byteEntries n, w.1 < [UInt8.ofNat n] := by
  intro w hw
  obtain ⟨i, hi, rfl⟩ := List.mem_map.mp hw
  rw [List.mem_range] at hi
  have hlt : UInt8.ofNat i < UInt8.ofNat n := by
    rw [UInt8.lt_iff_toNat_lt, UInt8.toNat_ofNat', UInt8.toNat_ofNat']
    omega
  exact List.Lex.rel hlt

theorem byteRecord_length (c : UInt8) : (Record.of [c] (.data [])).blob.length = 5 := by
  simp [Record.of, Record.body, Entry.tail, leb_small]

theorem logBlob_byteEntries (n : Nat) : (logBlob (byteEntries n)).length = 5 * n := by
  induction n with
  | zero => rfl
  | succ n ih =>
    rw [byteEntries_succ, logBlob_append, logBlob_singleton,
      List.length_append, ih, byteRecord_length]
    rfl

/-- The log of such writes is replayed. -/
theorem byteEntries_replayed {n : Nat} (hn : n ≤ 256) : ∃ t : MemtableInner, t.Reached ∧
    t.Holds (byteEntries n) ∧ (∀ m ∈ t.arena, m.record.recordType = .data) ∧ t.capacity = 256 ∧
    t.maxSize = 2000 ∧ t.currentSize ≤ 5 * n := by
  induction n with
  | zero =>
    refine ⟨_, .new 2000 256 (Wal.new 0 0 []), MemtableInner.holds_new ..,
      ?_, rfl, rfl, Nat.le_refl _⟩
    simp [MemtableInner.new]
  | succ n ih =>
    obtain ⟨t, ht, hes, hdata, hcapacity, hmax, hsize⟩ := ih (by omega)
    have hbelow := byteEntries_below (show n < 256 by omega)
    have hlast : last [UInt8.ofNat n] (byteEntries n) = none :=
      last_eq_none_iff.mpr fun w hw => ne_of_lt (hbelow w hw)
    have hfits : Record.Fits [UInt8.ofNat n] (.data []) := by
      rw [Record.Fits, byteRecord_length]
      omega
    have hfull : t.full = false := by
      have hlength := hes.length
      rw [byteEntries, List.length_map, List.length_range] at hlength
      rw [MemtableInner.full, hcapacity, hmax, ← hlength]
      simp only [Bool.or_eq_false_iff, decide_eq_false_iff_not]
      omega
    obtain ⟨t', hinsert, hins⟩ := hes.insertNode hfits fun old value hold => by
      rw [hlast] at hold
      cases hold
    have hholds := hins.holds
    rw [← List.append_nil (byteEntries n), insert_between _ hbelow (by simp),
      ← byteEntries_succ] at hholds
    have hreplay : t.insertRecordFromWal (Record.of [UInt8.ofNat n] (.data [])) = some t' := by
      rw [MemtableInner.insertRecordFromWal, hfull]
      exact hinsert
    refine ⟨t', ht.replay (Or.inl ⟨_, _, Record.encodeDataRecord_eq hfits⟩) hreplay, hholds, ?_,
      hins.capacity.trans hcapacity, hins.maxSize.trans hmax, ?_⟩
    · intro m hm
      rcases hins.records m hm with ⟨m', hm', hsame⟩ | ⟨_, hnew⟩
      · rw [hsame]
        exact hdata m' hm'
      · rw [hnew hlast, Record.of_recordType]
    · rw [hes.insertNode_currentSize hinsert, recordSize, Record.size, byteRecord_length]
      split <;> omega

/-- With every key of one byte the root of the trie is full, and its index locates no key. -/
theorem every_byte_misplaced : ∃ (t : MemtableInner) (rs : List Record) (fd : File), t.Reached ∧
    InKeyOrder t rs ∧ (∀ r ∈ rs, r.recordType = .data) ∧
    (writeSstable flatHashing t).runOn (File.create []) = some (.ok (), fd) ∧
    fd.content.length < 2 ^ 63 ∧ ¬ Locates fd.content rs := by
  obtain ⟨t, ht, hes, hdata, _⟩ := byteEntries_replayed (Nat.le_refl 256)
  obtain ⟨rs, hrs, hstand⟩ := hes.records
  have hnum : Numbered (byteEntries 256) := by
    refine ⟨?_, by rw [logBlob_byteEntries, headerSize]; omega⟩
    have hle := (List.dedup_sublist ((byteEntries 256).flatMap fun w => w.1.inits)).length_le
    have hlength : ((byteEntries 256).flatMap fun w => w.1.inits).length = 512 := by
      decide +kernel
    rw [prefixes]
    omega
  obtain ⟨st, hindexed, hb, hwrite⟩ := writeSstable_eq flatHashing hes hnum
  have hcount : (byteEntries 256).length = 256 := by
    rw [byteEntries, List.length_map, List.length_range]
  have htrie := hb.maps.bytes_lt hnum.nodes
  have hbloom := bloom_bytes_lt hb.extends_new (show (byteEntries 256).length < 2 ^ 32 by omega)
  have hlen := tableBytes_length (byteEntries 256) st.2.1.bytes st.2.2.bytes
  rw [logBlob_byteEntries] at hlen
  simp only [headerSize, footerSize] at hlen
  refine ⟨t, rs, _, ht, hrs, ?_, hwrite, ?_, ?_⟩
  · intro r hr
    obtain ⟨m, hm, rfl⟩ := List.mem_map.mp (hrs.perm.mem_iff.mp hr)
    exact hdata m hm
  · show (tableBytes (byteEntries 256) st.2.1.bytes st.2.2.bytes).length < 2 ^ 63
    omega
  · intro hlocates
    have hblock : indexBlock (sstableImage (byteEntries 256) st.2.1 st.2.2) = st.2.1.bytes :=
      indexBlock_tableBytes (show (tableBytes _ _ st.2.2.bytes).length < 2 ^ 64 by omega)
    have hroom := (locates_iff hstand hes.sorted hnum hindexed hblock).mp hlocates
    have hall : ∀ c : UInt8, ∃ w ∈ byteEntries 256, [] ++ [c] = w.1 := by
      intro c
      refine ⟨([UInt8.ofNat c.toNat], .data []), List.mem_map.mpr ⟨c.toNat, ?_, rfl⟩, by simp⟩
      exact List.mem_range.mpr c.toNat_lt
    have hin : ∀ c : UInt8, [] ++ [c] ∈ keyPrefixes rs := by
      intro c
      obtain ⟨w, hw, hkey⟩ := hall c
      rw [hstand.keyPrefixes, hkey]
      exact mem_prefixes hw (List.prefix_refl _)
    have hroot : ([] : Blob) ∈ keyPrefixes rs := by
      obtain ⟨r, hr, _⟩ := mem_keyPrefixes.mp (hin 0)
      exact mem_keyPrefixes.mpr ⟨r, hr, List.nil_prefix⟩
    obtain ⟨c, hc⟩ := hroom.children [] hroot
    exact hc (hin c)

end Lsmlite
