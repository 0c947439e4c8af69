import Lsmlite.IndexCodec
import Lsmlite.MemtableMap
import Lsmlite.SSTable
import Mathlib.Data.List.Dedup
import Mathlib.Data.List.Infix

/-!
# The SSTable format

What is written from a sorted list of entries is loaded as a table that holds that list. What
this takes is `Representable`, of the keys and the size.
-/

namespace Lsmlite
open Bytes KeyValue

/-! ## The file -/

/-- Where the record of a key begins, with the first record at `start`. -/
def recordOffset (start : Nat) : Entries → Blob → Option Nat
  | [], _ => none
  | w :: ws, key =>
    if key = w.1 then some start else recordOffset (start + (Record.of w.1 w.2).blob.length) ws key

/-- The prefixes of the keys, each once. -/
def prefixes (es : Entries) : List Blob := (es.flatMap fun w => w.1.inits).dedup

/-- The trie can number the prefixes, and the offsets fit their words. -/
structure Representable (es : Entries) : Prop where
  roomy : Roomy (prefixes es)
  size : headerSize + (logBlob es).length < 2 ^ 63

/-- As `Representable`, but a node may have a child for every byte. -/
structure Numbered (es : Entries) : Prop where
  nodes : (prefixes es).length < 2 ^ 32
  size : headerSize + (logBlob es).length < 2 ^ 63

theorem Representable.numbered {es : Entries} (h : Representable es) : Numbered es :=
  ⟨h.roomy.nodes, h.size⟩

/-- No prefix goes on with a zero byte. -/
theorem representable_of_gap {es : Entries} (hnodes : (prefixes es).length < 2 ^ 32)
    (hgap : ∀ label ∈ prefixes es, label ++ [0] ∉ prefixes es)
    (hsize : headerSize + (logBlob es).length < 2 ^ 63) :
    Representable es :=
  ⟨⟨hnodes, fun label hlabel => ⟨0, hgap label hlabel⟩⟩, hsize⟩

theorem mem_prefixes {es : Entries} {w : Blob × Entry} (hw : w ∈ es) {pre : Blob}
    (hpre : pre <+: w.1) : pre ∈ prefixes es := by
  rw [prefixes, List.mem_dedup, List.mem_flatMap]
  exact ⟨w, hw, (List.mem_inits _ _).mpr hpre⟩

theorem recordOffset_eq_none_iff {start : Nat} {es : Entries} {key : Blob} :
    recordOffset start es key = none ↔ last key es = none := by
  induction es generalizing start with
  | nil => simp [recordOffset]
  | cons w es ih =>
    rw [recordOffset, last_cons, Option.or_eq_none_iff]
    split
    · simp
    · simp [ih]

theorem recordOffset_snoc (start : Nat) (es : Entries) (key : Blob) (e : Entry)
    (hnew : ∀ w ∈ es, w.1 ≠ key) :
    recordOffset start (es ++ [(key, e)]) =
      Function.update (recordOffset start es) key (some (start + (logBlob es).length)) := by
  induction es generalizing start with
  | nil =>
    funext k
    by_cases hk : k = key
    · simp [recordOffset, hk, logBlob]
    · simp [recordOffset, hk]
  | cons w es ih =>
    have htail := ih (start + (Record.of w.1 w.2).blob.length)
      fun w' hw' => hnew w' (List.mem_cons_of_mem _ hw')
    have hlen : start + (Record.of w.1 w.2).blob.length + (logBlob es).length =
        start + (logBlob (w :: es)).length := by
      simp only [logBlob, List.flatMap_cons, List.length_append]
      omega
    funext k
    rw [List.cons_append, recordOffset, htail, hlen]
    by_cases hk : k = key
    · subst hk
      rw [if_neg fun h => hnew w (List.mem_cons_self ..) h.symm, Function.update_self,
        Function.update_self]
    · rw [Function.update_of_ne hk, Function.update_of_ne hk, recordOffset]

/-- The record of a key found at its offset. -/
theorem recordOffset_split {start : Nat} {es : Entries} {key : Blob} {offset : Nat}
    (hs : Sorted es) (h : recordOffset start es key = some offset) :
    ∃ e pre suf, last key es = some e ∧ logBlob es = pre ++ ((Record.of key e).blob ++ suf) ∧
      offset = start + pre.length := by
  induction es generalizing start with
  | nil => cases h
  | cons w es ih =>
    obtain ⟨hw, hes⟩ := List.pairwise_cons.mp hs
    have hcons : logBlob (w :: es) = (Record.of w.1 w.2).blob ++ logBlob es := by simp [logBlob]
    rw [recordOffset] at h
    split at h
    · rename_i hk
      cases h
      refine ⟨w.2, [], logBlob es, ?_, by rw [hk, hcons, List.nil_append], rfl⟩
      exact last_of_mem hs (hk ▸ List.mem_cons_self ..)
    · obtain ⟨e, pre, suf, hlast, hblob, hoff⟩ := ih hes h
      refine ⟨e, (Record.of w.1 w.2).blob ++ pre, suf, ?_, ?_, ?_⟩
      · rw [last_cons, hlast, Option.some_or]
      · rw [hcons, hblob, List.append_assoc]
      · rw [List.length_append]
        omega

/-! ## The index of the records written so far -/

/-- The next offset, the trie and the bloom filter behind one more record. -/
def indexRecord (h : Hashing) (st : Nat × Trie × BloomFilter) (w : Blob × Entry) :
    Option (Nat × Trie × BloomFilter) := do
  let bloomFilter ← st.2.2.insert h w.1
  let trie ← st.2.1.insert w.1 st.1
  return (st.1 + (Record.of w.1 w.2).blob.length, trie, bloomFilter)

def indexAll (h : Hashing) (st : Nat × Trie × BloomFilter) (es : Entries) :
    Option (Nat × Trie × BloomFilter) := es.foldlM (indexRecord h) st

theorem indexRecord_disk {h : Hashing} {st st' : Nat × Trie × BloomFilter} {w : Blob × Entry}
    (hst : indexRecord h st w = some st') : st'.1 = st.1 + (Record.of w.1 w.2).blob.length := by
  simp only [indexRecord, Option.bind_eq_bind, Option.bind_eq_some_iff] at hst
  obtain ⟨_, _, _, _, hst⟩ := hst
  cases hst
  rfl

theorem indexAll_cons (h : Hashing) (st : Nat × Trie × BloomFilter) (w : Blob × Entry)
    (es : Entries) :
    indexAll h st (w :: es) = (indexRecord h st w).bind fun st => indexAll h st es :=
      List.foldlM_cons

theorem indexAll_append (h : Hashing) (st : Nat × Trie × BloomFilter) (es es' : Entries) :
    indexAll h st (es ++ es') = (indexAll h st es).bind fun st => indexAll h st es' :=
      List.foldlM_append

theorem indexAll_disk {h : Hashing} {es : Entries} {st st' : Nat × Trie × BloomFilter}
    (hst : indexAll h st es = some st') : st'.1 = st.1 + (logBlob es).length := by
  induction es generalizing st with
  | nil =>
    cases hst
    rfl
  | cons w es ih =>
    rw [indexAll_cons] at hst
    obtain ⟨st1, h1, hst⟩ := Option.bind_eq_some_iff.mp hst
    rw [ih hst, indexRecord_disk h1, Nat.add_assoc]
    simp [logBlob]

/-- The next offset, the trie and the bloom filter behind the records of `es`; `size` is what the
filter was made for. -/
structure Built (h : Hashing) (all : List Blob) (size : Nat) (es : Entries)
    (st : Nat × Trie × BloomFilter) : Prop where
  diskSize : st.1 = headerSize + (logBlob es).length
  maps : st.2.1.Maps all (recordOffset headerSize es)
  extends_new : st.2.2.Extends (BloomFilter.new h size)
  added : ∀ w ∈ es, st.2.2.Added h w.1

theorem built_new (h : Hashing) (all : List Blob) (size : Nat) :
    Built h all size [] (headerSize, Trie.new, BloomFilter.new h size) where
  diskSize := rfl
  maps := Trie.maps_new all
  extends_new := BloomFilter.Extends.refl (BloomFilter.formed_new h size)
  added _ hw := by cases hw

/-- One more record is indexed. -/
theorem Built.record {h : Hashing} {all : List Blob} {size : Nat} {es : Entries} {diskSize : Nat}
    {trie : Trie} {bloomFilter : BloomFilter}
    (hb : Built h all size es (diskSize, trie, bloomFilter)) {key : Blob} {e : Entry}
    (hnew : ∀ w ∈ es, w.1 ≠ key) (hroom : all.length ≤ 2 ^ 32)
    (hall : ∀ pre, pre <+: key → pre ∈ all) (hsize : headerSize + (logBlob es).length < 2 ^ 63) :
    ∃ trie' bloomFilter', bloomFilter.insert h key = some bloomFilter' ∧
      trie.insert key diskSize = some trie' ∧
      Built h all size (es ++ [(key, e)])
        (diskSize + (Record.of key e).blob.length, trie', bloomFilter') := by
  obtain ⟨hdisk, hmaps, hext, hadded⟩ := hb
  simp only at hdisk hmaps hext hadded
  obtain ⟨bloomFilter', hins, hext', hkey⟩ := hext.formed.insert h key
  obtain ⟨trie', htrie, hmaps'⟩ := hmaps.insert hroom hall (hdisk ▸ hsize)
  refine ⟨trie', bloomFilter', hins, htrie, ⟨?_, ?_, hext'.trans hext, ?_⟩⟩
  · simp only [hdisk, logBlob_append, logBlob_singleton, List.length_append]
    omega
  · rw [recordOffset_snoc _ _ _ _ hnew, ← hdisk]
    exact hmaps'
  · intro w hw
    rcases List.mem_append.mp hw with hw | hw
    · exact hext'.added (hadded w hw)
    · rw [List.mem_singleton.mp hw]
      exact hkey

/-- More records are indexed. -/
theorem Built.indexAll {h : Hashing} {all : List Blob} {size : Nat} {es rest : Entries}
    {st : Nat × Trie × BloomFilter} (hb : Built h all size es st) (hroom : all.length ≤ 2 ^ 32)
    (hsorted : Sorted (es ++ rest)) (hall : ∀ w ∈ rest, ∀ pre, pre <+: w.1 → pre ∈ all)
    (hsize : headerSize + (logBlob (es ++ rest)).length < 2 ^ 63) :
    ∃ st', Lsmlite.indexAll h st rest = some st' ∧ Built h all size (es ++ rest) st' := by
  induction rest generalizing es st with
  | nil => exact ⟨st, rfl, by simpa using hb⟩
  | cons w rest ih =>
    have hbelow : ∀ v ∈ es, v.1 < w.1 := fun v hv =>
      (List.pairwise_append.mp hsorted).2.2 v hv w (List.mem_cons_self ..)
    have hlt : headerSize + (logBlob es).length < 2 ^ 63 := by
      rw [logBlob_append, List.length_append] at hsize
      omega
    obtain ⟨diskSize, trie, bloomFilter⟩ := st
    obtain ⟨trie', bloomFilter', hins, htrie, hb1⟩ := hb.record (e := w.2)
      (fun v hv => ne_of_lt (hbelow v hv)) hroom (hall w (List.mem_cons_self ..)) hlt
    have hcat : es ++ w :: rest = es ++ [w] ++ rest := by simp
    rw [hcat] at hsorted hsize ⊢
    obtain ⟨st', hst', hb'⟩ := ih hb1 hsorted (fun v hv => hall v (List.mem_cons_of_mem _ hv)) hsize
    refine ⟨st', ?_, hb'⟩
    rw [indexAll_cons, indexRecord]
    simp only [hins, htrie, Option.bind_eq_bind, Option.bind_some, Option.pure_def]
    exact hst'

/-! ## Writing -/

/-- The bytes of a table with the records of `es` and these index and filter blocks. -/
def tableBytes (es : Entries) (index bloom : Blob) : Blob :=
  (lsmliteSstableHeader ++ toBe 2 v0Header) ++ (logBlob es ++ (index ++ (bloom ++
    encodeFooter (headerSize + (logBlob es).length) index.length
      (headerSize + (logBlob es).length + index.length))))

/-- The bytes of a table with the records of `es`. -/
def sstableImage (es : Entries) (trie : Trie) (bloomFilter : BloomFilter) : Blob :=
  (lsmliteSstableHeader ++ toBe 2 v0Header) ++ (logBlob es ++ (trie.bytes ++ (bloomFilter.bytes ++
    encodeFooter (headerSize + (logBlob es).length) trie.bytes.length
      (headerSize + (logBlob es).length + trie.bytes.length))))

theorem header_length : (lsmliteSstableHeader ++ toBe 2 v0Header).length = headerSize := rfl

namespace Fd

theorem write_append (content buf : Blob) :
    (write buf).runOn ⟨content, content.length, []⟩ =
      some (.ok buf.length, ⟨content ++ buf, (content ++ buf).length, []⟩) := by
  rw [write, Fallible.runOn_step, File.write_append]

end Fd

/-- The walk writes the records in order and indexes them. -/
theorem inorderFlush_eq (h : Hashing) {arena : Arena} {slot : Nat → Blob × Entry}
    (hcanon : ∀ i (n : MemtableNode), arena[i]? = some n → n.record.Canonical (slot i).1 (slot i).2)
    {p : Option Nat} {tree : RedBlack.RbTree} {fuel : Nat} (hl : Linked arena p tree)
    (hfuel : tree.inorder.length ≤ fuel) (st : Nat × Trie × BloomFilter) (content : Blob) :
    (inorderFlush h arena fuel tree.root st).runOn ⟨content, content.length, []⟩ =
      (indexAll h st (tree.inorder.map slot)).map fun st' =>
        (.ok st', ⟨content ++ logBlob (tree.inorder.map slot),
          (content ++ logBlob (tree.inorder.map slot)).length, []⟩) := by
  induction tree generalizing p fuel st content with
  | nil => simp [inorderFlush, logBlob, indexAll]
  | node c l i r ihl ihr =>
    obtain ⟨⟨n, hn, _, hnl, hnr, _⟩, hl, hr⟩ := hl
    simp only [RedBlack.RbTree.inorder_node, List.length_append, List.length_cons] at hfuel
    obtain ⟨fuel, rfl⟩ : ∃ k, fuel = k + 1 := ⟨fuel - 1, by omega⟩
    have hblob : n.record.blob = (Record.of (slot i).1 (slot i).2).blob := (hcanon i n hn).blob
    have hleft := ihl hl (show _ ≤ fuel by omega) st content
    rw [RedBlack.RbTree.root_node, inorderFlush, hn]
    refine (Fallible.bind_ok (Fallible.runOn_lift_some n _)).trans ?_
    rw [hnl]
    refine (Fallible.bind_map hleft).trans ?_
    simp only [RedBlack.RbTree.inorder_node, List.map_append, List.map_cons, indexAll_append,
      indexAll_cons, Option.map_bind]
    refine Option.bind_congr fun st1 _ => ?_
    obtain ⟨diskSize, trie, bloomFilter⟩ := st1
    simp only [hblob, (hcanon i n hn).keySlice, indexRecord, Option.bind_eq_bind, Option.bind_assoc,
      Option.map_bind, Function.comp_def]
    refine (Fallible.bind_ok (Fallible.runOn_lift_some _ _)).trans ?_
    refine (Fallible.bind_map (Fallible.runOn_lift _ _)).trans ?_
    refine Option.bind_congr fun bloomFilter' _ => ?_
    refine (Fallible.bind_map (Fallible.runOn_lift _ _)).trans ?_
    refine Option.bind_congr fun trie' _ => ?_
    refine (Fallible.bind_ok (Fd.write_append _ _)).trans ?_
    rw [hnr, ihr hr (show _ ≤ fuel by omega)]
    simp [logBlob]

/-- The keys of a sorted list are among its prefixes, each once. -/
theorem length_le_prefixes {es : Entries} (hs : Sorted es) : es.length ≤ (prefixes es).length := by
  have hnodup : (es.map (·.1)).Nodup :=
    (List.pairwise_map.mpr hs : (es.map (·.1)).Pairwise (· < ·)).imp ne_of_lt
  have hsub : es.map (·.1) ⊆ prefixes es := by
    intro key hkey
    obtain ⟨w, hw, rfl⟩ := List.mem_map.mp hkey
    exact mem_prefixes hw (List.prefix_refl _)
  have hle := (List.subperm_of_subset hnodup hsub).length_le
  rwa [List.length_map] at hle

theorem bloom_bytes_lt {h : Hashing} {size : Nat} {f : BloomFilter}
    (hf : f.Extends (BloomFilter.new h size)) (hsize : size < 2 ^ 32) :
    f.bytes.length < 2 ^ 61 := by
  have hlen : f.bits.length = (size * 10 + 63 + 63) / 64 :=
    hf.length.trans (by simp [BloomFilter.new])
  have hleb := leb_length_le_ten (show f.bits.length < 2 ^ 64 by omega)
  rw [BloomFilter.bytes_length]
  omega

theorem encodeFooter_length (a b c : Nat) : (encodeFooter a b c).length = footerSize := by
  simp [encodeFooter]

/-- What `finish` and `write_sstable` add behind the records. -/
theorem index_blocks {h : Hashing} {es : Entries} {size : Nat} {st : Nat × Trie × BloomFilter}
    (hnum : Numbered es) (hb : Built h (prefixes es) size es st) (hsize : size < 2 ^ 32) :
    st.2.1.serialize = some st.2.1.bytes ∧ st.2.2.serialize = some st.2.2.bytes := by
  have htrie := hb.maps.bytes_lt hnum.nodes
  have hbloom := bloom_bytes_lt hb.extends_new hsize
  exact ⟨Trie.serialize_eq (by omega), BloomFilter.serialize_eq (by omega)⟩

/-- The walk over a memtable indexes and writes the records it holds, in order, and the blocks come
behind them. -/
theorem writeSstable_run (h : Hashing) {t : MemtableInner} {es : Entries} (ht : t.Holds es) :
    (writeSstable h t).runOn (File.create []) =
      (indexAll h (headerSize, Trie.new, BloomFilter.new h es.length) es).bind fun st =>
        st.2.1.serialize.bind fun index => st.2.2.serialize.map fun bloom =>
          (.ok (), ⟨tableBytes es index bloom, (tableBytes es index bloom).length, []⟩) := by
  have hlen := ht.length
  obtain ⟨⟨tree, slot, htree, hes⟩, _, _⟩ := ht
  have hinorder : tree.inorder.length = t.arena.length := by
    rw [htree.perm.length_eq, List.length_range]
  have hflush :=
    inorderFlush_eq h htree.canonical htree.held.linked (show _ ≤ t.arena.length + 1 by omega)
    (headerSize, Trie.new, BloomFilter.new h t.arena.length)
      (lsmliteSstableHeader ++ toBe 2 v0Header)
  rw [← hes, ← show t.rootNode = tree.root from htree.held.root, ← hlen] at hflush
  rw [writeSstable, ← hlen]
  refine (Fallible.bind_ok (Fd.write_append [] _)).trans ?_
  refine (Fallible.bind_ok (Fd.write_append _ _)).trans ?_
  refine (Fallible.bind_map hflush).trans ?_
  refine Option.bind_congr fun st hst => ?_
  have hdisk := indexAll_disk hst
  obtain ⟨diskSize, trie, bloomFilter⟩ := st
  obtain rfl : diskSize = headerSize + (logBlob es).length := hdisk
  refine (Fallible.bind_map (Fallible.runOn_lift _ _)).trans ?_
  refine Option.bind_congr fun index _ => ?_
  refine (Fallible.bind_ok (Fd.write_append _ _)).trans ?_
  refine (Fallible.bind_map (Fallible.runOn_lift _ _)).trans ?_
  rw [Option.map_eq_bind]
  refine Option.bind_congr fun bloom _ => ?_
  refine (Fallible.bind_ok (Fd.write_append _ _)).trans ?_
  refine (Fallible.bind_ok (Fd.write_append _ _)).trans ?_
  simp [tableBytes]

theorem built_all {h : Hashing} {es : Entries} (hs : Sorted es) (hnum : Numbered es) (size : Nat) :
    ∃ st, indexAll h (headerSize, Trie.new, BloomFilter.new h size) es = some st ∧
      Built h (prefixes es) size es st :=
  (built_new h (prefixes es) size).indexAll hnum.nodes.le hs (fun _ hw _ hpre =>
    mem_prefixes hw hpre) hnum.size

/-- A memtable is written as the records it holds, in order. -/
theorem writeSstable_eq (h : Hashing) {t : MemtableInner} {es : Entries} (ht : t.Holds es)
    (hnum : Numbered es) :
    ∃ st, indexAll h (headerSize, Trie.new, BloomFilter.new h es.length) es = some st ∧
      Built h (prefixes es) es.length es st ∧
      (writeSstable h t).runOn (File.create []) =
        some (.ok (),
          ⟨sstableImage es st.2.1 st.2.2, (sstableImage es st.2.1 st.2.2).length, []⟩) := by
  have hcount := length_le_prefixes ht.sorted
  have hnodes := hnum.nodes
  obtain ⟨st, hst, hb⟩ := built_all ht.sorted hnum es.length
  obtain ⟨htrie, hbloom⟩ := index_blocks hnum hb (by omega)
  refine ⟨st, hst, hb, ?_⟩
  rw [writeSstable_run h ht, hst, Option.bind_some, htrie, Option.bind_some, hbloom]
  rfl

/-! ## A loaded table -/

/-- The table has the records of `es` in order behind its header, and indexes them. -/
structure SSTable.Holds (h : Hashing) (s : SSTable) (es : Entries) : Prop where
  content : ∃ suf, s.fd.content = (lsmliteSstableHeader ++ toBe 2 v0Header) ++ (logBlob es ++ suf)
  faults : s.fd.faults = []
  dataBlockEnd : s.index.dataBlockEnd = headerSize + (logBlob es).length
  maps : ∃ all, s.index.trie.Maps all (recordOffset headerSize es)
  formed : s.index.bloomFilter.Formed
  added : ∀ w ∈ es, s.index.bloomFilter.Added h w.1
  sorted : Sorted es
  fits : ∀ w ∈ es, Record.Fits w.1 w.2
  size : headerSize + (logBlob es).length < 2 ^ 63

/-- Reading the last thing in a file. -/
theorem readExact_end (pre mid : Blob) {pos n : Nat} (hp : pos = pre.length) (hn : n = mid.length) :
    File.readExact ⟨pre ++ mid, pos, []⟩ n = (.ok mid, ⟨pre ++ mid, pos + mid.length, []⟩) := by
  have := File.readExact_mid pre mid [] hp hn
  rwa [List.append_nil] at this

theorem fromDiskSstable_footer (pre : Blob) {a b c pos offset : Nat} (ha : a < 2 ^ 64)
    (hb : b < 2 ^ 64) (hc : c < 2 ^ 64) (ho : offset = pre.length) :
    (SSTableFooter.fromDiskSstable offset).runOn ⟨pre ++ encodeFooter a b c, pos, []⟩ =
      some (.ok ⟨a, b, c⟩, ⟨pre ++ encodeFooter a b c, offset + footerSize, []⟩) := by
  have h1 : slice (encodeFooter a b c) 0 8 = some (toBe 8 a) := by
    have := slice_mid [] (toBe 8 a) (toBe 8 b ++ toBe 8 c) rfl (show 8 = _ by simp)
    simpa [encodeFooter] using this
  have h2 : slice (encodeFooter a b c) 8 16 = some (toBe 8 b) := by
    have := slice_mid (toBe 8 a) (toBe 8 b) (toBe 8 c) (show 8 = _ by simp) (show 16 = _ by simp)
    simpa [encodeFooter] using this
  have h3 : slice (encodeFooter a b c) 16 24 = some (toBe 8 c) := by
    have :=
      slice_mid (toBe 8 a ++ toBe 8 b) (toBe 8 c) [] (show 16 = _ by simp) (show 24 = _ by simp)
    simpa [encodeFooter] using this
  rw [SSTableFooter.fromDiskSstable]
  refine (Fallible.bind_ok (show (Fd.seek offset).runOn _ = _ from rfl)).trans ?_
  refine (Fallible.bind_ok (show (Fd.readExact (3 * 8)).runOn _ = _ by
    rw [Fd.readExact, Fallible.runOn_step, readExact_end _ _ ho (by simp [encodeFooter])])).trans ?_
  rw [h1, h2, h3]
  refine (Fallible.bind_ok (Fallible.runOn_lift_some _ _)).trans ?_
  refine (Fallible.bind_ok (Fallible.runOn_lift_some _ _)).trans ?_
  refine (Fallible.bind_ok (Fallible.runOn_lift_some _ _)).trans ?_
  rw [fromBe_toBe (show a < 256 ^ 8 by omega), fromBe_toBe (show b < 256 ^ 8 by omega),
    fromBe_toBe (show c < 256 ^ 8 by omega), encodeFooter_length]
  rfl

theorem runOn_guard {σ ε : Type} {p : Prop} [Decidable p] (hp : p) (s : σ) :
    (Fallible.lift (guard p) : Fallible σ ε Unit).runOn s = some (.ok (), s) := by
  rw [guard, if_pos hp]
  rfl

theorem runOn_allocate {σ ε : Type} {memory size : Nat} (h : Allocates memory size) (s : σ) :
    (Fallible.lift (allocate memory size) : Fallible σ ε Unit).runOn s = some (.ok (), s) :=
  runOn_guard h s

/-- The index block is whatever the trie's bytes are read as. -/
theorem fromDiskSstable_image {h : Hashing} {es : Entries} {size : Nat} {trie : Trie}
    {bloomFilter : BloomFilter} (hnum : Numbered es)
    (hb : Built h (prefixes es) size es (headerSize + (logBlob es).length, trie, bloomFilter))
    (hsize : size < 2 ^ 32) (pos : Nat) :
    ∃ pos', (SstIndex.fromDiskSstable isizeMax).runOn ⟨sstableImage es trie bloomFilter, pos, []⟩ =
      (Trie.deserializeFromDisk trie.bytes).map fun loaded =>
        (.ok ⟨loaded, bloomFilter, headerSize + (logBlob es).length⟩,
          ⟨sstableImage es trie bloomFilter, pos', []⟩) := by
  have htrie := hb.maps.bytes_lt hnum.nodes
  have hbloom := bloom_bytes_lt hb.extends_new hsize
  have hrec := hnum.size
  simp only at htrie hbloom
  have hbcodec : BloomFilter.fromBytes bloomFilter.bytes = some bloomFilter :=
    hb.extends_new.formed.codec (show bloomFilter.bytes.length < 2 ^ 63 by omega)
  obtain ⟨head, hhead, hheadlen⟩ : ∃ head : Blob,
      head = (lsmliteSstableHeader ++ toBe 2 v0Header) ++ logBlob es ∧
        head.length = headerSize + (logBlob es).length :=
    ⟨_, rfl, by rw [List.length_append, header_length]⟩
  obtain ⟨foot, hfoot⟩ : ∃ foot, foot = encodeFooter (headerSize + (logBlob es).length)
    trie.bytes.length (headerSize + (logBlob es).length + trie.bytes.length) := ⟨_, rfl⟩
  have hfootlen : foot.length = footerSize := hfoot ▸ encodeFooter_length _ _ _
  have himage : sstableImage es trie bloomFilter =
      head ++ (trie.bytes ++ (bloomFilter.bytes ++ foot)) := by
    rw [sstableImage, hhead, hfoot]
    simp only [List.append_assoc]
  have himage2 : sstableImage es trie bloomFilter =
      (head ++ trie.bytes) ++ (bloomFilter.bytes ++ foot) := by rw [himage, List.append_assoc]
  have himage3 : sstableImage es trie bloomFilter =
      (head ++ trie.bytes ++ bloomFilter.bytes) ++ foot := by
    rw [himage2]
    simp only [List.append_assoc]
  have hlen : (sstableImage es trie bloomFilter).length =
      headerSize + (logBlob es).length + trie.bytes.length + bloomFilter.bytes.length +
          footerSize := by
    rw [himage3, List.length_append, List.length_append, List.length_append, hheadlen, hfootlen]
  refine ⟨headerSize + (logBlob es).length + trie.bytes.length + bloomFilter.bytes.length, ?_⟩
  rw [SstIndex.fromDiskSstable]
  refine (Fallible.bind_ok (show Fd.len.runOn _ = some (.ok _, _) from rfl)).trans ?_
  refine (Fallible.bind_ok (runOn_guard (by rw [hlen]; omega) _)).trans ?_
  refine (Fallible.bind_ok (by
    rw [himage3, hfoot]
    exact fromDiskSstable_footer _ (by omega) (by omega) (by omega) (by
      rw [← hfoot, ← himage3, hlen, List.length_append, List.length_append, hheadlen]
      omega))).trans ?_
  rw [← hfoot, ← himage3]
  dsimp only
  refine (Fallible.bind_ok (runOn_guard (by omega) _)).trans ?_
  refine (Fallible.bind_ok (runOn_allocate (allocates_isizeMax.mpr (by omega)) _)).trans ?_
  refine (Fallible.bind_ok (show (Fd.seek _).runOn _ = some (.ok _, _) from rfl)).trans ?_
  refine (Fallible.bind_ok (show (Fd.readExact _).runOn _ = some (.ok trie.bytes, _) by
    rw [Fd.readExact, Fallible.runOn_step, himage,
      File.readExact_mid head trie.bytes _ hheadlen.symm (Nat.add_sub_cancel_left ..)])).trans ?_
  rw [← himage, Trie.deserializeWithin_isizeMax]
  cases Trie.deserializeFromDisk trie.bytes with
  | none => exact Fallible.bind_panic (Fallible.runOn_lift_none _)
  | some loaded =>
  refine (Fallible.bind_ok (Fallible.runOn_lift_some _ _)).trans ?_
  refine (Fallible.bind_ok (runOn_guard (by rw [hlen]; omega) _)).trans ?_
  refine (Fallible.bind_ok
    (runOn_allocate (allocates_isizeMax.mpr (by rw [hlen]; omega)) _)).trans ?_
  refine (Fallible.bind_ok (show (Fd.readExact _).runOn _ = some (.ok bloomFilter.bytes, _) by
    rw [Fd.readExact, Fallible.runOn_step, hlen, himage2,
      File.readExact_mid (head ++ trie.bytes) bloomFilter.bytes foot
        (by rw [List.length_append, hheadlen]) (by omega)])).trans ?_
  rw [hbcodec, ← himage2]
  refine (Fallible.bind_ok (Fallible.runOn_lift_some _ _)).trans ?_
  rfl

/-- A written table is loaded with whatever its trie's bytes are read as. -/
theorem fromFd_loaded {h : Hashing} {es : Entries} {size : Nat} {trie : Trie}
    {bloomFilter : BloomFilter} (hnum : Numbered es)
    (hb : Built h (prefixes es) size es (headerSize + (logBlob es).length, trie, bloomFilter))
    (hsize : size < 2 ^ 32) :
    ∃ pos', SSTable.fromFd (.opened (sstableImage es trie bloomFilter) []) =
      (Trie.deserializeFromDisk trie.bytes).map fun loaded =>
        .ok ⟨⟨loaded, bloomFilter, headerSize + (logBlob es).length⟩,
          ⟨sstableImage es trie bloomFilter, pos', []⟩, v0Header⟩ := by
  obtain ⟨pos', hindex⟩ := fromDiskSstable_image hnum hb hsize headerSize
  have hversion : validateBufferAndGetVersion.runOn
      (.opened (sstableImage es trie bloomFilter) []) =
      some (.ok v0Header, ⟨sstableImage es trie bloomFilter, headerSize, []⟩) := by
    rw [validateBufferAndGetVersion]
    have himage : sstableImage es trie bloomFilter = [] ++ (lsmliteSstableHeader ++
        (toBe 2 v0Header ++ (logBlob es ++ (trie.bytes ++ (bloomFilter.bytes ++
          encodeFooter (headerSize + (logBlob es).length) trie.bytes.length
            (headerSize + (logBlob es).length + trie.bytes.length)))))) := by simp [sstableImage]
    have himage2 := himage
    rw [List.nil_append] at himage2
    refine (Fallible.bind_ok
      (show (Fd.readExact 7).sst.runOn _ = some (.ok lsmliteSstableHeader, _) from
      Fallible.mapError_ok (by
        rw [Fd.readExact, Fallible.runOn_step, File.opened, himage, 
          File.readExact_mid [] lsmliteSstableHeader _ (show 0 = _ from rfl)
            (show 7 = _ from rfl)]))).trans ?_
    rw [if_neg (by simp)]
    refine (Fallible.bind_ok
      (show (Fd.readExact 2).sst.runOn _ = some (.ok (toBe 2 v0Header), _) from
      Fallible.mapError_ok (by
        rw [Fd.readExact, Fallible.runOn_step, ← himage, himage2,
          File.readExact_mid lsmliteSstableHeader (toBe 2 v0Header) _
            (show 0 + lsmliteSstableHeader.length = _ from rfl) (show 2 = _ from rfl)]))).trans ?_
    rw [← himage2]
    rfl
  refine ⟨pos', ?_⟩
  rw [SSTable.fromFd, SSTable.fromFdWithin]
  cases hloaded : Trie.deserializeFromDisk trie.bytes with
  | none =>
    rw [hloaded, Option.map_none] at hindex
    rw [show (do
      let version ← validateBufferAndGetVersion
      let index ← (SstIndex.fromDiskSstable isizeMax).sst
      return (version, index) : Fd SSTableError (Nat × SstIndex)).runOn _ = none from
        (Fallible.bind_ok hversion).trans
          (Fallible.bind_panic (Fallible.mapError_panic hindex))]
    rfl
  | some loaded =>
    rw [hloaded, Option.map_some] at hindex
    rw [show (do
      let version ← validateBufferAndGetVersion
      let index ← (SstIndex.fromDiskSstable isizeMax).sst
      return (version, index) : Fd SSTableError (Nat × SstIndex)).runOn _ = _ from
        (Fallible.bind_ok hversion).trans
          ((Fallible.bind_ok (Fallible.mapError_ok hindex)).trans rfl)]
    rfl

/-- What was written from `es` is loaded as a table that holds `es`. -/
theorem fromFd_image {h : Hashing} {es : Entries} {size : Nat} {trie : Trie}
    {bloomFilter : BloomFilter} (hrep : Representable es) (hs : Sorted es)
    (hfits : ∀ w ∈ es, Record.Fits w.1 w.2)
    (hb : Built h (prefixes es) size es (headerSize + (logBlob es).length, trie, bloomFilter))
    (hsize : size < 2 ^ 32) :
    ∃ s, SSTable.fromFd (.opened (sstableImage es trie bloomFilter) []) = some (.ok s) ∧
      s.Holds h es ∧ s.fd.content = sstableImage es trie bloomFilter := by
  obtain ⟨pos', hload⟩ := fromFd_loaded hrep.numbered hb hsize
  have hcodec : Trie.deserializeFromDisk trie.bytes = some trie := hb.maps.codec hrep.roomy
  rw [hcodec, Option.map_some] at hload
  exact ⟨_, hload, ⟨⟨_, rfl⟩, rfl, rfl, ⟨_, hb.maps⟩, hb.extends_new.formed, hb.added, hs, hfits,
    hrep.size⟩, rfl⟩

end Lsmlite
