import Lsmlite.CompactionTable
import Lsmlite.RecordUpdates
import Lsmlite.Replay
import Lsmlite.TrieFull

/-!
# The round trip of an SSTable file

A memtable is written, loaded and searched. The search of a stored key stops at two limits of the
format: a node with a child for every byte, and a value length behind the window of a read.
-/

namespace Lsmlite
open Bytes KeyValue

/-! ## A record outside the window -/

theorem slice_eq_none {xs : Blob} {a b : Nat} (h : xs.length < b) : slice xs a b = none := by
  rw [slice, if_neg (by omega)]

/-- A key that ends behind the window, or a value length cut by it: the read panics. -/
theorem readDataBlock_outside {key value : Blob} (pre suf : Blob)
    (hfits : Record.Fits key (.data value)) (hwin : ¬ InWindow key (.data value)) (pos : Nat) :
    (readDataBlock pre.length key).runOn
      ⟨pre ++ ((Record.of key (.data value)).blob ++ suf), pos, []⟩ = none := by
  have hfront := recordFront_length key value
  have hbody := Record.body_length key (.data value)
  have hblob := Record.blob_length key (.data value)
  have hkw := varintSizeFromLen_eq hfits.key_lt
  have hlogw : Record.logWidth key (.data value) ≤ 10 :=
    leb_length_le_ten (by have := hfits.body_lt; omega)
  have htail : (Entry.tail (.data value)).length = (leb value.length).length + value.length := by
    simp [Entry.tail]
  have hlen : (Record.of key (.data value)).blob.length =
      (recordFront key value).length + value.length := by rw [blob_front, List.length_append]
  simp only [InWindow, ← hfront] at hwin
  -- The window is the start of the record's front.
  have hbuffer : resize (((Record.of key (.data value)).blob ++ suf).take recordReadBufferSize)
      recordReadBufferSize 0 = (recordFront key value).take recordReadBufferSize := by
    rw [blob_front, List.append_assoc, List.take_append_of_le_length (by omega), resize,
      List.take_of_length_le (List.length_take_le ..), List.length_take, Nat.min_eq_left (by omega),
      Nat.sub_self, List.replicate_zero, List.append_nil]
  rw [readDataBlock, Fd.read_at, List.drop_left, hbuffer]
  obtain ⟨head, hhead⟩ : ∃ head : Blob, head = [dataLogHeader] ++
      (leb (Record.body key (.data value)).length ++ leb key.length) := ⟨_, rfl⟩
  have hheadlen :
      head.length = 1 + Record.logWidth key (.data value) + (leb key.length).length := by
    simp only [hhead, List.length_append, List.length_singleton, Record.logWidth]
    omega
  have hcat : recordFront key value = head ++ (key ++ leb value.length) := by
    simp only [hhead, recordFront, List.append_assoc]
  have hfirst : ((recordFront key value).take recordReadBufferSize)[0]? = some dataLogHeader := by
    simp [recordFront]
  have hlog : decodeVarint ((recordFront key value).take recordReadBufferSize) 1 =
      some ((Record.body key (.data value)).length, Record.logWidth key (.data value)) := by
    have hfit : ([dataLogHeader] ++ leb (Record.body key (.data value)).length).length ≤
        recordReadBufferSize := by
      simp only [List.length_append, List.length_singleton, recordReadBufferSize]
      simp only [Record.logWidth] at hlogw
      omega
    have hsplit :
        recordFront key value = ([dataLogHeader] ++ leb (Record.body key (.data value)).length) ++
        (leb key.length ++ (key ++ leb value.length)) := by
      simp only [recordFront, List.append_assoc]
    rw [hsplit, List.take_append, List.take_of_length_le hfit, List.append_assoc]
    apply decodeVarint_leb [dataLogHeader] _ _ rfl
    have := hfits.body_lt
    omega
  refine (Fallible.bind_ok (show (Fallible.lift _ : Fd SSTableError UInt8).runOn _ = _ by
    rw [hfirst, Fallible.runOn_lift_some])).trans ?_
  rw [if_neg (by decide), hlog]
  refine (Fallible.bind_ok (Fallible.runOn_lift_some _ _)).trans ?_
  dsimp only
  by_cases hkey : head.length + key.length ≤ recordReadBufferSize
  · -- The length of the value is cut.
    have hcut : (recordFront key value).take recordReadBufferSize = (head ++ key) ++
        (leb value.length).take (recordReadBufferSize - (head.length + key.length)) := by
      rw [hcat, ← List.append_assoc, List.take_append, List.take_of_length_le
        (by rw [List.length_append]; exact hkey), List.length_append]
    have hslice : slice ((recordFront key value).take recordReadBufferSize)
        (1 + Record.logWidth key (.data value) + varintSizeFromLen key.length)
        (1 + Record.logWidth key (.data value) + varintSizeFromLen key.length + key.length) =
          some key := by
      rw [hcut, List.append_assoc]
      exact slice_mid _ _ _ (by rw [hheadlen, hkw]) rfl
    rw [hslice]
    refine (Fallible.bind_ok (Fallible.runOn_lift_some _ _)).trans ?_
    refine (Fallible.bind_ok (runOn_guard rfl _)).trans ?_
    refine (Fallible.bind_ok (runOn_guard (by omega) _)).trans ?_
    rw [if_pos (by omega), readOversizedRecordFromDisk, hcut, decodeVarint_cut]
    · exact Fallible.bind_panic (Fallible.runOn_lift_none _)
    · rw [hcat, List.length_append, List.length_append] at hwin
      omega
    · rw [List.length_append, hheadlen, hkw]
      omega
  · apply Fallible.bind_panic
    rw [slice_eq_none]
    · rfl
    · rw [List.length_take]
      omega

/-- The record is read where it stands, if and only if everything but the value lies in the
window. -/
theorem readDataBlock_inWindow_iff {key : Blob} {e : Entry} {r : Record}
    (hr : Record.encoded key e = some r) (pre suf : Blob) (pos : Nat) :
    ((readDataBlock pre.length key).runOn ⟨pre ++ (r.blob ++ suf), pos, []⟩).map Prod.fst =
      some (answerOf (some e)) ↔ InWindow key e := by
  obtain ⟨rfl, hfits⟩ := Record.encoded_some hr
  constructor
  · intro hread
    by_contra hout
    cases e with
    | tombstone => exact hout trivial
    | data value =>
      rw [readDataBlock_outside pre suf hfits hout] at hread
      cases hread
  · intro hwin
    have hread :
        ∃ pos', (readDataBlock pre.length key).runOn ⟨pre ++ ((Record.of key e).blob ++ suf), pos,
        []⟩ = some (answerOf (some e), ⟨pre ++ ((Record.of key e).blob ++ suf), pos', []⟩) :=
      readDataBlock_eq suf hfits hwin rfl
    obtain ⟨pos', hread⟩ := hread
    rw [hread]
    rfl

theorem readDataBlock_inWindow_short : ∃ r, Record.encoded [97] (.data [1]) = some r ∧
    (((readDataBlock [5].length [97]).runOn ⟨[5] ++ (r.blob ++ [6]), 0, []⟩).map Prod.fst =
      some (answerOf (some (.data [1]))) ↔ InWindow [97] (.data [1])) :=
  have hr : Record.encoded [97] (.data [1]) = some (Record.of [97] (.data [1])) :=
    Record.encoded_of (by decide +kernel)
  ⟨_, hr, readDataBlock_inWindow_iff hr [5] [6] 0⟩

/-- The record of a key of 4096 bytes. -/
theorem fits_long {key : Blob} (hlength : key.length = 4096) :
    Record.Fits key (.data [1]) ∧ (Record.of key (.data [1])).blob.length < 5000 ∧
      ¬ InWindow key (.data [1]) := by
  have hk := leb_length_le_ten (show key.length < 2 ^ 64 by omega)
  have hb := Record.body_length key (.data [1])
  have htail : (Entry.tail (.data [1])).length = 2 := by
    simp [Entry.tail, leb_small (show 1 < 128 by decide)]
  have hlog := leb_length_le_ten (show (Record.body key (.data [1])).length < 2 ^ 64 by omega)
  have hblob := Record.blob_length key (.data [1])
  rw [Record.logWidth] at hblob
  refine ⟨?_, by omega, ?_⟩
  · rw [Record.Fits]
    omega
  · have hone := leb_length_pos ([1] : Blob).length
    rw [InWindow, Record.keyOffset, hlength, recordReadBufferSize]
    omega

/-- The read of a key of 4096 bytes indexes outside its buffer. -/
theorem long_key_read_panics : ∃ r, Record.encoded (List.replicate 4096 0) (.data [1]) = some r ∧
    (readDataBlock 0 (List.replicate 4096 0)).runOn ⟨r.blob, 0, []⟩ = none ∧
    ((readDataBlock 0 (List.replicate 4096 0)).runOn ⟨r.blob, 0, []⟩).map Prod.fst ≠
      some (answerOf (some (.data [1]))) := by
  obtain ⟨hfits, _, hout⟩ := fits_long (show (List.replicate 4096 (0 : UInt8)).length = 4096 from
    List.length_replicate ..)
  have hread := readDataBlock_outside [] [] hfits hout 0
  rw [List.nil_append, List.append_nil] at hread
  refine ⟨_, Record.encoded_of hfits, hread, ?_⟩
  rw [show (readDataBlock 0 _).runOn _ = none from hread]
  nofun

theorem SSTable.Holds.search_outside {h : Hashing} {s : SSTable} {es : Entries} (hs : s.Holds h es)
    {key : Blob} {e : Entry} (hlast : last key es = some e) (hout : ¬ InWindow key e) :
    s.search h key = none := by
  cases e with
  | tombstone => exact absurd trivial hout
  | data value =>
    obtain ⟨pre, suf, hoff, hfile⟩ := hs.located hlast
    have hread := readDataBlock_outside pre suf (hs.fits _ (mem_of_last hlast)) hout s.fd.pos
    rw [← hfile, ← hs.fd_eq] at hread
    rw [SSTable.search, hoff]
    simp only [Option.bind_eq_bind, Option.bind_some, hread, Option.bind_none]

/-- A search that returns finds the last record of the key. -/
theorem SSTable.Holds.search_found {h : Hashing} {s s' : SSTable} {es : Entries}
    (hs : s.Holds h es) {key : Blob} {r : Except SSTableError Blob}
    (hsearch : s.search h key = some (r, s')) :
    r = answerOf (last key es) := by
  by_cases hwin : ∀ e, last key es = some e → InWindow key e
  · obtain ⟨s1, hfound, _⟩ := hs.search hwin
    cases hsearch.symm.trans hfound
    rfl
  · push Not at hwin
    obtain ⟨e, hlast, hout⟩ := hwin
    cases hsearch.symm.trans (hs.search_outside hlast hout)

/-! ## A label with every child -/

theorem indexAll_grows {h : Hashing} {es : Entries} {st st' : Nat × Trie × BloomFilter}
    (hst : indexAll h st es = some st') : st.2.1.Grows st'.2.1 := by
  induction es generalizing st with
  | nil =>
    cases hst
    exact Trie.Grows.refl _
  | cons w es ih =>
    rw [indexAll_cons, Option.bind_eq_some_iff] at hst
    obtain ⟨st1, h1, hst⟩ := hst
    simp only [indexRecord, Option.bind_eq_bind, Option.bind_eq_some_iff] at h1
    obtain ⟨_, _, trie, hinsert, h1⟩ := h1
    cases h1
    exact (Trie.insert_grows hinsert).trans (ih hst)

/-- A stored key answers what it holds, unless its search leads nowhere. -/
theorem search_unindexed {h : Hashing} {s : SSTable} {key : Blob}
    (hbloom : s.index.bloomFilter.contains h key = some true)
    (htrie : s.index.trie.get key = some none) :
    s.search h key = some (.error .diskRecordNotFound, s) := by
  have hoff : s.index.getOffsetForKey h key = some none := by
    rw [SstIndex.getOffsetForKey, hbloom]
    exact htrie
  rw [SSTable.search, hoff]
  rfl

/-- If a prefix of the keys goes on with every byte, the index that is read back has lost a stored
key. -/
theorem Built.key_lost {h : Hashing} {es : Entries} {size : Nat} {st : Nat × Trie × BloomFilter}
    (hs : Sorted es) (hnodes : (prefixes es).length < 2 ^ 32)
    (hb : Built h (prefixes es) size es st)
    (hindexed : Lsmlite.indexAll h (headerSize, Trie.new, BloomFilter.new h size) es = some st)
    {label : Blob} (hall : ∀ c : UInt8, label ++ [c] ∈ prefixes es) {cut : Trie}
    (hcut : Trie.deserializeFromDisk st.2.1.bytes = some cut) :
    ∃ w ∈ es, cut.get w.1 = some none := by
  have hstored : ∀ w ∈ es, recordOffset headerSize es w.1 ≠ none := by
    intro w hw
    rw [Ne, recordOffset_eq_none_iff, last_of_mem hs hw]
    exact Option.some_ne_none _
  obtain ⟨_, hnone⟩ | ⟨labels, hlabels⟩ := hb.maps
  · -- A stored key has an offset.
    obtain ⟨w, hw, _⟩ := List.mem_flatMap.mp (List.mem_dedup.mp (hall 0))
    exact absurd (hnone w.1) (hstored w hw)
  · have hmem : ∀ c : UInt8, label ++ [c] ∈ labels := by
      intro c
      obtain ⟨w, hw, hpre⟩ := List.mem_flatMap.mp (List.mem_dedup.mp (hall c))
      obtain ⟨rest, hrest⟩ := (List.mem_inits _ _).mp hpre
      have hkey := hlabels.covered w.1 (hstored w hw)
      rw [← hrest] at hkey
      exact hlabels.mem_of_append _ rest hkey
    have hlen := hlabels.length_le.trans_lt hnodes
    have hup : st.2.1.Upward := (indexAll_grows hindexed).upward (Nat.le_of_lt hlen) Trie.upward_new
    obtain ⟨label', c, hin, hlost⟩ := hlabels.lost hup hlen hmem hcut
    obtain ⟨w, hw, hpre⟩ := List.mem_flatMap.mp (List.mem_dedup.mp (hlabels.within hin))
    obtain ⟨rest, hrest⟩ := (List.mem_inits _ _).mp hpre
    refine ⟨w, hw, ?_⟩
    rw [← hrest, List.append_assoc]
    exact hlost rest

/-- If a prefix of the keys goes on with every byte, a stored key is not found. -/
theorem full_prefix_lost {h : Hashing} {t : MemtableInner} {es : Entries} (ht : t.Holds es)
    (hnum : Numbered es) {label : Blob} (hall : ∀ c : UInt8, label ++ [c] ∈ prefixes es) {fd : File}
    (hwrite : (writeSstable h t).runOn (File.create []) = some (.ok (), fd)) {s : SSTable}
    (hload : SSTable.fromFd (.opened fd.content []) = some (.ok s)) :
    ∃ w ∈ es, s.search h w.1 = some (.error .diskRecordNotFound, s) := by
  have hcount := length_le_prefixes ht.sorted
  have hnodes := hnum.nodes
  obtain ⟨⟨diskSize, trie, bloomFilter⟩, hindexed, hb, hflushed⟩ := writeSstable_eq h ht hnum
  obtain rfl : diskSize = headerSize + (logBlob es).length := hb.diskSize
  rw [hflushed] at hwrite
  cases hwrite
  obtain ⟨pos, hloaded⟩ := fromFd_loaded hnum hb (show es.length < 2 ^ 32 by omega)
  rw [hloaded, Option.map_eq_some_iff] at hload
  obtain ⟨cut, hcut, hload⟩ := hload
  cases hload
  obtain ⟨w, hw, hlost⟩ := hb.key_lost ht.sorted hnodes hindexed hall hcut
  exact ⟨w, hw, search_unindexed (hb.extends_new.formed.contains (hb.added w hw)) hlost⟩

/-! ## The order of the entries -/

theorem prefixes_perm {es es' : Entries} (h : es.Perm es') : (prefixes es).Perm (prefixes es') :=
  (h.flatMap_right _).dedup

theorem logBlob_perm {es es' : Entries} (h : es.Perm es') :
    (logBlob es).length = (logBlob es').length := (h.flatMap_right _).length_eq

theorem Numbered.perm {es es' : Entries} (h : es.Perm es') (hnum : Numbered es) : Numbered es' where
  nodes := (prefixes_perm h).length_eq ▸ hnum.nodes
  size := logBlob_perm h ▸ hnum.size

theorem Representable.perm {es es' : Entries} (h : es.Perm es') (hrep : Representable es) :
    Representable es' where
  roomy := by
    refine ⟨(hrep.numbered.perm h).nodes, fun label hlabel => ?_⟩
    obtain ⟨c, hc⟩ := hrep.roomy.children label ((prefixes_perm h).mem_iff.mpr hlabel)
    exact ⟨c, fun hmem => hc ((prefixes_perm h).mem_iff.mpr hmem)⟩
  size := (hrep.numbered.perm h).size

/-! ## The memtable and its file -/

namespace MemtableInner

/-- The tables reached by calls and by the replay of encoded records. -/
inductive Reached : MemtableInner → Prop
  | new (maxSize maxNodes : Nat) (wal : Wal) : Reached (new maxSize maxNodes wal)
  | call {t t' : MemtableInner} (c : Call) : Reached t → t.call c = some t' → Reached t'
  | replay {t t' : MemtableInner} {r : Record} : Reached t →
      ((∃ key value, encodeDataRecord key value = some r) ∨
        ∃ key, encodeTombstoneRecord key = some r) →
      t.insertRecordFromWal r = some t' → Reached t'

theorem Reached.calls {t t' : MemtableInner} (h : t.Reached) {calls : List Call}
    (hrun : calls.foldlM MemtableInner.call t = some t') : t'.Reached := by
  induction calls generalizing t with
  | nil =>
    cases hrun
    exact h
  | cons c calls ih =>
    rw [List.foldlM_cons] at hrun
    obtain ⟨t1, hcall, hrun⟩ := Option.bind_eq_some_iff.mp hrun
    exact ih (h.call c hcall) hrun

theorem Reached.holds {t : MemtableInner} (h : t.Reached) : ∃ es, t.Holds es := by
  induction h with
  | new maxSize maxNodes wal => exact ⟨[], holds_new maxSize maxNodes wal⟩
  | call c _ hcall ih =>
    obtain ⟨es, hes⟩ := ih
    simp only [MemtableInner.call, Option.bind_eq_bind, Option.bind_eq_some_iff] at hcall
    obtain ⟨r, hwrite, hcall⟩ := hcall
    rcases hes.write_some hwrite with ⟨_, err, rfl⟩ | ⟨_, t', rfl, hins⟩
    · cases hcall
      exact ⟨es, hes⟩
    · cases hcall
      exact ⟨_, hins.holds⟩
  | @replay t t' r _ hencoded hcall ih =>
    obtain ⟨es, hes⟩ := ih
    obtain ⟨key, e, hfits, rfl⟩ : ∃ key e, Record.Fits key e ∧ r = Record.of key e := by
      rcases hencoded with ⟨key, value, henc⟩ | ⟨key, henc⟩
      · exact ⟨key, _, (Record.encodeDataRecord_some henc).2, (Record.encodeDataRecord_some henc).1⟩
      · exact ⟨key, _, (Record.encodeTombstoneRecord_some henc).2,
          (Record.encodeTombstoneRecord_some henc).1⟩
    simp only [insertRecordFromWal] at hcall
    split at hcall
    · cases hcall
    · by_cases hreach : Writable es key e
      · obtain ⟨t2, h2, hins⟩ := hes.insertNode hfits hreach
        cases hcall.symm.trans h2
        exact ⟨_, hins.holds⟩
      · rw [hes.insertNode_panics hfits hreach] at hcall
        cases hcall

/-- The records of the arena, decoded. -/
def encodedEntries (t : MemtableInner) : Entries := t.arena.filterMap fun node =>
  match decodeDiskRecord node.record.blob 0 with
  | some (some r, _) => some (entryOf r)
  | _ => none

theorem filterMap_slots {α β : Type} {f : α → Option β} {slot : Nat → β} {xs : List α}
    (h : ∀ (i : Nat) (x : α), xs[i]? = some x → f x = some (slot i)) :
    xs.filterMap f = (List.range xs.length).map slot := by
  induction xs generalizing slot with
  | nil => rfl
  | cons x xs ih =>
    rw [List.filterMap_cons, h 0 x rfl, ih fun i y hy => h (i + 1) y hy, List.length_cons,
      List.range_succ_eq_map, List.map_cons, List.map_map]
    rfl

theorem Holds.encodedEntries {t : MemtableInner} {es : Entries} (h : t.Holds es) :
    t.encodedEntries.Perm es := by
  have hfits := h.fits
  obtain ⟨tree, slot, htree, rfl⟩ := h.shape
  have hslots : t.encodedEntries = (List.range t.arena.length).map slot := by
    refine filterMap_slots fun i node hnode => ?_
    have hi : i ∈ tree.inorder := by
      rw [htree.perm.mem_iff, List.mem_range]
      exact (List.getElem?_eq_some_iff.mp hnode).1
    have hdec :=
      Record.decodeDiskRecord_of [] [] (hfits _ (List.mem_map_of_mem hi)) (show 0 = _ from rfl)
    rw [List.nil_append, List.append_nil] at hdec
    rw [(htree.canonical i node hnode).blob, hdec]
    exact congrArg some (entryOf_recordOf (slot i))
  rw [hslots]
  exact (htree.perm.map slot).symm

/-- The table is written, its file is loaded, and every key answers what the memtable has encoded
for it. -/
def RoundTrips (h : Hashing) (t : MemtableInner) : Prop :=
  ∃ fd s, (writeSstable h t).runOn (File.create []) = some (.ok (), fd) ∧
    SSTable.fromFd (.opened fd.content []) = some (.ok s) ∧
    ∀ key, (s.search h key).map (·.1) = some (answerOf (last key t.encodedEntries))

theorem Holds.roundTrips {h : Hashing} {t : MemtableInner} {es : Entries} (ht : t.Holds es)
    (hrep : Representable es) (hwin : ∀ w ∈ es, InWindow w.1 w.2) : t.RoundTrips h := by
  obtain ⟨fd, hwrite, s, hload, hs⟩ := sstableContent_holds h ht hrep
  refine ⟨fd, s, hwrite, hload, fun key => ?_⟩
  obtain ⟨s', hsearch, _⟩ := hs.search fun e he => hwin _ (mem_of_last (k := key) he)
  rw [hsearch, Option.map_some, last_perm ht.sorted ht.encodedEntries]

/-- A round trip shows that no node was full and no record was out of the window. -/
theorem Holds.of_roundTrips {h : Hashing} {t : MemtableInner} {es : Entries} (ht : t.Holds es)
    (hnum : Numbered es) (hround : t.RoundTrips h) :
    Representable es ∧ ∀ w ∈ es, InWindow w.1 w.2 := by
  obtain ⟨fd, s, hwrite, hload, hanswer⟩ := hround
  have hstored : ∀ w ∈ es, (s.search h w.1).map (·.1) = some (answerOf (some w.2)) := by
    intro w hw
    rw [hanswer, last_perm ht.sorted ht.encodedEntries, last_of_mem ht.sorted hw]
  have hrep : Representable es := by
    refine ⟨⟨hnum.nodes, fun label _ => ?_⟩, hnum.size⟩
    by_contra hall
    push Not at hall
    obtain ⟨w, hw, hlost⟩ := full_prefix_lost ht hnum hall hwrite hload
    have hfound := hstored w hw
    rw [hlost] at hfound
    obtain ⟨key, e⟩ := w
    cases e <;> cases hfound
  refine ⟨hrep, fun w hw => ?_⟩
  by_contra hout
  obtain ⟨fd', hwrite', s', hload', hs⟩ := sstableContent_holds h ht hrep
  rw [hwrite] at hwrite'
  cases hwrite'
  rw [hload] at hload'
  cases hload'
  have hfound := hstored w hw
  rw [hs.search_outside (last_of_mem ht.sorted hw) hout, Option.map_none] at hfound
  cases hfound

/-- The file of a memtable answers as the memtable if no node of its trie is full and every data
record is in its window; where the trie can be numbered, only then. -/
theorem round_trips {t : MemtableInner} (ht : t.Reached) (h : Hashing) :
    (Representable t.encodedEntries ∧ (∀ w ∈ t.encodedEntries, InWindow w.1 w.2) → t.RoundTrips h) ∧
    (Numbered t.encodedEntries → t.RoundTrips h →
      Representable t.encodedEntries ∧ ∀ w ∈ t.encodedEntries, InWindow w.1 w.2) := by
  obtain ⟨es, hes⟩ := ht.holds
  have hperm := hes.encodedEntries
  constructor
  · rintro ⟨hrep, hwin⟩
    exact hes.roundTrips (hrep.perm hperm) fun w hw => hwin w (hperm.mem_iff.mpr hw)
  · intro hnum hround
    obtain ⟨hrep, hwin⟩ := hes.of_roundTrips (hnum.perm hperm) hround
    exact ⟨hrep.perm hperm.symm, fun w hw => hwin w (hperm.mem_iff.mp hw)⟩

/-- Two keys with a common prefix, an overwrite and a tombstone. -/
def filedCalls : List Call :=
  [⟨[1, 2], .data [7], ⟨0, 0⟩⟩, ⟨[1], .tombstone, ⟨0, 0⟩⟩, ⟨[1, 2], .data [8, 8], ⟨0, 0⟩⟩]

theorem round_trips_filed :
    ∃ t, filedCalls.foldlM MemtableInner.call (new 100 5 (Wal.new 0 0 [])) = some t ∧
    t.encodedEntries = [([1, 2], .data [8, 8]), ([1], .tombstone)] ∧ t.RoundTrips flatHashing := by
  have hrun : (filedCalls.foldlM MemtableInner.call (new 100 5 (Wal.new 0 0 []))).map
      encodedEntries = some [([1, 2], .data [8, 8]), ([1], .tombstone)] := by
    decide +kernel
  obtain ⟨t, ht, hentries⟩ := Option.map_eq_some_iff.mp hrun
  refine ⟨t, ht, hentries,
    (round_trips ((Reached.new 100 5 _).calls ht) flatHashing).1 ⟨⟨⟨?_, ?_⟩, ?_⟩, ?_⟩⟩
  · rw [hentries]
    decide +kernel
  · rw [hentries]
    have hroom : ∀ label ∈ prefixes [([1, 2], .data [8, 8]), ([1], .tombstone)],
        label ++ [0] ∉ prefixes [([1, 2], .data [8, 8]), ([1], .tombstone)] := by
      decide +kernel
    exact fun label hlabel => ⟨0, hroom label hlabel⟩
  · rw [hentries]
    decide +kernel
  · rw [hentries]
    decide +kernel

/-- A key of 4096 bytes: its record is written and loaded, and a search of it panics. -/
theorem long_key_panics : ∃ t,
    (new 5000 1 (Wal.new 0 0 [])).call ⟨List.replicate 4096 0, .data [1], ⟨0, 0⟩⟩ = some t ∧
    t.Reached ∧ ¬ t.RoundTrips flatHashing := by
  obtain ⟨key, hkey⟩ : ∃ key : Blob, key = List.replicate 4096 0 := ⟨_, rfl⟩
  have hlength : key.length = 4096 := by rw [hkey, List.length_replicate]
  obtain ⟨hfits, hsize, hout⟩ := fits_long hlength
  have hnew := holds_new 5000 1 (Wal.new 0 0 [])
  obtain ⟨t, hwrite, hins⟩ := hnew.write_ok (e := .data [1]) rfl hfits
    (fun _ _ hlast => by cases hlast) ⟨0, 0⟩
  have hcall : (new 5000 1 (Wal.new 0 0 [])).call ⟨key, .data [1], ⟨0, 0⟩⟩ = some t := by
    simp only [MemtableInner.call, hwrite, Option.bind_eq_bind, Option.bind_some, Option.pure_def]
  have hholds : t.Holds [(key, .data [1])] := hins.holds
  refine ⟨t, hkey ▸ hcall, (Reached.new 5000 1 _).call _ hcall, fun hround => ?_⟩
  have hnum : Numbered [(key, .data [1])] := by
    constructor
    · have hle : (prefixes [(key, Entry.data [1])]).length ≤ key.length + 1 := by
        have hdedup :=
          (List.dedup_sublist ([(key, Entry.data [1])].flatMap fun w => w.1.inits)).length_le
        simpa [prefixes] using hdedup
      omega
    · rw [logBlob_singleton, headerSize]
      omega
  exact hout ((hholds.of_roundTrips hnum hround).2 _ (List.mem_singleton_self _))

end MemtableInner

end Lsmlite
