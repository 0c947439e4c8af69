import Lsmlite.NewestWins

/-!
# The compacted table

`run_compaction` on tables that hold sorted lists: what it writes is loaded as a table that holds
the data entries of its rounds.
-/

namespace Lsmlite
open Bytes KeyValue

/-- The record of an entry. -/
abbrev recordOf (w : Blob × Entry) : Record := Record.of w.1 w.2

/-! ## Entries and their records -/

theorem recordOf_keyBytes (w : Blob × Entry) : (recordOf w).keyBytes = w.1 :=
  Record.of_keyBytes w.1 w.2

/-- The key and entry a record was made of. -/
def entryOf (r : Record) : Blob × Entry :=
  (r.keyBytes, match r.valueSlice with
    | some (some value) => .data value
    | _ => .tombstone)

theorem entryOf_recordOf (w : Blob × Entry) : entryOf (recordOf w) = w := by
  obtain ⟨key, e⟩ := w
  cases e with
  | data value => simp only [entryOf, recordOf, Record.of_keyBytes, Record.of_valueSlice]
  | tombstone =>
    have hvalue : (Record.of key .tombstone).valueSlice = some none := rfl
    simp only [entryOf, recordOf, Record.of_keyBytes, hvalue]

theorem map_entryOf (es : Entries) : (es.map recordOf).map entryOf = es := by
  rw [List.map_map]
  exact (List.map_congr_left fun w _ => entryOf_recordOf w).trans (List.map_id es)

theorem recordOf_inj {v w : Blob × Entry} (h : recordOf v = recordOf w) : v = w := by
  have hentry := congrArg entryOf h
  rwa [entryOf_recordOf, entryOf_recordOf] at hentry

theorem increasing_map {es : Entries} : Increasing (es.map recordOf) ↔ Sorted es := by
  rw [Increasing, List.pairwise_map, Sorted]
  simp only [recordOf_keyBytes]

/-- A list of values of `f` is the image of a list. -/
theorem exists_map {α β : Type} {f : α → β} {P : α → Prop} {ys : List β}
    (h : ∀ y ∈ ys, ∃ x, f x = y ∧ P x) : ∃ xs : List α, xs.map f = ys ∧ ∀ x ∈ xs, P x := by
  induction ys with
  | nil => exact ⟨[], rfl, by simp⟩
  | cons y ys ih =>
    obtain ⟨x, hx, hp⟩ := h y (List.mem_cons_self ..)
    obtain ⟨xs, hxs, hall⟩ := ih fun y' hy' => h y' (List.mem_cons_of_mem _ hy')
    refine ⟨x :: xs, by rw [List.map_cons, hx, hxs], fun x' hx' => ?_⟩
    rcases List.mem_cons.mp hx' with rfl | hx'
    · exact hp
    · exact hall x' hx'

/-- The merge of iterators over sorted entries pushes the records of sorted entries. -/
theorem Merge.run_entries {iters : List SSTableIterator} {ess : List Entries}
    (hyields : List.Forall₂ (fun it es => it.Yields (es.map recordOf)) iters ess)
    (hsorted : ∀ es ∈ ess, Sorted es) :
    ∃ m es, start iters = some m ∧ (∀ {W : Type} (push : W → Record → Option W) (w : W),
        run push w iters = (es.map recordOf).foldlM push w) ∧ Sorted es ∧
      (∀ w ∈ es, (recordOf w).recordType = .data ∧ ∃ es' ∈ ess, w ∈ es') ∧
      Covers (ess.map (·.map recordOf)) (es.map recordOf) ∧
      (NewestPushed (ess.map (·.map recordOf)) (es.map recordOf) ↔
        ∀ m', Rounds (fuel iters) m m' → m'.RootNewest) := by
  have hinc : ∀ rs ∈ ess.map (·.map recordOf), Increasing rs := by
    intro rs hrs
    obtain ⟨es, hes, rfl⟩ := List.mem_map.mp hrs
    exact increasing_map.mpr (hsorted es hes)
  obtain ⟨m, out, hstart, hrun, hout, hmem, hrest⟩ :=
    run_eq (List.forall₂_map_right_iff.mpr hyields) hinc
  -- What is pushed was read, so it is made of entries again.
  obtain ⟨es, rfl, hes⟩ : ∃ es : Entries, es.map recordOf = out ∧
      ∀ w ∈ es, (recordOf w).recordType = .data ∧ ∃ es' ∈ ess, w ∈ es' := by
    apply exists_map
    intro r hr
    obtain ⟨htype, rs, hrs, hin⟩ := hmem r hr
    obtain ⟨es', hes', rfl⟩ := List.mem_map.mp hrs
    obtain ⟨w, hw, rfl⟩ := List.mem_map.mp hin
    exact ⟨w, rfl, htype, es', hes', hw⟩
  exact ⟨m, es, hstart, hrun, increasing_map.mp hout, hes, hrest⟩

theorem find_recordOf {key : Blob} {es : Entries} (hs : Sorted es) :
    (es.map recordOf).find? (·.keyBytes = key) = (last key es).map fun e => Record.of key e := by
  induction es with
  | nil => rfl
  | cons w es ih =>
    obtain ⟨hw, hes⟩ := List.pairwise_cons.mp hs
    rw [List.map_cons, List.find?_cons, recordOf_keyBytes, last_cons]
    by_cases hk : w.1 = key
    · subst hk
      rw [last_eq_none_iff.mpr fun w' hw' => ne_of_gt (hw w' hw')]
      simp
    · simp [hk, Ne.symm hk, ih hes]

theorem newestRecord_map (key : Blob) {ess : List Entries} (hs : ∀ es ∈ ess, Sorted es) :
    newestRecord key (ess.map (·.map recordOf)) = (findEntry key ess).map fun e =>
      Record.of key e := by
  induction ess with
  | nil => rfl
  | cons es ess ih =>
    rw [newestRecord, List.map_cons, List.findSome?_cons,
      find_recordOf (hs es (List.mem_cons_self ..)), findEntry_cons]
    cases last key es with
    | some e => rfl
    | none =>
      rw [Option.none_or]
      exact ih fun es' hes' => hs es' (List.mem_cons_of_mem _ hes')

theorem readEntry_of_filter {key : Blob} {es : Entries} (hs : Sorted es) {e : Option Entry}
    (h : (es.map recordOf).filter (·.keyBytes = key) =
      (e.map fun e => Record.of key e).toList.filter (·.recordType = .data)) :
    readEntry (last key es) = readEntry e := by
  have hmem : ∀ e', (key, e') ∈ es ↔
      recordOf (key, e') ∈ (es.map recordOf).filter (·.keyBytes = key) := by
    intro e'
    rw [List.mem_filter, recordOf_keyBytes]
    constructor
    · exact fun he => ⟨List.mem_map_of_mem he, by simp⟩
    · rintro ⟨he, _⟩
      obtain ⟨w, hw, heq⟩ := List.mem_map.mp he
      exact recordOf_inj heq ▸ hw
  cases hlast : last key es with
  | none =>
    cases e with
    | none => rfl
    | some e =>
      cases e with
      | tombstone => rfl
      | data value =>
        have hin : (key, Entry.data value) ∈ es := by
          rw [hmem, h]
          simp [Record.of_recordType]
        rw [last_of_mem hs hin] at hlast
        cases hlast
  | some e' =>
    have hin := (hmem e').mp (mem_of_last hlast)
    rw [h] at hin
    cases e with
    | none => simp at hin
    | some e =>
      obtain ⟨hin, _⟩ := List.mem_filter.mp hin
      have heq : (key, e') = (key, e) := recordOf_inj (List.mem_singleton.mp (by simpa using hin))
      cases heq
      rfl

/-! ## The writer -/

namespace CompactionWriter

/-- The offset, the trie and the bloom filter that `push` goes on with. -/
def index (w : CompactionWriter) : Nat × Trie × BloomFilter := (w.diskOffset, w.trie, w.bloomFilter)

/-- The file and the buffer behind it have the bytes of `es`. -/
def Written (w : CompactionWriter) (es : Entries) : Prop :=
  ∃ content, w.fd = ⟨content, content.length, []⟩ ∧
    content ++ w.writeBuffer = (lsmliteSstableHeader ++ toBe 2 v0Header) ++ logBlob es

/-- The writer indexes the records of `es`; the file and the buffer behind it have their bytes. -/
structure Holds (h : Hashing) (all : List Blob) (w : CompactionWriter) (es : Entries) : Prop where
  built : Built h all 1024 es (w.diskOffset, w.trie, w.bloomFilter)
  written : ∃ content, w.fd = ⟨content, content.length, []⟩ ∧
    content ++ w.writeBuffer = (lsmliteSstableHeader ++ toBe 2 v0Header) ++ logBlob es

theorem new_written (h : Hashing) (fileTs : Nat) :
    ∃ w, new h fileTs [] = some (.ok w) ∧ w.Written [] ∧
    w.index = (headerSize, Trie.new, BloomFilter.new h 1024) :=
  ⟨_, rfl, ⟨_, rfl, rfl⟩, rfl⟩

theorem new_eq (h : Hashing) (all : List Blob) (fileTs : Nat) :
    ∃ w, new h fileTs [] = some (.ok w) ∧ w.Holds h all [] :=
  ⟨_, rfl, built_new h all 1024, _, rfl, rfl⟩

/-- A push indexes its record and has its bytes in the file or in the buffer, or both panic. -/
theorem Written.push {w : CompactionWriter} {es : Entries} (hw : w.Written es) (h : Hashing)
    (v : Blob × Entry) :
    (indexRecord h w.index v = none ∧ w.pushDropped h (recordOf v) = none) ∨
    ∃ w', indexRecord h w.index v = some w'.index ∧ w.pushDropped h (recordOf v) = some w' ∧
      w'.Written (es ++ [v]) := by
  obtain ⟨content, hfd, hcontent⟩ := hw
  have hkey : (recordOf v).keySlice = some v.1 := (Record.canonical_of v.1 v.2).keySlice
  have hblob : logBlob (es ++ [v]) = logBlob es ++ (recordOf v).blob := by
    rw [logBlob_append]
    simp [logBlob]
  simp only [indexRecord, index, pushDropped, CompactionWriter.push, hkey,
    Option.bind_eq_bind, Option.bind_some]
  cases w.bloomFilter.insert h v.1 with
  | none => exact Or.inl ⟨rfl, rfl⟩
  | some bloomFilter =>
    cases w.trie.insert v.1 w.diskOffset with
    | none => exact Or.inl ⟨rfl, rfl⟩
    | some trie =>
      right
      simp only [Option.bind_some, Option.pure_def]
      by_cases hfull : w.capacity ≤ w.writeBuffer.length + (recordOf v).size
      · simp only [if_pos hfull, hfd, File.write_append, Option.map_some]
        refine ⟨_, rfl, rfl, content ++ w.writeBuffer, rfl, ?_⟩
        dsimp only
        rw [List.nil_append, hcontent, hblob, List.append_assoc _ (logBlob es)]
      · simp only [if_neg hfull, Option.map_some]
        refine ⟨_, rfl, rfl, content, hfd, ?_⟩
        dsimp only
        rw [← List.append_assoc, hcontent, hblob, List.append_assoc _ (logBlob es)]

/-- Pushing a list. -/
theorem Written.pushAll {w : CompactionWriter} {es : Entries} (hw : w.Written es) (h : Hashing)
    (rest : Entries) :
    (indexAll h w.index rest = none ∧ (rest.map recordOf).foldlM (pushDropped h) w = none) ∨
    ∃ w', indexAll h w.index rest = some w'.index ∧
      (rest.map recordOf).foldlM (pushDropped h) w = some w' ∧ w'.Written (es ++ rest) := by
  induction rest generalizing w es with
  | nil => exact Or.inr ⟨w, rfl, rfl, by simpa using hw⟩
  | cons v rest ih =>
    rw [indexAll_cons, List.map_cons, List.foldlM_cons]
    rcases hw.push h v with ⟨hindex, hpush⟩ | ⟨w1, hindex, hpush, hw1⟩
    · rw [hindex, hpush]
      exact Or.inl ⟨rfl, rfl⟩
    · rw [hindex, hpush]
      have hrest := ih hw1
      rw [List.append_assoc] at hrest
      exact hrest

/-- What `finish` adds behind the records. -/
theorem Written.finish {w : CompactionWriter} {es : Entries} (hw : w.Written es)
    (hdisk : w.diskOffset = headerSize + (logBlob es).length) :
    w.finish = w.trie.serialize.bind fun index => w.bloomFilter.serialize.map fun bloom =>
      (.ok w.filename, ⟨tableBytes es index bloom, (tableBytes es index bloom).length, []⟩) := by
  obtain ⟨content, hfd, hcontent⟩ := hw
  rw [CompactionWriter.finish, hfd]
  refine (Fallible.bind_ok (Fd.write_append _ _)).trans ?_
  refine (Fallible.bind_map (Fallible.runOn_lift _ _)).trans ?_
  refine Option.bind_congr fun index _ => ?_
  refine (Fallible.bind_ok (Fd.write_append _ _)).trans ?_
  refine (Fallible.bind_map (Fallible.runOn_lift _ _)).trans ?_
  rw [Option.map_eq_bind]
  refine Option.bind_congr fun bloom _ => ?_
  refine (Fallible.bind_ok (Fd.write_append _ _)).trans ?_
  refine (Fallible.bind_ok (Fd.write_append _ _)).trans ?_
  rw [hcontent, hdisk]
  simp [tableBytes]

/-- Pushing a sorted list. -/
theorem Holds.pushAll {h : Hashing} {es : Entries} (hrep : Representable es) {done rest : Entries}
    (hes : es = done ++ rest) (hs : Sorted es) {w : CompactionWriter}
    (hw : w.Holds h (prefixes es) done) :
    ∃ w', (rest.map recordOf).foldlM (CompactionWriter.pushDropped h) w = some w' ∧
      w'.Holds h (prefixes es) es := by
  have hwritten : w.Written done := hw.written
  obtain ⟨st, hst, hb⟩ := hw.built.indexAll hrep.roomy.nodes.le (hes ▸ hs)
    (fun v hv pre hpre => mem_prefixes (hes ▸ List.mem_append_right _ hv) hpre) (hes ▸ hrep.size)
  rcases hwritten.pushAll h rest with ⟨hnone, _⟩ | ⟨w', hsome, hpush, hw'⟩
  · rw [show indexAll h w.index rest = some st from hst] at hnone
    cases hnone
  · cases (show indexAll h w.index rest = some st from hst).symm.trans hsome
    rw [← hes] at hb hw'
    exact ⟨w', hpush, hb, hw'⟩

theorem Holds.finish {h : Hashing} {es : Entries} (hrep : Representable es) {w : CompactionWriter}
    (hw : w.Holds h (prefixes es) es) :
    ∃ path file, w.finish = some (.ok path, file) ∧
      file.content = sstableImage es w.trie w.bloomFilter := by
  have hwritten : w.Written es := hw.written
  obtain ⟨htrie, hbloom⟩ := index_blocks hrep.numbered hw.built (by decide)
  simp only at htrie hbloom
  rw [hwritten.finish hw.built.diskSize, htrie, Option.bind_some, hbloom]
  exact ⟨_, _, rfl, rfl⟩

end CompactionWriter

/-! ## The run -/

/-- The content of a file is loaded as a table that holds `es`. -/
def FileHolds (h : Hashing) (content : Blob) (es : Entries) : Prop :=
  ∃ s, SSTable.fromFd (.opened content []) = some (.ok s) ∧ s.Holds h es

theorem sstableContent_holds (h : Hashing) {t : MemtableInner} {es : Entries} (ht : t.Holds es)
    (hrep : Representable es) :
    ∃ fd, (writeSstable h t).runOn (File.create []) = some (.ok (), fd) ∧
      FileHolds h fd.content es := by
  have hcount := length_le_prefixes ht.sorted
  have hnodes := hrep.roomy.nodes
  obtain ⟨⟨diskSize, trie, bloomFilter⟩, _, hb, hwrite⟩ := writeSstable_eq h ht hrep.numbered
  obtain rfl : diskSize = headerSize + (logBlob es).length := hb.diskSize
  obtain ⟨s, hload, hs, _⟩ := fromFd_image hrep ht.sorted ht.fits hb (by omega)
  exact ⟨_, hwrite, s, hload, hs⟩

/-- What compaction makes of the tables of a cache. -/
structure Compacted (h : Hashing) (ess : List Entries) (iters : List SSTableIterator)
    (es : Entries) : Prop where
  pushed : Merge.pushed iters = some (es.map recordOf)
  sorted : Sorted es
  data : ∀ w ∈ es, (∃ value, w.2 = .data value) ∧ ∃ es' ∈ ess, w ∈ es'
  covers : ∀ key, (∃ es' ∈ ess, last key es' ≠ none) →
    (∀ es' ∈ ess, ∀ e, last key es' = some e → ∃ value, e = .data value) → last key es ≠ none
  newest : ∀ m, Merge.start iters = some m →
    (∀ m', Merge.Rounds (Merge.fuel iters) m m' → m'.RootNewest) →
    ∀ key, readEntry (last key es) = readEntry (findEntry key ess)
  table : Representable es → ∀ ts, ∃ table path, runCompaction h iters ts [] = some (table, path) ∧
    table.Holds h es ∧ FileHolds h table.fd.content es

theorem Compacted.started {h : Hashing} {ess : List Entries} {iters : List SSTableIterator}
    {es : Entries} (hcompacted : Compacted h ess iters es) : ∃ m, Merge.start iters = some m := by
  have hrun := hcompacted.pushed
  rw [Merge.pushed, Merge.run] at hrun
  obtain ⟨m, hstart, _⟩ := Option.bind_eq_some_iff.mp hrun
  exact ⟨m, hstart⟩

theorem compacted {h : Hashing} {tables : List SSTable} {ess : List Entries}
    (hs : SSTableCache.Holds h tables ess) :
    ∃ iters tables' es, tablesToIterators tables = some (iters, tables') ∧
      SSTableCache.Holds h tables' ess ∧ Compacted h ess iters es := by
  obtain ⟨iters, tables', htables, htables', hiters⟩ := tablesToIterators_eq hs
  obtain ⟨m, es, hstart, hrun, hes_sorted, hmem, hcovers, hnew⟩ :=
    Merge.run_entries hiters hs.sorted
  have hes : ∀ w ∈ es, (∃ value, w.2 = .data value) ∧ ∃ es' ∈ ess, w ∈ es' := by
    intro w hw
    obtain ⟨htype, hread⟩ := hmem w hw
    refine ⟨?_, hread⟩
    rw [Record.of_recordType] at htype
    cases he : w.2 with
    | data value => exact ⟨value, rfl⟩
    | tombstone =>
      rw [he] at htype
      cases htype
  refine ⟨iters, tables', es, htables, htables', ⟨?_, hes_sorted, hes, ?_, ?_, ?_⟩⟩
  · rw [Merge.pushed, hrun, Merge.foldlM_append, List.nil_append]
  · rintro key ⟨es', hes', hkey⟩ hdata hnone
    obtain ⟨e, he⟩ := Option.ne_none_iff_exists'.mp hkey
    obtain ⟨rs, hrs, r, hr, hrk, hin⟩ := hcovers _ (List.mem_map_of_mem hes') (recordOf (key, e))
      (List.mem_map_of_mem (mem_of_last he))
    obtain ⟨es'', hes'', rfl⟩ := List.mem_map.mp hrs
    obtain ⟨⟨key', e'⟩, hw, rfl⟩ := List.mem_map.mp hr
    rw [recordOf_keyBytes, recordOf_keyBytes] at hrk
    simp only at hrk
    subst hrk
    obtain ⟨value, rfl⟩ := hdata es'' hes'' e' (last_of_mem (hs.sorted es'' hes'') hw)
    obtain ⟨w, hw', heq⟩ := List.mem_map.mp (hin (Record.of_recordType _ _))
    exact last_eq_none_iff.mp hnone w hw' (by rw [recordOf_inj heq])
  · intro m' hm' hrounds key
    cases hstart.symm.trans hm'
    have hpushed := hnew.mpr hrounds key
    rw [newestRecord_map key hs.sorted] at hpushed
    exact readEntry_of_filter hes_sorted hpushed
  · intro hrep ts
    obtain ⟨w0, hnew0, hw0⟩ := CompactionWriter.new_eq h (prefixes es) ts
    obtain ⟨w, hpush, hw⟩ := hw0.pushAll hrep (List.nil_append es).symm hes_sorted
    obtain ⟨path, file, hfinish, hfile⟩ := hw.finish hrep
    have hfits : ∀ v ∈ es, Record.Fits v.1 v.2 := by
      intro v hv
      obtain ⟨_, es', hes', hv'⟩ := hes v hv
      exact hs.fits es' hes' v hv'
    have hdisk : w.diskOffset = headerSize + (logBlob es).length := hw.built.diskSize
    have hbuilt := hw.built
    rw [hdisk] at hbuilt
    obtain ⟨s, hload, hs', hcontent⟩ := fromFd_image hrep hes_sorted hfits hbuilt (by decide)
    rw [← hfile] at hload
    refine ⟨s, path, ?_, hs', s, ?_, hs'⟩
    · simp only [runCompaction, hnew0, hrun, hpush, hfinish, hload, Option.bind_eq_bind,
        Option.bind_some, Option.pure_def]
    · rw [hcontent, ← hfile]
      exact hload

/-! ## Tables that agree -/

/-- What the tables hold when read together: the values of the keys that are not deleted. -/
def newestEntries (ess : List Entries) : Entries :=
  (ofWrites ess.reverse.flatten).filter (·.2 ≠ .tombstone)

theorem mem_iff_readEntry {key value : Blob} {es : Entries} (hs : Sorted es) :
    (key, Entry.data value) ∈ es ↔ readEntry (last key es) = some value := by
  constructor
  · intro hmem
    rw [last_of_mem hs hmem]
    rfl
  · intro hread
    cases hlast : last key es with
    | none =>
      rw [hlast] at hread
      cases hread
    | some e =>
      rw [hlast] at hread
      cases e with
      | tombstone => cases hread
      | data v =>
        cases hread
        exact mem_of_last hlast

/-- Where the newest table wins, compaction makes one table of what they hold together. -/
theorem Compacted.eq_newestEntries {h : Hashing} {ess : List Entries} {iters : List SSTableIterator}
    {es : Entries} (hcompacted : Compacted h ess iters es)
    (hroots : ∀ m, Merge.start iters = some m →
      ∀ m', Merge.Rounds (Merge.fuel iters) m m' → m'.RootNewest) : es = newestEntries ess := by
  obtain ⟨m, hstart⟩ := hcompacted.started
  have hsorted := sorted_ofWrites ess.reverse.flatten
  refine sorted_mem_ext hcompacted.sorted (hsorted.filter _) fun w => ?_
  obtain ⟨key, e⟩ := w
  cases e with
  | tombstone =>
    refine iff_of_false (fun hmem => ?_) (by simp [newestEntries])
    obtain ⟨_, hdata⟩ := (hcompacted.data _ hmem).1
    cases hdata
  | data value =>
    rw [mem_iff_readEntry hcompacted.sorted, hcompacted.newest m hstart (hroots m hstart),
      newestEntries, List.mem_filter, mem_iff_readEntry hsorted,
        last_ofWrites, last_flatten_reverse]
    simp

/-- The newest record is at the root in every round over tables that agree. -/
theorem SSTableCache.Holds.rootNewest {h : Hashing} {tables tables' : List SSTable}
    {ess : List Entries} {iters : List SSTableIterator} (hs : SSTableCache.Holds h tables ess)
    (hiters : tablesToIterators tables = some (iters, tables'))
    (hagree : Undisputed (ess.map (·.map recordOf))) {m m' : Merge}
    (hstart : Merge.start iters = some m) (hrounds : Merge.Rounds (Merge.fuel iters) m m') :
    m'.RootNewest := by
  obtain ⟨iters', tables'', hiters', _, hyields⟩ := tablesToIterators_eq hs
  cases hiters.symm.trans hiters'
  refine Merge.rootNewest_of_undisputed (List.forall₂_map_right_iff.mpr hyields)
    (fun rs hrs => ?_) hagree hstart hrounds
  obtain ⟨es, hes, rfl⟩ := List.mem_map.mp hrs
  exact increasing_map.mpr (hs.sorted es hes)

end Lsmlite
