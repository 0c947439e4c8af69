import Lsmlite.CompactionFaults

/-!
# What a compaction keeps

A failed write inside a push loses its record, and what only a table has that was not read does not
reach the new table. With every read and every such write the merge is kept.
-/

namespace Lsmlite
open Bytes KeyValue

/-! ## What it should keep -/

/-- The iterator of the whole data block. -/
def SSTable.wholeIterator (s : SSTable) : SSTableIterator :=
  ⟨(s.fd.content.drop headerSize).take (s.index.dataBlockEnd - headerSize), 0⟩

/-- The records are all in the data block. -/
def SSTable.HasAll (s : SSTable) (records : List Record) : Prop :=
  ∃ rs, s.wholeIterator.Yields rs ∧ ∀ r ∈ records, r ∈ rs

/-- Whatever failed reads leave in their buffers, the step ends before it changes cache and
directory, or the one table of the cache has every record of the merge of the whole tables. A file's
length is a `u64`. -/
def KeepsMerge (h : Hashing) (tables : List SSTable) (faults : List IoResult) : Prop :=
  ∀ records, Merge.pushed (tables.map (·.wholeIterator)) = some records →
    ∀ (compactionRate : Nat) (left : List Blob) (fileTs : Nat) (dir : List DirEntry)
      (cache : SSTableCache) (dir' : List DirEntry),
      compactCache h ⟨tables, compactionRate⟩ left fileTs faults dir = some (cache, dir') →
      ∃ table, cache.cache = [table] ∧
        (table.fd.content.length < 2 ^ 64 → table.HasAll records)

/-! ## The tables -/

theorem SSTableIterator.Yields.unique {it : SSTableIterator} {rs rs' : List Record}
    (h : it.Yields rs) (h' : it.Yields rs') : rs = rs' := by
  induction h generalizing rs' with
  | done hnext =>
    cases h' with
    | done => rfl
    | record hnext' =>
      rw [hnext] at hnext'
      cases hnext'
  | record hnext _ ih =>
    cases h' with
    | done hnext' =>
      rw [hnext] at hnext'
      cases hnext'
    | record hnext' hrest' =>
      rw [hnext] at hnext'
      cases hnext'
      rw [ih hrest']

namespace SSTable

/-- The table was loaded from a file of a run; reads may have moved the descriptor since, and its
next calls may fail. -/
structure Cached (h : Hashing) (s : SSTable) : Prop where
  produced : ∃ writer, Produced h writer s.fd.content
  loaded : ∃ s', fromFd (.opened s.fd.content []) = some (.ok s') ∧ s.index = s'.index

/-- The seek and the read of `SSTableIterator::new` succeed. -/
def ReadInFull (s : SSTable) : Prop := .error ∉ s.fd.faults.take 2

instance (s : SSTable) : Decidable s.ReadInFull := inferInstanceAs (Decidable (¬ _))

/-- The file has the records of `es` in its data block. -/
structure Stores (s : SSTable) (es : Entries) : Prop where
  file : ∃ index bloom, s.fd.content = tableBytes es index bloom
  dataBlockEnd : s.index.dataBlockEnd = headerSize + (logBlob es).length
  sorted : Sorted es
  fits : ∀ w ∈ es, Record.Fits w.1 w.2

theorem stores_of_file {s : SSTable} {es : Entries} (hfile : SortedFile s.fd.content es)
    (hlength : s.fd.content.length < 2 ^ 64)
    (hend : s.index.dataBlockEnd = indexStart s.fd.content) :
    s.Stores es := by
  obtain ⟨index, bloom, hcontent⟩ := hfile.content
  rw [hcontent] at hlength
  rw [hcontent, indexStart_tableBytes hlength] at hend
  exact ⟨hfile.content, hend, hfile.sorted, hfile.fits⟩

theorem Cached.stores {h : Hashing} {s : SSTable} (hs : s.Cached h) : ∃ es, s.Stores es := by
  obtain ⟨writer, hproduced⟩ := hs.produced
  obtain ⟨hlength, es, hfile, _⟩ := hproduced.sortedFile
  obtain ⟨s', hload, hindex⟩ := hs.loaded
  exact ⟨es, stores_of_file hfile hlength (hindex ▸ (fromFd_ok hload).2.2.1)⟩

section
variable {s : SSTable} {es : Entries} (hs : s.Stores es)
include hs

theorem Stores.wholeIterator_eq : s.wholeIterator = ⟨logBlob es, 0⟩ := by
  obtain ⟨index, bloom, hcontent⟩ := hs.file
  rw [wholeIterator, hs.dataBlockEnd, hcontent, tableBytes, List.drop_left' header_length,
    List.take_left' (by omega)]

theorem Stores.yields : s.wholeIterator.Yields (es.map recordOf) := by
  rw [hs.wholeIterator_eq]
  exact yields_logBlob hs.fits [] rfl

theorem Stores.hasAll_iff {records : List Record} :
    s.HasAll records ↔ ∀ r ∈ records, r ∈ es.map recordOf := by
  constructor
  · rintro ⟨rs, hrs, hall⟩
    rwa [hrs.unique hs.yields] at hall
  · exact fun hall => ⟨_, hs.yields, hall⟩

theorem Stores.newLeft_eq (left : Blob) : SSTableIterator.newLeft s left =
    if (logBlob es).length < 2 ^ 63 then
      let got := (s.fd.seek headerSize).2.readExact (logBlob es).length
      some (⟨match got.1 with
        | .ok buffer => buffer
        | .error _ => resize left (logBlob es).length 0, 0⟩, { s with fd := got.2 })
    else none := by
  simp only [SSTableIterator.newLeft, guard, hs.dataBlockEnd, if_pos (Nat.le_add_right _ _),
    Nat.add_sub_cancel_left]
  by_cases hlength : (logBlob es).length < 2 ^ 63
  · rw [if_pos hlength, if_pos hlength]
    rfl
  · rw [if_neg hlength, if_neg hlength]
    rfl

/-- A read that does not fail gives the whole block. -/
theorem Stores.newLeft_read (hread : s.ReadInFull) (left : Blob) :
    ∃ s', SSTableIterator.newLeft s left =
    if (logBlob es).length < 2 ^ 63 then some (s.wholeIterator, s') else none := by
  obtain ⟨hseek, hread⟩ := succeeds_succ hread
  obtain ⟨hread, _⟩ := succeeds_succ hread
  obtain ⟨index, bloom, hcontent⟩ := hs.file
  have hmid : (s.fd.content.drop headerSize).take (logBlob es).length = logBlob es := by
    rw [hcontent, tableBytes, List.drop_left' header_length, List.take_left' rfl]
  have hgot : ((s.fd.seek headerSize).2.readExact (logBlob es).length).1 = .ok (logBlob es) := by
    rw [File.seek_succeeds hseek, File.readExact_succeeds hread, hmid, if_pos rfl]
  refine ⟨{ s with fd := ((s.fd.seek headerSize).2.readExact (logBlob es).length).2 }, ?_⟩
  rw [hs.newLeft_eq, hs.wholeIterator_eq]
  simp only [hgot]

/-- A failed read leaves what it left. -/
theorem Stores.newLeft_failed (hfailed : s.fd.faults[1]? = some .error) (left : Blob) :
    ∃ s', SSTableIterator.newLeft s left = if (logBlob es).length < 2 ^ 63 then
      some (⟨resize left (logBlob es).length 0, 0⟩, s') else none := by
  have hgot : ((s.fd.seek headerSize).2.readExact (logBlob es).length).1 = .error .failed :=
    File.readExact_fails hfailed headerSize _
  refine ⟨{ s with fd := ((s.fd.seek headerSize).2.readExact (logBlob es).length).2 }, ?_⟩
  rw [hs.newLeft_eq]
  simp only [hgot]

end

/-- A block of bytes that begin no record. -/
def noRecord (s : SSTable) : Blob := List.replicate (s.index.dataBlockEnd - headerSize) 255

/-- The iterator where a failed read leaves such a block. -/
def readIterator (s : SSTable) : SSTableIterator :=
  if s.ReadInFull then s.wholeIterator else ⟨s.noRecord, 0⟩

theorem noRecord_yields (s : SSTable) : SSTableIterator.Yields ⟨s.noRecord, 0⟩ [] := by
  rw [noRecord]
  cases s.index.dataBlockEnd - headerSize with
  | zero => exact .done rfl
  | succ n => exact .done rfl

end SSTable

theorem tablesToIteratorsLeft_whole {tables tables' : List SSTable}
    (hstores : ∀ s ∈ tables, ∃ es, s.Stores es) (hread : ∀ s ∈ tables, s.ReadInFull)
    {left : List Blob} {iters : List SSTableIterator}
    (hiters : tablesToIteratorsLeft tables left = some (iters, tables')) :
    iters = tables.map (·.wholeIterator) := by
  induction tables generalizing left iters tables' with
  | nil =>
    cases hiters
    rfl
  | cons s tables ih =>
    obtain ⟨es, hs⟩ := hstores s (List.mem_cons_self ..)
    obtain ⟨s', hnew⟩ := hs.newLeft_read (hread s (List.mem_cons_self ..)) (left.headD [])
    obtain ⟨⟨it, s''⟩, hit, hiters⟩ := Option.bind_eq_some_iff.mp hiters
    obtain ⟨⟨rest, tables''⟩, hrest, heq⟩ := Option.bind_eq_some_iff.mp hiters
    cases heq
    rw [hnew] at hit
    split at hit
    · cases hit
      rw [List.map_cons, ih (fun t ht => hstores t (List.mem_cons_of_mem _ ht))
        (fun t ht => hread t (List.mem_cons_of_mem _ ht)) hrest]
    · cases hit

theorem tablesToIteratorsLeft_noRecord {tables : List SSTable}
    (hstores : ∀ s ∈ tables, ∃ es, s.Stores es ∧ (logBlob es).length < 2 ^ 63)
    (hread : ∀ s ∈ tables, s.ReadInFull ∨ s.fd.faults[1]? = some .error) :
    ∃ tables', tablesToIteratorsLeft tables (tables.map (·.noRecord)) =
      some (tables.map (·.readIterator), tables') := by
  induction tables with
  | nil => exact ⟨[], rfl⟩
  | cons s tables ih =>
    obtain ⟨es, hs, hlength⟩ := hstores s (List.mem_cons_self ..)
    have hnew : ∃ s', SSTableIterator.newLeft s s.noRecord = some (s.readIterator, s') := by
      rw [SSTable.readIterator]
      by_cases hin : s.ReadInFull
      · obtain ⟨s', hnew⟩ := hs.newLeft_read hin s.noRecord
        exact ⟨s', by rw [hnew, if_pos hlength, if_pos hin]⟩
      · obtain ⟨s', hnew⟩ :=
          hs.newLeft_failed ((hread s (List.mem_cons_self ..)).resolve_left hin) s.noRecord
        have hsame : resize s.noRecord (logBlob es).length 0 = s.noRecord := by
          rw [SSTable.noRecord, hs.dataBlockEnd, Nat.add_sub_cancel_left, resize,
            List.length_replicate, Nat.sub_self, List.replicate_zero, List.append_nil,
            List.take_of_length_le (by simp)]
        exact ⟨s', by rw [hnew, if_pos hlength, if_neg hin, hsame]⟩
    obtain ⟨s', hnew⟩ := hnew
    obtain ⟨tables', hrest⟩ := ih (fun t ht => hstores t (List.mem_cons_of_mem _ ht))
      fun t ht => hread t (List.mem_cons_of_mem _ ht)
    refine ⟨s' :: tables', ?_⟩
    simp only [tablesToIteratorsLeft, List.map_cons, List.headD_cons, List.tail_cons, hnew, hrest,
      Option.bind_eq_bind, Option.bind_some, Option.pure_def]

/-! ## The merge -/

/-- The merge of sorted tables is a sorted list of their entries. -/
theorem merge_of {tables : List SSTable} {iterator : SSTable → SSTableIterator}
    {P : SSTable → Blob × Entry → Prop}
    (hyields : ∀ s ∈ tables, ∃ es, (iterator s).Yields (es.map recordOf) ∧ Sorted es ∧
      ∀ w ∈ es, Record.Fits w.1 w.2 ∧ P s w) :
    ∃ es, (∀ {W : Type} (push : W → Record → Option W) (w : W),
        Merge.run push w (tables.map iterator) = (es.map recordOf).foldlM push w) ∧ Sorted es ∧
      ∀ w ∈ es, Record.Fits w.1 w.2 ∧ ∃ s ∈ tables, P s w := by
  obtain ⟨ess, hess, hall⟩ : ∃ ess : List Entries,
      List.Forall₂ (fun it es => it.Yields (es.map recordOf)) (tables.map iterator) ess ∧
      ∀ es ∈ ess, Sorted es ∧ ∀ w ∈ es, Record.Fits w.1 w.2 ∧ ∃ s ∈ tables, P s w := by
    induction tables with
    | nil => exact ⟨[], .nil, by nofun⟩
    | cons s tables ih =>
      obtain ⟨es, hes, hsorted, hw⟩ := hyields s (List.mem_cons_self ..)
      obtain ⟨ess, hess, hall⟩ := ih fun t ht => hyields t (List.mem_cons_of_mem _ ht)
      refine ⟨es :: ess, .cons hes hess, fun es' hes' => ?_⟩
      rcases List.mem_cons.mp hes' with rfl | hes'
      · exact ⟨hsorted, fun w hin => ⟨(hw w hin).1, s, List.mem_cons_self .., (hw w hin).2⟩⟩
      · obtain ⟨hsorted', hw'⟩ := hall es' hes'
        refine ⟨hsorted', fun w hin => ?_⟩
        obtain ⟨hfits, t, ht, hp⟩ := hw' w hin
        exact ⟨hfits, t, List.mem_cons_of_mem _ ht, hp⟩
  obtain ⟨_, es, _, hrun, hsorted, hes, _⟩ := Merge.run_entries hess fun es hes => (hall es hes).1
  refine ⟨es, hrun, hsorted, fun w hw => ?_⟩
  obtain ⟨_, es', hes', hin⟩ := hes w hw
  exact (hall es' hes').2 w hin

/-- The records keep the limits of the format. -/
structure FitsFormat (rs : List Record) : Prop where
  prefixes : Roomy (keyPrefixes rs)
  size : headerSize + (blobs rs).length < 2 ^ 63

theorem Increasing.nodup {rs : List Record} (hrs : Increasing rs) : rs.Nodup := by
  apply hrs.imp
  intro a b hlt heq
  rw [heq] at hlt
  exact lt_irrefl _ hlt

theorem FitsFormat.representable {rs : List Record} (hfits : FitsFormat rs) {es : Entries}
    (hs : Sorted es) (hsub : ∀ w ∈ es, recordOf w ∈ rs) : Representable es := by
  have hprefixes : Lsmlite.prefixes es ⊆ keyPrefixes rs := by
    intro pre hpre
    obtain ⟨w, hw, hin⟩ := List.mem_flatMap.mp (List.mem_dedup.mp hpre)
    exact mem_keyPrefixes.mpr ⟨_,
      hsub w hw, by rw [recordOf_keyBytes]; exact (List.mem_inits _ _).mp hin⟩
  have hmem : es.map recordOf ⊆ rs := by
    intro r hr
    obtain ⟨w, hw, rfl⟩ := List.mem_map.mp hr
    exact hsub w hw
  constructor
  · constructor
    · exact ((List.subperm_of_subset (List.nodup_dedup _) hprefixes).length_le).trans_lt
        hfits.prefixes.nodes
    · intro label hlabel
      obtain ⟨c, hc⟩ := hfits.prefixes.children label (hprefixes hlabel)
      exact ⟨c, fun hin => hc (hprefixes hin)⟩
  · obtain ⟨l, hperm, hsublist⟩ := List.subperm_of_subset (increasing_map.mpr hs).nodup hmem
    have hsame : (blobs l).length = (logBlob es).length := by
      rw [← blobs_map]
      exact (hperm.flatMap_right _).length_eq
    have hle : (blobs l).length ≤ (blobs rs).length := (hsublist.flatMap _).length_le
    have hsize := hfits.size
    omega

/-! ## What is kept -/

/-- No write inside the pushes of these records fails. -/
def PushesWritten (records : List Record) (faults : List IoResult) : Prop :=
  .error ∉ (pushWrites 4096 0 (records.map Record.size) (faults.drop 2)).1

/-- The writes of the header and of `finish` succeed. -/
def AroundWritten (records : List Record) (faults : List IoResult) : Prop :=
  .error ∉ faults.take 2 ∧
    .error ∉ (pushWrites 4096 0 (records.map Record.size) (faults.drop 2)).2.take 4

theorem pushWrites_clean {capacity buffered : Nat} {sizes : List Nat} {faults : List IoResult}
    (hclean : Clean faults) (hnone : .error ∉ faults) :
    .error ∉ (pushWrites capacity buffered sizes faults).1 ∧
      .error ∉ (pushWrites capacity buffered sizes faults).2 := by
  induction sizes generalizing capacity buffered faults with
  | nil => exact ⟨List.not_mem_nil, hnone⟩
  | cons size sizes ih =>
    by_cases hroom : buffered + size < capacity
    · rw [pushWrites, if_pos hroom]
      exact ih hclean hnone
    · have hresult : faults.headD .full = .full := by
        cases faults with
        | nil => rfl
        | cons r faults =>
          exact hclean.headD.resolve_right fun herror => hnone (herror ▸ List.mem_cons_self ..)
      obtain ⟨hresults, hrest⟩ := @ih (reserved capacity size) size faults.tail hclean.tail
        fun herror => hnone (List.mem_of_mem_tail herror)
      rw [pushWrites_full hroom hresult]
      exact ⟨fun herror => hresults ((List.mem_cons.mp herror).resolve_left (by decide)), hrest⟩

theorem compactCache_some {h : Hashing} {cache cache' : SSTableCache} {left : List Blob}
    {fileTs : Nat} {faults : List IoResult} {dir dir' : List DirEntry}
    (hrun : compactCache h cache left fileTs faults dir = some (cache', dir')) :
    ∃ iters tables table path, tablesToIteratorsLeft cache.cache left = some (iters, tables) ∧
      runCompaction h iters fileTs faults = some (table, path) ∧ cache'.cache = [table] := by
  obtain ⟨⟨iters, tables⟩, hiters, hrun⟩ := Option.bind_eq_some_iff.mp hrun
  obtain ⟨⟨table, path⟩, htable, heq⟩ := Option.bind_eq_some_iff.mp hrun
  cases heq
  exact ⟨iters, tables, table, path, hiters, htable, rfl⟩

section
variable {h : Hashing} {tables : List SSTable} {faults : List IoResult}
  (hcached : ∀ s ∈ tables, s.Cached h) (hclean : Clean faults)
include hcached

theorem merge_whole : ∃ es, (∀ {W : Type} (push : W → Record → Option W) (w : W),
    Merge.run push w (tables.map (·.wholeIterator)) = (es.map recordOf).foldlM push w) ∧ Sorted es ∧
      ∀ w ∈ es, Record.Fits w.1 w.2 ∧ ∃ s ∈ tables, s.HasAll [recordOf w] := by
  refine merge_of fun s hs => ?_
  obtain ⟨es, hstores⟩ := (hcached s hs).stores
  refine ⟨es, hstores.yields, hstores.sorted,
    fun w hw => ⟨hstores.fits w hw, hstores.hasAll_iff.mpr ?_⟩⟩
  intro r hr
  rw [List.mem_singleton.mp hr]
  exact List.mem_map_of_mem hw

include hclean

/-- With every read and every write inside a push the merge is kept. -/
theorem KeepsMerge.of_written {records : List Record}
    (hmerged : Merge.pushed (tables.map (·.wholeIterator)) = some records)
    (hread : ∀ s ∈ tables, s.ReadInFull) (hwritten : PushesWritten records faults) :
    KeepsMerge h tables faults := by
  intro records' hmerged' rate left fileTs dir cache dir' hrun
  cases hmerged.symm.trans hmerged'
  obtain ⟨es, hloop, hsorted, hes⟩ := merge_whole hcached
  obtain rfl : es.map recordOf = records := by
    rw [Merge.pushed, hloop, Merge.foldlM_append, List.nil_append] at hmerged
    exact Option.some.inj hmerged
  obtain ⟨iters, tables', table, path, hiters, htable, hcache⟩ := compactCache_some hrun
  cases tablesToIteratorsLeft_whole (fun s hs => (hcached s hs).stores) hread hiters
  obtain ⟨kept, index, bloom, hcontent, hend, _, hall, _⟩ :=
    runCompaction_some (hloop _) hclean htable rfl
  refine ⟨table, hcache, fun hlength => ?_⟩
  rw [PushesWritten, List.map_map] at hwritten
  cases hall hwritten
  have hstores := SSTable.stores_of_file ⟨⟨index, bloom, hcontent⟩, hsorted,
    fun w hw => (hes w hw).1⟩ hlength hend
  exact hstores.hasAll_iff.mpr fun r hr => hr

omit hcached hclean in
/-- What a table stores is among the records of all tables. -/
theorem stored_flatten {rss : List (List Record)}
    (hrecords : List.Forall₂ (fun s rs => s.wholeIterator.Yields rs) tables rss) {s : SSTable}
    (hs : s ∈ tables) {es : Entries} (hstores : s.Stores es) :
    (es.map recordOf).Sublist rss.flatten := by
  induction hrecords with
  | nil => cases hs
  | @cons t rs tables rss hhead _ ih =>
    rw [List.flatten_cons]
    rcases List.mem_cons.mp hs with rfl | hs
    · rw [hstores.yields.unique hhead]
      exact List.sublist_append_left ..
    · exact (ih hs).trans (List.sublist_append_right ..)

omit hclean in
/-- The merge of the tables that are read, where the others begin with no record. -/
theorem merge_read {rss : List (List Record)}
    (hrecords : List.Forall₂ (fun s rs => s.wholeIterator.Yields rs) tables rss)
    (hfits : FitsFormat rss.flatten)
    (hread : ∀ s ∈ tables, s.ReadInFull ∨ s.fd.faults[1]? = some .error) :
    (∃ tables', tablesToIteratorsLeft tables (tables.map (·.noRecord)) =
      some (tables.map (·.readIterator), tables')) ∧
    ∃ es, (∀ {W : Type} (push : W → Record → Option W) (w : W),
        Merge.run push w (tables.map (·.readIterator)) = (es.map recordOf).foldlM push w) ∧
          Sorted es ∧
      Representable es ∧ ∀ w ∈ es, Record.Fits w.1 w.2 ∧ ∃ s ∈ tables, s.ReadInFull ∧
        s.HasAll [recordOf w] := by
  constructor
  · apply tablesToIteratorsLeft_noRecord _ hread
    intro s hs
    obtain ⟨es, hstores⟩ := (hcached s hs).stores
    refine ⟨es, hstores, ?_⟩
    have hle : (blobs (es.map recordOf)).length ≤ (blobs rss.flatten).length :=
      ((stored_flatten hrecords hs hstores).flatMap _).length_le
    rw [blobs_map] at hle
    have hsize := hfits.size
    omega
  · have hyields : ∀ s ∈ tables, ∃ es, s.readIterator.Yields (es.map recordOf) ∧ Sorted es ∧
        ∀ w ∈ es, Record.Fits w.1 w.2 ∧ s.ReadInFull ∧ s.HasAll [recordOf w] := by
      intro s hs
      by_cases hin : s.ReadInFull
      · obtain ⟨es, hstores⟩ := (hcached s hs).stores
        refine ⟨es, by
          rw [SSTable.readIterator, if_pos hin]; exact hstores.yields, hstores.sorted, ?_⟩
        intro w hw
        refine ⟨hstores.fits w hw, hin, hstores.hasAll_iff.mpr fun r hr => ?_⟩
        rw [List.mem_singleton.mp hr]
        exact List.mem_map_of_mem hw
      · refine ⟨[], by
          rw [SSTable.readIterator, if_neg hin]; exact s.noRecord_yields, List.Pairwise.nil, ?_⟩
        exact fun w hw => absurd hw List.not_mem_nil
    obtain ⟨es, hloop, hsorted, hes⟩ := merge_of hyields
    refine ⟨es, hloop, hsorted, hfits.representable hsorted fun w hw => ?_, hes⟩
    obtain ⟨_, s, hs, _, hall⟩ := hes w hw
    obtain ⟨es', hstores⟩ := (hcached s hs).stores
    exact (stored_flatten hrecords hs hstores).subset
      (hstores.hasAll_iff.mp hall _ (List.mem_singleton_self _))

omit hcached in
/-- A compaction that ends keeps the merge only among what its pushes kept. -/
theorem KeepsMerge.kept {records : List Record} (hkeeps : KeepsMerge h tables faults)
    (hmerged : Merge.pushed (tables.map (·.wholeIterator)) = some records)
    {tables' : List SSTable}
    (hiters : tablesToIteratorsLeft tables (tables.map (·.noRecord)) =
      some (tables.map (·.readIterator), tables')) {es : Entries}
    (hloop : ∀ w, Merge.run (CompactionWriter.pushDropped h) w (tables.map (·.readIterator)) =
      (es.map recordOf).foldlM (CompactionWriter.pushDropped h) w) (hsorted : Sorted es)
    (hfits : ∀ w ∈ es, Record.Fits w.1 w.2) (hrep : Representable es)
    (haround : AroundWritten (es.map recordOf) faults) :
    ∃ kept : Entries, kept.Sublist es ∧ (¬ PushesWritten (es.map recordOf) faults →
      kept.length < es.length) ∧ ∀ r ∈ records, r ∈ kept.map recordOf := by
  have hsizes : (es.map recordOf).map Record.size = es.map fun v => (recordOf v).size :=
    List.map_map
  rw [AroundWritten, hsizes] at haround
  obtain ⟨table, path, htable, hlength⟩ :=
    runCompaction_full hloop hrep hclean haround.1 rfl haround.2 0
  obtain ⟨kept, index, bloom, hcontent, hend, hsub, _, hlost⟩ :=
    runCompaction_some hloop hclean htable rfl
  refine ⟨kept, hsub, fun herror => hlost ?_, ?_⟩
  · rw [PushesWritten, hsizes, not_not] at herror
    exact herror
  · have hrun : compactCache h ⟨tables, 1⟩ (tables.map (·.noRecord)) 0 faults [] =
        some (cleanup ⟨tables', 1⟩ table path []) := by
      simp only [compactCache, hiters, htable, Option.bind_eq_bind,
        Option.bind_some, Option.pure_def]
    obtain ⟨table', hcache, hall⟩ := hkeeps records hmerged 1 _ 0 [] _ _ hrun
    obtain rfl : table = table' := List.singleton_inj.mp hcache
    have hstores := SSTable.stores_of_file ⟨⟨index, bloom, hcontent⟩, hsorted.sublist hsub,
      fun w hw => hfits w (hsub.subset hw)⟩ hlength hend
    exact hstores.hasAll_iff.mp (hall hlength)

/-- With every read, the merge is kept only if no push fails to write. -/
theorem KeepsMerge.written {records : List Record} (hkeeps : KeepsMerge h tables faults)
    (hmerged : Merge.pushed (tables.map (·.wholeIterator)) = some records)
    {rss : List (List Record)}
    (hrecords : List.Forall₂ (fun s rs => s.wholeIterator.Yields rs) tables rss)
    (hfits : FitsFormat rss.flatten) (hread : ∀ s ∈ tables, s.ReadInFull)
    (haround : AroundWritten records faults) :
    PushesWritten records faults := by
  obtain ⟨⟨tables', hiters⟩, es, hloop, hsorted, hrep, hes⟩ :=
    merge_read hcached hrecords hfits fun s hs => Or.inl (hread s hs)
  have hwhole : tables.map (·.readIterator) = tables.map (·.wholeIterator) :=
    List.map_congr_left fun s hs => if_pos (hread s hs)
  obtain rfl : es.map recordOf = records := by
    rw [Merge.pushed, ← hwhole, hloop, Merge.foldlM_append, List.nil_append] at hmerged
    exact Option.some.inj hmerged
  obtain ⟨kept, hsub, hlost, hall⟩ := hkeeps.kept hclean hmerged hiters (hloop _) hsorted
    (fun w hw => (hes w hw).1) hrep haround
  by_contra hfailed
  have hle := (List.subperm_of_subset (increasing_map.mpr hsorted).nodup hall).length_le
  rw [List.length_map, List.length_map] at hle
  exact absurd (hlost hfailed) (Nat.not_lt.mpr hle)

/-- With every write, the merge is kept only if tables that are read have all of it. -/
theorem KeepsMerge.of_read {records : List Record} (hkeeps : KeepsMerge h tables faults)
    (hmerged : Merge.pushed (tables.map (·.wholeIterator)) = some records)
    {rss : List (List Record)}
    (hrecords : List.Forall₂ (fun s rs => s.wholeIterator.Yields rs) tables rss)
    (hfits : FitsFormat rss.flatten)
    (hread : ∀ s ∈ tables, s.ReadInFull ∨ s.fd.faults[1]? = some .error)
    (hwritten : .error ∉ faults) :
    ∀ r ∈ records, ∃ s ∈ tables, s.ReadInFull ∧ s.HasAll [r] := by
  obtain ⟨⟨tables', hiters⟩, es, hloop, hsorted, hrep, hes⟩ :=
    merge_read hcached hrecords hfits hread
  have haround : AroundWritten (es.map recordOf) faults := by
    have hdrop : Clean (faults.drop 2) := fun r hr => hclean r (List.mem_of_mem_drop hr)
    constructor
    · exact fun herror => hwritten (List.mem_of_mem_take herror)
    · intro herror
      have hnone : .error ∉ faults.drop 2 := fun hin => hwritten (List.mem_of_mem_drop hin)
      exact (pushWrites_clean hdrop hnone).2 (List.mem_of_mem_take herror)
  obtain ⟨kept, hsub, _, hall⟩ := hkeeps.kept hclean hmerged hiters (hloop _) hsorted
    (fun w hw => (hes w hw).1) hrep haround
  intro r hr
  obtain ⟨w, hw, rfl⟩ := List.mem_map.mp (hall r hr)
  exact (hes w (hsub.subset hw)).2

end

/-- The merge is kept if every read and every write inside a push succeeds. With the reads and the
other writes it is kept only then; of tables that are not read, it has nothing of their own. -/
theorem compaction_keeps_merge {h : Hashing} {tables : List SSTable} {faults : List IoResult}
    (hcached : ∀ s ∈ tables, s.Cached h) (hclean : Clean faults) {records : List Record}
    (hmerged : Merge.pushed (tables.map (·.wholeIterator)) = some records) :
    ((∀ s ∈ tables, s.ReadInFull) → PushesWritten records faults → KeepsMerge h tables faults) ∧
    ∀ rss, List.Forall₂ (fun s rs => s.wholeIterator.Yields rs) tables rss →
      FitsFormat rss.flatten → KeepsMerge h tables faults →
      ((∀ s ∈ tables, s.ReadInFull) → AroundWritten records faults → PushesWritten records faults) ∧
      ((∀ s ∈ tables, s.ReadInFull ∨ s.fd.faults[1]? = some .error) → .error ∉ faults →
        ∀ r ∈ records, ∃ s ∈ tables, s.ReadInFull ∧ s.HasAll [r]) := by
  constructor
  · exact KeepsMerge.of_written hcached hclean hmerged
  · intro rss hrecords hfits hkeeps
    exact ⟨hkeeps.written hcached hclean hmerged hrecords hfits,
      hkeeps.of_read hcached hclean hmerged hrecords hfits⟩

/-! ## Two records and a failed write -/

/-- A flushed memtable is a table to compact. -/
theorem MemtableInner.Reached.cached {t : MemtableInner} (ht : t.Reached) {es : Entries}
    (hes : t.Holds es) (hrep : Representable es) (h : Hashing) :
    ∃ s : SSTable, s.Cached h ∧ s.ReadInFull ∧ s.Stores es := by
  have hcount := length_le_prefixes hes.sorted
  have hnodes := hrep.roomy.nodes
  have hsize := hrep.size
  obtain ⟨⟨diskSize, trie, bloomFilter⟩, _, hb, hwrite⟩ := writeSstable_eq h hes hrep.numbered
  obtain rfl : diskSize = headerSize + (logBlob es).length := hb.diskSize
  obtain ⟨s, hload, hs, hcontent⟩ := fromFd_image hrep hes.sorted hes.fits hb (by omega)
  have htrie : trie.bytes.length < 2 ^ 62 := hb.maps.bytes_lt hnodes
  have hbloom : bloomFilter.bytes.length < 2 ^ 61 := bloom_bytes_lt hb.extends_new (by omega)
  have hlength : (sstableImage es trie bloomFilter).length < 2 ^ 64 := by
    have hlen := tableBytes_length es trie.bytes bloomFilter.bytes
    simp only [footerSize] at hlen
    show (tableBytes es trie.bytes bloomFilter.bytes).length < 2 ^ 64
    omega
  refine ⟨s, ⟨⟨.flush, ?_⟩, s, ?_, rfl⟩, ?_,
    ⟨⟨_, _, hcontent⟩, hs.dataBlockEnd, hs.sorted, hs.fits⟩⟩
  · rw [hcontent]
    exact .flush ht hwrite hlength
  · rw [hcontent]
    exact hload
  · rw [SSTable.ReadInFull, hs.faults]
    exact List.not_mem_nil

/-- The merge of one table of data has all of it. -/
theorem SSTable.Stores.merge {s : SSTable} {es : Entries} (hs : s.Stores es)
    (hdata : ∀ w ∈ es, (recordOf w).recordType = .data) :
    Merge.pushed ([s].map (·.wholeIterator)) = some (es.map recordOf) := by
  have hinc : ∀ rs ∈ [es.map recordOf], Increasing rs := by
    intro rs hrs
    rw [List.mem_singleton.mp hrs]
    exact increasing_map.mpr hs.sorted
  obtain ⟨_, out, _, hrun, hsorted, hout, hcovers, _⟩ := Merge.run_eq (.cons hs.yields .nil) hinc
  have hback : ∀ r ∈ es.map recordOf, r ∈ out := by
    intro r hr
    obtain ⟨rs, hrs, r', hr', hkeys, hin⟩ := hcovers _ (List.mem_singleton_self _) r hr
    rw [List.mem_singleton.mp hrs] at hr'
    obtain ⟨w, hw, rfl⟩ := List.mem_map.mp hr
    obtain ⟨w', hw', rfl⟩ := List.mem_map.mp hr'
    rw [recordOf_keyBytes, recordOf_keyBytes] at hkeys
    have hentry : w' = w := by
      have hlast := last_of_mem hs.sorted (show (w.1, w'.2) ∈ es from hkeys ▸ hw')
      rw [last_of_mem hs.sorted (show (w.1, w.2) ∈ es from hw), Option.some.injEq] at hlast
      exact Prod.ext hkeys hlast.symm
    rw [← hentry]
    exact hin (hdata w' hw')
  have hsame : out = es.map recordOf := by
    apply List.Perm.eq_of_pairwise _ hsorted (increasing_map.mpr hs.sorted)
    · apply (List.perm_ext_iff_of_nodup hsorted.nodup (increasing_map.mpr hs.sorted).nodup).mpr
      intro r
      constructor
      · intro hr
        obtain ⟨_, rs, hrs, hin⟩ := hout r hr
        rwa [List.mem_singleton.mp hrs] at hin
      · exact hback r
    · intro r r' _ _ hlt hgt
      exact absurd hgt (lt_asymm hlt)
  rw [Merge.pushed, List.map_singleton, hrun, Merge.foldlM_append, List.nil_append, hsame]

/-- A key with one byte of value, and the next key with this value. -/
def twoEntries (value : Blob) : Entries := [([97], .data [1]), ([98], .data value)]

/-- The sizes of the two records. -/
theorem twoEntries_lengths {value : Blob} (hvalue : value.length ≤ 4096) :
    (Record.of [97] (.data [1])).blob.length = 6 ∧
      (Record.of [98] (.data value)).blob.length < 5000 := by
  refine ⟨by decide +kernel, ?_⟩
  have hvalueWidth := leb_length_le_ten (show value.length < 2 ^ 64 by omega)
  have hkeyWidth := leb_length_le_ten (show ([98] : Blob).length < 2 ^ 64 by decide)
  have hbody := Record.body_length [98] (.data value)
  have htail : (Entry.tail (.data value)).length = (leb value.length).length + value.length := by
    simp [Entry.tail]
  simp only [List.length_singleton] at hbody hkeyWidth
  have hlogWidth :=
    leb_length_le_ten (show (Record.body [98] (.data value)).length < 2 ^ 64 by omega)
  have hblob := Record.blob_length [98] (.data value)
  rw [Record.logWidth] at hblob
  omega

theorem representable_two {value : Blob} (hvalue : value.length ≤ 4096) :
    Representable (twoEntries value) := by
  obtain ⟨hshort, hlong⟩ := twoEntries_lengths hvalue
  have hprefixes : prefixes (twoEntries value) = [[97], [], [98]] := rfl
  refine ⟨⟨by rw [hprefixes]; decide, ?_⟩, ?_⟩
  · rw [hprefixes]
    have hroom : ∀ label ∈ [[97], [], [98]],
      label ++ [0] ∉ ([[97], [], [98]] : List Blob) := by decide
    exact fun label hlabel => ⟨0, hroom label hlabel⟩
  · simp only [twoEntries, logBlob, List.flatMap_cons, List.flatMap_nil, List.length_append,
      List.length_nil, headerSize]
    omega

theorem standFor_map (es : Entries) : StandFor (es.map recordOf) es := by
  rw [StandFor, List.forall₂_map_left_iff, List.forall₂_same]
  exact fun w _ => Record.canonical_of w.1 w.2

theorem fitsFormat_map {es : Entries} (hrep : Representable es) : FitsFormat (es.map recordOf) := by
  have hstand := standFor_map es
  exact ⟨hstand.keyPrefixes ▸ hrep.roomy, hstand.blobs ▸ hrep.size⟩

/-- The second push writes the first record. -/
theorem twoEntries_writes {value : Blob} (hlength : value.length = 4096) {r : IoResult}
    (hr : r = .full ∨ r = .error) :
    pushWrites 4096 0 (((twoEntries value).map recordOf).map Record.size) [r] = ([r], []) := by
  have hshort : 0 + (recordOf ([97], .data [1])).size < 4096 := by decide +kernel
  have hlong : 4096 ≤ (recordOf ([98], .data value)).size := by
    have hfront := congrArg List.length (blob_front [98] value)
    rw [List.length_append] at hfront
    show 4096 ≤ (Record.of [98] (.data value)).blob.length
    omega
  show pushWrites 4096 0
    [(recordOf ([97], .data [1])).size, (recordOf ([98], .data value)).size] _ = _
  rcases hr with rfl | rfl
  · rw [pushWrites, if_pos hshort, pushWrites_full (by omega) rfl]
    rfl
  · rw [pushWrites, if_pos hshort, pushWrites_error (by omega) rfl]
    rfl

theorem exists_cached (h : Hashing) {value : Blob} (hvalue : value.length ≤ 4096) :
    ∃ s : SSTable, s.Cached h ∧ s.ReadInFull ∧ s.Stores (twoEntries value) ∧
      FitsFormat ((twoEntries value).map recordOf) := by
  obtain ⟨hshort, hlong⟩ := twoEntries_lengths hvalue
  have hrep := representable_two hvalue
  obtain ⟨t1, hwrite1, hins1⟩ := (MemtableInner.holds_new 10000 10 (Wal.new 0 0 [])).write_ok rfl
    (show Record.Fits [97] (.data [1]) by rw [Record.Fits]; omega) (fun old _ hold => by
      simp [last] at hold) ⟨0, 0⟩
  have hcall1 :
      (MemtableInner.new 10000 10 (Wal.new 0 0 [])).call ⟨[97], .data [1], ⟨0, 0⟩⟩ = some t1 := by
    simp only [MemtableInner.call, hwrite1, Option.bind_eq_bind, Option.bind_some, Option.pure_def]
  have hfull : ((MemtableInner.new 10000 10 (Wal.new 0 0 [])).call ⟨[97], .data [1], ⟨0, 0⟩⟩).map
      MemtableInner.full = some false := by decide +kernel
  rw [hcall1] at hfull
  obtain ⟨t2, hwrite2, hins2⟩ := hins1.holds.write_ok (Option.some.inj hfull)
    (show Record.Fits [98] (.data value) by rw [Record.Fits]; omega)
    (fun old _ hold => by simp [KeyValue.insert, last] at hold) ⟨0, 0⟩
  have hcall2 : t1.call ⟨[98], .data value, ⟨0, 0⟩⟩ = some t2 := by
    simp only [MemtableInner.call, hwrite2, Option.bind_eq_bind, Option.bind_some, Option.pure_def]
  have hreached :=
    ((MemtableInner.Reached.new 10000 10 (Wal.new 0 0 [])).call _ hcall1).call _ hcall2
  have hholds : t2.Holds (twoEntries value) := hins2.holds
  obtain ⟨s, hcached, hread, hstores⟩ := hreached.cached hholds hrep h
  exact ⟨s, hcached, hread, hstores, fitsFormat_map hrep⟩

theorem twoEntries_data (value : Blob) :
    ∀ w ∈ twoEntries value, (recordOf w).recordType = .data := by
  intro w hw
  rcases List.mem_cons.mp hw with rfl | hw
  · exact Record.of_recordType [97] (.data [1])
  · rw [List.mem_singleton.mp hw]
    exact Record.of_recordType [98] (.data value)

/-- The push of the second record fails to write the first one: the record is left out and its key
indexed. -/
theorem failed_write_loses_record : ∃ s : SSTable, s.Cached flatHashing ∧
    s.Stores (twoEntries (List.replicate 4096 0)) ∧ s.ReadInFull ∧
    ¬ KeepsMerge flatHashing [s] [.full, .full, .error] := by
  obtain ⟨value, hvalue⟩ : ∃ value : Blob, value = List.replicate 4096 0 := ⟨_, rfl⟩
  have hlength : value.length = 4096 := by rw [hvalue, List.length_replicate]
  rw [← hvalue]
  obtain ⟨s, hcached, hread, hstores, hfits⟩ := exists_cached flatHashing (Nat.le_of_eq hlength)
  refine ⟨s, hcached, hstores, hread, fun hkeeps => ?_⟩
  have hclean : ∀ r ∈ ([.full, .full, .error] : List IoResult), r = .full ∨ r = .error := by decide
  have hwrites := twoEntries_writes hlength (Or.inr rfl)
  have haround : AroundWritten ((twoEntries value).map recordOf) [.full, .full, .error] := by
    constructor
    · decide
    · show IoResult.error ∉ (pushWrites 4096 0 _ [.error]).2.take 4
      rw [hwrites]
      decide
  have hall : ∀ t ∈ [s], t.Cached flatHashing ∧ t.ReadInFull := by
    intro t ht
    rw [List.mem_singleton.mp ht]
    exact ⟨hcached, hread⟩
  have hwritten :=
    hkeeps.written (fun t ht => (hall t ht).1) hclean (hstores.merge (twoEntries_data value))
    (.cons hstores.yields .nil) (by simpa using hfits) (fun t ht => (hall t ht).2) haround
  have hnone : IoResult.error ∉ (pushWrites 4096 0 _ [.error]).1 := hwritten
  rw [hwrites] at hnone
  exact hnone (List.mem_singleton_self _)

/-- The second push has to write the first record, and the write succeeds. -/
theorem compaction_keeps_merge_two :
    ∃ (s : SSTable) (records : List Record), s.ReadInFull ∧
    Merge.pushed [s.wholeIterator] = some records ∧
    (pushWrites 4096 0 (records.map Record.size) [.full]).1 = [.full] ∧
    KeepsMerge flatHashing [s] [.full, .full, .full] ∧
    ∀ rss, List.Forall₂ (fun (t : SSTable) rs => t.wholeIterator.Yields rs) [s] rss →
      FitsFormat rss.flatten → KeepsMerge flatHashing [s] [.full, .full, .full] →
      ((∀ t ∈ [s], t.ReadInFull) → AroundWritten records [.full, .full, .full] →
        PushesWritten records [.full, .full, .full]) ∧
      ((∀ t ∈ [s], t.ReadInFull ∨ t.fd.faults[1]? = some .error) → IoResult.error ∉
        [.full, .full, .full] → ∀ r ∈ records, ∃ t ∈ [s], t.ReadInFull ∧ t.HasAll [r]) := by
  obtain ⟨value, hlength⟩ : ∃ value : Blob, value.length = 4096 :=
    ⟨List.replicate 4096 0, List.length_replicate⟩
  obtain ⟨s, hcached, hread, hstores, _⟩ := exists_cached flatHashing (Nat.le_of_eq hlength)
  have hclean : ∀ r ∈ ([.full, .full, .full] : List IoResult), r = .full ∨ r = .error := by decide
  have hall : ∀ t ∈ [s], t.Cached flatHashing ∧ t.ReadInFull := by
    intro t ht
    rw [List.mem_singleton.mp ht]
    exact ⟨hcached, hread⟩
  have hmerged := hstores.merge (twoEntries_data value)
  have hwrites := congrArg Prod.fst (twoEntries_writes hlength (Or.inl rfl))
  have hwritten : PushesWritten ((twoEntries value).map recordOf) [.full, .full, .full] := by
    show IoResult.error ∉ (pushWrites 4096 0 _ [.full]).1
    rw [hwrites]
    decide
  obtain ⟨henough, hneeded⟩ := compaction_keeps_merge (fun t ht => (hall t ht).1) hclean hmerged
  exact ⟨s, _, hread, hmerged, hwrites, henough (fun t ht => (hall t ht).2) hwritten, hneeded⟩

end Lsmlite
