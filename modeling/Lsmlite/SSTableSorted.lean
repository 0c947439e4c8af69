import Lsmlite.SSTableOpening
import Lsmlite.SSTableRoundTrip

/-!
# Every SSTable is sorted

A table file is written by a flush or by a compaction of such files, and both write their records in
strictly ascending order, whatever the index can hold of it.
-/

namespace Lsmlite
open Bytes KeyValue

/-! ## The files of a run -/

/-- Which task has written a file. -/
inductive Writer where
  | flush
  | compaction
  deriving DecidableEq, Repr

/-- The table was loaded from its file; reads may have moved the descriptor since. -/
def SSTable.Loaded (s : SSTable) : Prop :=
  ∃ s', SSTable.fromFd (.opened s.fd.content []) = some (.ok s') ∧
    s.index = s'.index ∧ s.fd.faults = []

/-- The files that flushes of memtables write, and compactions of such files. A file's length is a
`u64`. -/
inductive Produced (h : Hashing) : Writer → Blob → Prop
  | flush {t : MemtableInner} {fd : File} (ht : t.Reached)
      (hwrite : (writeSstable h t).runOn (File.create []) = some (.ok (), fd))
      (hlength : fd.content.length < 2 ^ 64) : Produced h .flush fd.content
  | compaction {tables tables' : List SSTable} {iters : List SSTableIterator} {ts : Nat}
      {table : SSTable}
      {path : PathBuf} (writer : SSTable → Writer)
      (hfiles : ∀ s ∈ tables, Produced h (writer s) s.fd.content) (hloaded : ∀ s ∈ tables, s.Loaded)
      (hiters : tablesToIterators tables = some (iters, tables'))
      (hrun : runCompaction h iters ts [] = some (table, path))
      (hlength : table.fd.content.length < 2 ^ 64) : Produced h .compaction table.fd.content

/-- The bytes between the header and the index block. -/
def dataRegion (content : Blob) : Blob := (content.take (indexStart content)).drop headerSize

/-! ## The file of a sorted list -/

/-- The file has the records of `es`, in order. -/
structure SortedFile (content : Blob) (es : Entries) : Prop where
  content : ∃ index bloom, content = tableBytes es index bloom
  sorted : Sorted es
  fits : ∀ w ∈ es, Record.Fits w.1 w.2

theorem tableBytes_length (es : Entries) (index bloom : Blob) : (tableBytes es index bloom).length =
    headerSize + (logBlob es).length + index.length + bloom.length + footerSize := by
  have hheader := header_length
  rw [List.length_append] at hheader
  simp only [tableBytes, List.length_append, encodeFooter_length]
  omega

/-- The footer's first word is the end of the records. -/
theorem indexStart_tableBytes {es : Entries} {index bloom : Blob}
    (hlength : (tableBytes es index bloom).length < 2 ^ 64) :
    indexStart (tableBytes es index bloom) = headerSize + (logBlob es).length := by
  have hlen := tableBytes_length es index bloom
  have hsplit : tableBytes es index bloom =
      ((lsmliteSstableHeader ++ toBe 2 v0Header) ++ (logBlob es ++ (index ++ bloom))) ++
        (toBe 8 (headerSize + (logBlob es).length) ++ (toBe 8 index.length ++
          toBe 8 (headerSize + (logBlob es).length + index.length))) := by
    simp only [tableBytes, encodeFooter, List.append_assoc]
  have hfront : ((lsmliteSstableHeader ++ toBe 2 v0Header) ++ (logBlob es ++
      (index ++ bloom))).length = (tableBytes es index bloom).length - footerSize + 8 * 0 := by
    have hheader := header_length
    rw [List.length_append] at hheader
    rw [hlen]
    simp only [List.length_append]
    omega
  rw [indexStart, footerWord, ← hfront, hsplit, List.drop_left, List.take_append_of_le_length
    (by simp), List.take_of_length_le (by simp), fromBe_toBe (show _ < 256 ^ 8 by omega)]

theorem dataRegion_tableBytes {es : Entries} {index bloom : Blob}
    (hlength : (tableBytes es index bloom).length < 2 ^ 64) :
    dataRegion (tableBytes es index bloom) = logBlob es := by
  rw [dataRegion, indexStart_tableBytes hlength, tableBytes, ← List.append_assoc,
    List.take_append_of_le_length (by rw [List.length_append, header_length]),
    List.take_of_length_le (by rw [List.length_append, header_length]),
      List.drop_left' header_length]

/-- A loaded table of such a file yields its records. -/
theorem SortedFile.yields {s s' : SSTable} {es : Entries} (hfile : SortedFile s.fd.content es)
    (hlength : s.fd.content.length < 2 ^ 64) (hloaded : s.Loaded) {it : SSTableIterator}
    (hnew : SSTableIterator.new s = some (it, s')) : it.Yields (es.map recordOf) := by
  obtain ⟨index, bloom, hcontent⟩ := hfile.content
  obtain ⟨loaded, hload, hindex, hfaults⟩ := hloaded
  obtain ⟨_, _, hend, _⟩ := SSTable.fromFd_ok hload
  rw [hcontent] at hlength
  rw [hcontent, indexStart_tableBytes hlength] at hend
  rw [tableBytes] at hcontent
  exact iterator_yields hfile.fits hfaults hcontent header_length (hindex ▸ hend) hnew

theorem tables_yield {tables tables' : List SSTable} {iters : List SSTableIterator}
    (hfiles : ∀ s ∈ tables, ∃ es, SortedFile s.fd.content es)
    (hlength : ∀ s ∈ tables, s.fd.content.length < 2 ^ 64) (hloaded : ∀ s ∈ tables, s.Loaded)
    (hiters : tablesToIterators tables = some (iters, tables')) :
    ∃ ess : List Entries, List.Forall₂ (fun it es => it.Yields (es.map recordOf)) iters ess ∧
      ∀ es ∈ ess, Sorted es ∧ ∀ w ∈ es, Record.Fits w.1 w.2 := by
  induction tables generalizing iters tables' with
  | nil =>
    cases hiters
    exact ⟨[], .nil, by simp⟩
  | cons s tables ih =>
    simp only [tablesToIterators, Option.bind_eq_bind, Option.bind_eq_some_iff, Prod.exists,
      Option.pure_def, Option.some.injEq, Prod.mk.injEq] at hiters
    obtain ⟨it, s', hnew, rest, tables'', hrest, rfl, rfl⟩ := hiters
    have hmem : s ∈ s :: tables := List.mem_cons_self ..
    obtain ⟨es, hfile⟩ := hfiles s hmem
    obtain ⟨ess, hyields, hall⟩ := ih (fun t ht => hfiles t (List.mem_cons_of_mem _ ht))
      (fun t ht => hlength t (List.mem_cons_of_mem _ ht))
        (fun t ht => hloaded t (List.mem_cons_of_mem _ ht))
      hrest
    refine ⟨es :: ess, .cons (hfile.yields (hlength s hmem) (hloaded s hmem) hnew) hyields,
      fun es' hes' => ?_⟩
    rcases List.mem_cons.mp hes' with rfl | hes'
    · exact ⟨hfile.sorted, hfile.fits⟩
    · exact hall es' hes'

/-! ## What the writers leave -/

/-- A flush writes what the memtable holds. -/
theorem flush_sorted {h : Hashing} {t : MemtableInner} {fd : File} (ht : t.Reached)
    (hwrite : (writeSstable h t).runOn (File.create []) = some (.ok (), fd)) :
    ∃ es, SortedFile fd.content es := by
  obtain ⟨es, hes⟩ := ht.holds
  rw [writeSstable_run h hes, Option.bind_eq_some_iff] at hwrite
  obtain ⟨st, _, hwrite⟩ := hwrite
  obtain ⟨index, _, hwrite⟩ := Option.bind_eq_some_iff.mp hwrite
  obtain ⟨bloom, _, hfd⟩ := Option.map_eq_some_iff.mp hwrite
  cases hfd
  exact ⟨es, ⟨index, bloom, rfl⟩, hes.sorted, hes.fits⟩

/-- What a list of pushes and `finish` leave in the file. -/
theorem CompactionWriter.finish_written {h : Hashing} {w w' : CompactionWriter} {es : Entries}
    (hw : w.Written []) (hindex : w.index = (headerSize, Trie.new, BloomFilter.new h 1024))
    (hpush : (es.map recordOf).foldlM (pushDropped h) w = some w') {path : PathBuf} {file : File}
    (hfinish : w'.finish = some (.ok path, file)) :
    ∃ index bloom, file.content = tableBytes es index bloom := by
  rcases hw.pushAll h es with ⟨_, hnone⟩ | ⟨w'', hindexed, hsome, hw''⟩
  · rw [hpush] at hnone
    cases hnone
  · cases hpush.symm.trans hsome
    have hdisk : w'.diskOffset = headerSize + (logBlob es).length := by
      rw [hindex] at hindexed
      exact indexAll_disk hindexed
    rw [hw''.finish hdisk, Option.bind_eq_some_iff] at hfinish
    obtain ⟨index, _, hfinish⟩ := hfinish
    obtain ⟨bloom, _, hfile⟩ := Option.map_eq_some_iff.mp hfinish
    cases hfile
    exact ⟨index, bloom, rfl⟩

/-- A compaction of sorted lists writes a sorted list of data. -/
theorem compaction_sorted {h : Hashing} {iters : List SSTableIterator} {ess : List Entries}
    (hyields : List.Forall₂ (fun it es => it.Yields (es.map recordOf)) iters ess)
    (hess : ∀ es ∈ ess, Sorted es ∧ ∀ w ∈ es, Record.Fits w.1 w.2) {ts : Nat} {table : SSTable}
    {path : PathBuf} (hrun : runCompaction h iters ts [] = some (table, path)) :
    ∃ es, SortedFile table.fd.content es ∧ ∀ w ∈ es, (recordOf w).recordType = .data := by
  obtain ⟨_, es, _, hloop, hsorted, hes, _⟩ := Merge.run_entries hyields fun es hes =>
    (hess es hes).1
  obtain ⟨w0, hnew, hw0, hindex⟩ := CompactionWriter.new_written h ts
  simp only [runCompaction, hnew, hloop, Option.bind_eq_bind, Option.bind_some,
    Option.bind_eq_some_iff] at hrun
  obtain ⟨w, hpush, ⟨r, file⟩, hfinish, hrun⟩ := hrun
  cases r with
  | error e => cases hrun
  | ok newTablePath =>
    obtain ⟨loaded, hload, hrun⟩ := Option.bind_eq_some_iff.mp hrun
    cases loaded with
    | error e => cases hrun
    | ok sstable =>
      cases hrun
      obtain ⟨index, bloom, hfile⟩ := CompactionWriter.finish_written hw0 hindex hpush hfinish
      obtain ⟨hcontent, _⟩ := SSTable.fromFd_ok hload
      refine ⟨es, ⟨⟨index, bloom, hcontent.trans hfile⟩, hsorted, fun v hv => ?_⟩,
        fun v hv => (hes v hv).1⟩
      obtain ⟨_, es', hes', hv'⟩ := hes v hv
      exact (hess es' hes').2 v hv'

/-- Every file of a run has the records of a sorted list, of data only behind a compaction. -/
theorem Produced.sortedFile {h : Hashing} {writer : Writer} {content : Blob}
    (hp : Produced h writer content) :
    content.length < 2 ^ 64 ∧ ∃ es, SortedFile content es ∧
      (writer = .compaction → ∀ w ∈ es, (recordOf w).recordType = .data) := by
  induction hp with
  | flush ht hwrite hlength =>
    obtain ⟨es, hfile⟩ := flush_sorted ht hwrite
    exact ⟨hlength, es, hfile, nofun⟩
  | compaction writer _ hloaded hiters hrun hlength ih =>
    obtain ⟨ess, hyields, hess⟩ := tables_yield
      (fun s hs => let ⟨es, hfile, _⟩ := (ih s hs).2; ⟨es, hfile⟩)
        (fun s hs => (ih s hs).1) hloaded hiters
    obtain ⟨es, hfile, hdata⟩ := compaction_sorted hyields hess hrun
    exact ⟨hlength, es, hfile, fun _ => hdata⟩

/-- The data region of every table file of a run is a sequence of records with strictly ascending
keys; behind a compaction they are all data. -/
theorem produced_sorted {h : Hashing} {writer : Writer} {content : Blob}
    (hp : Produced h writer content) :
    ∃ rs, SSTableIterator.Yields ⟨dataRegion content, 0⟩ rs ∧ blobs rs = dataRegion content ∧
      (∀ r ∈ rs, r.keySlice = some r.keyBytes) ∧ rs.Pairwise (·.keyBytes < ·.keyBytes) ∧
      (writer = .compaction → ∀ r ∈ rs, r.recordType = .data) := by
  obtain ⟨hlength, es, hfile, hdata⟩ := hp.sortedFile
  obtain ⟨index, bloom, rfl⟩ := hfile.content
  rw [dataRegion_tableBytes hlength]
  have hyields := yields_logBlob hfile.fits [] rfl
  refine ⟨es.map recordOf, hyields, blobs_map es, hyields.keys, increasing_map.mpr hfile.sorted, ?_⟩
  intro hwriter r hr
  obtain ⟨w, hw, rfl⟩ := List.mem_map.mp hr
  exact hdata hwriter w hw

/-- The file that a value and a tombstone are flushed to. -/
theorem produced_sorted_flushed :
    ∃ content, Produced flatHashing .flush content ∧ dataRegion content ≠ [] ∧
    ∃ rs, SSTableIterator.Yields ⟨dataRegion content, 0⟩ rs ∧ blobs rs = dataRegion content ∧
      (∀ r ∈ rs, r.keySlice = some r.keyBytes) ∧ rs.Pairwise (·.keyBytes < ·.keyBytes) ∧
      (Writer.flush = .compaction → ∀ r ∈ rs, r.recordType = .data) := by
  have hrun : (([⟨[98], .data [1, 2], ⟨0, 0⟩⟩, ⟨[97], .tombstone, ⟨0, 0⟩⟩].foldlM MemtableInner.call
      (.new 100 5 (Wal.new 0 0 []))).bind fun t =>
        ((writeSstable flatHashing t).runOn (File.create [])).map fun p =>
        (p.1, p.2.content.length, dataRegion p.2.content)) =
      some (.ok (), 110, [1, 2, 1, 97, 0, 5, 1, 98, 2, 1, 2]) := by
    decide +kernel
  obtain ⟨t, ht, hwrite⟩ := Option.bind_eq_some_iff.mp hrun
  obtain ⟨⟨r, fd⟩, hwrite, heq⟩ := Option.map_eq_some_iff.mp hwrite
  simp only [Prod.mk.injEq] at heq
  obtain ⟨rfl, hlength, hregion⟩ := heq
  have hreached := (MemtableInner.Reached.new 100 5 (Wal.new 0 0 [])).calls ht
  have hp : Produced flatHashing .flush fd.content := .flush hreached hwrite (by omega)
  exact ⟨_, hp, by rw [hregion]; exact List.cons_ne_nil _ _, produced_sorted hp⟩

end Lsmlite
