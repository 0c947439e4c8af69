import Lsmlite.CompactionKept
import Lsmlite.CrashPrefix
import Lsmlite.FormatLimits

/-!
# Files do not remember

The file of a flush depends on the last write of each key only, and the file of a compaction on the
records of its tables: not on the order in which they came, nor on how they were spread over tables.
-/

namespace Lsmlite
open KeyValue

/-! ## Flushes -/

/-- Memtables that hold the same are flushed to the same bytes. -/
theorem flush_held (h : Hashing) {t t' : MemtableInner} {es : Entries} (ht : t.Holds es)
    (ht' : t'.Holds es) :
    Engine.sstableContent h t = Engine.sstableContent h t' := by
  rw [Engine.sstableContent, writeSstable_run h ht, Engine.sstableContent, writeSstable_run h ht']

theorem ofWrites_eq {ws ws' : Entries} (hsame : ∀ key, last key ws = last key ws') :
    ofWrites ws = ofWrites ws' := by
  apply sorted_ext (sorted_ofWrites ws) (sorted_ofWrites ws')
  intro key
  rw [last_ofWrites, last_ofWrites]
  exact hsame key

/-- Two tables that took the same last write of each key, in whatever runs, are flushed to the same
bytes, and so is what is recovered from the log of one of them. -/
theorem flush_canonical {c c' : Config} {ok ok' : Engine → Engine.Action → Prop} {e e' : Engine}
    (h : Engine.Reaches c ok e) (h' : Engine.Reaches c' ok' e') {t t' : Table} (ht : t ∈ e.tables)
    (ht' : t' ∈ e'.tables) (hsame : ∀ key, last key t.writes = last key t'.writes)
    (hashing : Hashing) :
    Engine.sstableContent hashing t.inner = Engine.sstableContent hashing t'.inner ∧
    ∀ maxSize maxNodes wal r, MemtableInner.fromWal (logBlob t'.writes) maxSize maxNodes wal =
      some r → Engine.sstableContent hashing r = Engine.sstableContent hashing t.inner := by
  have htook := h.took t ht
  have htook' := h'.took t' ht'
  have hholds := htook.holds
  rw [ofWrites_eq hsame] at hholds
  refine ⟨flush_held hashing hholds htook'.holds, fun maxSize maxNodes wal r hr => ?_⟩
  exact flush_held hashing (MemtableInner.fromWal_holds htook'.fits hr).1 hholds

/-- Two keys in either order, one of them set twice. -/
theorem flush_canonical_two :
    ∃ (e e' : Engine) (t t' : Table), t ∈ e.tables ∧ t' ∈ e'.tables ∧
    t.writes = [([97], .data [1]), ([98], .data [2])] ∧
    t'.writes = [([98], .data [3]), ([98], .data [2]), ([97], .data [1])] ∧
    Engine.sstableContent flatHashing t.inner = Engine.sstableContent flatHashing t'.inner ∧
    ∀ maxSize maxNodes wal r, MemtableInner.fromWal (logBlob t'.writes) maxSize maxNodes wal =
      some r → Engine.sstableContent flatHashing r = Engine.sstableContent flatHashing t.inner := by
  have hrun :
      (Engine.runActions Engine.pairConfig (fun _ _ => True) (Engine.start Engine.pairConfig ⟨0, 0⟩)
      ([.spawn] ++ Engine.writeSteps 0 [97] [1] ++ Engine.writeSteps 0 [98] [2])).map
        (·.tables.map Table.writes) = some [[([97], .data [1]), ([98], .data [2])]] := by
    decide +kernel
  have hrun' :
      (Engine.runActions Engine.pairConfig (fun _ _ => True) (Engine.start Engine.pairConfig ⟨0, 0⟩)
      ([.spawn] ++ Engine.writeSteps 0 [98] [3] ++ Engine.writeSteps 0 [98] [2] ++
        Engine.writeSteps 0 [97] [1])).map
        (·.tables.map Table.writes) =
            some [[([98], .data [3]), ([98], .data [2]), ([97], .data [1])]] := by
    decide +kernel
  obtain ⟨e, he, htables⟩ := Option.map_eq_some_iff.mp hrun
  obtain ⟨e', he', htables'⟩ := Option.map_eq_some_iff.mp hrun'
  obtain ⟨t, ht, hwrites⟩ := List.mem_map.mp (htables ▸ List.mem_singleton_self _)
  obtain ⟨t', ht', hwrites'⟩ := List.mem_map.mp (htables' ▸ List.mem_singleton_self _)
  have hsame : ∀ key, last key t.writes = last key t'.writes := by
    intro key
    rw [hwrites, hwrites']
    simp only [last_cons, last_nil, Option.none_or]
    by_cases h97 : key = [97]
    · simp [h97]
    · by_cases h98 : key = [98] <;> simp [h97, h98]
  have hreach := Engine.reaches_runActions (.start _) he
  have hreach' := Engine.reaches_runActions (.start _) he'
  exact ⟨e, e', t, t', ht, ht', hwrites, hwrites',
    flush_canonical hreach hreach' ht ht' hsame flatHashing⟩

/-! ## Compactions -/

/-- No key is in two of the lists. -/
def KeysApart (ess : List Entries) : Prop :=
  ess.Pairwise fun es es' => ∀ w ∈ es, ∀ w' ∈ es', w.1 ≠ w'.1

theorem KeysApart.unique {ess : List Entries} (h : KeysApart ess) {es es' : Entries}
    (hes : es ∈ ess) (hes' : es' ∈ ess) {w w' : Blob × Entry} (hw : w ∈ es) (hw' : w' ∈ es')
    (hkey : w.1 = w'.1) : es = es' := by
  obtain ⟨i, hi, rfl⟩ := List.getElem_of_mem hes
  obtain ⟨j, hj, rfl⟩ := List.getElem_of_mem hes'
  rcases Nat.lt_trichotomy i j with hlt | rfl | hlt
  · exact absurd hkey (List.pairwise_iff_getElem.mp h i j hi hj hlt w hw w' hw')
  · rfl
  · exact absurd hkey.symm (List.pairwise_iff_getElem.mp h j i hj hi hlt w' hw' w hw)

/-- What a compaction writes is made of the entries that it pushes. -/
theorem runCompaction_content {h : Hashing} {iters : List SSTableIterator} {es : Entries}
    (hloop : ∀ w, Merge.run (CompactionWriter.pushDropped h) w iters = (es.map recordOf).foldlM
      (CompactionWriter.pushDropped h) w) {ts : Nat} {table : SSTable} {path : PathBuf}
    (hrun : runCompaction h iters ts [] = some (table, path)) :
    ∃ st index bloom, indexAll h (headerSize, Trie.new, BloomFilter.new h 1024) es = some st ∧
      st.2.1.serialize = some index ∧ st.2.2.serialize = some bloom ∧
      table.fd.content = tableBytes es index bloom := by
  obtain ⟨w0, hnew, hwritten, hindex⟩ := CompactionWriter.new_written h ts
  simp only [runCompaction, hnew, hloop, Option.bind_eq_bind, Option.bind_some] at hrun
  obtain ⟨w, hpush, hrun⟩ := Option.bind_eq_some_iff.mp hrun
  rcases hwritten.pushAll h es with ⟨_, hnone⟩ | ⟨w', hst, hpush', hwritten'⟩
  · cases hnone.symm.trans hpush
  cases hpush.symm.trans hpush'
  have hdisk : w.diskOffset = headerSize + (logBlob es).length := by
    have := indexAll_disk hst
    rw [hindex] at this
    exact this
  rw [List.nil_append] at hwritten'
  rw [hwritten'.finish hdisk] at hrun
  obtain ⟨⟨r, file⟩, hfinish, hrun⟩ := Option.bind_eq_some_iff.mp hrun
  obtain ⟨index, hserialize, hfinish⟩ := Option.bind_eq_some_iff.mp hfinish
  obtain ⟨bloom, hbloom, heq⟩ := Option.map_eq_some_iff.mp hfinish
  cases heq
  obtain ⟨loaded, hload, hrun⟩ := Option.bind_eq_some_iff.mp hrun
  cases loaded with
  | error e => cases hrun
  | ok sstable =>
    cases hrun
    exact ⟨w.index, index, bloom, hindex ▸ hst, hserialize, hbloom, (SSTable.fromFd_ok hload).1⟩

theorem runCompaction_same {h : Hashing} {iters iters' : List SSTableIterator} {es : Entries}
    (hloop : ∀ w, Merge.run (CompactionWriter.pushDropped h) w iters = (es.map recordOf).foldlM
      (CompactionWriter.pushDropped h) w)
    (hloop' : ∀ w, Merge.run (CompactionWriter.pushDropped h) w iters' = (es.map recordOf).foldlM
      (CompactionWriter.pushDropped h) w) {ts ts' : Nat} {table table' : SSTable}
    {path path' : PathBuf} (hrun : runCompaction h iters ts [] = some (table, path))
    (hrun' : runCompaction h iters' ts' [] = some (table', path')) :
    table.fd.content = table'.fd.content := by
  obtain ⟨st, index, bloom, hst, hindex, hbloom, hcontent⟩ := runCompaction_content hloop hrun
  obtain ⟨st', index', bloom', hst', hindex', hbloom', hcontent'⟩ :=
    runCompaction_content hloop' hrun'
  cases hst.symm.trans hst'
  cases hindex.symm.trans hindex'
  cases hbloom.symm.trans hbloom'
  rw [hcontent, hcontent']

/-- A compaction, with what it pushes. -/
theorem compacted_loop {h : Hashing} {tables : List SSTable} {ess : List Entries}
    (hs : SSTableCache.Holds h tables ess) :
    ∃ iters read es, tablesToIterators tables = some (iters, read) ∧
      (∀ w, Merge.run (CompactionWriter.pushDropped h) w iters =
        (es.map recordOf).foldlM (CompactionWriter.pushDropped h) w) ∧
          Compacted h ess iters es := by
  obtain ⟨iters, read, hiters, _, hyields⟩ := tablesToIterators_eq hs
  obtain ⟨iters', read', es, hiters', _, hcompacted⟩ := compacted hs
  cases hiters.symm.trans hiters'
  obtain ⟨_, es', _, hloop, _⟩ := Merge.run_entries hyields hs.sorted
  refine ⟨iters, read, es, hiters, fun w => ?_, hcompacted⟩
  have hpushed := hcompacted.pushed
  rw [Merge.pushed, hloop, Merge.foldlM_append, List.nil_append] at hpushed
  rw [hloop, Option.some.inj hpushed]

/-- From tables that share no key a compaction takes all values. -/
theorem Compacted.mem_iff {h : Hashing} {ess : List Entries} {iters : List SSTableIterator}
    {es : Entries} (hcompacted : Compacted h ess iters es) (hsorted : ∀ es ∈ ess, Sorted es)
    (hapart : KeysApart ess) (key : Blob) (entry : Entry) :
    (key, entry) ∈ es ↔ (∃ value, entry = .data value) ∧ ∃ es' ∈ ess, (key, entry) ∈ es' := by
  refine ⟨fun hin => hcompacted.data _ hin, ?_⟩
  rintro ⟨⟨value, rfl⟩, es', hes', hin⟩
  have honly : ∀ es'' ∈ ess, ∀ e, last key es'' = some e → e = .data value := by
    intro es'' hes'' e he
    have hsame := hapart.unique hes'' hes' (mem_of_last he) hin rfl
    subst hsame
    rw [last_of_mem (hsorted _ hes'') hin] at he
    exact (Option.some.inj he).symm
  have hcovered := hcompacted.covers key ⟨es', hes', by
    rw [last_of_mem (hsorted _ hes') hin]; exact Option.some_ne_none _⟩ fun es'' hes'' e he =>
    ⟨value, honly es'' hes'' e he⟩
  obtain ⟨e, he⟩ := Option.ne_none_iff_exists'.mp hcovered
  have hmem := mem_of_last he
  obtain ⟨_, es'', hes'', hin''⟩ := hcompacted.data _ hmem
  rwa [honly es'' hes'' e (last_of_mem (hsorted _ hes'') hin'')] at hmem

/-- Where no key is in two tables, the file of a compaction depends on the values in the tables
only. -/
theorem compaction_canonical {h : Hashing} {tables tables' read read' : List SSTable}
    {ess ess' : List Entries} (hs : SSTableCache.Holds h tables ess)
    (hs' : SSTableCache.Holds h tables' ess') (hapart : KeysApart ess) (hapart' : KeysApart ess')
    (hsame : ∀ key value, (∃ es ∈ ess, (key, .data value) ∈ es) ↔
      ∃ es ∈ ess', (key, .data value) ∈ es) {iters iters' : List SSTableIterator}
    (hiters : tablesToIterators tables = some (iters, read))
    (hiters' : tablesToIterators tables' = some (iters', read')) {ts ts' : Nat}
    {table table' : SSTable} {path path' : PathBuf}
    (hrun : runCompaction h iters ts [] = some (table, path))
    (hrun' : runCompaction h iters' ts' [] = some (table', path')) :
    table.fd.content = table'.fd.content := by
  obtain ⟨_, _, es, htables, hloop, hcompacted⟩ := compacted_loop hs
  obtain ⟨_, _, es', htables', hloop', hcompacted'⟩ := compacted_loop hs'
  cases hiters.symm.trans htables
  cases hiters'.symm.trans htables'
  have heq : es = es' := by
    apply sorted_mem_ext hcompacted.sorted hcompacted'.sorted
    intro w
    obtain ⟨key, entry⟩ := w
    rw [hcompacted.mem_iff hs.sorted hapart, hcompacted'.mem_iff hs'.sorted hapart']
    constructor
    · rintro ⟨⟨value, rfl⟩, hin⟩
      exact ⟨⟨value, rfl⟩, (hsame key value).mp hin⟩
    · rintro ⟨⟨value, rfl⟩, hin⟩
      exact ⟨⟨value, rfl⟩, (hsame key value).mpr hin⟩
  subst heq
  exact runCompaction_same hloop hloop' hrun hrun'

theorem exists_single (h : Hashing) {key : Blob} {e : Entry} (hfits : Record.Fits key e)
    (hrep : Representable [(key, e)]) : ∃ s : SSTable, s.Holds h [(key, e)] := by
  obtain ⟨t, _, hins⟩ := (MemtableInner.holds_new 100 2 (Wal.new 0 0 [])).write_ok rfl hfits
    (fun old _ hold => by simp [last] at hold) ⟨0, 0⟩
  obtain ⟨_, _, s, _, hs⟩ := sstableContent_holds h hins.holds hrep
  exact ⟨s, hs⟩

/-- Tables of one key each. -/
theorem exists_two (h : Hashing) :
    ∃ s s' : SSTable, s.Holds h [([97], .data [1])] ∧ s'.Holds h [([98], .data [2])] := by
  have hrep : Representable (twoEntries [2]) := representable_two (by decide)
  obtain ⟨s, hs⟩ : ∃ s : SSTable, s.Holds h [([97], .data [1])] :=
    exists_single h (by decide +kernel) (hrep.of_subperm (List.sublist_append_left [_] [_]).subperm)
  obtain ⟨s', hs'⟩ : ∃ s : SSTable, s.Holds h [([98], .data [2])] :=
    exists_single h (by decide +kernel)
      (hrep.of_subperm (List.sublist_append_right [_] [_]).subperm)
  exact ⟨s, s', hs, hs'⟩

/-- What a compaction makes of them. -/
theorem compacted_two {h : Hashing} {ess : List Entries} {iters : List SSTableIterator}
    {es : Entries} (hcompacted : Compacted h ess iters es) (hsorted : ∀ es ∈ ess, Sorted es)
    (hapart : KeysApart ess)
    (hmem : ∀ key value, (∃ es ∈ ess, (key, .data value) ∈ es) ↔
      (key, .data value) ∈ twoEntries [2]) :
    es = twoEntries [2] := by
  have htwo : Sorted (twoEntries [2]) := by
    simp only [KeyValue.Sorted, twoEntries, List.pairwise_cons, List.mem_singleton, forall_eq,
      List.not_mem_nil, false_implies, implies_true, List.Pairwise.nil, and_true]
    decide
  apply sorted_mem_ext hcompacted.sorted htwo
  intro w
  obtain ⟨key, entry⟩ := w
  rw [hcompacted.mem_iff hsorted hapart]
  constructor
  · rintro ⟨⟨value, rfl⟩, hin⟩
    exact (hmem key value).mp hin
  · intro hin
    have hdata : ∃ value, entry = .data value := by
      rcases List.mem_cons.mp hin with heq | hin
      · exact ⟨[1], (Prod.mk.inj heq).2⟩
      · exact ⟨[2], (Prod.mk.inj (List.mem_singleton.mp hin)).2⟩
    obtain ⟨value, rfl⟩ := hdata
    exact ⟨⟨value, rfl⟩, (hmem key value).mpr hin⟩

/-- Two tables of one key each, and between them one with the tombstone of a third; or the two in
the other order. -/
theorem compaction_canonical_deleted :
    ∃ (s s' deleted : SSTable) (iters iters' : List SSTableIterator) (read read' : List SSTable)
      (table table' : SSTable) (path path' : PathBuf),
    deleted.Holds flatHashing [([99], .tombstone)] ∧
    tablesToIterators [s, deleted, s'] = some (iters, read) ∧
    tablesToIterators [s', s] = some (iters', read') ∧
    runCompaction flatHashing iters 7 [] = some (table, path) ∧
    runCompaction flatHashing iters' 8 [] = some (table', path') ∧
    table.fd.content = table'.fd.content := by
  obtain ⟨s, s', hs, hs'⟩ := exists_two flatHashing
  obtain ⟨deleted, hdeleted⟩ : ∃ t : SSTable, t.Holds flatHashing [([99], .tombstone)] :=
    exists_single flatHashing (by decide +kernel)
      (representable_of_gap (by decide +kernel) (by decide +kernel) (by decide +kernel))
  have htables : SSTableCache.Holds flatHashing [s, deleted, s']
      [[([97], .data [1])], [([99], .tombstone)], [([98], .data [2])]] :=
    .cons hs (.cons hdeleted (.cons hs' .nil))
  have htables' :
      SSTableCache.Holds flatHashing [s', s] [[([98], .data [2])], [([97], .data [1])]] :=
    .cons hs' (.cons hs .nil)
  have hapart : KeysApart [[([97], .data [1])], [([99], .tombstone)], [([98], .data [2])]] := by
    simp [KeysApart]
  have hapart' : KeysApart [[([98], .data [2])], [([97], .data [1])]] := by
    simp [KeysApart]
  have hrep : Representable (twoEntries [2]) := representable_two (by decide)
  obtain ⟨iters, read, es, hiters, _, hcompacted⟩ := compacted_loop htables
  obtain ⟨iters', read', es', hiters', _, hcompacted'⟩ := compacted_loop htables'
  have hes := compacted_two hcompacted htables.sorted hapart (by simp [twoEntries])
  have hes' := compacted_two hcompacted' htables'.sorted hapart' (by simp [twoEntries, or_comm])
  obtain ⟨table, path, hrun, _⟩ := hcompacted.table (hes ▸ hrep) 7
  obtain ⟨table', path', hrun', _⟩ := hcompacted'.table (hes' ▸ hrep) 8
  refine ⟨s, s', deleted, iters, iters', read, read', table, table', path, path',
    hdeleted, hiters, hiters', hrun,
    hrun', compaction_canonical htables htables' hapart hapart'
      (fun key value => ?_) hiters hiters' hrun hrun'⟩
  simp [or_comm]

/-- Compacting a compacted table again makes the same file, whatever the tables it was made of. -/
theorem recompaction_same {h : Hashing} {tables read : List SSTable} {ess : List Entries}
    (hs : SSTableCache.Holds h tables ess) {iters : List SSTableIterator}
    (hiters : tablesToIterators tables = some (iters, read))
    (hfits : ∀ pushed, Merge.pushed iters = some pushed → Representable (pushed.map entryOf))
    (ts ts' : Nat) :
    ∃ table path iters' read' table' path', runCompaction h iters ts [] = some (table, path) ∧
      tablesToIterators [table] = some (iters', read') ∧
      runCompaction h iters' ts' [] = some (table', path') ∧
      table'.fd.content = table.fd.content := by
  obtain ⟨iters1, read1, es, hiters1, hloop, hcompacted⟩ := compacted_loop hs
  cases hiters.symm.trans hiters1
  have hrep := hfits _ hcompacted.pushed
  rw [map_entryOf] at hrep
  obtain ⟨table, path, hrun, hholds, _⟩ := hcompacted.table hrep ts
  have hs' : SSTableCache.Holds h [table] [es] := .cons hholds .nil
  obtain ⟨iters', read', es', hiters', hloop', hcompacted'⟩ := compacted_loop hs'
  have heq : es' = es := by
    apply sorted_mem_ext hcompacted'.sorted hcompacted.sorted
    intro w
    obtain ⟨key, entry⟩ := w
    rw [hcompacted'.mem_iff hs'.sorted (List.pairwise_singleton _ _)]
    constructor
    · rintro ⟨_, es'', hes'', hin⟩
      exact List.mem_singleton.mp hes'' ▸ hin
    · intro hin
      exact ⟨(hcompacted.data _ hin).1, es, List.mem_singleton_self es, hin⟩
  subst heq
  obtain ⟨table', path', hrun', _, _⟩ := hcompacted'.table hrep ts'
  exact ⟨table, path, iters', read', table', path', hrun, hiters', hrun',
    runCompaction_same hloop' hloop hrun' hrun⟩

theorem recompaction_same_two :
    ∃ (tables read : List SSTable) (iters : List SSTableIterator), tables.length = 2 ∧
    tablesToIterators tables = some (iters, read) ∧
    ∃ table path iters' read' table' path',
      runCompaction flatHashing iters 7 [] = some (table, path) ∧
      tablesToIterators [table] = some (iters', read') ∧
      runCompaction flatHashing iters' 8 [] = some (table', path') ∧
      table'.fd.content = table.fd.content := by
  obtain ⟨s, s', hs, hs'⟩ := exists_two flatHashing
  have htables :
      SSTableCache.Holds flatHashing [s, s'] [[([97], .data [1])], [([98], .data [2])]] :=
    .cons hs (.cons hs' .nil)
  obtain ⟨iters, read, es, hiters, _, hcompacted⟩ := compacted_loop htables
  refine ⟨[s, s'], read, iters, rfl, hiters,
    recompaction_same htables hiters (fun pushed hpushed => ?_) 7 8⟩
  cases hpushed.symm.trans hcompacted.pushed
  have hapart : KeysApart [[([97], .data [1])], [([98], .data [2])]] := by
    simp [KeysApart]
  rw [map_entryOf, compacted_two hcompacted htables.sorted hapart (by simp [twoEntries])]
  exact representable_two (by decide)

end Lsmlite
