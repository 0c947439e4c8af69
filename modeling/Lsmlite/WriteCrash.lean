import Lsmlite.CleanupCrash
import Lsmlite.MemtableCount
import Lsmlite.RestartMap

/-!
# A crash while an SSTable is written

A restart takes every file with the extension for a finished table, so one that is just created
makes it panic. A finished table is harmless: a flush's has the records of a log that is still
there, and a compaction's has the values of the older tables, which are still there too.
-/

namespace Lsmlite
open Bytes KeyValue MemtableInner

/-! ## The place of a new file -/

section
variable {α T : Type} [LinearOrder T] (ts : α → T) (file : α) (files : List α)

def newerThan : List α := (newestFirst ts files).filter fun f => ts file < ts f

def olderThan : List α := (newestFirst ts files).filter fun f => !decide (ts file < ts f)

variable {files}

theorem newerThan_sorted : (newerThan ts file files).Pairwise fun a b => ts b ≤ ts a :=
  (newestFirst_sorted ts files).filter _

theorem olderThan_sorted : (olderThan ts file files).Pairwise fun a b => ts b ≤ ts a :=
  (newestFirst_sorted ts files).filter _

theorem le_of_mem_olderThan {f : α} (hf : f ∈ olderThan ts file files) : ts f ≤ ts file := by
  have hnot := (List.mem_filter.mp hf).2
  simpa using hnot

theorem lt_of_mem_newerThan {f : α} (hf : f ∈ newerThan ts file files) : ts file < ts f := by
  have hlt := (List.mem_filter.mp hf).2
  simpa using hlt

theorem newestFirst_parts (hnodup : (files.map ts).Nodup) :
    newestFirst ts files = newerThan ts file files ++ olderThan ts file files := by
  apply newestFirst_eq ts hnodup
  · exact (List.filter_append_perm _ _).trans (newestFirst_perm ts files)
  · refine List.pairwise_append.mpr ⟨newerThan_sorted ts file, olderThan_sorted ts file, ?_⟩
    intro a ha b hb
    exact (le_of_mem_olderThan ts file hb).trans (lt_of_mem_newerThan ts file ha).le

/-- A new file stands between the newer and the older ones. -/
theorem newestFirst_between {all : List α} (hnodup : (all.map ts).Nodup)
    (hperm : all.Perm (file :: files)) :
    newestFirst ts all = newerThan ts file files ++ file :: olderThan ts file files := by
  apply newestFirst_eq ts hnodup
  · have hparts : (newerThan ts file files ++ olderThan ts file files).Perm files :=
      (List.filter_append_perm _ _).trans (newestFirst_perm ts files)
    exact List.perm_middle.trans ((hparts.cons file).trans hperm.symm)
  · refine List.pairwise_append.mpr ⟨newerThan_sorted ts file, ?_, ?_⟩
    · exact List.pairwise_cons.mpr ⟨fun f hf => le_of_mem_olderThan ts file hf,
        olderThan_sorted ts file⟩
    · intro a ha b hb
      have hlt := lt_of_mem_newerThan ts file ha
      rcases List.mem_cons.mp hb with rfl | hb
      · exact hlt.le
      · exact (le_of_mem_olderThan ts file hb).trans hlt.le

end

/-! ## The file as a restart finds it -/

/-- The first `n` bytes of an SSTable are in the directory. -/
structure Writing (before dir : List DirEntry) (sstables wals : List StoredFile) (file : StoredFile)
    (n : Nat) : Prop where
  lists : Lists before sstables wals
  created : ∃ front back, before = front ++ back ∧
    dir = front ++ sstableEntry file.ts (file.content.take n) :: back
  distinct : Distinct dir

/-- The tables of a restart with one more among them, older than the first `i`. -/
def withTable (tables : List SSTable) (i : Nat) (s : SSTable) : List SSTable :=
  tables.take i ++ s :: tables.drop i

/-- These bytes are read as a table, and no answer changes for a key that is in no log. -/
def Harmless (h : Hashing) (db : LsmliteInner) (i : Nat) (bytes : Blob) : Prop :=
  ∃ s, loadTable bytes = some s ∧ ∀ key, db.logged key = none →
    (SSTableCache.searchTables h key (withTable db.sstableCache.cache i s)).map (·.1.toOption) =
      (SSTableCache.searchTables h key db.sstableCache.cache).map (·.1.toOption)

/-- How many tables of the directory are newer than the file. -/
def newerCount (sstables : List StoredFile) (file : StoredFile) : Nat :=
  (newerThan StoredFile.ts file sstables).length

/-- The clock readings of a restart. -/
structure RestartClock where
  stamps : WalArtifact → LsmliteInner.Stamp
  fresh : LsmliteInner.Stamp

/-- A restart from `dir` recovers what one from `before` does. -/
def RecoversAs (h : Hashing) (config : LsmliteConfig) (clock clock' : RestartClock)
    (dir before : List DirEntry) : Prop :=
  ∃ db db', LsmliteInner.restart before config clock.stamps clock.fresh = some db ∧
    LsmliteInner.restart dir config clock'.stamps clock'.fresh = some db' ∧
    ∀ key, db'.recovered h key = db.recovered h key

theorem recovered_of_none {h : Hashing} {db : LsmliteInner} {key : Blob}
    (hnone : db.logged key = none) :
    db.recovered h key =
      (SSTableCache.searchTables h key db.sstableCache.cache).map (·.1.toOption) := by
  rw [LsmliteInner.recovered, hnone, SSTableCache.search, Option.map_map]
  rfl

section
variable {before dir : List DirEntry} {sstables wals : List StoredFile} {file : StoredFile}
  {n : Nat}

/-- The file as it is in the directory. -/
def StoredFile.part (file : StoredFile) (n : Nat) : StoredFile :=
  ⟨file.ts, file.content.take n, file.named⟩

theorem Writing.lists_part (hw : Writing before dir sstables wals file n) :
    ∃ all, Lists dir all wals ∧ all.Perm (file.part n :: sstables) := by
  obtain ⟨front, back, hbefore, hdir⟩ := hw.created
  have hlists := hw.lists
  rw [hbefore] at hlists
  obtain ⟨s1, s2, w1, w2, rfl, rfl, hfront, hback⟩ := hlists.split
  refine ⟨s1 ++ file.part n :: s2, ?_, List.perm_middle⟩
  rw [hdir]
  exact hfront.append (.sstable (file.part n) hback)

theorem Writing.distinct_before (hw : Writing before dir sstables wals file n) :
    Distinct before := by
  obtain ⟨front, back, rfl, rfl⟩ := hw.created
  exact hw.distinct.sublist ((List.sublist_cons_self _ _).append_left front)

/-- What a restart finds is what one before found, and the bytes in their place. -/
theorem Writing.recovers_iff {h : Hashing} {config : LsmliteConfig} {clock clock' : RestartClock}
    (hw : Writing before dir sstables wals file n) {db : LsmliteInner}
    (hdb : LsmliteInner.restart before config clock.stamps clock.fresh = some db) :
    (∃ db', LsmliteInner.restart dir config clock'.stamps clock'.fresh = some db' ∧
      ∀ key, db'.recovered h key = db.recovered h key) ↔
      Harmless h db (newerCount sstables file) (file.content.take n) := by
  obtain ⟨all, hall, hperm⟩ := hw.lists_part
  obtain ⟨logs, hlogs, htables, hlogged⟩ := hw.lists.of_restart hw.distinct_before config hdb
  have hbetween := newestFirst_between StoredFile.ts _ (hall.sstables_nodup hw.distinct) hperm
  rw [newestFirst_parts StoredFile.ts (file.part n) (hw.lists.sstables_nodup hw.distinct_before),
    List.mapM_append] at htables
  obtain ⟨newer, hnewer, htables⟩ := Option.bind_eq_some_iff.mp htables
  obtain ⟨older, holder, htables⟩ := Option.bind_eq_some_iff.mp htables
  have hcache : db.sstableCache.cache = newer ++ older := (Option.some.inj htables).symm
  have hcount : newerCount sstables file = newer.length := (mapM_some hnewer).length_eq
  have hload : ∀ s, loadTable (file.content.take n) = some s →
      (newestFirst StoredFile.ts all).mapM (fun f => loadTable f.content) =
          some (newer ++ s :: older) := by
    intro s hs
    rw [hbetween, List.mapM_append, hnewer, List.mapM_cons, holder]
    simp only [StoredFile.part, hs]
    rfl
  have hwith : ∀ s, withTable db.sstableCache.cache (newerCount sstables file) s =
      newer ++ s :: older := by
    intro s
    rw [withTable, hcache, hcount, List.take_left, List.drop_left]
  constructor
  · rintro ⟨db', hdb', hrecovers⟩
    obtain ⟨logs', hlogs', htables', hlogged'⟩ := hall.of_restart hw.distinct config hdb'
    cases hlogs.symm.trans hlogs'
    have hcache' := htables'
    rw [hbetween, List.mapM_append, hnewer, List.mapM_cons] at hcache'
    obtain ⟨_, _, hback⟩ := Option.bind_eq_some_iff.mp hcache'
    obtain ⟨_, hrest, _⟩ := Option.bind_eq_some_iff.mp hback
    obtain ⟨s, hs, _⟩ := Option.bind_eq_some_iff.mp hrest
    refine ⟨s, hs, fun key hnone => ?_⟩
    have hsame := hrecovers key
    have hnone' : db'.logged key = none := by rw [hlogged', ← hlogged, hnone]
    rw [recovered_of_none hnone, recovered_of_none hnone',
      Option.some.inj (htables'.symm.trans (hload s hs))] at hsame
    rw [hwith]
    exact hsame
  · rintro ⟨s, hs, hsame⟩
    obtain ⟨db', hdb'⟩ :=
      hall.restart hw.distinct config hlogs (hload s hs) clock'.stamps clock'.fresh
    obtain ⟨logs', hlogs', htables', hlogged'⟩ := hall.of_restart hw.distinct config hdb'
    cases hlogs.symm.trans hlogs'
    refine ⟨db', hdb', fun key => ?_⟩
    have hkey : db'.logged key = db.logged key := by rw [hlogged', ← hlogged]
    cases hnone : db.logged key with
    | some e => rw [LsmliteInner.recovered, LsmliteInner.recovered, hkey, hnone]
    | none =>
      rw [recovered_of_none hnone, recovered_of_none (hkey.trans hnone),
        Option.some.inj (htables'.symm.trans (hload s hs)), ← hwith]
      exact hsame key hnone

end

/-! ## Too few bytes -/

theorem mapError_of_ok {σ ε ε' α : Type} {x : Fallible σ ε α} {f : ε → ε'} {s s' : σ} {a : α}
    (h : (x.mapError f).runOn s = some (.ok a, s')) : x.runOn s = some (.ok a, s') := by
  obtain ⟨⟨r, s1⟩, hrun, hr⟩ := Option.map_eq_some_iff.mp h
  cases r with
  | error e => cases hr
  | ok b =>
    cases hr
    exact hrun

theorem readExact_content {fd fd' : File} {n : Nat} {bytes : Blob}
    (h : (Fd.readExact n).runOn fd = some (.ok bytes, fd')) (hfaults : fd.faults = []) :
    fd'.content = fd.content ∧ fd'.faults = [] := by
  obtain ⟨content, pos, faults⟩ := fd
  subst hfaults
  simp only [Fd.readExact, Fallible.runOn_step, File.readExact,
    File.next_nil, Option.some.injEq] at h
  split at h <;> cases h
  exact ⟨rfl, rfl⟩

theorem len_content {fd fd' : File} {len : Nat} (h : Fd.len.runOn fd = some (.ok len, fd'))
    (hfaults : fd.faults = []) : len = fd.content.length := by
  obtain ⟨content, pos, faults⟩ := fd
  subst hfaults
  cases h
  rfl

/-- A table is never shorter than its footer. -/
theorem footerSize_le_of_loadTable {content : Blob} {s : SSTable} (h : loadTable content = some s) :
    footerSize ≤ content.length := by
  simp only [loadTable, SSTable.fromFd, SSTable.fromFdWithin, Option.bind_eq_bind,
    Option.bind_eq_some_iff] at h
  obtain ⟨loaded, ⟨⟨r, fd⟩, hrun, hr⟩, h⟩ := h
  cases hr
  cases r with
  | error e => cases h
  | ok index =>
    obtain ⟨version, fd1, hversion, hrun⟩ := Fallible.of_bind_ok hrun
    obtain ⟨header, fd2, hheader, hversion⟩ := Fallible.of_bind_ok hversion
    obtain ⟨hcontent, hfaults⟩ := readExact_content (mapError_of_ok hheader) rfl
    split at hversion
    · cases hversion
    · obtain ⟨number, fd3, hnumber, hversion⟩ := Fallible.of_bind_ok hversion
      obtain ⟨hcontent', hfaults'⟩ := readExact_content (mapError_of_ok hnumber) hfaults
      cases hversion
      obtain ⟨footer, fd4, hindex, _⟩ := Fallible.of_bind_ok hrun
      obtain ⟨len, fd5, hlen, hindex⟩ := Fallible.of_bind_ok (mapError_of_ok hindex)
      obtain ⟨_, fd6, hguard, _⟩ := Fallible.of_bind_ok hindex
      have hfile : len = content.length := by
        rw [len_content hlen hfaults', hcontent', hcontent]
        rfl
      by_contra hshort
      have hpanics := Fallible.of_lift_ok hguard
      rw [guard, if_neg (hfile ▸ hshort)] at hpanics
      cases hpanics

theorem loadTable_short {bytes : Blob} (hshort : bytes.length < footerSize) :
    loadTable bytes = none := by
  cases hload : loadTable bytes with
  | none => rfl
  | some s => exact absurd (footerSize_le_of_loadTable hload) (by omega)

/-! ## A finished file -/

theorem map_passed (r : Option (Except SSTableError Blob × List SSTable))
    (put : List SSTable → List SSTable) :
    (r.bind fun (r, rest) => some (r, put rest)).map (·.1.toOption) = r.map (·.1.toOption) := by
  cases r <;> rfl

/-- A table without the key is passed over. -/
theorem searchTables_skip {h : Hashing} {key : Blob} {s s' : SSTable}
    (hskip : s.search h key = some (.error .diskRecordNotFound, s')) (newer older : List SSTable) :
    (SSTableCache.searchTables h key (newer ++ s :: older)).map (·.1.toOption) =
      (SSTableCache.searchTables h key (newer ++ older)).map (·.1.toOption) := by
  induction newer with
  | nil =>
    rw [List.nil_append, List.nil_append, SSTableCache.searchTables, hskip]
    exact map_passed (SSTableCache.searchTables h key older) (s' :: ·)
  | cons t newer ih =>
    rw [List.cons_append, List.cons_append, SSTableCache.searchTables, SSTableCache.searchTables]
    cases hsearch : t.search h key with
    | none => rfl
    | some r =>
      obtain ⟨r, t'⟩ := r
      cases r with
      | ok value => rfl
      | error e =>
        cases e with
        | tombstone => rfl
        | diskRecordNotFound | ioError | invalidSSTableFile =>
          exact (map_passed _ _).trans (ih.trans (map_passed _ _).symm)

/-- A table whose keys are all in the logs changes nothing. -/
theorem harmless_logged {h : Hashing} {db : LsmliteInner} {i : Nat} {content : Blob} {es : Entries}
    (hfile : FileHolds h content es) (hlogged : ∀ key, db.logged key = none → last key es = none) :
    Harmless h db i content := by
  obtain ⟨s, hload, hs⟩ := hfile.loadTable
  refine ⟨s, hload, fun key hnone => ?_⟩
  have hlast := hlogged key hnone
  have hwin : ∀ e, last key es = some e → InWindow key e := by
    rw [hlast]
    exact nofun
  obtain ⟨s', hsearch, _⟩ := hs.search hwin
  rw [hlast] at hsearch
  rw [withTable, searchTables_skip hsearch, List.take_append_drop]

theorem findEntry_append (key : Blob) (xs ys : List Entries) :
    findEntry key (xs ++ ys) = (findEntry key xs).or (findEntry key ys) := by
  rw [findEntry, List.findSome?_append]
  rfl

/-- A table merged from those of the cache changes nothing, wherever it stands among them. -/
theorem harmless_merged {h : Hashing} {db : LsmliteInner} {i : Nat} {content : Blob} {es : Entries}
    {ess : List Entries} (hcache : SSTableCache.Holds h db.sstableCache.cache ess)
    (hfile : FileHolds h content es) (hmerged : Merged ess es) : Harmless h db i content := by
  obtain ⟨s, hload, hs⟩ := hfile.loadTable
  have hwith :
      SSTableCache.Holds h (withTable db.sstableCache.cache i s) (ess.take i ++ es :: ess.drop i) :=
    List.rel_append (List.forall₂_take i hcache) (.cons hs (List.forall₂_drop i hcache))
  refine ⟨s, hload, fun key _ => ?_⟩
  have hanswer : answerAt key (findEntry key (ess.take i ++ es :: ess.drop i)) =
      answerAt key (findEntry key ess) := by
    have hparts := findEntry_append key (ess.take i) (ess.drop i)
    rw [List.take_append_drop] at hparts
    rw [findEntry_append, findEntry_cons]
    cases hnewer : findEntry key (ess.take i) with
    | some e =>
      rw [hparts, hnewer]
      rfl
    | none =>
      rw [hnewer, Option.none_or] at hparts
      rw [Option.none_or]
      refine (answerAt_merged hmerged fun hnone =>
        hparts.symm.trans hnone).mpr fun hdeleted value hdata => ?_
      rw [← hparts, hdeleted] at hdata
      cases hdata
  have hmap :
      ∀ {tables : List SSTable}, (SSTableCache.searchTables h key tables).map (·.1.toOption) =
      ((SSTableCache.searchTables h key tables).map (·.1)).map Except.toOption := by
    intro tables
    rw [Option.map_map]
    rfl
  rw [hmap, hmap, searchTables_answer hwith, searchTables_answer hcache, hanswer]

/-! ## The operations -/

/-- What writes an SSTable: the flush of a memtable with its log, or the compaction of a cache whose
tables hold these entries. -/
inductive SstableWrite where
  | flush (table : MemtableInner) (log : Blob)
  | compaction (cache : List SSTable) (ess : List Entries)

/-- The log has every write of the table. -/
structure CompleteLog (table : MemtableInner) (log : Blob) (ws : Entries) : Prop where
  content : log = logBlob ws
  fits : ∀ w ∈ ws, Record.Fits w.1 w.2
  holds : table.Holds (ofWrites ws)

/-- The finished file. A flush's log is in the directory; a compacted cache is that of its
tables. -/
def SstableWrite.Writes (h : Hashing) (sstables wals : List StoredFile) (file : StoredFile) :
    SstableWrite → Prop
  | .flush table log => (∃ ws, CompleteLog table log ws) ∧ (∃ f ∈ wals, f.content = log) ∧
      ∃ fd, (writeSstable h table).runOn (File.create []) = some (.ok (), fd) ∧
        file.content = fd.content
  | .compaction cache ess =>
    ∃ tables : List (StoredTable h), sstables = tables.map StoredTable.toStoredFile ∧
      ess = (newestFirst (fun t : StoredTable h => t.ts) tables).map StoredTable.entries ∧
      SSTableCache.Holds h cache ess ∧ ∃ iters cache' table path,
        tablesToIterators cache = some (iters, cache') ∧
        runCompaction h iters file.ts [] = some (table, path) ∧
        file.content = table.fd.content

/-- The format can hold the records, and the tables of a compaction agree. -/
def SstableWrite.Sound : SstableWrite → Prop
  | .flush table _ => Representable table.encodedEntries
  | .compaction _ ess => Undisputed (ess.map (·.map recordOf)) ∧ Representable (newestEntries ess)

/-- Stored tables are loaded as tables with their entries. -/
theorem holds_of_mapM {h : Hashing} {tables : List (StoredTable h)} {cache : List SSTable}
    (hload : tables.mapM ((fun f : StoredFile => loadTable f.content) ∘
      StoredTable.toStoredFile) = some cache) :
    SSTableCache.Holds h cache (tables.map StoredTable.entries) := by
  refine List.forall₂_map_right_iff.mpr (List.Forall₂.flip ((mapM_some hload).imp ?_))
  intro t s hs
  obtain ⟨s', hs', hholds⟩ := t.holds.loadTable
  cases hs'.symm.trans hs
  exact hholds

/-- A replay of a log has its newest records. -/
theorem last_replayed {config : LsmliteConfig} {ws es : Entries}
    (hfits : ∀ w ∈ ws, Record.Fits w.1 w.2) (hes : replayLog config (logBlob ws) = some es)
    (key : Blob) : last key es = last key ws := by
  obtain ⟨t, ht, rfl⟩ := Option.map_eq_some_iff.mp hes
  obtain ⟨hholds, _⟩ := fromWal_holds hfits ht
  rw [last_perm (sorted_ofWrites ws) hholds.encodedEntries, last_ofWrites]

/-- A replay of the log makes the table's entries. -/
theorem CompleteLog.replayed {table : MemtableInner} {log : Blob} {ws es : Entries}
    {config : LsmliteConfig} (hlog : CompleteLog table log ws)
    (hes : replayLog config log = some es) (key : Blob) :
    last key es = last key table.encodedEntries := by
  rw [hlog.content] at hes
  rw [last_replayed hlog.fits hes, last_perm (sorted_ofWrites ws) hlog.holds.encodedEntries,
    last_ofWrites]

section
variable {h : Hashing} {config : LsmliteConfig} {clock clock' : RestartClock}
  {before dir : List DirEntry} {sstables wals : List StoredFile} {file : StoredFile} {n : Nat}

/-- A finished flush: its records are in a log. -/
theorem harmless_flush {table : MemtableInner} {log : Blob}
    (hw : Writing before dir sstables wals file n)
    (hflush : (SstableWrite.flush table log).Writes h sstables wals file)
    (hsound : (SstableWrite.flush table log).Sound) {db : LsmliteInner}
    (hdb : LsmliteInner.restart before config clock.stamps clock.fresh = some db) (i : Nat) :
    Harmless h db i file.content := by
  obtain ⟨⟨ws, hlog⟩, ⟨f, hf, hcontent⟩, fd, hrun, hfile⟩ := hflush
  have hperm := hlog.holds.encodedEntries
  obtain ⟨fd', hrun', hholds⟩ := sstableContent_holds h hlog.holds (Representable.perm hperm hsound)
  cases hrun.symm.trans hrun'
  rw [← hfile] at hholds
  obtain ⟨logs, hlogs, _, hlogged⟩ := hw.lists.of_restart hw.distinct_before config hdb
  apply harmless_logged hholds
  intro key hnone
  have hmem := (newestFirst_perm (fun a => OrderDual.toDual (StoredFile.ts a)) wals).mem_iff.mpr hf
  obtain ⟨es, hes, hreplay⟩ := exists_of_forall₂ (mapM_some hlogs) hmem
  rw [hlogged, findEntry, List.findSome?_eq_none_iff] at hnone
  have hlast := hnone es (List.mem_reverse.mpr hes)
  rw [hcontent] at hreplay
  rwa [hlog.replayed hreplay, last_perm (sorted_ofWrites ws) hperm] at hlast

/-- A finished compaction: its values are those of the tables, which are still there. -/
theorem harmless_compaction {cache : List SSTable} {ess : List Entries}
    (hw : Writing before dir sstables wals file n)
    (hcompaction : (SstableWrite.compaction cache ess).Writes h sstables wals file)
    (hsound : (SstableWrite.compaction cache ess).Sound) {db : LsmliteInner}
    (hdb : LsmliteInner.restart before config clock.stamps clock.fresh = some db) (i : Nat) :
    Harmless h db i file.content := by
  obtain ⟨tables, rfl, rfl, hcache, iters, cache', table, path, hiters, hrun, hfile⟩ := hcompaction
  obtain ⟨hagree, hrep⟩ := hsound
  obtain ⟨iters', cache'', es, hiters', _, hcompacted⟩ := compacted hcache
  cases hiters.symm.trans hiters'
  have hroots : ∀ m, Merge.start iters = some m →
      ∀ m', Merge.Rounds (Merge.fuel iters) m m' → m'.RootNewest :=
    fun m hstart m' => hcache.rootNewest hiters hagree hstart
  obtain ⟨m, hstart⟩ := hcompacted.started
  rw [← hcompacted.eq_newestEntries hroots] at hrep
  obtain ⟨table', path', hrun', _, hholds⟩ := hcompacted.table hrep file.ts
  cases hrun.symm.trans hrun'
  rw [← hfile] at hholds
  obtain ⟨logs, _, htables, _⟩ := hw.lists.of_restart hw.distinct_before config hdb
  rw [newestFirst_map, List.mapM_map] at htables
  exact harmless_merged (holds_of_mapM htables) hholds
    ⟨fun w hw' => (hcompacted.data w hw').1, hcompacted.newest m hstart (hroots m hstart)⟩

/-- Before the length of a footer is written, a restart panics. -/
theorem Writing.panics_early (hw : Writing before dir sstables wals file n)
    (hearly : n < footerSize) :
    LsmliteInner.restart dir config clock.stamps clock.fresh = none := by
  obtain ⟨all, hall, hperm⟩ := hw.lists_part
  cases hdb : LsmliteInner.restart dir config clock.stamps clock.fresh with
  | none => rfl
  | some db =>
    obtain ⟨_, _, htables, _⟩ := hall.of_restart hw.distinct config hdb
    have hmem : file.part n ∈ newestFirst StoredFile.ts all :=
      (newestFirst_perm _ _).mem_iff.mpr (hperm.mem_iff.mpr (List.mem_cons_self ..))
    obtain ⟨s, _, hload⟩ := exists_of_forall₂ (mapM_some htables) hmem
    have hshort : (file.part n).content.length < footerSize :=
      Nat.lt_of_le_of_lt (List.length_take_le ..) hearly
    rw [loadTable_short hshort] at hload
    cases hload

/-- After a crash in a flush or a compaction a restart recovers what one before it did if the file
is finished and sound, and it panics before the length of a footer is written. -/
theorem crashed_write_recovers {op : SstableWrite} (hw : Writing before dir sstables wals file n)
    (hop : op.Writes h sstables wals file) {db : LsmliteInner}
    (hdb : LsmliteInner.restart before config clock.stamps clock.fresh = some db) :
    (file.content.length ≤ n → op.Sound → RecoversAs h config clock clock' dir before) ∧
      (n < footerSize → LsmliteInner.restart dir config clock'.stamps clock'.fresh = none) := by
  refine ⟨fun hfinished hsound => ?_, fun hearly => hw.panics_early hearly⟩
  have hharmless : Harmless h db (newerCount sstables file) (file.content.take n) := by
    rw [List.take_of_length_le hfinished]
    cases op with
    | flush table log => exact harmless_flush hw hop hsound hdb _
    | compaction cache ess => exact harmless_compaction hw hop hsound hdb _
  obtain ⟨db', hdb', hsame⟩ : ∃ db',
      LsmliteInner.restart dir config clock'.stamps clock'.fresh = some db' ∧
      ∀ key, db'.recovered h key = db.recovered h key := (hw.recovers_iff hdb).mpr hharmless
  exact ⟨db, db', hdb, hdb', hsame⟩

end

/-! ## The first flush -/

def oneWriteLog : Blob := logBlob [([97], .data [1])]

def smallConfig : LsmliteConfig := ⟨5, 100, 10⟩

def zeroClock : RestartClock := ⟨fun _ => ⟨0, 0⟩, ⟨0, 0⟩⟩

/-- The flush of a memtable with one write, in a directory with its log. -/
theorem first_flush :
    ∃ (table : MemtableInner) (file : StoredFile), file.ts = 2 ∧
    (SstableWrite.flush table oneWriteLog).Writes flatHashing []
      [⟨1, oneWriteLog, by decide⟩] file ∧
    (SstableWrite.flush table oneWriteLog).Sound ∧
    ∀ n, Writing [walEntry 1 oneWriteLog] [walEntry 1 oneWriteLog,
      sstableEntry 2 (file.content.take n)] [] [⟨1, oneWriteLog, by decide⟩] file n := by
  have hshort : (Record.of [97] (.data [1])).blob.length < 100 := by decide +kernel
  have hfits : Record.Fits [97] (.data [1]) := by
    simp only [Record.Fits]
    omega
  have hrep := representable_short hshort
  have hnone : ∀ old value, last [97] ([] : Entries) = some old → Entry.data [1] = .data value →
      Record.Reachable [97] old value := nofun
  obtain ⟨t, _, hins⟩ := (holds_new 100 5 (Wal.new 0 0 [])).insertNode hfits hnone
  have holds : t.Holds [([97], .data [1])] := hins.holds
  obtain ⟨fd, hrun, _⟩ := sstableContent_holds flatHashing holds hrep
  refine ⟨t, ⟨2, fd.content, by decide⟩, rfl, ?_,
    Representable.perm holds.encodedEntries.symm hrep, ?_⟩
  · refine ⟨⟨[([97], .data [1])], rfl, ?_, holds⟩, ⟨_, List.mem_singleton_self _, rfl⟩,
      fd, hrun, rfl⟩
    intro w hw
    rw [List.mem_singleton.mp hw]
    exact hfits
  · intro n
    have hpath : Path.eq (Path.join [dot] (generateWalFileName 1))
        (Path.join [dot] (generateSstableFileName 2)) = false := by decide +kernel
    constructor
    · exact .wal ⟨1, oneWriteLog, by decide⟩ .nil
    · exact ⟨_, [], (List.append_nil _).symm, rfl⟩
    · simp [Distinct, sstableEntry, walEntry, DirEntry.path, hpath]

/-- A restart without the file recovers the write. -/
theorem first_flush_before :
    ∃ db, LsmliteInner.restart [walEntry 1 oneWriteLog] smallConfig
    zeroClock.stamps zeroClock.fresh = some db ∧
      db.recovered flatHashing [97] = some (some [1]) := by
  have hrun : (LsmliteInner.restart [walEntry 1 oneWriteLog] smallConfig zeroClock.stamps
      zeroClock.fresh).bind (fun db => db.recovered flatHashing [97]) = some (some [1]) := by
    decide +kernel
  exact Option.bind_eq_some_iff.mp hrun

theorem crashed_flush_finished : ∃ content, RecoversAs flatHashing smallConfig zeroClock zeroClock
    [walEntry 1 oneWriteLog, sstableEntry 2 content] [walEntry 1 oneWriteLog] := by
  obtain ⟨table, file, _, hwrites, hsound, hwriting⟩ := first_flush
  obtain ⟨db, hdb, _⟩ := first_flush_before
  exact ⟨_, (crashed_write_recovers (hwriting file.content.length) hwrites hdb).1 le_rfl hsound⟩

/-- After a crash right after the creation of the file, the restart panics. -/
theorem crashed_flush_panics :
    ∃ (table : MemtableInner) (file : StoredFile),
    (SstableWrite.flush table oneWriteLog).Writes flatHashing []
      [⟨1, oneWriteLog, by decide⟩] file ∧
    Writing [walEntry 1 oneWriteLog] [walEntry 1 oneWriteLog, sstableEntry 2 []] []
      [⟨1, oneWriteLog, by decide⟩] file 0 ∧
    (∃ db, LsmliteInner.restart [walEntry 1 oneWriteLog] smallConfig zeroClock.stamps
      zeroClock.fresh = some db ∧ db.recovered flatHashing [97] = some (some [1])) ∧
    LsmliteInner.restart [walEntry 1 oneWriteLog, sstableEntry 2 []] smallConfig zeroClock.stamps
      zeroClock.fresh = none ∧
    ¬ RecoversAs flatHashing smallConfig zeroClock zeroClock
      [walEntry 1 oneWriteLog, sstableEntry 2 []] [walEntry 1 oneWriteLog] := by
  obtain ⟨table, file, _, hwrites, _, hwriting⟩ := first_flush
  have hpanics : LsmliteInner.restart [walEntry 1 oneWriteLog, sstableEntry 2 []] smallConfig
      zeroClock.stamps zeroClock.fresh = none := (hwriting 0).panics_early (by decide)
  refine ⟨table, file, hwrites, hwriting 0, first_flush_before, hpanics, ?_⟩
  rintro ⟨db, db', _, hdb', _⟩
  cases hpanics.symm.trans hdb'

end Lsmlite
