import Lsmlite.Database
import Lsmlite.Lib.Pairing
import Lsmlite.RestartFiles

/-!
# What a restart recovers

The map of a database: the newest record of its memtables, and beneath them what its tables answer.
A restart recovers it from the files alone: the records of each log and the table in each SSTable.
-/

namespace Lsmlite
open Bytes KeyValue MemtableInner

/-! ## The map of a database -/

namespace LsmliteInner

/-- What the memtables hold, oldest first. -/
def logs (db : LsmliteInner) : List Entries := (db.immutable ++ [db.memtable]).map encodedEntries

/-- The newest record of a key in the memtables. -/
def logged (db : LsmliteInner) (key : Blob) : Option Entry := findEntry key db.logs.reverse

/-- What the database has for a key; `none` where the search of the tables panics. -/
def recovered (h : Hashing) (db : LsmliteInner) (key : Blob) : Option (Option Blob) :=
  match db.logged key with
  | some e => some (readEntry (some e))
  | none => (db.sstableCache.search h key).map (·.1.toOption)

end LsmliteInner

/-! ## The files of a restart -/

/-- The records a restart replays from a log. -/
def replayLog (config : LsmliteConfig) (log : Blob) : Option Entries :=
  (fromWal log config.maxMemtableSize config.maxMemtableNodes (Wal.new 0 0 [])).map encodedEntries

/-- The table a restart loads from a file. -/
def loadTable (content : Blob) : Option SSTable := do
  match ← SSTable.fromFd (.opened content []) with
  | .ok table => some table
  | .error _ => none

theorem fromRestart_eq (contents : List Blob) (compactionRate : Nat) :
    SSTableCache.fromRestart contents compactionRate =
      (contents.mapM loadTable).map fun cache => ⟨cache, compactionRate⟩ := by
  have hload : SSTableCache.fromRestart contents compactionRate =
      (contents.mapM loadTable).bind fun cache => some ⟨cache, compactionRate⟩ := rfl
  rw [hload, Option.map_eq_bind]
  rfl

theorem FileHolds.loadTable {h : Hashing} {content : Blob} {es : Entries}
    (hfile : FileHolds h content es) :
    ∃ s, Lsmlite.loadTable content = some s ∧ s.Holds h es := by
  obtain ⟨s, hload, hs⟩ := hfile
  refine ⟨s, ?_, hs⟩
  rw [Lsmlite.loadTable, hload]
  rfl

section
variable {dir : List DirEntry} {sstables wals : List StoredFile} (hlists : Lists dir sstables wals)
  (hdistinct : Distinct dir) (config : LsmliteConfig)
include hlists hdistinct

theorem Lists.constructSstableCache : LsmliteInner.constructSstableCache dir
    ((newestFirst StoredFile.ts sstables).map StoredFile.sstable) config =
      ((newestFirst StoredFile.ts sstables).mapM fun f => loadTable f.content).map
        fun cache => ⟨cache, config.compactionRate⟩ := by
  have hstored : ∀ f ∈ newestFirst StoredFile.ts sstables,
      sstableEntry f.ts f.content ∈ dir := fun f hf =>
    hlists.sstable_mem ((newestFirst_perm _ _).mem_iff.mp hf)
  rw [LsmliteInner.constructSstableCache]
  split
  · rename_i hempty
    rw [List.isEmpty_iff, List.map_eq_nil_iff] at hempty
    rw [hempty]
    rfl
  · rw [loadTables, mapM_contents hdistinct hstored, Option.bind_eq_bind, Option.bind_some,
      fromRestart_eq, List.mapM_map]
    rfl

theorem Lists.load_wal {f : StoredFile} (hf : f ∈ wals) (stamp : LsmliteInner.Stamp) :
    (loadImmutableMemtableWorker dir f.wal.filename config.maxMemtableSize config.maxMemtableNodes
      stamp).map encodedEntries = replayLog config f.content := by
  have hread : readPath dir f.wal.filename = some f.content :=
    readPath_entry hdistinct (hlists.wal_mem hf)
  rw [loadImmutableMemtableWorker, hread, Option.bind_eq_bind, Option.bind_some,
    fromWal_logTo _ _ _ (Wal.new 0 0 []), Option.map_map]
  rfl

/-- The logs that are replayed into the queue and the active memtable. -/
theorem Lists.replay {files : List StoredFile} (hfiles : ∀ f ∈ files, f ∈ wals)
    (stamps : WalArtifact → LsmliteInner.Stamp) :
    ((files.map StoredFile.wal).mapM fun w => loadImmutableMemtableWorker dir w.filename
      config.maxMemtableSize config.maxMemtableNodes (stamps w)).map (List.map encodedEntries) =
      files.mapM fun f => replayLog config f.content := by
  rw [List.mapM_map]
  exact mapM_map_results fun f hf => hlists.load_wal hdistinct config (hfiles f hf) _

/-- A restart that succeeds has replayed every log and loaded every table. -/
theorem Lists.of_restart {stamps : WalArtifact → LsmliteInner.Stamp} {fresh : LsmliteInner.Stamp}
    {db : LsmliteInner} (hdb : LsmliteInner.restart dir config stamps fresh = some db) :
    ∃ logs,
      (oldestFirst StoredFile.ts wals).mapM (fun f => replayLog config f.content) = some logs ∧
      (newestFirst StoredFile.ts sstables).mapM (fun f => loadTable f.content) =
        some db.sstableCache.cache ∧
      ∀ key, db.logged key = findEntry key logs.reverse := by
  have hmem : ∀ f ∈ oldestFirst StoredFile.ts wals, f ∈ wals := fun f hf =>
    (newestFirst_perm _ _).mem_iff.mp hf
  simp only [LsmliteInner.restart, hlists.scanDirectory, LsmliteInner.new,
    hlists.constructSstableCache hdistinct, Option.bind_eq_bind, Option.bind_some,
    Option.bind_eq_some_iff] at hdb
  obtain ⟨memtable, hmemtable, cache, hcache, immutable, himmutable, hdb⟩ := hdb
  cases hdb
  obtain ⟨tables, htables, rfl⟩ := Option.map_eq_some_iff.mp hcache
  rcases List.eq_nil_or_concat (oldestFirst StoredFile.ts wals) with hnil | ⟨init, live, hconcat⟩
  · rw [hnil] at hmemtable himmutable ⊢
    cases hmemtable
    cases himmutable
    exact ⟨[], rfl, htables, fun key => rfl⟩
  · rw [List.concat_eq_append] at hconcat
    rw [hconcat] at hmemtable himmutable hmem ⊢
    rw [List.map_append, List.map_singleton] at hmemtable himmutable
    rw [List.getLast?_append, List.getLast?_singleton, Option.some_or] at hmemtable
    rw [List.dropLast_concat] at himmutable
    have hinit :=
      hlists.replay hdistinct config (fun f hf => hmem f (List.mem_append_left _ hf)) stamps
    have hlive := hlists.load_wal hdistinct config
      (hmem live (List.mem_append_right _ (List.mem_singleton_self live))) (stamps live.wal)
    rw [readImmutableTables] at himmutable
    rw [LsmliteInner.constructMemtable] at hmemtable
    rw [himmutable] at hinit
    rw [hmemtable] at hlive
    refine ⟨immutable.map encodedEntries ++ [memtable.encodedEntries], ?_, htables, fun key => ?_⟩
    · rw [List.mapM_append, ← hinit]
      simp only [List.mapM_cons, List.mapM_nil, ← hlive]
      rfl
    · rw [LsmliteInner.logged, LsmliteInner.logs, List.map_append]
      rfl

/-- A restart succeeds where every log can be replayed and every table loaded. -/
theorem Lists.restart {logs : List Entries} {tables : List SSTable}
    (hlogs :
      (oldestFirst StoredFile.ts wals).mapM (fun f => replayLog config f.content) = some logs)
    (htables : (newestFirst StoredFile.ts sstables).mapM (fun f => loadTable f.content) =
      some tables) (stamps : WalArtifact → LsmliteInner.Stamp) (fresh : LsmliteInner.Stamp) :
    ∃ db, LsmliteInner.restart dir config stamps fresh = some db := by
  have hmem : ∀ f ∈ oldestFirst StoredFile.ts wals, f ∈ wals := fun f hf =>
    (newestFirst_perm _ _).mem_iff.mp hf
  rw [LsmliteInner.restart, hlists.scanDirectory, Option.bind_eq_bind, Option.bind_some]
  dsimp only
  rw [LsmliteInner.new, hlists.constructSstableCache hdistinct, htables]
  rcases List.eq_nil_or_concat (oldestFirst StoredFile.ts wals) with hnil | ⟨init, live, hconcat⟩
  · rw [hnil]
    exact ⟨_, rfl⟩
  · rw [List.concat_eq_append] at hconcat
    rw [hconcat] at hlogs hmem ⊢
    rw [List.mapM_append] at hlogs
    obtain ⟨queue, hqueue, hlogs⟩ := Option.bind_eq_some_iff.mp hlogs
    obtain ⟨newest, hnewest, _⟩ := Option.bind_eq_some_iff.mp hlogs
    rw [List.mapM_cons] at hnewest
    obtain ⟨es, hes, _⟩ := Option.bind_eq_some_iff.mp hnewest
    have hinit :=
      hlists.replay hdistinct config (fun f hf => hmem f (List.mem_append_left _ hf)) stamps
    have hlive := hlists.load_wal hdistinct config
      (hmem live (List.mem_append_right _ (List.mem_singleton_self live))) (stamps live.wal)
    rw [hqueue] at hinit
    rw [hes] at hlive
    obtain ⟨immutable, himmutable, _⟩ := Option.map_eq_some_iff.mp hinit
    obtain ⟨memtable, hmemtable, _⟩ := Option.map_eq_some_iff.mp hlive
    rw [List.map_append, List.map_singleton, List.getLast?_append, List.getLast?_singleton,
      Option.some_or, List.dropLast_concat, LsmliteInner.constructMemtable,
      readImmutableTables, hmemtable, himmutable]
    exact ⟨_, rfl⟩

end

end Lsmlite
