import Lsmlite.FileNames
import Lsmlite.SSTableRoundTrip

/-!
# What a restart finds

The database files of a directory, in the order of its listing, and the cache a restart loads from
them: the tables newest first, whatever that order was.
-/

namespace Lsmlite
open Bytes KeyValue

/-! ## Sorting by timestamp -/

section
variable {α β T : Type} [LinearOrder T] (ts : α → T)

def newestFirst (files : List α) : List α := files.mergeSort fun a b => ts b ≤ ts a

/-- Newest first in the opposite order of time. -/
def oldestFirst (files : List α) : List α := newestFirst (fun a => OrderDual.toDual (ts a)) files

theorem newestFirst_perm (files : List α) : (newestFirst ts files).Perm files :=
  List.mergeSort_perm ..

theorem newestFirst_sorted (files : List α) :
    (newestFirst ts files).Pairwise fun a b => ts b ≤ ts a := by
  have hsorted : (newestFirst ts files).Pairwise fun a b => decide (ts b ≤ ts a) = true := by
    apply List.pairwise_mergeSort
    · intro a b c hab hbc
      simp only [decide_eq_true_eq] at hab hbc ⊢
      exact hbc.trans hab
    · intro a b
      simpa using le_total (ts b) (ts a)
  simpa using hsorted

theorem newestFirst_map (f : β → α) (files : List β) :
    newestFirst ts (files.map f) = (newestFirst (fun b => ts (f b)) files).map f := by
  symm
  apply List.map_mergeSort
  intro a _ b _
  rfl

/-- With distinct timestamps a sorted permutation is what the sort returns. -/
theorem newestFirst_eq {files files' : List α} (hnodup : (files.map ts).Nodup)
    (hperm : files'.Perm files) (hsorted : files'.Pairwise fun a b => ts b ≤ ts a) :
    newestFirst ts files = files' := by
  refine List.Perm.eq_of_pairwise ?_ (newestFirst_sorted ts files) hsorted
    ((newestFirst_perm ts files).trans hperm.symm)
  intro a b ha hb hab hba
  exact List.inj_on_of_nodup_map hnodup ((newestFirst_perm ts files).mem_iff.mp ha)
    (hperm.mem_iff.mp hb) (le_antisymm hba hab)

/-- A file newer than all others comes first. -/
theorem newestFirst_insert {file : α} {files files' : List α} (hnodup : (files.map ts).Nodup)
    (hperm : files.Perm (file :: files')) (hnew : ∀ f ∈ files', ts f ≤ ts file) :
    newestFirst ts files = file :: newestFirst ts files' := by
  apply newestFirst_eq ts hnodup
  · exact ((newestFirst_perm ts files').cons file).trans hperm.symm
  · rw [List.pairwise_cons]
    constructor
    · intro f hf
      exact hnew f ((newestFirst_perm ts files').mem_iff.mp hf)
    · exact newestFirst_sorted ts files'

end

/-! ## The files of a directory -/

/-- A file with a generated name. -/
structure StoredFile where
  ts : Nat
  content : Blob
  named : ts < 2 ^ 128

/-- Its artifact, as an SSTable and as a log. -/
def StoredFile.sstable (f : StoredFile) : SSTableArtifact :=
  ⟨Path.join [dot] (generateSstableFileName f.ts), f.ts⟩

def StoredFile.wal (f : StoredFile) : WalArtifact :=
  ⟨Path.join [dot] (generateWalFileName f.ts), f.ts⟩

/-- The database files of a directory, in the order of its listing. -/
inductive Lists : List DirEntry → List StoredFile → List StoredFile → Prop
  | nil : Lists [] [] []
  | sstable {dir : List DirEntry} {sstables wals : List StoredFile} (f : StoredFile) :
      Lists dir sstables wals → Lists (sstableEntry f.ts f.content :: dir) (f :: sstables) wals
  | wal {dir : List DirEntry} {sstables wals : List StoredFile} (f : StoredFile) :
      Lists dir sstables wals → Lists (walEntry f.ts f.content :: dir) sstables (f :: wals)
  | other {dir : List DirEntry} {sstables wals : List StoredFile} {e : DirEntry} :
      DatabaseFile.fromPath e.path = some none → Lists dir sstables wals →
        Lists (e :: dir) sstables wals

/-- No two entries have the same path. -/
def Distinct (dir : List DirEntry) : Prop := dir.Pairwise fun a b => Path.eq a.path b.path = false

theorem Lists.scanEntries {dir : List DirEntry} {sstables wals : List StoredFile}
    (h : Lists dir sstables wals) :
    scanEntries dir = some (sstables.map StoredFile.sstable, wals.map StoredFile.wal) := by
  induction h with
  | nil => rfl
  | sstable f _ ih =>
    have hpath :
      (sstableEntry f.ts f.content).path = Path.join [dot] (generateSstableFileName f.ts) := rfl
    simp only [Lsmlite.scanEntries, hpath, fromPath_sstable, artifact_sstable f.named, ih,
      Option.bind_eq_bind, Option.bind_some, Option.pure_def, List.map_cons]
    rfl
  | wal f _ ih =>
    have hpath : (walEntry f.ts f.content).path = Path.join [dot] (generateWalFileName f.ts) := rfl
    simp only [Lsmlite.scanEntries, hpath, fromPath_wal, artifact_wal f.named, ih,
      Option.bind_eq_bind, Option.bind_some, Option.pure_def, List.map_cons]
    rfl
  | other hother _ ih => simp only [Lsmlite.scanEntries, hother, ih]

theorem Lists.scanDirectory {dir : List DirEntry} {sstables wals : List StoredFile}
    (h : Lists dir sstables wals) :
    scanDirectory dir = some ((newestFirst StoredFile.ts sstables).map StoredFile.sstable,
      (oldestFirst StoredFile.ts wals).map StoredFile.wal) := by
  have hsstables := newestFirst_map SSTableArtifact.ts StoredFile.sstable sstables
  have hwals := newestFirst_map (fun a => OrderDual.toDual (WalArtifact.ts a)) StoredFile.wal wals
  rw [Lsmlite.scanDirectory, h.scanEntries]
  exact congrArg some (Prod.ext hsstables hwals)

/-- The path of an entry leads to its content. -/
theorem readPath_entry {dir : List DirEntry} (hdistinct : Distinct dir) {e : DirEntry}
    (he : e ∈ dir) :
    readPath dir e.path = some e.content := by
  induction dir with
  | nil => cases he
  | cons d dir ih =>
    obtain ⟨hd, hdistinct⟩ := List.pairwise_cons.mp hdistinct
    rcases List.mem_cons.mp he with rfl | he
    · have hself : Path.eq e.path e.path = true := by simp [Path.eq]
      simp [readPath, hself]
    · have hne := hd e he
      have hrest := ih hdistinct he
      simpa [readPath, List.find?_cons, hne] using hrest

theorem Lists.sstable_mem {dir : List DirEntry} {sstables wals : List StoredFile}
    (h : Lists dir sstables wals) {f : StoredFile} (hf : f ∈ sstables) :
    sstableEntry f.ts f.content ∈ dir := by
  induction h with
  | nil => cases hf
  | sstable f' _ ih =>
    rcases List.mem_cons.mp hf with rfl | hf
    · exact List.mem_cons_self ..
    · exact List.mem_cons_of_mem _ (ih hf)
  | wal _ _ ih => exact List.mem_cons_of_mem _ (ih hf)
  | other _ _ ih => exact List.mem_cons_of_mem _ (ih hf)

theorem Lists.wal_mem {dir : List DirEntry} {sstables wals : List StoredFile}
    (h : Lists dir sstables wals) {f : StoredFile} (hf : f ∈ wals) :
    walEntry f.ts f.content ∈ dir := by
  induction h with
  | nil => cases hf
  | sstable _ _ ih => exact List.mem_cons_of_mem _ (ih hf)
  | wal f' _ ih =>
    rcases List.mem_cons.mp hf with rfl | hf
    · exact List.mem_cons_self ..
    · exact List.mem_cons_of_mem _ (ih hf)
  | other _ _ ih => exact List.mem_cons_of_mem _ (ih hf)

/-- The SSTables of a directory have distinct timestamps. -/
theorem Lists.sstables_nodup {dir : List DirEntry} {sstables wals : List StoredFile}
    (h : Lists dir sstables wals) (hdistinct : Distinct dir) :
    (sstables.map StoredFile.ts).Nodup := by
  induction h with
  | nil => exact List.nodup_nil
  | sstable f hrest ih =>
    obtain ⟨hf, hdistinct⟩ := List.pairwise_cons.mp hdistinct
    rw [List.map_cons, List.nodup_cons]
    refine ⟨fun hmem => ?_, ih hdistinct⟩
    obtain ⟨f', hf', hts⟩ := List.mem_map.mp hmem
    have hne := hf _ (hrest.sstable_mem hf')
    simp only [DirEntry.path, sstableEntry, hts, Path.eq, decide_true, Bool.true_eq_false] at hne
  | wal f _ ih => exact ih (List.pairwise_cons.mp hdistinct).2
  | other _ _ ih => exact ih (List.pairwise_cons.mp hdistinct).2

/-! ## The cache of a restart -/

/-- A stored SSTable with what it holds. -/
structure StoredTable (h : Hashing) extends StoredFile where
  entries : Entries
  holds : FileHolds h content entries

/-- `scan_directory` and `from_restart`. -/
def restartCache (dir : List DirEntry) (compactionRate : Nat) : Option SSTableCache := do
  let (sstables, _) ← scanDirectory dir
  loadTables dir sstables compactionRate

theorem mapM_contents {dir : List DirEntry} (hdistinct : Distinct dir) {files : List StoredFile}
    (hfiles : ∀ f ∈ files, sstableEntry f.ts f.content ∈ dir) :
    (files.map StoredFile.sstable).mapM (fun a => readPath dir a.filename) =
      some (files.map StoredFile.content) := by
  induction files with
  | nil => rfl
  | cons f files ih =>
    have hread : readPath dir f.sstable.filename = some f.content :=
      readPath_entry hdistinct (hfiles f (List.mem_cons_self ..))
    have hrest := ih fun f' hf' => hfiles f' (List.mem_cons_of_mem _ hf')
    simp only [List.map_cons, List.mapM_cons, hread, hrest, Option.bind_eq_bind, Option.bind_some,
      Option.pure_def]

theorem fromRestart_cons {content : Blob} {contents : List Blob} {s : SSTable}
    {cache : List SSTable} {compactionRate : Nat}
    (hload : SSTable.fromFd (.opened content []) = some (.ok s))
    (hrest : SSTableCache.fromRestart contents compactionRate = some ⟨cache, compactionRate⟩) :
    SSTableCache.fromRestart (content :: contents) compactionRate =
      some ⟨s :: cache, compactionRate⟩ := by
  simp only [SSTableCache.fromRestart, Option.bind_eq_bind, Option.bind_eq_some_iff] at hrest
  obtain ⟨tables, htables, hrest⟩ := hrest
  cases hrest
  simp only [SSTableCache.fromRestart, List.mapM_cons, hload, htables, Option.bind_eq_bind,
    Option.bind_some, Option.pure_def]

/-- Tables that can be loaded are. -/
theorem fromRestart_holds {h : Hashing} (tables : List (StoredTable h)) (compactionRate : Nat) :
    ∃ cache, SSTableCache.fromRestart (tables.map fun t => t.content) compactionRate =
      some ⟨cache, compactionRate⟩ ∧
        SSTableCache.Holds h cache (tables.map StoredTable.entries) := by
  induction tables with
  | nil => exact ⟨[], rfl, .nil⟩
  | cons t tables ih =>
    obtain ⟨cache, hcache, hholds⟩ := ih
    obtain ⟨s, hs, hs'⟩ := t.holds
    exact ⟨s :: cache, fromRestart_cons hs hcache, hholds.cons hs'⟩

/-- A restart loads the tables of a directory newest first. -/
theorem Lists.restartCache {h : Hashing} {dir : List DirEntry} {tables : List (StoredTable h)}
    {wals : List StoredFile} (hlists : Lists dir (tables.map StoredTable.toStoredFile) wals)
    (hdistinct : Distinct dir) (compactionRate : Nat) :
    ∃ cache, Lsmlite.restartCache dir compactionRate = some ⟨cache, compactionRate⟩ ∧
      SSTableCache.Holds h cache
        ((newestFirst (fun t : StoredTable h => t.ts) tables).map StoredTable.entries) := by
  obtain ⟨cache, hcache, hholds⟩ :=
    fromRestart_holds (newestFirst (fun t : StoredTable h => t.ts) tables) compactionRate
  refine ⟨cache, ?_, hholds⟩
  have hsorted := newestFirst_map StoredFile.ts (StoredTable.toStoredFile (h := h)) tables
  have hstored : ∀ f ∈ newestFirst StoredFile.ts (tables.map StoredTable.toStoredFile),
      sstableEntry f.ts f.content ∈ dir := fun f hf =>
    hlists.sstable_mem ((newestFirst_perm _ _).mem_iff.mp hf)
  have hcontents := mapM_contents hdistinct hstored
  rw [Lsmlite.restartCache, hlists.scanDirectory, Option.bind_eq_bind, Option.bind_some]
  simp only [loadTables, hcontents, Option.bind_eq_bind, Option.bind_some]
  rw [hsorted, List.map_map]
  exact hcache

/-! ## What a cache answers -/

/-- The answer of a cache whose newest entry for the key is this one: a value out of its window
panics. -/
def answerAt (key : Blob) : Option Entry → Option (Except SSTableError Blob)
  | some (.data value) => if InWindow key (.data value) then some (.ok value) else none
  | some .tombstone => some (.error .diskRecordNotFound)
  | none => some (.error .diskRecordNotFound)

theorem searchTables_answer {h : Hashing} {tables : List SSTable} {ess : List Entries}
    (hs : SSTableCache.Holds h tables ess) (key : Blob) :
    (SSTableCache.searchTables h key tables).map (·.1) = answerAt key (findEntry key ess) := by
  induction hs with
  | nil => rfl
  | @cons s es tables ess hs _ ih =>
    rw [findEntry_cons, SSTableCache.searchTables]
    by_cases hwin : ∀ e, last key es = some e → InWindow key e
    · obtain ⟨s', hsearch, _⟩ := hs.search hwin
      rw [hsearch]
      cases hlast : last key es with
      | none =>
        rw [Option.none_or, ← ih]
        cases SSTableCache.searchTables h key tables <;> rfl
      | some e =>
        cases e with
        | data value => exact (if_pos (hwin _ hlast)).symm
        | tombstone => rfl
    · push Not at hwin
      obtain ⟨e, hlast, hout⟩ := hwin
      rw [hs.search_outside hlast hout, hlast, Option.some_or]
      cases e with
      | data value => exact (if_neg hout).symm
      | tombstone => exact absurd trivial hout

theorem search_answer {h : Hashing} {cache : List SSTable} {ess : List Entries}
    (hs : SSTableCache.Holds h cache ess) (compactionRate : Nat) (key : Blob) :
    ((SSTableCache.mk cache compactionRate).search h key).map (·.1) =
      answerAt key (findEntry key ess) := by
  rw [← searchTables_answer hs, SSTableCache.search, Option.map_map]
  rfl

end Lsmlite
