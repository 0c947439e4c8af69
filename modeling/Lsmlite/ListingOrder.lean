import Lsmlite.DirectoryScan
import Lsmlite.EngineSteps
import Lsmlite.SessionFiles

/-!
# The order of a listing

A directory is listed in any order, and files that are not the database's may be among its own. The
sorts of `scan_directory` make up for the first and `from_path` for the second: whatever the listing
is, the files that a run has left make one database.
-/

namespace Lsmlite
open KeyValue

/-! ## Files of others -/

/-- What a scan does not skip. -/
def isTaken (e : DirEntry) : Bool := DatabaseFile.fromPath e.path ≠ some none

theorem isTaken_false {e : DirEntry} (h : DatabaseFile.fromPath e.path = some none) :
    isTaken e = false := by
  simp [isTaken, h]

theorem isTaken_true {e : DirEntry} (h : DatabaseFile.fromPath e.path ≠ some none) :
    isTaken e = true := by
  simp [isTaken, h]

theorem scanEntries_taken (dir : List DirEntry) :
    scanEntries (dir.filter isTaken) = scanEntries dir := by
  induction dir with
  | nil => rfl
  | cons e dir ih =>
    by_cases hpath : DatabaseFile.fromPath e.path = some none
    · rw [List.filter_cons, isTaken_false hpath, scanEntries, hpath]
      exact ih
    · rw [List.filter_cons, isTaken_true hpath, if_pos rfl, scanEntries, scanEntries, ih]

theorem scanDirectory_taken (dir : List DirEntry) :
    scanDirectory (dir.filter isTaken) = scanDirectory dir := by
  rw [scanDirectory, scanEntries_taken, scanDirectory]

/-- A path that a scan takes leads past the files that it skips. -/
theorem readPath_taken (dir : List DirEntry) {path : PathBuf}
    (hpath : DatabaseFile.fromPath path ≠ some none) :
    readPath (dir.filter isTaken) path = readPath dir path := by
  rw [readPath, readPath, List.find?_filter]
  congr 2
  funext e
  by_cases heq : Path.eq e.path path = true
  · have htaken : isTaken e = true := isTaken_true (by rwa [fromPath_congr heq])
    simp [heq, htaken]
  · simp [heq]

/-! ## The database's own files -/

theorem Lists.onlyEngineNames {dir : List DirEntry} {sstables wals : List StoredFile}
    (h : Lists dir sstables wals) :
    OnlyEngineNames dir := by
  rw [onlyEngineNames_iff]
  induction h with
  | nil =>
    intro e he
    cases he
  | sstable f _ ih =>
    intro e he
    rcases List.mem_cons.mp he with rfl | he
    · have hkind :
          DatabaseFile.fromPath (sstableEntry f.ts f.content).path = some (some .sstable) :=
        fromPath_sstable f.ts
      rw [hkind]
      exact ⟨by simp, fun _ => ⟨f.ts, f.named, rfl⟩, by simp⟩
    · exact ih e he
  | wal f _ ih =>
    intro e he
    rcases List.mem_cons.mp he with rfl | he
    · have hkind : DatabaseFile.fromPath (walEntry f.ts f.content).path = some (some .wal) :=
        fromPath_wal f.ts
      rw [hkind]
      exact ⟨by simp, by simp, fun _ => ⟨f.ts, f.named, rfl⟩⟩
    · exact ih e he
  | other hother _ ih =>
    intro e he
    rcases List.mem_cons.mp he with rfl | he
    · simp [hother]
    · exact ih e he

theorem mem_engineSstables {dir : List DirEntry} {a : SSTableArtifact}
    (h : a ∈ engineSstables dir) :
    a.filename = Path.join [dot] (generateSstableFileName a.ts) ∧ ∃ e ∈ dir,
      e.path = a.filename := by
  obtain ⟨e, he, hstamp⟩ := List.mem_filterMap.mp h
  obtain ⟨ts, hts, rfl⟩ := Option.map_eq_some_iff.mp hstamp
  obtain ⟨_, hname⟩ := sstableStamp_iff.mp hts
  constructor
  · show e.path = _
    rw [DirEntry.path, ← hname]
  · exact ⟨e, he, rfl⟩

theorem mem_engineWals {dir : List DirEntry} {a : WalArtifact} (h : a ∈ engineWals dir) :
    a.filename = Path.join [dot] (generateWalFileName a.ts) ∧ ∃ e ∈ dir, e.path = a.filename := by
  obtain ⟨e, he, hstamp⟩ := List.mem_filterMap.mp h
  obtain ⟨ts, hts, rfl⟩ := Option.map_eq_some_iff.mp hstamp
  obtain ⟨_, hname⟩ := walStamp_iff.mp hts
  constructor
  · show e.path = _
    rw [DirEntry.path, ← hname]
  · exact ⟨e, he, rfl⟩

theorem engineSstables_inj {dir : List DirEntry} {a b : SSTableArtifact}
    (ha : a ∈ engineSstables dir) (hb : b ∈ engineSstables dir) (hts : a.ts = b.ts) : a = b := by
  have hfile := (mem_engineSstables ha).1
  rw [hts, ← (mem_engineSstables hb).1] at hfile
  cases a
  cases b
  cases hts
  cases hfile
  rfl

theorem engineWals_inj {dir : List DirEntry} {a b : WalArtifact} (ha : a ∈ engineWals dir)
    (hb : b ∈ engineWals dir) (hts : a.ts = b.ts) : a = b := by
  have hfile := (mem_engineWals ha).1
  rw [hts, ← (mem_engineWals hb).1] at hfile
  cases a
  cases b
  cases hts
  cases hfile
  rfl

/-! ## Listings of the same files -/

/-- Files whose timestamps tell them apart are sorted the same from every listing. -/
theorem newestFirst_perm_eq {α T : Type} [LinearOrder T] {ts : α → T} {files files' : List α}
    (hinj : ∀ a ∈ files, ∀ b ∈ files, ts a = ts b → a = b) (hperm : files'.Perm files) :
    newestFirst ts files' = newestFirst ts files := by
  have hsorted : (newestFirst ts files').Perm (newestFirst ts files) :=
    (newestFirst_perm ts files').trans (hperm.trans (newestFirst_perm ts files).symm)
  apply hsorted.eq_of_pairwise _ (newestFirst_sorted ts files') (newestFirst_sorted ts files)
  intro a b ha hb hab hba
  have ha' := hperm.mem_iff.mp ((newestFirst_perm ts files').mem_iff.mp ha)
  have hb' := (newestFirst_perm ts files).mem_iff.mp hb
  exact hinj a ha' b hb' (le_antisymm hba hab)

theorem OnlyEngineNames.scanDirectory {dir : List DirEntry} (h : OnlyEngineNames dir) :
    scanDirectory dir =
      some (newestFirst SSTableArtifact.ts (engineSstables dir),
        oldestFirst WalArtifact.ts (engineWals dir)) := by
  rw [Lsmlite.scanDirectory, h.scanEntries]
  rfl

theorem OnlyEngineNames.scan_perm {dir dir' : List DirEntry} (h : OnlyEngineNames dir)
    (hperm : dir'.Perm dir) :
    Lsmlite.scanDirectory dir' = Lsmlite.scanDirectory dir := by
  have h' : OnlyEngineNames dir' := fun e he => h e (hperm.mem_iff.mp he)
  have hsstables : newestFirst SSTableArtifact.ts (engineSstables dir') =
      newestFirst SSTableArtifact.ts (engineSstables dir) :=
    newestFirst_perm_eq (fun _ ha _ hb => engineSstables_inj ha hb) (hperm.filterMap _)
  have hwals :
      oldestFirst WalArtifact.ts (engineWals dir') = oldestFirst WalArtifact.ts (engineWals dir) :=
    newestFirst_perm_eq (fun _ ha _ hb => engineWals_inj ha hb) (hperm.filterMap _)
  rw [h'.scanDirectory, h.scanDirectory, hsstables, hwals]

/-- Where one listing is scanned the other is, with the same result. -/
theorem Generated.scan_of_perm {dir dir' : List DirEntry} {clock : Nat} (h : Generated dir clock)
    (hperm : dir'.Perm dir) {r : List SSTableArtifact × List WalArtifact}
    (hr : scanDirectory dir = some r) :
    scanDirectory dir' = some r := by
  obtain ⟨_, _, hlists⟩ := h.lists hr
  rw [hlists.onlyEngineNames.scan_perm hperm]
  exact hr

theorem Generated.scan_perm {dir dir' : List DirEntry} {clock : Nat} (h : Generated dir clock)
    (hperm : dir'.Perm dir) : scanDirectory dir' = scanDirectory dir := by
  apply Option.ext
  intro r
  constructor
  · exact (h.perm hperm).scan_of_perm hperm.symm
  · exact h.scan_of_perm hperm

/-- The paths that a scan returns lead to the same files in every listing. -/
structure SameFiles (dir dir' : List DirEntry) (sstables : List SSTableArtifact)
    (wals : List WalArtifact) : Prop where
  sstable : ∀ a ∈ sstables, readPath dir' a.filename = readPath dir a.filename
  wal : ∀ w ∈ wals, readPath dir' w.filename = readPath dir w.filename

theorem Generated.sameFiles {dir dir' : List DirEntry} {clock : Nat} (h : Generated dir clock)
    (hperm : dir'.Perm dir) {sstables : List SSTableArtifact} {wals : List WalArtifact}
    (hscan : scanDirectory dir = some (sstables, wals)) : SameFiles dir dir' sstables wals := by
  obtain ⟨_, _, hlists⟩ := h.lists hscan
  rw [hlists.onlyEngineNames.scanDirectory] at hscan
  cases hscan
  have hread : ∀ e ∈ dir, readPath dir' e.path = readPath dir e.path := by
    intro e he
    rw [readPath_entry h.pairwise he, readPath_entry (h.perm hperm).pairwise (hperm.mem_iff.mpr he)]
  constructor
  · intro a ha
    have hmem := (newestFirst_perm _ _).mem_iff.mp ha
    obtain ⟨_, e, he, hfile⟩ := mem_engineSstables hmem
    rw [← hfile]
    exact hread e he
  · intro w hw
    have hmem := (newestFirst_perm _ _).mem_iff.mp hw
    obtain ⟨_, e, he, hfile⟩ := mem_engineWals hmem
    rw [← hfile]
    exact hread e he

/-! ## What a restart reads -/

section
variable {dir dir' : List DirEntry} {sstables : List SSTableArtifact} {wals : List WalArtifact}

theorem mapM_congr {α β : Type} {f g : α → Option β} {xs : List α} (h : ∀ x ∈ xs, f x = g x) :
    xs.mapM f = xs.mapM g := by
  induction xs with
  | nil => rfl
  | cons x xs ih =>
    rw [List.mapM_cons, List.mapM_cons, h x (List.mem_cons_self ..),
      ih fun y hy => h y (List.mem_cons_of_mem _ hy)]

theorem load_congr {path : PathBuf} {maxSize maxNodes : Nat} {stamp : LsmliteInner.Stamp}
    (h : readPath dir' path = readPath dir path) :
    loadImmutableMemtableWorker dir' path maxSize maxNodes stamp =
      loadImmutableMemtableWorker dir path maxSize maxNodes stamp := by
  rw [loadImmutableMemtableWorker, h, loadImmutableMemtableWorker]

theorem SameFiles.new (h : SameFiles dir dir' sstables wals) (config : LsmliteConfig)
    (stamps : WalArtifact → LsmliteInner.Stamp) (fresh : LsmliteInner.Stamp) :
    LsmliteInner.new dir' sstables wals config stamps fresh =
      LsmliteInner.new dir sstables wals config stamps fresh := by
  have hmemtable : LsmliteInner.constructMemtable dir' wals.getLast? config stamps fresh =
      LsmliteInner.constructMemtable dir wals.getLast? config stamps fresh := by
    cases hlive : wals.getLast? with
    | none => rfl
    | some wal => exact load_congr (h.wal wal (List.mem_of_getLast? hlive))
  have hcache : LsmliteInner.constructSstableCache dir' sstables config =
      LsmliteInner.constructSstableCache dir sstables config := by
    rw [LsmliteInner.constructSstableCache, LsmliteInner.constructSstableCache, loadTables,
      loadTables, mapM_congr h.sstable]
  have himmutable : readImmutableTables dir' wals.dropLast config stamps =
      readImmutableTables dir wals.dropLast config stamps :=
    mapM_congr fun w hw => load_congr (h.wal w (List.mem_of_mem_dropLast hw))
  rw [LsmliteInner.new, hmemtable, hcache, himmutable, LsmliteInner.new]

/-- Listings that are scanned the same, with the same files, make the same database. -/
theorem reopen_congr {c : Config} {clock : Nat} {stamps : WalArtifact → LsmliteInner.Stamp}
    {fresh : LsmliteInner.Stamp} (hscan : scanDirectory dir' = scanDirectory dir)
    (hsame : ∀ sstables wals, scanDirectory dir = some (sstables, wals) →
      SameFiles dir dir' sstables wals) :
    Engine.reopen c dir' clock stamps fresh = Engine.reopen c dir clock stamps fresh ∧
      recoveredLogs dir' = recoveredLogs dir := by
  rw [Engine.reopen, Engine.reopen, recoveredLogs, recoveredLogs, hscan]
  cases hfound : scanDirectory dir with
  | none => exact ⟨rfl, rfl⟩
  | some r =>
    obtain ⟨sstables, wals⟩ := r
    have hfiles := hsame sstables wals hfound
    have hstored : sstables.mapM (fun a => (readPath dir' a.filename).map (SstFile.mk a.ts)) =
        sstables.mapM (fun a => (readPath dir a.filename).map (SstFile.mk a.ts)) :=
      mapM_congr fun a ha => by rw [hfiles.sstable a ha]
    have hlogs : wals.mapM (fun w => (readPath dir' w.filename).map logEntries) =
        wals.mapM (fun w => (readPath dir w.filename).map logEntries) :=
      mapM_congr fun w hw => by rw [hfiles.wal w hw]
    simp only [Option.bind_eq_bind, Option.bind_some, hfiles.new, hstored, hlogs, and_self]

end

/-- What a run leaves is taken, and other files are not. -/
theorem Generated.filter_taken {dir others : List DirEntry} {clock : Nat}
    (hdir : Generated dir clock)
    (hothers : ∀ e ∈ others, DatabaseFile.fromPath e.path = some none) :
    (dir ++ others).filter isTaken = dir := by
  have htaken : ∀ e ∈ dir, isTaken e = true := by
    intro e he
    obtain ⟨ts, _, hname | hname⟩ := hdir.named e he
    · rw [hname]
      exact isTaken_true (ne_of_eq_of_ne (fromPath_sstable ts) (by simp))
    · rw [hname]
      exact isTaken_true (ne_of_eq_of_ne (fromPath_wal ts) (by simp))
  have hskipped : others.filter isTaken = [] := by
    apply List.filter_eq_nil_iff.mpr
    intro e he
    rw [isTaken_false (hothers e he)]
    exact Bool.false_ne_true
  rw [List.filter_append, List.filter_eq_self.mpr htaken, hskipped, List.append_nil]

namespace Session

/-- However the directory of a run is listed, and whatever files that are not the database's it also
has, a restart makes the same database of it and replays the same records. -/
theorem restart_any_listing {c : Config} {found : List WalArtifact → Prop}
    {dir dir' others : List DirEntry} {clock : Nat}
    (h : Runs c Unrestricted found (.down dir clock))
    (hothers : ∀ e ∈ others, DatabaseFile.fromPath e.path = some none)
    (hlisted : dir'.Perm (dir ++ others)) (stamps : WalArtifact → LsmliteInner.Stamp)
    (fresh : LsmliteInner.Stamp) :
    Engine.reopen c dir' clock stamps fresh = Engine.reopen c dir clock stamps fresh ∧
      recoveredLogs dir' = recoveredLogs dir := by
  have hdir : Generated dir clock := h.stamped
  have hperm : (dir'.filter isTaken).Perm dir := by
    have hfiltered := hlisted.filter isTaken
    rwa [hdir.filter_taken hothers] at hfiltered
  apply reopen_congr
  · rw [← scanDirectory_taken dir']
    exact hdir.scan_perm hperm
  · intro sstables wals hscan
    have hsame := hdir.sameFiles hperm hscan
    obtain ⟨_, _, hlists⟩ := hdir.lists hscan
    rw [hlists.onlyEngineNames.scanDirectory] at hscan
    cases hscan
    constructor
    · intro a ha
      have hfile := (mem_engineSstables ((newestFirst_perm _ _).mem_iff.mp ha)).1
      have hkind : DatabaseFile.fromPath a.filename ≠ some none := by
        rw [hfile, fromPath_sstable]
        simp
      rw [← readPath_taken dir' hkind]
      exact hsame.sstable a ha
    · intro w hw
      have hfile := (mem_engineWals ((newestFirst_perm _ _).mem_iff.mp hw)).1
      have hkind : DatabaseFile.fromPath w.filename ≠ some none := by
        rw [hfile, fromPath_wal]
        simp
      rw [← readPath_taken dir' hkind]
      exact hsame.wal w hw

/-- Two writes, the first of them flushed. -/
def mixedRun : List Engine.Action :=
  [.spawn] ++ Engine.writeSteps 0 [97] [1] ++ Engine.swapSteps 0 [98] [2] 1 ++
    [.client 0 .append, .client 0 .signal] ++ Engine.flushCycle 2

/-- A text file; its name is not UTF-8. -/
def notesEntry : DirEntry := ⟨255 :: ascii ['n', 'o', 't', 'e', 's', '.', 't', 'x', 't'], true, []⟩

/-- An SSTable and a log, listed the other way round with a text file between them. -/
theorem restart_any_listing_mixed :
    ∃ (table log notes : DirEntry) (clock : Nat) (e : Engine),
    Runs Engine.tinyConfig Unrestricted (fun _ => True) (.down [table, log] clock) ∧
      Engine.reopen Engine.tinyConfig [table, log] clock (fun _ => ⟨4, 0⟩) ⟨3, 0⟩ = some e ∧
      Engine.reopen Engine.tinyConfig [log, notes, table] clock (fun _ => ⟨4, 0⟩) ⟨3, 0⟩ =
        some e := by
  have hrun :
      (Engine.runActions Engine.tinyConfig (fun _ _ => True) (Engine.start Engine.tinyConfig ⟨0, 0⟩)
      mixedRun).map (fun e => decide (e.disk.length = 2 ∧
        (Engine.reopen Engine.tinyConfig e.disk e.clock (fun _ => ⟨4, 0⟩) ⟨3, 0⟩).isSome = true)) =
            some true := by
    decide +kernel
  obtain ⟨e, he, hfacts⟩ := Option.map_eq_some_iff.mp hrun
  obtain ⟨hlength, hopens⟩ := of_decide_eq_true hfacts
  obtain ⟨table, log, hdisk⟩ := List.length_eq_two.mp hlength
  obtain ⟨db, hdb⟩ := Option.isSome_iff_exists.mp hopens
  have hreach :
      Runs Engine.tinyConfig Unrestricted (fun _ => True) (.down [table, log] e.clock) := by
    rw [← hdisk]
    exact ((Runs.start ⟨0, 0⟩).run he).crash
  have hothers : ∀ d ∈ [notesEntry], DatabaseFile.fromPath d.path = some none := by decide +kernel
  have hlisted : [log, notesEntry, table].Perm ([table, log] ++ [notesEntry]) :=
    @List.perm_append_comm _ [log, notesEntry] [table]
  rw [hdisk] at hdb
  have hsame := restart_any_listing hreach hothers hlisted (fun _ => ⟨4, 0⟩) ⟨3, 0⟩
  exact ⟨table, log, _, e.clock, db, hreach, hdb, hsame.1.trans hdb⟩

end Session

end Lsmlite
