import Lsmlite.FileReads
import Lsmlite.LiveLogs
import Lsmlite.RestartMap

/-!
# The order of the tables in the cache

The cache of a run is in the order of the files' timestamps, newest first, and so is the cache that
a restart makes from the files.
-/

namespace Lsmlite

/-! ## The cache made again from the files of its tables -/

/-- The table of a file, its descriptor read further. -/
def SSTable.Of (s : SSTable) (content : Blob) : Prop :=
  ∃ opened, loadTable content = some opened ∧ opened.ReadOn s

/-- The tables of a cache and the files they were opened from. -/
def OpenedFrom (cache : List SSTable) (fs : List SstFile) : Prop :=
  List.Forall₂ (fun s (f : SstFile) => s.Of f.content) cache fs

theorem SSTable.Of.readOn {s s' : SSTable} {content : Blob} (h : s.Of content)
    (hread : s.ReadOn s') :
    s'.Of content := by
  obtain ⟨opened, hload, hopened⟩ := h
  exact ⟨opened, hload, hopened.trans hread⟩

theorem OpenedFrom.readOn {cache cache' : List SSTable} {fs : List SstFile}
    (h : OpenedFrom cache fs) (hread : List.Forall₂ SSTable.ReadOn cache cache') :
    OpenedFrom cache' fs := by
  induction h generalizing cache' with
  | nil =>
    cases hread
    exact .nil
  | cons hs _ ih =>
    cases hread with
    | cons hread hrest => exact .cons (hs.readOn hread) (ih hrest)

theorem of_fromFd {content : Blob} {s : SSTable}
    (h : SSTable.fromFd (.opened content []) = some (.ok s)) :
    s.Of content := by
  refine ⟨s, ?_, .refl s⟩
  rw [loadTable, h]
  rfl

/-- A compaction opens the file it wrote. -/
theorem of_runCompaction {h : Hashing} {iters : List SSTableIterator} {ts : Nat}
    {faults : List IoResult} {s : SSTable} {path : PathBuf}
    (hrun : runCompaction h iters ts faults = some (s, path)) :
    s.Of s.fd.content := by
  simp only [runCompaction, Option.bind_eq_bind, Option.bind_eq_some_iff] at hrun
  obtain ⟨r, _, hrun⟩ := hrun
  cases r with
  | error e => cases hrun
  | ok writer =>
    obtain ⟨writer', _, hrun⟩ := Option.bind_eq_some_iff.mp hrun
    obtain ⟨⟨r', file⟩, _, hrun⟩ := Option.bind_eq_some_iff.mp hrun
    cases r' with
    | error e => cases hrun
    | ok newTablePath =>
      obtain ⟨r'', htable, hrun⟩ := Option.bind_eq_some_iff.mp hrun
      cases r'' with
      | error e => cases hrun
      | ok sstable =>
        cases hrun
        have hcontent : s.fd.content = file.content := (SSTable.fromFd_readOn htable).content
        rw [hcontent]
        exact of_fromFd htable

/-- A file with a readable name. -/
def StoredFile.file (f : StoredFile) : SstFile := ⟨f.ts, f.content⟩

theorem OpenedFrom.load {cache : List SSTable} {fs : List SstFile} (h : OpenedFrom cache fs) :
    ∃ opened, (fs.map (·.content)).mapM loadTable = some opened ∧
      List.Forall₂ SSTable.ReadOn opened cache := by
  induction h with
  | nil => exact ⟨[], rfl, .nil⟩
  | cons hs _ ih =>
    obtain ⟨s, hload, hread⟩ := hs
    obtain ⟨opened, hopened, hreads⟩ := ih
    refine ⟨s :: opened, ?_, .cons hread hreads⟩
    simp only [List.map_cons, List.mapM_cons, hload, hopened, Option.bind_eq_bind, Option.bind_some,
      Option.pure_def]

/-- Where the files of a cache are newest first, a restart from a listing of them in any order makes
the cache again. -/
theorem OpenedFrom.restartCache {cache : List SSTable} {fs : List SstFile}
    (h : OpenedFrom cache fs) (hsorted : fs.Pairwise fun f g => g.ts < f.ts) {dir : List DirEntry}
    {files wals : List StoredFile} (hlists : Lists dir files wals) (hdistinct : Distinct dir)
    (hperm : (files.map StoredFile.file).Perm fs) (compactionRate : Nat) :
    ∃ opened, Lsmlite.restartCache dir compactionRate = some ⟨opened, compactionRate⟩ ∧
      List.Forall₂ SSTable.ReadOn opened cache := by
  have hnodup : ((files.map StoredFile.file).map SstFile.ts).Nodup := by
    rw [(hperm.map _).nodup_iff]
    exact List.pairwise_map.mpr (hsorted.imp Nat.ne_of_gt)
  have hfiles : newestFirst SstFile.ts (files.map StoredFile.file) = fs :=
    newestFirst_eq SstFile.ts hnodup hperm.symm (hsorted.imp Nat.le_of_lt)
  rw [newestFirst_map] at hfiles
  have hstored : ∀ f ∈ newestFirst StoredFile.ts files,
      sstableEntry f.ts f.content ∈ dir := fun f hf =>
    hlists.sstable_mem ((newestFirst_perm StoredFile.ts files).mem_iff.mp hf)
  have hcontents :
      (newestFirst StoredFile.ts files).map StoredFile.content = fs.map (·.content) := by
    rw [← hfiles, List.map_map]
    rfl
  obtain ⟨opened, hopened, hreads⟩ := h.load
  refine ⟨opened, ?_, hreads⟩
  rw [Lsmlite.restartCache, hlists.scanDirectory, Option.bind_eq_bind, Option.bind_some]
  simp only [loadTables, mapM_contents hdistinct hstored, Option.bind_eq_bind, Option.bind_some]
  rw [fromRestart_eq, hcontents, hopened]
  rfl

/-! ## The files behind the cache of a run -/

/-- The timestamp of the file the flush task works on. -/
def Flusher.stamp : Flusher → List Nat
  | .created ts => [ts]
  | .writing ts _ => [ts]
  | .written ts _ => [ts]
  | .sending ts => [ts]
  | _ => []

namespace Engine

/-- The files on their way to the cache. -/
def stampsUnderWay (e : Engine) : List Nat := e.flusher.stamp ++ e.loads ++ e.compactor.ready

/-- The files that the tables of the cache were opened from, front first, behind a step. -/
def openedBehind (e : Engine) (a : Action) (fs : List SstFile) : List SstFile :=
  match a, e.compactor with
  | .background .pushTable, .loading ts => (e.files.find? (·.ts = ts)).toList ++ fs
  | .background .replaceTables, .replacing ts _ => (e.files.find? (·.ts = ts)).toList
  | _, _ => fs

/-- The tables of the cache are those of the files `fs`, newest first, and newer files are under
way. -/
structure InFileOrder (e : Engine) (fs : List SstFile) : Prop where
  opened : OpenedFrom e.sstableCache.cache fs
  sorted : fs.Pairwise fun f g => g.ts < f.ts
  le : ∀ f ∈ fs, f.ts ≤ e.clock
  current : ∀ f ∈ fs, ∀ g ∈ e.files, g.ts = f.ts → g = f
  newer : ∀ ts ∈ e.stampsUnderWay, ts ≤ e.clock ∧ ∀ f ∈ fs, f.ts < ts
  merged : ∀ ts s, e.compactor = .replacing ts s → ∃ f, e.files.find? (·.ts = ts) = some f ∧
    s.Of f.content

theorem in_file_order_start (c : Config) (stamp : LsmliteInner.Stamp) :
    InFileOrder (start c stamp) [] where
  opened := .nil
  sorted := .nil
  le := by nofun
  current := by nofun
  newer := by nofun
  merged := by nofun

/-- A step that leaves the cache's tables and their files. -/
theorem InFileOrder.moved {e e' : Engine} {fs : List SstFile} (h : e.InFileOrder fs)
    (hclock : e.clock ≤ e'.clock)
    (hcache : List.Forall₂ SSTable.ReadOn e.sstableCache.cache e'.sstableCache.cache)
    (hfiles : ∀ f ∈ fs, ∀ g ∈ e'.files, g.ts = f.ts → g ∈ e.files)
    (hnewer : ∀ ts ∈ e'.stampsUnderWay, ts ∈ e.stampsUnderWay ∨ e.clock < ts ∧ ts ≤ e'.clock)
    (hmerged : ∀ ts s, e'.compactor = .replacing ts s →
      ∃ f, e'.files.find? (·.ts = ts) = some f ∧ s.Of f.content) : e'.InFileOrder fs where
  opened := h.opened.readOn hcache
  sorted := h.sorted
  le f hf := (h.le f hf).trans hclock
  current f hf g hg hts := h.current f hf g (hfiles f hf g hg hts) hts
  newer ts hts := by
    rcases hnewer ts hts with hold | ⟨hlt, hle⟩
    · exact ⟨(h.newer ts hold).1.trans hclock, (h.newer ts hold).2⟩
    · exact ⟨hle, fun f hf => (h.le f hf).trans_lt hlt⟩
  merged := hmerged

theorem readOn_same (tables : List SSTable) : List.Forall₂ SSTable.ReadOn tables tables :=
  List.forall₂_same.mpr fun s _ => .refl s

/-- A step that leaves the cache and the files. -/
theorem InFileOrder.unmoved {e e' : Engine} {fs : List SstFile} (h : e.InFileOrder fs)
    (hclock : e.clock ≤ e'.clock) (hcache : e'.sstableCache = e.sstableCache)
    (hfiles : e'.files = e.files)
    (hnewer : ∀ ts ∈ e'.stampsUnderWay, ts ∈ e.stampsUnderWay ∨ e.clock < ts ∧ ts ≤ e'.clock)
    (hmerged : ∀ ts s, e'.compactor = .replacing ts s → e.compactor = .replacing ts s) :
    e'.InFileOrder fs := by
  apply h.moved hclock
  · rw [hcache]
    exact readOn_same _
  · intro f _ g hg _
    exact hfiles ▸ hg
  · exact hnewer
  · intro ts s hc
    rw [hfiles]
    exact h.merged ts s (hmerged ts s hc)

/-- A step of the flush task that writes to its file. -/
theorem InFileOrder.writing {e e' : Engine} {fs : List SstFile} (h : e.InFileOrder fs)
    (hone : e.OneLoad) {ts table : Nat} {content : Blob} (hf : e.flusher = .writing ts table)
    (hfiles : e'.files = putFile e.files ts content) (hclock : e'.clock = e.clock)
    (hcache : e'.sstableCache = e.sstableCache)
    (hnewer : ∀ ts ∈ e'.stampsUnderWay, ts ∈ e.stampsUnderWay ∨ e.clock < ts ∧ ts ≤ e'.clock)
    (hcompactor : e'.compactor = e.compactor) : e'.InFileOrder fs := by
  have hts : ts ∈ e.stampsUnderWay := by
    rw [stampsUnderWay, hf]
    exact List.mem_append_left _ (List.mem_append_left _ (List.mem_singleton_self ts))
  obtain ⟨_, hidle, _⟩ := hone.of_flusher (by simp [hf]) (by simp [hf])
  apply h.moved hclock.ge
  · rw [hcache]
    exact readOn_same _
  · intro f hmem g hg hgts
    rw [hfiles] at hg
    obtain ⟨g', hg', rfl⟩ := List.mem_map.mp hg
    by_cases hwritten : g'.ts = ts
    · have hlt := (h.newer ts hts).2 f hmem
      rw [if_pos hwritten] at hgts
      dsimp only at hgts
      omega
    · rwa [if_neg hwritten]
  · exact hnewer
  · intro ts' s hc
    rw [← hcompactor, hc] at hidle
    cases hidle

theorem mem_find {files : List SstFile} {ts : Nat} {f : SstFile}
    (h : files.find? (·.ts = ts) = some f) :
    f ∈ files ∧ f.ts = ts :=
  ⟨List.mem_of_find?_eq_some h, by simpa using List.find?_some h⟩

/-- Files of distinct timestamps. -/
theorem eq_of_ts {files : List SstFile} (h : (files.map (·.ts)).Nodup) {f g : SstFile}
    (hf : f ∈ files) (hg : g ∈ files) (hts : g.ts = f.ts) : g = f :=
  List.inj_on_of_nodup_map h hg hf hts

/-- A file on its way was on its way or is new. -/
theorem step_stampsUnderWay {c : Config} {e e' : Engine} {a : Action} (hs : step c e a = some e')
    {ts : Nat} (hts : ts ∈ e'.stampsUnderWay) :
    ts ∈ e.stampsUnderWay ∨ e.clock < ts ∧ ts ≤ e'.clock := by
  unfold stampsUnderWay loads at hts ⊢
  cases step_cases hs with
  | spawn hopen => exact Or.inl hts
  | drop hopen hidle =>
    left
    simpa [CompactionSignal.ts] using hts
  | client hc =>
    left
    have hsame := hc.tasks_same
    rwa [hsame.flusher, hsame.signal, hsame.compactor] at hts
  | background hb =>
    cases hb with
    | createFile hf hlt =>
      rcases List.mem_append.mp hts with hts | hready
      · rcases List.mem_append.mp hts with hnew | hload
        · obtain rfl := List.mem_singleton.mp hnew
          exact Or.inr ⟨hlt, Nat.le_refl _⟩
        · exact Or.inl (List.mem_append_left _ (List.mem_append_right _ hload))
      · exact Or.inl (List.mem_append_right _ hready)
    | sendLoad hf =>
      left
      simp only [Flusher.stamp, hf, List.filterMap_append, List.mem_append] at hts ⊢
      simp only [CompactionSignal.ts, List.filterMap_cons,
        List.filterMap_nil, List.not_mem_nil] at hts
      tauto
    | receiveLoad hc hch =>
      left
      simp only [hch, hc, List.filterMap_cons, CompactionSignal.ts, Compactor.ready,
        List.mem_append, List.mem_cons, List.not_mem_nil, or_false] at hts ⊢
      tauto
    | stopCompactor hc hch =>
      left
      simpa [hc, hch, Compactor.ready, CompactionSignal.ts] using hts
    | popTable hc =>
      left
      dsimp only at hts
      split at hts <;> simpa [hc, Compactor.ready] using hts
    | writePart hf ht hcontent => exact Or.inl hts
    | receiveFlush hf hch | takeFront hf hq | finishFile hf ht hcontent
    | removeWal hf ht | receiveAck hf hack
    | ackLost hf hack hc | stopFlusher hf hch =>
      left
      simpa [hf, Flusher.stamp] using hts
    | pushTable hc hfile htable =>
      left
      simp only [hc, Compactor.ready, List.append_nil] at hts ⊢
      exact List.mem_append_left _ hts
    | compact hc hlt hiters htable | replaceTables hc | removeStale hc | sendAck hc =>
      left
      simpa [hc, Compactor.ready] using hts

theorem in_file_order_step {c : Config} {e e' : Engine} {a : Action} {fs : List SstFile}
    (h : e.InFileOrder fs) (hstamped : e.Stamped) (hone : e.OneLoad) (hs : step c e a = some e') :
    e'.InFileOrder (e.openedBehind a fs) := by
  have hnewer : ∀ ts ∈ e'.stampsUnderWay, ts ∈ e.stampsUnderWay ∨ e.clock < ts ∧ ts ≤ e'.clock :=
      fun ts hts =>
    step_stampsUnderWay hs hts
  cases step_cases hs with
  | spawn hopen => exact h.unmoved (Nat.le_refl _) rfl rfl hnewer fun _ _ hc => hc
  | drop hopen hidle => exact h.unmoved (Nat.le_refl _) rfl rfl hnewer fun _ _ hc => hc
  | client hc =>
    have hsame := hc.tasks_same
    refine h.moved hsame.clock ?_ (fun _ _ g hg _ => hsame.files ▸ hg) hnewer ?_
    · cases hc with
      | readSstables hi hr => exact SSTableCache.search_readOn hr
      | @readMemtable key before table q hi htable hq =>
        cases LsmliteInner.readQuery q <;> exact readOn_same _
      | @readImmutable key before queue q hi hqueue hq =>
        cases LsmliteInner.readQuery q <;> exact readOn_same _
      | _ => exact readOn_same _
    · rw [hsame.compactor, hsame.files]
      exact h.merged
  | background hb =>
    cases hb with
    | receiveFlush hf hch => exact h.unmoved (Nat.le_refl _) rfl rfl hnewer fun _ _ hc => hc
    | @createFile ts hf hts =>
      obtain ⟨_, hidle, _⟩ := hone.of_flusher (by simp [hf]) (by simp [hf])
      refine h.moved (Nat.le_of_lt hts) (readOn_same _) ?_ hnewer ?_
      · intro f hmem g hg hgts
        have hle := h.le f hmem
        rcases List.mem_append.mp hg with hg | hg
        · exact hg
        · rw [List.mem_singleton.mp hg] at hgts
          dsimp only at hgts
          omega
      · intro ts' s hc
        have hc' : e.compactor = .replacing ts' s := hc
        rw [hc'] at hidle
        cases hidle
    | takeFront hf hq => exact h.unmoved (Nat.le_refl _) rfl rfl hnewer fun _ _ hc => hc
    | writePart hf ht hcontent =>
      exact h.writing hone hf rfl rfl rfl hnewer rfl
    | finishFile hf ht hcontent => exact h.writing hone hf rfl rfl rfl hnewer rfl
    | removeWal hf ht => exact h.unmoved (Nat.le_refl _) rfl rfl hnewer fun _ _ hc => hc
    | sendLoad hf => exact h.unmoved (Nat.le_refl _) rfl rfl hnewer fun _ _ hc => hc
    | receiveAck hf hack => exact h.unmoved (Nat.le_refl _) rfl rfl hnewer fun _ _ hc => hc
    | ackLost hf hack hc => exact h.unmoved (Nat.le_refl _) rfl rfl hnewer fun _ _ hc => hc
    | stopFlusher hf hch => exact h.unmoved (Nat.le_refl _) rfl rfl hnewer fun _ _ hc => hc
    | receiveLoad hc hch => exact h.unmoved (Nat.le_refl _) rfl rfl hnewer (by simp)
    | @pushTable ts f table hc hfile htable =>
      obtain ⟨hf, hloads, _⟩ := hone.of_busy (by rw [hc]; rfl)
      obtain ⟨hmem, hts⟩ := mem_find hfile
      have hnew : ts ∈ e.stampsUnderWay := by
        rw [stampsUnderWay, hc]
        exact List.mem_append_right _ (List.mem_singleton_self ts)
      obtain ⟨hle, hnewer⟩ := h.newer ts hnew
      have hfs : e.openedBehind (.background .pushTable) fs = f :: fs := by
        simp only [openedBehind, hc, hfile, Option.toList_some, List.singleton_append]
      rw [hfs]
      refine ⟨.cons (of_fromFd htable) h.opened, ?_, ?_, ?_, ?_, by simp⟩
      · exact List.pairwise_cons.mpr ⟨fun g hg => hts.symm ▸ hnewer g hg, h.sorted⟩
      · intro g hg
        rcases List.mem_cons.mp hg with rfl | hg
        · exact hts.symm ▸ hle
        · exact h.le g hg
      · intro g hg
        rcases List.mem_cons.mp hg with rfl | hg
        · exact fun g' hg' hts' => eq_of_ts hstamped.files_nodup hmem hg' hts'
        · exact h.current g hg
      · intro ts' hts'
        unfold loads at hloads
        simp [stampsUnderWay, loads, hf, hloads, Flusher.stamp, Compactor.ready] at hts'
    | @popTable currentLen hc =>
      refine h.unmoved (Nat.le_refl _) rfl rfl hnewer fun ts s hc' => ?_
      dsimp only at hc'
      split at hc' <;> cases hc'
    | @compact ts iters cache table path hc hts hiters htable =>
      refine h.moved (Nat.le_of_lt hts) (tablesToIterators_readOn hiters) ?_ hnewer ?_
      · intro f hmem g hg hgts
        have hle := h.le f hmem
        rcases List.mem_append.mp hg with hg | hg
        · exact hg
        · rw [List.mem_singleton.mp hg] at hgts
          dsimp only at hgts
          omega
      · intro ts' s hc'
        cases hc'
        refine ⟨⟨ts, table.fd.content⟩, ?_, of_runCompaction htable⟩
        have hnone : e.files.find? (·.ts = ts) = none := by
          rw [List.find?_eq_none]
          intro g hg
          have hle := hstamped.files_le g hg
          simp only [decide_eq_true_eq]
          omega
        rw [List.find?_append, hnone]
        simp
    | @replaceTables ts table hc =>
      obtain ⟨hf, hloads, _⟩ := hone.of_busy (by rw [hc]; rfl)
      obtain ⟨f, hfile, htable⟩ := h.merged ts table hc
      obtain ⟨hmem, hts⟩ := mem_find hfile
      have hfs : e.openedBehind (.background .replaceTables) fs = [f] := by
        simp only [openedBehind, hc, hfile, Option.toList_some]
      rw [hfs]
      refine ⟨.cons htable .nil, List.pairwise_singleton _ _, ?_, ?_, ?_, by simp⟩
      · intro g hg
        rw [List.mem_singleton.mp hg]
        exact hstamped.files_le f hmem
      · intro g hg g' hg' hts'
        rw [List.mem_singleton.mp hg] at hts' ⊢
        exact eq_of_ts hstamped.files_nodup hmem hg' hts'
      · intro ts' hts'
        unfold loads at hloads
        simp [stampsUnderWay, loads, hf, hloads, Flusher.stamp, Compactor.ready] at hts'
    | removeStale hc =>
      exact h.moved (Nat.le_refl _) (readOn_same _) (fun _ _ g hg _ =>
        (List.mem_filter.mp hg).1) hnewer (by simp)
    | sendAck hc => exact h.unmoved (Nat.le_refl _) rfl rfl hnewer (by simp)
    | stopCompactor hc hch => exact h.unmoved (Nat.le_refl _) rfl rfl hnewer (by simp)

/-- The files of a restart, in the order of its scan. -/
theorem files_of_scan {dir : List DirEntry} (hdistinct : Distinct dir) {files : List StoredFile}
    (hfiles : ∀ f ∈ files, sstableEntry f.ts f.content ∈ dir) :
    (files.map StoredFile.sstable).mapM (fun a => (readPath dir a.filename).map (SstFile.mk a.ts)) =
      some (files.map StoredFile.file) := by
  induction files with
  | nil => rfl
  | cons f files ih =>
    have hread : readPath dir f.sstable.filename = some f.content :=
      readPath_entry hdistinct (hfiles f (List.mem_cons_self ..))
    have hrest := ih fun f' hf' => hfiles f' (List.mem_cons_of_mem _ hf')
    simp only [List.map_cons, List.mapM_cons, hread, hrest, Option.map_some, Option.bind_eq_bind,
      Option.bind_some, Option.pure_def]
    rfl

theorem of_loadTable {content : Blob} {s : SSTable} (h : loadTable content = some s) :
    s.Of content :=
  ⟨s, h, .refl s⟩

theorem Reopened.in_file_order {c : Config} {dir : List DirEntry} {clock : Nat}
    {sstables : List SSTableArtifact} {wals : List WalArtifact}
    {stamps : WalArtifact → LsmliteInner.Stamp} {fresh : LsmliteInner.Stamp} {e : Engine}
    (h : Reopened c dir clock sstables wals stamps fresh e) (hdir : Generated dir clock) :
    e.InFileOrder e.files := by
  obtain ⟨hsorted, hle⟩ := h.found hdir
  have hstamped := h.stamped hdir
  refine ⟨?_, ?_, hstamped.files_le, fun f hf g hg => eq_of_ts hstamped.files_nodup hf hg, ?_, ?_⟩
  · obtain ⟨files, logs, hlists⟩ := hdir.lists h.scanned
    have hscan := hlists.scanDirectory.symm.trans h.scanned
    simp only [Option.some.injEq, Prod.mk.injEq] at hscan
    obtain ⟨rfl, _⟩ := hscan
    have hstored : ∀ f ∈ newestFirst StoredFile.ts files,
        sstableEntry f.ts f.content ∈ dir := fun f hf =>
      hlists.sstable_mem ((newestFirst_perm StoredFile.ts files).mem_iff.mp hf)
    have hfiles := (files_of_scan hdir.pairwise hstored).symm.trans h.contents
    have hcache := (hlists.constructSstableCache hdir.pairwise c.lsmlite).symm.trans h.cache
    obtain ⟨tables, htables, hmade⟩ := Option.map_eq_some_iff.mp hcache
    rw [← Option.some.inj hfiles, ← hmade]
    refine List.forall₂_map_right_iff.mpr ?_
    exact (mapM_some htables).flip.imp fun s f hload => of_loadTable hload
  · exact List.pairwise_map.mp (h.files ▸ hsorted)
  · intro ts hts
    simp [stampsUnderWay, loads, h.flusher, h.signal, h.compactor,
      Flusher.stamp, Compactor.ready] at hts
  · intro ts s hc
    rw [h.compactor] at hc
    cases hc

end Engine

namespace Session

/-- The runs, each with the files that the tables of its cache were opened from, front first. -/
inductive Opens (c : Config) : Session → List SstFile → Prop
  | start (stamp : LsmliteInner.Stamp) : Opens c (.up (Engine.start c stamp) []) []
  | step {e e' : Engine} {recovered : List Entries} {fs : List SstFile} {a : Engine.Action}
      (h : Opens c (.up e recovered) fs) (hs : Engine.step c e a = some e') :
    Opens c (.up e' recovered) (e.openedBehind a fs)
  | crash {e : Engine} {recovered : List Entries} {fs : List SstFile}
      (h : Opens c (.up e recovered) fs) :
    Opens c (.down e.disk e.clock) []
  /-- A restart opens the files it found, in the order of its scan. -/
  | restart {dir : List DirEntry} {clock : Nat} {stamps : WalArtifact → LsmliteInner.Stamp}
      {fresh : LsmliteInner.Stamp} {e : Engine} {recovered : List Entries} {fs : List SstFile}
      (h : Opens c (.down dir clock) fs) (hs : Engine.reopen c dir clock stamps fresh = some e)
      (hlogs : recoveredLogs dir = some recovered) :
    Opens c (.up e recovered) e.files
  | interrupted {dir kept : List DirEntry} {clock clock' : Nat} {made : List Nat}
      {fs : List SstFile}
      (h : Opens c (.down dir clock) fs) (hkept : kept.Sublist dir)
      (hlogs : ∀ e ∈ dir, e ∉ kept → isLog e = true) (hclock : clock ≤ clock')
      (hmade : ∀ ts ∈ made, clock < ts ∧ ts ≤ clock') (hnodup : made.Nodup) :
    Opens c (.down (kept ++ made.map fun ts => walEntry ts []) clock') []

/-- These are all runs. -/
theorem Runs.opens {c : Config} {s : Session} (h : Runs c Unrestricted (fun _ => True) s) :
    ∃ fs, Opens c s fs := by
  induction h with
  | start stamp => exact ⟨_, .start stamp⟩
  | step _ _ hs ih => exact ih.imp' _ fun _ h => h.step hs
  | crash _ ih => exact ⟨_, ih.choose_spec.crash⟩
  | restart _ _ _ hs hlogs ih => exact ⟨_, ih.choose_spec.restart hs hlogs⟩
  | interrupted _ hkept hlogs hclock hmade hnodup ih =>
    exact ⟨_, ih.choose_spec.interrupted hkept hlogs hclock hmade hnodup⟩

/-- What holds of a run and the files of its cache. -/
def InFileOrder (fs : List SstFile) : Session → Prop
  | up e _ => e.Stamped ∧ e.OneLoad ∧ e.InFileOrder fs
  | down dir clock => Generated dir clock

theorem Opens.in_file_order {c : Config} {s : Session} {fs : List SstFile} (h : Opens c s fs) :
    s.InFileOrder fs := by
  induction h with
  | start stamp =>
    exact ⟨Engine.stamped_start c stamp, Engine.one_load_start c stamp,
      Engine.in_file_order_start c stamp⟩
  | step _ hs ih =>
    obtain ⟨hstamped, hone, horder⟩ := ih
    exact ⟨Engine.stamped_step hstamped hs, Engine.one_load_step hone hs,
      Engine.in_file_order_step horder hstamped hone hs⟩
  | crash _ ih => exact ih.1.generated
  | restart _ hs _ ih =>
    obtain ⟨_, _, hreopened⟩ := Engine.reopen_some hs
    exact ⟨hreopened.stamped ih, hreopened.one_load, hreopened.in_file_order ih⟩
  | interrupted _ hkept _ hclock hmade hnodup ih =>
    exact generated_interrupted ih hkept hclock hmade hnodup

/-- The tables of the cache are in the order of their files' timestamps, newest first, and a restart
from those files makes the cache again. -/
theorem cache_newest_first {c : Config} {e : Engine} {recovered : List Entries} {fs : List SstFile}
    (h : Opens c (.up e recovered) fs) :
    OpenedFrom e.sstableCache.cache fs ∧ (fs.Pairwise fun f g => g.ts < f.ts) ∧
      (∀ f ∈ fs, ∀ g ∈ e.files, g.ts = f.ts → g = f) ∧
      ∀ dir files wals, Lists dir files wals → Distinct dir → (files.map StoredFile.file).Perm fs →
        ∃ opened, restartCache dir e.sstableCache.compactionRate =
            some ⟨opened, e.sstableCache.compactionRate⟩ ∧
          List.Forall₂ SSTable.ReadOn opened e.sstableCache.cache := by
  obtain ⟨_, _, horder⟩ := h.in_file_order
  refine ⟨horder.opened, horder.sorted, horder.current,
    fun dir files wals hlists hdistinct hperm => ?_⟩
  exact horder.opened.restartCache horder.sorted hlists hdistinct hperm _

def openedRun (c : Config) (e : Engine) (fs : List SstFile) (actions : List Engine.Action) :
    Option (Engine × List SstFile) :=
  actions.foldlM (fun (e, fs) a => (Engine.step c e a).map fun e' =>
    (e', e.openedBehind a fs)) (e, fs)

theorem Opens.run {c : Config} {actions : List Engine.Action} {e e' : Engine}
    {recovered : List Entries} {fs fs' : List SstFile} (h : Opens c (.up e recovered) fs)
    (hr : openedRun c e fs actions = some (e', fs')) : Opens c (.up e' recovered) fs' := by
  induction actions generalizing e fs with
  | nil =>
    cases hr
    exact h
  | cons a actions ih =>
    simp only [openedRun, List.foldlM_cons, Option.bind_eq_bind, Option.bind_eq_some_iff] at hr
    obtain ⟨⟨e1, fs1⟩, h1, hr⟩ := hr
    obtain ⟨e2, hs, heq⟩ := Option.map_eq_some_iff.mp h1
    cases heq
    exact ih (h.step hs) hr

/-- A write that finds the table full, and the flush of that table. -/
def flushSteps (key value : Blob) (logTs ts : Nat) : List Engine.Action :=
  Engine.swapSteps 0 key value logTs ++
    [.client 0 .append, .client 0 .signal, .client 0 (.retry ⟨0, 0⟩),
    .background .receiveFlush, .background (.createFile ts),
      .background .takeFront, .background .finishFile,
    .background .removeWal, .background .sendLoad, .background .receiveLoad, .background .pushTable,
    .background .popTable, .background .sendAck, .background .receiveAck]

/-- Two flushes, one before a crash and one behind the restart. -/
def flushedRun : Option (Engine × List Entries × List SstFile) := do
  let (e, _) ← openedRun Engine.tinyConfig (Engine.start Engine.tinyConfig ⟨0, 0⟩) []
    ([.spawn] ++ Engine.writeSteps 0 [97] [1] ++ flushSteps [98] [2] 1 2)
  let e' ← Engine.reopen Engine.tinyConfig e.disk e.clock (fun _ => ⟨3, 0⟩) ⟨3, 0⟩
  let recovered ← recoveredLogs e.disk
  let (e'', fs) ← openedRun Engine.tinyConfig e' e'.files
    ([.spawn] ++ Engine.writeSteps 0 [99] [3] ++ flushSteps [100] [4] 4 5)
  return (e'', recovered, fs)

theorem cache_newest_first_flushed :
    ∃ e recovered fs, Opens Engine.tinyConfig (.up e recovered) fs ∧
    fs.map (·.ts) = [5, 2] ∧ fs.Pairwise fun f g => g.ts < f.ts := by
  have hrun : flushedRun.map (fun r => r.2.2.map (·.ts)) = some [5, 2] := by decide +kernel
  obtain ⟨⟨e, recovered, fs⟩, he, hfs⟩ := Option.map_eq_some_iff.mp hrun
  simp only [flushedRun, Option.bind_eq_bind, Option.bind_eq_some_iff] at he
  obtain ⟨⟨e1, fs1⟩, h1, e2, h2, recovered', hrec, ⟨e3, fs3⟩, h3, heq⟩ := he
  cases heq
  have hopens := (((Opens.start ⟨0, 0⟩).run h1).crash.restart h2 hrec).run h3
  exact ⟨_, _, _, hopens, hfs, (cache_newest_first hopens).2.1⟩

end Session

end Lsmlite
