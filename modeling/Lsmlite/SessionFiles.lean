import Lsmlite.Lib.Pairing
import Lsmlite.Replay
import Lsmlite.RestartFiles
import Lsmlite.Sessions

/-!
# The files of a run

Every file of a run has a generated name, made no later than the clock says, and no two have the
same. So what a restart scans is what the run has left.
-/

namespace Lsmlite
open KeyValue

/-! ## Directories with generated names -/

/-- Every file has a generated name, made by `clock`, and no two have the same. -/
structure Generated (dir : List DirEntry) (clock : Nat) : Prop where
  named : ∀ d ∈ dir, ∃ ts ≤ clock, d = sstableEntry ts d.content ∨ d = walEntry ts d.content
  distinct : (dir.map (·.name)).Nodup

theorem fileName_generated {d : DirEntry} {ts : Nat}
    (h : d = sstableEntry ts d.content ∨ d = walEntry ts d.content) :
    Path.fileName d.path = some d.name := by
  rcases h with h | h
  · rw [h]
    exact fileName_sstable ts
  · rw [h]
    exact fileName_wal ts

/-- Different names are different paths. -/
theorem Generated.pairwise {dir : List DirEntry} {clock : Nat} (h : Generated dir clock) :
    Distinct dir := by
  have hnames : dir.Pairwise fun a b => a.name ≠ b.name := List.pairwise_map.mp h.distinct
  refine hnames.imp_of_mem fun {a b} ha hb hne => ?_
  obtain ⟨_, _, hnamed⟩ := h.named a ha
  obtain ⟨_, _, hnamed'⟩ := h.named b hb
  by_contra heq
  have hcomponents : Path.components a.path = Path.components b.path := by simpa [Path.eq] using heq
  have hname := fileName_generated hnamed
  rw [Path.fileName, hcomponents, ← Path.fileName, fileName_generated hnamed',
    Option.some.injEq] at hname
  exact hne hname.symm

theorem Generated.perm {dir dir' : List DirEntry} {clock : Nat} (h : Generated dir clock)
    (hperm : dir'.Perm dir) : Generated dir' clock where
  named d hd := h.named d (hperm.mem_iff.mp hd)
  distinct := (hperm.map _).nodup_iff.mpr h.distinct

theorem lists_of_scan {dir : List DirEntry} {clock : Nat}
    (hnamed : ∀ d ∈ dir, ∃ ts ≤ clock, d = sstableEntry ts d.content ∨ d = walEntry ts d.content)
    {r : List SSTableArtifact × List WalArtifact} (hscan : scanEntries dir = some r) :
    ∃ sstables wals, Lists dir sstables wals := by
  induction dir generalizing r with
  | nil => exact ⟨[], [], .nil⟩
  | cons d dir ih =>
    obtain ⟨ts, _, hd⟩ := hnamed d (List.mem_cons_self ..)
    have hrest : ∀ d' ∈ dir, ∃ ts ≤ clock, d' = sstableEntry ts d'.content ∨
        d' = walEntry ts d'.content :=
      fun d' hd' => hnamed d' (List.mem_cons_of_mem _ hd')
    rcases hd with hd | hd
    · have hpath : d.path = Path.join [dot] (generateSstableFileName ts) := by rw [hd]; rfl
      simp only [scanEntries, hpath, fromPath_sstable, Option.bind_eq_bind,
        Option.bind_eq_some_iff] at hscan
      obtain ⟨artifact, hartifact, r', hr', _⟩ := hscan
      obtain ⟨sstables, wals, hlists⟩ := ih hrest hr'
      rw [hd]
      exact ⟨⟨ts, d.content, artifact_sstable_lt hartifact⟩ :: sstables, wals,
        hlists.sstable ⟨ts, _, _⟩⟩
    · have hpath : d.path = Path.join [dot] (generateWalFileName ts) := by rw [hd]; rfl
      simp only [scanEntries, hpath, fromPath_wal, Option.bind_eq_bind,
        Option.bind_eq_some_iff] at hscan
      obtain ⟨artifact, hartifact, r', hr', _⟩ := hscan
      obtain ⟨sstables, wals, hlists⟩ := ih hrest hr'
      rw [hd]
      exact ⟨sstables, ⟨ts, d.content, artifact_wal_lt hartifact⟩ :: wals, hlists.wal ⟨ts, _, _⟩⟩

/-- A directory that is scanned lists files whose timestamps could be read. -/
theorem Generated.lists {dir : List DirEntry} {clock : Nat} (h : Generated dir clock)
    {r : List SSTableArtifact × List WalArtifact} (hscan : scanDirectory dir = some r) :
    ∃ sstables wals, Lists dir sstables wals := by
  simp only [scanDirectory, Option.bind_eq_bind, Option.bind_eq_some_iff] at hscan
  obtain ⟨r', hr', _⟩ := hscan
  exact lists_of_scan h.named hr'

/-- Entries in the order of the scan are scanned as they are listed. -/
theorem scanDirectory_sorted {dir : List DirEntry} {sstables : List SSTableArtifact}
    {wals : List WalArtifact} (h : scanEntries dir = some (sstables, wals))
    (hsstables : sstables.Pairwise fun a b => b.ts ≤ a.ts)
    (hwals : wals.Pairwise fun a b => a.ts ≤ b.ts) : scanDirectory dir = some (sstables, wals) := by
  rw [scanDirectory, h, Option.bind_eq_bind, Option.bind_some]
  dsimp only
  rw [List.mergeSort_of_pairwise (hsstables.imp fun hle => decide_eq_true hle),
    List.mergeSort_of_pairwise (hwals.imp fun hle => decide_eq_true hle)]
  rfl

/-- Names a clock can read are read. -/
theorem Generated.lists_lt {dir : List DirEntry} {clock : Nat} (h : Generated dir clock)
    (hclock : clock < 2 ^ 128) : ∃ sstables wals, Lists dir sstables wals := by
  have hnamed := h.named
  clear h
  induction dir with
  | nil => exact ⟨[], [], .nil⟩
  | cons d dir ih =>
    obtain ⟨ts, hts, hd⟩ := hnamed d (List.mem_cons_self ..)
    obtain ⟨sstables, wals, hlists⟩ := ih fun d' hd' => hnamed d' (List.mem_cons_of_mem _ hd')
    rcases hd with hd | hd
    · rw [hd]
      exact ⟨_, _, hlists.sstable ⟨ts, d.content, hts.trans_lt hclock⟩⟩
    · rw [hd]
      exact ⟨_, _, hlists.wal ⟨ts, d.content, hts.trans_lt hclock⟩⟩

/-! ## The names of the logs -/

theorem Wal.writeLog_filename (wal : Wal) (record : Record) (clock : Clock) :
    (wal.writeLog record clock).filename = wal.filename := by
  unfold Wal.writeLog
  by_cases hflush : wal.needsFlush clock.now = true
  · rw [if_pos hflush]
    rfl
  · rw [if_neg hflush]

namespace MemtableInner

theorem insertNode_wal {t t' : MemtableInner} {node : MemtableNode}
    (h : t.insertNode node = some t') :
    t'.wal = t.wal := by
  have hsame := insertNode_logTo t t.wal node
  rw [show t.logTo t.wal = t from rfl, h] at hsame
  have hlogged : t' = t'.logTo t.wal := Option.some.inj hsame
  rw [hlogged]
  rfl

/-- A write logs to the file of the table. -/
theorem write_filename {t t' : MemtableInner} {key : Blob} {e : Entry} {clock : Clock}
    (h : t.write key e clock = some (.ok t')) : t'.wal.filename = t.wal.filename := by
  rw [write_eq] at h
  split at h
  · cases h
  · split at h
    · obtain ⟨t1, h1, h⟩ := Option.map_eq_some_iff.mp h
      cases h
      rw [insertNode_wal h1]
      exact t.wal.writeLog_filename _ clock
    · cases h

theorem fromWal_wal {log : Blob} {maxSize maxNodes : Nat} {wal : Wal} {t : MemtableInner}
    (h : fromWal log maxSize maxNodes wal = some t) : t.wal = wal := by
  have hsame := fromWal_logTo log maxSize maxNodes wal wal
  rw [h] at hsame
  have hlogged : t = t.logTo wal := Option.some.inj hsame
  rw [hlogged]
  rfl

end MemtableInner

namespace Engine

/-- The names of the logs, removed ones included. -/
def walFiles (e : Engine) : List PathBuf := e.tables.map (·.inner.wal.filename)

/-- A rotation makes a new name, and nothing else changes the names. -/
theorem step_walFiles {c : Config} {e e' : Engine} {a : Action} (hs : step c e a = some e') :
    e'.walFiles = e.walFiles ∨ ∃ stamp : LsmliteInner.Stamp, e.clock < stamp.fileTs ∧
      e'.clock = stamp.fileTs ∧ e'.files = e.files ∧
      e'.walFiles = e.walFiles ++ [generateWalFileName stamp.fileTs] := by
  cases step_tables hs with
  | took i w clock table inner ha htable hw hstep =>
    subst hstep
    exact Or.inl (map_set_same htable (MemtableInner.write_filename hw))
  | removed ts table t ha hf ht hstep =>
    left
    rw [walFiles, hstep]
    exact map_set_same ht rfl
  | other hsame =>
    left
    rw [walFiles, hsame]
    rfl
  | fresh i w stamp ha hi hstep =>
    subst ha
    cases step_cases hs with
    | client h =>
      cases h with
      | rotate hi' hts =>
        refine Or.inr ⟨stamp, hts, rfl, rfl, ?_⟩
        simp [walFiles, setPhase, freshTable, MemtableInner.new, Wal.new]

theorem putFile_stamps (files : List SstFile) (ts : Nat) (content : Blob) :
    (putFile files ts content).map (·.ts) = files.map (·.ts) := by
  rw [putFile, List.map_map]
  refine List.map_congr_left fun f _ => ?_
  simp only [Function.comp_apply]
  split <;> rfl

/-- A new SSTable has a new timestamp, and nothing else adds to the files. -/
theorem step_files {c : Config} {e e' : Engine} {a : Action} (hs : step c e a = some e') :
    e.clock ≤ e'.clock ∧ ((e'.files.map (·.ts)).Sublist (e.files.map (·.ts)) ∨
      ∃ ts, e.clock < ts ∧ e'.clock = ts ∧ e'.files.map (·.ts) = e.files.map (·.ts) ++ [ts]) := by
  cases step_cases hs with
  | spawn hopen => exact ⟨Nat.le_refl _, Or.inl (List.Sublist.refl _)⟩
  | drop hopen hidle => exact ⟨Nat.le_refl _, Or.inl (List.Sublist.refl _)⟩
  | client h =>
    refine ⟨h.tasks_same.clock, Or.inl ?_⟩
    rw [h.tasks_same.files]
  | background h =>
    cases h with
    | createFile hf hts => exact ⟨Nat.le_of_lt hts, Or.inr ⟨_, hts, rfl, by simp⟩⟩
    | compact hc hts hiters htable => exact ⟨Nat.le_of_lt hts, Or.inr ⟨_, hts, rfl, by simp⟩⟩
    | @writePart ts table n t content hf ht hcontent =>
      refine ⟨Nat.le_refl _, Or.inl ?_⟩
      rw [putFile_stamps]
    | @finishFile ts table t content hf ht hcontent =>
      refine ⟨Nat.le_refl _, Or.inl ?_⟩
      rw [putFile_stamps]
    | removeStale hc => exact ⟨Nat.le_refl _, Or.inl (List.filter_sublist.map _)⟩
    | _ => exact ⟨Nat.le_refl _, Or.inl (List.Sublist.refl _)⟩

/-- The engine's file names were made by its clock, and all differ. -/
structure Stamped (e : Engine) : Prop where
  files_le : ∀ f ∈ e.files, f.ts ≤ e.clock
  files_nodup : (e.files.map (·.ts)).Nodup
  wals : ∃ tss : List Nat, e.walFiles = tss.map generateWalFileName ∧
    tss.Nodup ∧ ∀ ts ∈ tss, ts ≤ e.clock

theorem stamped_start (c : Config) (stamp : LsmliteInner.Stamp) : Stamped (start c stamp) where
  files_le := by nofun
  files_nodup := List.nodup_nil
  wals :=
    ⟨[stamp.fileTs], rfl, List.nodup_singleton _, fun ts hts => (List.mem_singleton.mp hts).le⟩

theorem nodup_concat {tss : List Nat} {clock ts : Nat} (hnodup : tss.Nodup)
    (hle : ∀ t ∈ tss, t ≤ clock) (hts : clock < ts) : (tss ++ [ts]).Nodup := by
  rw [List.nodup_append]
  refine ⟨hnodup, List.nodup_singleton ts, fun t ht t' ht' => ?_⟩
  rw [List.mem_singleton.mp ht']
  have hlt := hle t ht
  omega

theorem stamped_step {c : Config} {e e' : Engine} {a : Action} (h : Stamped e)
    (hs : step c e a = some e') : Stamped e' := by
  obtain ⟨hclock, hfiles⟩ := step_files hs
  have hle : ∀ ts ∈ e.files.map (·.ts), ts ≤ e.clock := by
    intro ts hts
    obtain ⟨f, hf, rfl⟩ := List.mem_map.mp hts
    exact h.files_le f hf
  refine ⟨?_, ?_, ?_⟩
  · intro f hf
    have hmem : f.ts ∈ e'.files.map (·.ts) := List.mem_map_of_mem hf
    rcases hfiles with hsub | ⟨ts, hts, hnew, hmade⟩
    · exact (hle _ (hsub.subset hmem)).trans hclock
    · rw [hmade] at hmem
      rcases List.mem_append.mp hmem with hmem | hmem
      · exact (hle _ hmem).trans hclock
      · rw [List.mem_singleton.mp hmem, hnew]
  · rcases hfiles with hsub | ⟨ts, hts, _, hmade⟩
    · exact hsub.nodup h.files_nodup
    · rw [hmade]
      exact nodup_concat h.files_nodup hle hts
  · obtain ⟨tss, hwals, hnodup, htss⟩ := h.wals
    rcases step_walFiles hs with hsame | ⟨stamp, hts, hnew, _, hmade⟩
    · exact ⟨tss, hsame.trans hwals, hnodup, fun ts hts => (htss ts hts).trans hclock⟩
    · refine ⟨tss ++ [stamp.fileTs], ?_, nodup_concat hnodup htss hts, fun ts hmem => ?_⟩
      · rw [hmade, hwals, List.map_append]
        rfl
      · rcases List.mem_append.mp hmem with hmem | hmem
        · exact (htss ts hmem).trans hclock
        · rw [List.mem_singleton.mp hmem, hnew]

/-- What the engine leaves on disk. -/
theorem Stamped.generated {e : Engine} (h : Stamped e) : Generated e.disk e.clock := by
  obtain ⟨tss, hwals, hnodup, htss⟩ := h.wals
  have hlog : ∀ t ∈ e.tables, ∃ ts ∈ tss, t.inner.wal.filename = generateWalFileName ts := by
    intro t ht
    have hmem : t.inner.wal.filename ∈ e.walFiles := List.mem_map_of_mem ht
    rw [hwals] at hmem
    obtain ⟨ts, hts, heq⟩ := List.mem_map.mp hmem
    exact ⟨ts, hts, heq.symm⟩
  constructor
  · intro d hd
    rcases List.mem_append.mp hd with hd | hd
    · obtain ⟨f, hf, rfl⟩ := List.mem_map.mp hd
      exact ⟨f.ts, h.files_le f hf, Or.inl rfl⟩
    · obtain ⟨t, ht, rfl⟩ := List.mem_map.mp hd
      obtain ⟨ts, hts, hname⟩ := hlog t (List.mem_filter.mp ht).1
      refine ⟨ts, htss ts hts, Or.inr ?_⟩
      rw [logEntry, hname]
      rfl
  · have hsst :
        (e.files.map dirEntry).map (·.name) = (e.files.map (·.ts)).map generateSstableFileName := by
      rw [List.map_map, List.map_map]
      rfl
    have hwal : ((e.tables.filter fun t => !t.walRemoved).map logEntry).map (·.name) =
        (e.tables.filter fun t => !t.walRemoved).map (·.inner.wal.filename) := by
      rw [List.map_map]
      rfl
    rw [disk, List.map_append, hsst, hwal, List.nodup_append]
    refine ⟨h.files_nodup.map fun _ _ => generateSstableFileName_inj, ?_, ?_⟩
    · have hall : e.walFiles.Nodup := hwals ▸ hnodup.map fun _ _ => generateWalFileName_inj
      exact (List.filter_sublist.map _).nodup hall
    · intro name hname name' hname' heq
      obtain ⟨ts, _, rfl⟩ := List.mem_map.mp hname
      obtain ⟨t, ht, rfl⟩ := List.mem_map.mp hname'
      obtain ⟨ts', _, hts'⟩ := hlog t (List.mem_filter.mp ht).1
      exact sstable_ne_wal ts ts' (heq.trans hts')

/-! ## What a restart makes of the files -/

/-- The names of the new logs. -/
def newLogs (wals : List WalArtifact) (stamps : WalArtifact → LsmliteInner.Stamp)
    (fresh : LsmliteInner.Stamp) : List Nat :=
  if wals = [] then [fresh.fileTs] else wals.map fun w => (stamps w).fileTs

/-- The engine that a restart has made. -/
structure Reopened (c : Config) (dir : List DirEntry) (clock : Nat)
    (sstables : List SSTableArtifact) (wals : List WalArtifact)
    (stamps : WalArtifact → LsmliteInner.Stamp) (fresh : LsmliteInner.Stamp)
    (e : Engine) : Prop where
  scanned : scanDirectory dir = some (sstables, wals)
  newStamps : NewStamps clock wals stamps fresh
  files : e.files.map (·.ts) = sstables.map (·.ts)
  contents : sstables.mapM (fun a => (readPath dir a.filename).map (SstFile.mk a.ts)) = some e.files
  cache : LsmliteInner.constructSstableCache dir sstables c.lsmlite = some e.sstableCache
  logs : e.walFiles = (newLogs wals stamps fresh).map generateWalFileName
  kept : ∀ t ∈ e.tables, t.walRemoved = false
  queue : e.immutable = List.range (wals.length - 1)
  signals : e.memtableChannel = List.replicate (wals.length - 1) .flush
  clock_eq : e.clock = (wals.map fun w => (stamps w).fileTs).foldl max fresh.fileTs
  clients : e.clients = []
  flusher : e.flusher = .waiting
  compactor : e.compactor = .waiting
  signal : e.signal = []
  ack : e.sstableAck = 0
  swapped : e.swapped = []
  popped : e.popped = []

/-- A recovered memtable logs to its new file. -/
theorem load_filename {dir : List DirEntry} {path : PathBuf} {maxSize maxNodes : Nat}
    {stamp : LsmliteInner.Stamp} {t : MemtableInner}
    (h : loadImmutableMemtableWorker dir path maxSize maxNodes stamp = some t) :
    t.wal.filename = generateWalFileName stamp.fileTs := by
  simp only [loadImmutableMemtableWorker, Option.bind_eq_bind, Option.bind_eq_some_iff] at h
  obtain ⟨log, _, h⟩ := h
  rw [MemtableInner.fromWal_wal h]
  rfl

theorem map_eq_of_forall₂ {α β γ : Type} {R : α → β → Prop} {f : α → γ} {g : β → γ} {xs : List α}
    {ys : List β} (h : List.Forall₂ R xs ys) (hfg : ∀ x y, R x y → g y = f x) :
    ys.map g = xs.map f := by
  induction h with
  | nil => rfl
  | cons hr _ ih => rw [List.map_cons, List.map_cons, hfg _ _ hr, ih]

theorem reopen_some {c : Config} {dir : List DirEntry} {clock : Nat}
    {stamps : WalArtifact → LsmliteInner.Stamp} {fresh : LsmliteInner.Stamp} {e : Engine}
    (h : reopen c dir clock stamps fresh = some e) :
    ∃ sstables wals, Reopened c dir clock sstables wals stamps fresh e := by
  simp only [reopen, Option.bind_eq_bind, Option.bind_eq_some_iff] at h
  obtain ⟨⟨sstables, wals⟩, hscan, _, hguard, db, hdb, files, hfiles, h⟩ := h
  cases h
  have hstamps : NewStamps clock wals stamps fresh := by
    by_contra hnot
    rw [guard, if_neg hnot] at hguard
    cases hguard
  simp only [LsmliteInner.new, Option.bind_eq_bind, Option.bind_eq_some_iff] at hdb
  obtain ⟨memtable, hmemtable, cache, hcache, immutable, himmutable, hdb⟩ := hdb
  cases hdb
  have hqueue := mapM_some himmutable
  have hlength : immutable.length = wals.length - 1 := by
    rw [← hqueue.length_eq, List.length_dropLast]
  refine ⟨sstables, wals, hscan, hstamps, ?_, hfiles, hcache, ?_, ?_, ?_, ?_, rfl, rfl,
    rfl, rfl, rfl, rfl, rfl, rfl⟩
  · refine map_eq_of_forall₂ (mapM_some hfiles) fun a f hf => ?_
    obtain ⟨content, _, rfl⟩ := Option.map_eq_some_iff.mp hf
    rfl
  · have hold : immutable.map (·.wal.filename) =
        wals.dropLast.map fun w => generateWalFileName (stamps w).fileTs :=
      map_eq_of_forall₂ hqueue fun w t ht => load_filename ht
    have hnames : walFiles ⟨(immutable ++ [memtable]).map recoveredTable,
        List.range immutable.length, cache, [],
        List.replicate immutable.length .flush, [], 0, .waiting, .waiting, files, 0, false, [], [],
            [], [], []⟩ = immutable.map (·.wal.filename) ++ [memtable.wal.filename] := by
      simp [walFiles, recoveredTable]
    refine hnames.trans ?_
    rw [hold]
    rcases List.eq_nil_or_concat wals with rfl | ⟨init, live, rfl⟩
    · cases hmemtable
      rfl
    · rw [List.concat_eq_append] at hmemtable ⊢
      rw [List.getLast?_append, List.getLast?_singleton, Option.some_or] at hmemtable
      rw [List.dropLast_concat, newLogs, if_neg (by simp), load_filename hmemtable]
      simp
  · intro t ht
    obtain ⟨inner, _, rfl⟩ := List.mem_map.mp ht
    rfl
  · exact congrArg List.range hlength
  · exact congrArg (List.replicate · MemtableFlushSignal.flush) hlength

/-- A restart whose logs and tables can be loaded makes an engine. -/
theorem reopen_of_new {c : Config} {dir : List DirEntry} {clock : Nat}
    {sstables : List SSTableArtifact} {wals : List WalArtifact}
    {stamps : WalArtifact → LsmliteInner.Stamp} {fresh : LsmliteInner.Stamp} {db : LsmliteInner}
    {files : List SstFile} (hscan : scanDirectory dir = some (sstables, wals))
    (hstamps : NewStamps clock wals stamps fresh)
    (hdb : LsmliteInner.new dir sstables wals c.lsmlite stamps fresh = some db)
    (hfiles :
      sstables.mapM (fun a => (readPath dir a.filename).map (SstFile.mk a.ts)) = some files) :
    ∃ e, reopen c dir clock stamps fresh = some e := by
  simp only [reopen, hscan, guard, if_pos hstamps, hdb, hfiles, Option.bind_eq_bind,
    Option.bind_some, Option.pure_def]
  exact ⟨_, rfl⟩

theorem le_foldl_max {xs : List Nat} {acc : Nat} :
    acc ≤ xs.foldl max acc ∧ ∀ x ∈ xs, x ≤ xs.foldl max acc := by
  induction xs generalizing acc with
  | nil => exact ⟨Nat.le_refl _, by nofun⟩
  | cons x xs ih =>
    obtain ⟨hacc, hall⟩ := @ih (max acc x)
    rw [List.foldl_cons]
    constructor
    · exact (Nat.le_max_left acc x).trans hacc
    · intro y hy
      rcases List.mem_cons.mp hy with rfl | hy
      · exact (Nat.le_max_right acc y).trans hacc
      · exact hall y hy

section
variable {c : Config} {dir : List DirEntry} {clock : Nat} {sstables : List SSTableArtifact}
  {wals : List WalArtifact} {stamps : WalArtifact → LsmliteInner.Stamp} {fresh : LsmliteInner.Stamp}
  {e : Engine}

theorem Reopened.clock_lt (h : Reopened c dir clock sstables wals stamps fresh e) :
    clock < e.clock := by
  rw [h.clock_eq]
  exact h.newStamps.1.trans_le le_foldl_max.1

theorem Reopened.newLogs_le (h : Reopened c dir clock sstables wals stamps fresh e) :
    ∀ ts ∈ newLogs wals stamps fresh, ts ≤ e.clock := by
  rw [h.clock_eq, newLogs]
  split
  · intro ts hts
    rw [List.mem_singleton.mp hts]
    exact le_foldl_max.1
  · exact le_foldl_max.2

theorem Reopened.newLogs_nodup (h : Reopened c dir clock sstables wals stamps fresh e) :
    (newLogs wals stamps fresh).Nodup := by
  rw [newLogs]
  split
  · exact List.nodup_singleton _
  · exact h.newStamps.2.2.1

/-- The tables are those of the logs, or one if there was none. -/
theorem Reopened.length (h : Reopened c dir clock sstables wals stamps fresh e) :
    e.tables.length = wals.length - 1 + 1 := by
  have hlength := congrArg List.length h.logs
  rw [walFiles, List.length_map, List.length_map, newLogs] at hlength
  rw [hlength]
  split
  · rename_i hnil
    rw [hnil]
    rfl
  · rename_i hne
    have hpos := List.length_pos_iff.mpr hne
    rw [List.length_map]
    omega

/-- The timestamps of the SSTables a restart found. -/
theorem Reopened.found (h : Reopened c dir clock sstables wals stamps fresh e)
    (hdir : Generated dir clock) :
    (sstables.map (·.ts)).Pairwise (· > ·) ∧ ∀ a ∈ sstables, a.ts ≤ clock := by
  obtain ⟨files, logs, hlists⟩ := hdir.lists h.scanned
  have hscan := hlists.scanDirectory.symm.trans h.scanned
  simp only [Option.some.injEq, Prod.mk.injEq] at hscan
  obtain ⟨rfl, _⟩ := hscan
  have hnodup := hlists.sstables_nodup hdir.pairwise
  have hsorted := newestFirst_sorted StoredFile.ts files
  have hdistinct : ((newestFirst StoredFile.ts files).map StoredFile.ts).Nodup :=
    ((newestFirst_perm StoredFile.ts files).map _).nodup_iff.mpr hnodup
  have hnames : ((newestFirst StoredFile.ts files).map StoredFile.sstable).map (·.ts) =
      (newestFirst StoredFile.ts files).map StoredFile.ts := by
    rw [List.map_map]
    rfl
  constructor
  · rw [hnames]
    have hle : ((newestFirst StoredFile.ts files).map StoredFile.ts).Pairwise (· ≥ ·) :=
      List.pairwise_map.mpr hsorted
    exact (hle.and hdistinct).imp fun hpair => Nat.lt_of_le_of_ne hpair.1 (Ne.symm hpair.2)
  · intro a ha
    obtain ⟨f, hf, rfl⟩ := List.mem_map.mp ha
    have hmem := hlists.sstable_mem ((newestFirst_perm StoredFile.ts files).mem_iff.mp hf)
    obtain ⟨ts, hts, hname⟩ := hdir.named _ hmem
    rcases hname with hname | hname
    · have heq : f.ts = ts := generateSstableFileName_inj (congrArg DirEntry.name hname)
      show f.ts ≤ clock
      rw [heq]
      exact hts
    · exact absurd (congrArg DirEntry.name hname) (sstable_ne_wal _ _)

theorem Reopened.stamped (h : Reopened c dir clock sstables wals stamps fresh e)
    (hdir : Generated dir clock) : Stamped e := by
  obtain ⟨hsorted, hle⟩ := h.found hdir
  refine ⟨fun f hf => ?_, ?_, ⟨_, h.logs, h.newLogs_nodup, h.newLogs_le⟩⟩
  · have hmem : f.ts ∈ e.files.map (·.ts) := List.mem_map_of_mem hf
    rw [h.files] at hmem
    obtain ⟨a, ha, hts⟩ := List.mem_map.mp hmem
    rw [← hts]
    exact (hle a ha).trans (Nat.le_of_lt h.clock_lt)
  · rw [h.files]
    exact hsorted.imp fun hlt => Nat.ne_of_gt hlt

end

end Engine

/-! ## Runs whose restarts meet a condition -/

namespace Session

/-- The states of the runs in which every step of the engine meets `ok` and every restart finds logs
that meet `found`. A restart that is interrupted has made its new logs one by one. -/
inductive Runs (c : Config) (ok : List Entries → Engine → Engine.Action → Prop)
    (found : List WalArtifact → Prop) : Session → Prop
  | start (stamp : LsmliteInner.Stamp) : Runs c ok found (.up (Engine.start c stamp) [])
  | step {e e' : Engine} {recovered : List Entries} {a : Engine.Action}
      (h : Runs c ok found (.up e recovered)) (hok : ok recovered e a)
      (hs : Engine.step c e a = some e') :
    Runs c ok found (.up e' recovered)
  | crash {e : Engine} {recovered : List Entries} (h : Runs c ok found (.up e recovered)) :
    Runs c ok found (.down e.disk e.clock)
  | restart {dir : List DirEntry} {clock : Nat} {sstables : List SSTableArtifact}
      {wals : List WalArtifact}
      {stamps : WalArtifact → LsmliteInner.Stamp} {fresh : LsmliteInner.Stamp} {e : Engine}
      {recovered : List Entries} (h : Runs c ok found (.down dir clock))
      (hscan : scanDirectory dir = some (sstables, wals)) (hfound : found wals)
      (hs : Engine.reopen c dir clock stamps fresh = some e)
      (hlogs : recoveredLogs dir = some recovered) :
    Runs c ok found (.up e recovered)
  | interrupted {dir kept : List DirEntry} {clock clock' : Nat} {made : List Nat}
      (h : Runs c ok found (.down dir clock)) (hkept : kept.Sublist dir)
      (hlogs : ∀ e ∈ dir, e ∉ kept → isLog e = true) (hclock : clock ≤ clock')
      (hmade : ∀ ts ∈ made, clock < ts ∧ ts ≤ clock') (hnodup : made.Nodup) :
    Runs c ok found (.down (kept ++ made.map fun ts => walEntry ts []) clock')

theorem Runs.reaches {c : Config} {ok : List Entries → Engine → Engine.Action → Prop}
    {found : List WalArtifact → Prop} {s : Session} (h : Runs c ok found s) : Reaches c ok s := by
  induction h with
  | start stamp => exact .start stamp
  | step _ hok hs ih => exact ih.step hok hs
  | crash _ ih => exact ih.crash
  | restart _ _ _ hs hlogs ih => exact ih.restart hs hlogs
  | interrupted _ hkept hlogs hclock hmade _ ih => exact ih.interrupted hkept hlogs hclock hmade

/-- The names of the files are in order. -/
def Stamped : Session → Prop
  | up e _ => e.Stamped
  | down dir clock => Generated dir clock

/-- What an interrupted restart leaves. -/
theorem generated_interrupted {dir kept : List DirEntry} {clock clock' : Nat} {made : List Nat}
    (h : Generated dir clock) (hkept : kept.Sublist dir) (hclock : clock ≤ clock')
    (hmade : ∀ ts ∈ made, clock < ts ∧ ts ≤ clock') (hnodup : made.Nodup) :
    Generated (kept ++ made.map fun ts => walEntry ts []) clock' := by
  constructor
  · intro d hd
    rcases List.mem_append.mp hd with hd | hd
    · obtain ⟨ts, hts, hname⟩ := h.named d (hkept.subset hd)
      exact ⟨ts, hts.trans hclock, hname⟩
    · obtain ⟨ts, hts, rfl⟩ := List.mem_map.mp hd
      exact ⟨ts, (hmade ts hts).2, Or.inr rfl⟩
  · have hmap : (made.map fun ts => walEntry ts []).map (·.name) =
        made.map generateWalFileName := by
      rw [List.map_map]
      rfl
    rw [List.map_append, hmap, List.nodup_append]
    refine ⟨(hkept.map _).nodup h.distinct, hnodup.map fun _ _ => generateWalFileName_inj, ?_⟩
    intro name hname name' hname' heq
    obtain ⟨d, hd, rfl⟩ := List.mem_map.mp hname
    obtain ⟨ts, hts, rfl⟩ := List.mem_map.mp hname'
    obtain ⟨ts', hle, hd' | hd'⟩ := h.named d (hkept.subset hd)
    · exact sstable_ne_wal ts' ts ((congrArg DirEntry.name hd').symm.trans heq)
    · have hsame := generateWalFileName_inj ((congrArg DirEntry.name hd').symm.trans heq)
      have hlt := (hmade ts hts).1
      omega

theorem Runs.stamped {c : Config} {ok : List Entries → Engine → Engine.Action → Prop}
    {found : List WalArtifact → Prop} {s : Session} (h : Runs c ok found s) : s.Stamped := by
  induction h with
  | start stamp => exact Engine.stamped_start c stamp
  | step _ _ hs ih => exact Engine.stamped_step ih hs
  | crash _ ih => exact Engine.Stamped.generated ih
  | restart _ _ _ hs _ ih =>
    obtain ⟨_, _, hreopened⟩ := Engine.reopen_some hs
    exact hreopened.stamped ih
  | interrupted _ hkept _ hclock hmade hnodup ih =>
    exact generated_interrupted ih hkept hclock hmade hnodup

def Unrestricted : List Entries → Engine → Engine.Action → Prop := fun _ _ _ => True

/-! ## Runs on fixed inputs -/

/-- A run, a crash, a restart and another run. -/
def restartedRun (c : Config) (ok : Engine → Engine.Action → Prop) [∀ e a, Decidable (ok e a)]
    (found : List WalArtifact → Prop) [DecidablePred found]
    (stamps : WalArtifact → LsmliteInner.Stamp) (fresh : LsmliteInner.Stamp)
    (first second : List Engine.Action) : Option (Engine × List Entries) := do
  let e ← Engine.runActions c ok (Engine.start c ⟨0, 0⟩) first
  let (_, wals) ← scanDirectory e.disk
  guard (found wals)
  let e' ← Engine.reopen c e.disk e.clock stamps fresh
  let recovered ← recoveredLogs e.disk
  let e'' ← Engine.runActions c ok e' second
  return (e'', recovered)

section
variable {c : Config} {ok : Engine → Engine.Action → Prop} [∀ e a, Decidable (ok e a)]
  {found : List WalArtifact → Prop}

theorem Runs.run {actions : List Engine.Action} {e e' : Engine} {recovered : List Entries}
    (h : Runs c (fun _ => ok) found (.up e recovered))
    (hr : Engine.runActions c ok e actions = some e') :
    Runs c (fun _ => ok) found (.up e' recovered) := by
  induction actions generalizing e with
  | nil =>
    cases hr
    exact h
  | cons a actions ih =>
    simp only [Engine.runActions, List.foldlM_cons, Option.bind_eq_bind,
      Option.bind_eq_some_iff] at hr
    obtain ⟨e1, h1, hr⟩ := hr
    split at h1
    · rename_i hok
      exact ih (h.step hok h1) hr
    · cases h1

theorem runs_restartedRun [DecidablePred found] {stamps : WalArtifact → LsmliteInner.Stamp}
    {fresh : LsmliteInner.Stamp} {first second : List Engine.Action} {e : Engine}
    {recovered : List Entries}
    (hr : restartedRun c ok found stamps fresh first second = some (e, recovered)) :
    Runs c (fun _ => ok) found (.up e recovered) := by
  simp only [restartedRun, Option.bind_eq_bind, Option.bind_eq_some_iff] at hr
  obtain ⟨e1, h1, ⟨sstables, wals⟩, hscan, _, hguard, e2, h2, recovered', hrec, e3, h3, hr⟩ := hr
  cases hr
  have hfound : found wals := by
    by_contra hnot
    rw [guard, if_neg hnot] at hguard
    cases hguard
  exact (((Runs.start ⟨0, 0⟩).run h1).crash.restart hscan hfound h2 hrec).run h3

end

end Session

end Lsmlite
