import Lsmlite.LiveLogs

/-!
# The order of the logs

As long as a restart finds one log at most and the tables are appended in the order of the swaps,
the logs in the order of their names are those of the queue, of the tables on their way to it and of
the active memtable. A restart that finds more logs makes the active memtable's new log first.
-/

namespace Lsmlite

/-! ## Logs sorted by their names -/

/-- The logs of a directory are scanned in the order of their timestamps. -/
theorem Lists.scanned_logs {dir : List DirEntry} {sstables wals : List StoredFile}
    (h : Lists dir sstables wals) {tss : List Nat} (hsorted : tss.Pairwise (· < ·))
    (hnames : ((dir.filter isLog).map (·.name)).Perm (tss.map generateWalFileName)) :
    ((oldestFirst StoredFile.ts wals).map StoredFile.wal).map (·.filename) =
      tss.map fun ts => Path.join [dot] (generateWalFileName ts) := by
  have hwals :
      (dir.filter isLog).map (·.name) = (wals.map StoredFile.ts).map generateWalFileName := by
    rw [h.logs, List.map_map, List.map_map]
    rfl
  rw [hwals, List.map_perm_map_iff fun _ _ => generateWalFileName_inj] at hnames
  have hperm : ((oldestFirst StoredFile.ts wals).map StoredFile.ts).Perm tss :=
    ((newestFirst_perm _ wals).map _).trans hnames
  have hordered : ((oldestFirst StoredFile.ts wals).map StoredFile.ts).Pairwise (· ≤ ·) :=
    List.pairwise_map.mpr (newestFirst_sorted (fun f => OrderDual.toDual (StoredFile.ts f)) wals)
  have heq : (oldestFirst StoredFile.ts wals).map StoredFile.ts = tss :=
    hperm.eq_of_pairwise (fun _ _ _ _ hab hba => Nat.le_antisymm hab hba) hordered
      (hsorted.imp Nat.le_of_lt)
  rw [← heq, List.map_map, List.map_map]
  rfl

namespace Engine

/-- The logs were named in the order of the tables. -/
structure Ordered (e : Engine) : Prop where
  logs : ∃ tss : List Nat, e.walFiles = tss.map generateWalFileName ∧ tss.Pairwise (· < ·) ∧
    ∀ ts ∈ tss, ts ≤ e.clock

theorem ordered_start (c : Config) (stamp : LsmliteInner.Stamp) : Ordered (start c stamp) :=
  ⟨[stamp.fileTs], rfl, List.pairwise_singleton _ _, fun _ hts => (List.mem_singleton.mp hts).le⟩

theorem ordered_step {c : Config} {e e' : Engine} {a : Action} (h : Ordered e)
    (hs : step c e a = some e') : Ordered e' := by
  obtain ⟨tss, hwals, hsorted, hle⟩ := h.logs
  rcases step_walFiles hs with hsame | ⟨stamp, hts, hnew, _, hmade⟩
  · exact ⟨tss, hsame.trans hwals, hsorted, fun ts hmem => (hle ts hmem).trans (step_files hs).1⟩
  · refine ⟨tss ++ [stamp.fileTs], ?_, ?_, fun ts hmem => ?_⟩
    · rw [hmade, hwals, List.map_append]
      rfl
    · refine List.pairwise_append.mpr ⟨hsorted, List.pairwise_singleton _ _,
        fun t hmem t' hmem' => ?_⟩
      rw [List.mem_singleton.mp hmem']
      exact (hle t hmem).trans_lt hts
    · rcases List.mem_append.mp hmem with hmem | hmem
      · exact (hle ts hmem).trans (step_files hs).1
      · rw [List.mem_singleton.mp hmem, hnew]

/-! ## The tables from the oldest to the newest -/

/-- The tables that clients have swapped out and not appended yet, oldest first. -/
def inHands (e : Engine) : List Nat := e.swapped.filter (· ∈ e.waiting)

theorem mem_inHands {e : Engine} (h : Aging e) {i : Nat} : i ∈ e.inHands ↔ i ∈ e.waiting := by
  rw [inHands, List.mem_filter, decide_eq_true_eq, h.swapped, List.mem_range]
  refine ⟨fun hi => hi.2, fun hi => ⟨?_, hi⟩⟩
  obtain ⟨j, hj⟩ := holding_of_waiting hi
  exact h.held j i hj

/-- All tables in the order of their making. -/
theorem tables_in_order {e : Engine} (h : Aging e) (hp : Placed e) :
    e.popped ++ e.immutable ++ e.inHands ++ [e.active] = List.range e.tables.length := by
  have hpos := List.length_pos_iff.mpr h.nonempty
  have hlength : e.tables.length = e.active + 1 := by
    unfold active
    omega
  have hnodup : (e.popped ++ e.immutable ++ e.waiting).Nodup :=
    hp.once.nodup_iff.mpr List.nodup_range
  have hhands : e.inHands.Perm e.waiting := by
    rw [List.perm_ext_iff_of_nodup _ hnodup.of_append_right]
    · exact fun i => mem_inHands h
    · rw [inHands, h.swapped]
      exact List.nodup_range.filter _
  have hsorted : (e.popped ++ e.immutable ++ e.inHands).Pairwise (· < ·) := by
    refine List.pairwise_append.mpr ⟨h.sorted, ?_, fun i hi j hj => ?_⟩
    · rw [inHands, h.swapped]
      exact List.pairwise_lt_range.filter _
    · obtain ⟨k, hk⟩ := holding_of_waiting ((mem_inHands h).mp hj)
      exact h.newer k j hk i hi
  have hperm : (e.popped ++ e.immutable ++ e.inHands).Perm (List.range e.active) :=
    (hhands.append_left _).trans hp.once
  rw [hlength, List.range_succ, hperm.eq_of_pairwise (fun _ _ _ _ hab hba =>
    absurd hab hba.asymm) hsorted List.pairwise_lt_range]

/-- The tables that have their log. -/
theorem logs_in_order {e : Engine} (h : Aging e) (hp : Placed e) (hc : Cleared e) :
    (List.range e.tables.length).filter e.hasLog =
      (e.immutable ++ e.inHands ++ [e.active]).filter e.hasLog := by
  have hpopped : e.popped.filter e.hasLog = [] := by
    rw [List.filter_eq_nil_iff]
    exact fun i hi hlog => (hasLog_iff.mp hlog).2 (hc.popped i hi)
  rw [← tables_in_order h hp, List.append_assoc, List.append_assoc, List.filter_append, hpopped,
    List.nil_append, List.append_assoc]

/-- From any listing of the directory a restart scans the logs of these tables, in this order. -/
def ScansLogs (e : Engine) (tables : List Nat) : Prop :=
  ∀ dir, dir.Perm e.disk → ∃ sstables wals, scanDirectory dir = some (sstables, wals) ∧
    wals.map (fun w => some w.filename) = (tables.filter e.hasLog).map e.logPath

theorem scans_all {e : Engine} (hstamped : Stamped e) (hordered : Ordered e)
    (hclock : e.clock < 2 ^ 128) :
    e.ScansLogs (List.range e.tables.length) := by
  intro dir hperm
  obtain ⟨sstables, wals, hlists⟩ := (hstamped.generated.perm hperm).lists_lt hclock
  obtain ⟨tss, hwals, hsorted, _⟩ := hordered.logs
  have hsub : (e.logged.map (·.inner.wal.filename)).Sublist (tss.map generateWalFileName) := by
    rw [← hwals]
    exact List.filter_sublist.map _
  obtain ⟨left, hleft, hnamed⟩ := List.sublist_map_iff.mp hsub
  have hnames : ((dir.filter isLog).map (·.name)).Perm (left.map generateWalFileName) := by
    have hlogs : ((dir.filter isLog).map (·.name)).Perm ((e.disk.filter isLog).map (·.name)) :=
      (hperm.filter _).map _
    rwa [hstamped.logs, List.map_map, show (DirEntry.name ∘ logEntry) = fun t =>
      t.inner.wal.filename from rfl, hnamed] at hlogs
  refine ⟨_, _, hlists.scanDirectory, ?_⟩
  have hscanned := hlists.scanned_logs (hsorted.sublist hleft) hnames
  have hlogged : e.logged.map (fun t => (logEntry t).path) =
      left.map fun ts => Path.join [dot] (generateWalFileName ts) := by
    have hjoined := congrArg (List.map (Path.join [dot])) hnamed
    rw [List.map_map, List.map_map] at hjoined
    exact hjoined
  have hpaths := congrArg (List.map some) (hscanned.trans hlogged.symm)
  rw [← logged_places]
  simpa only [List.map_map, Function.comp_def] using hpaths

theorem scans_iff {e : Engine} (h : e.ScansLogs (e.immutable ++ e.inHands ++ [e.active]))
    (haging : Aging e) (hp : Placed e) (hc : Cleared e) :
    e.ScansLogs (e.immutable ++ [e.active]) ↔ e.waiting = [] := by
  constructor
  · intro hqueue
    obtain ⟨_, wals, hscan, hall⟩ := h e.disk (List.Perm.refl _)
    obtain ⟨_, wals', hscan', hsome⟩ := hqueue e.disk (List.Perm.refl _)
    rw [hscan, Option.some.injEq, Prod.mk.injEq] at hscan'
    rw [← hscan'.2] at hsome
    have hlength := congrArg List.length (hall.symm.trans hsome)
    simp only [List.filter_append, List.map_append, List.length_append, List.length_map] at hlength
    have hnone : e.inHands.filter e.hasLog = [] := List.length_eq_zero_iff.mp (by omega)
    by_contra hwaiting
    obtain ⟨i, hi⟩ := List.exists_mem_of_ne_nil _ hwaiting
    have hmem : i ∈ e.inHands.filter e.hasLog :=
      List.mem_filter.mpr ⟨(mem_inHands haging).mpr hi, hasLog_waiting hp hc hi⟩
    rw [hnone] at hmem
    cases hmem
  · intro hwaiting
    have hnone : e.inHands = [] := by
      rw [inHands, hwaiting]
      simp
    rwa [hnone, List.append_nil] at h

/-! ## The logs behind a restart -/

section
variable {c : Config} {dir : List DirEntry} {clock : Nat} {sstables : List SSTableArtifact}
  {wals : List WalArtifact} {stamps : WalArtifact → LsmliteInner.Stamp} {fresh : LsmliteInner.Stamp}
  {e : Engine}

theorem Reopened.aging (h : Reopened c dir clock sstables wals stamps fresh e)
    (hone : wals.length ≤ 1) :
    Aging e := by
  have hlength := h.length
  have hactive : e.active = 0 := by
    unfold active
    omega
  have hqueue : e.popped ++ e.immutable = [] := by
    rw [h.popped, h.queue, show wals.length - 1 = 0 by omega]
    rfl
  have hidle : ∀ i full, ¬ e.Holding i full := by
    rintro i full ⟨w, hw⟩
    rw [h.clients] at hw
    cases hw
  refine ⟨?_, ?_, ?_, ?_, fun i full hi => absurd hi (hidle i full),
    fun i full hi => absurd hi (hidle i full), fun i j full hi => absurd hi (hidle i full)⟩
  · rw [← List.length_pos_iff]
    omega
  · rw [h.swapped, hactive]
    rfl
  · rw [hqueue]
    exact .nil
  · rw [hqueue]
    exact nofun

theorem Reopened.ordered (h : Reopened c dir clock sstables wals stamps fresh e)
    (hone : wals.length ≤ 1) :
    Ordered e := by
  refine ⟨newLogs wals stamps fresh, h.logs, ?_, h.newLogs_le⟩
  rw [newLogs]
  split
  · exact List.pairwise_singleton _ _
  · cases wals with
    | nil => exact .nil
    | cons w rest =>
      obtain rfl := List.length_eq_zero_iff.mp (Nat.le_zero.mp (Nat.le_of_succ_le_succ hone))
      exact List.pairwise_singleton _ _

/-- A restart names the logs in the order of its queue only if it found one log at most: the active
memtable's is made first. -/
theorem Reopened.scans_iff (h : Reopened c dir clock sstables wals stamps fresh e)
    (hdir : Generated dir clock) (hclock : e.clock < 2 ^ 128) :
    e.ScansLogs (e.immutable ++ [e.active]) ↔ wals.length ≤ 1 := by
  have hlength := h.length
  have hstamped := h.stamped hdir
  have htables : e.immutable ++ [e.active] = List.range e.tables.length := by
    rw [h.queue, active, hlength, List.range_succ]
    rfl
  rw [htables]
  constructor
  · intro hscans
    obtain ⟨files, logs, hlists⟩ := hstamped.generated.lists_lt hclock
    obtain ⟨_, wals', hscan, hpaths⟩ := hscans e.disk (List.Perm.refl _)
    rw [hlists.scanDirectory, Option.some.injEq, Prod.mk.injEq] at hscan
    have hall : e.logged = e.tables := List.filter_eq_self.mpr fun t ht => by rw [h.kept t ht]; rfl
    rw [← hscan.2, ← logged_places, hall] at hpaths
    have hnames : ((oldestFirst StoredFile.ts logs).map StoredFile.ts).map
        (fun ts => some (Path.join [dot] (generateWalFileName ts))) =
          (newLogs wals stamps fresh).map fun ts =>
              some (Path.join [dot] (generateWalFileName ts)) := by
      have hlogs := congrArg (List.map fun name => some (Path.join [dot] name)) h.logs
      rw [walFiles, List.map_map, List.map_map] at hlogs
      rw [List.map_map] at hpaths ⊢
      exact hpaths.trans hlogs
    have hinj : Function.Injective fun ts => some (Path.join [dot] (generateWalFileName ts)) := by
      intro ts ts' hsame
      have hjoined : [dot] ++ slash :: generateWalFileName ts = [dot] ++ slash ::
          generateWalFileName ts' :=
        Option.some.inj hsame
      exact generateWalFileName_inj (List.cons.inj (List.append_cancel_left hjoined)).2
    have hts := List.map_injective_iff.mpr hinj hnames
    have hordered : ((oldestFirst StoredFile.ts logs).map StoredFile.ts).Pairwise (· ≤ ·) :=
      List.pairwise_map.mpr (newestFirst_sorted (fun f => OrderDual.toDual (StoredFile.ts f)) logs)
    rw [hts, newLogs] at hordered
    by_contra hmany
    rcases List.eq_nil_or_concat wals with rfl | ⟨init, live, rfl⟩
    · exact hmany (Nat.zero_le 1)
    · rw [List.concat_eq_append] at hordered hmany
      have hfirst := h.newStamps.2.2.2
      rw [List.concat_eq_append, List.getLast?_append, List.getLast?_singleton, Option.some_or,
        List.dropLast_concat] at hfirst
      rw [if_neg (by simp), List.map_append, List.pairwise_append] at hordered
      cases init with
      | nil => exact hmany (Nat.le_refl 1)
      | cons w init =>
        have hlt := hfirst live rfl w (List.mem_cons_self ..)
        have hle := hordered.2.2 (stamps w).fileTs (List.mem_map_of_mem (List.mem_cons_self ..))
          (stamps live).fileTs (List.mem_map_of_mem (List.mem_singleton_self live))
        omega
  · exact fun hone => scans_all hstamped (h.ordered hone) hclock

end

end Engine

namespace Session

/-- What holds of a run whose restarts find one log at most. -/
def LogsOrdered : Session → Prop
  | up e _ => e.Stamped ∧ e.OneLoad ∧ e.Placed ∧ e.Cleared ∧ e.Aging ∧ e.Ordered
  | down dir clock => Generated dir clock

theorem Runs.logs_ordered {c : Config} {s : Session}
    (h : Runs c (fun _ e a => e.OldestAppends a) (fun wals => wals.length ≤ 1) s) :
    s.LogsOrdered := by
  induction h with
  | start stamp =>
    exact ⟨Engine.stamped_start c stamp, Engine.one_load_start c stamp, Engine.placed_start c stamp,
      Engine.cleared_start c stamp, Engine.aging_start c stamp, Engine.ordered_start c stamp⟩
  | step _ hok hs ih =>
    obtain ⟨hstamped, hone, hp, hc, haging, hordered⟩ := ih
    exact ⟨Engine.stamped_step hstamped hs, Engine.one_load_step hone hs, Engine.placed_step hp hs,
      Engine.cleared_step hc hone hs, Engine.aging_step haging hok hs,
        Engine.ordered_step hordered hs⟩
  | crash _ ih => exact ih.1.generated
  | restart _ hscan hfound hs _ ih =>
    obtain ⟨_, _, hreopened⟩ := Engine.reopen_some hs
    have hsame := hreopened.scanned.symm.trans hscan
    simp only [Option.some.injEq, Prod.mk.injEq] at hsame
    rw [← hsame.2] at hfound
    exact ⟨hreopened.stamped ih, hreopened.one_load, hreopened.placed, hreopened.cleared,
      hreopened.aging hfound, hreopened.ordered hfound⟩
  | interrupted _ hkept _ hclock hmade hnodup ih =>
    exact generated_interrupted ih hkept hclock hmade hnodup

/-- The logs in the order of their names are those of the queue and of the active memtable, unless a
client has a table in its hands: its log stands between them. -/
theorem logs_in_age_order {c : Config} {e : Engine} {recovered : List Entries}
    (h : Runs c (fun _ e a => e.OldestAppends a) (fun wals => wals.length ≤ 1) (.up e recovered))
    (hclock : e.clock < 2 ^ 128) :
    (e.ScansLogs (e.immutable ++ [e.active]) ↔ e.waiting = []) ∧
      e.ScansLogs (e.immutable ++ e.inHands ++ [e.active]) := by
  obtain ⟨hstamped, _, hp, hc, haging, hordered⟩ := h.logs_ordered
  have hall : e.ScansLogs (e.immutable ++ e.inHands ++ [e.active]) := by
    intro dir hperm
    rw [← Engine.logs_in_order haging hp hc]
    exact Engine.scans_all hstamped hordered hclock dir hperm
  exact ⟨Engine.scans_iff hall haging hp hc, hall⟩

/-- A write and a rotation, so that a crash leaves two logs. -/
def rotatedRun : List Engine.Action :=
  [.spawn] ++ Engine.writeSteps 0 [97] [1] ++ Engine.swapSteps 0 [98] [2] 1 ++
    [.client 0 .append, .client 0 .signal, .client 0 (.retry ⟨0, 0⟩)]

/-- The active memtable's new log gets the timestamp 5, and the other 6. -/
def activeFirst (w : WalArtifact) : LsmliteInner.Stamp := if w.ts = 1 then ⟨5, 0⟩ else ⟨6, 0⟩

/-- The run, a crash and a restart. -/
theorem logs_out_of_order : ∃ e recovered,
    Runs Engine.tinyConfig Unrestricted (fun _ => True) (.up e recovered) ∧ e.clock < 2 ^ 128 ∧
      e.waiting = [] ∧ ¬ e.ScansLogs (e.immutable ++ [e.active]) := by
  have hrun :
      (Engine.runActions Engine.tinyConfig (fun _ _ => True) (Engine.start Engine.tinyConfig ⟨0, 0⟩)
      rotatedRun).bind (fun e => (scanEntries e.disk).map fun files => (e.clock, files.1,
        files.2.map (·.ts),
        (LsmliteInner.new e.disk files.1 files.2 Engine.tinyConfig.lsmlite activeFirst
          ⟨5, 0⟩).isSome,
        (files.2.mapM fun w => (readPath e.disk w.filename).map logEntries).isSome)) =
      some (1, [], [0, 1], true, true) := by
    decide +kernel
  obtain ⟨e, he, hrun⟩ := Option.bind_eq_some_iff.mp hrun
  obtain ⟨⟨sstables, wals⟩, hentries, hstate⟩ := Option.map_eq_some_iff.mp hrun
  simp only [Prod.mk.injEq] at hstate
  obtain ⟨hclock, rfl, hstamps, hdb, hlogs⟩ := hstate
  obtain ⟨w, _, rfl, hts, hrest⟩ := List.map_eq_cons_iff.mp hstamps
  obtain ⟨w', _, rfl, hts', hnil⟩ := List.map_eq_cons_iff.mp hrest
  obtain rfl := List.map_eq_nil_iff.mp hnil
  have hscan : scanDirectory e.disk = some ([], [w, w']) :=
    scanDirectory_sorted hentries .nil (by simp [hts, hts'])
  have hdown : Runs Engine.tinyConfig Unrestricted (fun _ => True) (.down e.disk e.clock) :=
    ((Runs.start ⟨0, 0⟩).run he).crash
  obtain ⟨db, hdb⟩ := Option.isSome_iff_exists.mp hdb
  obtain ⟨recovered, hlogs⟩ := Option.isSome_iff_exists.mp hlogs
  have hnew : NewStamps e.clock [w, w'] activeFirst ⟨5, 0⟩ := by
    simp [NewStamps, activeFirst, hclock, hts, hts']
  obtain ⟨e', he'⟩ := Engine.reopen_of_new hscan hnew hdb rfl
  have hrecovered : recoveredLogs e.disk = some recovered := by
    rw [recoveredLogs, hscan, Option.bind_eq_bind, Option.bind_some]
    exact hlogs
  obtain ⟨_, _, hreopened⟩ := Engine.reopen_some he'
  have hsame := hreopened.scanned.symm.trans hscan
  simp only [Option.some.injEq, Prod.mk.injEq] at hsame
  obtain ⟨rfl, rfl⟩ := hsame
  have hsmall : e'.clock < 2 ^ 128 := by simp [hreopened.clock_eq, activeFirst, hts, hts']
  refine ⟨e', recovered, hdown.restart hscan trivial he' hrecovered, hsmall, ?_, fun hscans => ?_⟩
  · rw [Engine.waiting, hreopened.clients]
    rfl
  · have hone := (hreopened.scans_iff hdown.stamped hsmall).mp hscans
    exact absurd hone (Nat.not_succ_le_self 1)

/-- The same rotation behind a restart that found one log. -/
theorem logs_in_age_order_rotated :
    ∃ e recovered,
    Runs Engine.tinyConfig (fun _ e a => e.OldestAppends a) (fun wals => wals.length ≤ 1)
      (.up e recovered) ∧ e.immutable = [0] ∧ e.waiting = [] ∧
      e.ScansLogs (e.immutable ++ [e.active]) := by
  have hrun : (restartedRun Engine.tinyConfig Engine.OldestAppends (fun wals => wals.length ≤ 1)
      (fun _ => ⟨5, 0⟩) ⟨5, 0⟩ [.spawn]
        ([.spawn] ++ Engine.writeSteps 0 [97] [1] ++ Engine.swapSteps 0 [98] [2] 6 ++
          [.client 0 .append])).map
        (fun r => (r.1.clock, r.1.immutable, r.1.waiting)) = some (6, [0], []) := by
    decide +kernel
  obtain ⟨⟨e, recovered⟩, he, hstate⟩ := Option.map_eq_some_iff.mp hrun
  obtain ⟨hclock, hstate⟩ := Prod.mk.inj hstate
  obtain ⟨hqueue, hwaiting⟩ := Prod.mk.inj hstate
  have hreach := runs_restartedRun he
  exact ⟨e, recovered, hreach, hqueue, hwaiting,
    (logs_in_age_order hreach (by rw [hclock]; decide)).1.mpr hwaiting⟩

end Session

end Lsmlite
