import Mathlib.Logic.Relation
import Lsmlite.DiskMap

/-!
# A restart after a restart

A restart replays each log into a memtable with a log of its own, removes the old log and writes
nothing to the new one. Until the flush task has finished a recovered table's file, its records are
in no file.
-/

namespace Lsmlite
open KeyValue MemtableInner

/-! ## What a restart has read -/

theorem Lists.recoveredLogs {dir : List DirEntry} {sstables wals : List StoredFile}
    (h : Lists dir sstables wals) (hdistinct : Distinct dir) :
    Lsmlite.recoveredLogs dir =
      some (((oldestFirst StoredFile.ts wals).map StoredFile.content).map logEntries) := by
  have hmem : ∀ f ∈ oldestFirst StoredFile.ts wals, f ∈ wals := fun f hf =>
    (newestFirst_perm _ _).mem_iff.mp hf
  rw [Lsmlite.recoveredLogs, h.scanDirectory, Option.bind_eq_bind, Option.bind_some]
  dsimp only
  generalize oldestFirst StoredFile.ts wals = files at hmem ⊢
  induction files with
  | nil => rfl
  | cons f files ih =>
    have hread : readPath dir f.wal.filename = some f.content :=
      readPath_entry hdistinct (h.wal_mem (hmem f (List.mem_cons_self ..)))
    have hrest := ih fun g hg => hmem g (List.mem_cons_of_mem _ hg)
    simp only [List.map_cons, List.mapM_cons, hread, hrest, Option.map_some, Option.bind_eq_bind,
      Option.bind_some, Option.pure_def]

/-- A file holds what the table opened from it does. -/
theorem SSTable.Of.fileHolds {h : Hashing} {s : SSTable} {content : Blob} {es : Entries}
    (hs : s.Of content) (hholds : s.Holds h es) : FileHolds h content es := by
  obtain ⟨opened, hload, hread⟩ := hs
  rw [loadTable, Option.bind_eq_bind, Option.bind_eq_some_iff] at hload
  obtain ⟨r, hr, hload⟩ := hload
  cases r with
  | error err => cases hload
  | ok table =>
    cases hload
    have hfaults := (SSTable.fromFd_readOn hr).faults
    refine ⟨opened, hr, ?_⟩
    constructor
    · rw [← hread.fd.content]
      exact hholds.content
    · exact List.suffix_nil.mp hfaults
    · rw [← hread.index]
      exact hholds.dataBlockEnd
    · rw [← hread.index]
      exact hholds.maps
    · rw [← hread.index]
      exact hholds.formed
    · rw [← hread.index]
      exact hholds.added
    · exact hholds.sorted
    · exact hholds.fits
    · exact hholds.size

namespace Engine

theorem reopen_restart {c : Config} {dir : List DirEntry} {clock : Nat}
    {stamps : WalArtifact → LsmliteInner.Stamp} {fresh : LsmliteInner.Stamp} {e : Engine}
    (hs : reopen c dir clock stamps fresh = some e) :
    ∃ db, LsmliteInner.restart dir c.lsmlite stamps fresh = some db ∧
      e.sstableCache = db.sstableCache := by
  simp only [reopen, Option.bind_eq_bind, Option.bind_eq_some_iff] at hs
  obtain ⟨⟨sstables, wals⟩, hscan, _, _, db, hdb, files, _, hs⟩ := hs
  cases hs
  refine ⟨db, ?_, rfl⟩
  rw [LsmliteInner.restart, hscan]
  exact hdb

section
variable {c : Config} {dir : List DirEntry} {clock : Nat}
  {stamps : WalArtifact → LsmliteInner.Stamp} {fresh : LsmliteInner.Stamp} {e : Engine}
  {recovered ess : List Entries}

/-- What a restart recovers: the logs, and beneath them the tables it has opened. -/
theorem reopen_recovers (hdir : Generated dir clock)
    (hlogs : ∀ log ∈ logsOf dir, Session.LogFits c False log)
    (hs : reopen c dir clock stamps fresh = some e)
    (hrecovered : recoveredLogs dir = some recovered)
    (hcache : SSTableCache.Holds c.hashing e.sstableCache.cache ess) :
    Recovers c.hashing c.lsmlite dir fun key =>
      readEntry (last key (ess.reverse.flatten ++ recovered.flatten)) := by
  obtain ⟨_, _, hreopened⟩ := reopen_some hs
  obtain ⟨files, logs, hlists⟩ := hdir.lists hreopened.scanned
  obtain ⟨db, hdb, hsame⟩ := reopen_restart hs
  obtain ⟨replays, hreplays, htables, _⟩ := hlists.of_restart hdir.pairwise c.lsmlite hdb
  cases (hlists.recoveredLogs hdir.pairwise).symm.trans hrecovered
  rw [← hsame] at htables
  have hcontents : ∀ log ∈ (oldestFirst StoredFile.ts logs).map StoredFile.content,
      Session.LogFits c False log := by
    intro log hlog
    obtain ⟨f, hf, rfl⟩ := List.mem_map.mp hlog
    apply hlogs
    rw [logsOf, hlists.logs, List.map_map]
    exact List.mem_map_of_mem ((newestFirst_perm _ _).mem_iff.mp hf)
  have hrecovers :=
    hlists.recovers hdir.pairwise rfl hcontents (by rwa [List.mapM_map]) htables hcache
  refine hrecovers.congr fun key => ?_
  have hbase := findEntry_reverse key ess.reverse
  rw [List.reverse_reverse] at hbase
  rw [last_append, hbase, List.flatMap_def]

/-- The tables that a restart found are the first on disk. -/
theorem onDisk_reopen (hdir : Generated dir clock) (hs : reopen c dir clock stamps fresh = some e)
    (hcache : SSTableCache.Holds c.hashing e.sstableCache.cache ess) :
    OnDisk c.hashing ess.reverse.flatten recovered e.files.reverse [] ess.reverse e := by
  obtain ⟨_, _, h⟩ := reopen_some hs
  have hopened := (h.in_file_order hdir).opened
  constructor
  · rw [List.append_nil]
    exact (List.reverse_perm _).symm
  · rw [h.flusher]
    rfl
  · rw [List.append_nil, List.map_reverse, List.pairwise_reverse, h.files]
    exact (h.found hdir).1
  · apply List.rel_reverse
    have hboth : ∀ {cache : List SSTable} {fs : List SstFile} {lists : List Entries},
        OpenedFrom cache fs → SSTableCache.Holds c.hashing cache lists →
        List.Forall₂ (fun (f : SstFile) es => FileHolds c.hashing f.content es) fs lists := by
      intro cache fs lists hopened hholds
      induction hopened generalizing lists with
      | nil =>
        cases hholds
        exact .nil
      | cons hs _ ih =>
        cases hholds with
        | cons htable hrest => exact .cons (hs.fileHolds htable) (ih hrest)
    exact hboth hopened hcache
  · have hnone : e.finishedRecords recovered = [] := by
      rw [finishedRecords, finishedTables, h.popped, h.settling, h.flusher]
      rfl
    intro key
    rw [hnone, List.append_nil, findEntry_reverse]
  · intro _
    refine ⟨e.files.reverse, [], (List.append_nil _).symm, ?_, ?_⟩
    · rw [underWay, loads, h.flusher, h.signal, h.compactor]
      rfl
    · rw [List.reverse_reverse]
      exact hopened

end

/-! ## Steps without a new write -/

/-- The step begins a `set` or `delete`. -/
def Action.writes : Action → Bool
  | .client _ (.call _ _) => true
  | _ => false

/-- Nobody has written to the tables that a restart made. -/
structure Unwritten (queued : Nat) (e : Engine) : Prop where
  quiet : ∀ p ∈ e.clients, pending p = none
  empty : ∀ t ∈ e.tables, t.inserted = []
  layers : e.popped ++ e.immutable = List.range queued

/-- A client that reads. -/
theorem Unwritten.reading {queued : Nat} {e e' : Engine} {i : Nat} {q : Phase}
    (h : Unwritten queued e) (hclients : e'.clients = e.clients.set i q) (hq : pending q = none)
    (htables : e'.tables = e.tables)
    (hlayers : e'.popped ++ e'.immutable = e.popped ++ e.immutable) : Unwritten queued e' where
  quiet p hp := by
    rw [hclients] at hp
    rcases List.mem_or_eq_of_mem_set hp with hp | rfl
    · exact h.quiet p hp
    · exact hq
  empty := htables ▸ h.empty
  layers := hlayers.trans h.layers

theorem unwritten_step {c : Config} {queued : Nat} {e e' : Engine} {a : Action}
    (h : Unwritten queued e) (ha : a.writes = false) (hs : step c e a = some e') :
    Unwritten queued e' := by
  have hidle : ∀ {i : Nat} {p : Phase} {w : Write}, e.clients[i]? = some p →
      pending p ≠ some w := by
    intro i p w hi hp
    rw [h.quiet p (List.mem_of_getElem? hi)] at hp
    cases hp
  cases step_cases hs with
  | spawn hopen =>
    refine ⟨fun p hp => ?_, h.empty, h.layers⟩
    rcases List.mem_append.mp hp with hp | hp
    · exact h.quiet p hp
    · rw [List.mem_singleton.mp hp]
      rfl
  | drop hopen _ => exact ⟨h.quiet, h.empty, h.layers⟩
  | client hc =>
    cases hc with
    | call hi hopen key entry => cases ha
    | attemptOk hi htable hw => exact absurd rfl (hidle hi)
    | attemptFull hi htable hw => exact absurd rfl (hidle hi)
    | rotate hi hts => exact absurd rfl (hidle hi)
    | append hi => exact absurd rfl (hidle hi)
    | signal hi => exact absurd rfl (hidle hi)
    | retryOk hi htable hw => exact absurd rfl (hidle hi)
    | retryFull hi htable hw => exact absurd rfl (hidle hi)
    | get hi hopen key => exact h.reading rfl rfl rfl rfl
    | @readMemtable key before table q hi htable hq =>
      cases LsmliteInner.readQuery q <;> exact h.reading rfl rfl rfl rfl
    | @readImmutable key before queue q hi hqueue hq =>
      cases LsmliteInner.readQuery q <;> exact h.reading rfl rfl rfl rfl
    | readSstables hi hr => exact h.reading rfl rfl rfl rfl
  | background hb =>
    cases hb with
    | @removeWal ts i t hf ht =>
      refine ⟨h.quiet, fun t' ht' => ?_, h.layers⟩
      rcases List.mem_or_eq_of_mem_set ht' with ht' | rfl
      · exact h.empty t' ht'
      · exact h.empty t (List.mem_of_getElem? ht)
    | popTable hc =>
      refine ⟨h.quiet, h.empty, ?_⟩
      rw [← h.layers]
      cases e.immutable <;> simp
    | _ => exact ⟨h.quiet, h.empty, h.layers⟩

theorem Unwritten.writesOf {queued : Nat} {e : Engine} (h : Unwritten queued e) (i : Nat) :
    e.writesOf i = [] := by
  rw [Engine.writesOf]
  cases ht : e.tables[i]? with
  | none => rfl
  | some t =>
    show t.writes = []
    rw [Table.writes, h.empty t (List.mem_of_getElem? ht)]
    rfl

theorem flatMap_range_take (recovered : List Entries) (n : Nat) :
    (List.range n).flatMap (fun i => recovered.getD i []) = (recovered.take n).flatten := by
  induction n with
  | zero => rfl
  | succ n ih =>
    rw [List.range_succ, List.flatMap_append, ih, List.take_add_one, List.flatten_append,
      List.flatMap_cons, List.getD_eq_getElem?_getD]
    cases recovered[n]? <;> simp

/-- The finished tables are the first ones, with what was recovered into them. -/
theorem Unwritten.finished {queued : Nat} {e : Engine} (h : Unwritten queued e)
    (recovered : List Entries) :
    ∃ n, e.finishedTables = List.range n ∧
      e.finishedRecords recovered = (recovered.take n).flatten := by
  have hprefix : e.finishedTables <+: List.range queued := by
    rw [← h.layers, finishedTables, List.prefix_append_right_inj]
    exact head_isPrefix _ _
  refine ⟨e.finishedTables.length, prefix_range hprefix, ?_⟩
  rw [← flatMap_range_take, ← prefix_range hprefix, finishedRecords]
  apply List.flatMap_congr
  intro i _
  rw [recordsOf, h.writesOf, List.append_nil]

/-- What holds after a restart as long as nobody writes. -/
structure Restarted (c : Config) (base : Entries) (recovered : List Entries) (queued : Nat)
    (e : Engine) : Prop where
  stamped : Stamped e
  placed : Placed e
  oneLoad : OneLoad e
  cleared : Cleared e
  fits : Session.TablesFit c False recovered e
  unwritten : Unwritten queued e
  onDisk : ∃ done last ess, OnDisk c.hashing base recovered done last ess e

/-- A step without a new write, which keeps the tables. -/
def Recovering (c : Config) (recovered : List Entries) (e e' : Engine) : Prop :=
  ∃ a : Action, a.writes = false ∧ e.KeepsTables recovered a ∧ step c e a = some e'

theorem restarted_step {c : Config} {base : Entries} {recovered : List Entries} {queued : Nat}
    {e e' : Engine} (h : Restarted c base recovered queued e) (hs : Recovering c recovered e e') :
    Restarted c base recovered queued e' := by
  obtain ⟨a, ha, hkeeps, hs⟩ := hs
  obtain ⟨done, last, ess, ho⟩ := h.onDisk
  constructor
  · exact stamped_step h.stamped hs
  · exact placed_step h.placed hs
  · exact one_load_step h.oneLoad hs
  · exact cleared_step h.cleared h.oneLoad hs
  · exact h.fits.step False.elim hs
  · exact unwritten_step h.unwritten ha hs
  · exact on_disk_step ho h.stamped h.placed h.oneLoad h.cleared h.fits hkeeps hs

theorem Restarted.run {c : Config} {base : Entries} {recovered : List Entries} {queued : Nat}
    {e e' : Engine} (h : Restarted c base recovered queued e)
    (hrun : Relation.ReflTransGen (Recovering c recovered) e e') :
    Restarted c base recovered queued e' := by
  induction hrun with
  | refl => exact h
  | tail _ hs ih => exact restarted_step ih hs

/-- The logs are empty. -/
theorem Restarted.logs_empty {c : Config} {base : Entries} {recovered : List Entries}
    {queued : Nat} {e : Engine} (h : Restarted c base recovered queued e) :
    ∀ log ∈ logsOf e.disk, log = [] := by
  intro log hlog
  rw [logsOf, h.stamped.logs, List.map_map] at hlog
  obtain ⟨t, ht, rfl⟩ := List.mem_map.mp hlog
  have hmem := List.mem_of_mem_filter ht
  obtain ⟨i, hi⟩ := List.mem_iff_getElem?.mp hmem
  obtain ⟨filed, buffered, hwal, hwrites⟩ := (h.fits.tables i t hi).1.logged
  rw [Table.writes, h.unwritten.empty t hmem] at hwrites
  obtain ⟨rfl, _⟩ := List.append_eq_nil_iff.mp hwrites
  show t.inner.wal.fd.content = []
  rw [hwal.fd]
  rfl

/-- A second restart recovers what the finished tables hold. -/
theorem Restarted.recovers {c : Config} {base : Entries} {recovered : List Entries} {queued : Nat}
    {e : Engine} (h : Restarted c base recovered queued e)
    (hunfinished : e.flusher.unfinished = []) (hclock : e.clock < 2 ^ 128) {dir : List DirEntry}
    (hperm : dir.Perm e.disk) :
    Recovers c.hashing c.lsmlite dir fun key =>
      readEntry (last key (base ++ e.finishedRecords recovered)) := by
  obtain ⟨done, last, ess, ho⟩ := h.onDisk
  obtain rfl := ho.nothing_last hunfinished
  obtain ⟨sstables, wals, hlists⟩ := (h.stamped.generated.perm hperm).lists_lt hclock
  have hempty : ∀ log ∈ (oldestFirst StoredFile.ts wals).map StoredFile.content, log = [] := by
    intro log hlog
    obtain ⟨f, hf, rfl⟩ := List.mem_map.mp hlog
    apply h.logs_empty
    have hlogs : f.content ∈ logsOf dir := by
      rw [logsOf, hlists.logs, List.map_map]
      exact List.mem_map_of_mem ((newestFirst_perm _ _).mem_iff.mp hf)
    exact ((hperm.filter _).map _).mem_iff.mp hlogs
  have hrecovers := ho.recovers h.stamped hperm hlists rfl fun log hlog => by
    rw [hempty log hlog]
    exact Session.logFits_nil c True
  have hnone :
      ((oldestFirst StoredFile.ts wals).map StoredFile.content).flatMap logEntries = [] := by
    rw [List.flatMap_eq_nil_iff]
    intro log hlog
    rw [hempty log hlog]
    rfl
  rwa [hnone, List.append_nil] at hrecovers

theorem restarted_reopen {c : Config} {dir : List DirEntry} {clock : Nat}
    {stamps : WalArtifact → LsmliteInner.Stamp} {fresh : LsmliteInner.Stamp} {e : Engine}
    {recovered ess : List Entries} (hdir : Generated dir clock)
    (hlogs : ∀ log ∈ logsOf dir, Session.LogFits c False log)
    (hs : reopen c dir clock stamps fresh = some e)
    (hrecovered : recoveredLogs dir = some recovered)
    (hcache : SSTableCache.Holds c.hashing e.sstableCache.cache ess) :
    Restarted c ess.reverse.flatten recovered e.immutable.length e := by
  obtain ⟨_, _, h⟩ := reopen_some hs
  constructor
  · exact h.stamped hdir
  · exact h.placed
  · exact h.one_load
  · exact h.cleared
  · exact Session.tablesFit_reopen hlogs hs hrecovered
  · refine ⟨fun p hp => ?_, fun t ht => ?_, ?_⟩
    · rw [h.clients] at hp
      cases hp
    · rcases reopen_tables hs hrecovered with ⟨_, htables⟩ | hreplays
      · rw [htables] at ht
        rw [List.mem_singleton.mp ht]
        rfl
      · obtain ⟨_, _, _, _, _, _, _, _, rfl⟩ := exists_of_forall₂ hreplays.flip ht
        rfl
    · rw [h.popped, h.queue, List.nil_append, List.length_range]
  · exact ⟨_, _, _, onDisk_reopen hdir hs hcache⟩

/-- Where a record of a recovered table without a finished file is the newest of its key, the tables
on disk say the same of the key. -/
def NothingUnfinished (base : Entries) (recovered : List Entries) (e : Engine) : Prop :=
  ∀ i < recovered.length, i ∉ e.finishedTables → ∀ w ∈ recovered.getD i [],
    last w.1 (base ++ recovered.flatten) = some w.2 →
      readEntry (last w.1 (base ++ e.finishedRecords recovered)) = readEntry (some w.2)

instance (base : Entries) (recovered : List Entries) (e : Engine) :
    Decidable (e.NothingUnfinished base recovered) :=
  inferInstanceAs (Decidable (∀ i < recovered.length, i ∉ e.finishedTables →
    ∀ w ∈ recovered.getD i [],
    last w.1 (base ++ recovered.flatten) = some w.2 →
      readEntry (last w.1 (base ++ e.finishedRecords recovered)) = readEntry (some w.2)))

theorem mem_unfinished {recovered : List Entries} {n : Nat} {w : Blob × Entry}
    (hw : w ∈ (recovered.drop n).flatten) :
    ∃ i < recovered.length, n ≤ i ∧ w ∈ recovered.getD i [] := by
  obtain ⟨ws, hws, hw⟩ := List.mem_flatten.mp hw
  obtain ⟨i, hi, rfl⟩ := List.getElem_of_mem hws
  rw [List.length_drop] at hi
  refine ⟨n + i, by omega, Nat.le_add_right n i, ?_⟩
  rw [List.getD_eq_getElem _ _ (by omega)]
  rwa [List.getElem_drop] at hw

/-- What is on disk and what was recovered say the same of every key. -/
theorem Unwritten.same_iff {queued : Nat} {e : Engine} (h : Unwritten queued e) (base : Entries)
    (recovered : List Entries) :
    (∀ key, readEntry (last key (base ++ e.finishedRecords recovered)) =
        readEntry (last key (base ++ recovered.flatten))) ↔ e.NothingUnfinished base recovered := by
  constructor
  · intro hsame i _ _ w _ hlast
    rw [hsame, hlast]
  · intro hnothing key
    obtain ⟨n, hfinished, hrecords⟩ := h.finished recovered
    have hall : base ++ recovered.flatten = base ++ e.finishedRecords recovered ++
        (recovered.drop n).flatten := by
      rw [hrecords, List.append_assoc, ← List.flatten_append, List.take_append_drop]
    cases hrest : last key (recovered.drop n).flatten with
    | none => rw [hall, last_append key (base ++ _), hrest, Option.none_or]
    | some entry =>
      have hnewest : last key (base ++ recovered.flatten) = some entry := by
        rw [hall, last_append, hrest, Option.some_or]
      obtain ⟨i, hi, hle, hw⟩ := mem_unfinished (mem_of_last hrest)
      rw [hnewest]
      apply hnothing i hi _ (key, entry) hw hnewest
      rw [hfinished, List.mem_range, Nat.not_lt]
      exact hle

end Engine

namespace Session
open Engine

/-- A second restart recovers what the first did if and only if no recovered table without a
finished file has anything new. -/
theorem restart_repeats_iff {c : Config} {dir dir' listed : List DirEntry} {clock : Nat}
    {stamps : WalArtifact → LsmliteInner.Stamp} {fresh : LsmliteInner.Stamp} {e e' : Engine}
    {recovered ess : List Entries}
    (h : Runs c (fun _ _ _ => True) (fun _ => True) (.down dir clock)) (hlisted : listed.Perm dir)
    (hs : reopen c listed clock stamps fresh = some e)
    (hrecovered : recoveredLogs listed = some recovered)
    (hcache : SSTableCache.Holds c.hashing e.sstableCache.cache ess)
    (hrun : Relation.ReflTransGen (Recovering c recovered) e e')
    (hunfinished : e'.flusher.unfinished = []) (hclock : e'.clock < 2 ^ 128)
    (hdir' : dir'.Perm e'.disk) :
    (∃ map, Recovers c.hashing c.lsmlite listed map ∧ Recovers c.hashing c.lsmlite dir' map) ↔
      e'.NothingUnfinished ess.reverse.flatten recovered := by
  have hstamped : Generated dir clock := h.stamped
  have hgenerated := hstamped.perm hlisted
  have hlogs : ∀ log ∈ logsOf listed, LogFits c False log := by
    intro log hlog
    exact (h.reaches.fits False False.elim).logs log (((hlisted.filter _).map _).mem_iff.mp hlog)
  have hfirst := reopen_recovers hgenerated hlogs hs hrecovered hcache
  have hrestarted := (restarted_reopen hgenerated hlogs hs hrecovered hcache).run hrun
  have hsecond := hrestarted.recovers hunfinished hclock hdir'
  rw [← hrestarted.unwritten.same_iff]
  constructor
  · rintro ⟨map, hmap, hmap'⟩ key
    rw [congrFun (hsecond.unique hmap') key, congrFun (hfirst.unique hmap) key]
  · intro hsame
    exact ⟨_, hfirst, hsecond.congr hsame⟩

/-! ## Runs on fixed inputs -/

/-- A run, a crash and a restart. -/
def restartAfter (c : Config) (actions : List Action) :
    Option (Engine × Engine × List Entries) := do
  let e ← runActions c (fun _ _ => True) (start c ⟨0, 0⟩) actions
  let e' ← reopen c e.disk e.clock (fun _ => ⟨20, 600⟩) ⟨20, 600⟩
  let recovered ← recoveredLogs e.disk
  return (e, e', recovered)

theorem of_restartAfter {c : Config} {actions : List Action} {e e' : Engine}
    {recovered : List Entries} (hr : restartAfter c actions = some (e, e', recovered)) :
    Runs c (fun _ _ _ => True) (fun _ => True) (.down e.disk e.clock) ∧
      reopen c e.disk e.clock (fun _ => ⟨20, 600⟩) ⟨20, 600⟩ = some e' ∧
      recoveredLogs e.disk = some recovered := by
  simp only [restartAfter, Option.bind_eq_bind, Option.bind_eq_some_iff] at hr
  obtain ⟨e1, h1, e2, h2, recovered', h3, hr⟩ := hr
  cases hr
  exact ⟨((Runs.start ⟨0, 0⟩).run h1).crash, h2, h3⟩

theorem recovering_runActions {c : Config} {recovered : List Entries} {actions : List Action}
    {e e' : Engine}
    (hr : runActions c (fun _ a => a.writes = false ∧ a.leavesTables = true) e actions = some e') :
    Relation.ReflTransGen (Recovering c recovered) e e' := by
  induction actions generalizing e with
  | nil =>
    cases hr
    exact .refl
  | cons a actions ih =>
    simp only [runActions, List.foldlM_cons, Option.bind_eq_bind, Option.bind_eq_some_iff] at hr
    obtain ⟨e1, h1, hr⟩ := hr
    split at h1
    · rename_i hok
      exact .head ⟨a, hok.1, keepsTables_of_leaves hok.2, h1⟩ (ih hr)
    · cases h1

/-- A crash right after a restart takes the record that the log had. -/
theorem restart_forgets :
    ∃ (dir : List DirEntry) (clock : Nat) (stamps : WalArtifact → LsmliteInner.Stamp)
      (fresh : LsmliteInner.Stamp) (e : Engine),
    Runs hundredConfig (fun _ _ _ => True) (fun _ => True) (.down dir clock) ∧
      reopen hundredConfig dir clock stamps fresh = some e ∧
      ¬ ∃ map, Recovers flatHashing hundredConfig.lsmlite dir map ∧
        Recovers flatHashing hundredConfig.lsmlite e.disk map := by
  have hrun : (restartAfter hundredConfig ([.spawn] ++ setAt [97] [1] 0 ++ setAt [98] [1] 500)).map
      (fun r => decide (r.2.1.clock < 2 ^ 128 ∧ r.2.1.sstableCache.cache = [] ∧
          r.2.2 = [[([97], .data [1])]] ∧ r.2.1.finishedRecords r.2.2 = [])) = some true := by
    decide +kernel
  obtain ⟨⟨e, e', recovered⟩, he, hend⟩ := Option.map_eq_some_iff.mp hrun
  obtain ⟨hclock, hnone, hrecords, hfinished⟩ := of_decide_eq_true hend
  dsimp only at hclock hnone hrecords hfinished
  obtain ⟨hruns, hs, hrecovered⟩ := of_restartAfter he
  have hlogs := (hruns.reaches.fits False False.elim).logs
  have hcache : SSTableCache.Holds hundredConfig.hashing e'.sstableCache.cache [] := by
    rw [hnone]
    exact .nil
  have hwaiting : e'.flusher.unfinished = [] := by
    obtain ⟨_, _, hreopened⟩ := reopen_some hs
    rw [hreopened.flusher]
    rfl
  have hrestarted := restarted_reopen hruns.stamped hlogs hs hrecovered hcache
  refine ⟨_, _, _, _, e', hruns, hs, ?_⟩
  rintro ⟨map, hmap, hmap'⟩
  have hfirst :=
    congrFun ((reopen_recovers hruns.stamped hlogs hs hrecovered hcache).unique hmap) [97]
  have hsecond :=
    congrFun ((hrestarted.recovers hwaiting hclock (List.Perm.refl _)).unique hmap') [97]
  rw [← hsecond, hfinished, hrecords] at hfirst
  revert hfirst
  decide

/-- A value in one log, and in the next the tombstone of a key whose value no file has. -/
def twoLogsRun : List Action :=
  [.spawn] ++ setAt [97] [1] 0 ++ setAt [98] (List.replicate 100 0) 500 ++
    [.client 0 (.call [98] .tombstone), .client 0 (.attempt ⟨500, 500⟩), .client 0
      (.rotate ⟨1, 500⟩), .client 0 .append, .client 0 .signal, .client 0 (.retry ⟨500, 500⟩)] ++
      setAt [99] [1] 1000

def twoLogs : List DirEntry :=
  [walEntry 0 (logBlob [([97], .data [1])]), walEntry 1 (logBlob [([98], .tombstone)])]

theorem twoLogs_left :
    Runs hundredConfig (fun _ _ _ => True) (fun _ => True) (.down twoLogs 1) := by
  have hrun : (runActions hundredConfig (fun _ _ => True) (start hundredConfig
      ⟨0, 0⟩) twoLogsRun).map (fun e => decide (e.disk = twoLogs ∧ e.clock = 1)) = some true := by
    decide +kernel
  obtain ⟨e, he, hend⟩ := Option.map_eq_some_iff.mp hrun
  obtain ⟨hdisk, hclock⟩ := of_decide_eq_true hend
  rw [← hdisk, ← hclock]
  exact ((Runs.start ⟨0, 0⟩).run he).crash

theorem twoLogs_scanned : scanDirectory twoLogs =
    some ([], [⟨(walEntry 0 []).path, 0⟩, ⟨(walEntry 1 []).path, 1⟩]) :=
  scanDirectory_sorted (by decide +kernel) .nil (by simp)

/-- The table of the first log is flushed before the second crash, and its value is read from the
file; the second log's tombstone is in no file then. -/
theorem restart_repeats_flushed :
    ∃ (dir : List DirEntry) (clock : Nat) (stamps : WalArtifact → LsmliteInner.Stamp)
      (fresh : LsmliteInner.Stamp) (e e' : Engine) (recovered : List Entries),
    Runs hundredConfig (fun _ _ _ => True) (fun _ => True) (.down dir clock) ∧
      reopen hundredConfig dir clock stamps fresh = some e ∧
      recovered = [[([97], .data [1])], [([98], .tombstone)]] ∧
      Relation.ReflTransGen (Recovering hundredConfig recovered) e e' ∧ e'.finishedTables = [0] ∧
      e'.answers.map (·.result) = [some [1]] ∧ e'.NothingUnfinished [] recovered ∧
      ∃ map, Recovers flatHashing hundredConfig.lsmlite dir map ∧
        Recovers flatHashing hundredConfig.lsmlite e'.disk map := by
  have hrecovered : recoveredLogs twoLogs = some [[([97], .data [1])], [([98], .tombstone)]] := by
    rw [recoveredLogs, twoLogs_scanned]
    decide +kernel
  have hrun :
      ((reopen hundredConfig twoLogs 1 (fun w => ⟨20 - w.ts, 1000⟩) ⟨20, 1000⟩).bind fun e =>
      (runActions hundredConfig (fun _ a => a.writes = false ∧ a.leavesTables = true) e
        [.spawn, .background .receiveFlush, .background (.createFile 30),
            .background .takeFront]).bind fun e1 =>
      (step hundredConfig e1 (.background .finishFile)).bind fun e2 =>
      (runActions hundredConfig (fun _ a => a.writes = false ∧ a.leavesTables = true) e2
        ((flushCycle 30).drop 4 ++ getSteps 0 [97] ++ [.client 0 .readSstables])).map fun e3 =>
          (e, e1, e2, e3)).map
      (fun r => decide (r.1.sstableCache.cache = [] ∧ r.2.1.flusher = .writing 30 0 ∧
        ofWrites (r.2.1.recordsOf [[([97], .data [1])], [([98], .tombstone)]] 0) =
          [([97], .data [1])] ∧
        r.2.2.2.finishedTables = [0] ∧ r.2.2.2.answers.map (·.result) = [some [1]] ∧
        r.2.2.2.NothingUnfinished [] [[([97], .data [1])], [([98], .tombstone)]] ∧
        r.2.2.2.flusher = .waiting ∧ r.2.2.2.clock < 2 ^ 128)) = some true := by
    rw [reopen, twoLogs_scanned]
    decide +kernel
  obtain ⟨⟨e, e1, e2, e3⟩, hsteps, hend⟩ := Option.map_eq_some_iff.mp hrun
  obtain ⟨e', hs, hsteps⟩ := Option.bind_eq_some_iff.mp hsteps
  obtain ⟨e1', h1, hsteps⟩ := Option.bind_eq_some_iff.mp hsteps
  obtain ⟨e2', h2, hsteps⟩ := Option.bind_eq_some_iff.mp hsteps
  obtain ⟨e3', h3, hsteps⟩ := Option.map_eq_some_iff.mp hsteps
  cases hsteps
  obtain ⟨hnone, hflusher, hwrites, hfinished, hanswers, hnothing, hwaiting, hclock⟩ :=
    of_decide_eq_true hend
  dsimp only at hnone hflusher hwrites hfinished hanswers hnothing hwaiting hclock
  have hcache : SSTableCache.Holds hundredConfig.hashing e.sstableCache.cache [] := by
    rw [hnone]
    exact .nil
  have hkeeps :
      e1.KeepsTables [[([97], .data [1])], [([98], .tombstone)]] (.background .finishFile) := by
    simp only [KeepsTables, hflusher, hwrites]
    exact representable_short (by decide +kernel)
  have hreach :=
    ((recovering_runActions h1).tail ⟨_, rfl, hkeeps, h2⟩).trans (recovering_runActions h3)
  refine ⟨_, _, _, _, e, e3, _, twoLogs_left, hs, rfl, hreach, hfinished, hanswers, hnothing, ?_⟩
  exact (restart_repeats_iff twoLogs_left (List.Perm.refl _) hs hrecovered hcache hreach
    (by rw [hwaiting]; rfl) hclock (List.Perm.refl _)).mpr hnothing

end Session

end Lsmlite
