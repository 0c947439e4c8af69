import Lsmlite.DiskTables
import Lsmlite.WalOrder
import Lsmlite.WriteCrash

/-!
# The map on disk

A restart recovers the newest record of each key in the engine's files: the finished tables, and
above them what the logs that are left have in their files. What a log buffers is not there.
-/

namespace Lsmlite
open KeyValue MemtableInner

/-! ## What a restart recovers -/

/-- The newest records of the logs, and beneath them those of the tables, are `map`. -/
def Recovers (h : Hashing) (config : LsmliteConfig) (dir : List DirEntry)
    (map : Blob → Option Blob) : Prop :=
  ∀ clock : RestartClock, ∃ db ess, LsmliteInner.restart dir config clock.stamps clock.fresh =
    some db ∧ SSTableCache.Holds h db.sstableCache.cache ess ∧
    ∀ key, readEntry ((db.logged key).or (findEntry key ess)) = map key

theorem Recovers.congr {h : Hashing} {config : LsmliteConfig} {dir : List DirEntry}
    {map map' : Blob → Option Blob} (hmap : Recovers h config dir map)
    (hsame : ∀ key, map key = map' key) : Recovers h config dir map' := by
  rwa [← show map = map' from funext hsame]

/-- A table's records are read off its file. -/
theorem SSTable.Holds.unique {h : Hashing} {s : SSTable} {es es' : Entries} (hs : s.Holds h es)
    (hs' : s.Holds h es') : es = es' := by
  obtain ⟨suf, hcontent⟩ := hs.content
  obtain ⟨suf', hcontent'⟩ := hs'.content
  have hlength : (logBlob es).length = (logBlob es').length :=
    Nat.add_left_cancel (hs.dataBlockEnd.symm.trans hs'.dataBlockEnd)
  have hblob :=
    List.append_inj_left (List.append_cancel_left (hcontent.symm.trans hcontent')) hlength
  rw [← logEntries_logBlob hs.fits, hblob, logEntries_logBlob hs'.fits]

theorem cache_unique {h : Hashing} {tables : List SSTable} {ess ess' : List Entries}
    (hs : SSTableCache.Holds h tables ess) (hs' : SSTableCache.Holds h tables ess') :
    ess = ess' := by
  induction hs generalizing ess' with
  | nil =>
    cases hs'
    rfl
  | cons htable _ ih =>
    cases hs' with
    | cons htable' hrest' => rw [htable.unique htable', ih hrest']

/-- There is one map to recover. -/
theorem Recovers.unique {h : Hashing} {config : LsmliteConfig} {dir : List DirEntry}
    {map map' : Blob → Option Blob} (hmap : Recovers h config dir map)
    (hmap' : Recovers h config dir map') : map = map' := by
  obtain ⟨db, ess, hdb, hess, hkeys⟩ := hmap zeroClock
  obtain ⟨db', ess', hdb', hess', hkeys'⟩ := hmap' zeroClock
  cases hdb.symm.trans hdb'
  cases cache_unique hess hess'
  funext key
  rw [← hkeys, hkeys']

/-! ## The logs -/

/-- The lists together, the last one first, are read as one. -/
theorem findEntry_reverse (key : Blob) (ess : List Entries) :
    findEntry key ess.reverse = last key ess.flatten := by
  induction ess with
  | nil => rfl
  | cons es ess ih =>
    have hes : findEntry key [es] = last key es := by
      rw [findEntry_cons]
      exact Option.or_none
    rw [List.reverse_cons, findEntry_append, ih, hes, List.flatten_cons, last_append]

/-- A log that is replayed has its records in the table. -/
theorem replayLog_last {c : Config} {log : Blob} {es : Entries} (h : Session.LogFits c False log)
    (hes : replayLog c.lsmlite log = some es) (key : Blob) :
    last key es = last key (logEntries log) := by
  obtain ⟨ws, rfl, hfits, _, _⟩ := h
  rw [last_replayed hfits hes, logEntries_logBlob hfits]

theorem replayLogs_last {c : Config} {logs : List Blob} {ess : List Entries}
    (h : ∀ log ∈ logs, Session.LogFits c False log)
    (hess : logs.mapM (replayLog c.lsmlite) = some ess) (key : Blob) :
    findEntry key ess.reverse = last key (logs.flatMap logEntries) := by
  rw [findEntry_reverse]
  have hreplays := mapM_some hess
  clear hess
  induction hreplays with
  | nil => rfl
  | @cons log es logs ess hes _ ih =>
    rw [List.flatten_cons, last_append, ih fun log' hlog' => h log' (List.mem_cons_of_mem _ hlog'),
      replayLog_last (h log (List.mem_cons_self ..)) hes, List.flatMap_cons, last_append]

theorem replayLogs_fit {c : Config} {logs : List Blob}
    (h : ∀ log ∈ logs, Session.LogFits c True log) :
    ∃ ess, logs.mapM (replayLog c.lsmlite) = some ess := by
  induction logs with
  | nil => exact ⟨[], rfl⟩
  | cons log logs ih =>
    obtain ⟨ws, rfl, hfits, hnodes, hsizes⟩ := h log (List.mem_cons_self ..)
    obtain ⟨t, ht⟩ := (fromWal_iff hfits hnodes (Wal.new 0 0 [])).mpr (hsizes trivial)
    have hreplay : replayLog c.lsmlite (logBlob ws) = some t.encodedEntries :=
      Option.map_eq_some_iff.mpr ⟨t, ht, rfl⟩
    obtain ⟨ess, hess⟩ := ih fun log' hlog' => h log' (List.mem_cons_of_mem _ hlog')
    refine ⟨t.encodedEntries :: ess, ?_⟩
    rw [List.mapM_cons, hreplay, hess]
    rfl

theorem logFits_unsized {c : Config} {sized : Prop} {log : Blob} (h : Session.LogFits c sized log) :
    Session.LogFits c False log := by
  obtain ⟨ws, hlog, hfits, hnodes, _⟩ := h
  exact ⟨ws, hlog, hfits, hnodes, False.elim⟩

/-- A restart that replays the logs and opens the tables recovers what they hold. -/
theorem Lists.recovers {c : Config} {dir : List DirEntry} {sstables wals : List StoredFile}
    (h : Lists dir sstables wals) (hdistinct : Distinct dir) {contents : List Blob}
    {logs : List Entries}
    (hcontents : (oldestFirst StoredFile.ts wals).map StoredFile.content = contents)
    (hfits : ∀ log ∈ contents, Session.LogFits c False log)
    (hlogs : contents.mapM (replayLog c.lsmlite) = some logs) {tables : List SSTable}
    {ess : List Entries}
    (htables : (newestFirst StoredFile.ts sstables).mapM (fun f => loadTable f.content) =
      some tables) (hcache : SSTableCache.Holds c.hashing tables ess) :
    Recovers c.hashing c.lsmlite dir fun key =>
      readEntry ((last key (contents.flatMap logEntries)).or (findEntry key ess)) := by
  intro clock
  have hreplay := hlogs
  rw [← hcontents, List.mapM_map] at hreplay
  obtain ⟨db, hdb⟩ := h.restart hdistinct c.lsmlite hreplay htables clock.stamps clock.fresh
  obtain ⟨logs', hlogs', htables', hlogged⟩ := h.of_restart hdistinct c.lsmlite hdb
  cases hreplay.symm.trans hlogs'
  cases htables.symm.trans htables'
  refine ⟨db, ess, hdb, hcache, fun key => ?_⟩
  rw [hlogged, replayLogs_last hfits hlogs]

/-- Logs in the order of their timestamps are replayed in this order. -/
theorem Lists.log_contents {dir : List DirEntry} {sstables wals : List StoredFile}
    (h : Lists dir sstables wals) {logs : List (Nat × Blob)}
    (hsorted : (logs.map Prod.fst).Pairwise (· < ·))
    (hperm : (dir.filter isLog).Perm (logs.map fun log => walEntry log.1 log.2)) :
    (oldestFirst StoredFile.ts wals).map StoredFile.content = logs.map Prod.snd := by
  have hinj : Function.Injective fun log : Nat × Blob => walEntry log.1 log.2 := by
    intro log log' hsame
    exact Prod.ext (generateWalFileName_inj (congrArg DirEntry.name hsame))
      (congrArg DirEntry.content hsame)
  have hpairs : logs.Perm (wals.map fun f => (f.ts, f.content)) := by
    rw [← List.map_perm_map_iff hinj, List.map_map]
    rw [h.logs] at hperm
    exact hperm.symm
  have hnodup :
      ((wals.map fun f => (f.ts, f.content)).map fun log => OrderDual.toDual log.1).Nodup := by
    rw [← (hpairs.map _).nodup_iff]
    exact List.pairwise_map.mpr ((List.pairwise_map.mp hsorted).imp fun hlt => Nat.ne_of_lt hlt)
  have hordered := newestFirst_eq (fun log : Nat × Blob => OrderDual.toDual log.1) hnodup hpairs
    ((List.pairwise_map.mp hsorted).imp fun hlt => Nat.le_of_lt hlt)
  rw [newestFirst_map] at hordered
  rw [← hordered, List.map_map]
  rfl

/-! ## The files of the engine -/

def isTable (e : DirEntry) : Bool := DatabaseFile.fromPath e.path = some (some .sstable)

theorem isTable_wal (ts : Nat) (content : Blob) : isTable (walEntry ts content) = false := by
  have hpath : DatabaseFile.fromPath (walEntry ts content).path = some (some .wal) :=
    fromPath_wal ts
  simp [isTable, hpath]

theorem isTable_sstable (ts : Nat) (content : Blob) : isTable (sstableEntry ts content) = true := by
  have hpath : DatabaseFile.fromPath (sstableEntry ts content).path = some (some .sstable) :=
    fromPath_sstable ts
  simp [isTable, hpath]

theorem Lists.tables {dir : List DirEntry} {sstables wals : List StoredFile}
    (h : Lists dir sstables wals) :
    dir.filter isTable = (sstables.map StoredFile.file).map Engine.dirEntry := by
  induction h with
  | nil => rfl
  | sstable f _ ih =>
    rw [List.filter_cons_of_pos (isTable_sstable f.ts f.content), ih]
    rfl
  | wal f _ ih => rw [List.filter_cons_of_neg (by simp [isTable_wal]), ih]
  | other hother _ ih => rw [List.filter_cons_of_neg (by simp [isTable, hother]), ih]

/-- What a log has in its file, and what it buffers. -/
def Table.filed (t : Table) : Entries := logEntries t.inner.wal.fd.content

def Table.buffered (t : Table) : Entries := logEntries t.inner.wal.buffer

namespace Engine

theorem Stamped.tables {e : Engine} (h : Stamped e) :
    e.disk.filter isTable = e.files.map dirEntry := by
  obtain ⟨tss, hwals, _, _⟩ := h.wals
  rw [disk, List.filter_append, List.filter_eq_self.mpr, List.filter_eq_nil_iff.mpr,
    List.append_nil]
  · intro d hd
    obtain ⟨t, ht, rfl⟩ := List.mem_map.mp hd
    have hmem : t.inner.wal.filename ∈ e.walFiles := List.mem_map_of_mem (List.mem_filter.mp ht).1
    rw [hwals] at hmem
    obtain ⟨ts, _, hname⟩ := List.mem_map.mp hmem
    rw [logEntry, ← hname]
    exact Bool.not_eq_true _ ▸ isTable_wal ts _
  · intro d hd
    obtain ⟨f, _, rfl⟩ := List.mem_map.mp hd
    exact isTable_sstable f.ts f.content

/-- A listing of the directory has the engine's tables. -/
theorem Stamped.listed_tables {e : Engine} (h : Stamped e) {dir : List DirEntry}
    (hperm : dir.Perm e.disk) {sstables wals : List StoredFile} (hlists : Lists dir sstables wals) :
    (sstables.map StoredFile.file).Perm e.files := by
  have hinj : Function.Injective dirEntry := by
    intro f f' hsame
    have hts := generateSstableFileName_inj (congrArg DirEntry.name hsame)
    have hcontent := congrArg DirEntry.content hsame
    cases f
    cases f'
    cases hts
    cases hcontent
    rfl
  rw [← List.map_perm_map_iff hinj, ← hlists.tables, ← h.tables]
  exact hperm.filter _

/-- And its logs, which are scanned from the oldest table's to the newest one's. -/
theorem Ordered.listed_logs {e : Engine} (h : Ordered e) (hstamped : Stamped e)
    {dir : List DirEntry} (hperm : dir.Perm e.disk) {sstables wals : List StoredFile}
    (hlists : Lists dir sstables wals) :
    (oldestFirst StoredFile.ts wals).map StoredFile.content =
      e.logged.map (·.inner.wal.fd.content) := by
  obtain ⟨tss, hwals, hsorted, _⟩ := h.logs
  have hlength : e.tables.length = tss.length := by
    simpa [walFiles] using congrArg List.length hwals
  have heq :
      List.Forall₂ (· = ·) (e.tables.map (·.inner.wal.filename)) (tss.map generateWalFileName) := by
    rw [List.forall₂_eq_eq_eq]
    exact hwals
  have hnames := List.forall₂_map_right_iff.mp (List.forall₂_map_left_iff.mp heq)
  have htables : (e.tables.zip tss).map Prod.fst = e.tables := List.map_fst_zip hlength.le
  -- Each table that has its log, with the timestamp of the log.
  obtain ⟨ps, hps⟩ : ∃ ps, ps = (e.tables.zip tss).filter fun p => !p.1.walRemoved := ⟨_, rfl⟩
  have hlogged : e.logged = ps.map Prod.fst := by
    rw [logged, ← htables, List.filter_map, hps]
    rfl
  have hstamps :
      ((ps.map fun p => (p.2, p.1.inner.wal.fd.content)).map Prod.fst).Pairwise (· < ·) := by
    have hsub : (ps.map Prod.snd).Sublist tss := by
      have hall : (ps.map Prod.snd).Sublist ((e.tables.zip tss).map Prod.snd) := by
        rw [hps]
        exact List.filter_sublist.map _
      rwa [List.map_snd_zip hlength.ge] at hall
    rw [List.map_map]
    exact hsorted.sublist hsub
  have hentries : (dir.filter isLog).Perm
      ((ps.map fun p => (p.2, p.1.inner.wal.fd.content)).map fun log => walEntry log.1 log.2) := by
    refine (hperm.filter isLog).trans ?_
    rw [hstamped.logs, hlogged, List.map_map, List.map_map]
    refine List.Perm.of_eq (List.map_congr_left fun p hp => ?_)
    rw [hps] at hp
    have hname := (List.forall₂_iff_zip.mp hnames).2 (List.mem_filter.mp hp).1
    show logEntry p.1 = walEntry p.2 _
    rw [logEntry, hname]
    rfl
  rw [hlists.log_contents hstamps hentries, hlogged, List.map_map, List.map_map]
  rfl

/-- A restart loads every finished table. -/
theorem OnDisk.loads {h : Hashing} {base : Entries} {recovered : List Entries}
    {done : List SstFile} {ess : List Entries} {e : Engine}
    (ho : OnDisk h base recovered done [] ess e) {files : List StoredFile}
    (hfiles : (files.map StoredFile.file).Perm e.files) :
    ∃ tables, (newestFirst StoredFile.ts files).mapM (fun f => loadTable f.content) = some tables ∧
      SSTableCache.Holds h tables ess.reverse := by
  have hsorted := ho.sorted
  have hdone := ho.files
  rw [List.append_nil] at hsorted hdone
  replace hfiles := hfiles.trans hdone
  have hnodup : ((files.map StoredFile.file).map SstFile.ts).Nodup := by
    rw [(hfiles.map _).nodup_iff]
    exact hsorted.imp Nat.ne_of_lt
  have hnewest : newestFirst SstFile.ts (files.map StoredFile.file) = done.reverse := by
    refine newestFirst_eq SstFile.ts hnodup (done.reverse_perm.trans hfiles.symm) ?_
    rw [List.pairwise_reverse]
    exact (List.pairwise_map.mp hsorted).imp Nat.le_of_lt
  rw [newestFirst_map] at hnewest
  have hload : ∀ {fs : List SstFile} {lists : List Entries},
      List.Forall₂ (fun (f : SstFile) es => FileHolds h f.content es) fs lists →
      ∃ tables, fs.mapM (fun f => loadTable f.content) = some tables ∧
          SSTableCache.Holds h tables lists := by
    intro fs lists hholds
    induction hholds with
    | nil => exact ⟨[], rfl, .nil⟩
    | cons hfile _ ih =>
      obtain ⟨s, hs, hses⟩ := hfile.loadTable
      obtain ⟨tables, htables, hcache⟩ := ih
      refine ⟨s :: tables, ?_, .cons hses hcache⟩
      rw [List.mapM_cons, hs, htables]
      rfl
  obtain ⟨tables, htables, hcache⟩ := hload (List.rel_reverse ho.holds)
  refine ⟨tables, ?_, hcache⟩
  rw [← hnewest, List.mapM_map] at htables
  exact htables

/-- A restart recovers what its logs and the finished tables hold. -/
theorem OnDisk.recovers {c : Config} {base : Entries} {recovered : List Entries}
    {done : List SstFile} {ess : List Entries} {e : Engine}
    (ho : OnDisk c.hashing base recovered done [] ess e) (hstamped : Stamped e)
    {dir : List DirEntry} (hperm : dir.Perm e.disk) {sstables wals : List StoredFile}
    (hlists : Lists dir sstables wals) {contents : List Blob}
    (hcontents : (oldestFirst StoredFile.ts wals).map StoredFile.content = contents)
    (hfits : ∀ log ∈ contents, Session.LogFits c True log) :
    Recovers c.hashing c.lsmlite dir fun key =>
      readEntry
        (last key (base ++ e.finishedRecords recovered ++ contents.flatMap logEntries)) := by
  have hdistinct := (hstamped.generated.perm hperm).pairwise
  obtain ⟨tables, htables, hcache⟩ := ho.loads (hstamped.listed_tables hperm hlists)
  obtain ⟨logs, hlogs⟩ := replayLogs_fit hfits
  have hrecovers := hlists.recovers hdistinct hcontents (fun log hlog =>
    logFits_unsized (hfits log hlog)) hlogs htables hcache
  refine hrecovers.congr fun key => ?_
  rw [last_append]
  cases last key (contents.flatMap logEntries) with
  | some entry => rfl
  | none => exact ho.same key

/-! ## Tables and files in one order -/

/-- The tables whose logs are gone. -/
def gone (e : Engine) : List Nat := e.popped ++ if e.settling then e.immutable.head?.toList else []

theorem Cleared.gone_iff {e : Engine} (h : Cleared e) (i : Nat) : e.Removed i ↔ i ∈ e.gone := by
  rw [gone, List.mem_append]
  constructor
  · intro hi
    rcases h.removed i hi with hpopped | ⟨hset, rest, hrest⟩
    · exact Or.inl hpopped
    · rw [if_pos hset, hrest]
      exact Or.inr (List.mem_singleton_self i)
  · rintro (hpopped | hfront)
    · exact h.popped i hpopped
    · split at hfront
      · rename_i hset
        obtain ⟨j, ⟨rest, hrest⟩, hgone⟩ := h.settled hset
        rw [hrest] at hfront
        rwa [List.mem_singleton.mp hfront]
      · cases hfront

theorem prefix_range {l : List Nat} {n : Nat} (h : l <+: List.range n) :
    l = List.range l.length := by
  have hle : l.length ≤ n := by simpa using h.length_le
  have htake := List.prefix_iff_eq_take.mp h
  rwa [List.take_range, Nat.min_eq_left hle] at htake

/-- The elements with a property are those from one index on. -/
theorem filter_drop {α : Type} {p : α → Bool} {xs : List α} {n : Nat}
    (h : ∀ i x, xs[i]? = some x → (p x = true ↔ n ≤ i)) : xs.filter p = xs.drop n := by
  induction xs generalizing n with
  | nil => simp
  | cons x xs ih =>
    have hx := h 0 x rfl
    cases n with
    | zero =>
      have hrest := ih (n := 0) fun i y hy => by simpa using h (i + 1) y hy
      rw [List.filter_cons_of_pos (hx.mpr (Nat.le_refl 0)), hrest]
      rfl
    | succ n =>
      have hrest := ih (n := n) fun i y hy => by simpa using h (i + 1) y hy
      rw [List.filter_cons_of_neg (by simp [hx]), hrest]
      rfl

theorem flatMap_range_writes {e : Engine} {n : Nat} (hn : n ≤ e.tables.length) :
    (List.range n).flatMap e.writesOf = (e.tables.take n).flatMap Table.writes := by
  rw [flatMap_index, List.length_take_of_le hn]
  apply List.flatMap_congr
  intro i hi
  rw [List.getElem?_take_of_lt (List.mem_range.mp hi), writesOf]

theorem head_isPrefix (p : Prop) [Decidable p] (l : List Nat) :
    (if p then l.head?.toList else []) <+: l := by
  split
  · cases l with
    | nil => exact List.prefix_rfl
    | cons i rest => exact ⟨rest, rfl⟩
  · exact List.nil_prefix

/-- The finished tables are the first ones. The one whose log is still there is the first of those
that have one. -/
theorem files_in_order {e : Engine}
    (hqueue : e.popped ++ e.immutable <+: List.range e.tables.length) (hcleared : Cleared e)
    (hone : OneLoad e) :
    ∃ cleared left, e.tables = cleared ++ left ∧ e.logged = left ∧
      e.finishedTables.flatMap e.writesOf = cleared.flatMap Table.writes ++
        (if e.flusher.finished then left.head?.toList else []).flatMap Table.writes := by
  have hgone : e.gone <+: List.range e.tables.length := by
    refine List.IsPrefix.trans ?_ hqueue
    rw [gone, List.prefix_append_right_inj]
    exact head_isPrefix _ _
  have hle : e.gone.length ≤ e.tables.length := by simpa using hgone.length_le
  have hrange := prefix_range hgone
  refine ⟨e.tables.take e.gone.length, e.tables.drop e.gone.length,
    (List.take_append_drop ..).symm, ?_, ?_⟩
  · apply filter_drop
    intro i t ht
    have hremoved : e.Removed i ↔ t.walRemoved = true := by simp [Removed, logsRemoved, ht]
    have hlt : i ∈ e.gone ↔ i < e.gone.length := by
      rw [hrange]
      simp
    rw [Bool.not_eq_true', ← Bool.not_eq_true, ← hremoved, hcleared.gone_iff, hlt, Nat.not_lt]
  · rw [← flatMap_range_writes hle, ← hrange]
    by_cases hfin : e.flusher.finished = true
    · cases hf : e.flusher with
      | written ts i =>
        obtain ⟨rest, hrest⟩ := hcleared.front ts i (Or.inr hf)
        have hsettling : e.settling = false := by
          rw [settling_flusher hone (by simp [hf]) (by simp [hf]), hf]
          rfl
        have hpopped : e.gone = e.popped := by simp [gone, hsettling]
        have hfront : i = e.gone.length ∧ i < e.tables.length := by
          have hnext : e.popped ++ [i] <+: List.range e.tables.length := by
            refine List.IsPrefix.trans ?_ hqueue
            rw [hrest, List.prefix_append_right_inj]
            exact ⟨rest, rfl⟩
          have hnext' := prefix_range hnext
          rw [← hpopped, List.length_append, List.length_singleton, List.range_succ] at hnext'
          have hlast := List.append_inj_right' hnext' rfl
          refine ⟨(List.cons.inj hlast).1, ?_⟩
          exact List.mem_range.mp (hnext.subset (by simp))
        have hhead :
            (e.tables.drop e.gone.length).head?.toList.flatMap Table.writes = e.writesOf i := by
          rw [List.head?_drop, ← hfront.1, List.getElem?_eq_getElem hfront.2, writesOf,
            List.getElem?_eq_getElem hfront.2]
          exact List.append_nil _
        rw [if_pos (by rfl), hhead, finishedTables, hf, hpopped, hrest]
        simp [Flusher.finished]
      | _ =>
        rw [hf] at hfin
        cases hfin
    · rw [Bool.not_eq_true] at hfin
      rw [hfin, finishedTables, hfin, Bool.or_false, gone]
      exact (List.append_nil _).symm

/-- A table's records are those filed and then those buffered. -/
theorem parts_of_fits {c : Config} {sized : Prop} {old : Entries} {t : Table}
    (h : Session.TableFits c sized old t) : t.filed ++ t.buffered = t.writes := by
  obtain ⟨filed, buffered, hlog, hwrites⟩ := h.1.logged
  have hfits := h.1.fits
  rw [← hwrites] at hfits
  rw [Table.filed, Table.buffered, hlog.fd, hlog.buffer, logEntries_logBlob,
    logEntries_logBlob, hwrites]
  · exact fun w hw => hfits w (List.mem_append_right _ hw)
  · exact fun w hw => hfits w (List.mem_append_left _ hw)

/-! ## Runs of one process -/

/-- The records in the files of an engine that was started in an empty directory, oldest first. -/
def onFiles (e : Engine) : Entries :=
  e.finishedTables.flatMap e.writesOf ++ e.logged.flatMap Table.filed

/-- What the files of a run rest on. -/
structure Kept (c : Config) (e : Engine) : Prop where
  stamped : Stamped e
  placed : Placed e
  oneLoad : OneLoad e
  cleared : Cleared e
  ordered : Ordered e
  fits : Session.TablesFit c True [] e
  onDisk : ∃ done last ess, OnDisk c.hashing [] [] done last ess e

theorem kept_start (c : Config) (stamp : LsmliteInner.Stamp) : Kept c (start c stamp) where
  stamped := stamped_start c stamp
  placed := placed_start c stamp
  oneLoad := one_load_start c stamp
  cleared := cleared_start c stamp
  ordered := ordered_start c stamp
  fits := by
    refine ⟨Nat.zero_le _, fun i t ht => ?_⟩
    obtain rfl := List.mem_singleton.mp (List.mem_of_getElem? ht)
    exact Session.tableFits_fresh c True stamp
  onDisk := ⟨_, _, _, onDisk_start c.hashing c stamp⟩

/-- A process that recovered nothing counts every write. -/
theorem countsOverwrites_nil (e : Engine) (a : Action) : Session.CountsOverwrites [] e a := by
  have hnone : ∀ (i : Nat) (ws : Entries) (key : Blob) (entry : Entry),
      OverwriteCounted (([] : List Entries).getD i []) ws key entry :=
    fun i ws key entry => Or.inr (Or.inl (by simp [keys]))
  unfold Session.CountsOverwrites
  split
  · split
    · exact Or.inr (hnone ..)
    · trivial
  · split
    · exact Or.inr (hnone ..)
    · trivial
  · trivial

theorem kept_step {c : Config} {e e' : Engine} {a : Action} (h : Kept c e)
    (hok : e.KeepsTables [] a) (hs : step c e a = some e') : Kept c e' where
  stamped := stamped_step h.stamped hs
  placed := placed_step h.placed hs
  oneLoad := one_load_step h.oneLoad hs
  cleared := cleared_step h.cleared h.oneLoad hs
  ordered := ordered_step h.ordered hs
  fits := h.fits.step (fun _ => countsOverwrites_nil e a) hs
  onDisk := by
    obtain ⟨done, last, ess, ho⟩ := h.onDisk
    exact on_disk_step ho h.stamped h.placed h.oneLoad h.cleared h.fits hok hs

/-- While no file is being written, a restart recovers what is in the files. -/
theorem Kept.recovers {c : Config} {e : Engine} (h : Kept c e)
    (hunfinished : e.flusher.unfinished = []) (hclock : e.clock < 2 ^ 128) {dir : List DirEntry}
    (hperm : dir.Perm e.disk) :
    Recovers c.hashing c.lsmlite dir fun key => readEntry (last key e.onFiles) := by
  obtain ⟨done, last, ess, ho⟩ := h.onDisk
  obtain rfl := ho.nothing_last hunfinished
  obtain ⟨sstables, wals, hlists⟩ := (h.stamped.generated.perm hperm).lists_lt hclock
  have hlogs := h.ordered.listed_logs h.stamped hperm hlists
  have hrecovers := ho.recovers h.stamped hperm hlists hlogs fun log hlog => by
    obtain ⟨t, ht, rfl⟩ := List.mem_map.mp hlog
    obtain ⟨i, hi⟩ := List.mem_iff_getElem?.mp (List.mem_of_mem_filter ht)
    exact (h.fits.tables i t hi).log
  rw [List.flatMap_map] at hrecovers
  exact hrecovers

end Engine

end Lsmlite
