import Lsmlite.FileReads
import Lsmlite.MapRuns
import Lsmlite.ReadSources

/-!
# Reads leave no trace

A run without its reads is a run, and it ends in the same state: the same memtables and logs, the
same queue, the same files, the same messages between the tasks. Only the answers are missing, and
the descriptors stand elsewhere.
-/

namespace Lsmlite

/-! ## Tables and their descriptors -/

/-- The same table, its descriptor elsewhere in the same file. -/
structure SSTable.SameFile (s s' : SSTable) : Prop where
  index : s'.index = s.index
  version : s'.version = s.version
  content : s'.fd.content = s.fd.content
  faults : s.fd.faults = []
  faults' : s'.fd.faults = []

theorem SSTable.SameFile.refl {s : SSTable} (h : s.fd.faults = []) : s.SameFile s :=
  ⟨rfl, rfl, rfl, h, h⟩

theorem SSTable.SameFile.readOn {s s' t : SSTable} (h : s.SameFile s') (hread : s.ReadOn t) :
    t.SameFile s' where
  index := h.index.trans hread.index.symm
  version := h.version.trans hread.version.symm
  content := h.content.trans hread.fd.content.symm
  faults := List.suffix_nil.mp (h.faults ▸ hread.fd.faults)
  faults' := h.faults'

theorem SSTableCache.sameFile_readOn {tables tables' read : List SSTable}
    (h : List.Forall₂ SSTable.SameFile tables tables')
    (hread : List.Forall₂ SSTable.ReadOn tables read) :
    List.Forall₂ SSTable.SameFile read tables' := by
  induction h generalizing read with
  | nil =>
    cases hread
    exact .nil
  | cons h _ ih =>
    cases hread with
    | cons hr hrest => exact .cons (h.readOn hr) (ih hrest)

/-- An iterator starts at the header, wherever the descriptor was. -/
theorem SSTableIterator.new_sameFile {s s' t : SSTable} {it : SSTableIterator} (h : s.SameFile s')
    (hnew : SSTableIterator.new s = some (it, t)) :
    ∃ t', SSTableIterator.new s' = some (it, t') ∧ t.SameFile t' := by
  have hs : s.fd = ⟨s.fd.content, s.fd.pos, []⟩ := by rw [← h.faults]
  have hs' : s'.fd = ⟨s.fd.content, s'.fd.pos, []⟩ := by rw [← h.content, ← h.faults']
  have hread := SSTableIterator.new_readOn hnew
  simp only [new, Option.bind_eq_bind, Option.bind_eq_some_iff] at hnew
  obtain ⟨_, hstart, _, hlen, heq⟩ := hnew
  rw [hs, File.seek_nil] at heq
  refine ⟨{ s' with fd := t.fd }, ?_, ?_⟩
  · simp only [new, h.index, hstart, hlen, Option.bind_eq_bind, Option.bind_some]
    rw [hs', File.seek_nil]
    cases heq
    rfl
  · exact ⟨h.index.trans hread.index.symm, h.version.trans hread.version.symm, rfl,
      List.suffix_nil.mp (h.faults ▸ hread.fd.faults),
        List.suffix_nil.mp (h.faults ▸ hread.fd.faults)⟩

theorem tablesToIterators_sameFile {tables tables' read : List SSTable}
    {iters : List SSTableIterator} (h : List.Forall₂ SSTable.SameFile tables tables')
    (hiters : tablesToIterators tables = some (iters, read)) :
    ∃ read', tablesToIterators tables' = some (iters, read') ∧
      List.Forall₂ SSTable.SameFile read read' := by
  induction h generalizing iters read with
  | nil =>
    cases hiters
    exact ⟨[], rfl, .nil⟩
  | cons h _ ih =>
    simp only [tablesToIterators, Option.bind_eq_bind, Option.bind_eq_some_iff] at hiters
    obtain ⟨⟨it, t⟩, hnew, ⟨its, ts⟩, hrest, heq⟩ := hiters
    cases heq
    obtain ⟨t', hnew', ht⟩ := SSTableIterator.new_sameFile h hnew
    obtain ⟨ts', hrest', hts⟩ := ih hrest
    refine ⟨t' :: ts', ?_, .cons ht hts⟩
    simp only [tablesToIterators, hnew', hrest', Option.bind_eq_bind,
      Option.bind_some, Option.pure_def]

theorem SSTable.fromFd_faults {content : Blob} {s : SSTable}
    (h : fromFd (.opened content []) = some (.ok s)) :
    s.fd.faults = [] := List.suffix_nil.mp (fromFd_readOn h).faults

/-- The table of a compaction is opened anew. -/
theorem runCompaction_faults {h : Hashing} {iters : List SSTableIterator} {ts : Nat}
    {table : SSTable} {path : PathBuf} (hrun : runCompaction h iters ts [] = some (table, path)) :
    table.fd.faults = [] := by
  simp only [runCompaction, Option.bind_eq_bind, Option.bind_eq_some_iff] at hrun
  obtain ⟨r, _, hrun⟩ := hrun
  cases r with
  | error err => cases hrun
  | ok writer =>
    simp only [Option.bind_eq_some_iff] at hrun
    obtain ⟨writer', _, ⟨r, file⟩, _, hrun⟩ := hrun
    cases r with
    | error err => cases hrun
    | ok newTablePath =>
      simp only [Option.bind_eq_some_iff] at hrun
      obtain ⟨r, hload, hrun⟩ := hrun
      cases r with
      | error err => cases hrun
      | ok sstable =>
        cases hrun
        exact SSTable.fromFd_faults hload

/-! ## Runs without their reads -/

/-- A client in a read, as if it had not begun it. -/
def Phase.quiet : Phase → Phase
  | .readingMemtable _ _ => .idle
  | .readingImmutable _ _ => .idle
  | .readingSstables _ _ => .idle
  | p => p

namespace Engine

def ClientAction.reads : ClientAction → Bool
  | .get _ => true
  | .readMemtable => true
  | .readImmutable => true
  | .readSstables => true
  | _ => false

def Action.reads : Action → Bool
  | .client _ a => a.reads
  | _ => false

/-- The state without its reads, with the descriptors of `cache`. -/
def unread (e : Engine) (cache : List SSTable) : Engine :=
  { e with
    clients := e.clients.map Phase.quiet
    sstableCache := { e.sstableCache with cache }
    answers := [] }

/-- `e'` is the state of `e` without its reads. -/
structure Unread (e e' : Engine) : Prop where
  tables : List.Forall₂ SSTable.SameFile e.sstableCache.cache e'.sstableCache.cache
  compacted : ∀ ts table, e.compactor = .replacing ts table → table.fd.faults = []
  rest : e' = e.unread e'.sstableCache.cache

theorem unread_start (c : Config) (stamp : LsmliteInner.Stamp) :
    Unread (start c stamp) (start c stamp) where
  tables := .nil
  compacted ts table h := by cases h
  rest := rfl

/-- What a read changes is not seen. -/
theorem unread_moved {e : Engine} {i : Nat} {p : Phase} (q : Phase) (hi : e.clients[i]? = some p)
    (h : q.quiet = p.quiet) (sstableCache : SSTableCache)
    (hrate : sstableCache.compactionRate = e.sstableCache.compactionRate) (answers : List Answer)
    (cache : List SSTable) :
    ({ e.setPhase i q with sstableCache, answers } : Engine).unread cache = e.unread cache := by
  unfold unread setPhase
  simp only [map_set_same hi h, hrate]

/-- A step of a read is not seen. -/
theorem Unread.read_step {c : Config} {e e' e1 : Engine} {i : Nat} {a : ClientAction}
    (h : Unread e e') (hs : ClientStep c e i a e1) (ha : a.reads = true) : Unread e1 e' := by
  have hrest := h.rest
  cases hs with
  | get hi hopen key =>
    exact ⟨h.tables, h.compacted,
      hrest.trans (unread_moved (.readingMemtable key e.returned) hi rfl _ rfl _ _).symm⟩
  | @readMemtable key before table q hi htable hq =>
    cases LsmliteInner.readQuery q with
    | some v =>
      exact ⟨h.tables, h.compacted, hrest.trans (unread_moved .idle hi rfl _ rfl _ _).symm⟩
    | none =>
      exact ⟨h.tables, h.compacted,
        hrest.trans (unread_moved (.readingImmutable key before) hi rfl _ rfl _ _).symm⟩
  | @readImmutable key before queue q hi hqueue hq =>
    cases LsmliteInner.readQuery q with
    | some v =>
      exact ⟨h.tables, h.compacted, hrest.trans (unread_moved .idle hi rfl _ rfl _ _).symm⟩
    | none =>
      exact ⟨h.tables, h.compacted,
        hrest.trans (unread_moved (.readingSstables key before) hi rfl _ rfl _ _).symm⟩
  | @readSstables key before r sstableCache hi hr =>
    have htables := SSTableCache.sameFile_readOn h.tables (SSTableCache.search_readOn hr)
    have hrate : sstableCache.compactionRate = e.sstableCache.compactionRate := by
      obtain ⟨_, _, heq⟩ := Option.map_eq_some_iff.mp hr
      cases heq
      rfl
    exact ⟨htables, h.compacted, hrest.trans (unread_moved .idle hi rfl _ hrate _ _).symm⟩
  | _ => cases ha

/-- What a client does outside its reads, it does without them. -/
theorem unread_client {c : Config} {e e1 : Engine} {i : Nat} {a : ClientAction}
    (hs : ClientStep c e i a e1) (ha : a.reads = false) (cache : List SSTable) :
    clientStep c (e.unread cache) i a = some (e1.unread cache) ∧ e1.sstableCache = e.sstableCache ∧
      e1.compactor = e.compactor := by
  have hclient : ∀ {p : Phase}, e.clients[i]? = some p →
      (e.unread cache).clients[i]? = some p.quiet := by
    intro p hi
    simp only [unread, List.getElem?_map, hi, Option.map_some]
  have htaken : ∀ {t : Table}, e.tables[e.active]? = some t →
      (e.unread cache).tables[(e.unread cache).active]? = some t :=
    id
  have hset : ∀ p q : Phase, q = p.quiet →
      (e.clients.set i p).map Phase.quiet = (e.clients.map Phase.quiet).set i q := by
    rintro p q rfl
    exact List.map_set
  cases hs with
  | call hi hopen key entry =>
    refine ⟨?_, rfl, rfl⟩
    simp only [clientStep, hclient hi, Phase.quiet]
    rw [if_neg (by simp [unread, hopen])]
    simp only [unread, setPhase, hset _ _ rfl, Phase.quiet]
  | @attemptOk w clock table inner hi htable hw =>
    refine ⟨?_, rfl, rfl⟩
    simp only [clientStep, hclient hi, Phase.quiet, tryInsert, htaken htable, hw,
      Option.bind_eq_bind, Option.bind_some, Option.pure_def]
    simp only [unread, took, finish, setPhase, hset _ _ rfl, Phase.quiet]
    rfl
  | @attemptFull w clock table err hi htable hw =>
    refine ⟨?_, rfl, rfl⟩
    simp only [clientStep, hclient hi, Phase.quiet, tryInsert, htaken htable, hw,
      Option.bind_eq_bind, Option.bind_some, Option.pure_def]
    simp only [unread, setPhase, hset _ _ rfl, Phase.quiet]
  | @rotate w stamp hi hts =>
    refine ⟨?_, rfl, rfl⟩
    simp only [clientStep, hclient hi, Phase.quiet]
    rw [if_pos (show (e.unread cache).clock < stamp.fileTs from hts)]
    simp only [unread, setPhase, hset _ _ rfl, Phase.quiet]
    rfl
  | @append w full hi =>
    refine ⟨?_, rfl, rfl⟩
    simp only [clientStep, hclient hi, Phase.quiet]
    simp only [unread, setPhase, hset _ _ rfl, Phase.quiet]
  | @signal w hi =>
    refine ⟨?_, rfl, rfl⟩
    simp only [clientStep, hclient hi, Phase.quiet]
    simp only [unread, setPhase, hset _ _ rfl, Phase.quiet]
  | @retryOk w clock table inner hi htable hw =>
    refine ⟨?_, rfl, rfl⟩
    simp only [clientStep, hclient hi, Phase.quiet, tryInsert, htaken htable, hw,
      Option.bind_eq_bind, Option.bind_some, Option.pure_def]
    simp only [unread, took, finish, setPhase, hset _ _ rfl, Phase.quiet]
    rfl
  | @retryFull w clock table err hi htable hw =>
    refine ⟨?_, rfl, rfl⟩
    simp only [clientStep, hclient hi, Phase.quiet, tryInsert, htaken htable, hw,
      Option.bind_eq_bind, Option.bind_some, Option.pure_def]
    simp only [unread, finish, setPhase, hset _ _ rfl, Phase.quiet]
  | _ => cases ha

/-- What the tasks do, they do without the reads. -/
theorem unread_background {c : Config} {e e1 : Engine} {a : BackgroundAction}
    {cache : List SSTable} (hs : BackgroundStep c e a e1)
    (htables : List.Forall₂ SSTable.SameFile e.sstableCache.cache cache)
    (hcompacted : ∀ ts table, e.compactor = .replacing ts table → table.fd.faults = []) :
    ∃ cache1, backgroundStep c (e.unread cache) a = some (e1.unread cache1) ∧
      List.Forall₂ SSTable.SameFile e1.sstableCache.cache cache1 ∧
      ∀ ts table, e1.compactor = .replacing ts table → table.fd.faults = [] := by
  cases hs with
  | receiveFlush hf hch | stopFlusher hf hch =>
    refine ⟨cache, ?_, htables, hcompacted⟩
    simp only [backgroundStep, unread, hf, hch]
  | createFile hf hts =>
    refine ⟨cache, ?_, htables, hcompacted⟩
    simp only [backgroundStep, unread, hf, if_pos hts]
  | takeFront hf hq =>
    refine ⟨cache, ?_, htables, hcompacted⟩
    simp only [backgroundStep, unread, hf, hq]
  | writePart hf ht hcontent | finishFile hf ht hcontent =>
    refine ⟨cache, ?_, htables, hcompacted⟩
    simp only [backgroundStep, unread, hf, ht, hcontent, Option.bind_eq_bind,
      Option.bind_some, Option.pure_def]
  | removeWal hf ht =>
    refine ⟨cache, ?_, htables, hcompacted⟩
    simp only [backgroundStep, unread, hf, ht, Option.bind_eq_bind,
      Option.bind_some, Option.pure_def]
  | sendLoad hf =>
    refine ⟨cache, ?_, htables, hcompacted⟩
    simp only [backgroundStep, unread, hf]
  | receiveAck hf hack =>
    refine ⟨cache, ?_, htables, hcompacted⟩
    simp only [backgroundStep, unread, hf, if_pos hack]
  | ackLost hf hack hc =>
    refine ⟨cache, ?_, htables, hcompacted⟩
    simp only [backgroundStep, unread, hf, hack, hc, Nat.lt_irrefl, if_false, if_true]
  | receiveLoad hc hch | stopCompactor hc hch =>
    refine ⟨cache, ?_, htables, fun ts table ht => ?_⟩
    · simp only [backgroundStep, unread, hc, hch]
    · cases ht
  | @pushTable ts f table hc hfile htable =>
    have hlength := htables.length_eq
    refine ⟨table :: cache, ?_, .cons (.refl (SSTable.fromFd_faults htable)) htables,
      fun ts table ht => ?_⟩
    · simp only [backgroundStep, unread, hc, hfile, htable, Option.bind_eq_bind, Option.bind_some,
        Option.pure_def, SSTableCache.push, List.length_cons, hlength]
    · cases ht
  | @popTable n hc =>
    refine ⟨cache, ?_, htables, fun ts table ht => ?_⟩
    · simp only [backgroundStep, unread, hc]
    · dsimp only at ht
      split at ht <;> cases ht
  | @compact ts iters read table path hc hts hiters htable =>
    obtain ⟨read', hiters', hread⟩ := tablesToIterators_sameFile htables hiters
    refine ⟨read', ?_, hread, fun ts' table' ht => ?_⟩
    · simp only [backgroundStep, unread, hc, if_pos hts, hiters', htable, Option.bind_eq_bind,
        Option.bind_some, Option.pure_def]
    · cases ht
      exact runCompaction_faults htable
  | @replaceTables ts table hc =>
    refine ⟨[table], ?_, .cons (.refl (hcompacted ts table hc)) .nil, fun ts' table' ht => ?_⟩
    · simp only [backgroundStep, unread, hc, SSTableCache.replaceWithCompactTable]
    · cases ht
  | removeStale hc | sendAck hc =>
    refine ⟨cache, ?_, htables, fun ts table ht => ?_⟩
    · simp only [backgroundStep, unread, hc]
    · cases ht

/-- A read changes nothing that is seen; every other step is a step without the reads. -/
theorem Unread.step {c : Config} {e e' e1 : Engine} {a : Action} (h : Unread e e')
    (hs : step c e a = some e1) :
    if a.reads then Unread e1 e' else ∃ e1', Engine.step c e' a = some e1' ∧ Unread e1 e1' := by
  by_cases hreads : a.reads = true
  · rw [if_pos hreads]
    cases step_cases hs with
    | client hc => exact h.read_step hc hreads
    | _ => cases hreads
  rw [if_neg hreads]
  obtain ⟨htables, hcompacted, hrest⟩ := h
  generalize e'.sstableCache.cache = cache at htables hrest
  subst hrest
  cases step_cases hs with
  | spawn hopen =>
    refine ⟨({ e with clients := e.clients ++ [.idle] } : Engine).unread cache, ?_,
      htables, hcompacted, rfl⟩
    simp [Engine.step, unread, hopen, Phase.quiet]
  | drop hopen hidle =>
    refine ⟨({ e with
      dropped := true
      signal := e.signal ++ [.shutdown]
      memtableChannel := e.memtableChannel ++ [MemtableFlushSignal.shutdown] } :
        Engine).unread cache, ?_,
      htables, hcompacted, rfl⟩
    have hquiet : ∀ p ∈ e.clients, p.quiet = .idle := by
      intro p hp
      rw [hidle p hp]
      rfl
    simp [Engine.step, unread, hopen]
    exact hquiet
  | background hb =>
    obtain ⟨cache1, hstep, htables1, hcompacted1⟩ := unread_background hb htables hcompacted
    exact ⟨e1.unread cache1, hstep, htables1, hcompacted1, rfl⟩
  | @client i b _ hc =>
    obtain ⟨hstep, hcache, hcompactor⟩ := unread_client hc (Bool.eq_false_iff.mpr hreads) cache
    exact ⟨e1.unread cache, hstep, hcache ▸ htables, hcompactor ▸ hcompacted, rfl⟩

theorem Unread.run {c : Config} {actions : List Action} {e e' e1 : Engine} (h : Unread e e')
    (hrun : runActions c (fun _ _ => True) e actions = some e1) :
    ∃ e1', runActions c (fun _ _ => True) e' (actions.filter fun a => !a.reads) = some e1' ∧
      Unread e1 e1' := by
  induction actions generalizing e e' with
  | nil =>
    cases hrun
    exact ⟨e', rfl, h⟩
  | cons a actions ih =>
    simp only [runActions, List.foldlM_cons, Option.bind_eq_bind, Option.bind_eq_some_iff,
      if_true] at hrun
    obtain ⟨e2, hs, hrun⟩ := hrun
    have hstep := h.step hs
    by_cases hreads : a.reads = true
    · rw [if_pos hreads] at hstep
      simpa [hreads] using ih hstep hrun
    · rw [if_neg hreads] at hstep
      obtain ⟨e2', hs', h2⟩ := hstep
      obtain ⟨e1', hrun', h1⟩ := ih h2 hrun
      refine ⟨e1', ?_, h1⟩
      simpa [hreads, runActions, hs'] using hrun'

/-- Reads leave no trace: the steps of a run that belong to no read are a run, and it ends in the
same state, with the descriptors elsewhere. -/
theorem reads_leave_no_trace {c : Config} {stamp : LsmliteInner.Stamp} {actions : List Action}
    {e : Engine} (h : runActions c (fun _ _ => True) (start c stamp) actions = some e) :
    ∃ e', runActions c (fun _ _ => True) (start c stamp) (actions.filter fun a => !a.reads) =
      some e' ∧ Unread e e' :=
  (unread_start c stamp).run h

theorem reads_leave_no_trace_flushed :
    ∃ e e', e.answers ≠ [] ∧
    runActions tinyConfig (fun _ _ => True) (start tinyConfig ⟨0, 0⟩) flushedRun = some e ∧
    runActions tinyConfig (fun _ _ => True) (start tinyConfig ⟨0, 0⟩)
      (flushedRun.filter fun a => !a.reads) = some e' ∧
    Unread e e' := by
  have hrun : (runActions tinyConfig (fun _ _ => True) (start tinyConfig ⟨0, 0⟩) flushedRun).map
      (fun e => decide (e.answers ≠ [])) = some true := by
    decide +kernel
  obtain ⟨e, he, hanswers⟩ := Option.map_eq_some_iff.mp hrun
  obtain ⟨e', he', h⟩ := reads_leave_no_trace he
  exact ⟨e, e', of_decide_eq_true hanswers, he, he', h⟩

end Engine

end Lsmlite
