import Lsmlite.EngineLayers
import Lsmlite.Pipeline

/-!
# The engine runs its flush pipeline

Until the last handle is dropped, every run of the engine is a run of the pipeline in which nothing
fails. So the engine's queue has a table for every signal.
-/

namespace Lsmlite

/-- The part of a client's phase that the pipeline knows: a write up to the end of
`rotate_table`. -/
def Phase.writer : Phase → Pipeline.Writer
  | .attempting _ => .checked
  | .rotating _ => .rotating
  | .appending _ full => .inserting full
  | .signalling _ => .sending
  | _ => .idle

/-- The flush task's phase, without the table that the pipeline remembers. -/
def flusherPhase : Pipeline.Flusher → Flusher
  | .waiting => .waiting
  | .creating => .creating
  | .created path => .created path
  | .writing path table => .writing path table
  | .removing path table => .written path table
  | .sending path _ => .sending path
  | .awaiting _ => .awaiting
  | .emptyQueue => .stopped
  | .stopped => .stopped

def Compactor.phase : Compactor → Pipeline.Compactor
  | .waiting => .waiting
  | .loading ts => .loading ts
  | .popping currentLen => .popping currentLen
  | .compacting => .compacting
  | .replacing _ _ => .compacting
  | .cleaning _ => .cleaning
  | .acking => .acking
  | .stopped => .stopped

theorem SSTableCache.searchTables_length {h : Hashing} {key : Blob}
    {tables tables' : List SSTable} {r : Except SSTableError Blob}
    (hs : SSTableCache.searchTables h key tables = some (r, tables')) :
    tables'.length = tables.length := by
  induction tables generalizing r tables' with
  | nil =>
    cases hs
    rfl
  | cons s rest ih =>
    simp only [SSTableCache.searchTables, Option.bind_eq_bind, Option.bind_eq_some_iff] at hs
    obtain ⟨⟨r', s'⟩, _, hs⟩ := hs
    cases r' with
    | ok value =>
      cases hs
      rfl
    | error err =>
      cases err with
      | tombstone =>
        cases hs
        rfl
      | _ =>
        simp only [Option.bind_eq_some_iff] at hs
        obtain ⟨⟨r'', rest'⟩, hrest, hs⟩ := hs
        cases hs
        rw [List.length_cons, List.length_cons, ih hrest]

theorem SSTableCache.search_same {c c' : SSTableCache} {h : Hashing} {key : Blob}
    {r : Except SSTableError Blob} (hs : c.search h key = some (r, c')) :
    c'.cache.length = c.cache.length ∧ c'.compactionRate = c.compactionRate := by
  obtain ⟨⟨r', cache⟩, hsearch, hs⟩ := Option.map_eq_some_iff.mp hs
  cases hs
  exact ⟨SSTableCache.searchTables_length hsearch, rfl⟩

theorem tablesToIterators_length {tables tables' : List SSTable} {iters : List SSTableIterator}
    (h : tablesToIterators tables = some (iters, tables')) : tables'.length = tables.length := by
  induction tables generalizing iters tables' with
  | nil =>
    cases h
    rfl
  | cons s tables ih =>
    simp only [tablesToIterators, Option.bind_eq_bind, Option.bind_eq_some_iff] at h
    obtain ⟨⟨it, s'⟩, _, ⟨iters', rest⟩, hrest, h⟩ := h
    cases h
    rw [List.length_cons, List.length_cons, ih hrest]

namespace Engine

/-- The pipeline's state is the engine's, as far as the pipeline looks. -/
structure Runs (c : Config) (e : Engine) (s : Pipeline) : Prop where
  tables : s.tables = e.tables.length
  immutable : s.immutable = e.immutable
  popped : s.popped = e.popped
  writers : s.writers = e.clients.map Phase.writer
  channel : e.memtableChannel = List.replicate s.memtableChannel .flush
  signal : e.signal = s.signal.map .loadSSTable
  ack : s.sstableAck = e.sstableAck
  flusher : e.flusher = flusherPhase s.flusher
  compactor : s.compactor = e.compactor.phase
  running : s.flusher.running = true ∧ s.compactor.running = true
  cache : s.cache.length = e.sstableCache.cache.length
  rate : e.sstableCache.compactionRate = c.compactionRate
  clock : s.clock ≤ e.clock
  unpoisoned : s.poisoned = false

theorem runs_start (c : Config) (stamp : LsmliteInner.Stamp) :
    Runs c (start c stamp) (Pipeline.start 0 0 stamp.fileTs) := by
  constructor <;> simp [start, Pipeline.start, SSTableCache.new, flusherPhase, Compactor.phase,
    Pipeline.Flusher.running, Pipeline.Compactor.running]

/-- A client's step that the pipeline does not see. -/
theorem Runs.client_other {c : Config} {e e' : Engine} {s : Pipeline} (h : Runs c e s)
    (htables : e'.tables.length = e.tables.length) (himmutable : e'.immutable = e.immutable)
    (hpopped : e'.popped = e.popped)
    (hclients : e'.clients.map Phase.writer = e.clients.map Phase.writer)
    (hchannel : e'.memtableChannel = e.memtableChannel) (hsignal : e'.signal = e.signal)
    (hack : e'.sstableAck = e.sstableAck) (hflusher : e'.flusher = e.flusher)
    (hcompactor : e'.compactor = e.compactor)
    (hcache : e'.sstableCache.cache.length = e.sstableCache.cache.length)
    (hrate : e'.sstableCache.compactionRate = e.sstableCache.compactionRate)
    (hclock : e'.clock = e.clock) : Runs c e' s := by
  constructor
  · rw [htables, h.tables]
  · rw [himmutable, h.immutable]
  · rw [hpopped, h.popped]
  · rw [hclients, h.writers]
  · rw [hchannel, h.channel]
  · rw [hsignal, h.signal]
  · rw [hack, h.ack]
  · rw [hflusher, h.flusher]
  · rw [hcompactor, h.compactor]
  · exact h.running
  · rw [hcache, h.cache]
  · rw [hrate, h.rate]
  · rw [hclock]
    exact h.clock
  · exact h.unpoisoned

theorem client_runs {c : Config} {e e' : Engine} {s : Pipeline} (h : Runs c e s) {i : Nat}
    {a : ClientAction} (hs : ClientStep c e i a e') :
    Runs c e' s ∨ ∃ s', Pipeline.WriterStep s s' ∧ Runs c e' s' := by
  have hwriter : ∀ {p : Phase}, e.clients[i]? = some p → s.writers[i]? = some p.writer := by
    intro p hi
    rw [h.writers, List.getElem?_map, hi]
    rfl
  have hmoved : ∀ p : Phase, s.writers.set i p.writer = (e.clients.set i p).map Phase.writer := by
    intro p
    rw [h.writers, List.map_set]
  cases hs with
  | @attemptFull w clock table err hi htable hw =>
    exact Or.inr ⟨_, .full (hwriter hi), { h with writers := hmoved (.rotating w) }⟩
  | @rotate w stamp hi hts =>
    refine Or.inr ⟨_, .rotate (hwriter hi), ?_⟩
    have hactive : s.active = e.active := by rw [Pipeline.active, active, h.tables]
    refine { h with
      tables := ?_, writers := ?_, clock := h.clock.trans (Nat.le_of_lt hts) }
    · show s.tables + 1 = (e.tables ++ [freshTable c stamp]).length
      rw [List.length_append, h.tables]
      rfl
    · show s.writers.set i (.inserting s.active) = (e.clients.set i (.appending w e.active)).map _
      rw [← hmoved, hactive]
      rfl
  | @append w full hi =>
    refine Or.inr ⟨_, .insert (hwriter hi), ?_⟩
    refine { h with immutable := ?_, writers := hmoved (.signalling w) }
    exact congrArg (· ++ [full]) h.immutable
  | @signal w hi =>
    refine Or.inr ⟨_, .send (hwriter hi) h.running.1, ?_⟩
    refine { h with channel := ?_, writers := hmoved (.retrying w) }
    show e.memtableChannel ++ [.flush] = List.replicate (s.memtableChannel + 1) .flush
    rw [List.replicate_succ', h.channel]
  | call hi hopen key entry =>
    exact Or.inr ⟨_, .check (hwriter hi) h.unpoisoned, { h with writers := hmoved (.attempting _) }⟩
  | @attemptOk w clock table inner hi htable hw =>
    refine Or.inr ⟨_, .fits (hwriter hi), { h with tables := ?_, writers := hmoved .idle }⟩
    exact h.tables.trans (List.length_set ..).symm
  | retryOk hi htable hw =>
    exact Or.inl (h.client_other
      (List.length_set ..) rfl rfl (map_set_same hi rfl) rfl rfl rfl rfl rfl rfl rfl rfl)
  | retryFull hi | get hi =>
    exact Or.inl (h.client_other rfl rfl rfl (map_set_same hi rfl) rfl rfl rfl rfl rfl rfl rfl rfl)
  | @readMemtable key before table q hi htable hq =>
    cases LsmliteInner.readQuery q <;>
      exact Or.inl
        (h.client_other rfl rfl rfl (map_set_same hi rfl) rfl rfl rfl rfl rfl rfl rfl rfl)
  | @readImmutable key before queue q hi hqueue hq =>
    cases LsmliteInner.readQuery q <;>
      exact Or.inl
        (h.client_other rfl rfl rfl (map_set_same hi rfl) rfl rfl rfl rfl rfl rfl rfl rfl)
  | readSstables hi hr =>
    obtain ⟨hlength, hrate⟩ := SSTableCache.search_same hr
    exact Or.inl
      (h.client_other rfl rfl rfl (map_set_same hi rfl) rfl rfl rfl rfl rfl hlength hrate rfl)

theorem flusherPhase_eq {f : Pipeline.Flusher} {p : Flusher} (h : p = flusherPhase f)
    (hr : f.running = true) :
    match p with
    | .waiting => f = .waiting
    | .creating => f = .creating
    | .created path => f = .created path
    | .writing path table => f = .writing path table
    | .written path table => f = .removing path table
    | .sending path => ∃ table, f = .sending path table
    | .awaiting => ∃ table, f = .awaiting table
    | .stopped => False := by
  subst h
  cases f with
  | sending path table => exact ⟨table, rfl⟩
  | awaiting table => exact ⟨table, rfl⟩
  | emptyQueue | stopped => cases hr
  | _ => rfl

theorem Runs.flusher_eq {c : Config} {e : Engine} {s : Pipeline} (h : Runs c e s) {p : Flusher}
    (hf : e.flusher = p) : p = flusherPhase s.flusher := by
  rw [← hf, h.flusher]

theorem Runs.compactor_eq {c : Config} {e : Engine} {s : Pipeline} (h : Runs c e s) {p : Compactor}
    (hc : e.compactor = p) : s.compactor = p.phase := by
  rw [h.compactor, hc]

/-- A task's step that the pipeline does not see. -/
theorem background_runs {c : Config} {e e' : Engine} {s : Pipeline} (h : Runs c e s)
    (hinv : Pipeline.Invariant s) {a : BackgroundAction} (hs : BackgroundStep c e a e') :
    Runs c e' s ∨ ∃ s', Pipeline.Step c.compactionRate s s' ∧ Runs c e' s' := by
  have hrunning := h.running
  cases hs with
  | @receiveFlush rest hf hch =>
    have hsf : s.flusher = .waiting := flusherPhase_eq (h.flusher_eq hf) hrunning.1
    have hchannel := h.channel
    rw [hch] at hchannel
    cases hn : s.memtableChannel with
    | zero =>
      rw [hn] at hchannel
      cases hchannel
    | succ n =>
      rw [hn, List.replicate_succ, List.cons.injEq] at hchannel
      refine Or.inr ⟨_, .flusher (.receiveFlush hsf (by omega)), ?_⟩
      refine { h with channel := ?_, flusher := rfl, running := ⟨rfl, hrunning.2⟩ }
      show rest = List.replicate (s.memtableChannel - 1) .flush
      rw [hn]
      exact hchannel.2
  | @createFile ts hf hts =>
    have hsf : s.flusher = .creating := flusherPhase_eq (h.flusher_eq hf) hrunning.1
    refine Or.inr ⟨_, .flusher (.createFile hsf (Nat.lt_of_le_of_lt h.clock hts)), ?_⟩
    exact { h with flusher := rfl, running := ⟨rfl, hrunning.2⟩, clock := Nat.le_refl _ }
  | @takeFront ts table rest hf hq =>
    have hsf : s.flusher = .created ts := flusherPhase_eq (h.flusher_eq hf) hrunning.1
    refine Or.inr ⟨_, .flusher (.takeFront hsf (h.immutable.trans hq)), ?_⟩
    exact { h with flusher := rfl, running := ⟨rfl, hrunning.2⟩ }
  | writePart hf ht hcontent => exact Or.inl { h with }
  | @finishFile ts table t content hf ht hcontent =>
    have hsf : s.flusher = .writing ts table := flusherPhase_eq (h.flusher_eq hf) hrunning.1
    refine Or.inr ⟨_, .flusher (.flushToDisk hsf), ?_⟩
    exact { h with flusher := rfl, running := ⟨rfl, hrunning.2⟩ }
  | @removeWal ts table t hf ht =>
    have hsf : s.flusher = .removing ts table := flusherPhase_eq (h.flusher_eq hf) hrunning.1
    refine Or.inr ⟨_, .flusher (.removeWal hsf), ?_⟩
    refine { h with flusher := rfl, running := ⟨rfl, hrunning.2⟩, tables := ?_ }
    exact h.tables.trans (List.length_set ..).symm
  | @sendLoad ts hf =>
    obtain ⟨table, hsf⟩ := flusherPhase_eq (h.flusher_eq hf) hrunning.1
    refine Or.inr ⟨_, .flusher (.sendLoad hsf hrunning.2), ?_⟩
    refine { h with flusher := rfl, running := ⟨rfl, hrunning.2⟩, signal := ?_ }
    show e.signal ++ [.loadSSTable ts] = (s.signal ++ [ts]).map .loadSSTable
    rw [List.map_append, h.signal]
    rfl
  | receiveAck hf hack =>
    obtain ⟨table, hsf⟩ := flusherPhase_eq (h.flusher_eq hf) hrunning.1
    rw [← h.ack] at hack
    refine Or.inr ⟨_, .flusher (.receiveAck hsf hack), ?_⟩
    refine { h with flusher := rfl, running := ⟨rfl, hrunning.2⟩, ack := ?_ }
    exact congrArg (· - 1) h.ack
  | ackLost hf hack hc =>
    have hsc := h.compactor_eq hc
    rw [hsc] at hrunning
    cases hrunning.2
  | stopFlusher hf hch =>
    have hchannel := h.channel
    rw [hch] at hchannel
    have hmem := List.eq_of_mem_replicate (hchannel ▸ List.mem_cons_self)
    cases hmem
  | @receiveLoad ts rest hc hch =>
    have hsignal := h.signal
    rw [hch] at hsignal
    obtain ⟨path, rest', hss, hpath, hrest⟩ := List.map_eq_cons_iff.mp hsignal.symm
    cases hpath
    refine Or.inr ⟨_, .compactor (.receiveLoad (h.compactor_eq hc) hss), ?_⟩
    exact { h with compactor := rfl, running := ⟨hrunning.1, rfl⟩, signal := hrest.symm }
  | @pushTable ts f table hc hfile htable =>
    obtain ⟨i, hi⟩ := hinv.loading_file (h.compactor_eq hc)
    refine Or.inr ⟨_, .compactor (.pushTable (h.compactor_eq hc) hi), ?_⟩
    refine { h with compactor := ?_, running := ⟨hrunning.1, rfl⟩, cache := ?_ }
    · show Pipeline.Compactor.popping (s.cache.length + 1) =
        .popping (table :: e.sstableCache.cache).length
      rw [h.cache, List.length_cons]
    · exact congrArg (· + 1) h.cache
  | @popTable currentLen hc =>
    refine Or.inr ⟨_, .compactor (.popTable (h.compactor_eq hc)), ?_⟩
    refine { h with immutable := ?_, popped := ?_, compactor := ?_, running := ⟨hrunning.1, ?_⟩ }
    · exact congrArg List.tail h.immutable
    · show s.popped ++ s.immutable.head?.toList = e.popped ++ e.immutable.head?.toList
      rw [h.popped, h.immutable]
    · show (if c.compactionRate ≤ currentLen then _ else _) =
        Compactor.phase (if e.sstableCache.compactionRate ≤ currentLen then _ else _)
      rw [h.rate]
      split <;> rfl
    · dsimp only
      split <;> rfl
  | @compact ts iters cache table path hc hts hiters htable =>
    have hsc := h.compactor_eq hc
    refine Or.inl { h with
      compactor := hsc
      cache := ?_
      clock := h.clock.trans (Nat.le_of_lt hts) }
    · exact h.cache.trans (tablesToIterators_length hiters).symm
  | replaceTables hc =>
    refine Or.inr ⟨_, .compactor (.replaceTables (h.compactor_eq hc)), ?_⟩
    exact { h with compactor := rfl, running := ⟨hrunning.1, rfl⟩, cache := rfl }
  | removeStale hc =>
    refine Or.inr ⟨_, .compactor (.removeStale (h.compactor_eq hc)), ?_⟩
    exact { h with compactor := rfl, running := ⟨hrunning.1, rfl⟩ }
  | sendAck hc =>
    refine Or.inr ⟨_, .compactor (.sendAck (h.compactor_eq hc) hrunning.1), ?_⟩
    refine { h with compactor := rfl, running := ⟨hrunning.1, rfl⟩, ack := ?_ }
    exact congrArg (· + 1) h.ack
  | stopCompactor hc hch =>
    have hsignal := h.signal
    rw [hch] at hsignal
    obtain ⟨path, rest', _, hpath, _⟩ := List.map_eq_cons_iff.mp hsignal.symm
    cases hpath

/-- A dropped engine stays dropped. -/
theorem step_dropped {c : Config} {e e' : Engine} {a : Action} (hs : step c e a = some e')
    (hopen : e'.dropped = false) : e.dropped = false ∧ a ≠ .drop := by
  cases step_cases hs with
  | spawn h => exact ⟨h, nofun⟩
  | client h =>
    refine ⟨?_, nofun⟩
    cases h with
    | @readMemtable key before table q hi htable hq =>
      revert hopen
      cases LsmliteInner.readQuery q <;> exact id
    | @readImmutable key before queue q hi hqueue hq =>
      revert hopen
      cases LsmliteInner.readQuery q <;> exact id
    | _ => exact hopen
  | background h => exact ⟨by cases h <;> exact hopen, nofun⟩
  | drop => cases hopen

/-- Until the last handle is dropped the engine runs its pipeline. -/
theorem Reaches.runs {c : Config} {ok : Engine → Action → Prop} {e : Engine} (h : Reaches c ok e)
    (hopen : e.dropped = false) : ∃ s, Pipeline.Reaches c.compactionRate s ∧ Runs c e s := by
  induction h with
  | start stamp => exact ⟨_, .start 0 0 stamp.fileTs, runs_start c stamp⟩
  | @next e e' a _ _ hs ih =>
    obtain ⟨hopen', hdrop⟩ := step_dropped hs hopen
    obtain ⟨s, hreach, hruns⟩ := ih hopen'
    cases step_cases hs with
    | spawn _ =>
      refine ⟨_, hreach.next (.writer .spawn), { hruns with writers := ?_ }⟩
      show s.writers ++ [.idle] = (e.clients ++ [Phase.idle]).map Phase.writer
      rw [List.map_append, hruns.writers]
      rfl
    | client hc =>
      rcases client_runs hruns hc with hruns' | ⟨s', hs', hruns'⟩
      · exact ⟨s, hreach, hruns'⟩
      · exact ⟨s', hreach.next (.writer hs'), hruns'⟩
    | background hb =>
      rcases background_runs hruns hreach.invariant hb with hruns' | ⟨s', hs', hruns'⟩
      · exact ⟨s, hreach, hruns'⟩
      · exact ⟨s', hreach.next hs', hruns'⟩
    | drop => exact absurd rfl hdrop

/-- The engine's queue has a table for every signal, and the flush task finds one. -/
theorem Reaches.signals_le {c : Config} {ok : Engine → Action → Prop} {e : Engine}
    (h : Reaches c ok e) (hopen : e.dropped = false) :
    e.memtableChannel.length ≤ e.immutable.length ∧
      ∀ ts, e.flusher = .created ts → e.immutable ≠ [] := by
  obtain ⟨s, hreach, hruns⟩ := h.runs hopen
  have hroom := hreach.invariant.accounted.room
  rw [hruns.immutable] at hroom
  refine ⟨?_, fun ts hf hnil => ?_⟩
  · rw [hruns.channel, List.length_replicate]
    omega
  · have hsf : s.flusher = .created ts := flusherPhase_eq (hruns.flusher_eq hf) hruns.running.1
    simp only [Pipeline.inProgress, hsf, hnil, List.length_nil] at hroom
    omega

end Engine

end Lsmlite
