import Lsmlite.Engine

/-!
# Steps and runs of the engine
-/

namespace Lsmlite.Engine

/-! ## What a step can do -/

theorem tryInsert_cases {e : Engine} {w : Write} {clock : Clock} {r : Except MemtableError Engine}
    (h : e.tryInsert w clock = some r) :
    ∃ table, e.tables[e.active]? = some table ∧
      ((∃ inner, table.inner.write w.key w.entry clock = some (.ok inner) ∧
        r = .ok (e.took table inner w)) ∨
      ∃ err, table.inner.write w.key w.entry clock = some (.error err) ∧ r = .error err) := by
  simp only [tryInsert, Option.bind_eq_bind, Option.bind_eq_some_iff] at h
  obtain ⟨table, htable, wr, hwr, h⟩ := h
  refine ⟨table, htable, ?_⟩
  cases wr with
  | ok inner =>
    cases h
    exact Or.inl ⟨inner, hwr, rfl⟩
  | error err =>
    cases h
    exact Or.inr ⟨err, hwr, rfl⟩

/-- The steps of client `i`, one constructor for each outcome. -/
inductive ClientStep (c : Config) (e : Engine) (i : Nat) : ClientAction → Engine → Prop where
  | call (hi : e.clients[i]? = some .idle) (hopen : e.dropped = false) (key : Blob)
      (entry : Entry) :
    ClientStep c e i (.call key entry)
      ({ e with invoked := e.invoked ++ [(⟨e.invoked.length, key, entry⟩ : Write)] }.setPhase i
        (.attempting ⟨e.invoked.length, key, entry⟩))
  | attemptOk {w : Write} {clock : Clock} {table : Table} {inner : MemtableInner}
      (hi : e.clients[i]? = some (.attempting w)) (htable : e.tables[e.active]? = some table)
      (hw : table.inner.write w.key w.entry clock = some (.ok inner)) :
    ClientStep c e i (.attempt clock) ((e.took table inner w).finish i w)
  | attemptFull {w : Write} {clock : Clock} {table : Table} {err : MemtableError}
      (hi : e.clients[i]? = some (.attempting w)) (htable : e.tables[e.active]? = some table)
      (hw : table.inner.write w.key w.entry clock = some (.error err)) :
    ClientStep c e i (.attempt clock) (e.setPhase i (.rotating w))
  | rotate {w : Write} {stamp : LsmliteInner.Stamp} (hi : e.clients[i]? = some (.rotating w))
      (hts : e.clock < stamp.fileTs) :
    ClientStep c e i (.rotate stamp)
      ({ e with
        tables := e.tables ++ [freshTable c stamp]
        clock := stamp.fileTs
        swapped := e.swapped ++ [e.active] }.setPhase i (.appending w e.active))
  | append {w : Write} {full : Nat} (hi : e.clients[i]? = some (.appending w full)) :
    ClientStep c e i .append
      ({ e with immutable := e.immutable ++ [full] }.setPhase i (.signalling w))
  | signal {w : Write} (hi : e.clients[i]? = some (.signalling w)) :
    ClientStep c e i .signal
      ({ e with memtableChannel := e.memtableChannel ++ [MemtableFlushSignal.flush] }.setPhase i
        (.retrying w))
  | retryOk {w : Write} {clock : Clock} {table : Table} {inner : MemtableInner}
      (hi : e.clients[i]? = some (.retrying w)) (htable : e.tables[e.active]? = some table)
      (hw : table.inner.write w.key w.entry clock = some (.ok inner)) :
    ClientStep c e i (.retry clock) ((e.took table inner w).finish i w)
  | retryFull {w : Write} {clock : Clock} {table : Table} {err : MemtableError}
      (hi : e.clients[i]? = some (.retrying w)) (htable : e.tables[e.active]? = some table)
      (hw : table.inner.write w.key w.entry clock = some (.error err)) :
    ClientStep c e i (.retry clock) (e.finish i w)
  | get (hi : e.clients[i]? = some .idle) (hopen : e.dropped = false) (key : Blob) :
    ClientStep c e i (.get key) (e.setPhase i (.readingMemtable key e.returned))
  | readMemtable {key : Blob} {before : List Write} {table : Table} {q : MemtableQuery}
      (hi : e.clients[i]? = some (.readingMemtable key before))
      (htable : e.tables[e.active]? = some table) (hq : table.inner.get key = some q) :
    ClientStep c e i .readMemtable (match LsmliteInner.readQuery q with
      | some blob => e.answer i key before (some blob)
      | none => e.setPhase i (.readingImmutable key before))
  | readImmutable {key : Blob} {before : List Write} {queue : ImmutableMemtable} {q : MemtableQuery}
      (hi : e.clients[i]? = some (.readingImmutable key before)) (hqueue : e.queue = some queue)
      (hq : queue.get key = some q) :
    ClientStep c e i .readImmutable (match LsmliteInner.readQuery q with
      | some blob => e.answer i key before (some blob)
      | none => e.setPhase i (.readingSstables key before))
  | readSstables {key : Blob} {before : List Write} {r : Except SSTableError Blob}
      {sstableCache : SSTableCache} (hi : e.clients[i]? = some (.readingSstables key before))
      (hr : e.sstableCache.search c.hashing key = some (r, sstableCache)) :
    ClientStep c e i .readSstables ({ e with sstableCache }.answer i key before r.toOption)

theorem clientStep_cases {c : Config} {e e' : Engine} {i : Nat} {a : ClientAction}
    (h : clientStep c e i a = some e') : ClientStep c e i a e' := by
  unfold clientStep at h
  split at h
  · rename_i hi
    split at h
    · cases h
    · rename_i hopen
      cases h
      exact .call hi (by simpa using hopen) _ _
  · rename_i hi
    simp only [Option.bind_eq_bind, Option.bind_eq_some_iff] at h
    obtain ⟨r, hr, h⟩ := h
    obtain ⟨table, htable, ⟨inner, hw, rfl⟩ | ⟨err, hw, rfl⟩⟩ := tryInsert_cases hr
    · cases h
      exact .attemptOk hi htable hw
    · cases h
      exact .attemptFull hi htable hw
  · rename_i hi
    split at h
    · rename_i hts
      cases h
      exact .rotate hi hts
    · cases h
  · rename_i hi
    cases h
    exact .append hi
  · rename_i hi
    cases h
    exact .signal hi
  · rename_i hi
    simp only [Option.bind_eq_bind, Option.bind_eq_some_iff] at h
    obtain ⟨r, hr, h⟩ := h
    obtain ⟨table, htable, ⟨inner, hw, rfl⟩ | ⟨err, hw, rfl⟩⟩ := tryInsert_cases hr
    · cases h
      exact .retryOk hi htable hw
    · cases h
      exact .retryFull hi htable hw
  · rename_i hi
    split at h
    · cases h
    · rename_i hopen
      cases h
      exact .get hi (by simpa using hopen) _
  · rename_i hi
    simp only [Option.bind_eq_bind, Option.bind_eq_some_iff] at h
    obtain ⟨table, htable, q, hq, h⟩ := h
    have hstep := ClientStep.readMemtable (c := c) hi htable hq
    revert h hstep
    cases LsmliteInner.readQuery q <;> (intro h hstep; cases h; exact hstep)
  · rename_i hi
    simp only [Option.bind_eq_bind, Option.bind_eq_some_iff] at h
    obtain ⟨queue, hqueue, q, hq, h⟩ := h
    have hstep := ClientStep.readImmutable (c := c) hi hqueue hq
    revert h hstep
    cases LsmliteInner.readQuery q <;> (intro h hstep; cases h; exact hstep)
  · rename_i hi
    simp only [Option.bind_eq_bind, Option.bind_eq_some_iff] at h
    obtain ⟨⟨r, sstableCache⟩, hr, h⟩ := h
    have hstep := ClientStep.readSstables hi hr
    cases r <;> (cases h; exact hstep)
  · cases h

/-- What a step of a client leaves: the tasks, their messages and the files. -/
structure TasksSame (e e' : Engine) : Prop where
  flusher : e'.flusher = e.flusher
  compactor : e'.compactor = e.compactor
  signal : e'.signal = e.signal
  sstableAck : e'.sstableAck = e.sstableAck
  files : e'.files = e.files
  popped : e'.popped = e.popped
  clock : e.clock ≤ e'.clock

theorem ClientStep.tasks_same {c : Config} {e e' : Engine} {i : Nat} {a : ClientAction}
    (h : ClientStep c e i a e') : TasksSame e e' := by
  cases h with
  | rotate hi hts => exact ⟨rfl, rfl, rfl, rfl, rfl, rfl, Nat.le_of_lt hts⟩
  | @readMemtable key before table q hi htable hq =>
    cases LsmliteInner.readQuery q <;> exact ⟨rfl, rfl, rfl, rfl, rfl, rfl, Nat.le_refl _⟩
  | @readImmutable key before queue q hi hqueue hq =>
    cases LsmliteInner.readQuery q <;> exact ⟨rfl, rfl, rfl, rfl, rfl, rfl, Nat.le_refl _⟩
  | _ => exact ⟨rfl, rfl, rfl, rfl, rfl, rfl, Nat.le_refl _⟩

/-- The steps of the two tasks. -/
inductive BackgroundStep (c : Config) (e : Engine) : BackgroundAction → Engine → Prop where
  | receiveFlush {rest : List MemtableFlushSignal} (hf : e.flusher = .waiting)
      (hch : e.memtableChannel = .flush :: rest) :
    BackgroundStep c e .receiveFlush { e with flusher := .creating, memtableChannel := rest }
  | createFile {ts : Nat} (hf : e.flusher = .creating) (hts : e.clock < ts) :
    BackgroundStep c e (.createFile ts)
      { e with flusher := .created ts, files := e.files ++ [⟨ts, []⟩], clock := ts }
  | takeFront {ts table : Nat} {rest : List Nat} (hf : e.flusher = .created ts)
      (hq : e.immutable = table :: rest) :
    BackgroundStep c e .takeFront { e with flusher := .writing ts table }
  | writePart {ts table n : Nat} {t : Table} {content : Blob} (hf : e.flusher = .writing ts table)
      (ht : e.tables[table]? = some t)
      (hcontent : sstableContent c.hashing t.inner = some content) :
    BackgroundStep c e (.writePart n) { e with files := putFile e.files ts (content.take n) }
  | finishFile {ts table : Nat} {t : Table} {content : Blob} (hf : e.flusher = .writing ts table)
      (ht : e.tables[table]? = some t)
      (hcontent : sstableContent c.hashing t.inner = some content) :
    BackgroundStep c e .finishFile
      { e with flusher := .written ts table, files := putFile e.files ts content }
  | removeWal {ts table : Nat} {t : Table} (hf : e.flusher = .written ts table)
      (ht : e.tables[table]? = some t) :
    BackgroundStep c e .removeWal
      { e with flusher := .sending ts, tables := e.tables.set table { t with walRemoved := true } }
  | sendLoad {ts : Nat} (hf : e.flusher = .sending ts) :
    BackgroundStep c e .sendLoad
      { e with flusher := .awaiting, signal := e.signal ++ [.loadSSTable ts] }
  | receiveAck (hf : e.flusher = .awaiting) (hack : 0 < e.sstableAck) :
    BackgroundStep c e .receiveAck
      { e with flusher := .waiting, sstableAck := e.sstableAck - 1 }
  | ackLost (hf : e.flusher = .awaiting) (hack : e.sstableAck = 0) (hc : e.compactor = .stopped) :
    BackgroundStep c e .receiveAck { e with flusher := .stopped }
  | stopFlusher {rest : List MemtableFlushSignal} (hf : e.flusher = .waiting)
      (hch : e.memtableChannel = .shutdown :: rest) :
    BackgroundStep c e .stopFlusher { e with flusher := .stopped, memtableChannel := rest }
  | receiveLoad {ts : Nat} {rest : List CompactionSignal} (hc : e.compactor = .waiting)
      (hch : e.signal = .loadSSTable ts :: rest) :
    BackgroundStep c e .receiveLoad { e with compactor := .loading ts, signal := rest }
  | pushTable {ts : Nat} {f : SstFile} {table : SSTable} (hc : e.compactor = .loading ts)
      (hfile : e.files.find? (·.ts = ts) = some f)
      (htable : SSTable.fromFd (.opened f.content []) = some (.ok table)) :
    BackgroundStep c e .pushTable { e with
      sstableCache := e.sstableCache.push table
      compactor := .popping (e.sstableCache.push table).cache.length }
  | popTable {currentLen : Nat} (hc : e.compactor = .popping currentLen) :
    BackgroundStep c e .popTable { e with
      immutable := e.immutable.tail
      popped := e.popped ++ e.immutable.head?.toList
      compactor := if e.sstableCache.compactionRate ≤ currentLen then .compacting else .acking }
  | compact {ts : Nat} {tableIters : List SSTableIterator} {cache : List SSTable} {table : SSTable}
      {path : PathBuf} (hc : e.compactor = .compacting) (hts : e.clock < ts)
      (hiters : tablesToIterators e.sstableCache.cache = some (tableIters, cache))
      (htable : runCompaction c.hashing tableIters ts [] = some (table, path)) :
    BackgroundStep c e (.compact ts) { e with
      sstableCache := { e.sstableCache with cache }
      files := e.files ++ [⟨ts, table.fd.content⟩]
      clock := ts
      compactor := .replacing ts table }
  | replaceTables {ts : Nat} {table : SSTable} (hc : e.compactor = .replacing ts table) :
    BackgroundStep c e .replaceTables { e with
      sstableCache := e.sstableCache.replaceWithCompactTable table
      compactor := .cleaning ts }
  | removeStale {ts : Nat} (hc : e.compactor = .cleaning ts) :
    BackgroundStep c e .removeStale { e with
      files := e.files.filter fun f => !isStale (generateSstableFileName ts) (dirEntry f)
      compactor := .acking }
  | sendAck (hc : e.compactor = .acking) :
    BackgroundStep c e .sendAck { e with compactor := .waiting, sstableAck := e.sstableAck + 1 }
  | stopCompactor {rest : List CompactionSignal} (hc : e.compactor = .waiting)
      (hch : e.signal = .shutdown :: rest) :
    BackgroundStep c e .stopCompactor { e with compactor := .stopped, signal := rest }

theorem backgroundStep_cases {c : Config} {e e' : Engine} {a : BackgroundAction}
    (h : backgroundStep c e a = some e') : BackgroundStep c e a e' := by
  cases a <;> simp only [backgroundStep] at h
  case receiveFlush =>
    split at h
    · rename_i hf hch
      cases h
      exact .receiveFlush hf hch
    · cases h
  case createFile ts =>
    split at h
    · rename_i hf
      split at h
      · rename_i hts
        cases h
        exact .createFile hf hts
      · cases h
    · cases h
  case takeFront =>
    split at h
    · rename_i hf hq
      cases h
      exact .takeFront hf hq
    · cases h
  case writePart n =>
    split at h
    · rename_i hf
      simp only [Option.bind_eq_bind, Option.bind_eq_some_iff] at h
      obtain ⟨t, ht, content, hcontent, h⟩ := h
      cases h
      exact .writePart hf ht hcontent
    · cases h
  case finishFile =>
    split at h
    · rename_i hf
      simp only [Option.bind_eq_bind, Option.bind_eq_some_iff] at h
      obtain ⟨t, ht, content, hcontent, h⟩ := h
      cases h
      exact .finishFile hf ht hcontent
    · cases h
  case removeWal =>
    split at h
    · rename_i hf
      simp only [Option.bind_eq_bind, Option.bind_eq_some_iff] at h
      obtain ⟨t, ht, h⟩ := h
      cases h
      exact .removeWal hf ht
    · cases h
  case sendLoad =>
    split at h
    · rename_i hf
      cases h
      exact .sendLoad hf
    · cases h
  case receiveAck =>
    split at h
    · rename_i hf
      split at h
      · rename_i hack
        cases h
        exact .receiveAck hf hack
      · rename_i hack
        split at h
        · rename_i hc
          cases h
          exact .ackLost hf (by omega) hc
        · cases h
    · cases h
  case stopFlusher =>
    split at h
    · rename_i hf hch
      cases h
      exact .stopFlusher hf hch
    · cases h
  case receiveLoad =>
    split at h
    · rename_i hc hch
      cases h
      exact .receiveLoad hc hch
    · cases h
  case pushTable =>
    split at h
    · rename_i hc
      simp only [Option.bind_eq_bind, Option.bind_eq_some_iff] at h
      obtain ⟨f, hfile, r, htable, h⟩ := h
      cases r with
      | ok table =>
        cases h
        exact .pushTable hc hfile htable
      | error err => cases h
    · cases h
  case popTable =>
    split at h
    · rename_i hc
      cases h
      exact .popTable hc
    · cases h
  case compact ts =>
    split at h
    · rename_i hc
      split at h
      · rename_i hts
        simp only [Option.bind_eq_bind, Option.bind_eq_some_iff] at h
        obtain ⟨⟨tableIters, cache⟩, hiters, ⟨table, path⟩, htable, h⟩ := h
        cases h
        exact .compact hc hts hiters htable
      · cases h
    · cases h
  case replaceTables =>
    split at h
    · rename_i hc
      cases h
      exact .replaceTables hc
    · cases h
  case removeStale =>
    split at h
    · rename_i hc
      cases h
      exact .removeStale hc
    · cases h
  case sendAck =>
    split at h
    · rename_i hc
      cases h
      exact .sendAck hc
    · cases h
  case stopCompactor =>
    split at h
    · rename_i hc hch
      cases h
      exact .stopCompactor hc hch
    · cases h

/-- Any step. -/
inductive Step (c : Config) (e : Engine) : Action → Engine → Prop where
  | spawn (hopen : e.dropped = false) : Step c e .spawn { e with clients := e.clients ++ [.idle] }
  | client {i : Nat} {a : ClientAction} {e' : Engine} (h : ClientStep c e i a e') :
    Step c e (.client i a) e'
  | background {a : BackgroundAction} {e' : Engine} (h : BackgroundStep c e a e') :
    Step c e (.background a) e'
  | drop (hopen : e.dropped = false) (hidle : ∀ p ∈ e.clients, p = .idle) :
    Step c e .drop { e with
      dropped := true
      signal := e.signal ++ [.shutdown]
      memtableChannel := e.memtableChannel ++ [MemtableFlushSignal.shutdown] }

theorem step_cases {c : Config} {e e' : Engine} {a : Action} (h : step c e a = some e') :
    Step c e a e' := by
  cases a with
  | spawn =>
    simp only [step] at h
    split at h
    · cases h
    · rename_i hopen
      cases h
      exact .spawn (by simpa using hopen)
  | client i a => exact .client (clientStep_cases h)
  | background a => exact .background (backgroundStep_cases h)
  | drop =>
    simp only [step] at h
    split at h
    · cases h
    · rename_i hopen
      rw [not_or] at hopen
      cases h
      exact .drop (by simpa using hopen.1) (by simpa using hopen.2)

/-! ## Runs -/

/-- The states that runs from an empty directory reach by steps that meet `ok`, a condition on the
state before the step. -/
inductive Reaches (c : Config) (ok : Engine → Action → Prop) : Engine → Prop where
  | start (stamp : LsmliteInner.Stamp) : Reaches c ok (start c stamp)
  | next {e e' : Engine} {a : Action} (h : Reaches c ok e) (hok : ok e a)
      (hs : step c e a = some e') : Reaches c ok e'

/-- A run given by its actions, as far as they meet `ok`. -/
def runActions (c : Config) (ok : Engine → Action → Prop) [∀ e a, Decidable (ok e a)] (e : Engine)
    (actions : List Action) : Option Engine :=
  actions.foldlM (fun e a => if ok e a then step c e a else none) e

theorem reaches_runActions {c : Config} {ok : Engine → Action → Prop} [∀ e a, Decidable (ok e a)]
    {actions : List Action} {e e' : Engine} (h : Reaches c ok e)
    (hr : runActions c ok e actions = some e') : Reaches c ok e' := by
  induction actions generalizing e with
  | nil =>
    cases hr
    exact h
  | cons a actions ih =>
    simp only [runActions, List.foldlM_cons, Option.bind_eq_bind, Option.bind_eq_some_iff] at hr
    obtain ⟨e1, h1, hr⟩ := hr
    split at h1
    · rename_i hok
      exact ih (h.next hok h1) hr
    · cases h1

theorem Reaches.mono {c : Config} {ok ok' : Engine → Action → Prop} (hok : ∀ e a, ok e a → ok' e a)
    {e : Engine} (h : Reaches c ok e) : Reaches c ok' e := by
  induction h with
  | start stamp => exact .start stamp
  | next _ ha hs ih => exact ih.next (hok _ _ ha) hs

/-- What every step that meets `ok` keeps, every state reached has. -/
theorem Reaches.invariant {c : Config} {ok : Engine → Action → Prop} {P : Engine → Prop}
    (hstart : ∀ stamp, P (Engine.start c stamp))
    (hstep : ∀ e a e', P e → ok e a → step c e a = some e' → P e') {e : Engine}
    (h : Reaches c ok e) : P e := by
  induction h with
  | start stamp => exact hstart stamp
  | next _ hok hs ih => exact hstep _ _ _ ih hok hs

/-! ## Parts of runs on fixed inputs -/

/-- Room for one node in a memtable. -/
def tinyConfig : Config := ⟨flatHashing, 100, 1, 10⟩

/-- The steps of a `set` that finds room. -/
def writeSteps (i : Nat) (key value : Blob) : List Action :=
  [.client i (.call key (.data value)), .client i (.attempt ⟨0, 0⟩)]

/-- The steps of a `set` that finds the table full, up to the swap. -/
def swapSteps (i : Nat) (key value : Blob) (ts : Nat) : List Action :=
  writeSteps i key value ++ [.client i (.rotate ⟨ts, 0⟩)]

/-- The steps of the tasks from a signal to its acknowledgement. -/
def flushCycle (ts : Nat) : List Action :=
  [.receiveFlush, .createFile ts, .takeFront, .finishFile, .removeWal, .sendLoad, .receiveLoad,
    .pushTable, .popTable, .sendAck, .receiveAck].map .background

end Lsmlite.Engine
