import Lsmlite.Acknowledged

/-!
# The flush pipeline

The writers that rotate, `flush_memtable` and `sstable_background`, with the queue and the channels
between them and with every failure the code has a branch for. A memtable is its number in the
order in which they were made, a path is its timestamp, and an SSTable is the list of the memtables
whose records it was made of. A full channel makes its sender wait: the step is not taken yet. The
runs go on until `Shutdown` is sent.
-/

namespace Lsmlite

/-- Where a writer is in `set` or `delete`, up to the end of `rotate_table`. -/
inductive Pipeline.Writer where
  | idle
  /-- It has passed `check_poison_flag` and waits for the memtable's lock. -/
  | checked
  | rotating
  | inserting (full : Nat)
  | sending
  | panicked
  deriving DecidableEq, Repr

/-- Where `flush_memtable` is. From `writing` on, `table` is the front that `flush` took. -/
inductive Pipeline.Flusher where
  | waiting
  | creating
  | created (path : Nat)
  | writing (path table : Nat)
  | removing (path table : Nat)
  | sending (path table : Nat)
  | awaiting (table : Nat)
  /-- "Flush on immutable table without any tables in the queue". -/
  | emptyQueue
  | stopped
  deriving DecidableEq, Repr

/-- Where `sstable_background` is. -/
inductive Pipeline.Compactor where
  | waiting
  | loading (path : Nat)
  | popping (currentLen : Nat)
  | compacting
  | cleaning
  | acking
  | stopped
  deriving DecidableEq, Repr

/-- The task still has its ends of the channels. -/
def Pipeline.Flusher.running : Flusher → Bool
  | .emptyQueue => false
  | .stopped => false
  | _ => true

def Pipeline.Compactor.running : Compactor → Bool
  | .stopped => false
  | _ => true

structure Pipeline where
  /-- How many memtables were made; the last one is active. -/
  tables : Nat
  immutable : List Nat
  cache : List (List Nat)
  writers : List Pipeline.Writer
  /-- The `Flush` signals queued. -/
  memtableChannel : Nat
  /-- The paths of the `LoadSSTable` signals queued. -/
  signal : List Nat
  sstableAck : Nat
  flusher : Pipeline.Flusher
  compactor : Pipeline.Compactor
  /-- The `.sstable` files `flush_to_disk` wrote to the end, with their tables. -/
  files : List (Nat × Nat)
  clock : Nat
  poisoned : Bool
  /-- The tables whose SSTables were pushed, in this order. -/
  loaded : List Nat
  popped : List Nat
  deriving DecidableEq, Repr

namespace Pipeline

/-- `LsmliteInner::new` with `recovered` WAL files before the newest and `sstables` SSTables:
`ImmutableMemtable::new` loads the tables and sends a signal for each before the tasks start. -/
def start (recovered sstables clock : Nat) : Pipeline where
  tables := recovered + 1
  immutable := List.range recovered
  cache := List.replicate sstables []
  writers := []
  memtableChannel := recovered
  signal := []
  sstableAck := 0
  flusher := .waiting
  compactor := .waiting
  files := []
  clock
  poisoned := false
  loaded := []
  popped := []

def active (s : Pipeline) : Nat := s.tables - 1

def setWriter (s : Pipeline) (i : Nat) (w : Writer) : Pipeline :=
  { s with writers := s.writers.set i w }

/-- The steps of a writer: `rotate_table` with the check and the write before it. -/
inductive WriterStep (s : Pipeline) : Pipeline → Prop where
  /-- Another task takes a handle. -/
  | spawn : WriterStep s { s with writers := s.writers ++ [.idle] }
  | check {i : Nat} (hi : s.writers[i]? = some .idle) (hp : s.poisoned = false) :
    WriterStep s (s.setWriter i .checked)
  /-- "Database reached poisoned state". -/
  | checkFails {i : Nat} (hi : s.writers[i]? = some .idle) (hp : s.poisoned = true) :
    WriterStep s (s.setWriter i .panicked)
  /-- The table takes the record. -/
  | fits {i : Nat} (hi : s.writers[i]? = some .checked) : WriterStep s (s.setWriter i .idle)
  | full {i : Nat} (hi : s.writers[i]? = some .checked) : WriterStep s (s.setWriter i .rotating)
  | rotate {i : Nat} (hi : s.writers[i]? = some .rotating) :
    WriterStep s ({ s with tables := s.tables + 1 }.setWriter i (.inserting s.active))
  /-- "Unable to create fresh memtable on rotate". -/
  | rotateFails {i : Nat} (hi : s.writers[i]? = some .rotating) :
    WriterStep s (s.setWriter i .panicked)
  | insert {i full : Nat} (hi : s.writers[i]? = some (.inserting full)) :
    WriterStep s ({ s with immutable := s.immutable ++ [full] }.setWriter i .sending)
  | send {i : Nat} (hi : s.writers[i]? = some .sending) (hopen : s.flusher.running = true) :
    WriterStep s ({ s with memtableChannel := s.memtableChannel + 1 }.setWriter i .idle)
  /-- "Unable to send memtable flush signal". -/
  | sendFails {i : Nat} (hi : s.writers[i]? = some .sending) (hclosed : s.flusher.running = false) :
    WriterStep s (s.setWriter i .panicked)

/-- The steps of `flush_memtable`. -/
inductive FlusherStep (s : Pipeline) : Pipeline → Prop where
  | receiveFlush (hf : s.flusher = .waiting) (hch : 0 < s.memtableChannel) :
    FlusherStep s
      { s with flusher := .creating, memtableChannel := s.memtableChannel - 1 }
  | createFile {path : Nat} (hf : s.flusher = .creating) (hts : s.clock < path) :
    FlusherStep s { s with flusher := .created path, clock := path }
  | createFails (hf : s.flusher = .creating) :
    FlusherStep s { s with flusher := .stopped, poisoned := true }
  | takeFront {path table : Nat} {rest : List Nat} (hf : s.flusher = .created path)
      (hq : s.immutable = table :: rest) :
    FlusherStep s { s with flusher := .writing path table }
  | takeNothing {path : Nat} (hf : s.flusher = .created path) (hq : s.immutable = []) :
    FlusherStep s { s with flusher := .emptyQueue }
  | flushToDisk {path table : Nat} (hf : s.flusher = .writing path table) :
    FlusherStep s
      { s with flusher := .removing path table, files := (path, table) :: s.files }
  | removeWal {path table : Nat} (hf : s.flusher = .removing path table) :
    FlusherStep s { s with flusher := .sending path table }
  /-- A failure of `flush_to_disk` or of `remove_file`: the signal is spent. -/
  | flushFails {path table : Nat}
      (hf : s.flusher = .writing path table ∨ s.flusher = .removing path table) :
    FlusherStep s { s with flusher := .waiting, poisoned := true }
  | sendLoad {path table : Nat} (hf : s.flusher = .sending path table)
      (hopen : s.compactor.running = true) :
    FlusherStep s { s with flusher := .awaiting table, signal := s.signal ++ [path] }
  /-- The error of a send to a task that ended is dropped. -/
  | sendLoadFails {path table : Nat} (hf : s.flusher = .sending path table)
      (hclosed : s.compactor.running = false) :
    FlusherStep s { s with flusher := .awaiting table }
  | receiveAck {table : Nat} (hf : s.flusher = .awaiting table) (hack : 0 < s.sstableAck) :
    FlusherStep s { s with flusher := .waiting, sstableAck := s.sstableAck - 1 }
  /-- "Unable to receive ack loaded SSTable". -/
  | ackLost {table : Nat} (hf : s.flusher = .awaiting table) (hack : s.sstableAck = 0)
      (hclosed : s.compactor.running = false) :
    FlusherStep s { s with flusher := .stopped }

/-- The steps of `sstable_background`. -/
inductive CompactorStep (compactionRate : Nat) (s : Pipeline) : Pipeline → Prop where
  | receiveLoad {path : Nat} {rest : List Nat} (hc : s.compactor = .waiting)
      (hch : s.signal = path :: rest) :
    CompactorStep compactionRate s { s with compactor := .loading path, signal := rest }
  | pushTable {path table : Nat} (hc : s.compactor = .loading path)
      (hfile : s.files.lookup path = some table) :
    CompactorStep compactionRate s { s with
      cache := [table] :: s.cache
      loaded := s.loaded ++ [table]
      compactor := .popping (s.cache.length + 1) }
  /-- "Unable to read in SSTable file". -/
  | loadFails {path : Nat} (hc : s.compactor = .loading path) :
    CompactorStep compactionRate s { s with compactor := .stopped }
  | popTable {currentLen : Nat} (hc : s.compactor = .popping currentLen) :
    CompactorStep compactionRate s { s with
      immutable := s.immutable.tail
      popped := s.popped ++ s.immutable.head?.toList
      compactor := if compactionRate ≤ currentLen then .compacting else .acking }
  | replaceTables (hc : s.compactor = .compacting) :
    CompactorStep compactionRate s { s with cache := [s.cache.flatten], compactor := .cleaning }
  /-- "Unable to run compaction". -/
  | compactFails (hc : s.compactor = .compacting) :
    CompactorStep compactionRate s { s with compactor := .stopped }
  | removeStale (hc : s.compactor = .cleaning) :
    CompactorStep compactionRate s { s with files := [], compactor := .acking }
  /-- "Unable to delete stale SSTable", with some of them deleted. -/
  | cleanupFails {files : List (Nat × Nat)} (hc : s.compactor = .cleaning)
      (hfiles : files.Sublist s.files) :
    CompactorStep compactionRate s { s with files, compactor := .stopped }
  | sendAck (hc : s.compactor = .acking) (hopen : s.flusher.running = true) :
    CompactorStep compactionRate s { s with compactor := .waiting, sstableAck := s.sstableAck + 1 }
  /-- "Unable to send ack to signal SSTable is loaded". -/
  | ackFails (hc : s.compactor = .acking) (hclosed : s.flusher.running = false) :
    CompactorStep compactionRate s { s with compactor := .stopped }

inductive Step (compactionRate : Nat) (s : Pipeline) : Pipeline → Prop where
  | writer {s' : Pipeline} (h : WriterStep s s') : Step compactionRate s s'
  | flusher {s' : Pipeline} (h : FlusherStep s s') : Step compactionRate s s'
  | compactor {s' : Pipeline} (h : CompactorStep compactionRate s s') : Step compactionRate s s'

/-- The states of the runs from a start or a restart. -/
inductive Reaches (compactionRate : Nat) : Pipeline → Prop where
  | start (recovered sstables clock : Nat) : Reaches compactionRate (start recovered sstables clock)
  | next {s s' : Pipeline} (h : Reaches compactionRate s) (hs : Step compactionRate s s') :
    Reaches compactionRate s'

/-- A signal is in progress from its receipt until its table is out of the queue or its flush
fails. -/
def inProgress (s : Pipeline) : Nat :=
  match s.flusher with
  | .waiting => 0
  | .awaiting table => if table ∈ s.popped then 0 else 1
  | .emptyQueue => 0
  | .stopped => 0
  | _ => 1

/-- A table that leaves the queue is its front, and its SSTable is the one just pushed. -/
def PopsLoaded (s s' : Pipeline) : Prop :=
  ∀ i ∈ s.immutable, i ∉ s'.immutable →
    s.immutable = i :: s'.immutable ∧ s.cache.head? = some [i] ∧ s.loaded.getLast? = some i

/-! ## Where the tables are -/

/-- The table a writer has swapped out and not inserted yet. -/
def Writer.inHand : Writer → Option Nat
  | .inserting full => some full
  | _ => none

/-- The writer has inserted a table and not sent its signal yet. -/
def Writer.owes : Writer → Option Unit
  | .sending => some ()
  | _ => none

def inserting (s : Pipeline) : List Nat := s.writers.filterMap Writer.inHand

def owed (s : Pipeline) : Nat := (s.writers.filterMap Writer.owes).length

/-- Every table but the active one is popped, in the queue or in a writer's hands. The queue has a
table for each signal that is queued, in progress or owed. -/
structure Accounted (s : Pipeline) : Prop where
  positive : 0 < s.tables
  once : (s.popped ++ s.immutable ++ s.inserting).Perm (List.range s.active)
  room : s.memtableChannel + s.inProgress + s.owed ≤ s.immutable.length
  stored : ∀ i ∈ s.loaded, i ∈ s.cache.flatten

theorem Accounted.nodup {s : Pipeline} (h : Accounted s) : (s.popped ++ s.immutable).Nodup :=
  (List.nodup_append.mp (h.once.nodup_iff.mpr List.nodup_range)).1

theorem Accounted.not_popped {s : Pipeline} (h : Accounted s) {i : Nat}
    (hi : s.immutable.head? = some i) : i ∉ s.popped := by
  intro hpopped
  exact (List.nodup_append.mp h.nodup).2.2 i hpopped i (List.mem_of_head? hi) rfl

theorem accounted_start (recovered sstables clock : Nat) :
    Accounted (start recovered sstables clock) where
  positive := Nat.succ_pos _
  once := by simp [start, inserting, active]
  room := by simp [start, inProgress, owed]
  stored i hi := by cases hi

theorem inserting_setWriter {s : Pipeline} {i : Nat} {w : Writer} (hi : s.writers[i]? = some w)
    (w' : Writer) :
    (w.inHand.toList ++ (s.setWriter i w').inserting).Perm (w'.inHand.toList ++ s.inserting) :=
  Engine.filterMap_set_perm Writer.inHand hi w'

theorem owed_setWriter {s : Pipeline} {i : Nat} {w : Writer} (hi : s.writers[i]? = some w)
    (w' : Writer) :
    w.owes.toList.length + (s.setWriter i w').owed = w'.owes.toList.length + s.owed := by
  have h := (Engine.filterMap_set_perm Writer.owes hi w').length_eq
  rw [List.length_append, List.length_append] at h
  exact h

/-- A writer moves with no table in hand and no signal owed. -/
theorem Accounted.writer_moved {s : Pipeline} (h : Accounted s) {i : Nat} {w w' : Writer}
    (hi : s.writers[i]? = some w) (hw : w.inHand = none) (hw' : w'.inHand = none)
    (howes : w'.owes = none) : Accounted (s.setWriter i w') where
  positive := h.positive
  once := by
    have hperm := inserting_setWriter hi w'
    rw [hw, hw'] at hperm
    exact (hperm.append_left _).trans h.once
  room := by
    have howed := owed_setWriter hi w'
    have hroom := h.room
    rw [howes] at howed
    show s.memtableChannel + s.inProgress + (s.setWriter i w').owed ≤ s.immutable.length
    simp only [Option.toList_none, List.length_nil] at howed
    omega
  stored := h.stored

theorem Accounted.rotate {s : Pipeline} (h : Accounted s) {i : Nat}
    (hi : s.writers[i]? = some .rotating) :
    Accounted ({ s with tables := s.tables + 1 }.setWriter i (.inserting s.active)) where
  positive := Nat.succ_pos _
  once := by
    have hperm := inserting_setWriter hi (.inserting s.active)
    have hactive : s.tables + 1 - 1 = s.active + 1 := by
      have := h.positive
      unfold active
      omega
    show List.Perm _ (List.range (s.tables + 1 - 1))
    rw [hactive, List.range_succ]
    refine (hperm.append_left _).trans (List.perm_middle.trans ?_)
    exact (h.once.cons _).trans (List.perm_append_singleton _ _).symm
  room := by
    have howed := owed_setWriter hi (.inserting s.active)
    have hroom := h.room
    show s.memtableChannel + s.inProgress + (s.setWriter i (.inserting s.active)).owed ≤
      s.immutable.length
    simp only [Writer.owes, Option.toList_none, List.length_nil] at howed
    omega
  stored := h.stored

theorem Accounted.insert {s : Pipeline} (h : Accounted s) {i full : Nat}
    (hi : s.writers[i]? = some (.inserting full)) :
    Accounted ({ s with immutable := s.immutable ++ [full] }.setWriter i .sending) where
  positive := h.positive
  once := by
    have hperm := inserting_setWriter hi .sending
    show (s.popped ++ (s.immutable ++ [full]) ++ (s.setWriter i .sending).inserting).Perm _
    rw [← List.append_assoc, List.append_assoc _ [full]]
    exact (hperm.append_left _).trans h.once
  room := by
    have howed := owed_setWriter hi .sending
    have hroom := h.room
    show s.memtableChannel + s.inProgress + (s.setWriter i .sending).owed ≤
      (s.immutable ++ [full]).length
    simp only [Writer.owes, Option.toList_none, Option.toList_some, List.length_nil,
      List.length_singleton] at howed
    rw [List.length_append, List.length_singleton]
    omega
  stored := h.stored

theorem Accounted.send {s : Pipeline} (h : Accounted s) {i : Nat}
    (hi : s.writers[i]? = some .sending) :
    Accounted ({ s with memtableChannel := s.memtableChannel + 1 }.setWriter i .idle) where
  positive := h.positive
  once := by
    have hperm := inserting_setWriter hi .idle
    exact (hperm.append_left _).trans h.once
  room := by
    have howed := owed_setWriter hi .idle
    have hroom := h.room
    show s.memtableChannel + 1 + s.inProgress + (s.setWriter i .idle).owed ≤ s.immutable.length
    simp only [Writer.owes, Option.toList_none, Option.toList_some, List.length_nil,
      List.length_singleton] at howed
    omega
  stored := h.stored

/-- A step of a task that takes no table from the queue. -/
theorem Accounted.task_moved {s s' : Pipeline} (h : Accounted s) (htables : s'.tables = s.tables)
    (himmutable : s'.immutable = s.immutable) (hpopped : s'.popped = s.popped)
    (hwriters : s'.writers = s.writers)
    (hroom : s'.memtableChannel + s'.inProgress ≤ s.memtableChannel + s.inProgress)
    (hstored : ∀ i ∈ s'.loaded, i ∈ s'.cache.flatten) : Accounted s' where
  positive := htables ▸ h.positive
  once := by
    rw [hpopped, himmutable, inserting, hwriters, active, htables]
    exact h.once
  room := by
    have := h.room
    rw [himmutable, owed, hwriters]
    unfold owed at this
    omega
  stored := hstored

/-! ## Where the flush task's table is -/

/-- The queue's front as `flush` took it, until the load of its SSTable is sent. -/
def Flusher.taken : Flusher → Option Nat
  | .writing _ table => some table
  | .removing _ table => some table
  | .sending _ table => some table
  | _ => none

/-- The file written to the end, until the load of it is sent. -/
def Flusher.written : Flusher → Option (Nat × Nat)
  | .removing path table => some (path, table)
  | .sending path table => some (path, table)
  | _ => none

/-- The task neither waits for a load nor met an empty queue. -/
def Flusher.free : Flusher → Bool
  | .awaiting _ => false
  | .emptyQueue => false
  | _ => true

/-- How far the table is that the flush task took from the queue. There is one load at a time, and
it is that of the front. -/
inductive Stage (s : Pipeline) : Prop where
  | flushing (hf : s.flusher.free = true) (hsignal : s.signal = []) (hack : s.sstableAck = 0)
      (hc : s.compactor = .waiting ∨ s.compactor = .stopped)
      (hfront : ∀ i ∈ s.flusher.taken, s.immutable.head? = some i)
      (hfile : ∀ f ∈ s.flusher.written, s.files.lookup f.1 = some f.2)
      (hloaded : s.loaded = s.popped)
  | queued {path table : Nat} (hf : s.flusher = .awaiting table) (hsignal : s.signal = [path])
      (hack : s.sstableAck = 0) (hc : s.compactor = .waiting)
      (hfront : s.immutable.head? = some table)
      (hfile : s.files.lookup path = some table) (hloaded : s.loaded = s.popped)
  | loading {path table : Nat} (hf : s.flusher = .awaiting table) (hsignal : s.signal = [])
      (hack : s.sstableAck = 0) (hc : s.compactor = .loading path)
      (hfront : s.immutable.head? = some table) (hfile : s.files.lookup path = some table)
      (hloaded : s.loaded = s.popped)
  | pushed {table len : Nat} (hf : s.flusher = .awaiting table) (hsignal : s.signal = [])
      (hack : s.sstableAck = 0) (hc : s.compactor = .popping len)
      (hfront : s.immutable.head? = some table) (hcache : s.cache.head? = some [table])
      (hloaded : s.loaded = s.popped ++ [table])
  | popped {table : Nat} (hf : s.flusher = .awaiting table) (hsignal : s.signal = [])
      (hack : s.sstableAck = 0)
      (hc : s.compactor = .compacting ∨ s.compactor = .cleaning ∨ s.compactor = .acking)
      (hmem : table ∈ s.popped) (hloaded : s.loaded = s.popped)
  | acked {table : Nat} (hf : s.flusher = .awaiting table) (hsignal : s.signal = [])
      (hack : s.sstableAck = 1) (hc : s.compactor = .waiting) (hmem : table ∈ s.popped)
      (hloaded : s.loaded = s.popped)
  | lost {table : Nat} (hf : s.flusher = .awaiting table) (hsignal : s.signal = [])
      (hack : s.sstableAck = 0) (hc : s.compactor = .stopped) (hloaded : s.loaded = s.popped)

theorem stage_start (recovered sstables clock : Nat) : Stage (start recovered sstables clock) :=
  .flushing rfl rfl rfl (Or.inl rfl) (fun i hi => by cases hi) (fun f hf => by cases hf) rfl

/-- Writers leave the queue's front where it is. -/
theorem Stage.writer_moved {s : Pipeline} (h : Stage s) (tables : Nat) (immutable : List Nat)
    (writers : List Writer) (memtableChannel : Nat)
    (hfront : ∀ i, s.immutable.head? = some i → immutable.head? = some i) :
    Stage { s with tables, immutable, writers, memtableChannel } := by
  cases h with
  | flushing hf hsignal hack hc hfr hfile hloaded =>
    exact .flushing hf hsignal hack hc (fun i hi => hfront i (hfr i hi)) hfile hloaded
  | queued hf hsignal hack hc hfr hfile hloaded =>
    exact .queued hf hsignal hack hc (hfront _ hfr) hfile hloaded
  | loading hf hsignal hack hc hfr hfile hloaded =>
    exact .loading hf hsignal hack hc (hfront _ hfr) hfile hloaded
  | pushed hf hsignal hack hc hfr hcache hloaded =>
    exact .pushed hf hsignal hack hc (hfront _ hfr) hcache hloaded
  | popped hf hsignal hack hc hmem hloaded => exact .popped hf hsignal hack hc hmem hloaded
  | acked hf hsignal hack hc hmem hloaded => exact .acked hf hsignal hack hc hmem hloaded
  | lost hf hsignal hack hc hloaded => exact .lost hf hsignal hack hc hloaded

theorem head_append_of_head {l more : List Nat} {i : Nat} (h : l.head? = some i) :
    (l ++ more).head? = some i := by
  rw [List.head?_append, h, Option.some_or]

theorem inProgress_awaiting {s : Pipeline} {table : Nat} (hf : s.flusher = .awaiting table) :
    s.inProgress = if table ∈ s.popped then 0 else 1 := by
  rw [inProgress, hf]

/-- What holds in every state of a run. -/
structure Invariant (s : Pipeline) : Prop where
  accounted : Accounted s
  stage : Stage s

/-! ## The writers -/

theorem Invariant.writer_moved {s : Pipeline} (h : Invariant s) {i : Nat} {w w' : Writer}
    (hi : s.writers[i]? = some w) (hw : w.inHand = none) (hw' : w'.inHand = none)
    (howes : w'.owes = none) : Invariant (s.setWriter i w') where
  accounted := h.accounted.writer_moved hi hw hw' howes
  stage := h.stage.writer_moved _ _ _ _ fun _ hfront => hfront

/-! ## The flush task -/

/-- A step of the flush task before it sends a load. -/
theorem Invariant.flusher_moved {s s' : Pipeline} (h : Invariant s) (hf : s.flusher.free = true)
    (hacc : Accounted s') (hsignal : s'.signal = s.signal) (hack : s'.sstableAck = s.sstableAck)
    (hc : s'.compactor = s.compactor) (hloaded : s'.loaded = s.loaded)
    (hpopped : s'.popped = s.popped) (hf' : s'.flusher.free = true)
    (hfront : ∀ i ∈ s'.flusher.taken, s'.immutable.head? = some i)
    (hfile : ∀ f ∈ s'.flusher.written, s'.files.lookup f.1 = some f.2) : Invariant s' := by
  refine ⟨hacc, ?_⟩
  cases h.stage with
  | flushing _ hsignal' hack' hc' _ _ hloaded' =>
    refine .flushing hf' (hsignal.trans hsignal') (hack.trans hack') ?_ hfront hfile ?_
    · rwa [hc]
    · rw [hloaded, hpopped, hloaded']
  | queued haw | loading haw | pushed haw | popped haw | acked haw | lost haw =>
    rw [haw] at hf
    cases hf

theorem Invariant.taken {s : Pipeline} (h : Invariant s) {i : Nat} (hi : i ∈ s.flusher.taken) :
    s.immutable.head? = some i := by
  cases h.stage with
  | flushing _ _ _ _ hfront _ _ => exact hfront i hi
  | queued haw | loading haw | pushed haw | popped haw | acked haw | lost haw =>
    rw [haw] at hi
    cases hi

theorem Invariant.written {s : Pipeline} (h : Invariant s) {f : Nat × Nat}
    (hf : f ∈ s.flusher.written) : s.files.lookup f.1 = some f.2 := by
  cases h.stage with
  | flushing _ _ _ _ _ hfile _ => exact hfile f hf
  | queued haw | loading haw | pushed haw | popped haw | acked haw | lost haw =>
    rw [haw] at hf
    cases hf

theorem flusher_step {s s' : Pipeline} (h : Invariant s) (hs : FlusherStep s s') :
    Invariant s' := by
  have hacc := h.accounted
  have hstored := hacc.stored
  cases hs with
  | receiveFlush hf hch =>
    refine h.flusher_moved (by rw [hf]; rfl) ?_ rfl rfl rfl rfl rfl rfl (by nofun) (by nofun)
    refine hacc.task_moved rfl rfl rfl rfl ?_ hstored
    simp only [inProgress, hf]
    omega
  | createFile hf hts =>
    refine h.flusher_moved (by rw [hf]; rfl) ?_ rfl rfl rfl rfl rfl rfl (by nofun) (by nofun)
    refine hacc.task_moved rfl rfl rfl rfl ?_ hstored
    simp only [inProgress, hf, Nat.le_refl]
  | createFails hf =>
    refine h.flusher_moved (by rw [hf]; rfl) ?_ rfl rfl rfl rfl rfl rfl (by nofun) (by nofun)
    refine hacc.task_moved rfl rfl rfl rfl ?_ hstored
    simp only [inProgress, hf]
    omega
  | takeFront hf hq =>
    refine h.flusher_moved (by rw [hf]; rfl) ?_ rfl rfl rfl rfl rfl rfl ?_ (by nofun)
    · refine hacc.task_moved rfl rfl rfl rfl ?_ hstored
      simp only [inProgress, hf, Nat.le_refl]
    · intro i hi
      cases hi
      exact congrArg List.head? hq
  | takeNothing hf hq =>
    -- The signal in progress has a table in the queue.
    have hroom := hacc.room
    simp only [inProgress, hf, hq, List.length_nil] at hroom
    omega
  | @flushToDisk path table hf =>
    refine h.flusher_moved (by rw [hf]; rfl) ?_ rfl rfl rfl rfl rfl rfl ?_ ?_
    · refine hacc.task_moved rfl rfl rfl rfl ?_ hstored
      simp only [inProgress, hf, Nat.le_refl]
    · intro i hi
      exact h.taken (by rw [hf]; exact hi)
    · intro f hf'
      cases hf'
      exact List.lookup_cons_self
  | removeWal hf =>
    refine h.flusher_moved (by rw [hf]; rfl) ?_ rfl rfl rfl rfl rfl rfl ?_ ?_
    · refine hacc.task_moved rfl rfl rfl rfl ?_ hstored
      simp only [inProgress, hf, Nat.le_refl]
    · intro i hi
      exact h.taken (by rw [hf]; exact hi)
    · intro f hf'
      exact h.written (by rw [hf]; exact hf')
  | flushFails hf =>
    have hprogress : s.inProgress = 1 := by rcases hf with hf | hf <;> simp only [inProgress, hf]
    refine h.flusher_moved (by
      rcases hf with hf | hf <;> rw [hf] <;> rfl) ?_ rfl rfl rfl rfl rfl rfl (by nofun) (by nofun)
    refine hacc.task_moved rfl rfl rfl rfl ?_ hstored
    rw [hprogress]
    exact Nat.le_succ _
  | @sendLoad path table hf hopen =>
    have hfront := h.taken (i := table) (by rw [hf]; rfl)
    have hfile := h.written (f := (path, table)) (by rw [hf]; rfl)
    refine ⟨?_, ?_⟩
    · refine hacc.task_moved rfl rfl rfl rfl ?_ hstored
      simp only [inProgress, hf, hacc.not_popped hfront, if_false, Nat.le_refl]
    · cases h.stage with
      | flushing _ hsignal hack hc _ _ hloaded =>
        refine .queued rfl (by rw [hsignal]; rfl) hack ?_ hfront hfile hloaded
        rcases hc with hc | hc
        · exact hc
        · rw [hc] at hopen
          cases hopen
      | queued haw | loading haw | pushed haw | popped haw | acked haw | lost haw =>
        rw [haw] at hf
        cases hf
  | @sendLoadFails path table hf hclosed =>
    have hfront := h.taken (i := table) (by rw [hf]; rfl)
    refine ⟨?_, ?_⟩
    · refine hacc.task_moved rfl rfl rfl rfl ?_ hstored
      simp only [inProgress, hf, hacc.not_popped hfront, if_false, Nat.le_refl]
    · cases h.stage with
      | flushing _ hsignal hack hc _ _ hloaded =>
        refine .lost rfl hsignal hack ?_ hloaded
        rcases hc with hc | hc
        · rw [hc] at hclosed
          cases hclosed
        · exact hc
      | queued haw | loading haw | pushed haw | popped haw | acked haw | lost haw =>
        rw [haw] at hf
        cases hf
  | @receiveAck table hf hack =>
    refine ⟨?_, ?_⟩
    · refine hacc.task_moved rfl rfl rfl rfl ?_ hstored
      exact Nat.add_le_add_left (Nat.zero_le _) _
    · cases h.stage with
      | acked _ hsignal hack' hc _ hloaded =>
        exact .flushing rfl hsignal (by rw [hack']) (Or.inl hc) (by nofun) (by nofun) hloaded
      | flushing _ _ hack' | queued _ _ hack' | loading _ _ hack'
      | pushed _ _ hack' | popped _ _ hack'
      | lost _ _ hack' =>
        rw [hack'] at hack
        cases hack
  | @ackLost table hf hack hclosed =>
    refine ⟨?_, ?_⟩
    · refine hacc.task_moved rfl rfl rfl rfl ?_ hstored
      exact Nat.add_le_add_left (Nat.zero_le _) _
    · cases h.stage with
      | lost _ hsignal _ hc hloaded =>
        exact .flushing rfl hsignal hack (Or.inr hc) (by nofun) (by nofun) hloaded
      | flushing haw =>
        rw [hf] at haw
        cases haw
      | acked _ _ hack' =>
        rw [hack'] at hack
        cases hack
      | queued _ _ _ hc | loading _ _ _ hc | pushed _ _ _ hc =>
        rw [hc] at hclosed
        cases hclosed
      | popped _ _ _ hc => rcases hc with hc | hc | hc <;> (rw [hc] at hclosed; cases hclosed)

/-! ## The compaction task -/

theorem eq_cons_of_head {l : List Nat} {i : Nat} (h : l.head? = some i) : l = i :: l.tail :=
  (List.cons_head?_tail h).symm

/-- A step of the compaction task that takes no table from the queue. -/
theorem Accounted.compactor_moved {s s' : Pipeline} (h : Accounted s)
    (htables : s'.tables = s.tables) (himmutable : s'.immutable = s.immutable)
    (hpopped : s'.popped = s.popped) (hwriters : s'.writers = s.writers)
    (hchannel : s'.memtableChannel = s.memtableChannel) (hflusher : s'.flusher = s.flusher)
    (hstored : ∀ i ∈ s'.loaded, i ∈ s'.cache.flatten) :
    Accounted s' := by
  refine h.task_moved htables himmutable hpopped hwriters ?_ hstored
  rw [inProgress, inProgress, hchannel, hflusher, hpopped]

theorem Accounted.popTable {s : Pipeline} (h : Accounted s) {table : Nat} (compactor : Compactor)
    (hf : s.flusher = .awaiting table) (hfront : s.immutable.head? = some table) :
    Accounted { s with
      immutable := s.immutable.tail
      popped := s.popped ++ s.immutable.head?.toList
      compactor } where
  positive := h.positive
  once := by
    rw [hfront]
    show (s.popped ++ [table] ++ s.immutable.tail ++ s.inserting).Perm _
    rw [List.append_assoc s.popped, List.singleton_append, ← eq_cons_of_head hfront]
    exact h.once
  room := by
    have hroom := h.room
    rw [inProgress_awaiting hf, if_neg (h.not_popped hfront), eq_cons_of_head hfront,
      List.length_cons] at hroom
    have hmem : table ∈ s.popped ++ s.immutable.head?.toList := by
      rw [hfront]
      exact List.mem_append_right _ (List.mem_singleton_self _)
    simp only [inProgress, hf, if_pos hmem]
    show s.memtableChannel + 0 + s.owed ≤ s.immutable.tail.length
    omega
  stored := h.stored

/-- After the pop the flush task waits for the acknowledgement. -/
theorem Invariant.of_popped {s : Pipeline} (h : Invariant s)
    (hc : s.compactor = .compacting ∨ s.compactor = .cleaning ∨ s.compactor = .acking) :
    ∃ table, s.flusher = .awaiting table ∧ s.signal = [] ∧ s.sstableAck = 0 ∧ table ∈ s.popped ∧
      s.loaded = s.popped := by
  cases h.stage with
  | popped hf hsignal hack _ hmem hloaded => exact ⟨_, hf, hsignal, hack, hmem, hloaded⟩
  | flushing _ _ _ hc' => rcases hc' with hc' | hc' <;> simp [hc'] at hc
  | queued _ _ _ hc' | loading _ _ _ hc' | pushed _ _ _ hc' | acked _ _ _ hc' | lost _ _ _ hc' =>
    simp [hc'] at hc

/-- A file that is about to be loaded was written to the end. -/
theorem Invariant.loading_file {s : Pipeline} (h : Invariant s) {path : Nat}
    (hc : s.compactor = .loading path) : ∃ table, s.files.lookup path = some table := by
  cases h.stage with
  | loading _ _ _ hc' _ hfile _ =>
    rw [hc'] at hc
    cases hc
    exact ⟨_, hfile⟩
  | flushing _ _ _ hc' => rcases hc' with hc' | hc' <;> simp [hc'] at hc
  | popped _ _ _ hc' => rcases hc' with hc' | hc' | hc' <;> simp [hc'] at hc
  | queued _ _ _ hc' | pushed _ _ _ hc' | acked _ _ _ hc' | lost _ _ _ hc' => simp [hc'] at hc

theorem compactor_step {compactionRate : Nat} {s s' : Pipeline} (h : Invariant s)
    (hs : CompactorStep compactionRate s s') : Invariant s' := by
  have hacc := h.accounted
  have hstored := hacc.stored
  cases hs with
  | receiveLoad hc hch =>
    refine ⟨hacc.compactor_moved rfl rfl rfl rfl rfl rfl hstored, ?_⟩
    cases h.stage with
    | queued hf hsignal hack _ hfront hfile hloaded =>
      rw [hsignal] at hch
      cases hch
      exact .loading hf rfl hack rfl hfront hfile hloaded
    | flushing _ hsignal | loading _ hsignal | pushed _ hsignal | popped _ hsignal | acked _ hsignal
    | lost _ hsignal =>
      rw [hsignal] at hch
      cases hch
  | @pushTable path table hc hfile =>
    refine ⟨hacc.compactor_moved rfl rfl rfl rfl rfl rfl ?_, ?_⟩
    · intro i hi
      rw [List.flatten_cons]
      rcases List.mem_append.mp hi with hi | hi
      · exact List.mem_append_right _ (hstored i hi)
      · exact List.mem_append_left _ hi
    · cases h.stage with
      | loading hf hsignal hack hc' hfront hfile' hloaded =>
        rw [hc'] at hc
        cases hc
        rw [hfile'] at hfile
        cases hfile
        exact .pushed hf hsignal hack rfl hfront rfl (by rw [hloaded])
      | flushing _ _ _ hc' => rcases hc' with hc' | hc' <;> (rw [hc'] at hc; cases hc)
      | popped _ _ _ hc' => rcases hc' with hc' | hc' | hc' <;> (rw [hc'] at hc; cases hc)
      | queued _ _ _ hc' | pushed _ _ _ hc' | acked _ _ _ hc' | lost _ _ _ hc' =>
        rw [hc'] at hc
        cases hc
  | loadFails hc =>
    refine ⟨hacc.compactor_moved rfl rfl rfl rfl rfl rfl hstored, ?_⟩
    cases h.stage with
    | loading hf hsignal hack _ _ _ hloaded => exact .lost hf hsignal hack rfl hloaded
    | flushing _ _ _ hc' => rcases hc' with hc' | hc' <;> (rw [hc'] at hc; cases hc)
    | popped _ _ _ hc' => rcases hc' with hc' | hc' | hc' <;> (rw [hc'] at hc; cases hc)
    | queued _ _ _ hc' | pushed _ _ _ hc' | acked _ _ _ hc' | lost _ _ _ hc' =>
      rw [hc'] at hc
      cases hc
  | @popTable currentLen hc =>
    cases h.stage with
    | @pushed table _ hf hsignal hack _ hfront _ hloaded =>
      refine ⟨hacc.popTable _ hf hfront, ?_⟩
      refine .popped hf hsignal hack ?_ (?_ : table ∈ s.popped ++ s.immutable.head?.toList) ?_
      · dsimp only
        split
        · exact Or.inl rfl
        · exact Or.inr (Or.inr rfl)
      · rw [hfront]
        exact List.mem_append_right _ (List.mem_singleton_self _)
      · rw [hfront]
        exact hloaded
    | flushing _ _ _ hc' => rcases hc' with hc' | hc' <;> (rw [hc'] at hc; cases hc)
    | popped _ _ _ hc' => rcases hc' with hc' | hc' | hc' <;> (rw [hc'] at hc; cases hc)
    | queued _ _ _ hc' | loading _ _ _ hc' | acked _ _ _ hc' | lost _ _ _ hc' =>
      rw [hc'] at hc
      cases hc
  | replaceTables hc =>
    obtain ⟨table, hf, hsignal, hack, hmem, hloaded⟩ := h.of_popped (Or.inl hc)
    refine ⟨hacc.compactor_moved rfl rfl rfl rfl rfl rfl ?_, ?_⟩
    · intro i hi
      rw [List.flatten_singleton]
      exact hstored i hi
    · exact .popped hf hsignal hack (Or.inr (Or.inl rfl)) hmem hloaded
  | compactFails hc =>
    obtain ⟨table, hf, hsignal, hack, hmem, hloaded⟩ := h.of_popped (Or.inl hc)
    exact ⟨hacc.compactor_moved rfl rfl rfl rfl rfl rfl hstored, .lost hf hsignal hack rfl hloaded⟩
  | removeStale hc =>
    obtain ⟨table, hf, hsignal, hack, hmem, hloaded⟩ := h.of_popped (Or.inr (Or.inl hc))
    refine ⟨hacc.compactor_moved rfl rfl rfl rfl rfl rfl hstored, ?_⟩
    exact .popped hf hsignal hack (Or.inr (Or.inr rfl)) hmem hloaded
  | cleanupFails hc hfiles =>
    obtain ⟨table, hf, hsignal, hack, hmem, hloaded⟩ := h.of_popped (Or.inr (Or.inl hc))
    exact ⟨hacc.compactor_moved rfl rfl rfl rfl rfl rfl hstored, .lost hf hsignal hack rfl hloaded⟩
  | sendAck hc hopen =>
    obtain ⟨table, hf, hsignal, hack, hmem, hloaded⟩ := h.of_popped (Or.inr (Or.inr hc))
    refine ⟨hacc.compactor_moved rfl rfl rfl rfl rfl rfl hstored, ?_⟩
    exact .acked hf hsignal (by rw [hack]) rfl hmem hloaded
  | ackFails hc hclosed =>
    obtain ⟨table, hf, hsignal, hack, hmem, hloaded⟩ := h.of_popped (Or.inr (Or.inr hc))
    exact ⟨hacc.compactor_moved rfl rfl rfl rfl rfl rfl hstored, .lost hf hsignal hack rfl hloaded⟩

/-! ## Runs -/

theorem writer_step {s s' : Pipeline} (h : Invariant s) (hs : WriterStep s s') : Invariant s' := by
  cases hs with
  | spawn =>
    refine ⟨?_, h.stage.writer_moved _ _ _ _ fun _ hfront => hfront⟩
    have hacc := h.accounted
    refine ⟨hacc.positive, ?_, ?_, hacc.stored⟩
    · have hsame : (s.writers ++ [Writer.idle]).filterMap Writer.inHand = s.inserting := by
        simp [inserting, Writer.inHand]
      rw [inserting, hsame]
      exact hacc.once
    · have hsame : ((s.writers ++ [Writer.idle]).filterMap Writer.owes).length = s.owed := by
        simp [owed, Writer.owes]
      rw [owed, hsame]
      exact hacc.room
  | check hi hp => exact h.writer_moved hi rfl rfl rfl
  | checkFails hi hp => exact h.writer_moved hi rfl rfl rfl
  | fits hi => exact h.writer_moved hi rfl rfl rfl
  | full hi => exact h.writer_moved hi rfl rfl rfl
  | rotate hi =>
    exact ⟨h.accounted.rotate hi, h.stage.writer_moved _ _ _ _ fun _ hfront => hfront⟩
  | rotateFails hi => exact h.writer_moved hi rfl rfl rfl
  | insert hi =>
    exact ⟨h.accounted.insert hi, h.stage.writer_moved _ _ _ _ fun _ => head_append_of_head⟩
  | send hi hopen =>
    exact ⟨h.accounted.send hi, h.stage.writer_moved _ _ _ _ fun _ hfront => hfront⟩
  | sendFails hi hclosed => exact h.writer_moved hi rfl rfl rfl

theorem step_invariant {compactionRate : Nat} {s s' : Pipeline} (h : Invariant s)
    (hs : Step compactionRate s s') : Invariant s' := by
  cases hs with
  | writer hs => exact writer_step h hs
  | flusher hs => exact flusher_step h hs
  | compactor hs => exact compactor_step h hs

theorem Reaches.invariant {compactionRate : Nat} {s : Pipeline} (h : Reaches compactionRate s) :
    Invariant s := by
  induction h with
  | start recovered sstables clock => exact ⟨accounted_start .., stage_start ..⟩
  | next _ hs ih => exact step_invariant ih hs

/-- Only the compaction task takes tables from the queue. -/
theorem writer_keeps {s s' : Pipeline} (hs : WriterStep s s') :
    ∀ i ∈ s.immutable, i ∈ s'.immutable := by
  intro i hi
  cases hs with
  | insert => exact List.mem_append_left _ hi
  | _ => exact hi

theorem flusher_keeps {s s' : Pipeline} (hs : FlusherStep s s') : s'.immutable = s.immutable := by
  cases hs <;> rfl

theorem compactor_pops {compactionRate : Nat} {s s' : Pipeline} (h : Invariant s)
    (hs : CompactorStep compactionRate s s') : PopsLoaded s s' := by
  intro i hi hgone
  cases hs with
  | popTable hc =>
    cases h.stage with
    | @pushed table _ hf hsignal hack _ hfront hcache hloaded =>
      have hqueue := eq_cons_of_head hfront
      have htable : i = table := by
        rw [hqueue] at hi
        rcases List.mem_cons.mp hi with hi | hi
        · exact hi
        · exact absurd hi hgone
      rw [htable]
      refine ⟨hqueue, hcache, ?_⟩
      rw [hloaded, List.getLast?_append, List.getLast?_singleton, Option.some_or]
    | flushing _ _ _ hc' => rcases hc' with hc' | hc' <;> (rw [hc'] at hc; cases hc)
    | popped _ _ _ hc' => rcases hc' with hc' | hc' | hc' <;> (rw [hc'] at hc; cases hc)
    | queued _ _ _ hc' | loading _ _ _ hc' | acked _ _ _ hc' | lost _ _ _ hc' =>
      rw [hc'] at hc
      cases hc
  | _ => exact absurd hi hgone

theorem Invariant.loaded_nodup {s : Pipeline} (h : Invariant s) : s.loaded.Nodup := by
  have hnodup := h.accounted.nodup
  cases h.stage with
  | @pushed table _ _ _ _ _ hfront _ hloaded =>
    rw [eq_cons_of_head hfront, List.append_cons] at hnodup
    rw [hloaded]
    exact (List.nodup_append.mp hnodup).1
  | flushing _ _ _ _ _ _ hloaded | queued _ _ _ _ _ _ hloaded | loading _ _ _ _ _ _ hloaded
  | popped _ _ _ _ _ hloaded | acked _ _ _ _ _ hloaded | lost _ _ _ _ hloaded =>
    rw [hloaded]
    exact (List.nodup_append.mp hnodup).1

theorem Invariant.popped_stored {s : Pipeline} (h : Invariant s) :
    ∀ i ∈ s.popped, i ∈ s.cache.flatten := by
  intro i hi
  apply h.accounted.stored
  cases h.stage with
  | pushed _ _ _ _ _ _ hloaded =>
    rw [hloaded]
    exact List.mem_append_left _ hi
  | flushing _ _ _ _ _ _ hloaded | queued _ _ _ _ _ _ hloaded | loading _ _ _ _ _ _ hloaded
  | popped _ _ _ _ _ hloaded | acked _ _ _ _ _ hloaded | lost _ _ _ _ hloaded =>
    rwa [hloaded]

/-- There are never more signals than tables in the queue, `flush` never meets an empty queue,
every pop takes the table whose SSTable was just pushed, every popped table is in the cache and no
table is loaded twice. -/
theorem flush_in_step {compactionRate : Nat} {s : Pipeline} (h : Reaches compactionRate s) :
    s.memtableChannel + s.inProgress ≤ s.immutable.length ∧ s.flusher ≠ .emptyQueue ∧
      (∀ s', Step compactionRate s s' → PopsLoaded s s') ∧
      (∀ i ∈ s.popped, i ∈ s.cache.flatten) ∧ s.loaded.Nodup := by
  have hinv := h.invariant
  refine ⟨Nat.le_of_add_right_le hinv.accounted.room, ?_, ?_, hinv.popped_stored, hinv.loaded_nodup⟩
  · intro hempty
    cases hinv.stage with
    | flushing hf =>
      rw [hempty] at hf
      cases hf
    | queued hf | loading hf | pushed hf | popped hf | acked hf | lost hf =>
      rw [hempty] at hf
      cases hf
  · intro s' hs
    cases hs with
    | writer hs => exact fun i hi hgone => absurd (writer_keeps hs i hi) hgone
    | flusher hs => exact fun i hi hgone => absurd (flusher_keeps hs ▸ hi) hgone
    | compactor hs => exact compactor_pops hinv hs

/-- Two recovered tables; the first flush fails and the second signal loads the front. -/
theorem flush_in_step_retried : ∃ s, Reaches 10 s ∧ s.poisoned = true ∧ s.popped = [0] ∧
    s.immutable = [1] ∧ s.memtableChannel + s.inProgress ≤ s.immutable.length ∧
      s.flusher ≠ .emptyQueue ∧ (∀ s', Step 10 s s' → PopsLoaded s s') ∧
      (∀ i ∈ s.popped, i ∈ s.cache.flatten) ∧ s.loaded.Nodup := by
  have h := (Reaches.start 2 0 0 : Reaches 10 _)
  have h := h.next (.flusher (.receiveFlush rfl (by decide)))
  have h := h.next (.flusher (@FlusherStep.createFile _ 1 rfl (by decide)))
  have h := h.next (.flusher (.takeFront rfl rfl))
  have h := h.next (.flusher (.flushFails (Or.inl rfl)))
  have h := h.next (.flusher (.receiveFlush rfl (by decide)))
  have h := h.next (.flusher (@FlusherStep.createFile _ 2 rfl (by decide)))
  have h := h.next (.flusher (.takeFront rfl rfl))
  have h := h.next (.flusher (.flushToDisk rfl))
  have h := h.next (.flusher (.removeWal rfl))
  have h := h.next (.flusher (.sendLoad rfl rfl))
  have h := h.next (.compactor (.receiveLoad rfl rfl))
  have h := h.next (.compactor (.pushTable rfl rfl))
  have h := h.next (.compactor (.popTable rfl))
  exact ⟨_, h, rfl, rfl, rfl, flush_in_step h⟩

end Pipeline

end Lsmlite
