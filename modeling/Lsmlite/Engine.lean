import Lsmlite.Database
import Lsmlite.MemtableLog
import Lsmlite.Restart

/-!
# The engine

`database/inner.rs` with its callers, the flush task (`flush_memtable`) and the compaction task
(`sstable_background`) as one step function. A step is what happens under one lock, on one
channel or to one file; any number of clients take theirs in any order. Files work as documented,
and a step that panics is not taken.

File names are made from `clock`, the system's: it moves on between two of them.

Every memtable ever made stays in `tables`, oldest first: the last one is active, the others were
swapped out in that order. `inserted`, `invoked`, `returned`, `swapped`, `popped` and `answers` are
the history of the run; no step reads them.
-/

namespace Lsmlite

/-- A call of `set` or `delete`. -/
structure Write where
  id : Nat
  key : Blob
  entry : Entry
  deriving DecidableEq, Repr

structure Table where
  inner : MemtableInner
  /-- The calls that inserted into this table. -/
  inserted : List Write
  walRemoved : Bool
  deriving DecidableEq, Repr

/-- Where a client is in its call. -/
inductive Phase where
  | idle
  | attempting (w : Write)
  | rotating (w : Write)
  /-- It has swapped out the table `full`. -/
  | appending (w : Write) (full : Nat)
  | signalling (w : Write)
  | retrying (w : Write)
  /-- The calls in `before` had returned when the read began. -/
  | readingMemtable (key : Blob) (before : List Write)
  | readingImmutable (key : Blob) (before : List Write)
  | readingSstables (key : Blob) (before : List Write)
  deriving DecidableEq, Repr

/-- What a `get` returned, with the calls that had returned when it began. -/
structure Answer where
  key : Blob
  before : List Write
  result : Option Blob
  deriving DecidableEq, Repr

inductive MemtableFlushSignal where
  | flush
  | shutdown
  deriving DecidableEq, Repr

/-- The path of a table to load is that of its timestamp. -/
inductive CompactionSignal where
  | loadSSTable (ts : Nat)
  | shutdown
  deriving DecidableEq, Repr

/-- Where `flush_memtable` is. -/
inductive Flusher where
  | waiting
  | creating
  | created (ts : Nat)
  | writing (ts table : Nat)
  | written (ts table : Nat)
  | sending (ts : Nat)
  | awaiting
  | stopped
  deriving DecidableEq, Repr

/-- Where `sstable_background` is. -/
inductive Compactor where
  | waiting
  | loading (ts : Nat)
  | popping (currentLen : Nat)
  | compacting
  | replacing (ts : Nat) (table : SSTable)
  | cleaning (ts : Nat)
  | acking
  | stopped
  deriving DecidableEq, Repr

/-- An `.sstable` file. -/
structure SstFile where
  ts : Nat
  content : Blob
  deriving DecidableEq, Repr

structure Config where
  hashing : Hashing
  maxSize : Nat
  maxNodes : Nat
  compactionRate : Nat

structure Engine where
  tables : List Table
  immutable : List Nat
  sstableCache : SSTableCache
  clients : List Phase
  memtableChannel : List MemtableFlushSignal
  signal : List CompactionSignal
  sstableAck : Nat
  flusher : Flusher
  compactor : Compactor
  files : List SstFile
  clock : Nat
  dropped : Bool
  invoked : List Write
  returned : List Write
  swapped : List Nat
  popped : List Nat
  answers : List Answer
  deriving DecidableEq, Repr

namespace Engine

/-- The memtable `MemtableInner::new` makes. -/
def freshTable (c : Config) (stamp : LsmliteInner.Stamp) : Table :=
  ⟨MemtableInner.new c.maxSize c.maxNodes (Wal.new stamp.fileTs stamp.now []), [], false⟩

/-- `LsmliteInner::new` in an empty directory. -/
def start (c : Config) (stamp : LsmliteInner.Stamp) : Engine where
  tables := [freshTable c stamp]
  immutable := []
  sstableCache := SSTableCache.new c.compactionRate
  clients := []
  memtableChannel := []
  signal := []
  sstableAck := 0
  flusher := .waiting
  compactor := .waiting
  files := []
  clock := stamp.fileTs
  dropped := false
  invoked := []
  returned := []
  swapped := []
  popped := []
  answers := []

def active (e : Engine) : Nat := e.tables.length - 1

def setPhase (e : Engine) (i : Nat) (p : Phase) : Engine :=
  { e with clients := e.clients.set i p }

/-- The tables of the immutable queue. -/
def queue (e : Engine) : Option ImmutableMemtable :=
  e.immutable.mapM fun i => (e.tables[i]?).map (·.inner)

/-- The active table after it took `w`. -/
def took (e : Engine) (table : Table) (inner : MemtableInner) (w : Write) : Engine :=
  { e with tables := e.tables.set e.active { table with inner, inserted := table.inserted ++ [w] } }

/-- A write under the lock of the active memtable: the table takes it, or is full. -/
def tryInsert (e : Engine) (w : Write) (clock : Clock) : Option (Except MemtableError Engine) := do
  let table ← e.tables[e.active]?
  match ← table.inner.write w.key w.entry clock with
  | .ok inner => return .ok (e.took table inner w)
  | .error err => return .error err

/-- The call returns. -/
def finish (e : Engine) (i : Nat) (w : Write) : Engine :=
  { e.setPhase i .idle with returned := e.returned ++ [w] }

def answer (e : Engine) (i : Nat) (key : Blob) (before : List Write) (result : Option Blob) :
    Engine :=
  { e.setPhase i .idle with answers := e.answers ++ [⟨key, before, result⟩] }

inductive ClientAction where
  | call (key : Blob) (entry : Entry)
  | attempt (clock : Clock)
  | rotate (stamp : LsmliteInner.Stamp)
  | append
  | signal
  | retry (clock : Clock)
  | get (key : Blob)
  | readMemtable
  | readImmutable
  | readSstables
  deriving DecidableEq, Repr

/-- A step of client `i`. -/
def clientStep (c : Config) (e : Engine) (i : Nat) (a : ClientAction) : Option Engine :=
  match e.clients[i]?, a with
  | some .idle, .call key entry =>
    if e.dropped then none
    else
      let w := ⟨e.invoked.length, key, entry⟩
      some ({ e with invoked := e.invoked ++ [w] }.setPhase i (.attempting w))
  | some (.attempting w), .attempt clock => do
    match ← e.tryInsert w clock with
    | .ok e => return e.finish i w
    | .error _ => return e.setPhase i (.rotating w)
  | some (.rotating w), .rotate stamp =>
    -- `Memtable::rotate`: the swap is one step with the making of the fresh table.
    if e.clock < stamp.fileTs then
      some ({ e with
        tables := e.tables ++ [freshTable c stamp]
        clock := stamp.fileTs
        swapped := e.swapped ++ [e.active] }.setPhase i (.appending w e.active))
    else none
  | some (.appending w full), .append =>
    some ({ e with immutable := e.immutable ++ [full] }.setPhase i (.signalling w))
  | some (.signalling w), .signal =>
    some ({ e with memtableChannel := e.memtableChannel ++ [MemtableFlushSignal.flush] }.setPhase i
      (.retrying w))
  | some (.retrying w), .retry clock => do
    -- The result of the retry is dropped.
    match ← e.tryInsert w clock with
    | .ok e => return e.finish i w
    | .error _ => return e.finish i w
  | some .idle, .get key =>
    if e.dropped then none else some (e.setPhase i (.readingMemtable key e.returned))
  | some (.readingMemtable key before), .readMemtable => do
    let table ← e.tables[e.active]?
    match LsmliteInner.readQuery (← table.inner.get key) with
    | some blob => return e.answer i key before (some blob)
    | none => return e.setPhase i (.readingImmutable key before)
  | some (.readingImmutable key before), .readImmutable => do
    match LsmliteInner.readQuery (← (← e.queue).get key) with
    | some blob => return e.answer i key before (some blob)
    | none => return e.setPhase i (.readingSstables key before)
  | some (.readingSstables key before), .readSstables => do
    let (r, sstableCache) ← e.sstableCache.search c.hashing key
    let e := { e with sstableCache }
    match r with
    | .ok value => return e.answer i key before (some value)
    | .error _ => return e.answer i key before none
  | _, _ => none

inductive BackgroundAction where
  | receiveFlush
  | createFile (ts : Nat)
  | takeFront
  | writePart (n : Nat)
  | finishFile
  | removeWal
  | sendLoad
  | receiveAck
  | stopFlusher
  | receiveLoad
  | pushTable
  | popTable
  | compact (ts : Nat)
  | replaceTables
  | removeStale
  | sendAck
  | stopCompactor
  deriving DecidableEq, Repr

/-- The file of timestamp `ts` gets a new content. -/
def putFile (files : List SstFile) (ts : Nat) (content : Blob) : List SstFile :=
  files.map fun f => if f.ts = ts then { f with content } else f

/-- What `flush_to_disk` writes for a table. -/
def sstableContent (h : Hashing) (t : MemtableInner) : Option Blob := do
  match ← (writeSstable h t).runOn (File.create []) with
  | (.ok _, fd) => some fd.content
  | (.error _, _) => none

/-- `.sstable` files as the directory walk of `cleanup` finds them. -/
def dirEntry (f : SstFile) : DirEntry := ⟨generateSstableFileName f.ts, true, f.content⟩

/-- A step of `flush_memtable` or `sstable_background`. -/
def backgroundStep (c : Config) (e : Engine) (a : BackgroundAction) : Option Engine :=
  match a with
  | .receiveFlush =>
    match e.flusher, e.memtableChannel with
    | .waiting, .flush :: rest => some { e with flusher := .creating, memtableChannel := rest }
    | _, _ => none
  | .createFile ts =>
    match e.flusher with
    | .creating =>
      if e.clock < ts then
        some { e with flusher := .created ts, files := e.files ++ [⟨ts, []⟩], clock := ts }
      else none
    | _ => none
  | .takeFront =>
    match e.flusher, e.immutable with
    | .created ts, table :: _ => some { e with flusher := .writing ts table }
    | _, _ => none
  | .writePart n =>
    -- Until the last write returns, the file is some first part of what it will be.
    match e.flusher with
    | .writing ts table => do
      let content ← sstableContent c.hashing (← e.tables[table]?).inner
      return { e with files := putFile e.files ts (content.take n) }
    | _ => none
  | .finishFile =>
    match e.flusher with
    | .writing ts table => do
      let content ← sstableContent c.hashing (← e.tables[table]?).inner
      return { e with flusher := .written ts table, files := putFile e.files ts content }
    | _ => none
  | .removeWal =>
    match e.flusher with
    | .written ts table => do
      let t ← e.tables[table]?
      return { e with
        flusher := .sending ts
        tables := e.tables.set table { t with walRemoved := true } }
    | _ => none
  | .sendLoad =>
    match e.flusher with
    | .sending ts => some { e with flusher := .awaiting, signal := e.signal ++ [.loadSSTable ts] }
    | _ => none
  | .receiveAck =>
    match e.flusher with
    | .awaiting =>
      if 0 < e.sstableAck then some { e with flusher := .waiting, sstableAck := e.sstableAck - 1 }
      -- Without a sender, `recv` returns `None` and `expect` ends the task.
      else if e.compactor = .stopped then some { e with flusher := .stopped }
      else none
    | _ => none
  | .stopFlusher =>
    match e.flusher, e.memtableChannel with
    | .waiting, .shutdown :: rest => some { e with flusher := .stopped, memtableChannel := rest }
    | _, _ => none
  | .receiveLoad =>
    match e.compactor, e.signal with
    | .waiting, .loadSSTable ts :: rest => some { e with compactor := .loading ts, signal := rest }
    | _, _ => none
  | .pushTable =>
    match e.compactor with
    | .loading ts => do
      let f ← e.files.find? (·.ts = ts)
      match ← SSTable.fromFd (.opened f.content []) with
      | .ok table =>
        let sstableCache := e.sstableCache.push table
        return { e with sstableCache, compactor := .popping sstableCache.cache.length }
      | .error _ => none
    | _ => none
  | .popTable =>
    match e.compactor with
    | .popping currentLen => some { e with
        immutable := e.immutable.tail
        popped := e.popped ++ e.immutable.head?.toList
        compactor := if e.sstableCache.compactionRate ≤ currentLen then .compacting else .acking }
    | _ => none
  | .compact ts =>
    match e.compactor with
    | .compacting =>
      if e.clock < ts then do
        let (tableIters, cache) ← tablesToIterators e.sstableCache.cache
        let (table, _) ← runCompaction c.hashing tableIters ts []
        return { e with
          sstableCache := { e.sstableCache with cache }
          files := e.files ++ [⟨ts, table.fd.content⟩]
          clock := ts
          compactor := .replacing ts table }
      else none
    | _ => none
  | .replaceTables =>
    match e.compactor with
    | .replacing ts table => some { e with
        sstableCache := e.sstableCache.replaceWithCompactTable table
        compactor := .cleaning ts }
    | _ => none
  | .removeStale =>
    match e.compactor with
    | .cleaning ts => some { e with
        files := e.files.filter fun f => !isStale (generateSstableFileName ts) (dirEntry f)
        compactor := .acking }
    | _ => none
  | .sendAck =>
    match e.compactor with
    | .acking => some { e with compactor := .waiting, sstableAck := e.sstableAck + 1 }
    | _ => none
  | .stopCompactor =>
    match e.compactor, e.signal with
    | .waiting, .shutdown :: rest => some { e with compactor := .stopped, signal := rest }
    | _, _ => none

inductive Action where
  /-- Another task takes a handle. -/
  | spawn
  | client (i : Nat) (a : ClientAction)
  | background (a : BackgroundAction)
  /-- The last handle is dropped, with no call under way. -/
  | drop
  deriving DecidableEq, Repr

def step (c : Config) (e : Engine) : Action → Option Engine
  | .spawn => if e.dropped then none else some { e with clients := e.clients ++ [.idle] }
  | .client i a => clientStep c e i a
  | .background a => backgroundStep c e a
  | .drop =>
    if e.dropped ∨ e.clients.any (· ≠ .idle) then none
    else some { e with
      dropped := true
      signal := e.signal ++ [.shutdown]
      memtableChannel := e.memtableChannel ++ [MemtableFlushSignal.shutdown] }

end Engine

end Lsmlite
