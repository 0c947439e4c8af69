import Lsmlite.Restart

/-!
# The database

`memtable/mod.rs`, `memtable/immutable.rs` and `database/inner.rs`, for calls made one at a time,
and how a database is opened with what a directory has. The immutable queue lists its front, the
oldest table, first.
-/

namespace Lsmlite
open Bytes

/-! ## memtable/immutable.rs -/

abbrev ImmutableMemtable := List MemtableInner

namespace ImmutableMemtable

/-- The loop of `get` over the tables from the back of the queue. -/
def getLoop (key : Blob) : List MemtableInner → Option MemtableQuery
  | [] => some .none
  | inner :: rest => do
    match ← inner.get key with
    | .data value => return .data value
    | .tombstone => return .tombstone
    | .none => getLoop key rest

def get (table : ImmutableMemtable) (key : Blob) : Option MemtableQuery :=
  getLoop key table.reverse

def insert (table : ImmutableMemtable) (inner : MemtableInner) : ImmutableMemtable :=
  table ++ [inner]

def pop (table : ImmutableMemtable) : ImmutableMemtable := table.tail

end ImmutableMemtable

/-! ## database/inner.rs -/

structure LsmliteInner where
  memtable : MemtableInner
  immutable : ImmutableMemtable
  sstableCache : SSTableCache
  poisoned : Bool
  maxSize : Nat
  maxNodes : Nat
  deriving DecidableEq, Repr

namespace LsmliteInner

def checkPoisonFlag (db : LsmliteInner) : Option Unit := guard (!db.poisoned)

/-- `read_memtable` and `read_immutable_table`: a tombstone reads like an absent key. -/
def readQuery (q : MemtableQuery) : Option Blob :=
  match q with
  | .data blob => some blob
  | .tombstone => none
  | .none => none

def readMemtable (db : LsmliteInner) (key : Blob) : Option (Option Blob) :=
  (db.memtable.get key).map readQuery

def readImmutableTable (db : LsmliteInner) (key : Blob) : Option (Option Blob) :=
  (db.immutable.get key).map readQuery

/-- `get`, with the database as the reads leave its descriptors. -/
def get (h : Hashing) (db : LsmliteInner) (key : Blob) : Option (Option Blob × LsmliteInner) := do
  db.checkPoisonFlag
  match ← db.readMemtable key with
  | some blob => return (some blob, db)
  | none => do
    match ← db.readImmutableTable key with
    | some blob => return (some blob, db)
    | none => do
      let (r, sstableCache) ← db.sstableCache.search h key
      let db := { db with sstableCache }
      match r with
      | .ok value => return (some value, db)
      | .error _ => return (none, db)

/-- The file name's timestamp and the time of a rotation's new WAL. -/
structure Stamp where
  fileTs : Nat
  now : Nat
  deriving DecidableEq, Repr

/-- `Memtable::rotate`: the full table, and the fresh one in its place. -/
def rotate (db : LsmliteInner) (stamp : Stamp) : MemtableInner × MemtableInner :=
  (db.memtable, MemtableInner.new db.maxSize db.maxNodes (Wal.new stamp.fileTs stamp.now []))

/-- `rotate_table`; the flush signal is the queue's new table. -/
def rotateTable (db : LsmliteInner) (stamp : Stamp) : LsmliteInner :=
  let (fullTable, memtable) := db.rotate stamp
  { db with memtable, immutable := db.immutable.insert fullTable }

/-- The clock readings of one write: for the first attempt, for a rotation and for the retry. -/
structure WriteClock where
  first : Clock
  stamp : Stamp
  retry : Clock
  deriving DecidableEq, Repr

/-- The result of the retry is dropped. -/
def set (db : LsmliteInner) (key value : Blob) (clock : WriteClock) : Option LsmliteInner := do
  db.checkPoisonFlag
  match ← db.memtable.insertDataRecord key value clock.first with
  | .ok memtable => return { db with memtable }
  | .error (.tableFull key value) => do
    let db := db.rotateTable clock.stamp
    match value with
    | none => none
    | some blob => do
      match ← db.memtable.insertDataRecord key blob clock.retry with
      | .ok memtable => return { db with memtable }
      | .error _ => return db

def delete (db : LsmliteInner) (key : Blob) (clock : WriteClock) : Option LsmliteInner := do
  db.checkPoisonFlag
  match ← db.memtable.insertTombstoneRecord key clock.first with
  | .ok memtable => return { db with memtable }
  | .error (.tableFull key value) => do
    let db := db.rotateTable clock.stamp
    match value with
    | some _ => none
    | none => do
      match ← db.memtable.insertTombstoneRecord key clock.retry with
      | .ok memtable => return { db with memtable }
      | .error _ => return db

end LsmliteInner

/-! ## restart/worker.rs -/

structure LsmliteConfig where
  maxMemtableNodes : Nat
  maxMemtableSize : Nat
  compactionRate : Nat
  deriving DecidableEq, Repr

/-- `from_wal` on a file of the directory; the new table logs to a file of its own. -/
def loadImmutableMemtableWorker (dir : List DirEntry) (path : PathBuf) (maxSize maxNodes : Nat)
    (stamp : LsmliteInner.Stamp) : Option MemtableInner := do
  let log ← readPath dir path
  MemtableInner.fromWal log maxSize maxNodes (Wal.new stamp.fileTs stamp.now [])

/-- The files are loaded in parallel, so their new logs are made in any order. -/
def readImmutableTables (dir : List DirEntry) (walFiles : List WalArtifact) (config : LsmliteConfig)
    (stamps : WalArtifact → LsmliteInner.Stamp) : Option ImmutableMemtable :=
  walFiles.mapM fun w => loadImmutableMemtableWorker dir w.filename config.maxMemtableSize
    config.maxMemtableNodes (stamps w)

/-! ## Opening a database -/

namespace LsmliteInner

def constructMemtable (dir : List DirEntry) (liveWal : Option WalArtifact) (config : LsmliteConfig)
    (stamps : WalArtifact → Stamp) (fresh : Stamp) : Option MemtableInner :=
  match liveWal with
  | some wal => loadImmutableMemtableWorker dir wal.filename config.maxMemtableSize
      config.maxMemtableNodes (stamps wal)
  | none => some (MemtableInner.new config.maxMemtableSize config.maxMemtableNodes
      (Wal.new fresh.fileTs fresh.now []))

def constructSstableCache (dir : List DirEntry) (sstableFiles : List SSTableArtifact)
    (config : LsmliteConfig) : Option SSTableCache :=
  if sstableFiles.isEmpty then some (SSTableCache.new config.compactionRate)
  else loadTables dir sstableFiles config.compactionRate

/-- `new`. The newest log becomes the active memtable, the others the queue. -/
def new (dir : List DirEntry) (sstableFiles : List SSTableArtifact) (walFiles : List WalArtifact)
    (config : LsmliteConfig) (stamps : WalArtifact → Stamp) (fresh : Stamp) :
    Option LsmliteInner := do
  let memtable ← constructMemtable dir walFiles.getLast? config stamps fresh
  let sstableCache ← constructSstableCache dir sstableFiles config
  let immutable ← readImmutableTables dir walFiles.dropLast config stamps
  return ⟨memtable, immutable, sstableCache, false, config.maxMemtableSize, config.maxMemtableNodes⟩

/-- `get_restart_state` and `new`. -/
def restart (dir : List DirEntry) (config : LsmliteConfig) (stamps : WalArtifact → Stamp)
    (fresh : Stamp) : Option LsmliteInner := do
  let (sstableFiles, walFiles) ← scanDirectory dir
  new dir sstableFiles walFiles config stamps fresh

end LsmliteInner

end Lsmlite
