import Lsmlite.CompactionTable
import Lsmlite.EngineTables
import Lsmlite.FileNames
import Lsmlite.MemtableCount

/-!
# Runs with restarts

The engine as a restart makes it from a directory, and runs of it over any number of crashes and
restarts. What the files hold is what the next restart finds.
-/

namespace Lsmlite
open KeyValue

/-! ## What is on disk -/

def isLog (e : DirEntry) : Bool := DatabaseFile.fromPath e.path = some (some .wal)

/-- The contents of the WAL files. -/
def logsOf (dir : List DirEntry) : List Blob := (dir.filter isLog).map (·.content)

/-- The records of a log. -/
def logEntries (log : Blob) : Entries :=
  (((WalIterator.new log).collect (log.length + 1)).getD []).map entryOf

theorem logEntries_logBlob {ws : Entries} (hfits : ∀ w ∈ ws, Record.Fits w.1 w.2) :
    logEntries (logBlob ws) = ws := by
  have hcollect := WalIterator.collect_logBlob hfits [] (Nat.lt_succ_self _)
  rw [List.nil_append, List.length_nil] at hcollect
  rw [logEntries, WalIterator.new, hcollect, Option.getD_some, List.map_map]
  exact (List.map_congr_left fun w _ => entryOf_recordOf w).trans (List.map_id ws)

namespace Engine

/-- The WAL file of a table. -/
def logEntry (t : Table) : DirEntry := ⟨t.inner.wal.filename, true, t.inner.wal.fd.content⟩

/-- The engine's files. -/
def disk (e : Engine) : List DirEntry :=
  e.files.map dirEntry ++ (e.tables.filter fun t => !t.walRemoved).map logEntry

end Engine

/-! ## A restart -/

def Config.lsmlite (c : Config) : LsmliteConfig := ⟨c.maxNodes, c.maxSize, c.compactionRate⟩

/-- The names of the new logs are new and all different; the active memtable's is made first. -/
def NewStamps (clock : Nat) (walFiles : List WalArtifact)
    (stamps : WalArtifact → LsmliteInner.Stamp) (fresh : LsmliteInner.Stamp) : Prop :=
  clock < fresh.fileTs ∧ (∀ w ∈ walFiles, clock < (stamps w).fileTs) ∧
    (walFiles.map fun w => (stamps w).fileTs).Nodup ∧
    ∀ live ∈ walFiles.getLast?, ∀ w ∈ walFiles.dropLast, (stamps live).fileTs < (stamps w).fileTs

instance (clock : Nat) (walFiles : List WalArtifact) (stamps : WalArtifact → LsmliteInner.Stamp)
    (fresh : LsmliteInner.Stamp) : Decidable (NewStamps clock walFiles stamps fresh) := by
  unfold NewStamps
  infer_instance

namespace Engine

/-- A recovered memtable. Its calls were those of another process. -/
def recoveredTable (inner : MemtableInner) : Table := ⟨inner, [], false⟩

/-- `LsmliteInner::new` on what a directory has. -/
def reopen (c : Config) (dir : List DirEntry) (clock : Nat)
    (stamps : WalArtifact → LsmliteInner.Stamp) (fresh : LsmliteInner.Stamp) : Option Engine := do
  let (sstableFiles, walFiles) ← scanDirectory dir
  guard (NewStamps clock walFiles stamps fresh)
  let db ← LsmliteInner.new dir sstableFiles walFiles c.lsmlite stamps fresh
  let files ← sstableFiles.mapM fun a => (readPath dir a.filename).map (SstFile.mk a.ts)
  return {
    tables := (db.immutable ++ [db.memtable]).map recoveredTable
    immutable := List.range db.immutable.length
    sstableCache := db.sstableCache
    clients := []
    memtableChannel := List.replicate db.immutable.length .flush
    signal := []
    sstableAck := 0
    flusher := .waiting
    compactor := .waiting
    files
    clock := (walFiles.map fun w => (stamps w).fileTs).foldl max fresh.fileTs
    dropped := false
    invoked := []
    returned := []
    swapped := []
    popped := []
    answers := [] }

end Engine

/-- The records of the logs that a restart replays, oldest log first. -/
def recoveredLogs (dir : List DirEntry) : Option (List Entries) := do
  let (_, walFiles) ← scanDirectory dir
  walFiles.mapM fun w => (readPath dir w.filename).map logEntries

/-! ## Runs -/

/-- The engine runs, with the records from which its first memtables were recovered, or only its
files are left. -/
inductive Session where
  | up (engine : Engine) (recovered : List Entries)
  | down (dir : List DirEntry) (clock : Nat)

def Session.dir : Session → List DirEntry
  | up engine _ => engine.disk
  | down dir _ => dir

/-- The states of the runs with restarts in which every step of the engine meets `ok`. -/
inductive Session.Reaches (c : Config)
    (ok : List Entries → Engine → Engine.Action → Prop) : Session → Prop
  | start (stamp : LsmliteInner.Stamp) : Reaches c ok (.up (Engine.start c stamp) [])
  | step {e e' : Engine} {recovered : List Entries} {a : Engine.Action}
      (h : Reaches c ok (.up e recovered)) (hok : ok recovered e a)
      (hs : Engine.step c e a = some e') :
    Reaches c ok (.up e' recovered)
  /-- The process ends, at any point. -/
  | crash {e : Engine} {recovered : List Entries} (h : Reaches c ok (.up e recovered)) :
    Reaches c ok (.down e.disk e.clock)
  | restart {dir : List DirEntry} {clock : Nat} {stamps : WalArtifact → LsmliteInner.Stamp}
      {fresh : LsmliteInner.Stamp} {e : Engine} {recovered : List Entries}
      (h : Reaches c ok (.down dir clock)) (hs : Engine.reopen c dir clock stamps fresh = some e)
      (hlogs : recoveredLogs dir = some recovered) :
    Reaches c ok (.up e recovered)
  /-- A restart that ends before the tasks start: some logs are gone, some new ones made. -/
  | interrupted {dir kept : List DirEntry} {clock clock' : Nat} {made : List Nat}
      (h : Reaches c ok (.down dir clock)) (hkept : kept.Sublist dir)
      (hlogs : ∀ e ∈ dir, e ∉ kept → isLog e = true) (hclock : clock ≤ clock')
      (hmade : ∀ ts ∈ made, clock < ts ∧ ts ≤ clock') :
    Reaches c ok (.down (kept ++ made.map fun ts => walEntry ts []) clock')

end Lsmlite
