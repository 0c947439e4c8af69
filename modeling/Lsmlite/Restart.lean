import Lsmlite.Compaction

/-!
# Restart

`restart/mod.rs` and `restart/worker.rs`.
-/

namespace Lsmlite
open Bytes

inductive DatabaseFile where
  | wal
  | sstable
  deriving DecidableEq, Repr

/-- Files are listed under `./`; a name always has a file name part. The name is taken as a `str`
only behind the extension `log`. -/
def DatabaseFile.fromPath (path : PathBuf) : Option (Option DatabaseFile) :=
  match Path.extension path with
  | none => some none
  | some ext =>
    if ext = sstableExtension then some (some .sstable)
    else if ext = logExtension then do
      let name ← Path.fileName path
      let name ← Path.toStr name
      return if walPrefix.isPrefixOf name then some .wal else none
    else some none

/-- Equal paths name the same kind of file. -/
theorem fromPath_congr {a b : PathBuf} (h : Path.eq a b = true) :
    DatabaseFile.fromPath a = DatabaseFile.fromPath b := by
  have hcomponents : Path.components a = Path.components b := by simpa [Path.eq] using h
  simp only [DatabaseFile.fromPath, Path.extension, Path.fileName, hcomponents]

/-- `0` to `9`. -/
def isDigit (c : UInt8) : Bool := 48 ≤ c && c ≤ 57

/-- `u128::from_str`: an optional plus sign and decimal digits. -/
def parseU128 (text : Blob) : Option Nat := do
  let digits := if text.head? = some 43 then text.tail else text
  guard (digits ≠ [])
  let value ← digits.foldlM (fun (acc : Nat) c => do
    guard (isDigit c)
    let acc := acc * 10 + (c.toNat - 48)
    guard (acc < 2 ^ 128)
    return acc) 0
  return value

structure WalArtifact where
  filename : PathBuf
  ts : Nat
  deriving DecidableEq, Repr

def WalArtifact.new (filename : PathBuf) : Option WalArtifact := do
  let name ← Path.fileName filename
  let name ← Path.toStr name
  let part ← (Path.splitAt dot name)[2]?
  return ⟨filename, ← parseU128 part⟩

theorem WalArtifact.new_filename {path : PathBuf} {a : WalArtifact}
    (h : WalArtifact.new path = some a) :
    a.filename = path := by
  simp only [WalArtifact.new, Option.bind_eq_bind, Option.bind_eq_some_iff] at h
  obtain ⟨_, _, _, _, _, _, _, _, h⟩ := h
  cases h
  rfl

structure SSTableArtifact where
  filename : PathBuf
  ts : Nat
  deriving DecidableEq, Repr

def SSTableArtifact.new (filename : PathBuf) : Option SSTableArtifact := do
  let name ← Path.fileName filename
  let name ← Path.toStr name
  let part ← (Path.splitAt dot name)[1]?
  return ⟨filename, ← parseU128 part⟩

theorem SSTableArtifact.new_filename {path : PathBuf} {a : SSTableArtifact}
    (h : SSTableArtifact.new path = some a) : a.filename = path := by
  simp only [SSTableArtifact.new, Option.bind_eq_bind, Option.bind_eq_some_iff] at h
  obtain ⟨_, _, _, _, _, _, _, _, h⟩ := h
  cases h
  rfl

/-- The walk of `scan_directory`: artifacts in the order of the listing. -/
def scanEntries : List DirEntry → Option (List SSTableArtifact × List WalArtifact)
  | [] => some ([], [])
  | e :: rest =>
    match DatabaseFile.fromPath e.path with
    | none => none
    | some none => scanEntries rest
    | some (some .wal) => do
      let artifact ← WalArtifact.new e.path
      let (sstables, wals) ← scanEntries rest
      return (sstables, artifact :: wals)
    | some (some .sstable) => do
      let artifact ← SSTableArtifact.new e.path
      let (sstables, wals) ← scanEntries rest
      return (artifact :: sstables, wals)

/-- SSTables newest first, WAL files oldest first; both sorts are stable. -/
def scanDirectory (dir : List DirEntry) : Option (List SSTableArtifact × List WalArtifact) := do
  let (sstables, wals) ← scanEntries dir
  return (sstables.mergeSort fun a b => b.ts ≤ a.ts, wals.mergeSort fun a b => a.ts ≤ b.ts)

/-- The content behind a path, for `File::open`. -/
def readPath (dir : List DirEntry) (path : PathBuf) : Option Blob :=
  (dir.find? fun e => Path.eq e.path path).map (·.content)

/-- `SSTableCache::from_restart` on the files of a directory. -/
def loadTables (dir : List DirEntry) (artifacts : List SSTableArtifact) (compactionRate : Nat) :
    Option SSTableCache := do
  let contents ← artifacts.mapM fun a => readPath dir a.filename
  SSTableCache.fromRestart contents compactionRate

end Lsmlite
