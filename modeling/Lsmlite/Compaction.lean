import Lsmlite.Lib.ArrayHeap
import Lsmlite.SSTable

/-!
# Compaction

`sstable/compaction_writer.rs` and `compaction/mod.rs`.
-/

namespace Lsmlite
open Bytes

/-! ## sstable/compaction_writer.rs -/

structure CompactionWriter where
  fd : File
  filename : PathBuf
  trie : Trie
  diskOffset : Nat
  writeBuffer : Blob
  capacity : Nat
  bloomFilter : BloomFilter
  deriving DecidableEq, Repr

/-- The capacity of a `Vec` after `reserve`. -/
def reserved (capacity needed : Nat) : Nat :=
  if needed ≤ capacity then capacity else max (2 * capacity) needed

namespace CompactionWriter

def new (h : Hashing) (fileTs : Nat) (faults : List IoResult) :
    Option (Except IoError CompactionWriter) := do
  let header : Fd IoError Unit := do
    let _ ← Fd.write lsmliteSstableHeader
    let _ ← Fd.write (toBe 2 v0Header)
  let (r, fd) ← header.runOn (File.create faults)
  return r.map fun _ =>
    { fd := fd
      filename := generateSstableFileName fileTs
      trie := Trie.new
      diskOffset := headerSize
      writeBuffer := []
      capacity := 4096
      bloomFilter := BloomFilter.new h 1024 }

/-- A failed write returns with the bloom filter and the trie already changed. -/
def push (w : CompactionWriter) (h : Hashing) (record : Record) :
    Option (Except IoError Unit × CompactionWriter) := do
  let key ← record.keySlice
  let w := { w with bloomFilter := ← w.bloomFilter.insert h key }
  let recordSize := record.size
  let w := { w with trie := ← w.trie.insert key w.diskOffset }
  let (r, w) :=
    if w.capacity ≤ w.writeBuffer.length + recordSize then
      match w.fd.write w.writeBuffer with
      | (.ok _, fd) => (Except.ok (), { w with fd, writeBuffer := [] })
      | (.error e, fd) => (Except.error e, { w with fd })
    else (Except.ok (), w)
  match r with
  | .error e => return (.error e, w)
  | .ok () =>
    let needed := w.writeBuffer.length + recordSize
    return (.ok (), { w with
      writeBuffer := w.writeBuffer ++ record.blob
      capacity := reserved w.capacity needed
      diskOffset := w.diskOffset + recordSize })

def finish (w : CompactionWriter) : Option (Except IoError PathBuf × File) := do
  let body : Fd IoError PathBuf := do
    let _ ← Fd.write w.writeBuffer
    let indexBlockStart := w.diskOffset
    let indexBlockBuffer ← .lift w.trie.serialize
    let indexBlockLen := indexBlockBuffer.length
    let bloomFilterStart := indexBlockStart + indexBlockBuffer.length
    let _ ← Fd.write indexBlockBuffer
    let bloomFilterBuffer ← .lift w.bloomFilter.serialize
    let _ ← Fd.write bloomFilterBuffer
    let _ ← Fd.write (encodeFooter indexBlockStart indexBlockLen bloomFilterStart)
    return w.filename
  body.runOn w.fd

end CompactionWriter

/-! ## The merge -/

structure HeapNode where
  record : Record
  tableIdx : Nat
  deriving DecidableEq, Repr

/-- `Reverse(a) <= Reverse(b)`, which goes through `HeapNode`'s `partial_cmp`: it compares the
keys and leaves the table out. -/
def HeapNode.reverseLe (a b : HeapNode) : Bool := b.record.keyBytes ≤ a.record.keyBytes

abbrev MergeHeap := List HeapNode

namespace MergeHeap

def push (heap : MergeHeap) (node : HeapNode) : MergeHeap :=
  ArrayHeap.push HeapNode.reverseLe heap node

def pop (heap : MergeHeap) : Option (HeapNode × MergeHeap) := ArrayHeap.pop HeapNode.reverseLe heap

end MergeHeap

/-- The heap and the iterators of `run_compaction`. -/
structure Merge where
  heap : MergeHeap
  tableIters : List SSTableIterator
  deriving DecidableEq, Repr

namespace Merge

/-- `if let Some(record) = table_iters[table_idx].next() { heap.push(..) }` -/
def refill (m : Merge) (tableIdx : Nat) : Option Merge := do
  let it ← m.tableIters[tableIdx]?
  let (record, it) ← it.next
  let tableIters := m.tableIters.set tableIdx it
  match record with
  | some record => return ⟨m.heap.push ⟨record, tableIdx⟩, tableIters⟩
  | none => return ⟨m.heap, tableIters⟩

/-- At most one node for each table. -/
def start (tableIters : List SSTableIterator) : Option Merge :=
  (List.range tableIters.length).foldlM refill ⟨[], tableIters⟩

/-- The inner loop: nodes with the key just popped leave the heap, each replaced with the next
of its table. -/
def dropEqual (smallestKey : Blob) : Nat → Merge → Option Merge
  | 0, _ => none
  | fuel + 1, m =>
    match m.heap.head? with
    | none => some m
    | some node => do
      let key ← node.record.keySlice
      if key ≠ smallestKey then return m
      else
        let (node, heap) ← m.heap.pop
        let m ← Merge.refill { m with heap } node.tableIdx
        dropEqual smallestKey fuel m

/-- One round of the outer loop: the record the round is about and the state behind it, `none`
with the heap empty. -/
def round (fuel : Nat) (m : Merge) : Option (Option (Record × Merge)) :=
  match m.heap.pop with
  | none => some none
  | some (smallest, heap) => do
    let smallestKey ← smallest.record.keySlice
    let m ← dropEqual smallestKey fuel { m with heap }
    let m ← m.refill smallest.tableIdx
    return some (smallest.record, m)

/-- The outer loop, for any writer: what it does with a data record is `push`. -/
def loop {W : Type} (push : W → Record → Option W) (fuel : Nat) :
    Nat → W → Merge → Option W
  | 0, _, _ => none
  | rounds + 1, w, m => do
    match ← round fuel m with
    | none => return w
    | some (record, m) => do
      let w ← match record.recordType with
        | .data => push w record
        | .tombstone => some w
      loop push fuel rounds w m

/-- Each record takes a byte or more of its table, so there are no more of them, and no more
rounds, than bytes. -/
def fuel (tableIters : List SSTableIterator) : Nat :=
  (tableIters.map fun it => it.buffer.length).sum + 1

/-- The loops of `run_compaction` from a fresh heap. -/
def run {W : Type} (push : W → Record → Option W) (w : W) (tableIters : List SSTableIterator) :
    Option W := do
  let m ← start tableIters
  loop push (fuel tableIters) (fuel tableIters) w m

/-- The records `run_compaction` pushes to its writer, in order. -/
def pushed (tableIters : List SSTableIterator) : Option (List Record) :=
  run (fun records record => some (records ++ [record])) [] tableIters

end Merge

/-- `let _ = writer.push(disk_record)` -/
def CompactionWriter.pushDropped (h : Hashing) (w : CompactionWriter) (record : Record) :
    Option CompactionWriter :=
  (w.push h record).map (·.2)

def runCompaction (h : Hashing) (tableIters : List SSTableIterator) (fileTs : Nat)
    (faults : List IoResult) : Option (SSTable × PathBuf) := do
  match ← CompactionWriter.new h fileTs faults with
  | .error _ => none
  | .ok writer => do
    let writer ← Merge.run (CompactionWriter.pushDropped h) writer tableIters
    let (r, file) ← writer.finish
    match r with
    | .error _ => none
    | .ok newTablePath => do
      match ← SSTable.fromFd (.opened file.content []) with
      | .error _ => none
      | .ok sstable => return (sstable, newTablePath)

/-- `tables_to_iterators`, with the tables as the reads leave their descriptors. -/
def tablesToIterators : List SSTable → Option (List SSTableIterator × List SSTable)
  | [] => some ([], [])
  | s :: tables => do
    let (it, s) ← SSTableIterator.new s
    let (iters, tables) ← tablesToIterators tables
    return (it :: iters, s :: tables)

/-! ## Cleanup -/

/-- An entry of the working directory. -/
structure DirEntry where
  name : Blob
  isFile : Bool
  content : Blob
  deriving DecidableEq, Repr

/-- `entry.path()` of `read_dir(".")`. -/
def DirEntry.path (e : DirEntry) : PathBuf := Path.join [dot] e.name

/-- The entries `cleanup` passes to `remove_file`. -/
def isStale (newTablePath : PathBuf) (e : DirEntry) : Bool :=
  if Path.eq newTablePath e.path then false
  else if !e.isFile then false
  else match Path.extension e.path with
    | none => false
    | some ext => ext = sstableExtension

/-- `cleanup`: the cache and the directory behind it. -/
def cleanup (cache : SSTableCache) (sstable : SSTable) (newTablePath : PathBuf)
    (dir : List DirEntry) : SSTableCache × List DirEntry :=
  (cache.replaceWithCompactTable sstable, dir.filter fun e => !isStale newTablePath e)

end Lsmlite
