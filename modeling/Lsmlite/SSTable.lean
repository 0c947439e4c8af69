import Lsmlite.Lib.FileMonad
import Lsmlite.Memtable
import Lsmlite.Trie
import Lsmlite.BloomFilter

/-!
# SSTables

`sstable/encode.rs`, `sstable/footer.rs`, `ssindex/mod.rs`, `disk/mod.rs`, `sstable/mod.rs` and
`sstable/iterator.rs`: a file is header, records in key order, trie, bloom filter and footer.
-/

namespace Lsmlite
open Bytes

inductive SSTableError where
  | diskRecordNotFound
  | ioError (e : IoError)
  | tombstone
  | invalidSSTableFile
  deriving DecidableEq, Repr

/-- Code that works on a file descriptor. -/
abbrev Fd (ε α : Type) := Fallible File ε α

namespace Fd

def write (buf : Blob) : Fd IoError Nat := .step (·.write buf)

def seek (offset : Nat) : Fd IoError Unit := .step (·.seek offset)

def read (n : Nat) : Fd IoError Blob := .step (·.read n)

def readExact (n : Nat) : Fd IoError Blob := .step (·.readExact n)

def len : Fd IoError Nat := .step (·.len)

/-- `?` where the error is converted to an `SSTableError`. -/
def sst {α : Type} (x : Fd IoError α) : Fd SSTableError α := x.mapError .ioError

end Fd

/-! ## sstable/encode.rs -/

def encodeFooter (indexBlockStart indexBlockCount bloomFilterStart : Nat) : Blob :=
  toBe 8 indexBlockStart ++ toBe 8 indexBlockCount ++ toBe 8 bloomFilterStart

/-- The walk of `inorder_flush` from `nodeIdx`; `fuel` bounds the depth. -/
def inorderFlush (h : Hashing) (arena : Arena) :
    Nat → Option Nat → Nat × Trie × BloomFilter → Fd IoError (Nat × Trie × BloomFilter)
  | _, none, st => pure st
  | 0, some _, _ => .lift none
  | fuel + 1, some nodeIdx, st => do
    let node ← .lift arena[nodeIdx]?
    let (diskSize, trie, bloomFilter) ← inorderFlush h arena fuel node.left st
    let recordOffset := diskSize
    let diskRecord := node.record.blob
    let key ← .lift node.record.keySlice
    let bloomFilter ← .lift (bloomFilter.insert h key)
    let diskSize := diskSize + diskRecord.length
    let trie ← .lift (trie.insert key recordOffset)
    let _ ← Fd.write diskRecord
    inorderFlush h arena fuel node.right (diskSize, trie, bloomFilter)

def writeSstable (h : Hashing) (table : MemtableInner) : Fd IoError Unit := do
  let bloomFilter := BloomFilter.new h table.arena.length
  let _ ← Fd.write lsmliteSstableHeader
  let _ ← Fd.write (toBe 2 v0Header)
  let (diskSize, trie, bloomFilter) ←
    inorderFlush h table.arena (table.arena.length + 1) table.rootNode
      (headerSize, Trie.new, bloomFilter)
  let indexBlockStart := diskSize
  let indexBlockBuffer ← .lift trie.serialize
  let indexBlockLen := indexBlockBuffer.length
  let bloomFilterStart := indexBlockStart + indexBlockBuffer.length
  let _ ← Fd.write indexBlockBuffer
  let bloomFilterBuffer ← .lift bloomFilter.serialize
  let _ ← Fd.write bloomFilterBuffer
  let _ ← Fd.write (encodeFooter indexBlockStart indexBlockLen bloomFilterStart)

/-! ## sstable/footer.rs and ssindex/mod.rs -/

structure SSTableFooter where
  indexBlockStart : Nat
  indexBlockLen : Nat
  bloomFilterStart : Nat
  deriving DecidableEq, Repr

def SSTableFooter.fromDiskSstable (footerOffset : Nat) : Fd IoError SSTableFooter := do
  Fd.seek footerOffset
  let footerBuffer ← Fd.readExact (3 * 8)
  let indexBlockStart ← .lift (slice footerBuffer 0 8)
  let indexBlockLen ← .lift (slice footerBuffer 8 16)
  let bloomFilterStart ← .lift (slice footerBuffer 16 24)
  return ⟨fromBe indexBlockStart, fromBe indexBlockLen, fromBe bloomFilterStart⟩

structure SstIndex where
  trie : Trie
  bloomFilter : BloomFilter
  dataBlockEnd : Nat
  deriving DecidableEq, Repr

namespace SstIndex

/-- The offsets are subtracted as `u64`, and each difference becomes the length of a `Vec`, made
before anything is read into it. The filter's words take no more than the block they are read
from. -/
def fromDiskSstable (memory : Nat) : Fd IoError SstIndex := do
  let len ← Fd.len
  .lift (guard (footerSize ≤ len))
  let footerOffset := len - footerSize
  let footer ← SSTableFooter.fromDiskSstable footerOffset
  .lift (guard (footer.indexBlockStart ≤ footer.bloomFilterStart))
  let indexTableLen := footer.bloomFilterStart - footer.indexBlockStart
  .lift (allocate memory indexTableLen)
  Fd.seek footer.indexBlockStart
  let indexTableBuffer ← Fd.readExact indexTableLen
  let trie ← .lift (Trie.deserializeWithin memory indexTableBuffer)
  .lift (guard (footer.bloomFilterStart ≤ footerOffset))
  let bloomFilterLen := footerOffset - footer.bloomFilterStart
  .lift (allocate memory bloomFilterLen)
  let bloomFilterBuffer ← Fd.readExact bloomFilterLen
  let bloomFilter ← .lift (BloomFilter.fromBytes bloomFilterBuffer)
  return ⟨trie, bloomFilter, footer.indexBlockStart⟩

def getOffsetForKey (i : SstIndex) (h : Hashing) (key : Blob) : Option (Option Nat) := do
  if ← i.bloomFilter.contains h key then i.trie.get key else return none

end SstIndex

/-! ## disk/mod.rs -/

def isTombstone (header : UInt8) : Bool := header = tombstoneLogHeader

def readOversizedRecordFromDisk (offset : Nat) (buffer : Blob) : Fd SSTableError Blob := do
  let (blobSize, bytesWalked) ← .lift (decodeVarint buffer offset)
  let offset := offset + bytesWalked
  let firstPart ← .lift (slice buffer offset buffer.length)
  .lift (guard (firstPart.length < blobSize ∧ blobSize < 2 ^ 63))
  let rest ← (Fd.readExact (blobSize - firstPart.length)).sst
  return firstPart ++ rest

/-- A record read through a window of 4096 bytes from its offset. -/
def readDataBlock (offset : Nat) (key : Blob) : Fd SSTableError Blob := do
  (Fd.seek offset).sst
  let got ← (Fd.read recordReadBufferSize).sst
  let buffer := resize got recordReadBufferSize 0
  let header ← .lift buffer[0]?
  if isTombstone header then throw .tombstone
  else
    let (logSize, logBytesWalked) ← .lift (decodeVarint buffer 1)
    let bufferOffset := 1 + logBytesWalked
    let keyVarintLen := varintSizeFromLen key.length
    -- debug_assert: the record is the key's
    let keyStart := bufferOffset + keyVarintLen
    let found ← .lift (slice buffer keyStart (keyStart + key.length))
    .lift (guard (found = key))
    let totalKeyBytes := keyVarintLen + key.length
    let bufferOffset := bufferOffset + totalKeyBytes
    .lift (guard (totalKeyBytes ≤ logSize))
    if recordReadBufferSize < bufferOffset + (logSize - totalKeyBytes) then
      readOversizedRecordFromDisk bufferOffset buffer
    else
      let (blobSize, bytesWalked) ← .lift (decodeVarint buffer bufferOffset)
      let bufferOffset := bufferOffset + bytesWalked
      .lift (slice buffer bufferOffset (bufferOffset + blobSize))

/-! ## sstable/mod.rs -/

def validateBufferAndGetVersion : Fd SSTableError Nat := do
  let headerBuffer ← (Fd.readExact 7).sst
  if headerBuffer ≠ lsmliteSstableHeader then throw .invalidSSTableFile
  else
    let versionBuffer ← (Fd.readExact 2).sst
    return fromBe versionBuffer

structure SSTable where
  index : SstIndex
  fd : File
  version : Nat
  deriving DecidableEq, Repr

namespace SSTable

/-- `from_fd` in a process that gets at most `memory` bytes in one piece. -/
def fromFdWithin (memory : Nat) (fd : File) : Option (Except SSTableError SSTable) := do
  let load : Fd SSTableError (Nat × SstIndex) := do
    let version ← validateBufferAndGetVersion
    let index ← (SstIndex.fromDiskSstable memory).sst
    return (version, index)
  let (r, fd) ← load.runOn fd
  return r.map fun (version, index) => ⟨index, fd, version⟩

/-- `from_fd` where memory does not run out, as in the runs of the engine. -/
def fromFd (fd : File) : Option (Except SSTableError SSTable) := fromFdWithin isizeMax fd

/-- `search`, with the table as the reads leave its descriptor. -/
def search (s : SSTable) (h : Hashing) (key : Blob) :
    Option (Except SSTableError Blob × SSTable) := do
  match ← s.index.getOffsetForKey h key with
  | none => return (.error .diskRecordNotFound, s)
  | some offset => do
    let (r, fd) ← (readDataBlock offset key).runOn s.fd
    return (r, { s with fd })

end SSTable

structure SSTableCache where
  cache : List SSTable
  compactionRate : Nat
  deriving DecidableEq, Repr

namespace SSTableCache

def new (compactionRate : Nat) : SSTableCache := ⟨[], compactionRate⟩

/-- The loop of `search`: every error but `Tombstone` goes on to the next table. -/
def searchTables (h : Hashing) (key : Blob) :
    List SSTable → Option (Except SSTableError Blob × List SSTable)
  | [] => some (.error .diskRecordNotFound, [])
  | s :: rest => do
    match ← s.search h key with
    | (.ok value, s) => return (.ok value, s :: rest)
    | (.error .tombstone, s) => return (.error .diskRecordNotFound, s :: rest)
    | (.error _, s) => do
      let (r, rest) ← searchTables h key rest
      return (r, s :: rest)

def search (c : SSTableCache) (h : Hashing) (key : Blob) :
    Option (Except SSTableError Blob × SSTableCache) :=
  (searchTables h key c.cache).map fun (r, cache) => (r, { c with cache })

def push (c : SSTableCache) (table : SSTable) : SSTableCache := { c with cache := table :: c.cache }

def replaceWithCompactTable (c : SSTableCache) (newTable : SSTable) : SSTableCache :=
  { c with cache := [newTable] }

/-- `from_restart` on the contents of the files, newest first; a file that is no table panics. -/
def fromRestart (contents : List Blob) (compactionRate : Nat) : Option SSTableCache := do
  let cache ← contents.mapM fun content => do
    match ← SSTable.fromFd (.opened content []) with
    | .ok table => some table
    | .error _ => none
  return ⟨cache, compactionRate⟩

end SSTableCache

/-! ## sstable/iterator.rs -/

structure SSTableIterator where
  buffer : Blob
  offset : Nat
  deriving DecidableEq, Repr

namespace SSTableIterator

/-- The results of the seek and of the read are dropped; after a failed read the buffer's
content is not specified, and zero here. -/
def new (s : SSTable) : Option (SSTableIterator × SSTable) := do
  guard (headerSize ≤ s.index.dataBlockEnd)
  let len := s.index.dataBlockEnd - headerSize
  guard (len < 2 ^ 63)
  let fd := (s.fd.seek headerSize).2
  let (r, fd) := fd.readExact len
  let buffer := match r with
    | .ok buffer => buffer
    | .error _ => List.replicate len 0
  return (⟨buffer, 0⟩, { s with fd })

def next (it : SSTableIterator) : Option (Option Record × SSTableIterator) :=
  if it.buffer.length ≤ it.offset then some (none, it)
  else (decodeDiskRecord it.buffer it.offset).map fun (r, offset) => (r, { it with offset })

end SSTableIterator

end Lsmlite
