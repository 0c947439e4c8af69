import Lsmlite.Record
import Lsmlite.Os
import Lsmlite.Path

/-!
# The write-ahead log

`wal/mod.rs`. A write first drains the buffer to the file if it is large or old enough, then
buffers its own record, so the last record is always in the buffer.
-/

namespace Lsmlite
open Bytes

/-- The clock readings of one `write_log`: in `needs_flush`, and at the end of `flush`. -/
structure Clock where
  now : Nat
  flushed : Nat
  deriving DecidableEq, Repr

structure Wal where
  fd : File
  buffer : Blob
  lastFlush : Nat
  filename : PathBuf
  deriving DecidableEq, Repr

namespace Wal

def new (fileTs now : Nat) (faults : List IoResult) : Wal where
  fd := File.create faults
  buffer := []
  lastFlush := now
  filename := generateWalFileName fileTs

def needsFlush (wal : Wal) (now : Nat) : Bool :=
  defaultWalBufferSize ≤ wal.buffer.length || wal.lastFlush + defaultWalBufferFlushTime < now

/-- The result of the write is dropped and the buffer cleared whatever it was. -/
def flush (wal : Wal) (now : Nat) : Wal :=
  { wal with
    fd := (wal.fd.write wal.buffer).2
    buffer := []
    lastFlush := now }

def writeLog (wal : Wal) (record : Record) (clock : Clock) : Wal :=
  let wal := if wal.needsFlush clock.now then wal.flush clock.flushed else wal
  { wal with buffer := wal.buffer ++ record.blob }

end Wal

structure WalIterator where
  buffer : Blob
  offset : Nat
  deriving DecidableEq, Repr

namespace WalIterator

def new (content : Blob) : WalIterator := ⟨content, 0⟩

def next (it : WalIterator) : Option (Option Record × WalIterator) :=
  if it.buffer.length ≤ it.offset then some (none, it)
  else (decodeDiskRecord it.buffer it.offset).map fun (r, offset) => (r, { it with offset })

/-- The records of a `for` loop over the iterator. Each takes a byte or more, so `fuel` above
the buffer's length is never used up. -/
def collect : Nat → WalIterator → Option (List Record)
  | 0, _ => none
  | fuel + 1, it => do
    match ← it.next with
    | (none, _) => some []
    | (some r, it) => return r :: (← collect fuel it)

end WalIterator

end Lsmlite
