import Lsmlite.Util

/-!
# The bloom filter

`sstable/bloom_filter.rs`. The two hashes and the rounded quotient of `new` are parameters: any
fixed functions will do.
-/

namespace Lsmlite
open Bytes

/-- `hash1`, `hash2`, and `((num_bits / size) * LN_2).round() as u64`. -/
structure Hashing where
  hash1 : Blob → UInt64
  hash2 : Blob → UInt64
  rounds : Nat → Nat → UInt64

/-- A hashing for runs on fixed inputs. -/
def flatHashing : Hashing := ⟨fun _ => 0, fun _ => 0, fun _ _ => 1⟩

structure BloomFilter where
  bits : List Nat
  numBits : Nat
  numHashes : Nat
  deriving DecidableEq, Repr

namespace BloomFilter

def new (h : Hashing) (size : Nat) : BloomFilter :=
  let numBits := size * 10
  let numWords := (numBits + 63 + 63) / 64
  let numBits := 64 * numWords
  { bits := List.replicate numWords 0
    numBits := numBits
    numHashes := max (h.rounds numBits size).toNat 1 }

/-- `h1.wrapping_add(i.wrapping_mul(h2)) % self.num_bits`; a remainder by zero panics. -/
def bitIdx (f : BloomFilter) (h1 h2 i : Nat) : Option Nat :=
  if f.numBits = 0 then none else some ((h1 + i * h2 % 2 ^ 64) % 2 ^ 64 % f.numBits)

def insertLoop (h1 h2 : Nat) : Nat → Nat → BloomFilter → Option BloomFilter
  | 0, _, f => some f
  | n + 1, i, f => do
    let bit ← f.bitIdx h1 h2 i
    let word ← f.bits[bit / 64]?
    insertLoop h1 h2 n (i + 1) { f with bits := f.bits.set (bit / 64) (word ||| 1 <<< (bit % 64)) }

def insert (f : BloomFilter) (h : Hashing) (key : Blob) : Option BloomFilter :=
  insertLoop (h.hash1 key).toNat (h.hash2 key).toNat f.numHashes 0 f

def containsLoop (f : BloomFilter) (h1 h2 : Nat) : Nat → Nat → Option Bool
  | 0, _ => some true
  | n + 1, i => do
    let bit ← f.bitIdx h1 h2 i
    let word ← f.bits[bit / 64]?
    if word &&& 1 <<< (bit % 64) = 0 then return false
    else f.containsLoop h1 h2 n (i + 1)

def contains (f : BloomFilter) (h : Hashing) (key : Blob) : Option Bool :=
  f.containsLoop (h.hash1 key).toNat (h.hash2 key).toNat f.numHashes 0

def writeWords (buffer : Blob) (offset : Nat) : List Nat → Option (Blob × Nat)
  | [] => some (buffer, offset)
  | word :: words => do
    let buffer ← overwrite buffer offset (offset + 8) (toBe 8 word)
    writeWords buffer (offset + 8) words

def serialize (f : BloomFilter) : Option Blob := do
  let (bitLenVarint, varintSize) ← encodeVarint f.bits.length
  let bufferSize := varintSize + 8 * (f.bits.length + 1)
  guard (bufferSize < 2 ^ 63)
  let buffer := List.replicate bufferSize 0
  let buffer ← overwrite buffer 0 varintSize (← slice bitLenVarint 0 varintSize)
  let (buffer, offset) ← writeWords buffer varintSize f.bits
  overwrite buffer offset (offset + 8) (toBe 8 f.numHashes)

def readWords (buffer : Blob) : Nat → Nat → Option (List Nat × Nat)
  | 0, offset => some ([], offset)
  | n + 1, offset => do
    let word ← slice buffer offset (offset + 8)
    let (words, offset) ← readWords buffer n (offset + 8)
    return (fromBe word :: words, offset)

def fromBytes (buffer : Blob) : Option BloomFilter := do
  let (numWords, bytesWalked) ← decodeVarint buffer 0
  guard (8 * numWords < 2 ^ 63)
  let (bits, offset) ← readWords buffer numWords bytesWalked
  let numHashes ← slice buffer offset (offset + 8)
  return { bits := bits, numBits := 64 * bits.length, numHashes := fromBe numHashes }

end BloomFilter

end Lsmlite
