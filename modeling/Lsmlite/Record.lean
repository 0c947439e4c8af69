import Lsmlite.Util

/-!
# Records

`memtable/record.rs`, `disk/encode.rs` and `disk/decode.rs`: a record is its own disk encoding,
with the ranges of the key and of the value in it.

* data: `[0][log size][key length][key][data length][data]`
* tombstone: `[1][log size][key length][key]`
-/

namespace Lsmlite
open Bytes

structure Record where
  blob : Blob
  key : Nat × Nat
  value : Option (Nat × Nat)
  deriving DecidableEq, Repr

inductive RecordType where
  | data
  | tombstone
  deriving DecidableEq, Repr

/-! ## disk/encode.rs -/

def encodeDataRecord (key value : Blob) : Option Record := do
  let (keyVarint, keyVarintLen) ← encodeVarint key.length
  let (valueVarint, valueVarintLen) ← encodeVarint value.length
  let logSize := keyVarintLen + valueVarintLen + key.length + value.length
  let (logSizeVarint, logSizeVarintLen) ← encodeVarint logSize
  let recordBuffer ← makeBlobBuffer (logSizeVarintLen + logSize + 1)
  let recordBuffer ← overwrite recordBuffer 0 1 [dataLogHeader]
  let offset := 1
  let recordBuffer ← overwrite recordBuffer offset (offset + logSizeVarintLen)
    (← slice logSizeVarint 0 logSizeVarintLen)
  let offset := offset + logSizeVarintLen
  let recordBuffer ← overwrite recordBuffer offset (offset + keyVarintLen)
    (← slice keyVarint 0 keyVarintLen)
  let offset := offset + keyVarintLen
  let keyOffset := (offset, key.length)
  let recordBuffer ← overwrite recordBuffer offset (offset + key.length) key
  let offset := offset + key.length
  let recordBuffer ← overwrite recordBuffer offset (offset + valueVarintLen)
    (← slice valueVarint 0 valueVarintLen)
  let offset := offset + valueVarintLen
  let valueOffset := some (offset, value.length)
  let recordBuffer ← overwrite recordBuffer offset (offset + value.length) value
  return ⟨recordBuffer, keyOffset, valueOffset⟩

def encodeTombstoneRecord (key : Blob) : Option Record := do
  let (keyVarint, keyVarintLen) ← encodeVarint key.length
  let logSize := keyVarintLen + key.length
  let (logSizeVarint, logSizeVarintLen) ← encodeVarint logSize
  let recordBuffer ← makeBlobBuffer (logSizeVarintLen + logSize + 1)
  let recordBuffer ← overwrite recordBuffer 0 1 [tombstoneLogHeader]
  let offset := 1
  let recordBuffer ← overwrite recordBuffer offset (offset + logSizeVarintLen)
    (← slice logSizeVarint 0 logSizeVarintLen)
  let offset := offset + logSizeVarintLen
  let recordBuffer ← overwrite recordBuffer offset (offset + keyVarintLen)
    (← slice keyVarint 0 keyVarintLen)
  let offset := offset + keyVarintLen
  let keyOffset := (offset, key.length)
  let recordBuffer ← overwrite recordBuffer offset (offset + key.length) key
  return ⟨recordBuffer, keyOffset, none⟩

/-! ## disk/decode.rs -/

def decodeInsertRecord (buffer : Blob) (offset : Nat) : Option (Record × Nat) := do
  let startOffset := offset - 1
  let (logSize, bytesWalked) ← decodeVarint buffer offset
  let offset := offset + bytesWalked
  let start := offset
  let (keyLength, bytesWalked) ← decodeVarint buffer offset
  let offset := offset + bytesWalked
  let key := (offset - startOffset, keyLength)
  let offset := offset + keyLength
  let (dataLen, bytesWalked) ← decodeVarint buffer offset
  let offset := offset + bytesWalked
  let value := some (offset - startOffset, dataLen)
  let offset := offset + dataLen
  guard (logSize = offset - start)
  let blob ← slice buffer startOffset offset
  return (⟨blob, key, value⟩, offset)

def decodeTombstoneRecord (buffer : Blob) (offset : Nat) : Option (Record × Nat) := do
  let startOffset := offset - 1
  let (logSize, bytesWalked) ← decodeVarint buffer offset
  let offset := offset + bytesWalked
  let start := offset
  let (keyLength, bytesWalked) ← decodeVarint buffer offset
  let offset := offset + bytesWalked
  let key := (offset - startOffset, keyLength)
  let offset := offset + keyLength
  guard (logSize = offset - start)
  let blob ← slice buffer startOffset offset
  return (⟨blob, key, none⟩, offset)

/-- The record at `offset`, or `none` for an unknown header, and the offset behind it. -/
def decodeDiskRecord (buffer : Blob) (offset : Nat) : Option (Option Record × Nat) := do
  let header ← buffer[offset]?
  let offset := offset + 1
  if header = dataLogHeader then
    let (record, offset) ← decodeInsertRecord buffer offset
    return (some record, offset)
  else if header = tombstoneLogHeader then
    let (record, offset) ← decodeTombstoneRecord buffer offset
    return (some record, offset)
  else return (none, offset)

/-! ## memtable/record.rs -/

namespace Record

def newDataRecord (key value : Blob) : Option Record := encodeDataRecord key value

def newTombstoneRecord (key : Blob) : Option Record := encodeTombstoneRecord key

def recordType (r : Record) : RecordType :=
  match r.value with
  | some _ => .data
  | none => .tombstone

/-- The bytes of the key's range that the blob has; `key` is the checked slice. -/
def keyBytes (r : Record) : Blob := (r.blob.drop r.key.1).take r.key.2

def keySlice (r : Record) : Option Blob := slice r.blob r.key.1 (r.key.1 + r.key.2)

def valueSlice (r : Record) : Option (Option Blob) :=
  match r.value with
  | some (offset, len) => (slice r.blob offset (offset + len)).map some
  | none => some none

def size (r : Record) : Nat := r.blob.length

/-- `overwrite_data`. The blob is resized before the key is read from it, and `self.value`
is not assigned. -/
def overwriteData (r : Record) (newValue : Blob) : Option Record := do
  let keyLen := r.key.2
  let keyVarintLen := varintSizeFromLen keyLen
  let (valueVarint, valueVarintLen) ← encodeVarint newValue.length
  let logSize := valueVarintLen + keyVarintLen + keyLen + newValue.length
  let (logSizeVarint, logSizeVarintLen) ← encodeVarint logSize
  let bufferSize := logSizeVarintLen + logSize + 1
  guard (bufferSize < 2 ^ 63)
  let blob := resize r.blob bufferSize 0
  guard (keyVarintLen + 1 ≤ r.key.1)
  let currentLogSizeVarintLen := r.key.1 - keyVarintLen - 1
  let (blob, key, valueVarintOffset) ←
    if currentLogSizeVarintLen ≠ logSizeVarintLen then do
      let tempKeyBuffer ← slice blob r.key.1 (r.key.1 + r.key.2)
      let (keyVarint, _) ← encodeVarint keyLen
      let offset := 1
      let blob ← overwrite blob offset (offset + logSizeVarintLen)
        (← slice logSizeVarint 0 logSizeVarintLen)
      let offset := offset + logSizeVarintLen
      let blob ← overwrite blob offset (offset + keyVarintLen) (← slice keyVarint 0 keyVarintLen)
      let offset := offset + keyVarintLen
      let blob ← overwrite blob offset (offset + keyLen) tempKeyBuffer
      pure (blob, (offset, keyLen), offset + keyLen)
    else do
      let blob ← overwrite blob 1 (logSizeVarintLen + 1) (← slice logSizeVarint 0 logSizeVarintLen)
      pure (blob, r.key, r.key.1 + keyLen)
  let blob ← overwrite blob valueVarintOffset (valueVarintOffset + valueVarintLen)
    (← slice valueVarint 0 valueVarintLen)
  let valueOffset := valueVarintOffset + valueVarintLen
  let blob ← overwrite blob valueOffset (valueOffset + newValue.length) newValue
  let blob ← assign blob 0 dataLogHeader
  return ⟨blob, key, r.value⟩

def updateDataToTombstone (r : Record) : Option Record := do
  let key ← r.keySlice
  let (keyVarint, keyVarintLen) ← encodeVarint key.length
  let logSize := keyVarintLen + key.length
  let (logSizeVarint, logSizeVarintLen) ← encodeVarint logSize
  let totalSize := logSize + logSizeVarintLen + 1
  guard (totalSize < 2 ^ 63)
  let blob := resize r.blob totalSize 0
  let blob ← assign blob 0 tombstoneLogHeader
  let offset := 1
  let blob ← overwrite blob offset (offset + logSizeVarintLen)
    (← slice logSizeVarint 0 logSizeVarintLen)
  let offset := offset + logSizeVarintLen
  let blob ← overwrite blob offset (offset + keyVarintLen) (← slice keyVarint 0 keyVarintLen)
  let offset := offset + keyVarintLen
  let blob ← overwrite blob offset (offset + key.length) key
  return ⟨blob, (offset, key.length), none⟩

def updateFromRecord (r record : Record) : Option Record :=
  match record.recordType with
  | .data => do
    let value ← record.valueSlice
    r.overwriteData (← value)
  | .tombstone => r.updateDataToTombstone

end Record

end Lsmlite
