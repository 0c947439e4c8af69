import Lsmlite.Record

/-!
# What the record functions compute

`Record.of key entry` is the record of a write, described without buffers. The encoders build
it, the decoder reads it back from any place in a buffer, and an in-place update turns the
blob and key range of one into those of the next; only the value range can fall behind.
-/

namespace Lsmlite
open Bytes

/-- What a write leaves under its key. -/
inductive Entry where
  | data (value : Blob)
  | tombstone
  deriving DecidableEq, Repr

namespace Entry

def header : Entry → UInt8
  | data _ => dataLogHeader
  | tombstone => tombstoneLogHeader

/-- The part of the record behind the key. -/
def tail : Entry → Blob
  | data value => leb value.length ++ value
  | tombstone => []

end Entry

namespace Record

/-- Everything behind the log size. -/
def body (key : Blob) (e : Entry) : Blob := leb key.length ++ (key ++ e.tail)

/-- The width of the log size varint. -/
def logWidth (key : Blob) (e : Entry) : Nat := (leb (body key e).length).length

def keyOffset (key : Blob) (e : Entry) : Nat := 1 + logWidth key e + (leb key.length).length

/-- The record that stands for entry `e` of `key`. -/
def of (key : Blob) (e : Entry) : Record where
  blob := [e.header] ++ (leb (body key e).length ++ body key e)
  key := (keyOffset key e, key.length)
  value := match e with
    | .data value => some (keyOffset key e + key.length + (leb value.length).length, value.length)
    | .tombstone => none

/-- The blob and key range are those of `key` and `e`; the value range may lag behind. -/
structure Canonical (r : Record) (key : Blob) (e : Entry) : Prop where
  blob : r.blob = (of key e).blob
  key : r.key = (of key e).key

/-- The record fits a `Vec`. -/
def Fits (key : Blob) (e : Entry) : Prop := (of key e).blob.length < 2 ^ 63

instance (key : Blob) (e : Entry) : Decidable (Fits key e) :=
  inferInstanceAs (Decidable (_ < _))

theorem canonical_of (key : Blob) (e : Entry) : Canonical (of key e) key e := ⟨rfl, rfl⟩

theorem body_length (key : Blob) (e : Entry) :
    (body key e).length = (leb key.length).length + key.length + e.tail.length := by
  simp only [body, List.length_append]; omega

theorem blob_length (key : Blob) (e : Entry) :
    (of key e).blob.length = 1 + logWidth key e + (body key e).length := by
  simp only [of, logWidth, List.length_append, List.length_singleton]; omega

theorem Fits.body_lt {key : Blob} {e : Entry} (h : Fits key e) : (body key e).length < 2 ^ 63 := by
  have := blob_length key e
  unfold Fits at h
  omega

theorem Fits.key_lt {key : Blob} {e : Entry} (h : Fits key e) : key.length < 2 ^ 63 := by
  have := h.body_lt
  rw [body_length] at this
  omega

theorem Fits.value_lt {key value : Blob} (h : Fits key (.data value)) : value.length < 2 ^ 63 := by
  have := h.body_lt
  rw [body_length] at this
  simp only [Entry.tail, List.length_append] at this
  omega

/-! ## Encoding -/

theorem slice_varint (n : Nat) (rest : Blob) :
    slice (leb n ++ rest) 0 (leb n).length = some (leb n) := by
  simp [slice]

theorem encodeDataRecord_eq {key value : Blob} (h : Fits key (.data value)) :
    encodeDataRecord key value = some (of key (.data value)) := by
  have hk := h.key_lt
  have hv := h.value_lt
  have hb := h.body_lt
  have hlog : (leb key.length).length + (leb value.length).length + key.length + value.length =
      (body key (.data value)).length := by
    rw [body_length]; simp only [Entry.tail, List.length_append]; omega
  have hsize : (leb (body key (.data value)).length).length + (body key (.data value)).length + 1 =
      (of key (.data value)).blob.length := by rw [blob_length, logWidth]; omega
  have hlen : (List.replicate (of key (.data value)).blob.length (0 : UInt8)).length =
      1 + (leb (body key (.data value)).length).length + (leb key.length).length + key.length +
        (leb value.length).length + value.length := by
    rw [List.length_replicate, ← hsize]; omega
  simp only [encodeDataRecord, encodeVarint_eq (show key.length < 2 ^ 64 by omega),
    encodeVarint_eq (show value.length < 2 ^ 64 by omega), Option.bind_eq_bind, Option.bind_some,
    hlog, encodeVarint_eq (show (body key (.data value)).length < 2 ^ 64 by omega), hsize,
    makeBlobBuffer, if_pos (show (of key (.data value)).blob.length < 2 ^ 63 from h), slice_varint]
  generalize List.replicate (of key (.data value)).blob.length (0 : UInt8) = rest at hlen
  rw [← List.nil_append rest, overwrite_next [] rest _ (by rfl) (by rfl) (by simp; omega)]
  simp only [Option.bind_some]
  rw [overwrite_next _ _ _ (by simp) (by rfl) (by simp; omega)]
  simp only [Option.bind_some]
  rw [overwrite_next _ _ _ (by simp; omega) (by rfl) (by simp; omega)]
  simp only [Option.bind_some]
  rw [overwrite_next _ _ _ (by simp; omega) (by rfl) (by simp; omega)]
  simp only [Option.bind_some]
  rw [overwrite_next _ _ _ (by simp; omega) (by rfl) (by simp; omega)]
  simp only [Option.bind_some]
  rw [overwrite_next _ _ _ (by simp; omega) (by rfl) (by simp; omega)]
  simp only [Option.bind_some, List.drop_drop]
  rw [List.drop_eq_nil_of_le (by simp; omega)]
  simp [of, body, Entry.tail, Entry.header, keyOffset, logWidth]

theorem encodeTombstoneRecord_eq {key : Blob} (h : Fits key .tombstone) :
    encodeTombstoneRecord key = some (of key .tombstone) := by
  have hk := h.key_lt
  have hb := h.body_lt
  have hlog : (leb key.length).length + key.length = (body key .tombstone).length := by
    rw [body_length]; rfl
  have hsize : (leb (body key .tombstone).length).length + (body key .tombstone).length + 1 =
      (of key .tombstone).blob.length := by rw [blob_length, logWidth]; omega
  have hlen : (List.replicate (of key .tombstone).blob.length (0 : UInt8)).length =
      1 + (leb (body key .tombstone).length).length + (leb key.length).length + key.length := by
    rw [List.length_replicate, ← hsize]; omega
  simp only [encodeTombstoneRecord, encodeVarint_eq (show key.length < 2 ^ 64 by omega),
    Option.bind_eq_bind, Option.bind_some, hlog,
    encodeVarint_eq (show (body key .tombstone).length < 2 ^ 64 by omega), hsize,
    makeBlobBuffer, if_pos (show (of key .tombstone).blob.length < 2 ^ 63 from h), slice_varint]
  generalize List.replicate (of key .tombstone).blob.length (0 : UInt8) = rest at hlen
  rw [← List.nil_append rest, overwrite_next [] rest _ (by rfl) (by rfl) (by simp; omega)]
  simp only [Option.bind_some]
  rw [overwrite_next _ _ _ (by simp) (by rfl) (by simp; omega)]
  simp only [Option.bind_some]
  rw [overwrite_next _ _ _ (by simp; omega) (by rfl) (by simp; omega)]
  simp only [Option.bind_some]
  rw [overwrite_next _ _ _ (by simp; omega) (by rfl) (by simp; omega)]
  simp only [Option.bind_some, List.drop_drop]
  rw [List.drop_eq_nil_of_le (by simp; omega)]
  simp [of, body, Entry.tail, Entry.header, keyOffset, logWidth]

theorem makeBlobBuffer_some {size : Nat} {buffer : Blob} (h : makeBlobBuffer size = some buffer) :
    size < 2 ^ 63 := by
  unfold makeBlobBuffer at h
  split at h
  · assumption
  · cases h

/-- The encoder builds the record of the write, or panics on a size no `Vec` has. -/
theorem encodeDataRecord_some {key value : Blob} {r : Record}
    (h : encodeDataRecord key value = some r) :
    r = of key (.data value) ∧ Fits key (.data value) := by
  have hfits : Fits key (.data value) := by
    simp only [encodeDataRecord, Option.bind_eq_bind, Option.bind_eq_some_iff, Prod.exists] at h
    obtain ⟨_, _, hk, _, _, hv, _, _, hl, _, hbuf, _⟩ := h
    have hsize := makeBlobBuffer_some hbuf
    rw [(encodeVarint_some hl).1, (encodeVarint_some hk).1, (encodeVarint_some hv).1,
      show (leb key.length).length + (leb value.length).length + key.length + value.length =
        (body key (.data value)).length by
          rw [body_length]; simp only [Entry.tail, List.length_append]; omega] at hsize
    rw [Fits, blob_length, logWidth]
    omega
  rw [encodeDataRecord_eq hfits] at h
  exact ⟨(Option.some.inj h).symm, hfits⟩

theorem encodeTombstoneRecord_some {key : Blob} {r : Record}
    (h : encodeTombstoneRecord key = some r) :
    r = of key .tombstone ∧ Fits key .tombstone := by
  have hfits : Fits key .tombstone := by
    simp only [encodeTombstoneRecord, Option.bind_eq_bind, Option.bind_eq_some_iff,
      Prod.exists] at h
    obtain ⟨_, _, hk, _, _, hl, _, hbuf, _⟩ := h
    have hsize := makeBlobBuffer_some hbuf
    rw [(encodeVarint_some hl).1, (encodeVarint_some hk).1,
      show (leb key.length).length + key.length = (body key .tombstone).length by
        rw [body_length]; rfl] at hsize
    rw [Fits, blob_length, logWidth]
    omega
  rw [encodeTombstoneRecord_eq hfits] at h
  exact ⟨(Option.some.inj h).symm, hfits⟩

/-! ## Reading the ranges -/

theorem length_before_key (key : Blob) (e : Entry) :
    ([e.header] ++ leb (body key e).length ++ leb key.length).length = keyOffset key e := by
  simp only [List.length_append, List.length_singleton, keyOffset, logWidth]

theorem blob_split (key : Blob) (e : Entry) :
    (of key e).blob =
      ([e.header] ++ leb (body key e).length ++ leb key.length) ++ (key ++ e.tail) := by
  simp only [of, body, List.append_assoc]

/-- The key is read from the blob and the key range alone. -/
theorem Canonical.keySlice {r : Record} {key : Blob} {e : Entry} (h : Canonical r key e) :
    r.keySlice = some key := by
  rw [Record.keySlice, h.blob, h.key, blob_split]
  exact slice_mid _ _ _ (length_before_key key e).symm rfl

theorem Canonical.keyBytes {r : Record} {key : Blob} {e : Entry} (h : Canonical r key e) :
    r.keyBytes = key := by
  rw [Record.keyBytes, h.blob, h.key, blob_split]
  simp [of, ← length_before_key]

theorem of_keyBytes (key : Blob) (e : Entry) : (of key e).keyBytes = key :=
  (canonical_of key e).keyBytes

theorem of_valueSlice (key value : Blob) :
    (of key (.data value)).valueSlice = some (some value) := by
  have hcat : (of key (.data value)).blob =
      ([Entry.header (.data value)] ++ leb (body key (.data value)).length ++ leb key.length ++
          key ++ leb value.length) ++ (value ++ []) := by
    simp [blob_split, Entry.tail]
  have hv : (of key (.data value)).value =
      some (keyOffset key (.data value) + key.length + (leb value.length).length,
        value.length) := rfl
  rw [Record.valueSlice, hv, hcat]
  simp only
  rw [slice_mid _ _ _ (by
    rw [List.length_append, List.length_append, length_before_key]) rfl]
  rfl

theorem of_recordType (key : Blob) (e : Entry) :
    (of key e).recordType = match e with | .data _ => .data | .tombstone => .tombstone := by
  cases e <;> rfl

/-! ## Decoding -/

theorem decodeInsertRecord_of (pre suf key value : Blob) (h : Fits key (.data value)) :
    decodeInsertRecord (pre ++ ((of key (.data value)).blob ++ suf)) (pre.length + 1) =
      some (of key (.data value), pre.length + (of key (.data value)).blob.length) := by
  have hk := h.key_lt
  have hv := h.value_lt
  have hb := h.body_lt
  have hbl := body_length key (.data value)
  have hlen := blob_length key (.data value)
  have hw : logWidth key (.data value) = (leb (body key (.data value)).length).length := rfl
  simp only [Entry.tail, List.length_append] at hbl
  have hat1 : pre ++ ((of key (.data value)).blob ++ suf) = (pre ++ [dataLogHeader]) ++
      (leb (body key (.data value)).length ++ (body key (.data value) ++ suf)) := by
    simp [of, Entry.header]
  have hat2 : pre ++ ((of key (.data value)).blob ++ suf) =
      (pre ++ [dataLogHeader] ++ leb (body key (.data value)).length) ++
        (leb key.length ++ (key ++ (leb value.length ++ (value ++ suf)))) := by
    simp [of, body, Entry.header, Entry.tail]
  have hat3 : pre ++ ((of key (.data value)).blob ++ suf) =
      (pre ++ [dataLogHeader] ++ leb (body key (.data value)).length ++ leb key.length ++ key) ++
        (leb value.length ++ (value ++ suf)) := by
    simp [of, body, Entry.header, Entry.tail]
  have h1 := decodeVarint_leb (pre ++ [dataLogHeader]) (body key (.data value) ++ suf)
    (body key (.data value)).length
    (show pre.length + 1 = _ by simp) (by omega)
  have h2 := decodeVarint_leb (pre ++ [dataLogHeader] ++ leb (body key (.data value)).length)
    (key ++ (leb value.length ++ (value ++ suf))) key.length
    (show pre.length + 1 + (leb (body key (.data value)).length).length = _ by simp; omega)
    (by omega)
  have h3 := decodeVarint_leb
    (pre ++ [dataLogHeader] ++ leb (body key (.data value)).length ++ leb key.length ++ key)
    (value ++ suf) value.length
    (show pre.length + 1 + (leb (body key (.data value)).length).length +
      (leb key.length).length + key.length = _ by simp; omega) (by omega)
  have h4 := slice_mid pre (of key (.data value)).blob suf rfl
    (show pre.length + 1 + (leb (body key (.data value)).length).length +
      (leb key.length).length + key.length + (leb value.length).length + value.length = _ by omega)
  rw [← hat1] at h1
  rw [← hat2] at h2
  rw [← hat3] at h3
  simp only [decodeInsertRecord, Option.bind_eq_bind, h1, Option.bind_some, h2, h3, guard,
    Nat.add_sub_cancel, h4]
  rw [if_pos (by omega)]
  simp only [Option.pure_def, Option.bind_some, Option.some.injEq, Prod.mk.injEq]
  refine ⟨?_, by omega⟩
  simp only [of, keyOffset, logWidth, Record.mk.injEq, Prod.mk.injEq, Option.some.injEq, and_true,
    true_and]
  omega

theorem decodeTombstoneRecord_of (pre suf key : Blob) (h : Fits key .tombstone) :
    decodeTombstoneRecord (pre ++ ((of key .tombstone).blob ++ suf)) (pre.length + 1) =
      some (of key .tombstone, pre.length + (of key .tombstone).blob.length) := by
  have hk := h.key_lt
  have hb := h.body_lt
  have hbl := body_length key .tombstone
  have hlen := blob_length key .tombstone
  have hw : logWidth key .tombstone = (leb (body key .tombstone).length).length := rfl
  simp only [Entry.tail, List.length_nil] at hbl
  have hat1 : pre ++ ((of key .tombstone).blob ++ suf) = (pre ++ [tombstoneLogHeader]) ++
      (leb (body key .tombstone).length ++ (body key .tombstone ++ suf)) := by
    simp [of, Entry.header]
  have hat2 : pre ++ ((of key .tombstone).blob ++ suf) =
      (pre ++ [tombstoneLogHeader] ++ leb (body key .tombstone).length) ++
        (leb key.length ++ (key ++ suf)) := by
    simp [of, body, Entry.header, Entry.tail]
  have h1 := decodeVarint_leb (pre ++ [tombstoneLogHeader]) (body key .tombstone ++ suf)
    (body key .tombstone).length
    (show pre.length + 1 = _ by simp) (by omega)
  have h2 := decodeVarint_leb (pre ++ [tombstoneLogHeader] ++ leb (body key .tombstone).length)
    (key ++ suf) key.length
    (show pre.length + 1 + (leb (body key .tombstone).length).length = _ by simp; omega)
    (by omega)
  have h4 := slice_mid pre (of key .tombstone).blob suf rfl
    (show pre.length + 1 + (leb (body key .tombstone).length).length +
      (leb key.length).length + key.length = _ by omega)
  rw [← hat1] at h1
  rw [← hat2] at h2
  simp only [decodeTombstoneRecord, Option.bind_eq_bind, h1, Option.bind_some, h2, guard,
    Nat.add_sub_cancel, h4]
  rw [if_pos (by omega)]
  simp only [Option.pure_def, Option.bind_some, Option.some.injEq, Prod.mk.injEq]
  refine ⟨?_, by omega⟩
  simp only [of, keyOffset, logWidth, Record.mk.injEq, Prod.mk.injEq, and_true, true_and]
  omega

/-- A record is decoded from wherever it stands, with the offset moved behind it. -/
theorem decodeDiskRecord_of (pre suf : Blob) {key : Blob} {e : Entry} (h : Fits key e)
    {offset : Nat} (ho : offset = pre.length) :
    decodeDiskRecord (pre ++ ((of key e).blob ++ suf)) offset =
      some (some (of key e), offset + (of key e).blob.length) := by
  subst ho
  have hhead : (pre ++ ((of key e).blob ++ suf))[pre.length]? = some e.header := by
    simp [of]
  cases e with
  | data value =>
    simp only [decodeDiskRecord, hhead, Option.bind_eq_bind, Option.bind_some, Entry.header,
      ↓reduceIte, decodeInsertRecord_of pre suf key value h]
    rfl
  | tombstone =>
    simp only [decodeDiskRecord, hhead, Option.bind_eq_bind, Option.bind_some, Entry.header,
      show ¬ tombstoneLogHeader = dataLogHeader by decide, ↓reduceIte,
      decodeTombstoneRecord_of pre suf key h]
    rfl

/-! ## Updating in place -/

/-- Whatever is decoded takes bytes of the buffer and has its key within its blob. -/
theorem decodeDiskRecord_some {buffer : Blob} {offset offset' : Nat} {r : Record}
    (h : decodeDiskRecord buffer offset = some (some r, offset')) :
    offset < offset' ∧ offset' ≤ buffer.length ∧ r.keySlice = some r.keyBytes := by
  have hkey : ∀ {r : Record}, r.key.1 + r.key.2 ≤ r.blob.length → r.keySlice = some r.keyBytes := by
    intro r hle
    rw [keySlice, slice_isSome (Nat.le_add_right _ _) hle, Nat.add_sub_cancel_left, keyBytes]
  simp only [decodeDiskRecord, Option.bind_eq_bind, Option.bind_eq_some_iff] at h
  obtain ⟨header, _, h⟩ := h
  split at h
  · simp only [decodeInsertRecord, Option.bind_eq_bind, Option.bind_eq_some_iff, Prod.exists,
      Option.pure_def, Option.some.injEq, Prod.mk.injEq] at h
    obtain ⟨_, _, ⟨_, w1, h1, _, w2, h2, _, w3, h3, _, _, blob, hblob, rfl, rfl⟩, rfl, rfl⟩ := h
    have b1 := decodeVarint_bounds h1
    have b2 := decodeVarint_bounds h2
    have b3 := decodeVarint_bounds h3
    obtain ⟨_, hle, _, hlen⟩ := slice_eq_some hblob
    exact ⟨by omega, hle, hkey (by simp only; omega)⟩
  · split at h
    · simp only [decodeTombstoneRecord, Option.bind_eq_bind, Option.bind_eq_some_iff, Prod.exists,
        Option.pure_def, Option.some.injEq, Prod.mk.injEq] at h
      obtain ⟨_, _, ⟨_, w1, h1, _, w2, h2, _, _, blob, hblob, rfl, rfl⟩, rfl, rfl⟩ := h
      have b1 := decodeVarint_bounds h1
      have b2 := decodeVarint_bounds h2
      obtain ⟨_, hle, _, hlen⟩ := slice_eq_some hblob
      exact ⟨by omega, hle, hkey (by simp only; omega)⟩
    · simp at h

/-- What is decoded is as long as the bytes that were read. -/
theorem decodeDiskRecord_size {buffer : Blob} {offset offset' : Nat} {r : Record}
    (h : decodeDiskRecord buffer offset = some (some r, offset')) : r.size = offset' - offset := by
  simp only [decodeDiskRecord, Option.bind_eq_bind, Option.bind_eq_some_iff] at h
  obtain ⟨header, _, h⟩ := h
  split at h
  · simp only [decodeInsertRecord, Option.bind_eq_bind, Option.bind_eq_some_iff, Prod.exists,
      Option.pure_def, Option.some.injEq, Prod.mk.injEq] at h
    obtain ⟨_, _, ⟨_, _, _, _, _, _, _, _, _, _, _, blob, hblob, rfl, rfl⟩, rfl, rfl⟩ := h
    exact (slice_eq_some hblob).2.2.2
  · split at h
    · simp only [decodeTombstoneRecord, Option.bind_eq_bind, Option.bind_eq_some_iff, Prod.exists,
        Option.pure_def, Option.some.injEq, Prod.mk.injEq] at h
      obtain ⟨_, _, ⟨_, _, _, _, _, _, _, _, blob, hblob, rfl, rfl⟩, rfl, rfl⟩ := h
      exact (slice_eq_some hblob).2.2.2
    · simp at h

theorem Fits.tombstone {key : Blob} {e : Entry} (h : Fits key e) : Fits key .tombstone := by
  have hb : (body key .tombstone).length ≤ (body key e).length := by
    rw [body_length, body_length]; simp only [Entry.tail, List.length_nil]; omega
  have hw : logWidth key .tombstone ≤ logWidth key e := leb_length_mono hb
  rw [Fits, blob_length] at h ⊢
  omega

theorem updateDataToTombstone_eq {r : Record} {key : Blob} {e : Entry} (hr : Canonical r key e)
    (h : Fits key e) : r.updateDataToTombstone = some (of key .tombstone) := by
  have hf := h.tombstone
  have hk := hf.key_lt
  have hb := hf.body_lt
  have hlog : (leb key.length).length + key.length = (body key .tombstone).length := by
    rw [body_length]; rfl
  have hsize : (body key .tombstone).length + (leb (body key .tombstone).length).length + 1 =
      (of key .tombstone).blob.length := by rw [blob_length, logWidth]; omega
  obtain ⟨x, rest, hrest⟩ := List.exists_cons_of_length_pos
    (l := resize r.blob (of key .tombstone).blob.length 0) (by rw [resize_length]; omega)
  have hlen := resize_length r.blob (of key .tombstone).blob.length 0
  rw [hrest, List.length_cons] at hlen
  simp only [updateDataToTombstone, hr.keySlice, Option.bind_eq_bind, Option.bind_some,
    encodeVarint_eq (show key.length < 2 ^ 64 by omega), hlog,
    encodeVarint_eq (show (body key .tombstone).length < 2 ^ 64 by omega), hsize, guard,
    if_pos (show (of key .tombstone).blob.length < 2 ^ 63 from hf), Option.pure_def, slice_varint,
    hrest]
  rw [show x :: rest = [x] ++ rest from rfl, assign_head]
  simp only [Option.bind_some]
  rw [overwrite_next _ _ _ (by simp) (by rfl) (by omega)]
  simp only [Option.bind_some]
  rw [overwrite_next _ _ _ (by simp; omega) (by rfl) (by simp; omega)]
  simp only [Option.bind_some]
  rw [overwrite_next _ _ _ (by simp; omega) (by rfl) (by simp; omega)]
  simp only [Option.bind_some, List.drop_drop]
  rw [List.drop_eq_nil_of_le (by omega)]
  simp [of, body, Entry.tail, Entry.header, keyOffset, logWidth]

/-- The condition under which `overwrite_data` finds the old key in the resized blob: the log
size varint shrinks by no more than the new value and its length take up. -/
def Reachable (key : Blob) (e : Entry) (value : Blob) : Prop :=
  logWidth key e ≤ logWidth key (.data value) + (leb value.length).length + value.length

instance (key : Blob) (e : Entry) (value : Blob) : Decidable (Reachable key e value) :=
  inferInstanceAs (Decidable (_ ≤ _))

/-- The resized blob, as far as it is still the old record. -/
theorem resize_keeps_key {key value : Blob} {e : Entry} (h : Reachable key e value) :
    ∃ rest, resize (of key e).blob (of key (.data value)).blob.length 0 =
        ([e.header] ++ leb (body key e).length ++ leb key.length) ++ (key ++ rest) ∧
      rest.length + keyOffset key e + key.length = (of key (.data value)).blob.length := by
  have hl := blob_length key (.data value)
  have hb := body_length key (.data value)
  have hp := length_before_key key e
  have hko : keyOffset key e = 1 + logWidth key e + (leb key.length).length := rfl
  simp only [Entry.tail, List.length_append] at hb
  have hle : (([e.header] ++ leb (body key e).length ++ leb key.length) ++ key).length ≤
      (of key (.data value)).blob.length := by
    rw [List.length_append, hp]
    unfold Reachable at h
    omega
  rw [blob_split, ← List.append_assoc, resize_append _ _ _ hle, List.append_assoc]
  refine ⟨_, rfl, ?_⟩
  rw [resize_length]
  rw [List.length_append, hp] at hle ⊢
  omega

/-- An overwrite gives the blob and key range of the new record but keeps the old value range.
It panics exactly when the key does not survive the resize. -/
theorem overwriteData_eq {r : Record} {key value : Blob} {e : Entry} (hr : Canonical r key e)
    (h : Fits key e) (hnew : Fits key (.data value)) :
    r.overwriteData value =
      if Reachable key e value then some { of key (.data value) with value := r.value }
      else none := by
  have hk := h.key_lt
  have hv := hnew.value_lt
  have hb := hnew.body_lt
  have hw : logWidth key (.data value) = (leb (body key (.data value)).length).length := rfl
  have hwe : logWidth key e = (leb (body key e).length).length := rfl
  have hbl := body_length key (.data value)
  have hsz := blob_length key (.data value)
  have hko : keyOffset key e = 1 + logWidth key e + (leb key.length).length := rfl
  simp only [Entry.tail, List.length_append] at hbl
  have hlog : (leb value.length).length + (leb key.length).length + key.length + value.length =
      (body key (.data value)).length := by omega
  have hsize : (leb (body key (.data value)).length).length + (body key (.data value)).length + 1 =
      (of key (.data value)).blob.length := by omega
  have hkey1 : r.key.1 = keyOffset key e := by rw [hr.key]; rfl
  have hkey2 : r.key.2 = key.length := by rw [hr.key]; rfl
  have hcur : keyOffset key e - (leb key.length).length - 1 = logWidth key e := by
    rw [keyOffset]; omega
  have hguard : (leb key.length).length + 1 ≤ keyOffset key e := by rw [keyOffset]; omega
  simp only [overwriteData, hkey1, hkey2, varintSizeFromLen_eq hk, Option.bind_eq_bind,
    encodeVarint_eq (show value.length < 2 ^ 64 by omega), Option.bind_some, hlog,
    encodeVarint_eq (show (body key (.data value)).length < 2 ^ 64 by omega), hsize, guard,
    if_pos (show (of key (.data value)).blob.length < 2 ^ 63 from hnew), Option.pure_def,
    if_pos hguard, hcur, slice_varint, encodeVarint_eq (show key.length < 2 ^ 64 by omega), hr.blob]
  by_cases hreach : Reachable key e value
  · rw [if_pos hreach]
    obtain ⟨rest, hres, hrest⟩ := resize_keeps_key hreach
    rw [hres]
    by_cases hsame : logWidth key e = (leb (body key (.data value)).length).length
    · rw [if_neg (not_not_intro hsame)]
      -- the key stays where it is
      rw [show ([e.header] ++ leb (body key e).length ++ leb key.length) ++ (key ++ rest) =
          [e.header] ++ (leb (body key e).length ++ (leb key.length ++ (key ++ rest))) by simp,
        overwrite_next _ _ _ (by simp) (by omega) (by simp; omega)]
      simp only [Option.bind_some, ← hsame, hwe, List.drop_left]
      rw [show [e.header] ++ leb (body key (.data value)).length ++
            (leb key.length ++ (key ++ rest)) =
          ([e.header] ++ leb (body key (.data value)).length ++ leb key.length ++ key) ++
            rest by simp,
        overwrite_next _ _ _ (by simp; omega) (by rfl) (by omega)]
      simp only [Option.bind_some]
      rw [overwrite_next _ _ _ (by simp; omega) (by rfl) (by simp; omega)]
      simp only [Option.bind_some, List.drop_drop]
      rw [List.drop_eq_nil_of_le (by omega)]
      simp only [List.append_assoc, assign_head, Option.bind_some, List.append_nil]
      simp only [of, body, Entry.tail, Entry.header, hr.key, Option.some.injEq, Record.mk.injEq,
        Prod.mk.injEq, and_true, true_and]
      rw [keyOffset, keyOffset, hsame, hw]
    · rw [if_pos hsame]
      -- the key is saved and written again behind the new log size
      rw [slice_mid _ _ _ (length_before_key key e).symm (by rfl)]
      simp only [Option.bind_some]
      obtain ⟨more, hmore⟩ : ∃ more, ([e.header] ++ leb (body key e).length ++ leb key.length) ++
          (key ++ rest) = [e.header] ++ more := ⟨_, by simp; rfl⟩
      have hlen : more.length + 1 = (of key (.data value)).blob.length := by
        have := congrArg List.length hmore
        simp only [List.length_append, List.length_singleton] at this
        omega
      rw [hmore, overwrite_next _ _ _ (by simp) (by rfl) (by omega)]
      simp only [Option.bind_some]
      rw [overwrite_next _ _ _ (by simp; omega) (by rfl) (by simp; omega)]
      simp only [Option.bind_some]
      rw [overwrite_next _ _ _ (by simp; omega) (by rfl) (by simp; omega)]
      simp only [Option.bind_some]
      rw [overwrite_next _ _ _ (by simp; omega) (by rfl) (by simp; omega)]
      simp only [Option.bind_some]
      rw [overwrite_next _ _ _ (by simp; omega) (by rfl) (by simp; omega)]
      simp only [Option.bind_some, List.drop_drop]
      rw [List.drop_eq_nil_of_le (by omega)]
      simp only [List.append_assoc, assign_head, Option.bind_some, List.append_nil]
      simp only [of, body, Entry.tail, Entry.header, Option.some.injEq, Record.mk.injEq,
        Prod.mk.injEq, and_true, true_and]
      rw [keyOffset, hw]
      rfl
  · rw [if_neg hreach]
    have hpast : (of key (.data value)).blob.length < keyOffset key e + key.length := by
      unfold Reachable at hreach; omega
    have hdiff : logWidth key e ≠ (leb (body key (.data value)).length).length := by
      unfold Reachable at hreach; omega
    rw [if_pos hdiff]
    have hnone : slice (resize (of key e).blob (of key (.data value)).blob.length 0)
        (keyOffset key e) (keyOffset key e + key.length) = none := by
      rw [slice, if_neg]
      rw [resize_length]; omega
    rw [hnone]
    rfl

theorem updateFromRecord_eq {r : Record} {key : Blob} {e new : Entry} (hr : Canonical r key e)
    (h : Fits key e) (hnew : Fits key new) :
    r.updateFromRecord (of key new) =
      match new with
      | .data value =>
        if Reachable key e value then some { of key (.data value) with value := r.value } else none
      | .tombstone => some (of key .tombstone) := by
  cases new with
  | data value =>
    simp only [updateFromRecord, of_recordType, of_valueSlice, Option.bind_eq_bind,
      Option.bind_some, overwriteData_eq hr h hnew]
  | tombstone =>
    simp only [updateFromRecord, of_recordType, updateDataToTombstone_eq hr h]

/-- An update that returns leaves the blob and key range of the write it took. -/
theorem Canonical.update {r r' : Record} {key : Blob} {e new : Entry} (hr : Canonical r key e)
    (h : Fits key e) (hnew : Fits key new) (hu : r.updateFromRecord (of key new) = some r') :
    Canonical r' key new := by
  rw [updateFromRecord_eq hr h hnew] at hu
  cases new with
  | data value =>
    simp only at hu
    split at hu
    · cases hu; exact ⟨rfl, rfl⟩
    · cases hu
  | tombstone => cases hu; exact canonical_of _ _

/-! ## What an update keeps of any record -/

/-- The value is written behind the key. -/
theorem slice_write_value {blob blob1 blob2 blob3 varint value : Blob} {a b w n : Nat} {x : UInt8}
    (h1 : overwrite blob b (b + w) varint = some blob1)
    (h2 : overwrite blob1 (b + w) (b + w + n) value = some blob2)
    (h3 : assign blob2 0 x = some blob3) (ha : 0 < a) : slice blob3 a b = slice blob a b := by
  rw [slice_assign h3 ha, slice_overwrite h2 (Or.inl (Nat.le_add_right _ _)),
    slice_overwrite h1 (Or.inl (Nat.le_refl _))]

/-- An overwrite that returns keeps the key's bytes, whatever record it finds. -/
theorem overwriteData_keySlice {r r' : Record} {key value : Blob} (hr : r.keySlice = some key)
    (h : r.overwriteData value = some r') : r'.keySlice = some key := by
  simp only [overwriteData, Option.bind_eq_bind, Option.bind_eq_some_iff, Prod.exists,
    Option.pure_def] at h
  obtain ⟨valueVarint, valueWidth, _, logVarint, logWidth, _, _, _, _, hle, h⟩ := h
  have hstart : varintSizeFromLen r.key.2 + 1 ≤ r.key.1 := by
    by_contra hc
    rw [guard, if_neg hc] at hle
    cases hle
  by_cases hwidth : r.key.1 - varintSizeFromLen r.key.2 - 1 ≠ logWidth
  · -- The key is copied and written again.
    rw [if_pos hwidth] at h
    simp only [Option.bind_eq_some_iff] at h
    obtain ⟨key', hkey', _, _, _, _, blob1, _, _, _, blob2, _, blob3, h3, _, hmoved, _, _, blob4,
      h4, blob5, h5, blob6, h6, h⟩ := h
    cases hmoved
    cases h
    have hcopy : some key' = some key := by
      rw [← hkey']
      refine slice_resize hr ?_
      have hbound := (slice_eq_some hkey').2.1
      rwa [resize_length] at hbound
    rw [keySlice, slice_write_value h4 h5 h6 (by simp only; omega), ← hcopy]
    exact slice_overwrite_self h3
  · -- The key stays where it is.
    rw [if_neg hwidth] at h
    simp only [Option.bind_eq_some_iff] at h
    obtain ⟨_, _, blob1, h1, _, hkept, _, _, blob4, h4, blob5, h5, blob6, h6, h⟩ := h
    cases hkept
    cases h
    have hend : r.key.1 + r.key.2 + valueWidth ≤ blob1.length := (overwrite_eq_some h4).2.1
    rw [overwrite_length h1, resize_length] at hend
    rw [keySlice, slice_write_value h4 h5 h6 (by simp only; omega),
      slice_overwrite h1 (Or.inr (by simp only; omega))]
    exact slice_resize hr (show r.key.1 + r.key.2 ≤ _ by omega)

theorem updateDataToTombstone_keySlice {r r' : Record} {key : Blob} (hr : r.keySlice = some key)
    (h : r.updateDataToTombstone = some r') : r'.keySlice = some key := by
  simp only [updateDataToTombstone, Option.bind_eq_bind, Option.bind_eq_some_iff, Prod.exists,
    Option.pure_def] at h
  obtain ⟨key', hkey', _, _, _, _, _, _, _, _, _, _, _, _, _, _, _, _, _, _, blob, hblob, h⟩ := h
  cases h
  cases hr.symm.trans hkey'
  exact slice_overwrite_self hblob

/-- An update in place keeps the key. -/
theorem updateFromRecord_keySlice {r r' record : Record} {key : Blob} (hr : r.keySlice = some key)
    (h : r.updateFromRecord record = some r') : r'.keySlice = some key := by
  unfold updateFromRecord at h
  split at h
  · simp only [Option.bind_eq_bind, Option.bind_eq_some_iff] at h
    obtain ⟨_, _, value, _, h⟩ := h
    exact overwriteData_keySlice hr h
  · exact updateDataToTombstone_keySlice hr h

end Record

end Lsmlite
