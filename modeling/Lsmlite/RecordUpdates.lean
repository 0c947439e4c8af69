import Lsmlite.Lib.Pairing
import Lsmlite.RecordCodec

/-!
# Updates of a record in place

An update rewrites the blob and the key range and leaves the value range as it was; a tombstone
takes it away. So a record is canonical again only where the range that is left fits the last write.
-/

namespace Lsmlite
open Bytes

/-- The value of a write. -/
def Entry.value : Entry → Option Blob
  | .data value => some value
  | .tombstone => none

namespace Record

/-- `new_data_record` or `new_tombstone_record`. -/
def encoded (key : Blob) : Entry → Option Record
  | .data value => newDataRecord key value
  | .tombstone => newTombstoneRecord key

theorem encoded_some {key : Blob} {e : Entry} {r : Record} (h : encoded key e = some r) :
    r = of key e ∧ Fits key e := by
  cases e with
  | data value => exact encodeDataRecord_some h
  | tombstone => exact encodeTombstoneRecord_some h

theorem encoded_of {key : Blob} {e : Entry} (h : Fits key e) : encoded key e = some (of key e) := by
  cases e with
  | data value => exact encodeDataRecord_eq h
  | tombstone => exact encodeTombstoneRecord_eq h

/-! ## The condition -/

/-- Each value that is written leaves the key of the record before it in the resized blob. -/
def KeyStays (key : Blob) : Entry → List Entry → Prop
  | _, [] => True
  | e, .data value :: updates => Reachable key e value ∧ KeyStays key (.data value) updates
  | _, .tombstone :: updates => KeyStays key .tombstone updates

/-- The last write is a tombstone, or there was none at all and the last value is as long as the
first. -/
def RangeStays (first : Entry) (updates : List Entry) : Prop :=
  updates.getLastD first = .tombstone ∨
    .tombstone ∉ first :: updates ∧
      (first.value.map List.length) = (updates.getLastD first).value.map List.length

instance decidableKeyStays (key : Blob) : ∀ e updates, Decidable (KeyStays key e updates)
  | _, [] => isTrue trivial
  | e, .data value :: updates =>
    have := decidableKeyStays key (.data value) updates
    inferInstanceAs (Decidable (Reachable key e value ∧ KeyStays key (.data value) updates))
  | _, .tombstone :: updates => decidableKeyStays key .tombstone updates

instance (first : Entry) (updates : List Entry) : Decidable (RangeStays first updates) := by
  unfold RangeStays
  infer_instance

/-! ## A sequence of updates -/

/-- The value range that updates leave of `range`. -/
def leftRange (range : Option (Nat × Nat)) (updates : List Entry) : Option (Nat × Nat) :=
  if .tombstone ∈ updates then none else range

/-- The record that updates leave, if no update panics. -/
theorem updates_eq {key : Blob} {e : Entry} {r : Record} (hr : Canonical r key e)
    (he : Fits key e) {updates : List Entry} {records : List Record}
    (hrecords : List.Forall₂ (fun e record => encoded key e = some record) updates records)
    (r' : Record) :
    records.foldlM updateFromRecord r = some r' ↔
      KeyStays key e updates ∧
        r' = { of key (updates.getLastD e) with value := leftRange r.value updates } := by
  induction hrecords generalizing e r with
  | nil =>
    have hself : r = { of key e with value := r.value } := by
      obtain ⟨hblob, hkey⟩ := hr
      cases r
      simp only at hblob hkey
      rw [hblob, hkey]
    simp only [List.foldlM_nil, Option.pure_def, Option.some.injEq, KeyStays, true_and,
      List.getLastD_nil, leftRange, List.not_mem_nil, ↓reduceIte, ← hself]
    exact eq_comm
  | @cons new record updates records hnew _ ih =>
    obtain ⟨rfl, hfits⟩ := encoded_some hnew
    rw [List.foldlM_cons, updateFromRecord_eq hr he hfits]
    cases new with
    | data value =>
      dsimp only
      by_cases hreach : Reachable key e value
      · have hcanon : Canonical { of key (.data value) with value := r.value } key (.data value) :=
          ⟨rfl, rfl⟩
        rw [if_pos hreach, Option.bind_eq_bind, Option.bind_some, ih hcanon hfits]
        simp only [KeyStays, hreach, true_and, List.getLastD_cons, leftRange,
          List.mem_cons, reduceCtorEq, false_or]
      · simp [KeyStays, hreach]
    | tombstone =>
      dsimp only
      rw [Option.bind_eq_bind, Option.bind_some, ih (canonical_of key .tombstone) hfits]
      have hnone : (of key .tombstone).value = none := rfl
      simp only [KeyStays, List.getLastD_cons, leftRange, hnone, ite_self,
        List.mem_cons, true_or, ↓reduceIte]

/-- Values of one length have one range. -/
theorem value_range_iff (key : Blob) {value value' : Blob} :
    (of key (.data value)).value = (of key (.data value')).value ↔
      value.length = value'.length := by
  constructor
  · intro h
    exact (Prod.mk.inj (Option.some.inj h)).2
  · intro hlength
    simp only [of, keyOffset, logWidth, body, Entry.tail, List.length_append, hlength]

theorem leftRange_iff (key : Blob) (first : Entry) (updates : List Entry) :
    leftRange (of key first).value updates = (of key (updates.getLastD first)).value ↔
      RangeStays first updates := by
  have hlast : updates.getLastD first = first ∨ updates.getLastD first ∈ updates := by
    rcases List.eq_nil_or_concat updates with rfl | ⟨init, e, rfl⟩
    · exact Or.inl rfl
    · refine Or.inr ?_
      simp [List.concat_eq_append]
  unfold RangeStays leftRange
  cases hwritten : updates.getLastD first with
  | tombstone =>
    have hvalue : (of key .tombstone).value = none := rfl
    simp only [hvalue, true_or, iff_true, ite_eq_left_iff]
    intro hnot
    rcases hlast with hsame | hmem
    · rw [← hsame, hwritten]
      rfl
    · exact absurd (hwritten ▸ hmem) hnot
  | data value =>
    have hvalue : (of key (.data value)).value ≠ none := nofun
    simp only [reduceCtorEq, false_or, List.mem_cons, not_or]
    by_cases hmem : Entry.tombstone ∈ updates
    · simp only [hmem, ↓reduceIte, not_true_eq_false, and_false, false_and, iff_false]
      exact fun h => hvalue h.symm
    · rw [if_neg hmem]
      cases first with
      | tombstone =>
        simp only [not_true_eq_false, false_and, iff_false]
        exact fun h => hvalue h.symm
      | data value' =>
        rw [value_range_iff]
        simp [Entry.value, hmem]

/-- A record that was updated in place any number of times is the record encoded from its last write
if and only if every value that was written left the key in the blob, and the last write is a
tombstone or a value as long as the first one with no tombstone before it. -/
theorem updates_canonical_iff {key : Blob} {first : Entry} {r : Record}
    (hr : encoded key first = some r) {updates : List Entry} {records : List Record}
    (hrecords : List.Forall₂ (fun e record => encoded key e = some record) updates records) :
    (∃ r', records.foldlM updateFromRecord r = some r' ∧
      encoded key (updates.getLastD first) = some r' ∧
      r'.keySlice = some key ∧ r'.valueSlice = some (updates.getLastD first).value) ↔
    KeyStays key first updates ∧ RangeStays first updates := by
  obtain ⟨rfl, hfits⟩ := encoded_some hr
  have hupdates := updates_eq (canonical_of key first) hfits hrecords
  have hlast : Fits key (updates.getLastD first) := by
    rcases List.eq_nil_or_concat updates with rfl | ⟨init, e, rfl⟩
    · exact hfits
    · rw [List.concat_eq_append] at hrecords ⊢
      obtain ⟨record, _, hrecord⟩ :=
        exists_of_forall₂ hrecords (List.mem_append_right _ (List.mem_singleton_self e))
      rw [List.getLastD_concat]
      exact (encoded_some hrecord).2
  constructor
  · rintro ⟨r', hrun, hencoded, _⟩
    obtain ⟨hkeys, hr'⟩ := (hupdates r').mp hrun
    refine ⟨hkeys, (leftRange_iff key first updates).mp ?_⟩
    rw [(encoded_some hencoded).1] at hr'
    exact (congrArg Record.value hr').symm
  · rintro ⟨hkeys, hstays⟩
    have hleft := (leftRange_iff key first updates).mpr hstays
    refine ⟨of key (updates.getLastD first), ?_, encoded_of hlast, (canonical_of _ _).keySlice, ?_⟩
    · rw [hupdates, hleft]
      exact ⟨hkeys, rfl⟩
    · cases updates.getLastD first with
      | data value => exact of_valueSlice key value
      | tombstone => rfl

/-- A value grows, shrinks and grows back, past a length with a longer varint. -/
def grownUpdates : List Entry :=
  [.data (List.replicate 200 7), .data [], .data [9, 9]]

theorem updates_canonical_grown :
    ∃ r records, encoded [97] (.data [1, 2]) = some r ∧
    List.Forall₂ (fun e record => encoded [97] e = some record) grownUpdates records ∧
    ∃ r', records.foldlM updateFromRecord r = some r' ∧
      encoded [97] (grownUpdates.getLastD (.data [1, 2])) = some r' ∧
      r'.keySlice = some [97] ∧
      r'.valueSlice = some (grownUpdates.getLastD (.data [1, 2])).value := by
  have hfits : ∀ e ∈ Entry.data [1, 2] :: grownUpdates, Fits [97] e := by decide +kernel
  have hr := encoded_of (hfits _ (List.mem_cons_self ..))
  have hrecords : List.Forall₂ (fun e record => encoded [97] e = some record) grownUpdates
      (grownUpdates.map (of [97])) := by
    refine List.forall₂_map_right_iff.mpr (List.forall₂_same.mpr fun e he => ?_)
    exact encoded_of (hfits e (List.mem_cons_of_mem _ he))
  refine ⟨_, _, hr, hrecords, (updates_canonical_iff hr hrecords).mpr ?_⟩
  decide +kernel

/-- A value one byte longer than the first leaves the old range: its last byte is not read. -/
theorem longer_value_cut : ∃ r record r', encoded [97] (.data [1]) = some r ∧
    encoded [97] (.data [1, 2]) = some record ∧ r.updateFromRecord record = some r' ∧
    r'.valueSlice = some (some [1]) ∧ encoded [97] (.data [1, 2]) ≠ some r' := by
  have hrun :
      ((encoded [97] (.data [1])).bind fun r => (encoded [97] (.data [1, 2])).bind fun record =>
      (r.updateFromRecord record).map fun r' => (r'.valueSlice, decide (r' = record))) =
        some (some (some [1]), false) := by
    decide +kernel
  obtain ⟨r, hr, hrun⟩ := Option.bind_eq_some_iff.mp hrun
  obtain ⟨record, hrecord, hrun⟩ := Option.bind_eq_some_iff.mp hrun
  obtain ⟨r', hr', hrun⟩ := Option.map_eq_some_iff.mp hrun
  obtain ⟨hvalue, hne⟩ := Prod.mk.inj hrun
  refine ⟨r, record, r', hr, hrecord, hr', hvalue, fun heq => ?_⟩
  rw [hrecord] at heq
  exact of_decide_eq_false hne (Option.some.inj heq).symm

end Record

end Lsmlite
