import Lsmlite.CompactionTable

/-!
# The record stream

Records written one after another are read back one after another, by the decoder and by both
iterators.
-/

namespace Lsmlite
open Bytes

/-- A record that one of the two encoders returned. -/
def Encoded (r : Record) : Prop :=
  (∃ key value, encodeDataRecord key value = some r) ∨ ∃ key, encodeTombstoneRecord key = some r

/-- The bytes of `rs`. -/
def blobs (rs : List Record) : Blob := rs.flatMap (·.blob)

/-- `decode_disk_record`, `n` times, with the offset behind the last one. -/
def decodeRecords : Nat → Blob → Nat → Option (List (Option Record) × Nat)
  | 0, _, offset => some ([], offset)
  | n + 1, buffer, offset => do
    let (r, offset) ← decodeDiskRecord buffer offset
    let (rs, offset) ← decodeRecords n buffer offset
    return (r :: rs, offset)

theorem Encoded.entry {r : Record} (h : Encoded r) : ∃ w, recordOf w = r ∧ Record.Fits w.1 w.2 := by
  rcases h with ⟨key, value, h⟩ | ⟨key, h⟩
  · obtain ⟨rfl, hfits⟩ := Record.encodeDataRecord_some h
    exact ⟨(key, .data value), rfl, hfits⟩
  · obtain ⟨rfl, hfits⟩ := Record.encodeTombstoneRecord_some h
    exact ⟨(key, .tombstone), rfl, hfits⟩

theorem blobs_map (ws : Entries) : blobs (ws.map recordOf) = logBlob ws := by
  simp [blobs, logBlob, List.flatMap_map]

theorem decodeRecords_logBlob {ws : Entries} (hfits : ∀ w ∈ ws, Record.Fits w.1 w.2)
    (pre suf : Blob) :
    decodeRecords ws.length (pre ++ (logBlob ws ++ suf)) pre.length =
      some (ws.map fun w => some (recordOf w), (pre ++ logBlob ws).length) := by
  induction ws generalizing pre with
  | nil => simp [decodeRecords, logBlob]
  | cons w ws ih =>
    have hcons : logBlob (w :: ws) = (recordOf w).blob ++ logBlob ws := by simp [logBlob]
    have hdec := Record.decodeDiskRecord_of pre (logBlob ws ++ suf)
      (hfits w (List.mem_cons_self ..)) rfl
    have htail :=
      ih (fun w' hw' => hfits w' (List.mem_cons_of_mem _ hw')) (pre ++ (recordOf w).blob)
    rw [List.append_assoc, List.length_append] at htail
    rw [hcons, List.append_assoc, List.length_cons, decodeRecords, hdec]
    simp only [Option.bind_eq_bind, Option.bind_some, htail, Option.pure_def, List.map_cons,
      List.append_assoc]

/-- A table's iterator over records that stand in its data region. -/
theorem iterator_yields {ws : Entries} (hfits : ∀ w ∈ ws, Record.Fits w.1 w.2) {s s' : SSTable}
    {it : SSTableIterator} {pre suf : Blob} (hfaults : s.fd.faults = [])
    (hcontent : s.fd.content = pre ++ (logBlob ws ++ suf)) (hpre : pre.length = headerSize)
    (hend : s.index.dataBlockEnd = headerSize + (logBlob ws).length)
    (hnew : SSTableIterator.new s = some (it, s')) : it.Yields (ws.map recordOf) := by
  have hread := File.readExact_mid pre (logBlob ws) suf hpre.symm
    (show headerSize + (logBlob ws).length - headerSize = _ by omega)
  obtain ⟨pos, hfd⟩ : ∃ pos, s.fd = ⟨pre ++ (logBlob ws ++ suf), pos, []⟩ :=
    ⟨s.fd.pos, by rw [← hcontent, ← hfaults]⟩
  simp only [SSTableIterator.new, hend, hfd, File.seek_nil, hread, guard, Nat.le_add_right,
    ↓reduceIte, Option.bind_eq_bind, Option.bind_some, Option.pure_def] at hnew
  split at hnew
  · cases hnew
    exact yields_logBlob hfits [] rfl
  · cases hnew

/-- Records are decoded in order from wherever they stand, and the iterators of a log and of a
table return them and stop. -/
theorem record_stream {rs : List Record} (hrs : ∀ r ∈ rs, Encoded r) :
    (∀ pre suf, decodeRecords rs.length (pre ++ (blobs rs ++ suf)) pre.length =
      some (rs.map some, (pre ++ blobs rs).length)) ∧
    (WalIterator.new (blobs rs)).collect ((blobs rs).length + 1) = some rs ∧
    SSTableIterator.Yields ⟨blobs rs, 0⟩ rs ∧
    ∀ (s s' : SSTable) (it : SSTableIterator) (pre suf : Blob), s.fd.faults = [] →
      s.fd.content = pre ++ (blobs rs ++ suf) → pre.length = headerSize →
      s.index.dataBlockEnd = headerSize + (blobs rs).length →
      SSTableIterator.new s = some (it, s') → it.Yields rs := by
  obtain ⟨ws, rfl, hfits⟩ := exists_map fun r hr => (hrs r hr).entry
  rw [blobs_map]
  refine ⟨fun pre suf => ?_, ?_, yields_logBlob hfits [] rfl,
    fun s s' it pre suf hfaults hcontent hpre hend hnew =>
      iterator_yields hfits hfaults hcontent hpre hend hnew⟩
  · rw [List.length_map, List.map_map]
    exact decodeRecords_logBlob hfits pre suf
  · exact WalIterator.collect_logBlob hfits [] (Nat.lt_succ_self _)

/-- A data record and a tombstone. -/
theorem record_stream_two : ∃ r r', encodeDataRecord [97] [1, 2] = some r ∧
    encodeTombstoneRecord [98] = some r' ∧
    (WalIterator.new (blobs [r, r'])).collect ((blobs [r, r']).length + 1) = some [r, r'] := by
  refine ⟨_, _, rfl, rfl, (record_stream fun r hr => ?_).2.1⟩
  rcases List.mem_cons.mp hr with rfl | hr
  · exact Or.inl ⟨[97], [1, 2], rfl⟩
  · rw [List.mem_singleton.mp hr]
    exact Or.inr ⟨[98], rfl⟩

end Lsmlite
