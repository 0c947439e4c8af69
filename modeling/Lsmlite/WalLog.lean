import Lsmlite.Lib.KeyValue
import Lsmlite.RecordCodec
import Lsmlite.Wal

/-!
# What a log holds

A log is the records of the writes to one memtable, the older ones in the file and the newer
ones in the buffer. Reading a file back gives its records.
-/

namespace Lsmlite

/-- Writes by key, oldest first. -/
abbrev Entries := List (Blob × Entry)

/-- The bytes of the records of `ws`. -/
def logBlob (ws : Entries) : Blob := ws.flatMap fun w => (Record.of w.1 w.2).blob

theorem logBlob_append (ws ws' : Entries) : logBlob (ws ++ ws') = logBlob ws ++ logBlob ws' :=
  List.flatMap_append

theorem logBlob_singleton (key : Blob) (e : Entry) :
    logBlob [(key, e)] = (Record.of key e).blob := by
  simp [logBlob]

namespace Wal

/-- The file has the records of `filed` and the buffer those of `buffered`. -/
structure Holds (wal : Wal) (filed buffered : Entries) : Prop where
  fd : wal.fd = ⟨logBlob filed, (logBlob filed).length, []⟩
  buffer : wal.buffer = logBlob buffered

theorem holds_new (fileTs now : Nat) : (Wal.new fileTs now []).Holds [] [] := ⟨rfl, rfl⟩

/-- A write moves the buffer to the file or leaves it, and buffers its own record. -/
theorem Holds.writeLog {wal : Wal} {filed buffered : Entries} (h : wal.Holds filed buffered)
    (key : Blob) (e : Entry) (clock : Clock) :
    (wal.writeLog (Record.of key e) clock).Holds filed (buffered ++ [(key, e)]) ∨
    (wal.writeLog (Record.of key e) clock).Holds (filed ++ buffered) [(key, e)] := by
  unfold Wal.writeLog
  split
  · refine Or.inr ⟨?_, ?_⟩
    · simp only [Wal.flush, h.fd, h.buffer, File.write_append, logBlob_append]
    · simp [Wal.flush, logBlob_singleton]
  · refine Or.inl ⟨h.fd, ?_⟩
    simp only [h.buffer, logBlob_append, logBlob_singleton]

end Wal

theorem blob_ne_nil (key : Blob) (e : Entry) : (Record.of key e).blob ≠ [] := by
  simp [Record.of]

namespace WalIterator

/-- The iterator's loop behind `pre` reads the records of `ws`. -/
theorem collect_logBlob {ws : Entries} (hfits : ∀ w ∈ ws, Record.Fits w.1 w.2) (pre : Blob)
    {fuel : Nat} (hfuel : (logBlob ws).length < fuel) :
    collect fuel ⟨pre ++ logBlob ws, pre.length⟩ = some (ws.map fun w => Record.of w.1 w.2) := by
  induction ws generalizing pre fuel with
  | nil =>
    obtain ⟨fuel, rfl⟩ : ∃ k, fuel = k + 1 := ⟨fuel - 1, by omega⟩
    simp [collect, next, logBlob]
  | cons w ws ih =>
    obtain ⟨fuel, rfl⟩ : ∃ k, fuel = k + 1 := ⟨fuel - 1, by omega⟩
    have hcons : logBlob (w :: ws) = (Record.of w.1 w.2).blob ++ logBlob ws := by simp [logBlob]
    have hpos := List.length_pos_iff.mpr (blob_ne_nil w.1 w.2)
    rw [hcons, List.length_append] at hfuel
    have hnext : next ⟨pre ++ logBlob (w :: ws), pre.length⟩ =
        some (some (Record.of w.1 w.2),
          ⟨pre ++ logBlob (w :: ws), pre.length + (Record.of w.1 w.2).blob.length⟩) := by
      rw [next, hcons, if_neg (by simp only [List.length_append]; omega),
        Record.decodeDiskRecord_of _ _ (hfits w (List.mem_cons_self ..)) rfl]
      rfl
    have htail := ih (fun w' hw' => hfits w' (List.mem_cons_of_mem _ hw'))
      (pre ++ (Record.of w.1 w.2).blob) (show _ < fuel by omega)
    rw [List.append_assoc, ← hcons, List.length_append] at htail
    simp only [collect, hnext, Option.bind_eq_bind, Option.bind_some, htail, Option.pure_def,
      List.map_cons]

end WalIterator

end Lsmlite
