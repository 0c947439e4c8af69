import Lsmlite.MemtableMap

/-!
# Writes to a memtable and their replay
-/

namespace Lsmlite.MemtableInner
open KeyValue

/-- `Memtable::insert` or `Memtable::delete`. -/
def write (t : MemtableInner) (key : Blob) (entry : Entry) (clock : Clock) :
    Option (Except MemtableError MemtableInner) :=
  match entry with
  | .data value => t.insertDataRecord key value clock
  | .tombstone => t.insertTombstoneRecord key clock

theorem Holds.with_wal {t : MemtableInner} {es : Entries} (h : t.Holds es) (wal : Wal) :
    { t with wal := wal }.Holds es := by
  obtain ⟨⟨tree, slot, htree, hes⟩, hsorted, hfits⟩ := h
  exact ⟨⟨tree, slot, ⟨⟨htree.held.path, htree.held.linked, htree.held.root, htree.held.nodup⟩,
    htree.black, htree.perm, htree.canonical⟩, hes⟩, hsorted, hfits⟩

/-- A write encodes its record, logs it and inserts it, unless the table is full. -/
theorem write_eq (t : MemtableInner) (key : Blob) (e : Entry) (clock : Clock) :
    t.write key e clock =
      if t.full then some (.error (.tableFull key (match e with
        | .data value => some value
        | .tombstone => none)))
      else if Record.Fits key e then
        (({ t with wal := t.wal.writeLog (Record.of key e) clock }).insertNode
          (.newFromRecord (Record.of key e))).map .ok
      else none := by
  cases e with
  | data value =>
    simp only [write, insertDataRecord]
    split
    · rfl
    · split
      · rename_i hfits
        simp only [MemtableNode.newDataRecord, Record.newDataRecord,
          Record.encodeDataRecord_eq hfits, Option.bind_eq_bind, Option.bind_some,
          Option.pure_def, Option.map_eq_bind]
        rfl
      · rename_i hfits
        have hnone : encodeDataRecord key value = none := by
          cases henc : encodeDataRecord key value with
          | none => rfl
          | some r => exact absurd (Record.encodeDataRecord_some henc).2 hfits
        simp only [MemtableNode.newDataRecord, Record.newDataRecord, hnone, Option.map_none,
          Option.bind_eq_bind, Option.bind_none]
  | tombstone =>
    simp only [write, insertTombstoneRecord]
    split
    · rfl
    · split
      · rename_i hfits
        simp only [MemtableNode.newTombstoneRecord, Record.newTombstoneRecord,
          Record.encodeTombstoneRecord_eq hfits, Option.bind_eq_bind, Option.bind_some,
          Option.pure_def, Option.map_eq_bind]
        rfl
      · rename_i hfits
        have hnone : encodeTombstoneRecord key = none := by
          cases henc : encodeTombstoneRecord key with
          | none => rfl
          | some r => exact absurd (Record.encodeTombstoneRecord_some henc).2 hfits
        simp only [MemtableNode.newTombstoneRecord, Record.newTombstoneRecord, hnone,
          Option.map_none, Option.bind_eq_bind, Option.bind_none]

theorem write_full {t : MemtableInner} (h : t.full = true) (key : Blob) (e : Entry)
    (clock : Clock) :
    ∃ err, t.write key e clock = some (.error err) := by
  rw [write_eq, if_pos h]
  exact ⟨_, rfl⟩

/-- A write that returns found the table full, or inserted and logged its record. -/
theorem Holds.write_some {t : MemtableInner} {es : Entries} (h : t.Holds es) {key : Blob}
    {e : Entry} {clock : Clock} {r : Except MemtableError MemtableInner}
    (hw : t.write key e clock = some r) :
    (t.full = true ∧ ∃ err, r = .error err) ∨
    t.full = false ∧ ∃ t', r = .ok t' ∧
      Inserted { t with wal := t.wal.writeLog (Record.of key e) clock } es key e t' := by
  rw [write_eq] at hw
  split at hw
  · rename_i hfull
    cases hw
    exact Or.inl ⟨hfull, _, rfl⟩
  · rename_i hfull
    split at hw
    · rename_i hfits
      rw [Option.map_eq_some_iff] at hw
      obtain ⟨t', ht', rfl⟩ := hw
      have h' := h.with_wal (t.wal.writeLog (Record.of key e) clock)
      refine Or.inr ⟨by simpa using hfull, t', rfl, ?_⟩
      by_cases hreach : Writable es key e
      · obtain ⟨t'', ht'', hins⟩ := h'.insertNode hfits hreach
        cases ht'.symm.trans ht''
        exact hins
      · rw [h'.insertNode_panics hfits hreach] at ht'
        cases ht'
    · cases hw

/-- Only a full table turns a write away. -/
theorem full_of_error {t : MemtableInner} {key : Blob} {e : Entry} {clock : Clock}
    {err : MemtableError} (hw : t.write key e clock = some (.error err)) : t.full = true := by
  by_contra hfull
  rw [write_eq, if_neg hfull] at hw
  split at hw
  · obtain ⟨_, _, herr⟩ := Option.map_eq_some_iff.mp hw
    cases herr
  · cases hw

/-- A write that finds room, fits a `Vec` and does not panic in place returns. -/
theorem Holds.write_ok {t : MemtableInner} {es : Entries} (h : t.Holds es) {key : Blob} {e : Entry}
    (hfull : t.full = false) (hfits : Record.Fits key e) (hreach : Writable es key e)
    (clock : Clock) : ∃ t', t.write key e clock = some (.ok t') ∧
      Inserted { t with wal := t.wal.writeLog (Record.of key e) clock } es key e t' := by
  obtain ⟨t', ht', hins⟩ :=
    (h.with_wal (t.wal.writeLog (Record.of key e) clock)).insertNode hfits hreach
  refine ⟨t', ?_, hins⟩
  rw [write_eq, if_neg (by simp [hfull]), if_pos hfits, ht']
  rfl

/-- A replay that ends holds what the writes make of the table. -/
theorem Holds.replay {t t' : MemtableInner} {pre ws : Entries} (h : t.Holds (ofWrites pre))
    (hfits : ∀ w ∈ ws, Record.Fits w.1 w.2)
    (hr : (ws.map fun w => Record.of w.1 w.2).foldlM insertRecordFromWal t = some t') :
    t'.Holds (ofWrites (pre ++ ws)) ∧ t'.wal = t.wal := by
  induction ws generalizing t pre with
  | nil =>
    cases hr
    exact ⟨by simpa using h, rfl⟩
  | cons w ws ih =>
    simp only [List.map_cons, List.foldlM_cons, Option.bind_eq_bind, Option.bind_eq_some_iff] at hr
    obtain ⟨t1, h1, hr⟩ := hr
    have hw := hfits w (List.mem_cons_self ..)
    unfold insertRecordFromWal at h1
    split at h1
    · cases h1
    have hins : Inserted t (ofWrites pre) w.1 w.2 t1 := by
      by_cases hreach : Writable (ofWrites pre) w.1 w.2
      · obtain ⟨t2, h2, hins⟩ := h.insertNode hw hreach
        cases h1.symm.trans h2
        exact hins
      · rw [h.insertNode_panics hw hreach] at h1
        cases h1
    have hholds := hins.holds
    rw [← ofWrites_snoc] at hholds
    obtain ⟨h3, h4⟩ := ih hholds (fun w' hw' => hfits w' (List.mem_cons_of_mem _ hw')) hr
    rw [List.append_assoc] at h3
    exact ⟨h3, h4.trans hins.wal⟩

/-- A log of encoded writes is replayed write by write. -/
theorem fromWal_logBlob {ws : Entries} (hfits : ∀ w ∈ ws, Record.Fits w.1 w.2)
    (maxSize maxNodes : Nat) (wal : Wal) :
    fromWal (logBlob ws) maxSize maxNodes wal =
      (ws.map fun w => Record.of w.1 w.2).foldlM insertRecordFromWal
        (new maxSize maxNodes wal) := by
  have hcollect := WalIterator.collect_logBlob hfits [] (Nat.lt_succ_self _)
  rw [List.nil_append, List.length_nil] at hcollect
  rw [fromWal, WalIterator.new, hcollect]
  rfl

theorem fromWal_holds {ws : Entries} (hfits : ∀ w ∈ ws, Record.Fits w.1 w.2)
    {maxSize maxNodes : Nat} {wal : Wal} {t : MemtableInner}
    (h : fromWal (logBlob ws) maxSize maxNodes wal = some t) :
    t.Holds (ofWrites ws) ∧ t.wal = wal := by
  rw [fromWal_logBlob hfits] at h
  have hnew : (new maxSize maxNodes wal).Holds (ofWrites []) := holds_new maxSize maxNodes wal
  exact hnew.replay hfits h

end Lsmlite.MemtableInner
