import Lsmlite.MemtableBalance

/-!
# The size of a memtable

`current_size` is what `full` compares with the limit. `insert_node` counts the record of a new
node; `set_root` and an update in place count nothing.
-/

namespace Lsmlite

/-- A record that a log iterator yields. -/
def WalIterator.Yields (record : Record) : Prop :=
  ∃ it it' : WalIterator, it.next = some (some record, it')

theorem WalIterator.Yields.size_pos {record : Record} (h : WalIterator.Yields record) :
    0 < record.size := by
  obtain ⟨it, it', hnext⟩ := h
  unfold WalIterator.next at hnext
  split at hnext
  · cases hnext
  · obtain ⟨⟨r, offset⟩, hdecode, heq⟩ := Option.map_eq_some_iff.mp hnext
    cases heq
    have hlt := (Record.decodeDiskRecord_some hdecode).1
    rw [Record.decodeDiskRecord_size hdecode]
    exact Nat.sub_pos_of_lt hlt

namespace MemtableInner

/-- The encoded sizes of all records in the arena. -/
def totalSize (t : MemtableInner) : Nat := (t.arena.map (·.record.size)).sum

/-- The arena is within its capacity, as it must be for `len() == capacity()` to find it full. -/
def Roomy (t : MemtableInner) : Prop := t.arena.length ≤ t.capacity

/-- What `full` is meant to compare. -/
structure Accounted (t : MemtableInner) : Prop where
  size : t.currentSize = t.totalSize
  room : t.Roomy
  below : t.full = false → t.totalSize < t.maxSize

/-- After every call of the run the table is accounted. -/
def SizeAccounting (maxSize maxNodes : Nat) (wal : Wal) (calls : List Insertion) : Prop :=
  ∀ pre t, pre <+: calls → pre.foldlM insertion (new maxSize maxNodes wal) = some t → t.Accounted

/-- No call of the run puts a record into the table: a limit is zero, or the first call cannot
encode its record. -/
def TakesNothing (maxSize maxNodes : Nat) (calls : List Insertion) : Prop :=
  maxNodes = 0 ∨ maxSize = 0 ∨ ∀ call, calls.head? = some call → call.record = none

theorem roomy_new (maxSize maxNodes : Nat) (wal : Wal) : (new maxSize maxNodes wal).Roomy :=
  Nat.zero_le _

theorem Roomy.insertion {t t' : MemtableInner} {tree : RedBlack.RbTree} (h : t.Roomy)
    (hshape : t.Shape tree) {call : Insertion} (hcall : t.insertion call = some t') : t'.Roomy := by
  rcases insertion_cases hcall with ⟨_, rfl⟩ | ⟨hfull, record, wal, _, hinsert⟩
  · exact h
  · have hgrown := ((hshape.with_wal wal).insertNode_some hinsert).2
    have hlength := hgrown.length
    have hcapacity := hgrown.capacity
    have hroom : t.arena.length ≠ t.capacity := by
      intro heq
      simp [full, heq] at hfull
    unfold Roomy at h ⊢
    dsimp only at hlength hcapacity
    omega

/-- The arena never outgrows its capacity. -/
theorem Roomy.insertions {t t' : MemtableInner} {tree : RedBlack.RbTree} (h : t.Roomy)
    (hshape : t.Shape tree) {calls : List Insertion}
    (hrun : calls.foldlM MemtableInner.insertion t = some t') : t'.Roomy := by
  induction calls generalizing t tree with
  | nil =>
    cases hrun
    exact h
  | cons call calls ih =>
    rw [List.foldlM_cons] at hrun
    obtain ⟨t1, hcall, hrun⟩ := Option.bind_eq_some_iff.mp hrun
    obtain ⟨tree1, hshape1⟩ := hshape.insertion hcall
    exact ih (h.insertion hshape hcall) hshape1 hrun

/-- A full table stays as it is. -/
theorem full_stays {t t' : MemtableInner} (hfull : t.full = true) {calls : List Insertion}
    (hrun : calls.foldlM insertion t = some t') : t' = t := by
  induction calls with
  | nil =>
    cases hrun
    rfl
  | cons call calls ih =>
    rw [List.foldlM_cons] at hrun
    obtain ⟨t1, hcall, hrun⟩ := Option.bind_eq_some_iff.mp hrun
    rcases insertion_cases hcall with ⟨_, hsame⟩ | ⟨hroom, _⟩
    · rw [hsame] at hrun
      exact ih hrun
    · rw [hfull] at hroom
      cases hroom

theorem full_new (maxSize maxNodes : Nat) (wal : Wal) :
    (new maxSize maxNodes wal).full = true ↔ maxNodes = 0 ∨ maxSize = 0 := by
  rw [full, Bool.or_eq_true, decide_eq_true_eq, decide_eq_true_eq]
  exact or_congr eq_comm Nat.le_zero

theorem accounted_new (maxSize maxNodes : Nat) (wal : Wal) :
    (new maxSize maxNodes wal).Accounted where
  size := rfl
  room := roomy_new maxSize maxNodes wal
  below hfull := by
    have hne : ¬(maxNodes = 0 ∨ maxSize = 0) := by
      rw [← full_new maxSize maxNodes wal, hfull]
      exact Bool.false_ne_true
    exact Nat.pos_of_ne_zero fun hzero => hne (Or.inr hzero)

/-- A call on a table with room inserts its record. -/
theorem insertion_open {t : MemtableInner} (hfull : t.full = false) {call : Insertion}
    {record : Record} (hrecord : call.record = some record) :
    ∃ wal, t.insertion call = { t with wal := wal }.insertNode (.newFromRecord record) := by
  cases call with
  | data key value clock =>
    refine ⟨t.wal.writeLog record clock, ?_⟩
    have hnode : MemtableNode.newDataRecord key value = some (.newFromRecord record) :=
      Option.map_eq_some_iff.mpr ⟨record, hrecord, rfl⟩
    simp only [insertion, insertDataRecord, hfull, hnode, Bool.false_eq_true, ↓reduceIte,
      Option.bind_eq_bind, Option.bind_some, Option.bind_assoc]
    exact Option.bind_fun_some _
  | tombstone key clock =>
    refine ⟨t.wal.writeLog record clock, ?_⟩
    have hnode : MemtableNode.newTombstoneRecord key = some (.newFromRecord record) :=
      Option.map_eq_some_iff.mpr ⟨record, hrecord, rfl⟩
    simp only [insertion, insertTombstoneRecord, hfull, hnode, Bool.false_eq_true, ↓reduceIte,
      Option.bind_eq_bind, Option.bind_some, Option.bind_assoc]
    exact Option.bind_fun_some _
  | fromWal r =>
    cases hrecord
    refine ⟨t.wal, ?_⟩
    simp only [insertion, insertRecordFromWal, hfull, Bool.false_eq_true, ↓reduceIte]

/-- The first record that the table takes is not counted. -/
theorem first_uncounted {maxSize maxNodes : Nat} {wal : Wal} {call : Insertion} {record : Record}
    (hfull : (new maxSize maxNodes wal).full = false) (hrecord : call.record = some record) :
    ∃ t, (new maxSize maxNodes wal).insertion call = some t ∧ t.currentSize = 0 ∧
      t.totalSize = record.size := by
  obtain ⟨log, hinsertion⟩ := insertion_open hfull hrecord
  refine ⟨setRoot { new maxSize maxNodes wal with wal := log } (.newFromRecord record) 0, ?_, rfl,
    Nat.add_zero _⟩
  rw [hinsertion]
  rfl

theorem Insertion.size_pos {call : Insertion}
    (hwal : ∀ record, call = .fromWal record → WalIterator.Yields record) {record : Record}
    (hrecord : call.record = some record) : 0 < record.size := by
  have hof : ∀ key e, 0 < (Record.of key e).size := fun key e =>
    List.length_pos_iff.mpr (blob_ne_nil key e)
  cases call with
  | data key value clock =>
    rw [(Record.encodeDataRecord_some hrecord).1]
    exact hof key (.data value)
  | tombstone key clock =>
    rw [(Record.encodeTombstoneRecord_some hrecord).1]
    exact hof key .tombstone
  | fromWal r =>
    cases hrecord
    exact (hwal record rfl).size_pos

/-- In every run the arena stays within its capacity; the size is kept, and with it the bound before
each accepted write, if and only if the table never takes a record. -/
theorem accounting_iff {maxSize maxNodes : Nat} {wal : Wal} {calls : List Insertion}
    (hwal : ∀ record, Insertion.fromWal record ∈ calls → WalIterator.Yields record) :
    (∀ pre t, pre <+: calls → pre.foldlM insertion (new maxSize maxNodes wal) = some t →
      t.arena.length ≤ t.capacity) ∧
    (SizeAccounting maxSize maxNodes wal calls ↔ TakesNothing maxSize maxNodes calls) := by
  constructor
  · intro pre t _ hrun
    exact (roomy_new maxSize maxNodes wal).insertions (shape_new maxSize maxNodes wal) hrun
  · constructor
    · intro haccounting
      by_contra htakes
      unfold TakesNothing at htakes
      push Not at htakes
      obtain ⟨hnodes, hsize, call, hhead, hsome⟩ := htakes
      obtain ⟨record, hrecord⟩ := Option.ne_none_iff_exists'.mp hsome
      have hfull : (new maxSize maxNodes wal).full = false := by
        rw [← Bool.not_eq_true, full_new]
        exact not_or.mpr ⟨hnodes, hsize⟩
      obtain ⟨t, ht, hcurrent, htotal⟩ := first_uncounted hfull hrecord
      obtain ⟨rest, rfl⟩ : ∃ rest, calls = call :: rest := by
        cases calls with
        | nil => cases hhead
        | cons c rest =>
          cases hhead
          exact ⟨rest, rfl⟩
      have haccounted := haccounting [call] t ⟨rest, rfl⟩ (by
        rw [List.foldlM_cons, ht]
        rfl)
      have hpos := Insertion.size_pos (fun r hr => hwal r (hr ▸ List.mem_cons_self ..)) hrecord
      have heq := haccounted.size
      omega
    · intro htakes pre t hpre hrun
      suffices t = new maxSize maxNodes wal by
        rw [this]
        exact accounted_new maxSize maxNodes wal
      by_cases hfull : (new maxSize maxNodes wal).full = true
      · exact full_stays hfull hrun
      · have hnone : ∀ call, calls.head? = some call → call.record = none := by
          rw [full_new, not_or] at hfull
          exact (htakes.resolve_left hfull.1).resolve_left hfull.2
        cases pre with
        | nil =>
          cases hrun
          rfl
        | cons call pre =>
          obtain ⟨rest, rfl⟩ := hpre
          rw [List.foldlM_cons] at hrun
          obtain ⟨t1, hcall, _⟩ := Option.bind_eq_some_iff.mp hrun
          rcases insertion_cases hcall with ⟨hfull', _⟩ | ⟨_, record, _, hrecord, _⟩
          · exact absurd hfull' hfull
          · rw [hnone call rfl] at hrecord
            cases hrecord

/-- A replayed record, a new key and an overwrite. -/
def accountedCalls : List Insertion :=
  [.fromWal (Record.of [97] (.data [1])), .data [98] [2] ⟨0, 0⟩, .data [97] [3] ⟨0, 0⟩]

theorem accounting_overwritten :
    ∃ t, accountedCalls.foldlM insertion (new 100 10 (Wal.new 0 0 [])) = some t ∧
    t.arena.length = 2 ∧ t.currentSize = 6 ∧ t.totalSize = 12 ∧
    (∀ pre t, pre <+: accountedCalls → pre.foldlM insertion (new 100 10 (Wal.new 0 0 [])) = some t →
      t.arena.length ≤ t.capacity) ∧
    (SizeAccounting 100 10 (Wal.new 0 0 []) accountedCalls ↔
      TakesNothing 100 10 accountedCalls) := by
  have hrun : (accountedCalls.foldlM insertion (new 100 10 (Wal.new 0 0 []))).map
      (fun t => decide (t.arena.length = 2 ∧ t.currentSize = 6 ∧ t.totalSize = 12)) =
          some true := by
    decide +kernel
  obtain ⟨t, ht, hfacts⟩ := Option.map_eq_some_iff.mp hrun
  obtain ⟨hlength, hcurrent, htotal⟩ := of_decide_eq_true hfacts
  refine ⟨t, ht, hlength, hcurrent, htotal, accounting_iff fun record hrecord => ?_⟩
  have hreplayed : record = Record.of [97] (.data [1]) := by
    simpa [accountedCalls] using hrecord
  rw [hreplayed]
  exact ⟨WalIterator.new (Record.of [97] (.data [1])).blob,
    ⟨(Record.of [97] (.data [1])).blob, 6⟩, by decide +kernel⟩

/-- A table of eight bytes at most takes a record of eight bytes and has room. -/
theorem first_write_uncounted : ∃ t, [Insertion.data [97] [1, 2, 3] ⟨0, 0⟩].foldlM insertion
      (new 8 10 (Wal.new 0 0 [])) = some t ∧
    t.currentSize = 0 ∧ t.totalSize = 8 ∧ t.full = false ∧
    ¬ SizeAccounting 8 10 (Wal.new 0 0 []) [.data [97] [1, 2, 3] ⟨0, 0⟩] := by
  have hrun :
      ([Insertion.data [97] [1, 2, 3] ⟨0, 0⟩].foldlM insertion (new 8 10 (Wal.new 0 0 []))).map
      (fun t => (t.currentSize, t.totalSize, t.full)) = some (0, 8, false) := by
    decide +kernel
  obtain ⟨t, ht, heq⟩ := Option.map_eq_some_iff.mp hrun
  obtain ⟨hcurrent, htotal, hfull⟩ : t.currentSize = 0 ∧ t.totalSize = 8 ∧ t.full = false := by
    simpa using heq
  refine ⟨t, ht, hcurrent, htotal, hfull, fun haccounting => ?_⟩
  have hsize := (haccounting _ t List.prefix_rfl ht).size
  omega

end MemtableInner

end Lsmlite
