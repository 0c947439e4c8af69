import Lsmlite.Database

/-!
# The read path

What `get` returns, as a function of what each layer answers for the key. The documented rule is
`newest`: the newest layer that has the key decides, a tombstone with nothing. `get` does not
keep a memtable's tombstone apart from an absent key, so it follows the rule exactly when no
older layer would answer with data (`NothingBeneath`).
-/

namespace Lsmlite

/-- The newest layer that is not absent decides. -/
def newest : List MemtableQuery → Option Blob
  | [] => none
  | .data value :: _ => some value
  | .tombstone :: _ => none
  | .none :: older => newest older

/-- Some layer has the key, and the newest of those has a tombstone. -/
def newestIsTombstone : List MemtableQuery → Bool
  | [] => false
  | .data _ :: _ => false
  | .tombstone :: _ => true
  | .none :: older => newestIsTombstone older

/-- What one SSTable answers: its value, a tombstone or nothing. -/
def SSTable.answer (h : Hashing) (s : SSTable) (key : Blob) : Option MemtableQuery :=
  match s.search h key with
  | some (.ok value, _) => some (.data value)
  | some (.error .tombstone, _) => some .tombstone
  | some (.error .diskRecordNotFound, _) => some .none
  | _ => none

/-- What every layer answers for a key: the active memtable, the immutable queue from its back,
and the SSTables from the front. -/
structure LayerAnswers where
  active : MemtableQuery
  queue : List MemtableQuery
  tables : List MemtableQuery
  deriving DecidableEq, Repr

def LayerAnswers.all (a : LayerAnswers) : List MemtableQuery := a.active :: (a.queue ++ a.tables)

/-- The layers of `db` answer `a`. -/
structure LsmliteInner.Answers (h : Hashing) (db : LsmliteInner) (key : Blob) (a : LayerAnswers) :
    Prop where
  active : db.memtable.get key = some a.active
  queue : db.immutable.reverse.mapM (·.get key) = some a.queue
  tables : db.sstableCache.cache.mapM (·.answer h key) = some a.tables

/-- Under a tombstone that decides in the active memtable or in the queue, no layer that `get`
goes on to would answer with data. -/
def LayerAnswers.NothingBeneath (a : LayerAnswers) : Prop :=
  (a.active = .tombstone → newest a.queue = none ∧ newest a.tables = none) ∧
  (a.active = .none → newestIsTombstone a.queue = true → newest a.tables = none)

instance (a : LayerAnswers) : Decidable a.NothingBeneath :=
  inferInstanceAs (Decidable (_ ∧ _))

theorem newest_append (qs rest : List MemtableQuery) :
    newest (qs ++ rest) =
      if newestIsTombstone qs then none else (newest qs).or (newest rest) := by
  induction qs with
  | nil => rfl
  | cons q qs ih =>
    cases q with
    | data value => rfl
    | tombstone => rfl
    | none => exact ih

theorem newest_of_tombstone {qs : List MemtableQuery} (h : newestIsTombstone qs = true) :
    newest qs = none := by
  induction qs with
  | nil => rfl
  | cons q qs ih =>
    cases q with
    | data => simp [newestIsTombstone] at h
    | tombstone => rfl
    | none => exact ih h

/-- The queue's loop finds what the rule says. -/
theorem getLoop_newest (key : Blob) {tables : List MemtableInner} {qs : List MemtableQuery}
    (h : tables.mapM (·.get key) = some qs) :
    (ImmutableMemtable.getLoop key tables).map LsmliteInner.readQuery = some (newest qs) := by
  induction tables generalizing qs with
  | nil =>
    cases h
    rfl
  | cons t tables ih =>
    simp only [List.mapM_cons, Option.bind_eq_bind, Option.bind_eq_some_iff, Option.pure_def,
      Option.some.injEq] at h
    obtain ⟨q, hq, qs', hqs, rfl⟩ := h
    simp only [ImmutableMemtable.getLoop, hq, Option.bind_eq_bind, Option.bind_some]
    cases q with
    | data => rfl
    | tombstone => rfl
    | none => simpa only [newest] using ih hqs

/-- The cache's loop finds what the rule says, with a tombstone turned into "not found". -/
theorem searchTables_newest (h : Hashing) (key : Blob) {tables : List SSTable}
    {qs : List MemtableQuery} (hq : tables.mapM (·.answer h key) = some qs) :
    ∃ tables', SSTableCache.searchTables h key tables =
      some (match newest qs with
        | some value => .ok value
        | none => .error .diskRecordNotFound, tables') := by
  induction tables generalizing qs with
  | nil =>
    cases hq
    exact ⟨[], rfl⟩
  | cons s tables ih =>
    simp only [List.mapM_cons, Option.bind_eq_bind, Option.bind_eq_some_iff, Option.pure_def,
      Option.some.injEq] at hq
    obtain ⟨q, hs, qs', hqs, rfl⟩ := hq
    simp only [SSTableCache.searchTables]
    unfold SSTable.answer at hs
    split at hs
    · rename_i value s' hsearch
      cases hs
      exact ⟨s' :: tables, by rw [hsearch]; rfl⟩
    · rename_i s' hsearch
      cases hs
      exact ⟨s' :: tables, by rw [hsearch]; rfl⟩
    · rename_i s' hsearch
      cases hs
      obtain ⟨tables', ht⟩ := ih hqs
      exact ⟨s' :: tables', by
        rw [hsearch]; simp only [Option.bind_eq_bind, Option.bind_some, ht]; rfl⟩
    · cases hs

/-- `get` takes the first data the three reads return. -/
theorem get_first_data {h : Hashing} {db : LsmliteInner} {key : Blob} {a : LayerAnswers}
    (hp : db.poisoned = false) (ha : db.Answers h key a) :
    (db.get h key).map (·.1) =
      some ((LsmliteInner.readQuery a.active).or ((newest a.queue).or (newest a.tables))) := by
  have hqueue := getLoop_newest key ha.queue
  obtain ⟨tables', htables⟩ := searchTables_newest h key ha.tables
  simp only [LsmliteInner.get, LsmliteInner.checkPoisonFlag, hp, Bool.not_false, guard, ↓reduceIte,
    Option.pure_def, Option.bind_eq_bind, Option.bind_some, LsmliteInner.readMemtable, ha.active,
    Option.map_some, LsmliteInner.readImmutableTable, ImmutableMemtable.get, hqueue,
    SSTableCache.search, htables]
  cases LsmliteInner.readQuery a.active with
  | some => rfl
  | none =>
    cases newest a.queue with
    | some => rfl
    | none => cases newest a.tables <;> rfl

/-- `get` returns what the newest layer with the key says exactly when nothing lies beneath a
deciding memtable tombstone. -/
theorem get_newest_iff {h : Hashing} {db : LsmliteInner} {key : Blob} {a : LayerAnswers}
    (hp : db.poisoned = false) (ha : db.Answers h key a) :
    (db.get h key).map (·.1) = some (newest a.all) ↔ a.NothingBeneath := by
  rw [get_first_data hp ha, Option.some.injEq, LayerAnswers.all, LayerAnswers.NothingBeneath]
  cases a.active with
  | data value => simp [newest, LsmliteInner.readQuery]
  | tombstone =>
    simp only [newest, LsmliteInner.readQuery, Option.none_or, Option.or_eq_none_iff,
      forall_const, reduceCtorEq, false_implies, and_true]
  | none =>
    simp only [newest, LsmliteInner.readQuery, Option.none_or, newest_append, reduceCtorEq,
      false_implies, true_and, forall_const]
    by_cases ht : newestIsTombstone a.queue = true
    · simp [ht, newest_of_tombstone ht]
    · simp [ht]

def flatClock : LsmliteInner.WriteClock := ⟨⟨0, 0⟩, ⟨1, 0⟩, ⟨0, 0⟩⟩

/-- An empty database with room for one node in a memtable. -/
def tinyDb : LsmliteInner where
  memtable := MemtableInner.new 100 1 (Wal.new 0 0 [])
  immutable := []
  sstableCache := SSTableCache.new 10
  poisoned := false
  maxSize := 100
  maxNodes := 1

/-- `set(k, v)`, then `delete(k)` into the next memtable. -/
def deletedDb : Option LsmliteInner := do
  let db ← tinyDb.set [107] [118] flatClock
  db.delete [107] flatClock

/-- The deleted value comes back from the queue. -/
theorem get_newest_fails : ∃ db, deletedDb = some db ∧ db.poisoned = false ∧
    db.Answers flatHashing [107] ⟨.tombstone, [.data [118]], []⟩ ∧
    newest (LayerAnswers.all ⟨.tombstone, [.data [118]], []⟩) = none ∧
    (db.get flatHashing [107]).map (·.1) = some (some [118]) := by
  refine ⟨_, rfl, rfl, ⟨by decide, by decide, by decide⟩, rfl, by decide⟩

theorem get_newest_iff_deleted : ∃ db, deletedDb = some db ∧
    ¬ (db.get flatHashing [107]).map (·.1) =
      some (newest (LayerAnswers.all ⟨.tombstone, [.data [118]], []⟩)) :=
  ⟨_, rfl, fun he => absurd
    ((get_newest_iff (a := ⟨.tombstone, [.data [118]], []⟩) rfl
      ⟨by decide, by decide, by decide⟩).mp he) (by decide)⟩

end Lsmlite
