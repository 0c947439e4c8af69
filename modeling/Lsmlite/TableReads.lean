import Lsmlite.EngineCache

/-!
# Reads of the memtables

A memtable answers with the last entry it took for a key, if the record stored for the key is in
step: an update in place leaves the value range of the first write.
-/

namespace Lsmlite
open KeyValue

/-- The record's ranges are those its own bytes say. -/
def Record.InStep (r : Record) : Prop := decodeDiskRecord r.blob 0 = some (some r, r.blob.length)

instance (r : Record) : Decidable r.InStep := inferInstanceAs (Decidable (_ = _))

theorem Record.Canonical.inStep_iff {r : Record} {key : Blob} {e : Entry} (h : r.Canonical key e)
    (hfits : Record.Fits key e) : r.InStep ↔ r = Record.of key e := by
  have hdec := Record.decodeDiskRecord_of [] [] hfits rfl
  rw [List.nil_append, List.append_nil, List.length_nil, Nat.zero_add] at hdec
  have hblob : r.blob = (Record.of key e).blob := h.blob
  rw [Record.InStep, hblob, hdec]
  constructor
  · intro heq
    cases heq
    rfl
  · rintro rfl
    rfl

theorem readQuery_queryOf (e : Option Entry) :
    LsmliteInner.readQuery (queryOf e) = readEntry e := by
  cases e with
  | none => rfl
  | some e => cases e <;> rfl

namespace Table

/-- The records stored for `key` are in step. -/
def InStep (t : Table) (key : Blob) : Prop :=
  ∀ n ∈ t.inner.arena, n.record.keyBytes = key → n.record.InStep

instance (t : Table) (key : Blob) : Decidable (t.InStep key) :=
  inferInstanceAs (Decidable (∀ n ∈ t.inner.arena, n.record.keyBytes = key → n.record.InStep))

/-- The table took a write of `key`. -/
def Has (t : Table) (key : Blob) : Prop := ∃ w ∈ t.writes, w.1 = key

instance (t : Table) (key : Blob) : Decidable (t.Has key) :=
  inferInstanceAs (Decidable (∃ w ∈ t.writes, w.1 = key))

theorem last_of_not_has {t : Table} {key : Blob} (h : ¬ t.Has key) : last key t.writes = none :=
  last_eq_none_iff.mpr fun w hw hk => h ⟨w, hw, hk⟩

theorem has_iff {t : Table} {key : Blob} : t.Has key ↔ last key t.writes ≠ none := by
  rw [Ne, last_eq_none_iff]
  push Not
  rfl

theorem Took.get_absent {t : Table} (h : t.Took) {key : Blob} (hkey : ¬ t.Has key) :
    t.inner.get key = some .none := by
  rcases h.holds.get_cases key with ⟨_, hget⟩ | ⟨e, n, hlast, _⟩
  · exact hget
  · rw [last_ofWrites, last_of_not_has hkey] at hlast
    cases hlast

/-- A table in step answers with the last write of the key. -/
theorem Took.get {t : Table} (h : t.Took) {key : Blob} (hstep : t.InStep key) :
    t.inner.get key = some (queryOf (last key t.writes)) := by
  rcases h.holds.get_cases key with ⟨hlast, hget⟩ | ⟨e, n, hlast, hn, hcanon, hget⟩
  · rw [last_ofWrites] at hlast
    rw [hget, hlast]
    rfl
  · have hfits := h.holds.fits (key, e) (mem_of_last hlast)
    have hrecord := (hcanon.inStep_iff hfits).mp (hstep n hn hcanon.keyBytes)
    rw [last_ofWrites] at hlast
    rw [hget, hlast, hrecord]
    cases e with
    | data value =>
      rw [Record.of_valueSlice]
      rfl
    | tombstone => rfl

/-- The records of keys the table took once are in step. -/
def FreshInStep (t : Table) : Prop :=
  ∀ key, (t.writes.filter (·.1 = key)).length ≤ 1 → t.InStep key

theorem FreshInStep.taking {t : Table} (h : t.FreshInStep) (htook : t.Took) {w : Write}
    {clock : Clock} {inner : MemtableInner}
    (hw : t.inner.write w.key w.entry clock = some (.ok inner)) :
    (t.taking inner w).FreshInStep := by
  intro key honce n hn hkey
  have hfits := htook.fits_inserted hw
  rw [writes_taking, List.filter_append, List.length_append] at honce
  rcases (htook.inserted hw).records n hn with ⟨m, hm, hrecord⟩ | ⟨hcanon, hrecord⟩
  · rw [hrecord] at hkey ⊢
    exact h key (by omega) m hm hkey
  · -- The table had no write of the key before this one.
    have hwk : w.key = key := hcanon.keyBytes.symm.trans hkey
    have hnone : last w.key (ofWrites t.writes) = none := by
      rw [last_ofWrites, last_eq_none_iff]
      intro v hv hvk
      have hin : v ∈ t.writes.filter (·.1 = key) :=
        List.mem_filter.mpr ⟨hv, decide_eq_true (hvk.trans hwk)⟩
      have hpos := List.length_pos_iff.mpr (List.ne_nil_of_mem hin)
      have hone : ([(w.key, w.entry)].filter (·.1 = key)).length = 1 := by simp [hwk]
      omega
    exact (hcanon.inStep_iff hfits).mpr (hrecord hnone)

end Table

/-- The queue's loop answers with the newest table that took the key. -/
theorem ImmutableMemtable.getLoop_eq {key : Blob} {tables : List Table}
    (htook : ∀ t ∈ tables, t.Took)
    (hstep : ∀ t, tables.find? (fun t => t.Has key) = some t → t.InStep key) :
    ImmutableMemtable.getLoop key (tables.map (·.inner)) =
      some (queryOf (findEntry key (tables.map Table.writes))) := by
  induction tables with
  | nil => rfl
  | cons t tables ih =>
    have ht := htook t (List.mem_cons_self ..)
    rw [List.map_cons, List.map_cons, findEntry_cons, ImmutableMemtable.getLoop]
    by_cases hhas : t.Has key
    · rw [ht.get (hstep t (List.find?_cons_of_pos (by simpa using hhas)))]
      obtain ⟨e, he⟩ := Option.ne_none_iff_exists'.mp (Table.has_iff.mp hhas)
      rw [he, Option.some_or]
      cases e <;> rfl
    · rw [ht.get_absent hhas, Table.last_of_not_has hhas, Option.none_or]
      refine ih (fun t' ht' => htook t' (List.mem_cons_of_mem _ ht')) fun t' ht' => hstep t' ?_
      rw [List.find?_cons_of_neg (by simpa using hhas)]
      exact ht'

namespace Engine

/-- The tables of the queue, its front first. -/
def queueTables (e : Engine) : List Table := e.immutable.filterMap fun i => e.tables[i]?

/-- The writes of the queue's tables, oldest first. -/
def queued (e : Engine) : Entries := e.immutable.flatMap e.writesOf

theorem tables_of_settled {tables : List Table} {is : List Nat} (h : ∀ i ∈ is, i < tables.length) :
    (is.mapM fun i => (tables[i]?).map (·.inner)) =
      some ((is.filterMap fun i => tables[i]?).map (·.inner)) ∧
    (is.filterMap fun i => tables[i]?).map Table.writes =
      is.map fun i => ((tables[i]?).map Table.writes).getD [] := by
  induction is with
  | nil => exact ⟨rfl, rfl⟩
  | cons i is ih =>
    obtain ⟨hm, hw⟩ := ih fun j hj => h j (List.mem_cons_of_mem _ hj)
    have hi := List.getElem?_eq_getElem (h i (List.mem_cons_self ..))
    constructor
    · simp [List.mapM_cons, hi, hm]
    · simp [hi, hw]

theorem Placed.settled {e : Engine} (h : Placed e) {i : Nat} (hi : i ∈ e.popped ++ e.immutable) :
    i < e.tables.length := by
  have := h.lt hi
  unfold active at this
  omega

/-- The queue answers with its last write of the key. -/
theorem queue_get {e : Engine} (hp : Placed e) (htook : ∀ t ∈ e.tables, t.Took) (key : Blob)
    (hstep : ∀ t, e.queueTables.reverse.find? (fun t => t.Has key) = some t → t.InStep key) :
    ∃ queue, e.queue = some queue ∧ queue.get key = some (queryOf (last key e.queued)) := by
  obtain ⟨hqueue, hwrites⟩ := tables_of_settled fun i hi => hp.settled (List.mem_append_right _ hi)
  refine ⟨_, hqueue, ?_⟩
  have hmem : ∀ t ∈ e.queueTables.reverse, t.Took := by
    intro t ht
    obtain ⟨i, _, hi⟩ := List.mem_filterMap.mp (List.mem_reverse.mp ht)
    exact htook t (List.mem_of_getElem? hi)
  have hget := ImmutableMemtable.getLoop_eq hmem hstep
  rw [List.map_reverse, List.map_reverse] at hget
  rw [ImmutableMemtable.get]
  refine hget.trans ?_
  rw [← last_flatten_reverse, List.reverse_reverse]
  unfold queued queueTables
  rw [hwrites, List.flatMap_def]
  rfl

/-- There is an active table. -/
theorem Placed.active {e : Engine} (h : Placed e) : ∃ t, e.tables[e.active]? = some t := by
  have hpos := List.length_pos_iff.mpr h.nonempty
  have hlt : e.active < e.tables.length := by
    unfold Engine.active
    omega
  exact ⟨_, List.getElem?_eq_getElem hlt⟩

end Engine

end Lsmlite
