import Lsmlite.EngineSteps

/-!
# The memtables of a run

Whatever the order of the steps, a memtable holds what its insertions make of it, and its log has
their records in order.
-/

namespace Lsmlite
open KeyValue

namespace Table

/-- The writes the table took, by key. -/
def writes (t : Table) : Entries := t.inserted.map fun w => (w.key, w.entry)

/-- The table holds the writes it took, and logged each of them once: the older ones are in the
file, the newer ones in the buffer. -/
structure Took (t : Table) : Prop where
  holds : t.inner.Holds (ofWrites t.writes)
  logged : ∃ filed buffered, t.inner.wal.Holds filed buffered ∧ filed ++ buffered = t.writes
  fits : ∀ w ∈ t.writes, Record.Fits w.1 w.2

/-- The table as an insertion leaves it. -/
def taking (t : Table) (inner : MemtableInner) (w : Write) : Table :=
  { t with inner, inserted := t.inserted ++ [w] }

theorem writes_taking (t : Table) (inner : MemtableInner) (w : Write) :
    (t.taking inner w).writes = t.writes ++ [(w.key, w.entry)] := by
  simp [writes, taking]

theorem took_fresh (c : Config) (stamp : LsmliteInner.Stamp) :
    (Engine.freshTable c stamp).Took where
  holds := MemtableInner.holds_new ..
  logged := ⟨[], [], Wal.holds_new .., rfl⟩
  fits _ h := by cases h

theorem Took.inserted {t : Table} (h : t.Took) {w : Write} {clock : Clock} {inner : MemtableInner}
    (hw : t.inner.write w.key w.entry clock = some (.ok inner)) :
    MemtableInner.Inserted
      { t.inner with wal := t.inner.wal.writeLog (Record.of w.key w.entry) clock }
      (ofWrites t.writes) w.key w.entry inner := by
  rcases h.holds.write_some hw with ⟨_, err, herr⟩ | ⟨_, t', ht', hins⟩
  · cases herr
  · cases ht'
    exact hins

theorem Took.fits_inserted {t : Table} (h : t.Took) {w : Write} {clock : Clock}
    {inner : MemtableInner} (hw : t.inner.write w.key w.entry clock = some (.ok inner)) :
    Record.Fits w.key w.entry := by
  have hholds := (h.inserted hw).holds
  refine hholds.fits (w.key, w.entry) (mem_of_last ?_)
  rw [last_insert h.holds.sorted, if_pos rfl]

/-- An insertion keeps the table's account of itself. -/
theorem Took.taking {t : Table} (h : t.Took) {w : Write} {clock : Clock} {inner : MemtableInner}
    (hw : t.inner.write w.key w.entry clock = some (.ok inner)) : (t.taking inner w).Took := by
  have hins := h.inserted hw
  obtain ⟨filed, buffered, hwal, hlog⟩ := h.logged
  refine ⟨?_, ?_, ?_⟩
  · rw [writes_taking, ofWrites_snoc]
    exact hins.holds
  · have hwal' : (t.taking inner w).inner.wal =
        t.inner.wal.writeLog (Record.of w.key w.entry) clock := hins.wal
    rw [writes_taking, hwal', ← hlog]
    rcases hwal.writeLog w.key w.entry clock with hnew | hnew
    · exact ⟨_, _, hnew, by simp⟩
    · exact ⟨_, _, hnew, rfl⟩
  · rw [writes_taking]
    intro v hv
    rcases List.mem_append.mp hv with hv | hv
    · exact h.fits v hv
    · rw [List.mem_singleton.mp hv]
      exact h.fits_inserted hw

theorem Took.removed {t : Table} (h : t.Took) : { t with walRemoved := true }.Took :=
  ⟨h.holds, h.logged, h.fits⟩

end Table

theorem set_cases {α : Type} {xs : List α} {i j : Nat} {x y : α} (h : (xs.set i x)[j]? = some y) :
    (j = i ∧ y = x) ∨ xs[j]? = some y := by
  rw [List.getElem?_set] at h
  split at h
  · rename_i hij
    split at h
    · cases h
      exact Or.inl ⟨hij.symm, rfl⟩
    · cases h
  · exact Or.inr h

theorem map_set_same {α β : Type} {f : α → β} {xs : List α} {i : Nat} {x y : α}
    (hx : xs[i]? = some x) (h : f y = f x) : (xs.set i y).map f = xs.map f := by
  obtain ⟨hi, rfl⟩ := List.getElem?_eq_some_iff.mp hx
  rw [List.map_set, h, ← List.getElem_map f (h := by simpa using hi)]
  exact List.set_getElem_self _

theorem flatMap_set_same {α β : Type} {f : α → List β} {xs : List α} {i : Nat} {x y : α}
    (hx : xs[i]? = some x) (h : f y = f x) : (xs.set i y).flatMap f = xs.flatMap f := by
  rw [List.flatMap_def, List.flatMap_def, map_set_same hx h]

namespace Engine

/-- What a step does to the memtables. -/
inductive TableStep (c : Config) (e : Engine) (a : Action) (e' : Engine) : Prop where
  | took (i : Nat) (w : Write) (clock : Clock) (table : Table) (inner : MemtableInner)
      (ha : a = .client i (.attempt clock) ∧ e.clients[i]? = some (.attempting w) ∨
        a = .client i (.retry clock) ∧ e.clients[i]? = some (.retrying w))
      (htable : e.tables[e.active]? = some table)
      (hw : table.inner.write w.key w.entry clock = some (.ok inner))
      (hstep : e' = (e.took table inner w).finish i w)
  | fresh (i : Nat) (w : Write) (stamp : LsmliteInner.Stamp) (ha : a = .client i (.rotate stamp))
      (hi : e.clients[i]? = some (.rotating w))
      (hstep : e'.tables = e.tables ++ [freshTable c stamp])
  | removed (ts table : Nat) (t : Table) (ha : a = .background .removeWal)
      (hf : e.flusher = .written ts table) (ht : e.tables[table]? = some t)
      (hstep : e'.tables = e.tables.set table { t with walRemoved := true })
  | other (hsame : e'.tables = e.tables)

theorem step_tables {c : Config} {e e' : Engine} {a : Action} (h : step c e a = some e') :
    TableStep c e a e' := by
  cases step_cases h with
  | spawn hopen => exact .other rfl
  | client h =>
    cases h with
    | attemptOk hi htable hw => exact .took _ _ _ _ _ (Or.inl ⟨rfl, hi⟩) htable hw rfl
    | retryOk hi htable hw => exact .took _ _ _ _ _ (Or.inr ⟨rfl, hi⟩) htable hw rfl
    | rotate hi hts => exact .fresh _ _ _ rfl hi rfl
    | @readMemtable key before table q hi htable hq =>
      cases LsmliteInner.readQuery q <;> exact .other rfl
    | @readImmutable key before queue q hi hqueue hq =>
      cases LsmliteInner.readQuery q <;> exact .other rfl
    | _ => exact .other rfl
  | background h =>
    cases h with
    | removeWal hf ht => exact .removed _ _ _ rfl hf ht rfl
    | _ => exact .other rfl
  | drop hopen hidle => exact .other rfl

/-- What fresh tables have and insertions and the removal of the log keep, every table has. -/
theorem forall_tables_step {c : Config} {P : Table → Prop}
    (hfresh : ∀ stamp, P (freshTable c stamp))
    (htook : ∀ (t : Table) (w : Write) (clock : Clock) (inner : MemtableInner), P t →
      t.inner.write w.key w.entry clock = some (.ok inner) → P (t.taking inner w))
    (hremoved : ∀ t : Table, P t → P { t with walRemoved := true }) {e e' : Engine} {a : Action}
    (h : ∀ t ∈ e.tables, P t) (hs : step c e a = some e') : ∀ t ∈ e'.tables, P t := by
  intro t ht
  cases step_tables hs with
  | took i w clock table inner _ htable hw hstep =>
    subst hstep
    rcases List.mem_or_eq_of_mem_set ht with ht | rfl
    · exact h t ht
    · exact htook table w clock inner (h table (List.mem_of_getElem? htable)) hw
  | fresh i w stamp _ _ hstep =>
    rw [hstep] at ht
    rcases List.mem_append.mp ht with ht | ht
    · exact h t ht
    · rw [List.mem_singleton.mp ht]
      exact hfresh stamp
  | removed ts table t' _ _ ht' hstep =>
    rw [hstep] at ht
    rcases List.mem_or_eq_of_mem_set ht with ht | rfl
    · exact h t ht
    · exact hremoved t' (h t' (List.mem_of_getElem? ht'))
  | other hsame =>
    rw [hsame] at ht
    exact h t ht

theorem took_step {c : Config} {e e' : Engine} {a : Action} (h : ∀ t ∈ e.tables, t.Took)
    (hs : step c e a = some e') : ∀ t ∈ e'.tables, t.Took :=
  forall_tables_step (Table.took_fresh c) (fun _ _ _ _ ht hw => ht.taking hw)
    (fun _ ht => ht.removed) h hs

/-- Every table of every state reached is in step with what it took. -/
theorem Reaches.took {c : Config} {ok : Engine → Action → Prop} {e : Engine} (h : Reaches c ok e) :
    ∀ t ∈ e.tables, t.Took := by
  refine h.invariant (P := fun e => ∀ t ∈ e.tables, t.Took) (fun stamp t ht => ?_)
    (fun e a e' he _ hs => took_step he hs)
  rw [List.mem_singleton.mp ht]
  exact Table.took_fresh c stamp

end Engine

end Lsmlite
