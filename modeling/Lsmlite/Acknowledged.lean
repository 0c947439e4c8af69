import Lsmlite.EngineTables
import Mathlib.Data.List.Nodup

/-!
# Acknowledged writes

A call that finds the table full rotates, and then tries once more without having kept the lock.
Nobody looks at how that ends, so a call can return with its record nowhere. No call is lost as
long as every retry finds room.
-/

namespace Lsmlite.Engine

/-- Every call that returned inserted its record into exactly one memtable, once; and every
memtable holds what it took and has logged each of its records once, in order. -/
structure NothingDropped (e : Engine) : Prop where
  once : ∀ w ∈ e.returned, ∃ (i : Nat) (t : Table), e.tables[i]? = some t ∧ t.inserted.count w = 1 ∧
    ∀ (j : Nat) (t' : Table), e.tables[j]? = some t' → w ∈ t'.inserted → j = i
  took : ∀ t ∈ e.tables, t.Took

/-- A retry finds the active memtable with room. -/
def RetryHasRoom (e : Engine) (a : Action) : Prop :=
  match a with
  | .client _ (.retry _) => ∀ t ∈ e.tables[e.active]?, t.inner.full = false
  | _ => True

instance (e : Engine) (a : Action) : Decidable (e.RetryHasRoom a) := by
  unfold RetryHasRoom
  split <;> infer_instance

/-- The write of a client in the middle of a call. -/
def pending : Phase → Option Write
  | .attempting w => some w
  | .rotating w => some w
  | .appending w _ => some w
  | .signalling w => some w
  | .retrying w => some w
  | _ => none

theorem filterMap_set_perm {α β : Type} (f : α → Option β) {xs : List α} {i : Nat} {x : α}
    (hx : xs[i]? = some x) (y : α) :
    ((f x).toList ++ (xs.set i y).filterMap f).Perm ((f y).toList ++ xs.filterMap f) := by
  induction xs generalizing i with
  | nil => simp at hx
  | cons z xs ih =>
    cases i with
    | zero =>
      rw [List.getElem?_cons_zero] at hx
      cases hx
      rw [List.set_cons_zero]
      cases hfx : f x <;> cases hfy : f y <;> simp [hfx, hfy]
      exact List.Perm.swap ..
    | succ i =>
      rw [List.getElem?_cons_succ] at hx
      have := ih hx
      cases hfz : f z with
      | none => simpa [List.filterMap_cons, hfz] using this
      | some b =>
        simp only [List.set_cons_succ, List.filterMap_cons, hfz]
        refine List.perm_middle.trans ((this.cons b).trans List.perm_middle.symm)

/-- A client that goes from one phase of a call to another. -/
theorem pending_same {e : Engine} {i : Nat} {p q : Phase} (hp : e.clients[i]? = some p)
    (hpq : pending p = pending q) :
    ((e.clients.set i q).filterMap pending).Perm (e.clients.filterMap pending) := by
  have h := filterMap_set_perm pending hp q
  rw [hpq] at h
  exact (List.perm_append_left_iff _).mp h

theorem pending_begun {e : Engine} {i : Nat} {p q : Phase} {w : Write}
    (hp : e.clients[i]? = some p) (hpn : pending p = none) (hq : pending q = some w) :
    ((e.clients.set i q).filterMap pending).Perm (w :: e.clients.filterMap pending) := by
  have h := filterMap_set_perm pending hp q
  rw [hpn, hq] at h
  exact h

theorem pending_finished {e : Engine} {i : Nat} {p q : Phase} {w : Write}
    (hp : e.clients[i]? = some p) (hpw : pending p = some w) (hq : pending q = none) :
    (w :: (e.clients.set i q).filterMap pending).Perm (e.clients.filterMap pending) := by
  have h := filterMap_set_perm pending hp q
  rw [hpw, hq] at h
  exact h

/-- Each call is under way or has returned, and those that returned are those the tables took. -/
structure Accounted (e : Engine) : Prop where
  nonempty : e.tables ≠ []
  ids : e.invoked.map (·.id) = List.range e.invoked.length
  calls : (e.returned ++ e.clients.filterMap pending).Perm e.invoked
  taken : (e.tables.flatMap (·.inserted)).Perm e.returned

theorem accounted_start (c : Config) (stamp : LsmliteInner.Stamp) : Accounted (start c stamp) where
  nonempty := by simp [start]
  ids := rfl
  calls := List.Perm.refl _
  taken := by simp [start, freshTable]

/-- Nothing changes but the phase of a client that stays in its call. -/
theorem Accounted.moved {e e' : Engine} (h : Accounted e) (htables : e'.tables = e.tables)
    (hinvoked : e'.invoked = e.invoked) (hreturned : e'.returned = e.returned)
    (hpending : (e'.clients.filterMap pending).Perm (e.clients.filterMap pending)) :
    Accounted e' where
  nonempty := htables ▸ h.nonempty
  ids := hinvoked ▸ h.ids
  calls := by
    rw [hreturned, hinvoked]
    exact (hpending.append_left _).trans h.calls
  taken := by rw [htables, hreturned]; exact h.taken

theorem flatMap_set_perm {tables : List Table} {i : Nat} {t t' : Table} {w : Write}
    (ht : tables[i]? = some t) (ht' : t'.inserted = t.inserted ++ [w]) :
    ((tables.set i t').flatMap (·.inserted)).Perm (w :: tables.flatMap (·.inserted)) := by
  induction tables generalizing i with
  | nil => simp at ht
  | cons t0 tables ih =>
    cases i with
    | zero =>
      rw [List.getElem?_cons_zero] at ht
      cases ht
      simp only [List.set_cons_zero, List.flatMap_cons, ht',
        List.append_assoc, List.singleton_append]
      exact List.perm_middle
    | succ i =>
      rw [List.getElem?_cons_succ] at ht
      simp only [List.set_cons_succ, List.flatMap_cons]
      exact ((ih ht).append_left _).trans List.perm_middle

/-- An insertion with the call's return. -/
theorem Accounted.finished {e : Engine} (h : Accounted e) {i : Nat} {p : Phase} {w : Write}
    {table : Table} {inner : MemtableInner} (hi : e.clients[i]? = some p)
    (hp : pending p = some w) (htable : e.tables[e.active]? = some table) :
    Accounted ((e.took table inner w).finish i w) where
  nonempty := by simpa [finish, setPhase, took] using h.nonempty
  ids := h.ids
  calls := by
    have hperm := pending_finished (q := .idle) hi hp rfl
    refine List.Perm.trans ?_ h.calls
    show ((e.returned ++ [w]) ++ (e.clients.set i .idle).filterMap pending).Perm _
    rw [List.append_assoc]
    exact hperm.append_left _
  taken := by
    refine (flatMap_set_perm htable rfl).trans ?_
    exact (h.taken.cons w).trans (List.perm_append_singleton _ _).symm

theorem accounted_step {c : Config} {e e' : Engine} {a : Action} (h : Accounted e)
    (hok : e.RetryHasRoom a) (hs : step c e a = some e') : Accounted e' := by
  cases step_cases hs with
  | spawn hopen => exact h.moved rfl rfl rfl (by
      rw [List.filterMap_append, show [Phase.idle].filterMap pending = []
        from rfl, List.append_nil])
  | drop hopen hidle => exact h.moved rfl rfl rfl (List.Perm.refl _)
  | client hc =>
    cases hc with
    | call hi hopen key entry =>
      refine ⟨h.nonempty, ?_, ?_, h.taken⟩
      · simp only [setPhase, List.map_append, List.map_cons, List.map_nil, List.length_append,
          List.length_singleton, List.range_succ, h.ids]
      · refine ((pending_begun hi rfl rfl).append_left _).trans ?_
        exact List.perm_middle.trans ((h.calls.cons _).trans (List.perm_append_singleton _ _).symm)
    | attemptOk hi htable hw => exact h.finished hi rfl htable
    | attemptFull hi htable hw => exact h.moved rfl rfl rfl (pending_same hi rfl)
    | @rotate w stamp hi hts =>
      have hsame := pending_same (q := .appending w e.active) hi rfl
      refine ⟨by simp [setPhase], h.ids, (hsame.append_left _).trans h.calls, ?_⟩
      simpa [setPhase, freshTable] using h.taken
    | append hi => exact h.moved rfl rfl rfl (pending_same hi rfl)
    | signal hi => exact h.moved rfl rfl rfl (pending_same hi rfl)
    | retryOk hi htable hw => exact h.finished hi rfl htable
    | @retryFull w clock table err hi htable hw =>
      -- The retry has room, so it cannot find the table full.
      have hroom := hok table htable
      cases hroom.symm.trans (MemtableInner.full_of_error hw)
    | get hi hopen key => exact h.moved rfl rfl rfl (pending_same hi rfl)
    | @readMemtable key before table q hi htable hq =>
      cases LsmliteInner.readQuery q <;> exact h.moved rfl rfl rfl (pending_same hi rfl)
    | @readImmutable key before queue q hi hqueue hq =>
      cases LsmliteInner.readQuery q <;> exact h.moved rfl rfl rfl (pending_same hi rfl)
    | readSstables hi hr => exact h.moved rfl rfl rfl (pending_same hi rfl)
  | background hb =>
    cases hb with
    | @removeWal ts table t hf ht =>
      refine ⟨by simpa using h.nonempty, h.ids, h.calls, ?_⟩
      have hsame : (e.tables.set table { t with walRemoved := true }).flatMap (·.inserted) =
          e.tables.flatMap (·.inserted) := flatMap_set_same ht rfl
      exact (List.Perm.of_eq hsame).trans h.taken
    | _ => exact h.moved rfl rfl rfl (List.Perm.refl _)

theorem Accounted.nodup {e : Engine} (h : Accounted e) : e.returned.Nodup := by
  have hnodup : e.invoked.Nodup := by
    refine List.Nodup.of_map (·.id) ?_
    rw [h.ids]
    exact List.nodup_range
  have := h.calls.nodup_iff.mpr hnodup
  exact (List.nodup_append.mp this).1

/-- What the tables took once in all, one table took once. -/
theorem once_of_count {tables : List Table} {w : Write}
    (h : (tables.flatMap (·.inserted)).count w = 1) :
    ∃ (i : Nat) (t : Table), tables[i]? = some t ∧ t.inserted.count w = 1 ∧
      ∀ (j : Nat) (t' : Table), tables[j]? = some t' → w ∈ t'.inserted → j = i := by
  induction tables with
  | nil => simp at h
  | cons t tables ih =>
    rw [List.flatMap_cons, List.count_append] at h
    by_cases ht : w ∈ t.inserted
    · have hpos := List.count_pos_iff.mpr ht
      have hnot : w ∉ tables.flatMap (·.inserted) := by
        rw [← List.count_eq_zero]
        omega
      refine ⟨0, t, rfl, by omega, fun j t' hj hw => ?_⟩
      cases j with
      | zero => rfl
      | succ j =>
        rw [List.getElem?_cons_succ] at hj
        exact absurd (List.mem_flatMap.mpr ⟨t', List.mem_of_getElem? hj, hw⟩) hnot
    · rw [List.count_eq_zero.mpr ht, Nat.zero_add] at h
      obtain ⟨i, t', hi, hcount, huniq⟩ := ih h
      refine ⟨i + 1, t', hi, hcount, fun j t'' hj hw => ?_⟩
      cases j with
      | zero =>
        cases hj
        exact absurd hw ht
      | succ j => rw [huniq j t'' hj hw]

/-- Nothing is dropped in a run whose retries find room. -/
theorem nothing_dropped {c : Config} {e : Engine} (h : Reaches c RetryHasRoom e) :
    e.NothingDropped := by
  have hacc : Accounted e ∧ ∀ t ∈ e.tables, t.Took := by
    refine h.invariant (P := fun e => Accounted e ∧ ∀ t ∈ e.tables, t.Took)
      (fun stamp => ⟨accounted_start c stamp, fun t ht => ?_⟩)
      fun e a e' he hok hs => ⟨accounted_step he.1 hok hs, took_step he.2 hs⟩
    rw [List.mem_singleton.mp ht]
    exact Table.took_fresh c stamp
  obtain ⟨hacc, htook⟩ := hacc
  refine ⟨fun w hw => once_of_count ?_, htook⟩
  rw [hacc.taken.count_eq]
  exact List.count_eq_one_of_mem hacc.nodup hw

/-- Another client fills the fresh table between the rotation and the retry. -/
def outrunRun : List Action :=
  [.spawn, .spawn] ++ writeSteps 0 [97] [1] ++ swapSteps 0 [98] [2] 1 ++
    [.client 0 .append, .client 0 .signal] ++ writeSteps 1 [99] [3] ++ [.client 0 (.retry ⟨0, 0⟩)]

/-- The second call returns, and no table has its record. -/
theorem retry_dropped : ∃ e, Reaches tinyConfig (fun _ _ => True) e ∧ ¬ e.NothingDropped := by
  have hrun : (runActions tinyConfig (fun _ _ => True) (start tinyConfig ⟨0, 0⟩) outrunRun).map
      (fun e => (e.returned.map (·.id), e.tables.map fun t => t.inserted.map (·.id))) =
        some ([0, 2, 1], [[0], [2]]) := by
    decide +kernel
  obtain ⟨e, he, hids⟩ := Option.map_eq_some_iff.mp hrun
  obtain ⟨hreturned, htables⟩ := Prod.mk.inj hids
  refine ⟨e, reaches_runActions (.start _) he, fun hnothing => ?_⟩
  have hmem : 1 ∈ e.returned.map (·.id) := by rw [hreturned]; decide
  obtain ⟨w, hw, hid⟩ := List.mem_map.mp hmem
  obtain ⟨i, t, hi, hcount, _⟩ := hnothing.once w hw
  have hin : w ∈ t.inserted := List.count_pos_iff.mp (by omega)
  have hlist : t.inserted.map (·.id) ∈ e.tables.map fun t => t.inserted.map (·.id) :=
    List.mem_map_of_mem (List.mem_of_getElem? hi)
  have hone : 1 ∈ t.inserted.map (·.id) := hid ▸ List.mem_map_of_mem hin
  rw [htables] at hlist
  simp only [List.mem_cons, List.not_mem_nil, or_false] at hlist
  rcases hlist with hlist | hlist <;> (rw [hlist] at hone; revert hone; decide)

/-- The same calls, the retry before the other client's. -/
theorem nothing_dropped_two : ∃ e, Reaches tinyConfig RetryHasRoom e ∧
    e.returned.map (·.id) = [0, 1] ∧ e.NothingDropped := by
  have hrun : (runActions tinyConfig RetryHasRoom (start tinyConfig ⟨0, 0⟩)
      ([.spawn] ++ writeSteps 0 [97] [1] ++ swapSteps 0 [98] [2] 1 ++
        [.client 0 .append, .client 0 .signal, .client 0 (.retry ⟨0, 0⟩)])).map
      (fun e => e.returned.map (·.id)) = some [0, 1] := by
    decide +kernel
  obtain ⟨e, he, hreturned⟩ := Option.map_eq_some_iff.mp hrun
  have hreach := reaches_runActions (.start _) he
  exact ⟨e, hreach, hreturned, nothing_dropped hreach⟩

end Lsmlite.Engine
