import Lsmlite.DiskMap

/-!
# Shutdown

The drop of the last handle sends a signal to each of the two tasks, and no step of theirs flushes a
log. A log flushes at a write, before it buffers the write's record: so the last record that a table
took is in its buffer, and after a shutdown it is in no file unless the table was flushed.
-/

namespace Lsmlite
open KeyValue

/-- A key's newest record is in a log's file, or buffered. -/
theorem filed_or_buffered {tables : List Table}
    (hparts : ∀ t ∈ tables, t.filed ++ t.buffered = t.writes) (key : Blob) :
    last key (tables.flatMap Table.filed) = last key (tables.flatMap Table.writes) ∨
      ∃ t ∈ tables, ∃ w ∈ t.buffered, w.1 = key ∧
        last key (tables.flatMap Table.writes) = some w.2 := by
  induction tables with
  | nil => exact Or.inl rfl
  | cons t tables ih =>
    have ih := ih fun t' ht' => hparts t' (List.mem_cons_of_mem _ ht')
    rw [List.flatMap_cons, List.flatMap_cons, last_append, last_append,
      ← hparts t (List.mem_cons_self ..), last_append]
    rcases ih with hsame | ⟨t', ht', w, hw, hkey, hlast⟩
    · rw [hsame]
      cases last key (tables.flatMap Table.writes) with
      | some entry => exact Or.inl rfl
      | none =>
        rw [Option.none_or, Option.none_or]
        cases hbuffered : last key t.buffered with
        | none => exact Or.inl rfl
        | some entry => exact Or.inr ⟨t, List.mem_cons_self .., _, mem_of_last hbuffered, rfl, rfl⟩
    · rw [hlast]
      exact Or.inr ⟨t', List.mem_cons_of_mem _ ht', w, hw, hkey, rfl⟩

namespace Engine

/-! ## The order of the writes -/

/-- Tables are appended in the order of the swaps, retries find room, and files keep the tables. -/
def Orderly (e : Engine) (a : Action) : Prop :=
  e.OldestAppends a ∧ e.RetryHasRoom a ∧ e.KeepsTables [] a

/-- The tables took the writes in the order of their return. -/
def TakenInOrder (e : Engine) : Prop := e.tables.flatMap (·.inserted) = e.returned

theorem TakenInOrder.finished {e : Engine} (h : TakenInOrder e) {i : Nat} {w : Write}
    {table : Table} {inner : MemtableInner} (htable : e.tables[e.active]? = some table) :
    TakenInOrder ((e.took table inner w).finish i w) := by
  show (e.tables.set e.active _).flatMap (·.inserted) = e.returned ++ [w]
  rw [← show e.tables.flatMap (·.inserted) = e.returned from h]
  exact flatMap_set_last htable rfl

theorem taken_in_order_step {c : Config} {e e' : Engine} {a : Action} (h : TakenInOrder e)
    (hroom : e.RetryHasRoom a) (hs : step c e a = some e') : TakenInOrder e' := by
  cases step_cases hs with
  | spawn hopen => exact h
  | drop hopen hidle => exact h
  | client hc =>
    cases hc with
    | attemptOk hi htable hw => exact h.finished htable
    | retryOk hi htable hw => exact h.finished htable
    | @rotate w stamp hi hts =>
      show (e.tables ++ [freshTable c stamp]).flatMap (·.inserted) = e.returned
      rw [List.flatMap_append, show e.tables.flatMap (·.inserted) = e.returned from h]
      exact List.append_nil _
    | @retryFull w clock table err hi htable hw =>
      -- The retry has room, so it cannot find the table full.
      cases (hroom table htable).symm.trans (MemtableInner.full_of_error hw)
    | @readMemtable key before table q hi htable hq => cases LsmliteInner.readQuery q <;> exact h
    | @readImmutable key before queue q hi hqueue hq => cases LsmliteInner.readQuery q <;> exact h
    | _ => exact h
  | background hb =>
    cases hb with
    | @removeWal ts i t hf ht =>
      have hsame : (e.tables.set i { t with walRemoved := true }).flatMap (·.inserted) =
          e.tables.flatMap (·.inserted) := flatMap_set_same ht rfl
      exact hsame.trans h
    | _ => exact h

/-- What holds of the runs whose steps are orderly. -/
structure InOrderKept (c : Config) (e : Engine) : Prop where
  kept : Kept c e
  aging : Aging e
  taken : TakenInOrder e

theorem in_order_kept_start (c : Config) (stamp : LsmliteInner.Stamp) :
    InOrderKept c (start c stamp) :=
  ⟨kept_start c stamp, aging_start c stamp, rfl⟩

theorem Kept.parts {c : Config} {e : Engine} (h : Kept c e) :
    ∀ t ∈ e.tables, t.filed ++ t.buffered = t.writes := by
  intro t ht
  obtain ⟨i, hi⟩ := List.mem_iff_getElem?.mp ht
  exact parts_of_fits (h.fits.tables i t hi)

theorem in_order_kept_step {c : Config} {e e' : Engine} {a : Action} (h : InOrderKept c e)
    (hok : e.Orderly a) (hs : step c e a = some e') : InOrderKept c e' where
  kept := kept_step h.kept hok.2.2 hs
  aging := aging_step h.aging hok.1 hs
  taken := taken_in_order_step h.taken hok.2.1 hs

/-! ## After the shutdown -/

/-- The last handle is dropped and the tasks have stopped. -/
def Stopped (e : Engine) : Prop := e.dropped = true ∧ e.flusher = .stopped ∧ e.compactor = .stopped

instance (e : Engine) : Decidable e.Stopped := by
  unfold Stopped
  infer_instance

/-- Where a buffered record is the newest of its key, the files say the same of the key. -/
def BuffersNothingNew (e : Engine) : Prop :=
  ∀ t ∈ e.logged, ∀ w ∈ t.buffered, last w.1 (asEntries e.returned) = some w.2 →
    readEntry (last w.1 e.onFiles) = readEntry (some w.2)

instance (e : Engine) : Decidable e.BuffersNothingNew :=
  inferInstanceAs (Decidable (∀ t ∈ e.logged, ∀ w ∈ t.buffered, last w.1 (asEntries e.returned) =
    some w.2 → readEntry (last w.1 e.onFiles) = readEntry (some w.2)))

/-- A key's newest record is in the files, or in a log's buffer. -/
theorem InOrderKept.on_files {c : Config} {e : Engine} (h : InOrderKept c e)
    (hfinished : e.flusher.finished = false) (key : Blob) :
    last key e.onFiles = last key (asEntries e.returned) ∨
      ∃ t ∈ e.logged, ∃ w ∈ t.buffered, w.1 = key ∧ last key (asEntries e.returned) = some w.2 := by
  have hqueue : e.popped ++ e.immutable <+: List.range e.tables.length := by
    rw [← tables_in_order h.aging h.kept.placed, List.append_assoc]
    exact List.prefix_append _ _
  obtain ⟨cleared, left, htables, hlogged, hrecords⟩ :=
    files_in_order hqueue h.kept.cleared h.kept.oneLoad
  have hreturned : asEntries e.returned = cleared.flatMap Table.writes ++
      left.flatMap Table.writes := by
    rw [← show e.tables.flatMap (·.inserted) = e.returned from h.taken, htables, asEntries,
      List.map_flatMap, List.flatMap_append]
    rfl
  have hfiles : e.onFiles = cleared.flatMap Table.writes ++ left.flatMap Table.filed := by
    rw [onFiles, hrecords, hfinished, hlogged]
    simp
  have hleft : ∀ t ∈ left, t.filed ++ t.buffered = t.writes := by
    intro t ht
    apply h.kept.parts t
    rw [htables]
    exact List.mem_append_right _ ht
  rw [hreturned, hfiles, hlogged, last_append, last_append]
  rcases filed_or_buffered hleft key with hsame | ⟨t, ht, w, hw, hkey, hlast⟩
  · rw [hsame]
    exact Or.inl rfl
  · rw [hlast]
    exact Or.inr ⟨t, ht, w, hw, hkey, rfl⟩

/-- After the shutdown of a run whose steps are orderly, the directory decides every key as the
returned calls do if and only if no log buffers anything new. -/
theorem shutdown_keeps_iff {c : Config} {e : Engine} {dir : List DirEntry} (h : Reaches c Orderly e)
    (hstopped : e.Stopped) (hclock : e.clock < 2 ^ 128) (hdir : dir.Perm e.disk) :
    Recovers c.hashing c.lsmlite dir (fun key => readEntry (last key (asEntries e.returned))) ↔
      e.BuffersNothingNew := by
  have hkept : InOrderKept c e :=
    h.invariant (in_order_kept_start c) fun _ _ _ he hok hs => in_order_kept_step he hok hs
  have hfiles := hkept.kept.recovers (by rw [hstopped.2.1]; rfl) hclock hdir
  constructor
  · intro hall t _ w _ hlast
    rw [← hlast]
    exact congrFun (hfiles.unique hall) w.1
  · intro hnothing
    refine hfiles.congr fun key => ?_
    rcases hkept.on_files (by rw [hstopped.2.1]; rfl) key with hsame | ⟨t, ht, w, hw, rfl, hlast⟩
    · rw [hsame]
    · rw [hlast]
      exact hnothing t ht w hw hlast

/-! ## One write -/

/-- A set, the drop of the last handle, and the tasks stop. -/
def droppedRun (sets : List Action) : List Action :=
  [.spawn] ++ sets ++ [.drop, .background .stopFlusher, .background .stopCompactor]

theorem reaches_droppedRun {sets : List Action} {e : Engine}
    (hr : runActions Session.hundredConfig (fun e a => (e.OldestAppends a ∧ e.RetryHasRoom a) ∧
      a.leavesTables = true) (start Session.hundredConfig ⟨0, 0⟩) (droppedRun sets) = some e) :
    Reaches Session.hundredConfig Orderly e := by
  refine (reaches_runActions (.start _) hr).mono fun e a hok => ?_
  exact ⟨hok.1.1, hok.1.2, keepsTables_of_leaves hok.2⟩

/-- The record of the only write is lost. -/
theorem shutdown_loses :
    ∃ e, Reaches Session.hundredConfig (fun _ _ => True) e ∧ e.Stopped ∧ e.clock < 2 ^ 128 ∧
    ¬ Recovers flatHashing Session.hundredConfig.lsmlite e.disk
      (fun key => readEntry (last key (asEntries e.returned))) := by
  have hrun : (runActions Session.hundredConfig
      (fun e a => (e.OldestAppends a ∧ e.RetryHasRoom a) ∧ a.leavesTables = true)
      (start Session.hundredConfig ⟨0, 0⟩) (droppedRun (Session.setAt [97] [1] 0))).map
        (fun e => (decide (e.Stopped ∧ e.clock < 2 ^ 128), e.onFiles, asEntries e.returned)) =
          some (true, [], [([97], .data [1])]) := by
    decide +kernel
  obtain ⟨e, he, hend⟩ := Option.map_eq_some_iff.mp hrun
  obtain ⟨hstopped, hend⟩ := Prod.mk.inj hend
  obtain ⟨hfiles, hreturned⟩ := Prod.mk.inj hend
  obtain ⟨hstopped, hclock⟩ := of_decide_eq_true hstopped
  have hreach := reaches_droppedRun he
  have hkept : InOrderKept Session.hundredConfig e :=
    hreach.invariant (in_order_kept_start _) fun _ _ _ he hok hs => in_order_kept_step he hok hs
  have hrecovers := hkept.kept.recovers (by rw [hstopped.2.1]; rfl) hclock (List.Perm.refl _)
  refine ⟨e, hreach.mono fun _ _ _ => trivial, hstopped, hclock, fun hall => ?_⟩
  have hsame := congrFun (hrecovers.unique hall) [97]
  rw [hfiles, hreturned] at hsame
  revert hsame
  decide

/-- A write that repeats the one before it. -/
theorem shutdown_keeps_repeated : ∃ e, Reaches Session.hundredConfig Orderly e ∧ e.Stopped ∧
    e.returned.map (·.id) = [0, 1] ∧ e.BuffersNothingNew ∧
    Recovers flatHashing Session.hundredConfig.lsmlite e.disk
      (fun key => readEntry (last key (asEntries e.returned))) := by
  have hrun : (runActions Session.hundredConfig
      (fun e a => (e.OldestAppends a ∧ e.RetryHasRoom a) ∧ a.leavesTables = true)
      (start Session.hundredConfig ⟨0, 0⟩)
        (droppedRun (Session.setAt [97] [1] 0 ++ Session.setAt [97] [1] 500))).map
        (fun e => (decide (e.Stopped ∧ e.clock < 2 ^ 128 ∧ e.BuffersNothingNew),
            e.returned.map (·.id))) = some (true, [0, 1]) := by
    decide +kernel
  obtain ⟨e, he, hend⟩ := Option.map_eq_some_iff.mp hrun
  obtain ⟨hstopped, hreturned⟩ := Prod.mk.inj hend
  obtain ⟨hstopped, hclock, hnothing⟩ := of_decide_eq_true hstopped
  have hreach := reaches_droppedRun he
  exact ⟨e, hreach, hstopped, hreturned, hnothing,
    (shutdown_keeps_iff hreach hstopped hclock (List.Perm.refl _)).mpr hnothing⟩

end Engine

end Lsmlite
