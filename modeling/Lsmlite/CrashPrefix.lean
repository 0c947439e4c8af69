import Lsmlite.Shutdown

/-!
# Prefixes of the history

Every memtable has a log of its own, which only the memtable's own writes flush. A crash can take
the last writes of an older table and leave those of a newer one. And in between the end of a
table's file and the removal of its log the log is read over the table, the buffered writes of which
it does not have.
-/

namespace Lsmlite
open KeyValue

/-- The buffered writes that a restart finds in the table's file: the log has no older write over
them. -/
def Table.found (t : Table) : Entries := t.buffered.filter fun w => w.1 ∉ keys t.filed

/-- Those over which the log has an older write. -/
def Table.hidden (t : Table) : Entries := t.buffered.filter fun w => w.1 ∈ keys t.filed

/-- Behind a log with a buffer no log has a file. -/
def GapFree (tables : List Table) : Prop :=
  tables.Pairwise fun older newer => older.buffered = [] ∨ newer.filed = []

instance (tables : List Table) : Decidable (GapFree tables) :=
  inferInstanceAs
    (Decidable (tables.Pairwise fun older newer => older.buffered = [] ∨ newer.filed = []))

theorem flatMap_filed_nil {tables : List Table} (h : ∀ t ∈ tables, t.filed = []) :
    tables.flatMap Table.filed = [] :=
  List.flatMap_eq_nil_iff.mpr h

theorem GapFree.isPrefix {tables : List Table} (h : GapFree tables)
    (hparts : ∀ t ∈ tables, t.filed ++ t.buffered = t.writes) :
    tables.flatMap Table.filed <+: tables.flatMap Table.writes := by
  induction tables with
  | nil => exact List.prefix_rfl
  | cons t tables ih =>
    obtain ⟨hfirst, hrest⟩ := List.pairwise_cons.mp h
    have ih := ih hrest fun t' ht' => hparts t' (List.mem_cons_of_mem _ ht')
    rw [List.flatMap_cons, List.flatMap_cons, ← hparts t (List.mem_cons_self ..)]
    by_cases hbuffered : t.buffered = []
    · rw [hbuffered, List.append_nil, List.prefix_append_right_inj]
      exact ih
    · have hnone := flatMap_filed_nil fun t' ht' => (hfirst t' ht').resolve_left hbuffered
      rw [hnone, List.append_nil, List.append_assoc]
      exact List.prefix_append _ _

/-- The table's file with the log's read over it. -/
theorem last_overlaid {t : Table} (hparts : t.filed ++ t.buffered = t.writes) (key : Blob) :
    last key (t.writes ++ t.filed) = last key (t.filed ++ t.found) := by
  rw [← hparts, last_append, last_append, last_append]
  by_cases hkey : key ∈ keys t.filed
  · have hfound : last key t.found = none := by
      rw [last_eq_none_iff]
      rintro w hw rfl
      exact of_decide_eq_true (List.mem_filter.mp hw).2 hkey
    obtain ⟨entry, hentry⟩ := Option.isSome_iff_exists.mp (mem_keys_iff.mp hkey)
    rw [hfound, hentry]
    rfl
  · have hfound : last key t.found = last key t.buffered := by
      apply last_filter
      rintro w _ rfl
      exact decide_eq_true hkey
    rw [hfound, not_mem_keys.mp hkey, Option.none_or]

namespace Engine

/-- Nothing that a crash takes is followed by what it leaves. -/
def LosesLast (e : Engine) : Prop :=
  if e.flusher.finished then
    (∀ front ∈ e.logged.head?, front.buffered = front.found ++ front.hidden ∧
      (front.hidden = [] ∨ ∀ t ∈ e.logged.tail, t.filed = [])) ∧ GapFree e.logged.tail
  else GapFree e.logged

instance (e : Engine) : Decidable e.LosesLast := by
  unfold LosesLast
  infer_instance

/-- What is in the files reads as a first part of what the tables took. -/
theorem Kept.reads_first {c : Config} {e : Engine} (h : Kept c e)
    (hqueue : e.popped ++ e.immutable <+: List.range e.tables.length) (hlast : e.LosesLast) :
    ∃ ws, ws <+: e.tables.flatMap Table.writes ∧ ∀ key, last key e.onFiles = last key ws := by
  obtain ⟨cleared, left, htables, hlogged, hrecords⟩ := files_in_order hqueue h.cleared h.oneLoad
  have hparts : ∀ t ∈ left, t.filed ++ t.buffered = t.writes := by
    intro t ht
    apply h.parts t
    rw [htables]
    exact List.mem_append_right _ ht
  rw [onFiles, hrecords, hlogged, htables, List.flatMap_append]
  unfold LosesLast at hlast
  rw [hlogged] at hlast
  cases hfin : e.flusher.finished with
  | false =>
    rw [hfin, if_neg (by simp)] at hlast
    refine ⟨cleared.flatMap Table.writes ++ left.flatMap Table.filed, ?_, fun key => by simp⟩
    rw [List.prefix_append_right_inj]
    exact GapFree.isPrefix hlast hparts
  | true =>
    cases left with
    | nil => exact ⟨_, List.prefix_append _ _, fun key => by simp⟩
    | cons front newer =>
      rw [hfin, if_pos rfl, List.tail_cons] at hlast
      obtain ⟨hfront, hgaps⟩ := hlast
      obtain ⟨hfront, hhidden⟩ := hfront front rfl
      have hfrontParts := hparts front (List.mem_cons_self ..)
      have hnewer := hgaps.isPrefix fun t ht => hparts t (List.mem_cons_of_mem _ ht)
      refine ⟨cleared.flatMap Table.writes ++
        (front.filed ++ front.found ++ newer.flatMap Table.filed), ?_, fun key => ?_⟩
      · rw [List.prefix_append_right_inj, List.flatMap_cons, ← hfrontParts, hfront]
        rcases hhidden with hnone | hnone
        · rw [hnone, List.append_nil, List.prefix_append_right_inj]
          exact hnewer
        · rw [flatMap_filed_nil hnone, List.append_nil, ← List.append_assoc, List.append_assoc]
          exact List.prefix_append _ _
      · have hover := last_overlaid hfrontParts key
        simp only [if_true, List.head?_cons, Option.toList_some, List.flatMap_cons,
          List.flatMap_nil, List.append_nil]
        rw [← List.append_assoc, List.append_assoc (cleared.flatMap _), last_append, last_append,
          hover, ← last_append, ← last_append, List.append_assoc]

/-! ## Runs with one client -/

/-- One client calls at a time, and files keep the tables. -/
def Alone (e : Engine) (a : Action) : Prop := e.OneClient a ∧ e.KeepsTables [] a

/-- A table that took a write has room for one. -/
theorem Kept.room {c : Config} {e : Engine} (h : Kept c e) {t : Table} (ht : t ∈ e.tables)
    (htook : t.writes ≠ []) : 1 ≤ c.maxNodes ∧ 1 ≤ c.maxSize := by
  obtain ⟨i, hi⟩ := List.mem_iff_getElem?.mp ht
  obtain ⟨hrec, hsized⟩ := h.fits.tables i t hi
  obtain ⟨w, rest, hw⟩ := List.exists_cons_of_ne_nil htook
  constructor
  · exact Nat.one_le_of_lt (hrec.nodes [] w rest hw).1
  · exact Nat.one_le_of_lt ((hsized trivial).sizes [] w rest hw)

/-- The tables take a first part of the calls, in their order. -/
theorem taken_first {c : Config} {e : Engine} (h : Reaches c Alone e) :
    e.tables.flatMap (·.inserted) <+: e.invoked := by
  have hkept : Kept c e := h.invariant (kept_start c) fun _ _ _ he hok hs => kept_step he hok.2 hs
  by_cases hroom : 1 ≤ c.maxNodes ∧ 1 ≤ c.maxSize
  · have hturn : InTurn e ∧ Placed e := by
      refine h.invariant (P := fun e => InTurn e ∧ Placed e)
        (fun stamp => ⟨in_turn_start c stamp, placed_start c stamp⟩) fun e a e' he hok hs => ?_
      exact ⟨in_turn_step hroom.1 hroom.2 he.1 he.2.nonempty hok.1 hs, placed_step he.2 hs⟩
    rw [hturn.1.taken, ← hturn.1.calls]
    exact List.prefix_append _ _
  · -- Without room no table takes a call.
    have hnone : e.tables.flatMap (·.inserted) = [] := by
      rw [List.flatMap_eq_nil_iff]
      intro t ht
      by_contra htook
      exact hroom (hkept.room ht fun hwrites => htook (List.map_eq_nil_iff.mp hwrites))
    rw [hnone]
    exact List.nil_prefix

theorem layers_first {c : Config} {e : Engine} (h : Reaches c Alone e) :
    e.popped ++ e.immutable <+: List.range e.tables.length := by
  have horder : InOrder e ∧ Placed e := by
    refine h.invariant (P := fun e => InOrder e ∧ Placed e)
      (fun stamp => ⟨rfl, placed_start c stamp⟩) fun e a e' he hok hs => ?_
    exact ⟨in_order_step he.1 he.2.nonempty hok.1 hs, placed_step he.2 hs⟩
  have hactive : List.range e.active <+: List.range e.tables.length := by
    rw [List.prefix_iff_eq_take, List.take_range, List.length_range]
    unfold active
    congr 1
    omega
  refine List.IsPrefix.trans ?_ hactive
  rw [← show e.popped ++ e.immutable ++ e.waiting = List.range e.active from horder.1]
  exact List.prefix_append _ _

/-- Where nothing that a crash takes is followed by what it leaves and no file is under way, a
restart recovers the effect of a first part of the calls. -/
theorem crash_keeps_first_calls {c : Config} {e : Engine} {dir : List DirEntry}
    (h : Reaches c Alone e) (hlast : e.LosesLast) (hunfinished : e.flusher.unfinished = [])
    (hclock : e.clock < 2 ^ 128) (hdir : dir.Perm e.disk) :
    ∃ calls, calls <+: e.invoked ∧
      Recovers c.hashing c.lsmlite dir fun key => readEntry (last key (asEntries calls)) := by
  have hkept : Kept c e := h.invariant (kept_start c) fun _ _ _ he hok hs => kept_step he hok.2 hs
  obtain ⟨ws, hws, hsame⟩ := hkept.reads_first (layers_first h) hlast
  have htaken : e.tables.flatMap Table.writes = asEntries (e.tables.flatMap (·.inserted)) := by
    rw [asEntries, List.map_flatMap]
    rfl
  rw [htaken] at hws
  obtain ⟨calls, hcalls, rfl⟩ := List.prefix_map_iff.mp hws
  refine ⟨calls, hcalls.trans (taken_first h), ?_⟩
  exact (hkept.recovers hunfinished hclock hdir).congr fun key => congrArg readEntry (hsame key)

/-! ## Two memtables -/

/-- Room for two nodes in a memtable. -/
def pairConfig : Config := ⟨flatHashing, 100, 2, 10⟩

/-- Two sets, the second at `now`, fill a table, and the third goes into the next. -/
def overflowingRun (now : Nat) : List Action :=
  [.spawn] ++ Session.setAt [97] [1] 0 ++ Session.setAt [98] [2] now ++
    Session.setAt [99] [3] now ++
    [.client 0 (.rotate ⟨1, now⟩), .client 0 .append, .client 0 .signal,
      .client 0 (.retry ⟨now, now⟩)]

theorem reaches_alone {actions : List Action} {e : Engine}
    (hr : runActions pairConfig (fun e a => e.OneClient a ∧ a.leavesTables = true)
      (start pairConfig ⟨0, 0⟩) actions = some e) : Reaches pairConfig Alone e :=
  (reaches_runActions (.start _) hr).mono fun _ _ hok => ⟨hok.1, keepsTables_of_leaves hok.2⟩

def fourSets : Entries :=
  [([97], .data [1]), ([98], .data [2]), ([99], .data [3]), ([100], .data [4])]

/-- The first table's writes are in its log's buffer. The third is in the file of the next, which
the fourth has flushed. -/
theorem crash_leaves_later :
    ∃ e, Reaches pairConfig (fun e a => e.OneClient a) e ∧ e.clock < 2 ^ 128 ∧
    e.flusher = .waiting ∧ ¬ ∃ calls, calls <+: e.invoked ∧
      Recovers flatHashing pairConfig.lsmlite e.disk fun key =>
        readEntry (last key (asEntries calls)) := by
  have hrun : (runActions pairConfig (fun e a => e.OneClient a ∧ a.leavesTables = true)
      (start pairConfig ⟨0, 0⟩)
      (overflowingRun 0 ++ Session.setAt [100] [4] 500)).map
        (fun e => (decide (e.clock < 2 ^ 128 ∧ e.flusher = .waiting), e.onFiles,
            asEntries e.invoked)) = some (true, [([99], .data [3])], fourSets) := by
    decide +kernel
  obtain ⟨e, he, hend⟩ := Option.map_eq_some_iff.mp hrun
  obtain ⟨hwaiting, hend⟩ := Prod.mk.inj hend
  obtain ⟨hfiles, hinvoked⟩ := Prod.mk.inj hend
  obtain ⟨hclock, hwaiting⟩ := of_decide_eq_true hwaiting
  have hreach := reaches_alone he
  have hkept : Kept pairConfig e := hreach.invariant (kept_start _) fun _ _ _ he hok hs =>
    kept_step he hok.2 hs
  have hrecovers := hkept.recovers (by rw [hwaiting]; rfl) hclock (List.Perm.refl _)
  refine ⟨e, hreach.mono fun _ _ hok => hok.1, hclock, hwaiting, ?_⟩
  rintro ⟨calls, hcalls, hall⟩
  have hkeys := congrFun (hall.unique hrecovers)
  have htake : asEntries calls <+: asEntries e.invoked := hcalls.map _
  rw [hinvoked] at htake
  have hlength := htake.length_le
  rw [List.prefix_iff_eq_take.mp htake, hfiles] at hkeys
  -- The third call comes after the first.
  have hfirst : ∀ n ≤ 4, readEntry (last [97] (fourSets.take n)) ≠ none ∨
      readEntry (last [99] (fourSets.take n)) = none := by decide
  rcases hfirst _ hlength with hfirst | hthird
  · exact hfirst (hkeys [97])
  · cases hthird.symm.trans (hkeys [99])

/-- The crash takes the last two calls. -/
theorem crash_keeps_first_call :
    ∃ e, Reaches pairConfig Alone e ∧ e.onFiles = [([97], .data [1])] ∧
    e.invoked.length = 3 ∧ ∃ calls, calls <+: e.invoked ∧
      Recovers flatHashing pairConfig.lsmlite e.disk fun key =>
        readEntry (last key (asEntries calls)) := by
  have hrun : (runActions pairConfig (fun e a => e.OneClient a ∧ a.leavesTables = true)
      (start pairConfig ⟨0, 0⟩)
      (overflowingRun 500)).map (fun e => (decide (e.LosesLast ∧ e.flusher.unfinished = [] ∧
          e.clock < 2 ^ 128), e.onFiles, e.invoked.length)) =
          some (true, [([97], .data [1])], 3) := by
    decide +kernel
  obtain ⟨e, he, hend⟩ := Option.map_eq_some_iff.mp hrun
  obtain ⟨hlast, hend⟩ := Prod.mk.inj hend
  obtain ⟨hfiles, hinvoked⟩ := Prod.mk.inj hend
  obtain ⟨hlast, hunfinished, hclock⟩ := of_decide_eq_true hlast
  have hreach := reaches_alone he
  exact ⟨e, hreach, hfiles, hinvoked,
    crash_keeps_first_calls hreach hlast hunfinished hclock (List.Perm.refl _)⟩

end Engine

end Lsmlite
