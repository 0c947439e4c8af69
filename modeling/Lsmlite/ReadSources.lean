import Lsmlite.FormatLimits
import Lsmlite.MemtableReads

/-!
# Where answers come from

In every interleaving of the clients' calls with each other and with flushes and compactions, a
`get` answers with bytes of a record of its key that a call has asked to write: with its value, or,
where a memtable was overwritten in place, with what an older value's range cuts out of it.
-/

namespace Lsmlite
open KeyValue

/-- What the record of `value` reads with the value range of the record of `old`. -/
def Record.cut (key old value : Blob) : Option (Option Blob) :=
  { Record.of key (.data value) with value := (Record.of key (.data old)).value }.valueSlice

/-- `v` is cut out of a record of `key` among `ws`, by the range of another. -/
def CutFrom (ws : Entries) (key v : Blob) : Prop :=
  ∃ old value, (key, .data old) ∈ ws ∧ (key, .data value) ∈ ws ∧
    Record.cut key old value = some (some v)

theorem CutFrom.mono {ws ws' : Entries} {key v : Blob} (h : CutFrom ws key v)
    (hsub : ∀ w ∈ ws, w ∈ ws') :
    CutFrom ws' key v := by
  obtain ⟨old, value, hold, hvalue, hcut⟩ := h
  exact ⟨old, value, hsub _ hold, hsub _ hvalue, hcut⟩

theorem Record.cut_eq {key old value : Blob} (h : old.length = value.length) :
    Record.cut key old value = some (some value) := by
  have hcanon : ({ Record.of key (.data value) with value := (Record.of key (.data old)).value } :
      Record).Canonical key (.data value) := ⟨rfl, rfl⟩
  exact (MemtableInner.valueSlice_kept hcanon rfl).mpr h

theorem CutFrom.of_mem {ws : Entries} {key v : Blob} (h : (key, .data v) ∈ ws) : CutFrom ws key v :=
  ⟨v, v, h, h, Record.cut_eq rfl⟩

/-- A value cut by a range of its own length is whole. -/
theorem CutFrom.whole {ws : Entries} {key v : Blob} (h : CutFrom ws key v) {n : Nat}
    (hlength : ∀ value, (key, .data value) ∈ ws → value.length = n) : (key, .data v) ∈ ws := by
  obtain ⟨old, value, hold, hvalue, hcut⟩ := h
  rw [Record.cut_eq ((hlength old hold).trans (hlength value hvalue).symm)] at hcut
  cases hcut
  exact hvalue

/-! ## Memtables -/

/-- What a memtable answers is cut out of a record it took. -/
theorem MemtableInner.Written.get_source {t : MemtableInner} {ws : Entries} (h : t.Written ws)
    {key v : Blob} (hget : t.get key = some (.data v)) : CutFrom ws key v := by
  rcases h.holds.get_cases key with ⟨_, hnone⟩ | ⟨e, n, hlast, hn, hcanon, hsome⟩
  · rw [hnone] at hget
    cases hget
  · rw [last_ofWrites] at hlast
    obtain ⟨i, hi⟩ := List.mem_iff_getElem?.mp hn
    have hvalue := h.ranged i n key hi hcanon.keySlice
    rw [hsome, Option.map_eq_some_iff] at hget
    obtain ⟨found, hslice, hquery⟩ := hget
    cases found with
    | none => cases hquery
    | some found =>
      cases hquery
      -- The record has a value range, so no write of the key was a tombstone.
      by_cases htomb : (key, Entry.tombstone) ∈ ws
      · rw [MemtableInner.keptRange, if_pos htomb] at hvalue
        simp [Record.valueSlice, hvalue] at hslice
      · rw [MemtableInner.keptRange, if_neg htomb] at hvalue
        obtain ⟨old, hfirst⟩ : ∃ old, first key ws = some (.data old) := by
          cases hf : first key ws with
          | none => simp [first_eq_none_iff.mp hf] at hlast
          | some e =>
            cases e with
            | data old => exact ⟨old, rfl⟩
            | tombstone => exact absurd (mem_of_first hf) htomb
        rw [hfirst, Option.bind_some] at hvalue
        cases e with
        | tombstone => exact absurd (mem_of_last hlast) htomb
        | data value =>
          refine ⟨old, value, mem_of_first hfirst, mem_of_last hlast, ?_⟩
          rw [← hslice, Record.cut, Record.valueSlice, Record.valueSlice, hvalue]
          simp only [hcanon.blob]

namespace Table

/-- The table holds the writes it took, with the value ranges that they have left. -/
def Written (t : Table) : Prop := t.inner.Written t.writes

theorem written_fresh (c : Config) (stamp : LsmliteInner.Stamp) :
    (Engine.freshTable c stamp).Written :=
  MemtableInner.written_new ..

theorem Written.taking {t : Table} (h : t.Written) {w : Write} {clock : Clock}
    {inner : MemtableInner} (hw : t.inner.write w.key w.entry clock = some (.ok inner)) :
    (t.taking inner w).Written := by
  have hfull : t.inner.full = false := by
    cases hf : t.inner.full with
    | false => rfl
    | true =>
      obtain ⟨err, herr⟩ := MemtableInner.write_full hf w.key w.entry clock
      cases hw.symm.trans herr
  rcases MemtableInner.Written.write h ⟨w.key, w.entry, clock⟩ hfull
    with ⟨t', hwrite, hwritten, _⟩ | ⟨hnone, _⟩
  · cases hw.symm.trans hwrite
    rw [Written, writes_taking]
    exact hwritten
  · cases hw.symm.trans hnone

end Table

theorem ImmutableMemtable.getLoop_source {key v : Blob} {tables : List MemtableInner}
    (h : getLoop key tables = some (.data v)) : ∃ t ∈ tables, t.get key = some (.data v) := by
  induction tables with
  | nil => cases h
  | cons t tables ih =>
    simp only [getLoop, Option.bind_eq_bind, Option.bind_eq_some_iff] at h
    obtain ⟨q, hq, h⟩ := h
    cases q with
    | data value =>
      cases h
      exact ⟨t, List.mem_cons_self, hq⟩
    | tombstone => cases h
    | none =>
      obtain ⟨t', ht', hget⟩ := ih h
      exact ⟨t', List.mem_cons_of_mem _ ht', hget⟩

/-! ## SSTables -/

theorem SSTableCache.searchTables_source {h : Hashing} {tables tables' : List SSTable}
    {ess : List Entries} (hs : SSTableCache.Holds h tables ess) {key v : Blob}
    (hsearch : searchTables h key tables = some (.ok v, tables')) :
    ∃ es ∈ ess, (key, .data v) ∈ es := by
  induction hs generalizing tables' with
  | nil => cases hsearch
  | @cons s es tables ess hs _ ih =>
    simp only [searchTables, Option.bind_eq_bind, Option.bind_eq_some_iff] at hsearch
    obtain ⟨⟨r, s'⟩, hfound, hsearch⟩ := hsearch
    have hr := hs.search_found hfound
    subst hr
    cases hlast : last key es with
    | none =>
      simp only [hlast, answerOf, Option.bind_eq_some_iff] at hsearch
      obtain ⟨⟨r', rest⟩, hrest, heq⟩ := hsearch
      cases heq
      obtain ⟨es', hes', hmem⟩ := ih hrest
      exact ⟨es', List.mem_cons_of_mem _ hes', hmem⟩
    | some e =>
      cases e with
      | data value =>
        simp only [hlast, answerOf] at hsearch
        cases hsearch
        exact ⟨es, List.mem_cons_self, mem_of_last hlast⟩
      | tombstone =>
        simp only [hlast, answerOf] at hsearch
        cases hsearch

namespace Engine

/-- Every value answered so far is cut out of a record that a call has asked to write. -/
def Sourced (e : Engine) : Prop :=
  ∀ a ∈ e.answers, ∀ v, a.result = some v → CutFrom (asEntries e.invoked) a.key v

theorem Reaches.written {c : Config} {ok : Engine → Action → Prop} {e : Engine}
    (h : Reaches c ok e) :
    ∀ t ∈ e.tables, t.Written := by
  refine h.invariant (P := fun e => ∀ t ∈ e.tables, t.Written)
      (fun stamp t ht => ?_) fun e a e' he _ hs =>
    forall_tables_step (Table.written_fresh c) (fun _ _ _ _ ht hw => ht.taking hw)
      (fun _ ht => ht) he hs
  rw [List.mem_singleton.mp ht]
  exact Table.written_fresh c stamp

/-- What a table took was called. -/
theorem Known.source {e : Engine} (h : Known e) {t : Table} (ht : t ∈ e.tables)
    (hwritten : t.Written) {key v : Blob} (hget : t.inner.get key = some (.data v)) :
    CutFrom (asEntries e.invoked) key v := by
  refine (MemtableInner.Written.get_source hwritten hget).mono fun w hw => ?_
  obtain ⟨w', hw', rfl⟩ := List.mem_map.mp hw
  exact List.mem_map_of_mem (h.taken t ht w' hw')

theorem readQuery_eq_some {q : MemtableQuery} {v : Blob} (h : LsmliteInner.readQuery q = some v) :
    q = .data v := by
  cases q <;> cases h
  rfl

/-- The table in the queue that answers. -/
theorem queue_source {e : Engine} {queue : ImmutableMemtable} (hqueue : e.queue = some queue)
    {key v : Blob} (hget : queue.get key = some (.data v)) :
    ∃ t ∈ e.tables, t.inner.get key = some (.data v) := by
  obtain ⟨inner, hinner, hfound⟩ := ImmutableMemtable.getLoop_source hget
  have htables :
      List.Forall₂ (fun inner i => (e.tables[i]?).map (·.inner) = some inner) queue e.immutable :=
    List.Forall₂.flip (mapM_some hqueue)
  obtain ⟨i, _, hi⟩ := exists_of_forall₂ htables (List.mem_reverse.mp hinner)
  obtain ⟨t, ht, rfl⟩ := Option.map_eq_some_iff.mp hi
  exact ⟨t, List.mem_of_getElem? ht, hfound⟩

theorem Sourced.same {e e' : Engine} (h : Sourced e) (hanswers : e'.answers = e.answers)
    (hinvoked : e.invoked <+: e'.invoked) : Sourced e' := by
  intro a ha v hv
  rw [hanswers] at ha
  exact (h a ha v hv).mono (hinvoked.sublist.map _).subset

theorem Sourced.answered {e : Engine} (h : Sourced e) {i : Nat} {key : Blob} {before : List Write}
    {result : Option Blob} (hresult : ∀ v, result = some v → CutFrom (asEntries e.invoked) key v) :
    Sourced (e.answer i key before result) := by
  intro a ha v hv
  rcases List.mem_append.mp ha with ha | ha
  · exact h a ha v hv
  · rw [List.mem_singleton.mp ha] at hv ⊢
    exact hresult v hv

theorem sourced_step {c : Config} {e e' : Engine} {a : Action} (h : Sourced e)
    (hwritten : ∀ t ∈ e.tables, t.Written) (hk : Known e) (hl : Layered c.hashing Sound e)
    (hs : step c e a = some e') : Sourced e' := by
  have hinvoked := invoked_prefix hs
  cases step_cases hs with
  | spawn | drop => exact h.same rfl hinvoked
  | background hb => cases hb <;> exact h.same rfl hinvoked
  | client hc =>
    cases hc with
    | @readMemtable key before table q hi htable hq =>
      have hmem := List.mem_of_getElem? htable
      cases hr : LsmliteInner.readQuery q with
      | none => exact h.same rfl List.prefix_rfl
      | some v =>
        rw [readQuery_eq_some hr] at hq
        apply h.answered
        intro found hfound
        cases hfound
        exact hk.source hmem (hwritten table hmem) hq
    | @readImmutable key before queue q hi hqueue hq =>
      cases hr : LsmliteInner.readQuery q with
      | none => exact h.same rfl List.prefix_rfl
      | some v =>
        rw [readQuery_eq_some hr] at hq
        obtain ⟨t, hmem, hget⟩ := queue_source hqueue hq
        apply h.answered
        intro found hfound
        cases hfound
        exact hk.source hmem (hwritten t hmem) hget
    | @readSstables key before r sstableCache hi hr =>
      apply Sourced.answered (e := { e with sstableCache }) h
      intro v hv
      cases r with
      | error err => cases hv
      | ok value =>
        cases hv
        obtain ⟨ess, hess, hsound⟩ := hl.cache.tables
        obtain ⟨⟨_, tables'⟩, hsearch, heq⟩ := Option.map_eq_some_iff.mp hr
        cases heq
        obtain ⟨es, hes, hmem⟩ := SSTableCache.searchTables_source hess hsearch
        exact CutFrom.of_mem (hk.flushed _ (hsound es hes _ hmem))
    | _ => exact h.same rfl hinvoked

/-- A `get` answers only with bytes of a record of its key that some call has asked to write. Where
all values written for the key are as long as each other, that is one of these values. -/
theorem answers_sourced {c : Config} {e : Engine} (h : Reaches c FileFits e) {a : Answer}
    (ha : a ∈ e.answers) {v : Blob} (hv : a.result = some v) :
    CutFrom (asEntries e.invoked) a.key v ∧
      ∀ n, (∀ value, (a.key, .data value) ∈ asEntries e.invoked → value.length = n) →
        ∃ w ∈ e.invoked, w.key = a.key ∧ w.entry = .data v := by
  have hsourced : Sourced e := by
    clear ha hv
    induction h with
    | start stamp =>
      intro a ha
      cases ha
    | next h _ hs ih => exact sourced_step ih h.written h.known h.sound hs
  have hcut := hsourced a ha v hv
  refine ⟨hcut, fun n hlength => ?_⟩
  obtain ⟨w, hw, heq⟩ := List.mem_map.mp (hcut.whole hlength)
  obtain ⟨hkey, hentry⟩ := Prod.mk.inj heq
  exact ⟨w, hw, hkey, hentry⟩

/-- A `get` of a value that only an SSTable has. -/
def flushedRun : List Action :=
  [.spawn] ++ writeSteps 0 [97] [1] ++ swapSteps 0 [98] [2] 1 ++ [.client 0 .append,
    .client 0 .signal] ++ flushCycle 2 ++ [.spawn] ++ getSteps 1 [97] ++ [.client 1 .readSstables]

theorem answers_sourced_flushed : ∃ e, Reaches tinyConfig FileFits e ∧
    ∃ a ∈ e.answers, a.key = [97] ∧ a.result = some [1] ∧ CutFrom (asEntries e.invoked) a.key [1] ∧
      ∀ n, (∀ value, (a.key, .data value) ∈ asEntries e.invoked → value.length = n) →
        ∃ w ∈ e.invoked, w.key = a.key ∧ w.entry = .data [1] := by
  have hrun : (runActions tinyConfig (fun _ _ => True) (start tinyConfig ⟨0, 0⟩) flushedRun).map
      (fun e => decide (asEntries e.invoked = [([97], .data [1]), ([98], .data [2])] ∧
        ∃ a ∈ e.answers, a.key = [97] ∧ a.result = some [1])) = some true := by
    decide +kernel
  obtain ⟨e, he, hfacts⟩ := Option.map_eq_some_iff.mp hrun
  obtain ⟨hinvoked, a, ha, hkey, hresult⟩ := of_decide_eq_true hfacts
  have hfits : e.FitsFormat := by
    unfold FitsFormat
    rw [hinvoked]
    exact representable_of_gap (by decide +kernel) (by decide +kernel) (by decide +kernel)
  have hreach := (reaches_runActions (.start _) he).within hfits
  exact ⟨e, hreach, a, ha, hkey, hresult, answers_sourced hreach ha hresult⟩

end Engine

end Lsmlite
