import Lsmlite.TableReads

/-!
# Reads during maintenance

A `get` reads the active table, the queue and the cache at three different times, while a table
moves from the first to the last. It finds a key that was written once, unless it reads the queue
while the key's table is swapped out and not appended yet.
-/

namespace Lsmlite
open KeyValue

/-- The lists hold only what was flushed, and a key flushed as data only. -/
structure Reflects (ws : Entries) (ess : List Entries) : Prop where
  sound : ∀ es ∈ ess, ∀ w ∈ es, w ∈ ws
  covers : ∀ key, (∃ w ∈ ws, w.1 = key) → (∀ w ∈ ws, w.1 = key → ∃ value, w.2 = .data value) →
    findEntry key ess ≠ none

/-- The key's records all lie in their windows. -/
def AllInWindow (ws : Entries) (key : Blob) : Prop := ∀ w ∈ ws, w.1 = key → InWindow key w.2

theorem mem_ofWrites {ws : Entries} {w : Blob × Entry} (h : w ∈ ofWrites ws) : w ∈ ws := by
  have hlast := last_of_mem (sorted_ofWrites ws) (show (w.1, w.2) ∈ ofWrites ws from h)
  rw [last_ofWrites] at hlast
  exact mem_of_last hlast

theorem findEntry_ne_none {key : Blob} {ess : List Entries} :
    findEntry key ess ≠ none ↔ ∃ es ∈ ess, last key es ≠ none := by
  rw [findEntry, Ne, List.findSome?_eq_none_iff]
  push Not
  rfl

theorem mem_of_findEntry {key : Blob} {ess : List Entries} {e : Entry}
    (h : findEntry key ess = some e) :
    ∃ es ∈ ess, (key, e) ∈ es := by
  obtain ⟨es, hes, hlast⟩ := List.exists_of_findSome?_eq_some h
  exact ⟨es, hes, mem_of_last hlast⟩

theorem reflects_rule (h : Hashing) : CacheRule h (fun _ => True) AllInWindow Reflects where
  nil := ⟨by simp, by simp⟩
  push := by
    rintro ws ess tw ⟨hsound, hcovers⟩
    constructor
    · intro es hes w hw
      rcases List.mem_cons.mp hes with rfl | hes
      · exact List.mem_append_right _ (mem_ofWrites hw)
      · exact List.mem_append_left _ (hsound es hes w hw)
    · rintro key ⟨w, hw, hk⟩ hdata
      rw [findEntry_ne_none]
      rcases List.mem_append.mp hw with hw | hw
      · obtain ⟨es, hes, hlast⟩ := findEntry_ne_none.mp
          (hcovers key ⟨w, hw, hk⟩ fun w' hw' => hdata w' (List.mem_append_left _ hw'))
        exact ⟨es, List.mem_cons_of_mem _ hes, hlast⟩
      · refine ⟨_, List.mem_cons_self .., ?_⟩
        rw [last_ofWrites, Ne, last_eq_none_iff]
        exact fun hall => hall w hw hk
  compact := by
    rintro ws ess iters es ⟨hsound, hcovers⟩ hcompacted -
    constructor
    · intro es' hes' w hw
      rw [List.mem_singleton.mp hes'] at hw
      obtain ⟨_, es'', hes'', hw⟩ := hcompacted.data w hw
      exact hsound es'' hes'' w hw
    · intro key hkey hdata
      rw [findEntry_ne_none]
      refine ⟨es, List.mem_singleton_self es, hcompacted.covers key ?_ ?_⟩
      · exact findEntry_ne_none.mp (hcovers key hkey hdata)
      · exact fun es' hes' e he => hdata (key, e) (hsound es' hes' _ (mem_of_last he)) rfl
  window := by
    rintro ws ess key ⟨hsound, _⟩ hwin e he
    obtain ⟨es, hes, hmem⟩ := mem_of_findEntry he
    exact hwin (key, e) (hsound es hes _ hmem) rfl

namespace Engine

/-! ## The tables that took a write -/

/-- Table `j` took `w`. -/
def TookBy (e : Engine) (j : Nat) (w : Write) : Prop :=
  ∃ t, e.tables[j]? = some t ∧ w ∈ t.inserted

/-- No other call writes the key. -/
def Sole (e : Engine) (w : Write) : Prop := ∀ w' ∈ e.invoked, w'.key = w.key → w' = w

theorem mem_writesOf {e : Engine} {j : Nat} {v : Blob × Entry} :
    v ∈ e.writesOf j ↔ ∃ w, e.TookBy j w ∧ (w.key, w.entry) = v := by
  constructor
  · intro hv
    cases ht : e.tables[j]? with
    | none => simp [writesOf, ht] at hv
    | some t =>
      rw [writesOf_eq ht] at hv
      obtain ⟨w, hw, heq⟩ := List.mem_map.mp hv
      exact ⟨w, ⟨t, ht, hw⟩, heq⟩
  · rintro ⟨w, ⟨t, ht, hw⟩, rfl⟩
    rw [writesOf_eq ht]
    exact List.mem_map_of_mem hw

theorem Accounted.returned_of_took {e : Engine} (h : Accounted e) {j : Nat} {w : Write}
    (hw : e.TookBy j w) : w ∈ e.returned := by
  obtain ⟨t, ht, hin⟩ := hw
  exact h.taken.mem_iff.mp (List.mem_flatMap.mpr ⟨t, List.mem_of_getElem? ht, hin⟩)

theorem Accounted.invoked_of_returned {e : Engine} (h : Accounted e) {w : Write}
    (hw : w ∈ e.returned) : w ∈ e.invoked :=
  h.calls.mem_iff.mp (List.mem_append_left _ hw)

theorem Accounted.took_of_returned {e : Engine} (h : Accounted e) {w : Write}
    (hw : w ∈ e.returned) :
    ∃ j, e.TookBy j w := by
  obtain ⟨t, ht, hin⟩ := List.mem_flatMap.mp (h.taken.mem_iff.mpr hw)
  obtain ⟨j, hj⟩ := List.mem_iff_getElem?.mp ht
  exact ⟨j, t, hj, hin⟩

/-- What tables say of a key that is written once. -/
theorem Sole.of_last {e : Engine} (hacc : Accounted e) {w : Write} (hw : e.Sole w) {js : List Nat}
    {entry : Entry} (h : last w.key (js.flatMap e.writesOf) = some entry) :
    entry = w.entry ∧ ∃ j ∈ js, e.TookBy j w := by
  obtain ⟨j, hj, hmem⟩ := List.mem_flatMap.mp (mem_of_last h)
  obtain ⟨w', htook, heq⟩ := mem_writesOf.mp hmem
  obtain ⟨hkey, hentry⟩ := Prod.mk.inj heq
  have hsame := hw w' (hacc.invoked_of_returned (hacc.returned_of_took htook)) hkey
  subst hsame
  exact ⟨hentry.symm, j, hj, htook⟩

theorem Sole.last {e : Engine} (hacc : Accounted e) {w : Write} (hw : e.Sole w) {js : List Nat}
    {j : Nat} (hj : j ∈ js) (htook : e.TookBy j w) :
    last w.key (js.flatMap e.writesOf) = some w.entry := by
  have hmem : (w.key, w.entry) ∈ js.flatMap e.writesOf :=
    List.mem_flatMap.mpr ⟨j, hj, mem_writesOf.mpr ⟨w, htook, rfl⟩⟩
  cases hlast : KeyValue.last w.key (js.flatMap e.writesOf) with
  | none => exact absurd rfl (last_eq_none_iff.mp hlast _ hmem)
  | some entry => rw [(hw.of_last hacc hlast).1]

/-- The records of a key that is written once are in step. -/
theorem Sole.inStep {e : Engine} (hacc : Accounted e) {w : Write} (hw : e.Sole w) {t : Table}
    (ht : t ∈ e.tables) (hfresh : t.FreshInStep) : t.InStep w.key := by
  refine hfresh w.key ?_
  have hnodup : t.inserted.Nodup :=
    (List.nodup_flatMap.mp (hacc.taken.nodup_iff.mpr hacc.nodup)).1 t ht
  have hall : ∀ w' ∈ t.inserted.filter (·.key = w.key), w' = w := by
    intro w' hw'
    obtain ⟨hin, hkey⟩ := List.mem_filter.mp hw'
    obtain ⟨j, hj⟩ := List.mem_iff_getElem?.mp ht
    exact hw w' (hacc.invoked_of_returned (hacc.returned_of_took ⟨t, hj, hin⟩))
      (of_decide_eq_true hkey)
  have hone : (t.inserted.filter (·.key = w.key)).length ≤ 1 := by
    have hfilter := hnodup.filter (·.key = w.key)
    rw [List.eq_replicate_iff.mpr ⟨rfl, hall⟩] at hfilter
    exact List.nodup_replicate.mp hfilter
  rw [Table.writes, List.filter_map, List.length_map]
  exact hone

/-! ## What a step leaves a reader -/

/-- Nothing a reader relies on is taken back. -/
structure Grows (e e' : Engine) : Prop where
  invoked : ∀ w ∈ e.invoked, w ∈ e'.invoked
  returned : ∀ w ∈ e.returned, w ∈ e'.returned
  active : e.active ≤ e'.active
  cached : ∀ j ∈ e.cached, j ∈ e'.cached
  took : ∀ j w, e.TookBy j w → e'.TookBy j w

theorem Sole.of_grows {e e' : Engine} {w : Write} (h : e'.Sole w) (hg : Grows e e') : e.Sole w :=
  fun w' hw' => h w' (hg.invoked w' hw')

theorem tookBy_step {c : Config} {e e' : Engine} {a : Action} (hs : step c e a = some e') {j : Nat}
    {w : Write} (h : e.TookBy j w) : e'.TookBy j w := by
  obtain ⟨t, ht, hw⟩ := h
  have hlt := (List.getElem?_eq_some_iff.mp ht).1
  cases step_tables hs with
  | took i w' clock table inner _ htable _ hstep =>
    subst hstep
    by_cases hj : j = e.active
    · subst hj
      cases ht.symm.trans htable
      exact ⟨_, List.getElem?_set_self hlt, List.mem_append_left _ hw⟩
    · exact ⟨t, (List.getElem?_set_ne (Ne.symm hj)).trans ht, hw⟩
  | fresh i w' stamp _ _ hstep =>
    exact ⟨t, by rw [hstep, List.getElem?_append_left hlt, ht], hw⟩
  | removed ts i t' _ _ ht' hstep =>
    by_cases hj : j = i
    · subst hj
      cases ht.symm.trans ht'
      exact ⟨{ t with walRemoved := true }, by rw [hstep, List.getElem?_set_self hlt], hw⟩
    · exact ⟨t, by rw [hstep, List.getElem?_set_ne (Ne.symm hj), ht], hw⟩
  | other hsame => exact ⟨t, by rw [hsame, ht], hw⟩

theorem active_step {c : Config} {e e' : Engine} {a : Action} (hs : step c e a = some e') :
    e.active ≤ e'.active := by
  unfold active
  cases step_tables hs with
  | took i w clock table inner _ _ _ hstep =>
    subst hstep
    exact Nat.le_of_eq (congrArg (· - 1) (List.length_set ..).symm)
  | fresh i w stamp _ _ hstep =>
    rw [hstep, List.length_append]
    exact Nat.sub_le_sub_right (Nat.le_add_right ..) 1
  | removed ts i t _ _ _ hstep => rw [hstep, List.length_set]
  | other hsame => rw [hsame]

theorem invoked_step {c : Config} {e e' : Engine} {a : Action} (hs : step c e a = some e') :
    (∀ w ∈ e.invoked, w ∈ e'.invoked) ∧ ∀ w ∈ e.returned, w ∈ e'.returned := by
  cases step_cases hs with
  | spawn hopen => exact ⟨fun _ hw => hw, fun _ hw => hw⟩
  | drop hopen hidle => exact ⟨fun _ hw => hw, fun _ hw => hw⟩
  | client h =>
    cases h with
    | call hi hopen key entry => exact ⟨fun _ hw => List.mem_append_left _ hw, fun _ hw => hw⟩
    | attemptOk hi htable hw => exact ⟨fun _ hw => hw, fun _ hw => List.mem_append_left _ hw⟩
    | retryOk hi htable hw => exact ⟨fun _ hw => hw, fun _ hw => List.mem_append_left _ hw⟩
    | retryFull hi htable hw => exact ⟨fun _ hw => hw, fun _ hw => List.mem_append_left _ hw⟩
    | @readMemtable key before table q hi htable hq =>
      cases LsmliteInner.readQuery q <;> exact ⟨fun _ hw => hw, fun _ hw => hw⟩
    | @readImmutable key before queue q hi hqueue hq =>
      cases LsmliteInner.readQuery q <;> exact ⟨fun _ hw => hw, fun _ hw => hw⟩
    | _ => exact ⟨fun _ hw => hw, fun _ hw => hw⟩
  | background h => cases h <;> exact ⟨fun _ hw => hw, fun _ hw => hw⟩

theorem cached_step {c : Config} {e e' : Engine} {a : Action} (hl : Loading c.hashing e)
    (hs : step c e a = some e') {j : Nat} (hj : j ∈ e.cached) : j ∈ e'.cached := by
  cases step_cases hs with
  | spawn hopen => exact hj
  | drop hopen hidle => exact hj
  | client h => rwa [cached_client hl h]
  | @background a _ h =>
    by_cases ha : a = .pushTable
    · subst ha
      cases h with
      | pushTable hc hfile htable =>
        unfold cached at hj
        rw [hc, List.append_nil] at hj
        exact List.mem_append_left _ hj
    · rwa [cached_background h ha]

theorem grows_step {c : Config} {e e' : Engine} {a : Action} (hl : Loading c.hashing e)
    (hs : step c e a = some e') : Grows e e' where
  invoked := (invoked_step hs).1
  returned := (invoked_step hs).2
  active := active_step hs
  cached _ hj := cached_step hl hs hj
  took _ _ hw := tookBy_step hs hw

/-! ## The reader -/

/-- The read a client is about to make, its key, and the calls that had returned when the `get`
began. -/
def readOf : Phase → Option (ClientAction × Blob × List Write)
  | .readingMemtable key before => some (.readMemtable, key, before)
  | .readingImmutable key before => some (.readImmutable, key, before)
  | .readingSstables key before => some (.readSstables, key, before)
  | _ => none

/-- The only write of `key` stores `value`. -/
def Stored (e : Engine) (key : Blob) (value : Blob) (w : Write) : Prop :=
  w.key = key ∧ w.entry = .data value ∧ e.Sole w

/-- The queue is not read while the key's table is swapped out and not appended. -/
def NotInTransit (e : Engine) (a : Action) : Prop :=
  match a with
  | .client i .readImmutable =>
    match e.clients[i]? with
    | some (.readingImmutable key _) => ∀ j ∈ e.waiting, ∀ w ∈ e.writesOf j, w.1 ≠ key
    | _ => True
  | _ => True

instance (e : Engine) (a : Action) : Decidable (e.NotInTransit a) := by
  -- `casesOn` leaves no equations in what is computed.
  unfold NotInTransit
  induction a using Engine.Action.casesOn with
  | client i b =>
    induction b using Engine.ClientAction.casesOn with
    | readImmutable =>
      dsimp only
      induction e.clients[i]? using Option.casesOn with
      | none => exact instDecidableTrue
      | some p => induction p using Phase.casesOn <;> dsimp only <;> infer_instance
    | _ => exact instDecidableTrue
  | _ => exact instDecidableTrue

/-- Retries find room, the queue is not read while the key's table is on its way to it, and files
and SSTable reads stay within the limits of the format. -/
def ReadsSafely (e : Engine) (a : Action) : Prop :=
  e.RetryHasRoom a ∧ e.NotInTransit a ∧ e.CacheStep (fun _ => True) AllInWindow a

/-- The key's table is in a layer that the reader has not passed. -/
def ReaderOk (e : Engine) (p : Phase) : Prop :=
  match p with
  | .readingMemtable _ before => ∀ w ∈ before, w ∈ e.returned
  | .readingImmutable key before => ∀ w ∈ before, ∀ value, e.Stored key value w →
    ∃ j < e.active, e.TookBy j w
  | .readingSstables key before => ∀ w ∈ before, ∀ value, e.Stored key value w →
    ∃ j ∈ e.cached, e.TookBy j w
  | _ => True

theorem Stored.of_grows {e e' : Engine} {key value : Blob} {w : Write} (h : e'.Stored key value w)
    (hg : Grows e e') : e.Stored key value w :=
  ⟨h.1, h.2.1, h.2.2.of_grows hg⟩

theorem ReaderOk.grows {e e' : Engine} {p : Phase} (h : e.ReaderOk p) (hg : Grows e e') :
    e'.ReaderOk p := by
  cases p with
  | readingMemtable key before => exact fun w hw => hg.returned w (h w hw)
  | readingImmutable key before =>
    intro w hw value hstored
    obtain ⟨j, hj, htook⟩ := h w hw value (hstored.of_grows hg)
    exact ⟨j, Nat.lt_of_lt_of_le hj hg.active, hg.took j w htook⟩
  | readingSstables key before =>
    intro w hw value hstored
    obtain ⟨j, hj, htook⟩ := h w hw value (hstored.of_grows hg)
    exact ⟨j, hg.cached j hj, hg.took j w htook⟩
  | _ => trivial

/-- What the reads of a run rest on. -/
structure ReadsInv (h : Hashing) (e : Engine) : Prop where
  layered : Layered h Reflects e
  accounted : Accounted e
  fresh : ∀ t ∈ e.tables, t.FreshInStep
  readers : ∀ p ∈ e.clients, e.ReaderOk p
  answers : ∀ ans ∈ e.answers, ∀ w ∈ ans.before, ∀ value, e.Stored ans.key value w →
    ans.result = some value

/-- The read of the active table. -/
theorem ReadsInv.readMemtable {h : Hashing} {e : Engine} (hinv : ReadsInv h e) {w : Write}
    (hw : w ∈ e.returned) {key value : Blob} (hstored : e.Stored key value w) {t : Table}
    (ht : e.tables[e.active]? = some t) :
    (t.inner.get key = some (.data value)) ∨
    t.inner.get key = some .none ∧ ∃ j < e.active, e.TookBy j w := by
  obtain ⟨rfl, hentry, hsole⟩ := hstored
  have hin := List.mem_of_getElem? ht
  have hget := (hinv.layered.took t hin).get (hsole.inStep hinv.accounted hin (hinv.fresh t hin))
  have hwrites : t.writes = [e.active].flatMap e.writesOf := by
    rw [List.flatMap_singleton, writesOf_eq ht]
  obtain ⟨j, htook⟩ := hinv.accounted.took_of_returned hw
  cases hlast : KeyValue.last w.key t.writes with
  | some entry =>
    obtain ⟨rfl, _⟩ := hsole.of_last hinv.accounted (hwrites ▸ hlast)
    rw [hlast, hentry] at hget
    exact Or.inl hget
  | none =>
    rw [hlast] at hget
    refine Or.inr ⟨hget, j, ?_, htook⟩
    obtain ⟨t', ht', _⟩ := id htook
    have hlt := (List.getElem?_eq_some_iff.mp ht').1
    have hne : j ≠ e.active := by
      rintro rfl
      rw [hwrites, hsole.last hinv.accounted (List.mem_singleton_self _) htook] at hlast
      cases hlast
    unfold active at hne ⊢
    omega

/-- The read of the queue. -/
theorem ReadsInv.readImmutable {h : Hashing} {e : Engine} (hinv : ReadsInv h e) {w : Write}
    {key value : Blob} (hstored : e.Stored key value w) (hbehind : ∃ j < e.active, e.TookBy j w)
    (htransit : ∀ j ∈ e.waiting, ∀ v ∈ e.writesOf j, v.1 ≠ key) :
    ∃ queue, e.queue = some queue ∧ (queue.get key = some (.data value) ∨
      queue.get key = some .none ∧ ∃ j ∈ e.cached, e.TookBy j w) := by
  obtain ⟨rfl, hentry, hsole⟩ := hstored
  obtain ⟨queue, hqueue, hget⟩ := queue_get hinv.layered.placed hinv.layered.took w.key (by
    intro t ht
    have hmem := List.mem_reverse.mp (List.mem_of_find?_eq_some ht)
    obtain ⟨i, _, hi⟩ := List.mem_filterMap.mp hmem
    have hin := List.mem_of_getElem? hi
    exact hsole.inStep hinv.accounted hin (hinv.fresh t hin))
  refine ⟨queue, hqueue, ?_⟩
  cases hlast : KeyValue.last w.key e.queued with
  | some entry =>
    obtain ⟨rfl, _⟩ := hsole.of_last hinv.accounted hlast
    rw [hlast, hentry] at hget
    exact Or.inl hget
  | none =>
    rw [hlast] at hget
    obtain ⟨j, hj, htook⟩ := hbehind
    refine Or.inr ⟨hget, j, ?_, htook⟩
    -- Not active, not in transit and not in the queue: it has been popped.
    have hplace := hinv.layered.placed.once.mem_iff.mpr (List.mem_range.mpr hj)
    rcases List.mem_append.mp hplace with hplace | hplace
    · rcases List.mem_append.mp hplace with hplace | hplace
      · exact List.mem_append_left _ hplace
      · have := hsole.last hinv.accounted hplace htook
        rw [queued] at hlast
        rw [hlast] at this
        cases this
    · exact absurd rfl (htransit j hplace (w.key, w.entry) (mem_writesOf.mpr ⟨w, htook, rfl⟩))

/-- The read of the cache. -/
theorem ReadsInv.readSstables {h : Hashing} {e : Engine} (hinv : ReadsInv h e) {w : Write}
    {key value : Blob} (hstored : e.Stored key value w) (hcached : ∃ j ∈ e.cached, e.TookBy j w)
    (hwin : AllInWindow e.flushed key) :
    ∃ r sstableCache, e.sstableCache.search h key = some (r, sstableCache) ∧
      r.toOption = some value := by
  obtain ⟨rfl, hentry, hsole⟩ := hstored
  obtain ⟨ess, r, sstableCache, hrel, hsearch, hr, _⟩ :=
    hinv.layered.cache.search (reflects_rule h) hwin
  refine ⟨r, sstableCache, hsearch, ?_⟩
  obtain ⟨j, hj, htook⟩ := hcached
  have hall : ∀ v ∈ e.flushed, v.1 = w.key → v.2 = .data value := by
    rintro ⟨key, entry⟩ hv rfl
    obtain ⟨i, _, hi⟩ := List.mem_flatMap.mp hv
    obtain ⟨w', htook', heq⟩ := mem_writesOf.mp hi
    obtain ⟨hk, he⟩ := Prod.mk.inj heq
    have hsame :=
      hsole w' (hinv.accounted.invoked_of_returned (hinv.accounted.returned_of_took htook')) hk
    rw [← hentry, ← hsame]
    exact he.symm
  have hmem : (w.key, w.entry) ∈ e.flushed :=
    List.mem_flatMap.mpr ⟨j, hj, mem_writesOf.mpr ⟨w, htook, rfl⟩⟩
  have hfound := hrel.covers w.key ⟨_, hmem, rfl⟩ fun v hv hk => ⟨value, hall v hv hk⟩
  obtain ⟨entry, hentry'⟩ := Option.ne_none_iff_exists'.mp hfound
  obtain ⟨es, hes, hin⟩ := mem_of_findEntry hentry'
  have hdata : entry = .data value := hall _ (hrel.sound es hes _ hin) rfl
  rw [hr, hentry', hdata]
  rfl

/-- A read that meets the condition does not panic. -/
theorem ReadsInv.reads {c : Config} {e : Engine} (hinv : ReadsInv c.hashing e) {i : Nat} {p : Phase}
    {a : ClientAction} {key : Blob} {before : List Write} (hi : e.clients[i]? = some p)
    (hp : readOf p = some (a, key, before)) {w : Write} (hw : w ∈ before) {value : Blob}
    (hstored : e.Stored key value w) (hok : e.ReadsSafely (.client i a)) :
    ∃ e', step c e (.client i a) = some e' := by
  obtain ⟨_, htransit, hcache⟩ := hok
  have hreader := hinv.readers p (List.mem_of_getElem? hi)
  cases p with
  | readingMemtable key before =>
    cases hp
    obtain ⟨t, ht⟩ := hinv.layered.placed.active
    obtain ⟨q, hq⟩ : ∃ q, t.inner.get key = some q := by
      rcases hinv.readMemtable (hreader w hw) hstored ht with hget | ⟨hget, _⟩
      · exact ⟨_, hget⟩
      · exact ⟨_, hget⟩
    simp only [step, clientStep, hi, ht, hq, Option.bind_eq_bind, Option.bind_some]
    cases LsmliteInner.readQuery q <;> exact ⟨_, rfl⟩
  | readingImmutable key before =>
    cases hp
    simp only [NotInTransit, hi] at htransit
    obtain ⟨queue, hqueue, hget⟩ := hinv.readImmutable hstored (hreader w hw value hstored) htransit
    obtain ⟨q, hq⟩ : ∃ q, queue.get key = some q := by
      rcases hget with hget | ⟨hget, _⟩
      · exact ⟨_, hget⟩
      · exact ⟨_, hget⟩
    simp only [step, clientStep, hi, hqueue, hq, Option.bind_eq_bind, Option.bind_some]
    cases LsmliteInner.readQuery q <;> exact ⟨_, rfl⟩
  | readingSstables key before =>
    cases hp
    simp only [CacheStep, hi] at hcache
    obtain ⟨r, sstableCache, hsearch, _⟩ :=
      hinv.readSstables hstored (hreader w hw value hstored) hcache
    simp only [step, clientStep, hi, hsearch, Option.bind_eq_bind, Option.bind_some]
    cases r <;> exact ⟨_, rfl⟩
  | _ => cases hp

end Engine

end Lsmlite
