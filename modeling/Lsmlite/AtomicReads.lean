import Lsmlite.FairRuns
import Lsmlite.MapRuns

/-!
# Reads are atomic

A `get` asks three layers at three times, and writes, rotations, flushes and compactions go on
between them. Under the conditions below it answers as if it had read everything at one moment of
its call.
-/

namespace Lsmlite
open KeyValue

namespace Engine

/-! ## The tables in their order -/

/-- The writes of the first `n` tables, in the order in which they took effect. -/
def upTo (e : Engine) (n : Nat) : Entries := (List.range n).flatMap e.writesOf

/-- All writes, in the order in which they took effect. -/
def taken (e : Engine) : Entries := e.upTo e.tables.length

theorem upTo_succ (e : Engine) (n : Nat) : e.upTo (n + 1) = e.upTo n ++ e.writesOf n := by
  rw [upTo, List.range_succ, List.flatMap_append, List.flatMap_singleton]
  rfl

theorem taken_eq {e : Engine} (h : e.tables ≠ []) :
    e.taken = e.upTo e.active ++ e.writesOf e.active := by
  have hpos := List.length_pos_iff.mpr h
  have hlength : e.tables.length = e.active + 1 := by
    unfold active
    omega
  rw [taken, hlength, upTo_succ]

theorem upTo_step {c : Config} {e e' : Engine} {a : Action} (hs : step c e a = some e') {n : Nat}
    (hn : n ≤ e.active) : e'.upTo n = e.upTo n :=
  List.flatMap_congr fun _ hi => writesOf_step hs (Nat.lt_of_lt_of_le (List.mem_range.mp hi) hn)

/-- A step that makes another table active leaves it empty: what was taken is what the tables before
it took. -/
theorem active_step_cases {c : Config} {e e' : Engine} {a : Action} (hne : e.tables ≠ [])
    (hs : step c e a = some e') :
    e'.active = e.active ∨ e'.active = e.active + 1 ∧ e'.upTo e'.active = e'.taken := by
  have hpos := List.length_pos_iff.mpr hne
  cases step_queue hs with
  | rotated i w stamp hclients htables hswapped hqueue hpopped =>
    have hactive : e'.active = e.active + 1 := by
      simp only [active, htables, List.length_append, List.length_singleton]
      omega
    refine Or.inr ⟨hactive, ?_⟩
    have hfresh : e'.tables[e'.active]? = some (freshTable c stamp) := by
      rw [htables, hactive]
      have hlast : e.active + 1 = e.tables.length := by
        unfold active
        omega
      rw [hlast, List.getElem?_concat_length]
    rw [taken_eq (by simp [htables]), writesOf_eq hfresh]
    exact (List.append_nil _).symm
  | appended i w full ha hclient hclients htables =>
    left
    simp only [active, htables]
  | other hlength =>
    left
    simp only [active, hlength]

/-- Tables that say nothing of a key. -/
theorem last_upTo {e : Engine} (key : Blob) {n m : Nat} (hnm : n ≤ m)
    (hnone : ∀ j, n ≤ j → j < m → last key (e.writesOf j) = none) :
    last key (e.upTo m) = last key (e.upTo n) := by
  induction m, hnm using Nat.le_induction with
  | base => rfl
  | succ m hm ih =>
    rw [upTo_succ, last_append, hnone m hm (Nat.lt_succ_self m), Option.none_or]
    exact ih fun j hj hjm => hnone j hj (Nat.lt_succ_of_lt hjm)

/-- Tables that have no value for a key. -/
theorem read_upTo {e : Engine} {key : Blob} {n : Nat}
    (hnone : ∀ j < n, readEntry (last key (e.writesOf j)) = none) :
    readEntry (last key (e.upTo n)) = none := by
  induction n with
  | zero => rfl
  | succ n ih =>
    rw [upTo_succ, last_append]
    cases hlast : last key (e.writesOf n) with
    | none => exact ih fun j hj => hnone j (Nat.lt_succ_of_lt hj)
    | some entry =>
      have := hnone n (Nat.lt_succ_self n)
      rwa [hlast] at this

theorem taken_tables (e : Engine) : e.taken = asEntries (e.tables.flatMap (·.inserted)) := by
  rw [asEntries, List.map_flatMap]
  exact (flatMap_index Table.writes).symm

/-- Writes take effect one after another. -/
theorem taken_step {c : Config} {e e' : Engine} {a : Action} (hs : step c e a = some e') :
    e.taken <+: e'.taken := by
  rw [taken_tables, taken_tables]
  apply List.IsPrefix.map
  cases step_tables hs with
  | took i w clock table inner _ htable hw hstep =>
    subst hstep
    exact ⟨[w], (flatMap_set_last htable rfl).symm⟩
  | fresh i w stamp _ _ hstep =>
    rw [hstep, List.flatMap_append]
    exact List.prefix_append _ _
  | removed ts i t _ _ ht hstep =>
    rw [hstep, flatMap_set_same ht (by rfl)]
  | other hsame => rw [hsame]

theorem cached_prefix (e : Engine) : e.cached <+: e.popped ++ e.immutable := by
  unfold cached
  rw [List.prefix_append_right_inj]
  split
  · cases e.immutable with
    | nil => exact List.nil_prefix
    | cons j rest => exact ⟨rest, rfl⟩
  · exact List.nil_prefix

/-- Every layer in its place, the queue in age order. -/
structure InPlace (h : Hashing) (e : Engine) : Prop where
  layered : Layered h SameMap e
  aging : Aging e

namespace InPlace
variable {h : Hashing} {e : Engine} (ho : InPlace h e)
include ho

/-- The tables that were queued are the oldest. -/
theorem settled_range : e.popped ++ e.immutable = List.range (e.popped ++ e.immutable).length := by
  have hbelow : ∀ t ∈ e.popped ++ e.immutable, t < (e.popped ++ e.immutable).length := by
    intro t ht
    have hsub : List.range (t + 1) ⊆ e.popped ++ e.immutable := by
      intro s hs
      rw [List.mem_range] at hs
      have hlt := ho.aging.below t ht
      have hin :=
        ho.layered.placed.once.mem_iff.mpr (List.mem_range.mpr (show s < e.active by omega))
      rcases List.mem_append.mp hin with hin | hin
      · exact hin
      · obtain ⟨i, hi⟩ := holding_of_waiting hin
        have := ho.aging.newer i s hi t ht
        omega
    have hlength := (List.subperm_of_subset List.nodup_range hsub).length_le
    rw [List.length_range] at hlength
    omega
  exact (sublist_range ho.aging.sorted hbelow).eq_of_length List.length_range.symm

theorem mem_settled {j : Nat} :
    j ∈ e.popped ++ e.immutable ↔ j < (e.popped ++ e.immutable).length := by
  rw [ho.settled_range, List.length_range]
  exact List.mem_range

/-- The tables that were swapped out are in the queue, beneath it, or in a client's hands. -/
theorem swapped_cases {j : Nat} (hj : j < e.active) : j ∈ e.popped ++ e.immutable ∨ j ∈ e.waiting :=
  List.mem_append.mp (ho.layered.placed.once.mem_iff.mpr (List.mem_range.mpr hj))

theorem cached_range : e.cached = List.range e.cached.length := by
  have hprefix := e.cached_prefix
  have hlength := hprefix.length_le
  rw [List.prefix_iff_eq_take, ho.settled_range, List.take_range,
    Nat.min_eq_left hlength] at hprefix
  exact hprefix

theorem flushed_eq : e.flushed = e.upTo e.cached.length := by
  rw [flushed, ho.cached_range, upTo, List.length_range]

theorem cached_le : e.cached.length ≤ e.active := by
  have hlt : ∀ j ∈ e.cached, j < e.active := fun j hj => ho.layered.placed.lt (mem_cached hj)
  rw [ho.cached_range] at hlt
  by_contra hgt
  exact Nat.lt_irrefl _ (hlt e.active (List.mem_range.mpr (Nat.not_le.mp hgt)))

/-- A swapped-out table that is not in the cache is in the queue or in a client's hands. -/
theorem uncached_cases {j : Nat} (hcached : e.cached.length ≤ j) (hj : j < e.active) :
    j ∈ e.immutable ∨ j ∈ e.waiting := by
  rcases ho.swapped_cases hj with hin | hin
  · rcases List.mem_append.mp hin with hin | hin
    · have hmem : j ∈ e.cached := List.mem_append_left _ hin
      rw [ho.cached_range, List.mem_range] at hmem
      exact absurd hmem (Nat.not_lt.mpr hcached)
    · exact Or.inl hin
  · exact Or.inr hin

/-- The queue's last entry of a key, where no client holds a table that has one. -/
theorem last_swapped {key : Blob} {entry : Entry}
    (hwaiting : ∀ j ∈ e.waiting, last key (e.writesOf j) = none)
    (hlast : last key e.queued = some entry) : last key (e.upTo e.active) = some entry := by
  have hle : (e.popped ++ e.immutable).length ≤ e.active := by
    by_contra hgt
    exact Nat.lt_irrefl _ (ho.layered.placed.lt (ho.mem_settled.mpr (Nat.not_le.mp hgt)))
  have hsame := last_upTo key hle fun j hj hlt =>
    hwaiting j ((ho.swapped_cases hlt).resolve_left fun hin =>
      absurd (ho.mem_settled.mp hin) (Nat.not_lt.mpr hj))
  rw [hsame, upTo, ← ho.settled_range, List.flatMap_append, last_append]
  show (last key e.queued).or _ = _
  rw [hlast]
  rfl

end InPlace

/-! ## A get and its moments -/

/-- A `get` finds what it stops at in step, and goes past no tombstone that lies over a value. -/
def StopsRight (e : Engine) (a : Action) : Prop :=
  match a with
  | .client i .readMemtable =>
    match e.clients[i]? with
    | some (.readingMemtable key _) => (∀ t ∈ e.tables[e.active]?, t.InStep key) ∧
        (last key (e.writesOf e.active) = some .tombstone →
          ∀ j < e.active, readEntry (last key (e.writesOf j)) = none)
    | _ => True
  | .client i .readImmutable =>
    match e.clients[i]? with
    | some (.readingImmutable key _) =>
        (∀ t ∈ e.queueTables.reverse.find? (fun t => t.Has key), t.InStep key) ∧
        (last key e.queued = some .tombstone →
          ∀ j < e.active, readEntry (last key (e.writesOf j)) = none)
    | _ => True
  | _ => True

instance (e : Engine) (a : Action) : Decidable (e.StopsRight a) := by
  -- `casesOn` leaves no equations in what is computed.
  unfold StopsRight
  induction a using Engine.Action.casesOn with
  | client i b =>
    induction b using Engine.ClientAction.casesOn with
    | readMemtable | readImmutable =>
      dsimp only
      induction e.clients[i]? using Option.casesOn with
      | none => exact instDecidableTrue
      | some p => induction p using Phase.casesOn <;> dsimp only <;> infer_instance
    | _ => exact instDecidableTrue
  | _ => exact instDecidableTrue

/-- The oldest table held is appended first, the queue is not read while the key's table is on its
way to it, gets stop right, and files, compactions and SSTable reads are as `CacheStep` says. -/
def KeepsOrder (e : Engine) (a : Action) : Prop :=
  e.OldestAppends a ∧ e.NotInTransit a ∧ e.StopsRight a ∧ e.CacheStep RootsNewest LastInWindow a

theorem keepsOrder_of_agree {e : Engine} {a : Action} (horder : e.OldestAppends a)
    (htransit : e.NotInTransit a) (hstops : e.StopsRight a)
    (hcache : e.CacheStep TablesAgree LastInWindow a) :
    e.KeepsOrder a :=
  ⟨horder, htransit, hstops, hcache.imp fun _ => TablesAgree.rootsNewest⟩

theorem in_place_start (c : Config) (stamp : LsmliteInner.Stamp) :
    InPlace c.hashing (start c stamp) where
  layered := layered_start (sameMap_rule c.hashing) stamp
  aging := aging_start c stamp

theorem in_place_step {c : Config} {e e' : Engine} {a : Action} (h : InPlace c.hashing e)
    (hok : e.KeepsOrder a) (hs : step c e a = some e') : InPlace c.hashing e' where
  layered := layered_step (sameMap_rule c.hashing) h.layered hok.2.2.2 hs
  aging := aging_step h.aging hok.1 hs

/-- At one of the moments `es` the writes taken so far answer `r`. -/
def Answers (es : List Engine) (key : Blob) (r : Option Blob) : Prop :=
  ∃ s ∈ es, readEntry (last key s.taken) = r

theorem Answers.later {es : List Engine} {key : Blob} {r : Option Blob} (h : Answers es key r)
    (e : Engine) :
    Answers (es ++ [e]) key r := by
  obtain ⟨s, hs, hr⟩ := h
  exact ⟨s, List.mem_append_left _ hs, hr⟩

/-- What the reader may still find, some moment of its call answers. -/
def Watches (es : List Engine) (key : Blob) (before : List Write) (e : Engine) (p : Phase) : Prop :=
  match p with
  | .readingMemtable key' before' => key' = key ∧ before' = before
  | .readingImmutable key' before' => key' = key ∧ before' = before ∧
    Answers es key (readEntry (last key (e.upTo e.active)))
  | .readingSstables key' before' => key' = key ∧ before' = before ∧
    ∀ n, e.cached.length ≤ n → n ≤ e.active → Answers es key (readEntry (last key (e.upTo n)))
  | _ => False

section
variable {c : Config} {es : List Engine} {e e' : Engine} {key : Blob} {before : List Write}
  {p : Phase}

theorem cached_length_le (ho : InPlace c.hashing e) (ho' : InPlace c.hashing e') {a : Action}
    (hs : step c e a = some e') : e.cached.length ≤ e'.cached.length := by
  have hmem : ∀ j ∈ e.cached, j ∈ e'.cached := (grows_step ho.layered.loading hs).cached
  rw [ho.cached_range, ho'.cached_range] at hmem
  by_contra hlt
  exact Nat.lt_irrefl _ (List.mem_range.mp (hmem _ (List.mem_range.mpr (Nat.not_le.mp hlt))))

/-- A step of another client or of a task. -/
theorem Watches.others (ho : InPlace c.hashing e) (ho' : InPlace c.hashing e') {a : Action}
    (hs : step c e a = some e') (h : Watches es key before e p) :
    Watches (es ++ [e']) key before e' p := by
  have hnow : Answers (es ++ [e']) key (readEntry (last key e'.taken)) :=
    ⟨e', List.mem_append_right _ (List.mem_singleton_self e'), rfl⟩
  have hactive := active_step_cases ho.layered.placed.nonempty hs
  cases p with
  | readingMemtable key' before' => exact h
  | readingImmutable key' before' =>
    obtain ⟨hkey, hbefore, hanswers⟩ := h
    refine ⟨hkey, hbefore, ?_⟩
    rcases hactive with hsame | ⟨_, hmoved⟩
    · rw [hsame, upTo_step hs (Nat.le_refl _)]
      exact hanswers.later e'
    · rw [hmoved]
      exact hnow
  | readingSstables key' before' =>
    obtain ⟨hkey, hbefore, hanswers⟩ := h
    refine ⟨hkey, hbefore, fun n hcached hn => ?_⟩
    by_cases hle : n ≤ e.active
    · rw [upTo_step hs hle]
      exact (hanswers n ((cached_length_le ho ho' hs).trans hcached) hle).later e'
    · rcases hactive with hsame | ⟨hnext, hmoved⟩
      · omega
      · obtain rfl : n = e'.active := by omega
        rw [hmoved]
        exact hnow
  | _ => exact h.elim

/-- The read of the active table. -/
theorem Watches.readMemtable (ho : InPlace c.hashing e) (hnow : e ∈ es) {i : Nat}
    (hi : e.clients[i]? = some (.readingMemtable key before))
    (hright : e.StopsRight (.client i .readMemtable)) {t : Table}
    (ht : e.tables[e.active]? = some t) {q : MemtableQuery} (hq : t.inner.get key = some q) :
    (∀ blob, LsmliteInner.readQuery q = some blob → Answers es key (some blob)) ∧
    (LsmliteInner.readQuery q = none → Watches es key before e (.readingImmutable key before)) := by
  simp only [StopsRight, hi] at hright
  obtain ⟨hstep, htomb⟩ := hright
  have hget := (ho.layered.took t (List.mem_of_getElem? ht)).get (hstep t ht)
  cases hq.symm.trans hget
  have htaken := taken_eq ho.layered.placed.nonempty
  have holder : last key t.writes = some .tombstone →
      readEntry (last key (e.upTo e.active)) = none := fun hlast =>
    read_upTo (htomb (by rwa [writesOf_eq ht]))
  obtain ⟨hsome, hnone⟩ := read_layer rfl holder
  rw [writesOf_eq ht] at htaken
  rw [← htaken] at hsome hnone
  exact ⟨fun blob hblob => ⟨e, hnow, hsome blob hblob⟩,
    fun hread => ⟨rfl, rfl, e, hnow, (hnone hread).symm⟩⟩

/-- The read of the queue. -/
theorem Watches.readImmutable (ho : InPlace c.hashing e) {i : Nat}
    (hi : e.clients[i]? = some (.readingImmutable key before))
    (htransit : e.NotInTransit (.client i .readImmutable))
    (hright : e.StopsRight (.client i .readImmutable))
    (h : Watches es key before e (.readingImmutable key before)) {queue : ImmutableMemtable}
    (hqueue : e.queue = some queue) {q : MemtableQuery} (hq : queue.get key = some q) :
    (∀ blob, LsmliteInner.readQuery q = some blob → Answers es key (some blob)) ∧
    (LsmliteInner.readQuery q = none → Watches es key before e (.readingSstables key before)) := by
  obtain ⟨_, _, hanswers⟩ := h
  simp only [StopsRight, hi] at hright
  simp only [NotInTransit, hi] at htransit
  obtain ⟨hstep, htomb⟩ := hright
  obtain ⟨queue', hqueue', hget⟩ := queue_get ho.layered.placed ho.layered.took key hstep
  cases hqueue.symm.trans hqueue'
  cases hq.symm.trans hget
  have hwaiting : ∀ j ∈ e.waiting, last key (e.writesOf j) = none :=
    fun j hj => last_eq_none_iff.mpr (htransit j hj)
  rw [readQuery_queryOf]
  cases hlast : last key e.queued with
  | none =>
    refine ⟨fun _ hnone => (by cases hnone), fun _ => ⟨rfl, rfl, fun n hcached hn => ?_⟩⟩
    have hsame := last_upTo key hn fun j hj hlt => by
      rcases ho.uncached_cases (hcached.trans hj) hlt with hin | hin
      · rw [last_eq_none_iff] at hlast ⊢
        exact fun w hw => hlast w (List.mem_flatMap.mpr ⟨j, hin, hw⟩)
      · exact hwaiting j hin
    rwa [← hsame]
  | some entry =>
    rw [ho.last_swapped hwaiting hlast] at hanswers
    cases entry with
    | data value => exact ⟨fun blob hblob => hblob ▸ hanswers, fun hnone => by cases hnone⟩
    | tombstone =>
      refine ⟨fun _ hnone => (by cases hnone), fun _ => ⟨rfl, rfl, fun n _ hn => ?_⟩⟩
      rw [read_upTo fun j hj => htomb hlast j (Nat.lt_of_lt_of_le hj hn)]
      exact hanswers

/-- The read of the cache. -/
theorem Watches.readSstables (ho : InPlace c.hashing e) {i : Nat}
    (hi : e.clients[i]? = some (.readingSstables key before))
    (hcache : e.CacheStep RootsNewest LastInWindow (.client i .readSstables))
    (h : Watches es key before e (.readingSstables key before)) {r : Except SSTableError Blob}
    {sstableCache : SSTableCache}
    (hr : e.sstableCache.search c.hashing key = some (r, sstableCache)) :
    Answers es key r.toOption := by
  obtain ⟨_, _, hanswers⟩ := h
  simp only [CacheStep, hi] at hcache
  obtain ⟨ess, r', sstableCache', hsame, hsearch, hresult, _⟩ :=
    ho.layered.cache.search (sameMap_rule c.hashing) hcache
  cases hr.symm.trans hsearch
  rw [hresult, hsame key, ho.flushed_eq]
  exact hanswers _ (Nat.le_refl _) ho.cached_le

theorem Watches.later (h : Watches es key before e p) (e' : Engine) :
    Watches (es ++ [e']) key before e p := by
  cases p with
  | readingMemtable key' before' => exact h
  | readingImmutable key' before' =>
    obtain ⟨hkey, hbefore, hanswers⟩ := h
    exact ⟨hkey, hbefore, hanswers.later e'⟩
  | readingSstables key' before' =>
    obtain ⟨hkey, hbefore, hanswers⟩ := h
    exact ⟨hkey, hbefore, fun n hcached hn => (hanswers n hcached hn).later e'⟩
  | _ => exact h.elim

/-- A step of the reader answers, or leaves it in the call. -/
theorem Watches.client (ho : InPlace c.hashing e) (hnow : e ∈ es) {i : Nat} {a : ClientAction}
    (hi : e.clients[i]? = some p) (hok : e.KeepsOrder (.client i a))
    (h : Watches es key before e p) (hc : ClientStep c e i a e') :
    (∃ r, Answers es key r ∧ e'.answers = e.answers ++ [⟨key, before, r⟩] ∧
      e'.clients[i]? = some .idle) ∨ ∃ q, e'.clients[i]? = some q ∧ Watches es key before e' q := by
  obtain ⟨_, htransit, hright, hcache⟩ := hok
  have hset : ∀ q : Phase, (e.clients.set i q)[i]? = some q :=
    fun q => List.getElem?_set_self (List.getElem?_eq_some_iff.mp hi).1
  cases hc with
  | @readMemtable key' before' t q hi' ht hq =>
    cases hi.symm.trans hi'
    obtain ⟨rfl, rfl⟩ := h
    obtain ⟨hsome, hnone⟩ := Watches.readMemtable ho hnow hi' hright ht hq
    cases hread : LsmliteInner.readQuery q with
    | some blob => exact Or.inl ⟨some blob, hsome blob hread, rfl, hset _⟩
    | none => exact Or.inr ⟨_, hset _, hnone hread⟩
  | @readImmutable key' before' queue q hi' hqueue hq =>
    cases hi.symm.trans hi'
    obtain ⟨rfl, rfl, _⟩ := id h
    obtain ⟨hsome, hnone⟩ := Watches.readImmutable ho hi' htransit hright h hqueue hq
    cases hread : LsmliteInner.readQuery q with
    | some blob => exact Or.inl ⟨some blob, hsome blob hread, rfl, hset _⟩
    | none => exact Or.inr ⟨_, hset _, hnone hread⟩
  | @readSstables key' before' r sstableCache hi' hr =>
    cases hi.symm.trans hi'
    obtain ⟨rfl, rfl, _⟩ := id h
    exact Or.inl ⟨r.toOption, Watches.readSstables ho hi' hcache h hr, rfl, hset _⟩
  | call hi' | attemptOk hi' | attemptFull hi' | rotate hi' | append hi' | signal hi'
  | retryOk hi' | retryFull hi'
  | get hi' =>
    cases hi.symm.trans hi'
    exact h.elim

end

/-! ## The whole call -/

/-- The states from `e0` on, in a part of a run in which client `i` stays in its call. -/
inductive During (c : Config) (ok : Engine → Action → Prop) (i : Nat) (e0 : Engine) :
    List Engine → Engine → Prop where
  | begins : During c ok i e0 [e0] e0
  | goesOn {es : List Engine} {e e' : Engine} {a : Action} (h : During c ok i e0 es e)
      (hok : ok e a)
    (hs : step c e a = some e') (hcall : e'.clients[i]? ≠ some .idle) :
      During c ok i e0 (es ++ [e']) e'

section
variable {c : Config} {i : Nat} {e0 e e' : Engine} {es : List Engine} {key : Blob}
  {before : List Write}

theorem During.last_mem {ok : Engine → Action → Prop} (h : During c ok i e0 es e) : e ∈ es := by
  cases h with
  | begins => exact List.mem_singleton_self _
  | goesOn => exact List.mem_append_right _ (List.mem_singleton_self _)

theorem During.between {ok : Engine → Action → Prop} (h : During c ok i e0 es e) :
    ∀ s ∈ es, e0.taken <+: s.taken ∧ s.taken <+: e.taken := by
  induction h with
  | begins =>
    intro s hs
    rw [List.mem_singleton.mp hs]
    exact ⟨List.prefix_rfl, List.prefix_rfl⟩
  | goesOn h hok hs hcall ih =>
    intro s hmem
    have hgrows := taken_step hs
    rcases List.mem_append.mp hmem with hmem | hmem
    · exact ⟨(ih s hmem).1, (ih s hmem).2.trans hgrows⟩
    · rw [List.mem_singleton.mp hmem]
      exact ⟨(ih _ h.last_mem).1.trans hgrows, List.prefix_rfl⟩

/-- A reader in its call. -/
theorem During.watches (h : During c KeepsOrder i e0 es e) (ho : InPlace c.hashing e0)
    (hi : e0.clients[i]? = some (.readingMemtable key before)) :
    InPlace c.hashing e ∧ ∃ p, e.clients[i]? = some p ∧ Watches es key before e p := by
  induction h with
  | begins => exact ⟨ho, _, hi, rfl, rfl⟩
  | @goesOn es e e' a h hok hs hcall ih =>
    obtain ⟨ho1, p, hp, hwatches⟩ := ih
    have ho' := in_place_step ho1 hok hs
    refine ⟨ho', ?_⟩
    by_cases hby : ∃ b, a = .client i b
    · obtain ⟨b, rfl⟩ := hby
      rcases Watches.client ho1 h.last_mem hp hok hwatches (clientStep_cases hs)
        with ⟨_, _, _, hidle⟩ | ⟨q, hq, hnext⟩
      · exact absurd hidle hcall
      · exact ⟨q, hq, hnext.later e'⟩
    · exact ⟨p, step_phase hs hp fun b hb => hby ⟨b, hb⟩, hwatches.others ho1 ho' hs⟩

/-- In a run whose steps meet the condition, a `get` answers what the writes taken by some moment of
its call say: all those taken before it began, and some of those taken since. -/
theorem gets_atomic {e1 : Engine} {a : ClientAction} (h : Reaches c KeepsOrder e)
    (hget : step c e (.client i (.get key)) = some e0) (hcall : During c KeepsOrder i e0 es e1)
    (hok : e1.KeepsOrder (.client i a)) (hs : step c e1 (.client i a) = some e')
    (hidle : e'.clients[i]? = some .idle) :
    ∃ s ∈ es, e.taken <+: s.taken ∧ s.taken <+: e'.taken ∧
      e'.answers = e1.answers ++ [⟨key, e.returned, readEntry (last key s.taken)⟩] := by
  have ho : InPlace c.hashing e :=
    h.invariant (in_place_start c) fun _ _ _ he hok hs => in_place_step he hok hs
  have hokGet : e.KeepsOrder (.client i (.get key)) := ⟨trivial, trivial, trivial, trivial⟩
  have ho0 : InPlace c.hashing e0 := in_place_step ho hokGet hget
  have hi : e0.clients[i]? = some (.readingMemtable key e.returned) := by
    cases clientStep_cases hget with
    | get hi => exact List.getElem?_set_self (List.getElem?_eq_some_iff.mp hi).1
  obtain ⟨ho1, p, hp, hwatches⟩ := hcall.watches ho0 hi
  rcases Watches.client ho1 hcall.last_mem hp hok hwatches (clientStep_cases hs) with
    ⟨r, ⟨s, hsin, rfl⟩, hanswers, _⟩ | ⟨q, hq, hnext⟩
  · obtain ⟨hafter, hbefore⟩ := hcall.between s hsin
    exact ⟨s, hsin, (taken_step hget).trans hafter, hbefore.trans (taken_step hs), hanswers⟩
  · cases hq.symm.trans hidle
    exact hnext.elim

/-- The steps of a run in which client `i` stays in its call. -/
theorem During.runActions {ok : Engine → Action → Prop} [∀ e a, Decidable (ok e a)]
    {actions : List Action} (h : During c ok i e0 es e)
    (hr : Engine.runActions c (fun e a => ok e a ∧
      (step c e a).all (fun s => s.clients[i]? ≠ some .idle) = true) e actions = some e') :
    ∃ es', During c ok i e0 es' e' := by
  induction actions generalizing es e with
  | nil =>
    cases hr
    exact ⟨es, h⟩
  | cons a actions ih =>
    simp only [Engine.runActions, List.foldlM_cons, Option.bind_eq_bind,
      Option.bind_eq_some_iff] at hr
    obtain ⟨e1, h1, hr⟩ := hr
    split at h1
    · rename_i hok
      obtain ⟨hok, hcall⟩ := hok
      rw [h1] at hcall
      exact ih (h.goesOn hok h1 (by simpa using hcall)) hr
    · cases h1

theorem During.mono {ok ok' : Engine → Action → Prop} (hok : ∀ e a, ok e a → ok' e a)
    (h : During c ok i e0 es e) :
    During c ok' i e0 es e := by
  induction h with
  | begins => exact .begins
  | goesOn _ ha hs hcall ih => exact ih.goesOn (hok _ _ ha) hs hcall

end

/-- No prefix of the keys goes on with a zero byte, and there is room for all. -/
def Gapped (es : Entries) : Prop :=
  (prefixes es).length < 2 ^ 32 ∧ (∀ label ∈ prefixes es, label ++ [0] ∉ prefixes es) ∧
    headerSize + (logBlob es).length < 2 ^ 63

instance (es : Entries) : Decidable (Gapped es) := inferInstanceAs (Decidable (_ ∧ _ ∧ _))

/-- Nothing is compacted, and what a file or a read has to meet can be computed. -/
def FilesGapped (e : Engine) (a : Action) : Prop :=
  match a with
  | .background .finishFile =>
    match e.flusher with
    | .writing _ i => Gapped (ofWrites (e.writesOf i))
    | _ => True
  | .background (.compact _) => False
  | .client i .readSstables =>
    match e.clients[i]? with
    | some (.readingSstables key _) =>
      (last key e.flushed).all (fun entry => InWindow key entry) = true
    | _ => True
  | _ => True

instance (e : Engine) (a : Action) : Decidable (e.FilesGapped a) := by
  unfold FilesGapped
  induction a using Engine.Action.casesOn with
  | client i b =>
    induction b using Engine.ClientAction.casesOn with
    | readSstables =>
      dsimp only
      induction e.clients[i]? using Option.casesOn with
      | none => exact instDecidableTrue
      | some p => induction p using Phase.casesOn <;> dsimp only <;> infer_instance
    | _ => exact instDecidableTrue
  | background b =>
    induction b using Engine.BackgroundAction.casesOn with
    | finishFile =>
      dsimp only
      induction e.flusher using Flusher.casesOn <;> dsimp only <;> infer_instance
    | compact ts => exact instDecidableFalse
    | _ => exact instDecidableTrue
  | _ => exact instDecidableTrue

theorem FilesGapped.cacheStep {e : Engine} {a : Action} (h : e.FilesGapped a) :
    e.CacheStep RootsNewest LastInWindow a := by
  cases a with
  | spawn | drop => trivial
  | client i b =>
    cases b with
    | readSstables =>
      rcases hi : e.clients[i]? with _ | p
      · simp only [CacheStep, hi]
      · cases p with
        | readingSstables key before =>
          simp only [FilesGapped, hi] at h
          simp only [CacheStep, hi]
          intro entry hlast
          rw [hlast] at h
          simpa using h
        | _ => simp only [CacheStep, hi]
    | _ => trivial
  | background b =>
    cases b with
    | finishFile =>
      cases hf : e.flusher with
      | writing ts table =>
        simp only [FilesGapped, hf] at h
        simp only [CacheStep, FlushFits, hf]
        exact representable_of_gap h.1 h.2.1 h.2.2
      | _ => simp only [CacheStep, FlushFits, hf]
    | compact ts => exact h.elim
    | _ => trivial

/-- The conditions on the steps of a run, as they can be computed. -/
def KeepsOrderGapped (e : Engine) (a : Action) : Prop :=
  e.OldestAppends a ∧ e.NotInTransit a ∧ e.StopsRight a ∧ e.FilesGapped a

instance (e : Engine) (a : Action) : Decidable (e.KeepsOrderGapped a) :=
  inferInstanceAs
    (Decidable (e.OldestAppends a ∧ e.NotInTransit a ∧ e.StopsRight a ∧ e.FilesGapped a))

theorem KeepsOrderGapped.keepsOrder {e : Engine} {a : Action} (h : e.KeepsOrderGapped a) :
    e.KeepsOrder a :=
  ⟨h.1, h.2.1, h.2.2.1, h.2.2.2.cacheStep⟩

/-- A `get` that has passed the memtables, while its key is set anew and a table is flushed. -/
theorem gets_atomic_overtaken :
    ∃ (e e0 e1 e' : Engine) (es : List Engine), Reaches tinyConfig KeepsOrder e ∧
    e.cached = [0] ∧ step tinyConfig e (.client 1 (.get [97])) = some e0 ∧
    During tinyConfig KeepsOrder 1 e0 es e1 ∧ e1.cached = [0, 1] ∧
    step tinyConfig e1 (.client 1 .readSstables) = some e' ∧
    e'.answers.map (·.result) = [some [1]] ∧ readEntry (last [97] e'.taken) = some [3] ∧
    ∃ s ∈ es, e.taken <+: s.taken ∧ s.taken <+: e'.taken ∧
      e'.answers = e1.answers ++ [⟨[97], e.returned, readEntry (last [97] s.taken)⟩] := by
  have hrun :
      ((runActions tinyConfig KeepsOrderGapped (start tinyConfig ⟨0, 0⟩) ([.spawn, .spawn] ++
      writeSteps 0 [97] [1] ++ swapSteps 0 [98] [2] 1 ++ retrySteps 0 ++
          flushCycle 2)).bind fun e =>
      (step tinyConfig e (.client 1 (.get [97]))).bind fun e0 =>
      (runActions tinyConfig (fun e a => e.KeepsOrderGapped a ∧
        (step tinyConfig e a).all (fun s => s.clients[1]? ≠ some .idle) = true) e0
        ([.client 1 .readMemtable, .client 1 .readImmutable] ++ swapSteps 0 [97] [3] 3 ++
            retrySteps 0 ++ flushCycle 4)).bind fun e1 =>
      (step tinyConfig e1 (.client 1 .readSstables)).map fun e' =>
        decide (e.cached = [0] ∧ e1.cached = [0, 1] ∧
          e1.KeepsOrderGapped (.client 1 .readSstables) ∧ e'.clients[1]? = some .idle ∧
          e'.answers.map (·.result) = [some [1]] ∧
          readEntry (last [97] e'.taken) = some [3])) = some true := by
    decide +kernel
  obtain ⟨e, he, hrun⟩ := Option.bind_eq_some_iff.mp hrun
  obtain ⟨e0, hget, hrun⟩ := Option.bind_eq_some_iff.mp hrun
  obtain ⟨e1, he1, hrun⟩ := Option.bind_eq_some_iff.mp hrun
  obtain ⟨e', hs, hfacts⟩ := Option.map_eq_some_iff.mp hrun
  obtain ⟨hcached, hcached', hok, hidle, hanswers, hlast⟩ := of_decide_eq_true hfacts
  have hreach := (reaches_runActions (.start _) he).mono fun _ _ h => h.keepsOrder
  obtain ⟨es, hduring⟩ := During.begins.runActions he1
  have hcall := hduring.mono fun _ _ h => h.keepsOrder
  exact ⟨e, e0, e1, e', es, hreach, hcached, hget, hcall, hcached', hs, hanswers, hlast,
    gets_atomic hreach hget hcall hok.keepsOrder hs hidle⟩

end Engine

end Lsmlite
