import Lsmlite.CallOrder
import Lsmlite.MaintenanceReads

/-!
# A map

With calls made one at a time, the tables have the calls' records in the order of the calls. A `get`
answers as a map does, unless a tombstone it passes lies over a value, a record is out of step or
out of its window, or a compaction took an older record.
-/

namespace Lsmlite
open KeyValue

/-- In every round of the merge the newest table's record wins. -/
def RootsNewest (iters : List SSTableIterator) : Prop :=
  ∀ m, Merge.start iters = some m → ∀ m', Merge.Rounds (Merge.fuel iters) m m' → m'.RootNewest

/-- The iterators are over tables that agree. -/
def TablesAgree (iters : List SSTableIterator) : Prop :=
  ∃ tables, List.Forall₂ SSTableIterator.Yields iters tables ∧ (∀ rs ∈ tables, Increasing rs) ∧
    Undisputed tables

theorem TablesAgree.rootsNewest {iters : List SSTableIterator} (h : TablesAgree iters) :
    RootsNewest iters := by
  obtain ⟨tables, hyields, hinc, hagree⟩ := h
  exact fun _ hstart _ => Merge.rootNewest_of_undisputed hyields hinc hagree hstart

def LastInWindow (ws : Entries) (key : Blob) : Prop := ∀ e, last key ws = some e → InWindow key e

/-- The tables read as the writes do. -/
def SameMap (ws : Entries) (ess : List Entries) : Prop :=
  ∀ key, readEntry (findEntry key ess) = readEntry (last key ws)

theorem sameMap_rule (h : Hashing) : CacheRule h RootsNewest LastInWindow SameMap where
  nil _ := rfl
  push := by
    intro ws ess tw hsame key
    rw [findEntry_cons, last_ofWrites, last_append]
    cases last key tw with
    | some e => rfl
    | none =>
      rw [Option.none_or, Option.none_or]
      exact hsame key
  compact := by
    intro ws ess iters es hsame hcompacted hroots key
    rw [findEntry_cons]
    have hnil : findEntry key [] = none := rfl
    rw [hnil, Option.or_none, ← hsame key]
    obtain ⟨m, hstart⟩ := hcompacted.started
    exact hcompacted.newest m hstart (hroots m hstart) key
  window := by
    intro ws ess key hsame hwin e he
    cases e with
    | tombstone => trivial
    | data value =>
      have hread := hsame key
      rw [he] at hread
      apply hwin
      cases hlast : last key ws with
      | none =>
        rw [hlast] at hread
        cases hread
      | some e =>
        rw [hlast] at hread
        cases e with
        | tombstone => cases hread
        | data value' =>
          cases hread
          rfl

namespace Engine

/-! ## One call at a time -/

/-- While a client is in a call, only its steps are taken. -/
def OneCall (e : Engine) (a : Action) : Prop :=
  ∀ j < e.clients.length, e.clients[j]? = some .idle ∨ a.by = some j

instance (e : Engine) (a : Action) : Decidable (e.OneCall a) :=
  inferInstanceAs (Decidable (∀ j < e.clients.length, e.clients[j]? = some .idle ∨ a.by = some j))

theorem OneCall.idle {e : Engine} {a : Action} (h : e.OneCall a) (ha : a.by = none) :
    ∀ p ∈ e.clients, p = .idle := by
  intro p hp
  obtain ⟨j, hj, hget⟩ := List.getElem_of_mem hp
  rcases h j hj with hidle | hby
  · rw [List.getElem?_eq_getElem hj, hget] at hidle
    exact Option.some.inj hidle
  · rw [ha] at hby
    cases hby

theorem OneCall.oneClient {e : Engine} {a : Action} (h : e.OneCall a) : e.OneClient a := by
  intro i hi j hj
  rcases h j hj with hidle | hby
  · exact Or.inl hidle
  · exact Or.inr (Option.some.inj (hby.symm.trans hi))

/-! ## The reads -/

/-- A `get` finds what it stops at in step, and nothing to read beneath a tombstone that it
passes. -/
def Decides (e : Engine) (a : Action) : Prop :=
  match a with
  | .client i .readMemtable =>
    match e.clients[i]? with
    | some (.readingMemtable key _) => ∀ t ∈ e.tables[e.active]?, t.InStep key ∧
        (last key t.writes = some .tombstone → readEntry (last key e.settled) = none)
    | _ => True
  | .client i .readImmutable =>
    match e.clients[i]? with
    | some (.readingImmutable key _) =>
        (∀ t ∈ e.queueTables.reverse.find? (fun t => t.Has key), t.InStep key) ∧
        (last key e.queued = some .tombstone → readEntry (last key e.flushed) = none)
    | _ => True
  | _ => True

instance (e : Engine) (a : Action) : Decidable (e.Decides a) := by
  -- `casesOn` leaves no equations in what is computed.
  unfold Decides
  induction a using Engine.Action.casesOn with
  | client i b =>
    induction b using Engine.ClientAction.casesOn with
    | readMemtable | readImmutable =>
      dsimp only
      induction e.clients[i]? using Option.casesOn with
      | none => exact instDecidableTrue
      | some p => induction p using Phase.casesOn <;> dsimp only <;> infer_instance
    | _ => exact instDecidableTrue
  | _ => exact instDecidableTrue

/-- What is left to read decides the key as all earlier calls do. -/
def AsMap (e : Engine) (p : Phase) : Prop :=
  match p with
  | .readingMemtable _ before => before = e.returned
  | .readingImmutable key before => before = e.returned ∧
    readEntry (last key e.settled) = readEntry (last key (asEntries before))
  | .readingSstables key before => before = e.returned ∧
    readEntry (last key e.flushed) = readEntry (last key (asEntries before))
  | _ => True

structure Mapped (h : Hashing) (e : Engine) : Prop where
  layered : Layered h SameMap e
  turn : InTurn e
  readers : ∀ p ∈ e.clients, e.AsMap p
  answers : ∀ ans ∈ e.answers, ans.before <+: e.invoked ∧
    ans.result = readEntry (last ans.key (asEntries ans.before))

/-- A layer read for a key: what it answers, and what that leaves of the question. -/
theorem read_layer {key : Blob} {older ws : Entries} {q : MemtableQuery}
    (hq : q = queryOf (last key ws))
    (hdecides : last key ws = some .tombstone → readEntry (last key older) = none) :
    (∀ blob, LsmliteInner.readQuery q = some blob →
      readEntry (last key (older ++ ws)) = some blob) ∧
    (LsmliteInner.readQuery q = none →
      readEntry (last key older) = readEntry (last key (older ++ ws))) := by
  rw [hq, readQuery_queryOf, last_append]
  cases hlast : last key ws with
  | none =>
    rw [Option.none_or]
    exact ⟨nofun, fun _ => rfl⟩
  | some e =>
    rw [Option.some_or]
    cases e with
    | data value => exact ⟨fun _ => id, nofun⟩
    | tombstone => exact ⟨nofun, fun _ => hdecides hlast⟩

/-- The tables beneath the queue, where it does not have the key. -/
theorem last_flushed {e : Engine} {key : Blob} (hnone : last key e.queued = none) :
    last key e.flushed = last key e.settled := by
  have hqueue : ∀ js : List Nat, (∀ j ∈ js, j ∈ e.immutable) →
      last key (js.flatMap e.writesOf) = none := by
    intro js hjs
    rw [last_eq_none_iff] at hnone ⊢
    intro w hw
    obtain ⟨j, hj, hw⟩ := List.mem_flatMap.mp hw
    exact hnone w (List.mem_flatMap.mpr ⟨j, hjs j hj, hw⟩)
  rw [flushed, settled, cached, List.flatMap_append, List.flatMap_append, last_append, last_append,
    hqueue e.immutable fun _ hj => hj]
  rw [hqueue]
  intro j hj
  split at hj
  · exact List.mem_of_mem_head? (by simpa using hj)
  · cases hj

section
variable {h : Hashing} {e : Engine} {i : Nat} {a : ClientAction} {key : Blob} {before : List Write}

/-- The read of the active table. -/
theorem Mapped.readMemtable (hm : Mapped h e) (hone : e.OneCall (.client i a))
    (hi : e.clients[i]? = some (.readingMemtable key before))
    (hdecides : e.Decides (.client i .readMemtable)) {t : Table}
    (ht : e.tables[e.active]? = some t) :
    ∃ q, t.inner.get key = some q ∧
      (∀ blob, LsmliteInner.readQuery q = some blob →
        readEntry (last key (asEntries before)) = some blob) ∧
      (LsmliteInner.readQuery q = none →
        readEntry (last key e.settled) = readEntry (last key (asEntries before))) := by
  have hbefore : before = e.returned := hm.readers _ (List.mem_of_getElem? hi)
  have hhistory :=
    hm.turn.history hm.layered.placed.nonempty (hone.oneClient.filterMap (f := inHand) rfl hi)
  simp only [Decides, hi] at hdecides
  obtain ⟨hstep, htomb⟩ := hdecides t ht
  have hget := (hm.layered.took t (List.mem_of_getElem? ht)).get hstep
  rw [hbefore, hhistory, writesOf_eq ht]
  exact ⟨_, hget, read_layer rfl htomb⟩

/-- The read of the queue. -/
theorem Mapped.readImmutable (hm : Mapped h e)
    (hi : e.clients[i]? = some (.readingImmutable key before))
    (hdecides : e.Decides (.client i .readImmutable)) :
    ∃ queue q, e.queue = some queue ∧ queue.get key = some q ∧
      (∀ blob, LsmliteInner.readQuery q = some blob →
        readEntry (last key (asEntries before)) = some blob) ∧
      (LsmliteInner.readQuery q = none →
        readEntry (last key e.flushed) = readEntry (last key (asEntries before))) := by
  obtain ⟨_, hasMap⟩ := hm.readers _ (List.mem_of_getElem? hi)
  simp only [Decides, hi] at hdecides
  obtain ⟨hstep, htomb⟩ := hdecides
  obtain ⟨queue, hqueue, hget⟩ := queue_get hm.layered.placed hm.layered.took key hstep
  refine ⟨queue, _, hqueue, hget, ?_⟩
  have hsettled :
      last key e.settled = (last key e.queued).or (last key (e.popped.flatMap e.writesOf)) := by
    rw [settled, List.flatMap_append, last_append]
    rfl
  rw [← hasMap, readQuery_queryOf]
  cases hlast : last key e.queued with
  | none =>
    refine ⟨fun value hv => ?_, fun _ => ?_⟩
    · cases hv
    · rw [last_flushed hlast]
  | some entry =>
    rw [hlast, Option.some_or] at hsettled
    rw [hsettled]
    cases entry with
    | data value => exact ⟨fun _ => id, fun hnone => absurd hnone (Option.some_ne_none value)⟩
    | tombstone =>
      exact ⟨fun value hv => absurd hv.symm (Option.some_ne_none value), fun _ => htomb hlast⟩

/-- The read of the cache. -/
theorem Mapped.readSstables (hm : Mapped h e)
    (hi : e.clients[i]? = some (.readingSstables key before)) (hwin : LastInWindow e.flushed key) :
    ∃ r sstableCache, e.sstableCache.search h key = some (r, sstableCache) ∧
      r.toOption = readEntry (last key (asEntries before)) := by
  obtain ⟨_, hasMap⟩ := hm.readers _ (List.mem_of_getElem? hi)
  obtain ⟨ess, r, sstableCache, hsame, hsearch, hr, _⟩ :=
    hm.layered.cache.search (sameMap_rule h) hwin
  exact ⟨r, sstableCache, hsearch, hr.trans ((hsame key).trans hasMap)⟩

end

/-- Calls are made one at a time, gets are decided by what they stop at, and files, compactions and
SSTable reads are as `CacheStep` says. -/
def MapSafely (e : Engine) (a : Action) : Prop :=
  e.OneCall a ∧ e.Decides a ∧ e.CacheStep RootsNewest LastInWindow a

/-- A run may compact tables that agree. -/
theorem Reaches.mapSafely {c : Config} {e : Engine}
    (h :
      Reaches c (fun e a => e.OneCall a ∧ e.Decides a ∧ e.CacheStep TablesAgree LastInWindow a) e) :
    Reaches c MapSafely e :=
  h.mono fun _ _ ha => ⟨ha.1, ha.2.1, ha.2.2.imp fun _ => TablesAgree.rootsNewest⟩

theorem invoked_prefix {c : Config} {e e' : Engine} {a : Action} (hs : step c e a = some e') :
    e.invoked <+: e'.invoked := by
  cases step_cases hs with
  | spawn hopen => exact List.prefix_rfl
  | drop hopen hidle => exact List.prefix_rfl
  | client h =>
    cases h with
    | call hi hopen key entry => exact List.prefix_append _ _
    | @readMemtable key before table q hi htable hq =>
      cases LsmliteInner.readQuery q <;> exact List.prefix_rfl
    | @readImmutable key before queue q hi hqueue hq =>
      cases LsmliteInner.readQuery q <;> exact List.prefix_rfl
    | _ => exact List.prefix_rfl
  | background h => cases h <;> exact List.prefix_rfl

/-- A client that goes on, with the answers as they were. -/
theorem Mapped.moved {h : Hashing} {e e' : Engine} (hm : Mapped h e)
    (hinvoked : e.invoked <+: e'.invoked) {i : Nat} {a : ClientAction}
    (hone : e.OneClient (.client i a)) {q : Phase} (hclients : e'.clients = e.clients.set i q)
    (hq : e'.AsMap q) (hanswers : e'.answers = e.answers) :
    (∀ p ∈ e'.clients, e'.AsMap p) ∧ ∀ ans ∈ e'.answers, ans.before <+: e'.invoked ∧
      ans.result = readEntry (last ans.key (asEntries ans.before)) := by
  constructor
  · intro p hp
    rw [hclients] at hp
    rcases hone.idle_or hp with rfl | rfl
    · trivial
    · exact hq
  · rw [hanswers]
    intro ans hans
    obtain ⟨hbefore, hresult⟩ := hm.answers ans hans
    exact ⟨hbefore.trans hinvoked, hresult⟩

/-- The answer of a read. -/
theorem Mapped.answered {h : Hashing} {e e' : Engine} (hm : Mapped h e)
    (hinvoked : e'.invoked = e.invoked) {i : Nat} {a : ClientAction}
    (hone : e.OneClient (.client i a)) (hclients : e'.clients = e.clients.set i .idle)
    {key : Blob} {before : List Write} {result : Option Blob} (hbefore : before = e.returned)
    (hanswers : e'.answers = e.answers ++ [⟨key, before, result⟩])
    (hresult : result = readEntry (last key (asEntries before))) :
    (∀ p ∈ e'.clients, e'.AsMap p) ∧ ∀ ans ∈ e'.answers, ans.before <+: e'.invoked ∧
      ans.result = readEntry (last ans.key (asEntries ans.before)) := by
  constructor
  · intro p hp
    rw [hclients] at hp
    obtain rfl : p = .idle := (hone.idle_or hp).elim id id
    trivial
  · rw [hanswers, hinvoked]
    intro ans hans
    rcases List.mem_append.mp hans with hans | hans
    · exact hm.answers ans hans
    · rw [List.mem_singleton.mp hans]
      refine ⟨?_, hresult⟩
      rw [hbefore, ← hm.turn.calls]
      exact List.prefix_append _ _

/-- A read that meets the condition does not panic. -/
theorem Mapped.reads {c : Config} {e : Engine} (hm : Mapped c.hashing e) {i : Nat} {p : Phase}
    {a : ClientAction} {key : Blob} {before : List Write} (hi : e.clients[i]? = some p)
    (hp : readOf p = some (a, key, before)) (hok : e.MapSafely (.client i a)) :
    ∃ e', step c e (.client i a) = some e' := by
  obtain ⟨hone, hdecides, hcache⟩ := hok
  cases p with
  | readingMemtable key before =>
    cases hp
    obtain ⟨t, ht⟩ := hm.layered.placed.active
    obtain ⟨q, hq, _⟩ := hm.readMemtable hone hi hdecides ht
    simp only [step, clientStep, hi, ht, hq, Option.bind_eq_bind, Option.bind_some]
    cases LsmliteInner.readQuery q <;> exact ⟨_, rfl⟩
  | readingImmutable key before =>
    cases hp
    obtain ⟨queue, q, hqueue, hq, _⟩ := hm.readImmutable hi hdecides
    simp only [step, clientStep, hi, hqueue, hq, Option.bind_eq_bind, Option.bind_some]
    cases LsmliteInner.readQuery q <;> exact ⟨_, rfl⟩
  | readingSstables key before =>
    cases hp
    simp only [CacheStep, hi] at hcache
    obtain ⟨r, sstableCache, hsearch, _⟩ := hm.readSstables hi hcache
    simp only [step, clientStep, hi, hsearch, Option.bind_eq_bind, Option.bind_some]
    cases r <;> exact ⟨_, rfl⟩
  | _ => cases hp

/-- What follows the swap of a full table. -/
def retrySteps (i : Nat) : List Action :=
  [.client i .append, .client i .signal, .client i (.retry ⟨0, 0⟩)]

/-- A `get` that goes on to the queue. -/
def getSteps (i : Nat) (key : Blob) : List Action :=
  [.client i (.get key), .client i .readMemtable, .client i .readImmutable]

end Engine

end Lsmlite
