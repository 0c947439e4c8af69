import Lsmlite.AtomicReads
import Lsmlite.Lib.Linearizability

/-!
# One map for all callers

What the callers of the concurrent engine see is a history of calls and replies. In the runs in
which reads are atomic and no retry is in vain, it is one of a map that takes one call after
another.
-/

namespace Lsmlite
open KeyValue Linearizability

/-- A call of a handle: `set` and `delete` write, `get` reads. -/
inductive MapOp where
  | write (key : Blob) (entry : Entry)
  | get (key : Blob)
  deriving DecidableEq, Repr

inductive MapReply where
  | done
  | found (value : Option Blob)
  deriving DecidableEq, Repr

/-- The map that the store is for. -/
def keyValueMap : Object MapOp MapReply (Blob → Option Blob) where
  init _ := none
  next m
    | .write key entry => Function.update m key (readEntry (some entry))
    | .get _ => m
  reply m
    | .write _ _ => .done
    | .get key => .found (m key)

namespace Engine

/-- What the writes taken so far say of each key. -/
def contents (e : Engine) (key : Blob) : Option Blob := readEntry (last key e.taken)

/-- The reply to a call whose last step is `a`, in the state it leaves. -/
def replyTo (e' : Engine) : ClientAction → MapReply
  | .attempt _ | .retry _ => .done
  | _ => .found (e'.answers.getLast?.bind (·.result))

/-- What callers see of a step into `e'`. -/
def event (e' : Engine) : Action → Event MapOp MapReply
  | .client i (.call key entry) => .call i (.write key entry)
  | .client i (.get key) => .call i (.get key)
  | .client i a => if e'.clients[i]? = some .idle then .reply i (replyTo e' a) else .silent
  | _ => .silent

/-- A run whose steps meet a condition, with the history its callers see. -/
inductive Observed (c : Config) (ok : Engine → Action → Prop) :
    List (Event MapOp MapReply) → Engine → Prop where
  | start (stamp : LsmliteInner.Stamp) : Observed c ok [] (start c stamp)
  | next {history : List (Event MapOp MapReply)} {e e' : Engine} {a : Action}
      (h : Observed c ok history e) (hok : ok e a)
    (hs : step c e a = some e') : Observed c ok (history ++ [event e' a]) e'

/-- Reads are atomic, and a retry finds room. -/
def ActsAsOne (e : Engine) (a : Action) : Prop := e.KeepsOrder a ∧ e.RetryHasRoom a

/-! ## The map behind the tables -/

section
variable {c : Config} {e e' : Engine} {a : Action}

theorem contents_wrote {w : Write} (h : e'.taken = e.taken ++ [(w.key, w.entry)]) :
    e'.contents = keyValueMap.next e.contents (.write w.key w.entry) := by
  funext key
  rw [contents, h, last_snoc]
  show _ = Function.update e.contents w.key (readEntry (some w.entry)) key
  rw [Function.update_apply]
  split
  · rfl
  · rfl

theorem contents_same (h : e'.taken = e.taken) : e'.contents = e.contents := by
  funext key
  rw [contents, contents, h]

/-- A write takes effect when it returns. -/
theorem taken_took {table : Table} (inner : MemtableInner) (w : Write) (i : Nat)
    (htable : e.tables[e.active]? = some table) :
    ((e.took table inner w).finish i w).taken = e.taken ++ [(w.key, w.entry)] := by
  have hinserted : ((e.took table inner w).finish i w).tables.flatMap (·.inserted) =
      e.tables.flatMap (·.inserted) ++ [w] :=
    flatMap_set_last htable rfl
  rw [taken_tables, taken_tables, hinserted, asEntries, asEntries, List.map_append]
  rfl

theorem taken_congr (h : e'.tables = e.tables) : e'.taken = e.taken := by
  rw [taken_tables, taken_tables, h]

/-- Nothing else does. -/
theorem taken_same (hs : step c e a = some e')
    (hattempt : ∀ i clock, a ≠ .client i (.attempt clock))
    (hretry : ∀ i clock, a ≠ .client i (.retry clock)) : e'.taken = e.taken := by
  cases step_tables hs with
  | took i w clock table inner hby =>
    rcases hby with ⟨hby, _⟩ | ⟨hby, _⟩
    · exact absurd hby (hattempt i clock)
    · exact absurd hby (hretry i clock)
  | fresh i w stamp _ _ hstep =>
    rw [taken_tables, taken_tables, hstep, List.flatMap_append]
    exact congrArg asEntries (List.append_nil _)
  | removed ts table t _ _ ht hstep =>
    rw [taken_tables, taken_tables, hstep, flatMap_set_same ht (by rfl)]
  | other hsame => exact taken_congr hsame

/-- A client whose phase nothing changed, or a new one. -/
theorem phase_or_idle (hs : step c e a = some e') {i : Nat} {p : Phase}
    (hi : e'.clients[i]? = some p) (ha : ∀ b, a ≠ .client i b) :
    e.clients[i]? = some p ∨ p = .idle := by
  cases hold : e.clients[i]? with
  | some q =>
    have hsame := step_phase hs hold ha
    rw [hi] at hsame
    exact Or.inl hsame.symm
  | none =>
    right
    have hset : ∀ {j : Nat} {q : Phase}, j ≠ i → (e.clients.set j q)[i]? = some p → p = .idle := by
      intro j q hj h
      rw [List.getElem?_set_ne hj, hold] at h
      cases h
    cases step_cases hs with
    | spawn =>
      have hmem :=
        List.mem_of_getElem? (List.getElem?_append_right (List.getElem?_eq_none_iff.mp hold) ▸ hi)
      exact List.mem_singleton.mp hmem
    | drop => cases hold.symm.trans hi
    | background hb =>
      rw [hb.tasksOnly.clients] at hi
      cases hold.symm.trans hi
    | @client j b _ hc =>
      have hj : j ≠ i := fun heq => ha b (heq ▸ rfl)
      cases hc with
      | @readMemtable key before table q _ htable hq =>
        revert hi
        cases LsmliteInner.readQuery q <;> exact hset hj
      | @readImmutable key before queue q _ hqueue hq =>
        revert hi
        cases LsmliteInner.readQuery q <;> exact hset hj
      | _ => exact hset hj hi

end

/-! ## The callers -/

/-- What the history says of a client in its call, and what a reader may still find. -/
structure InCall (es : List Engine) (e : Engine) (call : Option (Nat × MapOp))
    (p : Phase) : Prop where
  writes : ∀ w, pending p = some w → ∃ called, call = some (called, .write w.key w.entry)
  reads : ∀ b key before, readOf p = some (b, key, before) →
    ∃ called, call = some (called, .get key) ∧ Watches (es.drop called) key before e p

theorem inCall_idle {es : List Engine} {e : Engine} {call : Option (Nat × MapOp)} :
    InCall es e call .idle where
  writes := nofun
  reads := nofun

theorem Watches.inCall {es : List Engine} {e : Engine} {called : Nat} {key : Blob}
    {before : List Write} {p : Phase} (h : Watches (es.drop called) key before e p) :
    InCall es e (some (called, .get key)) p := by
  cases p with
  | readingMemtable | readingImmutable | readingSstables =>
    obtain ⟨rfl, rfl, _⟩ := id h
    exact ⟨nofun, fun b key before hread => by cases hread; exact ⟨called, rfl, h⟩⟩
  | _ => exact h.elim

theorem event_read {p : Phase} {b : ClientAction} {key : Blob} {before : List Write}
    (h : readOf p = some (b, key, before)) (e' : Engine) (i : Nat) :
    event e' (.client i b) =
      if e'.clients[i]? = some .idle then .reply i (.found (e'.answers.getLast?.bind (·.result)))
        else .silent := by
  cases p with
  | readingMemtable | readingImmutable | readingSstables =>
    cases h
    rfl
  | _ => cases h

/-- The history of a run explained by what its states `es` contain. -/
structure Follows (c : Config) (history : List (Event MapOp MapReply)) (es : List Engine)
    (e : Engine) : Prop where
  explains : keyValueMap.Explains history (es.map contents) e.contents
  last : ∃ init, es = init ++ [e]
  length : es.length = (calls history).time + 1
  placed : InPlace c.hashing e
  callers : ∀ (i : Nat) (p : Phase), e.clients[i]? = some p →
    InCall es e ((calls history).underWay i) p

section
variable {c : Config} {history : List (Event MapOp MapReply)} {es : List Engine} {e e' : Engine}
  {a : Action} {i : Nat}

theorem follows_start (c : Config) (stamp : LsmliteInner.Stamp) :
    Follows c [] [start c stamp] (start c stamp) where
  explains := .start
  last := ⟨[], rfl⟩
  length := rfl
  placed := in_place_start c stamp
  callers i p hi := by cases hi

namespace Follows
variable (h : Follows c history es e)
include h

theorem mem_drop {called : Nat} {op : MapOp}
    (hcall : (calls history).underWay i = some (called, op)) :
    e ∈ es.drop called := by
  obtain ⟨init, hes⟩ := h.last
  have hlength := h.length
  have hle := called_le hcall
  rw [hes, List.length_append, List.length_singleton] at hlength
  rw [hes, List.drop_append_of_le_length (by omega)]
  exact List.mem_append_right _ (List.mem_singleton_self e)

theorem drop_snoc {called : Nat} {op : MapOp}
    (hcall : (calls history).underWay i = some (called, op)) (e' : Engine) :
    (es ++ [e']).drop called = es.drop called ++ [e'] := by
  have hlength := h.length
  have hle := called_le hcall
  exact List.drop_append_of_le_length (by omega)

/-- A client whose phase a step leaves. -/
theorem stays (ho' : InPlace c.hashing e') (hs : step c e a = some e') {p : Phase}
    (hi : e.clients[i]? = some p) :
    InCall (es ++ [e']) e' ((calls history).underWay i) p where
  writes := (h.callers i p hi).writes
  reads b key before hread := by
    obtain ⟨called, hcall, hwatches⟩ := (h.callers i p hi).reads b key before hread
    refine ⟨called, hcall, ?_⟩
    rw [h.drop_snoc hcall]
    exact hwatches.others h.placed ho' hs

theorem others (ho' : InPlace c.hashing e') (hs : step c e a = some e') {p : Phase}
    (hi : e'.clients[i]? = some p) (ha : ∀ b, a ≠ .client i b) :
    InCall (es ++ [e']) e' ((calls history).underWay i) p := by
  rcases phase_or_idle hs hi ha with hi | rfl
  · exact h.stays ho' hs hi
  · exact inCall_idle

theorem next (ho' : InPlace c.hashing e') {event : Event MapOp MapReply}
    (hexplains :
      keyValueMap.Explains (history ++ [event]) (es.map contents ++ [e'.contents]) e'.contents)
    (hcallers : ∀ (i : Nat) (p : Phase), e'.clients[i]? = some p →
      InCall (es ++ [e']) e' ((calls (history ++ [event])).underWay i) p) :
    Follows c (history ++ [event]) (es ++ [e']) e' where
  explains := by
    rw [List.map_append]
    exact hexplains
  last := ⟨es, rfl⟩
  length := by rw [List.length_append, List.length_singleton, h.length, time_snoc]
  placed := ho'
  callers := hcallers

/-- A step that no caller sees. -/
theorem silent (ho' : InPlace c.hashing e') (htaken : e'.taken = e.taken)
    (hcallers : ∀ (i : Nat) (p : Phase), e'.clients[i]? = some p →
      InCall (es ++ [e']) e' ((calls history).underWay i) p) :
    Follows c (history ++ [.silent]) (es ++ [e']) e' := by
  refine h.next ho' ?_ ?_
  · rw [contents_same htaken]
    exact h.explains.silent
  · rw [underWay_silent]
    exact hcallers

theorem called (ho' : InPlace c.hashing e') {b : ClientAction}
    (hs : step c e (.client i b) = some e') (htaken : e'.taken = e.taken) {op : MapOp}
    (hi : ∀ p, e'.clients[i]? = some p →
      InCall (es ++ [e']) e' (some ((calls history).time + 1, op)) p) :
    Follows c (history ++ [.call i op]) (es ++ [e']) e' := by
  refine h.next ho' ?_ fun j p hj => ?_
  · rw [contents_same htaken]
    exact h.explains.call i op
  · rw [underWay_call, Function.update_apply]
    split
    · rename_i hji
      subst hji
      exact hi p hj
    · rename_i hji
      exact h.others ho' hs hj fun b' hb' => hji (by cases hb'; rfl)

theorem replied (ho' : InPlace c.hashing e') {b : ClientAction}
    (hs : step c e (.client i b) = some e') (hidle : e'.clients[i]? = some .idle) {r : MapReply}
    (hexplains : keyValueMap.Explains (history ++ [.reply i r])
      (es.map contents ++ [e'.contents]) e'.contents) :
    Follows c (history ++ [.reply i r]) (es ++ [e']) e' := by
  refine h.next ho' hexplains fun j p hj => ?_
  rw [underWay_reply, Function.update_apply]
  split
  · rename_i hji
    subst hji
    cases hidle.symm.trans hj
    exact inCall_idle
  · rename_i hji
    exact h.others ho' hs hj fun b' hb' => hji (by cases hb'; rfl)

/-- A client that goes on in its call, unseen. -/
theorem moved (ho' : InPlace c.hashing e') {b : ClientAction}
    (hs : step c e (.client i b) = some e') (htaken : e'.taken = e.taken)
    (hi : ∀ p, e'.clients[i]? = some p → InCall (es ++ [e']) e' ((calls history).underWay i) p) :
    Follows c (history ++ [.silent]) (es ++ [e']) e' := by
  refine h.silent ho' htaken fun j p hj => ?_
  by_cases hji : j = i
  · subst hji
    exact hi p hj
  · exact h.others ho' hs hj fun b' hb' => hji (by cases hb'; rfl)

/-- A write goes on, unseen. -/
theorem writes_on (ho' : InPlace c.hashing e') {b : ClientAction}
    (hs : step c e (.client i b) = some e') (htaken : e'.taken = e.taken) {p q : Phase}
    {w : Write} (hi : e.clients[i]? = some p) (hp : pending p = some w)
    (hi' : e'.clients[i]? = some q) (hq : pending q = some w) {reply : Event MapOp MapReply} :
    Follows c (history ++ [if e'.clients[i]? = some .idle then reply else .silent])
      (es ++ [e']) e' := by
  have hbusy : e'.clients[i]? ≠ some .idle := fun hidle => by
    cases hi'.symm.trans hidle
    cases hq
  rw [if_neg hbusy]
  refine h.moved ho' hs htaken fun q' hq' => ?_
  cases hi'.symm.trans hq'
  have hcall := (h.callers i p hi).writes w hp
  refine ⟨fun w' hw' => ?_, fun b key before hread => ?_⟩
  · cases hq.symm.trans hw'
    exact hcall
  · cases q with
    | readingMemtable | readingImmutable | readingSstables => cases hq
    | _ => cases hread

/-- A write returns. -/
theorem wrote (ho' : InPlace c.hashing e') {b : ClientAction}
    (hs : step c e (.client i b) = some e') {p : Phase} {w : Write} (hi : e.clients[i]? = some p)
    (hp : pending p = some w) (hidle : e'.clients[i]? = some .idle)
    (htaken : e'.taken = e.taken ++ [(w.key, w.entry)]) :
    Follows c (history ++ [if e'.clients[i]? = some .idle then .reply i .done else .silent])
      (es ++ [e']) e' := by
  rw [if_pos hidle]
  obtain ⟨called, hcall⟩ := (h.callers i p hi).writes w hp
  apply h.replied ho' hs hidle
  rw [contents_wrote htaken]
  exact h.explains.update hcall

/-- A reader's step: it returns what some moment of its call answers, or goes on. -/
theorem reads (ho' : InPlace c.hashing e') {p : Phase} {b : ClientAction} {key : Blob}
    {before : List Write} (hok : e.KeepsOrder (.client i b))
    (hs : step c e (.client i b) = some e') (htaken : e'.taken = e.taken)
    (hi : e.clients[i]? = some p) (hread : readOf p = some (b, key, before)) :
    Follows c (history ++ [event e' (.client i b)]) (es ++ [e']) e' := by
  obtain ⟨called, hcall, hwatches⟩ := (h.callers i p hi).reads b key before hread
  rw [event_read hread]
  rcases Watches.client h.placed (h.mem_drop hcall) hi hok hwatches (clientStep_cases hs) with
    ⟨r, ⟨s, hsin, hr⟩, hanswers, hidle⟩ | ⟨q, hq, hnext⟩
  · have hreply : e'.answers.getLast?.bind (·.result) = s.contents key := by
      rw [hanswers, List.getLast?_concat]
      exact hr.symm
    rw [if_pos hidle, hreply]
    apply h.replied ho' hs hidle
    rw [contents_same htaken]
    have hunchanged : keyValueMap.Reads (.get key) := fun _ => rfl
    have hseen : s.contents ∈ (es.map contents).drop called := by
      rw [← List.map_drop]
      exact List.mem_map_of_mem hsin
    exact h.explains.read hcall hunchanged hseen
  · have hbusy : e'.clients[i]? ≠ some .idle := fun hidle => by
      cases hq.symm.trans hidle
      exact hnext
    rw [if_neg hbusy]
    refine h.moved ho' hs htaken fun q' hq' => ?_
    cases hq.symm.trans hq'
    rw [hcall]
    apply Watches.inCall
    rw [h.drop_snoc hcall]
    exact hnext.later e'

end Follows

theorem follows_client (h : Follows c history es e) {b : ClientAction}
    (hok : e.ActsAsOne (.client i b)) (hs : step c e (.client i b) = some e') :
    Follows c (history ++ [event e' (.client i b)]) (es ++ [e']) e' := by
  have ho' := in_place_step h.placed hok.1 hs
  have hset : ∀ {p q : Phase}, e.clients[i]? = some p → (e.clients.set i q)[i]? = some q :=
    fun hi => List.getElem?_set_self (List.getElem?_eq_some_iff.mp hi).1
  cases clientStep_cases hs with
  | call hi hopen key entry =>
    refine h.called ho' hs (taken_congr rfl) fun p hp => ?_
    cases (hset hi).symm.trans hp
    exact ⟨fun w hw => by cases hw; exact ⟨_, rfl⟩, nofun⟩
  | get hi hopen key =>
    refine h.called ho' hs (taken_congr rfl) fun p hp => ?_
    cases (hset hi).symm.trans hp
    exact Watches.inCall ⟨rfl, rfl⟩
  | attemptOk hi htable hw | retryOk hi htable hw =>
    exact h.wrote ho' hs hi rfl (hset hi) (taken_took _ _ i htable)
  | attemptFull hi htable hw =>
    exact h.writes_on ho' hs (taken_congr rfl) hi rfl (hset hi) rfl
  | rotate hi hts =>
    exact h.writes_on ho' hs (taken_same hs nofun nofun) hi rfl (hset hi) rfl
  | append hi | signal hi =>
    exact h.writes_on ho' hs (taken_congr rfl) hi rfl (hset hi) rfl
  | retryFull hi htable hw =>
    -- The retry has room, so it cannot find the table full.
    have hroom := hok.2 _ htable
    cases hroom.symm.trans (MemtableInner.full_of_error hw)
  | readMemtable hi | readImmutable hi | readSstables hi =>
    exact h.reads ho' hok.1 hs (taken_same hs nofun nofun) hi rfl

/-- The next step. -/
theorem follows_step (h : Follows c history es e) (hok : e.ActsAsOne a)
    (hs : step c e a = some e') :
    Follows c (history ++ [event e' a]) (es ++ [e']) e' := by
  cases a with
  | client i b => exact follows_client h hok hs
  | spawn | background | drop =>
    have ho' := in_place_step h.placed hok.1 hs
    exact h.silent ho' (taken_same hs nofun nofun) fun j p hj => h.others ho' hs hj nofun

/-- Seen by its callers, the concurrent engine is a map that takes one call after another: in every
run in which reads are atomic and retries find room, the calls that have returned can be put in one
sequence, in keeping with which of them followed which, in which each `get` finds the value last
set. -/
theorem calls_linearizable (h : Observed c ActsAsOne history e) :
    keyValueMap.Linearizable history := by
  have hfollows : ∃ es, Follows c history es e := by
    induction h with
    | start stamp => exact ⟨_, follows_start c stamp⟩
    | next h hok hs ih =>
      obtain ⟨es, hfollows⟩ := ih
      exact ⟨_, follows_step hfollows hok hs⟩
  obtain ⟨es, hfollows⟩ := hfollows
  exact hfollows.explains.linearizable

end

/-- A run of the given steps from `e` on, with the history its callers see. -/
def observe (c : Config) (ok : Engine → Action → Prop) [∀ e a, Decidable (ok e a)] (e : Engine) :
    List Action → Option (List (Event MapOp MapReply) × Engine)
  | [] => some ([], e)
  | a :: actions =>
    if ok e a then do
      let e' ← step c e a
      let (history, last) ← observe c ok e' actions
      return (event e' a :: history, last)
    else none

theorem observed_observe {c : Config} {ok : Engine → Action → Prop} [∀ e a, Decidable (ok e a)]
    {actions : List Action} {history later : List (Event MapOp MapReply)} {e last : Engine}
    (h : Observed c ok history e) (hr : observe c ok e actions = some (later, last)) :
    Observed c ok (history ++ later) last := by
  induction actions generalizing history later e with
  | nil =>
    cases hr
    rw [List.append_nil]
    exact h
  | cons a actions ih =>
    rw [observe] at hr
    split at hr
    · rename_i hok
      simp only [Option.bind_eq_bind, Option.bind_eq_some_iff] at hr
      obtain ⟨e', hs, ⟨history', last'⟩, hr, heq⟩ := hr
      cases heq
      rw [List.append_cons]
      exact ih (h.next hok hs) hr
    · cases hr

theorem Observed.mono {c : Config} {ok ok' : Engine → Action → Prop}
    (hok : ∀ e a, ok e a → ok' e a) {history : List (Event MapOp MapReply)} {e : Engine}
    (h : Observed c ok history e) : Observed c ok' history e := by
  induction h with
  | start stamp => exact .start stamp
  | next _ ha hs ih => exact ih.next (hok _ _ ha) hs

/-- A `get` that has passed the memtables while its key is set anew and flushed: it finds the table
of the first value and comes before the `set` that returned while it ran. -/
theorem calls_linearizable_overtaken : ∃ (history : List (Event MapOp MapReply)) (e : Engine),
    Observed tinyConfig ActsAsOne history e ∧ e.cached = [0, 1] ∧
    (calls history).returned.map (fun call => (call.op, call.reply)) =
      [(.write [97] (.data [1]), .done), (.write [98] (.data [2]), .done),
        (.write [97] (.data [3]), .done), (.get [97], .found (some [1])),
        (.get [97], .found (some [3]))] ∧
    keyValueMap.Linearizable history := by
  have hrun : ((observe tinyConfig (fun e a => e.KeepsOrderGapped a ∧ e.RetryHasRoom a)
      (start tinyConfig ⟨0, 0⟩) ([.spawn, .spawn] ++ writeSteps 0 [97] [1] ++
        swapSteps 0 [98] [2] 1 ++ retrySteps 0 ++ flushCycle 2 ++
        [.client 1 (.get [97]), .client 1 .readMemtable, .client 1 .readImmutable] ++
        swapSteps 0 [97] [3] 3 ++ retrySteps 0 ++ flushCycle 4 ++
        [.client 1 .readSstables, .client 1 (.get [97]), .client 1 .readMemtable])).map fun run =>
      decide (run.2.cached = [0, 1] ∧
        (calls run.1).returned.map (fun call => (call.op, call.reply)) =
          [(.write [97] (.data [1]), .done), (.write [98] (.data [2]), .done),
            (.write [97] (.data [3]), .done), (.get [97], .found (some [1])),
            (.get [97], .found (some [3]))])) = some true := by
    decide +kernel
  obtain ⟨⟨history, e⟩, hobserve, hfacts⟩ := Option.map_eq_some_iff.mp hrun
  obtain ⟨hcached, hcalls⟩ := of_decide_eq_true hfacts
  have hobserved : Observed tinyConfig ActsAsOne history e :=
    (observed_observe (.start _) hobserve).mono fun e a hok => ⟨hok.1.keepsOrder, hok.2⟩
  exact ⟨_, e, hobserved, hcached, hcalls, calls_linearizable hobserved⟩

end Engine

end Lsmlite
