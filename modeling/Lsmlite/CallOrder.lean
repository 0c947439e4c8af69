import Lsmlite.EngineLayers

/-!
# The order of calls

With one call at a time the tables take the calls' records in the order of the calls, and they are
queued and popped in theirs.
-/

namespace Lsmlite
open KeyValue

/-- The effect of calls, in their order. -/
def asEntries (ws : List Write) : Entries := ws.map fun w => (w.key, w.entry)

namespace Engine

/-! ## One call at a time -/

/-- The client that takes the step. -/
def Action.by : Action → Option Nat
  | .client i _ => some i
  | _ => none

/-- No other client is in a call when a client takes a step. -/
def OneClient (e : Engine) (a : Action) : Prop :=
  ∀ i ∈ a.by, ∀ j < e.clients.length, e.clients[j]? = some .idle ∨ j = i

instance (e : Engine) (a : Action) : Decidable (e.OneClient a) :=
  inferInstanceAs
    (Decidable (∀ i ∈ a.by, ∀ j < e.clients.length, e.clients[j]? = some .idle ∨ j = i))

theorem filterMap_alone {β : Type} {f : Phase → Option β} (hidle : f .idle = none)
    {clients : List Phase} {i : Nat} {p : Phase} (hi : clients[i]? = some p)
    (hothers : ∀ j < clients.length, clients[j]? = some .idle ∨ j = i) :
    clients.filterMap f = (f p).toList := by
  induction clients generalizing i with
  | nil => cases hi
  | cons q clients ih =>
    cases i with
    | zero =>
      have hq : q = p := Option.some.inj hi
      have hrest : clients.filterMap f = [] := by
        rw [List.filterMap_eq_nil_iff]
        intro r hr
        obtain ⟨j, hj, hget⟩ := List.getElem_of_mem hr
        rcases hothers (j + 1) (Nat.succ_lt_succ hj) with h | h
        · rw [List.getElem?_cons_succ, List.getElem?_eq_getElem hj, hget] at h
          cases h
          exact hidle
        · cases h
      rw [List.filterMap_cons, hrest, hq]
      cases f p <;> rfl
    | succ i =>
      have hq : q = .idle := by
        rcases hothers 0 (Nat.zero_lt_succ _) with h | h
        · exact Option.some.inj h
        · cases h
      have hrest := ih hi fun j hj => by
        rcases hothers (j + 1) (Nat.succ_lt_succ hj) with h | h
        · exact Or.inl h
        · exact Or.inr (Nat.succ.inj h)
      rw [List.filterMap_cons, hq, hidle]
      exact hrest

/-- The others stay idle while a client goes on. -/
theorem OneClient.others {e : Engine} {i : Nat} {a : ClientAction} (h : e.OneClient (.client i a))
    (q : Phase) :
    ∀ j < (e.clients.set i q).length, (e.clients.set i q)[j]? = some .idle ∨ j = i := by
  intro j hj
  rw [List.length_set] at hj
  by_cases hji : j = i
  · exact Or.inr hji
  · rcases h i rfl j hj with hidle | heq
    · rw [List.getElem?_set_ne (Ne.symm hji)]
      exact Or.inl hidle
    · exact absurd heq hji

theorem OneClient.idle_or {e : Engine} {i : Nat} {a : ClientAction} (h : e.OneClient (.client i a))
    {p q : Phase} (hp : p ∈ e.clients.set i q) : p = .idle ∨ p = q := by
  obtain ⟨j, hj, hget⟩ := List.getElem_of_mem hp
  rcases h.others q j hj with hidle | rfl
  · rw [List.getElem?_eq_getElem hj, hget] at hidle
    exact Or.inl (Option.some.inj hidle)
  · rw [List.getElem_set_self] at hget
    exact Or.inr hget.symm

section
variable {β : Type} {f : Phase → Option β} (hidle : f .idle = none) {e : Engine} {i : Nat}
  {a : ClientAction} {p : Phase}
include hidle

theorem OneClient.filterMap (h : e.OneClient (.client i a)) (hi : e.clients[i]? = some p) :
    e.clients.filterMap f = (f p).toList := by
  exact filterMap_alone hidle hi (h i rfl)

theorem OneClient.filterMap_set (h : e.OneClient (.client i a)) (hi : e.clients[i]? = some p)
    (q : Phase) :
    (e.clients.set i q).filterMap f = (f q).toList := by
  have hlt := (List.getElem?_eq_some_iff.mp hi).1
  exact filterMap_alone hidle (List.getElem?_set_self hlt) (h.others q)

end

/-- The tables were popped and queued in their order. -/
def InOrder (e : Engine) : Prop := e.popped ++ e.immutable ++ e.waiting = List.range e.active

theorem InOrder.same {e e' : Engine} (h : InOrder e) (hactive : e'.active = e.active)
    (hlayers : e'.popped ++ e'.immutable = e.popped ++ e.immutable)
    (hwaiting : e'.waiting = e.waiting) :
    InOrder e' := by
  rw [InOrder, hlayers, hwaiting, hactive]
  exact h

/-- A client that has no table in hand, before and after. -/
theorem OneClient.waiting {e : Engine} {i : Nat} {a : ClientAction} {p q : Phase}
    (h : e.OneClient (.client i a)) (hi : e.clients[i]? = some p) (hp : inHand p = none)
    (hq : inHand q = none) : (e.setPhase i q).waiting = e.waiting := by
  rw [waiting_eq, waiting_eq]
  have hset := h.filterMap_set (f := inHand) rfl hi q
  rw [hq] at hset
  have hbefore := h.filterMap (f := inHand) rfl hi
  rw [hp] at hbefore
  exact hset.trans hbefore.symm

theorem in_order_step {c : Config} {e e' : Engine} {a : Action} (h : InOrder e)
    (hne : e.tables ≠ []) (hone : e.OneClient a) (hs : step c e a = some e') : InOrder e' := by
  cases step_cases hs with
  | spawn hopen =>
    refine h.same rfl rfl ?_
    simp [waiting, List.filterMap_append]
  | drop hopen hidle => exact h.same rfl rfl rfl
  | client hc =>
    cases hc with
    | @rotate w stamp hi hts =>
      have hpos := List.length_pos_iff.mpr hne
      have hactive : (e.tables ++ [freshTable c stamp]).length - 1 = e.active + 1 := by
        simp only [active, List.length_append, List.length_singleton]
        omega
      have hbefore : e.waiting = [] := hone.filterMap (f := inHand) rfl hi
      have hafter : (e.clients.set _ (.appending w e.active)).filterMap inHand = [e.active] :=
        hone.filterMap_set (f := inHand) rfl hi _
      have hall : e.popped ++ e.immutable = List.range e.active := by
        have := h
        rwa [InOrder, hbefore, List.append_nil] at this
      show e.popped ++ e.immutable ++ (e.clients.set _ (.appending w e.active)).filterMap inHand =
        List.range ((e.tables ++ [freshTable c stamp]).length - 1)
      rw [hall, hafter, hactive, List.range_succ]
    | @append w full hi =>
      have hbefore : e.waiting = [full] := hone.filterMap (f := inHand) rfl hi
      have hafter : (e.clients.set _ (.signalling w)).filterMap inHand = [] :=
        hone.filterMap_set (f := inHand) rfl hi _
      show e.popped ++ (e.immutable ++ [full]) ++
        (e.clients.set _ (.signalling w)).filterMap inHand = List.range e.active
      rw [hafter, List.append_nil, ← List.append_assoc, ← hbefore]
      exact h
    | attemptOk hi htable hw =>
      exact h.same (congrArg (· - 1) (List.length_set ..)) rfl (hone.waiting hi rfl rfl)
    | retryOk hi htable hw =>
      exact h.same (congrArg (· - 1) (List.length_set ..)) rfl (hone.waiting hi rfl rfl)
    | @readMemtable key before table q hi htable hq =>
      cases LsmliteInner.readQuery q <;> exact h.same rfl rfl (hone.waiting hi rfl rfl)
    | @readImmutable key before queue q hi hqueue hq =>
      cases LsmliteInner.readQuery q <;> exact h.same rfl rfl (hone.waiting hi rfl rfl)
    | call hi => exact h.same rfl rfl (hone.waiting hi rfl rfl)
    | attemptFull hi => exact h.same rfl rfl (hone.waiting hi rfl rfl)
    | signal hi => exact h.same rfl rfl (hone.waiting hi rfl rfl)
    | retryFull hi => exact h.same rfl rfl (hone.waiting hi rfl rfl)
    | get hi => exact h.same rfl rfl (hone.waiting hi rfl rfl)
    | readSstables hi => exact h.same rfl rfl (hone.waiting hi rfl rfl)
  | background hb =>
    cases hb with
    | popTable hc =>
      refine h.same rfl ?_ rfl
      cases e.immutable <;> simp
    | removeWal hf ht => exact h.same (congrArg (· - 1) (List.length_set ..)) rfl rfl
    | _ => exact h.same rfl rfl rfl

/-! ## The history -/

/-- The client is to retry. -/
def toRetry : Phase → Bool
  | .appending _ _ => true
  | .signalling _ => true
  | .retrying _ => true
  | _ => false

/-- The calls went one after the other, and each has its record in the tables. -/
structure InTurn (e : Engine) : Prop where
  order : e.InOrder
  taken : e.tables.flatMap (·.inserted) = e.returned
  calls : e.returned ++ e.clients.filterMap pending = e.invoked
  room : ∀ p ∈ e.clients, toRetry p = true → ∀ t, e.tables[e.active]? = some t →
    t.inner.full = false

theorem in_turn_start (c : Config) (stamp : LsmliteInner.Stamp) : InTurn (start c stamp) where
  order := rfl
  taken := rfl
  calls := rfl
  room p hp := by cases hp

theorem flatMap_set_last {tables : List Table} {t t' : Table} {w : Write}
    (ht : tables[tables.length - 1]? = some t) (ht' : t'.inserted = t.inserted ++ [w]) :
    (tables.set (tables.length - 1) t').flatMap (·.inserted) =
      tables.flatMap (·.inserted) ++ [w] := by
  rcases List.eq_nil_or_concat tables with rfl | ⟨init, last, rfl⟩
  · cases ht
  · rw [List.concat_eq_append] at ht ⊢
    have hlength : (init ++ [last]).length - 1 = init.length := by simp
    rw [hlength] at ht ⊢
    rw [List.getElem?_concat_length] at ht
    cases ht
    rw [List.set_append_right _ _ (Nat.le_refl _), Nat.sub_self, List.set_cons_zero]
    simp [ht']

theorem freshTable_full {c : Config} (hnodes : 1 ≤ c.maxNodes) (hsize : 1 ≤ c.maxSize)
    (stamp : LsmliteInner.Stamp) : (freshTable c stamp).inner.full = false := by
  rw [freshTable, MemtableInner.full, MemtableInner.new, Bool.or_eq_false_iff]
  simp only [decide_eq_false_iff_not, List.length_nil]
  omega

/-- A client that goes on in its call, or begins or ends a `get`. -/
theorem InTurn.moved {e e' : Engine} (h : InTurn e) {i : Nat} {a : ClientAction} {p q : Phase}
    (hone : e.OneClient (.client i a)) (hi : e.clients[i]? = some p)
    (hclients : e'.clients = e.clients.set i q) (htables : e'.tables = e.tables)
    (hlayers : e'.popped ++ e'.immutable = e.popped ++ e.immutable)
    (hreturned : e'.returned = e.returned) (hinvoked : e'.invoked = e.invoked)
    (hp : inHand p = none) (hq : inHand q = none) (hpending : pending p = pending q)
    (hretry : toRetry q = true → toRetry p = true) : InTurn e' where
  order := by
    refine h.order.same (by rw [active, htables]; rfl) hlayers ?_
    rw [waiting_eq, hclients]
    exact hone.waiting hi hp hq
  taken := by rw [htables, hreturned]; exact h.taken
  calls := by
    have hafter : (e.clients.set i q).filterMap pending = (pending q).toList :=
      hone.filterMap_set rfl hi q
    have hbefore : e.clients.filterMap pending = (pending p).toList := hone.filterMap rfl hi
    have hcalls := h.calls
    rw [hbefore, hpending, ← hafter] at hcalls
    rw [hreturned, hinvoked, hclients]
    exact hcalls
  room r hr hr' t ht := by
    rw [active, htables] at ht
    rw [hclients] at hr
    rcases List.mem_or_eq_of_mem_set hr with hr | rfl
    · exact h.room r hr hr' t ht
    · exact h.room p (List.mem_of_getElem? hi) (hretry hr') t ht

/-- An insertion with the call's return. -/
theorem InTurn.finished {e : Engine} (h : InTurn e) {i : Nat} {a : ClientAction} {p : Phase}
    {w : Write} {table : Table} {inner : MemtableInner} (hone : e.OneClient (.client i a))
    (hi : e.clients[i]? = some p) (hp : inHand p = none) (hpending : pending p = some w)
    (htable : e.tables[e.active]? = some table) :
    InTurn ((e.took table inner w).finish i w) where
  order := by
    refine h.order.same (congrArg (· - 1) (List.length_set ..)) rfl ?_
    exact hone.waiting hi hp rfl
  taken := by
    show (e.tables.set e.active _).flatMap (·.inserted) = e.returned ++ [w]
    rw [← h.taken]
    exact flatMap_set_last htable rfl
  calls := by
    have hafter : (e.clients.set i .idle).filterMap pending = [] := hone.filterMap_set rfl hi .idle
    have hbefore : e.clients.filterMap pending = (pending p).toList := hone.filterMap rfl hi
    have hcalls := h.calls
    rw [hbefore, hpending] at hcalls
    show e.returned ++ [w] ++ (e.clients.set i .idle).filterMap pending = e.invoked
    rw [hafter, List.append_nil]
    exact hcalls
  room r hr hr' t ht := by
    -- Nobody else is in a call.
    obtain rfl : r = .idle := (hone.idle_or hr).elim id id
    cases hr'

theorem in_turn_step {c : Config} (hnodes : 1 ≤ c.maxNodes) (hsize : 1 ≤ c.maxSize)
    {e e' : Engine} {a : Action} (h : InTurn e) (hne : e.tables ≠ []) (hone : e.OneClient a)
    (hs : step c e a = some e') :
    InTurn e' := by
  have horder := in_order_step h.order hne hone hs
  cases step_cases hs with
  | spawn hopen =>
    refine ⟨horder, h.taken, ?_, ?_⟩
    · show e.returned ++ (e.clients ++ [Phase.idle]).filterMap pending = e.invoked
      rw [List.filterMap_append]
      exact (congrArg _ (List.append_nil _)).trans h.calls
    · intro p hp hretry
      rcases List.mem_append.mp hp with hp | hp
      · exact h.room p hp hretry
      · rw [List.mem_singleton.mp hp] at hretry
        cases hretry
  | drop hopen hidle => exact ⟨horder, h.taken, h.calls, h.room⟩
  | client hc =>
    cases hc with
    | call hi hopen key entry =>
      refine ⟨horder, h.taken, ?_, ?_⟩
      · have hbefore : e.clients.filterMap pending = [] := hone.filterMap rfl hi
        have hafter : (e.clients.set _ (.attempting ⟨e.invoked.length, key, entry⟩)).filterMap
            pending = [⟨e.invoked.length, key, entry⟩] := hone.filterMap_set rfl hi _
        have hcalls := h.calls
        rw [hbefore, List.append_nil] at hcalls
        show e.returned ++ (e.clients.set _ _).filterMap pending = e.invoked ++ [_]
        rw [hafter, hcalls]
      · intro p hp hretry
        rcases List.mem_or_eq_of_mem_set hp with hp | rfl
        · exact h.room p hp hretry
        · cases hretry
    | attemptOk hi htable hw => exact h.finished hone hi rfl rfl htable
    | retryOk hi htable hw => exact h.finished hone hi rfl rfl htable
    | attemptFull hi htable hw => exact h.moved hone hi rfl rfl rfl rfl rfl rfl rfl rfl (by nofun)
    | @rotate w stamp hi hts =>
      refine ⟨horder, ?_, ?_, ?_⟩
      · show (e.tables ++ [freshTable c stamp]).flatMap (·.inserted) = e.returned
        rw [List.flatMap_append, h.taken]
        exact List.append_nil _
      · have hbefore : e.clients.filterMap pending = [w] := hone.filterMap rfl hi
        have hafter : (e.clients.set _ (.appending w e.active)).filterMap pending = [w] :=
          hone.filterMap_set rfl hi _
        have hcalls := h.calls
        rw [hbefore, ← hafter] at hcalls
        exact hcalls
      · intro p hp hretry t ht
        have hlast : (e.tables ++ [freshTable c stamp])[(e.tables ++ [freshTable c stamp]).length -
            1]? = some (freshTable c stamp) := by simp
        cases hlast.symm.trans ht
        exact freshTable_full hnodes hsize stamp
    | @append w full hi =>
      refine ⟨horder, h.taken, ?_, ?_⟩
      · have hbefore : e.clients.filterMap pending = [w] := hone.filterMap rfl hi
        have hafter : (e.clients.set _ (.signalling w)).filterMap pending = [w] :=
          hone.filterMap_set rfl hi _
        have hcalls := h.calls
        rw [hbefore, ← hafter] at hcalls
        exact hcalls
      · intro p hp hretry
        rcases List.mem_or_eq_of_mem_set hp with hp | rfl
        · exact h.room p hp hretry
        · exact h.room _ (List.mem_of_getElem? hi) rfl
    | signal hi => exact h.moved hone hi rfl rfl rfl rfl rfl rfl rfl rfl fun _ => rfl
    | @retryFull w clock table err hi htable hw =>
      -- The client that is to retry finds room.
      have hroom := h.room _ (List.mem_of_getElem? hi) rfl table htable
      cases hroom.symm.trans (MemtableInner.full_of_error hw)
    | get hi hopen key => exact h.moved hone hi rfl rfl rfl rfl rfl rfl rfl rfl (by nofun)
    | @readMemtable key before table q hi htable hq =>
      cases LsmliteInner.readQuery q
      · exact h.moved hone hi rfl rfl rfl rfl rfl rfl rfl rfl (by nofun)
      · exact h.moved hone hi rfl rfl rfl rfl rfl rfl rfl rfl (by nofun)
    | @readImmutable key before queue q hi hqueue hq =>
      cases LsmliteInner.readQuery q
      · exact h.moved hone hi rfl rfl rfl rfl rfl rfl rfl rfl (by nofun)
      · exact h.moved hone hi rfl rfl rfl rfl rfl rfl rfl rfl (by nofun)
    | readSstables hi hr => exact h.moved hone hi rfl rfl rfl rfl rfl rfl rfl rfl (by nofun)
  | background hb =>
    cases hb with
    | @removeWal ts i t hf ht =>
      refine ⟨horder, ?_, h.calls, ?_⟩
      · have hsame : (e.tables.set i { t with walRemoved := true }).flatMap (·.inserted) =
            e.tables.flatMap (·.inserted) := flatMap_set_same ht rfl
        exact hsame.trans h.taken
      · intro p hp hretry t' ht'
        have hact : (e.tables.set i { t with walRemoved := true })[e.active]? = some t' := by
          unfold active at ht' ⊢
          rwa [List.length_set] at ht'
        rcases set_cases hact with ⟨heq, rfl⟩ | hold
        · exact h.room p hp hretry t (heq.symm ▸ ht)
        · exact h.room p hp hretry t' hold
    | _ => exact ⟨horder, h.taken, h.calls, h.room⟩

/-- The writes of the tables that were swapped out, oldest first. -/
def settled (e : Engine) : Entries := (e.popped ++ e.immutable).flatMap e.writesOf

theorem flatMap_index {tables : List Table} {β : Type} (f : Table → List β) :
    tables.flatMap f = (List.range tables.length).flatMap fun i =>
      ((tables[i]?).map f).getD [] := by
  induction tables with
  | nil => rfl
  | cons t tables ih =>
    rw [List.length_cons, List.range_succ_eq_map, List.flatMap_cons,
      List.flatMap_cons, List.flatMap_map, ih]
    rfl

/-- With no table in hand the calls' records are those of the settled tables, then the active
one's. -/
theorem InTurn.history {e : Engine} (h : InTurn e) (hne : e.tables ≠ [])
    (hwaiting : e.waiting = []) :
    asEntries e.returned = e.settled ++ e.writesOf e.active := by
  have hpos := List.length_pos_iff.mpr hne
  have hlength : e.tables.length = e.active + 1 := by
    unfold active
    omega
  have horder := h.order
  rw [InOrder, hwaiting, List.append_nil] at horder
  have hall : asEntries e.returned = e.tables.flatMap Table.writes := by
    rw [← h.taken, asEntries, List.map_flatMap]
    rfl
  have hindex : e.tables.flatMap Table.writes = (List.range e.tables.length).flatMap e.writesOf :=
    flatMap_index Table.writes
  rw [hall, hindex, hlength, List.range_succ, List.flatMap_append,
    List.flatMap_singleton, settled, horder]

end Engine

end Lsmlite
