import Mathlib.Data.List.Induction
import Mathlib.Logic.Function.Basic

/-!
# Linearizability

Calls of a shared object overlap in time. A history of calls and replies is linearizable when the
calls that returned can be put in one sequence that keeps the order of those that did not overlap,
and in which an object called one call after another gives the same replies.

The rule below is for objects whose updates take effect when they return and whose reads see some
state of the time they take.
-/

namespace Linearizability

/-- What an object does when its calls come one after another. -/
structure Object (Op Reply State : Type) where
  init : State
  next : State → Op → State
  reply : State → Op → Reply

/-- Client `i` calls, or gets its reply; or something happens that no client sees. -/
inductive Event (Op Reply : Type) where
  | call (i : Nat) (op : Op)
  | reply (i : Nat) (r : Reply)
  | silent
  deriving DecidableEq, Repr

def Event.isReply {Op Reply : Type} : Event Op Reply → Bool
  | .reply _ _ => true
  | _ => false

/-- A call that returned, with the numbers of its two events. -/
structure Operation (Op Reply : Type) where
  op : Op
  reply : Reply
  called : Nat
  returned : Nat
  deriving DecidableEq, Repr

/-- The calls of a history: how many events it has, what each client waits for and since when, and
what has returned. -/
structure Calls (Op Reply : Type) where
  time : Nat
  underWay : Nat → Option (Nat × Op)
  returned : List (Operation Op Reply)

variable {Op Reply : Type}

def Calls.note (c : Calls Op Reply) (event : Event Op Reply) : Calls Op Reply where
  time := c.time + 1
  underWay := match event with
    | .call i op => Function.update c.underWay i (some (c.time + 1, op))
    | .reply i _ => Function.update c.underWay i none
    | .silent => c.underWay
  returned := match event with
    | .reply i r =>
      c.returned ++ (c.underWay i).toList.map fun call => ⟨call.2, r, call.1, c.time + 1⟩
    | _ => c.returned

/-- The calls of a whole history. -/
def calls (history : List (Event Op Reply)) : Calls Op Reply :=
  history.foldl Calls.note ⟨0, fun _ => none, []⟩

theorem calls_snoc (history : List (Event Op Reply)) (event : Event Op Reply) :
    calls (history ++ [event]) = (calls history).note event := by
  rw [calls, List.foldl_append]
  rfl

theorem underWay_call (history : List (Event Op Reply)) (i : Nat) (op : Op) :
    (calls (history ++ [.call i op])).underWay =
      Function.update (calls history).underWay i (some ((calls history).time + 1, op)) := by
  rw [calls_snoc]
  rfl

theorem underWay_reply (history : List (Event Op Reply)) (i : Nat) (r : Reply) :
    (calls (history ++ [.reply i r])).underWay =
      Function.update (calls history).underWay i none := by
  rw [calls_snoc]
  rfl

theorem underWay_silent (history : List (Event Op Reply)) :
    (calls (history ++ [.silent])).underWay = (calls history).underWay := by
  rw [calls_snoc]
  rfl

theorem time_snoc (history : List (Event Op Reply)) (event : Event Op Reply) :
    (calls (history ++ [event])).time = (calls history).time + 1 := by
  rw [calls_snoc]
  rfl

/-- A client's call began before now. -/
theorem called_le {history : List (Event Op Reply)} {i called : Nat} {op : Op}
    (h : (calls history).underWay i = some (called, op)) : called ≤ (calls history).time := by
  induction history using List.reverseRecOn with
  | nil => cases h
  | append_singleton history event ih =>
    rw [time_snoc]
    cases event with
    | call j op' =>
      rw [underWay_call, Function.update_apply] at h
      split at h
      · cases h
        exact Nat.le_refl _
      · exact Nat.le_succ_of_le (ih h)
    | reply j r =>
      rw [underWay_reply, Function.update_apply] at h
      split at h
      · cases h
      · exact Nat.le_succ_of_le (ih h)
    | silent =>
      rw [underWay_silent] at h
      exact Nat.le_succ_of_le (ih h)

/-- The call that a reply ends. -/
theorem returned_reply {history : List (Event Op Reply)} {i called : Nat} {op : Op}
    (h : (calls history).underWay i = some (called, op)) (r : Reply) :
    (calls (history ++ [.reply i r])).returned =
      (calls history).returned ++ [⟨op, r, called, (calls history).time + 1⟩] := by
  rw [calls_snoc, Calls.note, h]
  rfl

namespace Object
variable {State : Type} (O : Object Op Reply State)

/-- The state that calls one after another leave. -/
def after (s : State) (ops : List (Operation Op Reply)) : State :=
  ops.foldl (fun s c => O.next s c.op) s

/-- From state `s` on, one call after another is replied to as recorded. -/
def Legal : State → List (Operation Op Reply) → Prop
  | _, [] => True
  | s, c :: ops => c.reply = O.reply s c.op ∧ Legal (O.next s c.op) ops

/-- A call that changes nothing. -/
def Reads (op : Op) : Prop := ∀ s, O.next s op = s

/-- Every reply ends a call, and the calls that returned can be put in one sequence in which none
comes before one that had returned when it was made. -/
def Linearizable (history : List (Event Op Reply)) : Prop :=
  (calls history).returned.length = history.countP Event.isReply ∧
    ∃ ops : List (Operation Op Reply), ops.Perm (calls history).returned ∧ O.Legal O.init ops ∧
      ops.Pairwise fun a b => ¬ b.returned < a.called

variable {O}

theorem after_append (s : State) (xs ys : List (Operation Op Reply)) :
    O.after s (xs ++ ys) = O.after (O.after s xs) ys := List.foldl_append

theorem legal_nil (s : State) : O.Legal s [] := trivial

theorem legal_append {s : State} {xs ys : List (Operation Op Reply)} :
    O.Legal s (xs ++ ys) ↔ O.Legal s xs ∧ O.Legal (O.after s xs) ys := by
  induction xs generalizing s with
  | nil => exact (true_and _).to_iff.symm
  | cons c xs ih =>
    rw [List.cons_append, Legal, Legal, ih, and_assoc]
    rfl

/-! ## Calls at their moments -/

/-- The object goes through `states`: the calls put at each of them lead there from the one
before. -/
inductive Placed (O : Object Op Reply State) :
    State → List State → List (List (Operation Op Reply)) → Prop where
  | nil (s : State) : Placed O s [] []
  | cons {s : State} {states : List State} {ops : List (Operation Op Reply)}
      {moments : List (List (Operation Op Reply))}
    (hlegal : O.Legal s ops) (hrest : Placed O (O.after s ops) states moments) :
    Placed O s (O.after s ops :: states) (ops :: moments)

namespace Placed
variable {s : State} {states : List State} {moments : List (List (Operation Op Reply))}

theorem legal (h : Placed O s states moments) : O.Legal s moments.flatten := by
  induction h with
  | nil => trivial
  | cons hlegal _ ih =>
    rw [List.flatten_cons, legal_append]
    exact ⟨hlegal, ih⟩

theorem length_eq (h : Placed O s states moments) : moments.length = states.length := by
  induction h with
  | nil => rfl
  | cons _ _ ih => rw [List.length_cons, List.length_cons, ih]

/-- The next state. -/
theorem snoc (h : Placed O s states moments) {ops : List (Operation Op Reply)}
    (hlegal : O.Legal (states.getLastD s) ops) :
    Placed O s (states ++ [O.after (states.getLastD s) ops]) (moments ++ [ops]) := by
  induction h with
  | nil s => exact .cons hlegal (.nil _)
  | @cons s states ops' moments hfirst _ ih =>
    have hlast : (O.after s ops' :: states).getLastD s = states.getLastD (O.after s ops') := by
      cases states <;> rfl
    rw [hlast] at hlegal ⊢
    exact .cons hfirst (ih hlegal)

/-- A read at one of the moments before. -/
theorem read (h : Placed O s states moments) {t : Nat} {seen : State}
    (hseen : states[t]? = some seen) {c : Operation Op Reply} (hreads : O.Reads c.op)
    (hreply : c.reply = O.reply seen c.op) :
    Placed O s states (moments.modify t (· ++ [c])) := by
  induction h generalizing t with
  | nil => cases hseen
  | @cons s states ops moments hlegal hrest ih =>
    cases t with
    | zero =>
      cases hseen
      have hsame : O.after s (ops ++ [c]) = O.after s ops := by
        rw [after_append]
        exact hreads _
      have hlegal' : O.Legal s (ops ++ [c]) := legal_append.mpr ⟨hlegal, hreply, trivial⟩
      rw [← hsame] at hrest ⊢
      exact .cons hlegal' hrest
    | succ t => exact .cons hlegal (ih hseen)

end Placed

theorem flatten_modify_perm {α : Type} {xss : List (List α)} {t : Nat} (ht : t < xss.length)
    (x : α) :
    (xss.modify t (· ++ [x])).flatten.Perm (xss.flatten ++ [x]) := by
  induction xss generalizing t with
  | nil => cases ht
  | cons xs xss ih =>
    cases t with
    | zero =>
      rw [List.modify_zero_cons, List.flatten_cons, List.flatten_cons,
        List.append_assoc, List.append_assoc]
      exact List.perm_append_comm.append_left xs
    | succ t =>
      rw [List.modify_succ_cons, List.flatten_cons, List.flatten_cons, List.append_assoc]
      exact (ih (Nat.lt_of_succ_lt_succ ht)).append_left xs

/-! ## The rule -/

/-- A history with the states the object goes through, one for each number of events: an update
changes it when it returns, and a read sees one of the states since its call. -/
inductive Explains (O : Object Op Reply State) :
    List (Event Op Reply) → List State → State → Prop where
  | start : Explains O [] [O.init] O.init
  | silent {history : List (Event Op Reply)} {states : List State} {s : State}
      (h : Explains O history states s) :
    Explains O (history ++ [.silent]) (states ++ [s]) s
  | call {history : List (Event Op Reply)} {states : List State} {s : State}
      (h : Explains O history states s)
    (i : Nat) (op : Op) : Explains O (history ++ [.call i op]) (states ++ [s]) s
  | update {history : List (Event Op Reply)} {states : List State} {s : State} {i called : Nat}
      {op : Op}
    (h : Explains O history states s) (hcall : (calls history).underWay i = some (called, op)) :
    Explains O (history ++ [.reply i (O.reply s op)]) (states ++ [O.next s op]) (O.next s op)
  | read {history : List (Event Op Reply)} {states : List State} {s seen : State} {i called : Nat}
      {op : Op}
    (h : Explains O history states s) (hcall : (calls history).underWay i = some (called, op))
      (hreads : O.Reads op)
    (hseen : seen ∈ states.drop called) :
    Explains O (history ++ [.reply i (O.reply seen op)]) (states ++ [s]) s

/-- The calls that returned, each at a moment between its two events. -/
structure Moments (O : Object Op Reply State) (history : List (Event Op Reply))
    (states : List State) (s : State) (moments : List (List (Operation Op Reply))) : Prop where
  time : states.length = (calls history).time + 1
  last : states.getLastD O.init = s
  placed : Placed O O.init states moments
  within : ∀ (t : Nat) (ops : List (Operation Op Reply)), moments[t]? = some ops →
    ∀ c ∈ ops, c.called ≤ t ∧ t ≤ c.returned
  all : moments.flatten.Perm (calls history).returned
  replies : (calls history).returned.length = history.countP Event.isReply

theorem moments_start : Moments O [] [O.init] O.init [[]] where
  time := rfl
  last := rfl
  placed := .cons (legal_nil O.init) (.nil _)
  within t ops h c hc := by
    obtain rfl := List.mem_singleton.mp (List.mem_of_getElem? h)
    cases hc
  all := List.Perm.refl _
  replies := rfl

namespace Moments
variable {history : List (Event Op Reply)} {states : List State} {s : State}
  {moments : List (List (Operation Op Reply))}

theorem length_eq (h : Moments O history states s moments) :
    moments.length = (calls history).time + 1 :=
  h.placed.length_eq.trans h.time

/-- The next event, with the calls that take effect there. -/
theorem next (h : Moments O history states s moments) {event : Event Op Reply}
    {ops : List (Operation Op Reply)} (hlegal : O.Legal s ops)
    (hwithin : ∀ c ∈ ops, c.called ≤ moments.length ∧ moments.length ≤ c.returned)
    (hreturned : (calls (history ++ [event])).returned = (calls history).returned ++ ops)
    (hreply : ops.length = [event].countP Event.isReply) :
    Moments O (history ++ [event]) (states ++ [O.after s ops]) (O.after s ops) (moments ++ [ops])
      where
  time := by
    rw [List.length_append, List.length_singleton, h.time, time_snoc]
  last := List.getLastD_concat
  placed := by
    have hplaced := h.placed.snoc (h.last.symm ▸ hlegal)
    rwa [h.last] at hplaced
  within t ops' ht c hc := by
    rw [List.getElem?_append] at ht
    split at ht
    · exact h.within t ops' ht c hc
    · obtain rfl := List.mem_singleton.mp (List.mem_of_getElem? ht)
      have hzero := (List.getElem?_eq_some_iff.mp ht).1
      rw [List.length_singleton] at hzero
      obtain rfl : t = moments.length := by omega
      exact hwithin c hc
  all := by
    rw [hreturned, List.flatten_concat]
    exact h.all.append_right ops
  replies := by rw [hreturned, List.length_append, h.replies, hreply, List.countP_append]

/-- An event that ends no call. -/
theorem silent (h : Moments O history states s moments) {event : Event Op Reply}
    (hevent : event.isReply = false)
    (hreturned : (calls (history ++ [event])).returned = (calls history).returned) :
    Moments O (history ++ [event]) (states ++ [s]) s (moments ++ [[]]) := by
  have hreply : ([] : List (Operation Op Reply)).length = [event].countP Event.isReply := by
    rw [List.countP_singleton, hevent]
    rfl
  exact h.next (legal_nil s) nofun (hreturned.trans (List.append_nil _).symm) hreply

/-- A read that ends, put where it saw the object. -/
theorem read (h : Moments O history states s moments) {i called : Nat} {op : Op} {seen : State}
    (hcall : (calls history).underWay i = some (called, op)) (hreads : O.Reads op) {t : Nat}
    (hcalled : called ≤ t) (hseen : states[t]? = some seen) :
    Moments O (history ++ [.reply i (O.reply seen op)]) (states ++ [s]) s
      (moments.modify t (· ++ [⟨op, O.reply seen op, called, (calls history).time + 1⟩]) ++ [[]])
        where
  time := by
    rw [List.length_append, List.length_singleton, h.time, time_snoc]
  last := List.getLastD_concat
  placed := by
    have hread :=
      h.placed.read hseen (c := ⟨op, O.reply seen op, called, (calls history).time + 1⟩) hreads rfl
    have hplaced := hread.snoc (legal_nil _)
    rwa [h.last] at hplaced
  within k ops hk c hc := by
    have ht : t < states.length := (List.getElem?_eq_some_iff.mp hseen).1
    rw [h.time] at ht
    rw [List.getElem?_append] at hk
    split at hk
    · rw [List.getElem?_modify, Option.map_eq_map, Option.map_eq_some_iff] at hk
      obtain ⟨ops', hops', rfl⟩ := hk
      by_cases htk : t = k
      · subst htk
        rw [if_pos rfl] at hc
        rcases List.mem_append.mp hc with hc | hc
        · exact h.within t ops' hops' c hc
        · obtain rfl := List.mem_singleton.mp hc
          exact ⟨hcalled, Nat.le_of_lt ht⟩
      · rw [if_neg htk] at hc
        exact h.within k ops' hops' c hc
    · obtain rfl := List.mem_singleton.mp (List.mem_of_getElem? hk)
      cases hc
  all := by
    have ht : t < moments.length := by
      rw [h.placed.length_eq]
      exact (List.getElem?_eq_some_iff.mp hseen).1
    rw [returned_reply hcall, List.flatten_concat, List.append_nil]
    exact (flatten_modify_perm ht _).trans (h.all.append_right _)
  replies := by
    rw [returned_reply hcall, List.length_append, h.replies, List.countP_append]
    rfl

theorem linearizable (h : Moments O history states s moments) : O.Linearizable history := by
  refine ⟨h.replies, moments.flatten, h.all, h.placed.legal, ?_⟩
  -- A call is put before the ones at later moments, and they return later still.
  have horder : ∀ (t u : Nat) (xs ys : List (Operation Op Reply)), moments[t]? = some xs →
      moments[u]? = some ys → t ≤ u → ∀ a ∈ xs, ∀ b ∈ ys, ¬ b.returned < a.called := by
    intro t u xs ys ht hu htu a ha b hb
    have hcalled := (h.within t xs ht a ha).1
    have hreturned := (h.within u ys hu b hb).2
    omega
  rw [List.pairwise_flatten]
  constructor
  · intro ops hops
    obtain ⟨t, ht⟩ := List.mem_iff_getElem?.mp hops
    exact List.pairwise_of_forall_mem_list (horder t t ops ops ht ht (Nat.le_refl t))
  · rw [List.pairwise_iff_getElem]
    intro t u ht hu htu
    exact horder t u _ _ (List.getElem?_eq_getElem ht) (List.getElem?_eq_getElem hu)
      (Nat.le_of_lt htu)

end Moments

/-- Every explained history is linearizable. -/
theorem Explains.linearizable {history : List (Event Op Reply)} {states : List State} {s : State}
    (h : Explains O history states s) : O.Linearizable history := by
  have hmoments : ∃ moments, Moments O history states s moments := by
    induction h with
    | start => exact ⟨_, moments_start⟩
    | silent h ih =>
      obtain ⟨moments, hm⟩ := ih
      exact ⟨_, hm.silent rfl (by rw [calls_snoc]; rfl)⟩
    | call h i op ih =>
      obtain ⟨moments, hm⟩ := ih
      exact ⟨_, hm.silent rfl (by rw [calls_snoc]; rfl)⟩
    | @update history states s i called op h hcall ih =>
      obtain ⟨moments, hm⟩ := ih
      have hlength := hm.length_eq
      have hbegun := called_le hcall
      have hlegal : O.Legal s [⟨op, O.reply s op, called, (calls history).time + 1⟩] :=
        ⟨rfl, trivial⟩
      refine ⟨_, hm.next hlegal ?_ (returned_reply hcall _) rfl⟩
      intro c hc
      obtain rfl := List.mem_singleton.mp hc
      rw [hlength]
      exact ⟨Nat.le_succ_of_le hbegun, Nat.le_refl _⟩
    | read h hcall hreads hseen ih =>
      obtain ⟨moments, hm⟩ := ih
      obtain ⟨k, hk⟩ := List.mem_iff_getElem?.mp hseen
      rw [List.getElem?_drop] at hk
      exact ⟨_, hm.read hcall hreads (Nat.le_add_right _ _) hk⟩
  obtain ⟨moments, hm⟩ := hmoments
  exact hm.linearizable

end Object

end Linearizability
