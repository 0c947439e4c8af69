import Lsmlite.EngineSteps

/-!
# The order of the immutable queue

`rotate_table` swaps the active memtable out under one lock and appends it to the queue under
another. The queue lists tables in the order of the swaps as long as no client appends while
another still holds a table that was swapped out earlier.
-/

namespace Lsmlite.Engine

/-- The tables popped so far, in the order of their SSTables, and then those in the queue are in
the order in which they left the active slot. -/
def InAgeOrder (e : Engine) : Prop := (e.popped ++ e.immutable).Sublist e.swapped

/-- The table that client `i` has swapped out and not yet appended. -/
def Holding (e : Engine) (i full : Nat) : Prop :=
  ∃ w, e.clients[i]? = some (Phase.appending w full)

/-- The tables that clients have swapped out and not yet appended. -/
def waiting (e : Engine) : List Nat :=
  e.clients.filterMap fun
    | .appending _ full => some full
    | _ => none

theorem mem_waiting {e : Engine} {i full : Nat} (h : e.Holding i full) : full ∈ e.waiting := by
  obtain ⟨w, hw⟩ := h
  exact List.mem_filterMap.mpr ⟨_, List.mem_of_getElem? hw, rfl⟩

theorem holding_of_waiting {e : Engine} {i : Nat} (h : i ∈ e.waiting) : ∃ j, e.Holding j i := by
  obtain ⟨p, hp, hhand⟩ := List.mem_filterMap.mp h
  obtain ⟨j, hj⟩ := List.mem_iff_getElem?.mp hp
  cases p with
  | appending w full =>
    cases hhand
    exact ⟨j, w, hj⟩
  | _ => cases hhand

/-- A client that appends holds the oldest of the tables waiting to be appended. -/
def OldestAppends (e : Engine) (a : Action) : Prop :=
  match a with
  | .client i .append =>
    match e.clients[i]? with
    | some (.appending _ full) => ∀ full' ∈ e.waiting, full ≤ full'
    | _ => True
  | _ => True

instance (e : Engine) (a : Action) : Decidable (e.OldestAppends a) := by
  unfold OldestAppends
  split
  · split <;> infer_instance
  · infer_instance

theorem OldestAppends.le {e : Engine} {i full : Nat} (h : e.OldestAppends (.client i .append))
    (hmine : e.Holding i full) : ∀ j full', e.Holding j full' → full ≤ full' := by
  obtain ⟨w, hw⟩ := hmine
  simp only [OldestAppends, hw] at h
  exact fun j full' hj => h full' (mem_waiting hj)

theorem holding_of_set {cs : List Phase} {i j full : Nat} {w : Write} {p : Phase}
    (hp : ∀ w full, p ≠ .appending w full)
    (h : (cs.set i p)[j]? = some (.appending w full)) : cs[j]? = some (.appending w full) := by
  rw [List.getElem?_set] at h
  split at h
  · split at h
    · cases h
      exact absurd rfl (hp w full)
    · cases h
  · exact h

/-- What a step does to the tables and to the queue. -/
inductive QueueStep (c : Config) (e : Engine) (a : Action) (e' : Engine) : Prop where
  | rotated (i : Nat) (w : Write) (stamp : LsmliteInner.Stamp)
      (hclients : e'.clients = e.clients.set i (.appending w e.active))
      (htables : e'.tables = e.tables ++ [freshTable c stamp])
      (hswapped : e'.swapped = e.swapped ++ [e.active])
      (hqueue : e'.immutable = e.immutable) (hpopped : e'.popped = e.popped)
  | appended (i : Nat) (w : Write) (full : Nat)
      (ha : a = .client i .append) (hclient : e.clients[i]? = some (.appending w full))
      (hclients : e'.clients = e.clients.set i (.signalling w))
      (htables : e'.tables = e.tables) (hswapped : e'.swapped = e.swapped)
      (hqueue : e'.immutable = e.immutable ++ [full]) (hpopped : e'.popped = e.popped)
  | other (hlength : e'.tables.length = e.tables.length) (hswapped : e'.swapped = e.swapped)
      (hqueue : e'.popped ++ e'.immutable = e.popped ++ e.immutable)
      (hholding : ∀ j full, e'.Holding j full → e.Holding j full)

theorem clientStep_queue {c : Config} {e e' : Engine} {i : Nat} {a : ClientAction}
    (h : ClientStep c e i a e') : QueueStep c e (.client i a) e' := by
  have hset : ∀ {p : Phase}, (∀ w full, p ≠ .appending w full) → ∀ j full,
      (∃ w, (e.clients.set i p)[j]? = some (Phase.appending w full)) → e.Holding j full :=
    fun hp j full ⟨w, hw⟩ => ⟨w, holding_of_set hp hw⟩
  cases h with
  | rotate hi hts => exact .rotated i _ _ rfl rfl rfl rfl rfl
  | append hi => exact .appended i _ _ rfl hi rfl rfl rfl rfl rfl
  | attemptOk hi htable hw => exact .other (List.length_set ..) rfl rfl (hset (by simp))
  | retryOk hi htable hw => exact .other (List.length_set ..) rfl rfl (hset (by simp))
  | @readMemtable key before table q hi htable hq =>
    cases LsmliteInner.readQuery q <;> exact .other rfl rfl rfl (hset (by simp))
  | @readImmutable key before queue q hi hqueue hq =>
    cases LsmliteInner.readQuery q <;> exact .other rfl rfl rfl (hset (by simp))
  | _ => exact .other rfl rfl rfl (hset (by simp))

theorem backgroundStep_queue {c : Config} {e e' : Engine} {a : BackgroundAction}
    (h : BackgroundStep c e a e') : QueueStep c e (.background a) e' := by
  cases h with
  | popTable hc =>
    refine .other rfl rfl ?_ fun _ _ hj => hj
    cases e.immutable <;> simp
  | removeWal hf ht => exact .other (List.length_set ..) rfl rfl fun _ _ hj => hj
  | _ => exact .other rfl rfl rfl fun _ _ hj => hj

theorem step_queue {c : Config} {e e' : Engine} {a : Action} (h : step c e a = some e') :
    QueueStep c e a e' := by
  cases step_cases h with
  | spawn hopen =>
    refine .other rfl rfl rfl fun j full ⟨w, hw⟩ => ⟨w, ?_⟩
    simp only [List.getElem?_append, List.getElem?_singleton] at hw
    split at hw
    · exact hw
    · split at hw <;> cases hw
  | client h => exact clientStep_queue h
  | background h => exact backgroundStep_queue h
  | drop hopen hidle => exact .other rfl rfl rfl fun _ _ hj => hj

/-- The tables on their way to the queue are newer than those in it, and no two clients hold the
same one. -/
structure Aging (e : Engine) : Prop where
  nonempty : e.tables ≠ []
  swapped : e.swapped = List.range e.active
  sorted : (e.popped ++ e.immutable).Pairwise (· < ·)
  below : ∀ t ∈ e.popped ++ e.immutable, t < e.active
  held : ∀ i full, e.Holding i full → full < e.active
  newer : ∀ i full, e.Holding i full → ∀ t ∈ e.popped ++ e.immutable, t < full
  distinct : ∀ i j full, e.Holding i full → e.Holding j full → i = j

theorem aging_start (c : Config) (stamp : LsmliteInner.Stamp) : Aging (start c stamp) where
  nonempty := by simp [start]
  swapped := by simp [start, active]
  sorted := by simp [start]
  below := by simp [start]
  held := by simp [start, Holding]
  newer := by simp [start]
  distinct := by simp [start, Holding]

theorem Aging.rotated {c : Config} {e e' : Engine} (h : Aging e) {i : Nat} {w : Write}
    {stamp : LsmliteInner.Stamp} (hclients : e'.clients = e.clients.set i (.appending w e.active))
    (htables : e'.tables = e.tables ++ [freshTable c stamp])
    (hswapped : e'.swapped = e.swapped ++ [e.active])
    (hqueue : e'.immutable = e.immutable) (hpopped : e'.popped = e.popped) : Aging e' := by
  have hpos : 0 < e.tables.length := List.length_pos_iff.mpr h.nonempty
  have hactive : e'.active = e.active + 1 := by
    simp only [active, htables, List.length_append, List.length_singleton]
    omega
  have hholding : ∀ j full, e'.Holding j full →
      (j = i ∧ full = e.active) ∨ (j ≠ i ∧ e.Holding j full) := by
    intro j full ⟨w', hw'⟩
    rw [hclients, List.getElem?_set] at hw'
    split at hw'
    · rename_i hij
      split at hw'
      · cases hw'
        exact Or.inl ⟨hij.symm, rfl⟩
      · cases hw'
    · rename_i hij
      exact Or.inr ⟨fun hji => hij hji.symm, w', hw'⟩
  refine ⟨by simp [htables], ?_, ?_, ?_, ?_, ?_, ?_⟩
  · rw [hswapped, hactive, h.swapped, List.range_succ]
  · rw [hqueue, hpopped]
    exact h.sorted
  · rw [hqueue, hpopped, hactive]
    exact fun t ht => Nat.lt_succ_of_lt (h.below t ht)
  · intro j full hj
    rw [hactive]
    rcases hholding j full hj with ⟨_, rfl⟩ | ⟨_, hj⟩
    · exact Nat.lt_succ_self _
    · exact Nat.lt_succ_of_lt (h.held j full hj)
  · rw [hqueue, hpopped]
    intro j full hj t ht
    rcases hholding j full hj with ⟨_, rfl⟩ | ⟨_, hj⟩
    · exact h.below t ht
    · exact h.newer j full hj t ht
  · intro j k full hj hk
    rcases hholding j full hj with ⟨hji, rfl⟩ | ⟨hji, hj⟩ <;>
      rcases hholding k _ hk with ⟨hki, hfull⟩ | ⟨hki, hk⟩
    · rw [hji, hki]
    · exact absurd (h.held k _ hk) (Nat.lt_irrefl _)
    · subst hfull
      exact absurd (h.held j _ hj) (Nat.lt_irrefl _)
    · exact h.distinct j k full hj hk

theorem Aging.appended {e e' : Engine} (h : Aging e) {i : Nat} {w : Write} {full : Nat}
    (hclient : e.clients[i]? = some (.appending w full))
    (holdest : ∀ j full', e.Holding j full' → full ≤ full')
    (hclients : e'.clients = e.clients.set i (.signalling w)) (htables : e'.tables = e.tables)
    (hswapped : e'.swapped = e.swapped) (hqueue : e'.immutable = e.immutable ++ [full])
    (hpopped : e'.popped = e.popped) : Aging e' := by
  have hactive : e'.active = e.active := by simp only [active, htables]
  have hlist : e'.popped ++ e'.immutable = (e.popped ++ e.immutable) ++ [full] := by
    rw [hqueue, hpopped, List.append_assoc]
  have hmine : e.Holding i full := ⟨w, hclient⟩
  have hholding : ∀ j full', e'.Holding j full' → j ≠ i ∧ e.Holding j full' := by
    intro j full' ⟨w', hw'⟩
    rw [hclients] at hw'
    refine ⟨?_, w', holding_of_set (by simp) hw'⟩
    rintro rfl
    rw [List.getElem?_set_self (List.getElem?_eq_some_iff.mp hclient).1] at hw'
    cases hw'
  refine ⟨by rw [htables]; exact h.nonempty, by rw [hswapped, hactive, h.swapped], ?_, ?_, ?_, ?_,
    ?_⟩
  · rw [hlist, List.pairwise_append]
    refine ⟨h.sorted, List.pairwise_singleton _ _, fun t ht t' ht' => ?_⟩
    rw [List.mem_singleton] at ht'
    exact ht' ▸ h.newer i full hmine t ht
  · rw [hlist, hactive]
    intro t ht
    rcases List.mem_append.mp ht with ht | ht
    · exact h.below t ht
    · exact List.mem_singleton.mp ht ▸ h.held i full hmine
  · rw [hactive]
    exact fun j full' hj => h.held j full' (hholding j full' hj).2
  · rw [hlist]
    intro j full' hj t ht
    obtain ⟨hne, hj⟩ := hholding j full' hj
    rcases List.mem_append.mp ht with ht | ht
    · exact h.newer j full' hj t ht
    · rw [List.mem_singleton.mp ht]
      refine Nat.lt_of_le_of_ne (holdest j full' hj) fun heq => hne ?_
      exact h.distinct j i full' hj (heq ▸ hmine)
  · exact fun j k full' hj hk =>
      h.distinct j k full' (hholding j full' hj).2 (hholding k full' hk).2

theorem aging_step {c : Config} {e e' : Engine} {a : Action} (h : Aging e)
    (hok : e.OldestAppends a) (hs : step c e a = some e') : Aging e' := by
  cases step_queue hs with
  | rotated i w stamp hclients htables hswapped hqueue hpopped =>
    exact h.rotated hclients htables hswapped hqueue hpopped
  | appended i w full ha hclient hclients htables hswapped hqueue hpopped =>
    subst ha
    exact h.appended hclient (hok.le ⟨w, hclient⟩) hclients htables hswapped hqueue hpopped
  | other hlength hswapped hqueue hholding =>
    have hactive : e'.active = e.active := by simp only [active, hlength]
    refine ⟨?_, by rw [hswapped, hactive, h.swapped], by rw [hqueue]; exact h.sorted,
      by rw [hqueue, hactive]; exact h.below, fun j full hj => ?_, fun j full hj => ?_,
      fun j k full hj hk => h.distinct j k full (hholding j full hj) (hholding k full hk)⟩
    · rw [← List.length_pos_iff, hlength]
      exact List.length_pos_iff.mpr h.nonempty
    · rw [hactive]
      exact h.held j full (hholding j full hj)
    · rw [hqueue]
      exact h.newer j full (hholding j full hj)

/-- Ascending numbers below `n` are some of `0, …, n - 1` in order. -/
theorem sublist_range {l : List Nat} {n : Nat} (hs : l.Pairwise (· < ·)) (hlt : ∀ t ∈ l, t < n) :
    l.Sublist (List.range n) := by
  induction n generalizing l with
  | zero =>
    cases l with
    | nil => exact List.nil_sublist _
    | cons t l => exact absurd (hlt t (List.mem_cons_self ..)) (Nat.not_lt_zero _)
  | succ n ih =>
    rw [List.range_succ]
    rcases List.eq_nil_or_concat l with rfl | ⟨l, t, rfl⟩
    · exact List.nil_sublist _
    rw [List.concat_eq_append, List.pairwise_append] at hs
    obtain ⟨hl, _, hlast⟩ := hs
    have hlt' : ∀ t' ∈ l, t' < t := fun t' ht' => hlast t' ht' t (List.mem_singleton_self t)
    have ht : t < n + 1 := hlt t (by simp)
    rw [List.concat_eq_append]
    by_cases heq : t = n
    · rw [heq] at hlt' ⊢
      exact (ih hl hlt').append_right [n]
    · refine (ih (l := l ++ [t]) ?_ fun t' ht' => ?_).trans (List.sublist_append_left _ _)
      · exact List.pairwise_append.mpr ⟨hl, List.pairwise_singleton _ _, hlast⟩
      · rcases List.mem_append.mp ht' with ht' | ht'
        · have := hlt' t' ht'
          omega
        · rw [List.mem_singleton.mp ht']
          omega

/-- The queue is in age order in every state of a run in which the oldest table held is always
appended first. -/
theorem queue_in_age_order {c : Config} {e : Engine} (h : Reaches c OldestAppends e) :
    e.InAgeOrder := by
  have haging : Aging e := h.invariant (aging_start c) fun e a e' he hok hs => aging_step he hok hs
  unfold InAgeOrder
  rw [haging.swapped]
  exact sublist_range haging.sorted haging.below

/-- Two rotations, the second of which appends first. -/
def overtakingRun : List Action :=
  [.spawn, .spawn] ++ writeSteps 0 [97] [1] ++ swapSteps 0 [98] [2] 1 ++ writeSteps 1 [99] [3] ++
    swapSteps 1 [100] [4] 2 ++ [.client 1 .append, .client 0 .append]

theorem queue_out_of_order : ∃ e, Reaches tinyConfig (fun _ _ => True) e ∧ ¬ e.InAgeOrder := by
  have hrun : (runActions tinyConfig (fun _ _ => True) (start tinyConfig ⟨0, 0⟩)
      overtakingRun).map (fun e => (e.popped ++ e.immutable, e.swapped)) =
          some ([1, 0], [0, 1]) := by
    decide +kernel
  obtain ⟨e, he, hlists⟩ := Option.map_eq_some_iff.mp hrun
  refine ⟨e, reaches_runActions (.start _) he, ?_⟩
  obtain ⟨hqueue, hswapped⟩ := Prod.mk.inj hlists
  rw [InAgeOrder, hqueue, hswapped]
  decide

/-- The same rotations in order. -/
theorem queue_in_age_order_two : ∃ e, Reaches tinyConfig OldestAppends e ∧ e.immutable = [0, 1] ∧
    e.InAgeOrder := by
  have hrun : (runActions tinyConfig OldestAppends (start tinyConfig ⟨0, 0⟩)
      (overtakingRun.dropLast.dropLast ++ [.client 0 .append, .client 1 .append])).map
        (·.immutable) = some [0, 1] := by
    decide +kernel
  obtain ⟨e, he, hqueue⟩ := Option.map_eq_some_iff.mp hrun
  have hreach := reaches_runActions (.start _) he
  exact ⟨e, hreach, hqueue, queue_in_age_order hreach⟩

end Lsmlite.Engine
