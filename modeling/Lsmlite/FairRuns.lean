import Lsmlite.Draining
import Lsmlite.LiveLogs
import Lsmlite.MaintenanceReads

/-!
# Every table is flushed

Runs that go on forever. Clients may keep writing and any step may come between two others: as long
as no task and no client in a rotation is left out forever, every table that is swapped out is
flushed.
-/

namespace Lsmlite
open Variants

theorem Flusher.left_le (f : Flusher) : f.left ≤ 15 * f.holds.toNat + 1 := by
  cases f <;> simp [Flusher.left, Flusher.holds]

theorem Compactor.left_le (p : Compactor) : p.left ≤ 15 * p.holds.toNat + 5 := by
  cases p <;> simp [Compactor.left, Compactor.holds]

/-- The client has swapped out a table and not sent the signal for it. -/
def Phase.rotates : Phase → Bool
  | .appending _ _ => true
  | .signalling _ => true
  | _ => false

namespace Engine

/-! ## Asked and done -/

/-- The flushes that were asked for. -/
def asked (e : Engine) : Nat := e.popped.length + e.promised

/-- The steps that the tasks have taken for them, and some that no flush needed. -/
def spent (e : Engine) : Nat := 15 * e.asked + 7 - e.work

/-- What holds until the last handle is dropped. -/
structure Open (c : Config) (e : Engine) : Prop where
  working : Working c e
  oneLoad : e.loads.length + e.compactor.busy.toNat + e.sstableAck ≤ 1
  flusher : e.flusher ≠ .stopped
  compactor : e.compactor ≠ .stopped
  flushes : (e.memtableChannel.filter (· = .flush)).length = e.memtableChannel.length
  loads : e.loads.length = e.signal.length

theorem Reaches.isOpen {c : Config} {e : Engine} (h : Reaches c FileFits e)
    (hopen : e.dropped = false) :
    Open c e := by
  have hworking := h.working
  obtain ⟨hflusher, hcompactor⟩ := h.running hopen
  obtain ⟨s, _, hruns⟩ := h.runs hopen
  refine ⟨hworking, ?_, hflusher, hcompactor, ?_, ?_⟩
  · rcases hworking.layered.oneLoad with hone | ⟨hstopped, _⟩
    · have := (decide (e.flusher = .awaiting)).toNat_le
      omega
    · exact absurd hstopped hflusher
  · rw [hruns.channel, List.filter_replicate, if_pos (decide_eq_true rfl)]
  · have hloads : s.signal.filterMap (CompactionSignal.ts ∘ .loadSSTable) = s.signal :=
      List.filterMap_some
    rw [Engine.loads, hruns.signal, List.filterMap_map, hloads, List.length_map]

theorem Open.work_le {c : Config} {e : Engine} (h : Open c e) : e.work ≤ 15 * e.asked + 7 := by
  have hflusher := e.flusher.left_le
  have hcompactor := e.compactor.left_le
  have hflushes := h.flushes
  have hloads := h.loads
  have hone := h.oneLoad
  unfold work asked promised
  omega

/-- Little was spent on tables that are not popped yet. -/
theorem Open.spent_le {c : Config} {e : Engine} (h : Open c e) :
    e.spent ≤ 15 * e.popped.length + 52 := by
  have hflusher := e.flusher.holds.toNat_le
  have hcompactor := e.compactor.holds.toNat_le
  have hflushes := h.flushes
  have hone := h.oneLoad
  unfold spent work asked promised
  omega

/-- A client's step leaves the flush channel, or asks for a flush. -/
theorem ClientStep.channel {c : Config} {e e' : Engine} {i : Nat} {a : ClientAction}
    (h : ClientStep c e i a e') :
    e'.memtableChannel = e.memtableChannel ∨
      a = .signal ∧ e'.memtableChannel = e.memtableChannel ++ [MemtableFlushSignal.flush] := by
  cases h with
  | signal hi => exact Or.inr ⟨rfl, rfl⟩
  | @readMemtable key before table q hi htable hq =>
    cases LsmliteInner.readQuery q <;> exact Or.inl rfl
  | @readImmutable key before queue q hi hqueue hq =>
    cases LsmliteInner.readQuery q <;> exact Or.inl rfl
  | _ => exact Or.inl rfl

/-- A client that sends a signal asks for a flush and leaves the work on it. -/
theorem client_asked {c : Config} {e e' : Engine} {i : Nat} {a : ClientAction}
    (h : ClientStep c e i a e') :
    ∃ n, e'.asked = e.asked + n ∧ e'.work = e.work + 15 * n ∧
      (a = .signal ∧ n = 1 ∨ a ≠ .signal ∧ n = 0) := by
  have hsame := h.tasks_same
  have hflushes :
      ∀ n, e'.memtableChannel = e.memtableChannel ++ List.replicate n MemtableFlushSignal.flush →
      e'.asked = e.asked + n ∧ e'.work = e.work + 15 * n := by
    intro n hchannel
    unfold asked promised work
    rw [hsame.popped, hsame.flusher, hsame.compactor, hsame.loads, hsame.signal, hsame.sstableAck,
      hchannel, List.filter_append, List.filter_replicate, if_pos (decide_eq_true rfl),
      List.length_append, List.length_append, List.length_replicate]
    omega
  rcases h.channel with hchannel | ⟨rfl, hchannel⟩
  · obtain ⟨hasked, hwork⟩ := hflushes 0 (by rw [hchannel, List.replicate_zero, List.append_nil])
    refine ⟨0, hasked, hwork, Or.inr ⟨fun ha => ?_, rfl⟩⟩
    subst ha
    cases h
    simp [setPhase] at hchannel
  · obtain ⟨hasked, hwork⟩ := hflushes 1 hchannel
    exact ⟨1, hasked, hwork, Or.inl ⟨rfl, rfl⟩⟩

/-- The tasks ask for no flush. -/
theorem background_asked {c : Config} {e e' : Engine} {a : BackgroundAction} (hp : Promised e)
    (h : BackgroundStep c e a e') : e'.asked = e.asked := by
  have hp' := promised_background hp h
  have hsame := h.tasksOnly
  have hlayers := congrArg List.length hsame.layers
  have howed : e'.owed = e.owed := by rw [owed, hsame.clients, owed]
  rw [List.length_append, List.length_append] at hlayers
  unfold Promised at hp hp'
  unfold asked
  omega

theorem Open.advances {c : Config} {e e' : Engine} (h : Open c e) {a : BackgroundAction}
    (ha : Advances c e a e') :
    e.spent < e'.spent := by
  have hwork := work_advances e a e' ha
  have hle := h.work_le
  have hasked : e'.asked = e.asked := by
    cases step_cases ha.2 with
    | background hb => exact background_asked h.working.promised hb
  unfold spent
  omega

/-- No step takes back what was asked or spent. -/
theorem Open.step {c : Config} {e e' : Engine} {a : Action} (h : Open c e)
    (hs : step c e a = some e') (hopen : e'.dropped = false) :
    e.asked ≤ e'.asked ∧ e.spent ≤ e'.spent := by
  cases step_cases hs with
  | spawn => exact ⟨Nat.le_refl _, Nat.le_refl _⟩
  | drop => cases hopen
  | client hc =>
    obtain ⟨n, hasked, hwork, _⟩ := client_asked hc
    unfold spent
    omega
  | @background b _ hb =>
    refine ⟨Nat.le_of_eq (background_asked h.working.promised hb).symm, ?_⟩
    by_cases hadvances : b.advances = true
    · exact Nat.le_of_lt (h.advances ⟨hadvances, hs⟩)
    · cases hb with
      | writePart hf ht hcontent => exact Nat.le_refl _
      | _ => exact absurd rfl hadvances

/-- Only client `i` moves client `i`. -/
theorem step_phase {c : Config} {e e' : Engine} {a : Action} (hs : step c e a = some e') {i : Nat}
    {p : Phase} (hi : e.clients[i]? = some p) (ha : ∀ b, a ≠ .client i b) :
    e'.clients[i]? = some p := by
  have hset : ∀ {j : Nat} {q : Phase}, j ≠ i → (e.clients.set j q)[i]? = some p :=
    fun hj => (List.getElem?_set_ne hj).trans hi
  cases step_cases hs with
  | spawn =>
    obtain ⟨hlt, _⟩ := List.getElem?_eq_some_iff.mp hi
    exact (List.getElem?_append_left hlt).trans hi
  | drop => exact hi
  | background hb =>
    rw [hb.tasksOnly.clients]
    exact hi
  | @client j b _ hc =>
    have hj : j ≠ i := fun heq => ha b (heq ▸ rfl)
    cases hc with
    | @readMemtable key before table q _ htable hq =>
      cases LsmliteInner.readQuery q <;> exact hset hj
    | @readImmutable key before queue q _ hqueue hq =>
      cases LsmliteInner.readQuery q <;> exact hset hj
    | _ => exact hset hj

/-- What the queue was given, in order. -/
def appended (e : Engine) : List Nat := e.popped ++ e.immutable

theorem appended_grows {c : Config} {e e' : Engine} {a : Action} (hs : step c e a = some e') :
    e.appended <+: e'.appended := by
  unfold appended
  cases step_cases hs with
  | spawn | drop => exact List.prefix_rfl
  | background hb => exact hb.tasksOnly.layers ▸ List.prefix_rfl
  | client hc =>
    cases hc with
    | @append w full hi => exact ⟨[full], List.append_assoc ..⟩
    | @readMemtable key before table q hi htable hq =>
      cases LsmliteInner.readQuery q <;> exact List.prefix_rfl
    | @readImmutable key before queue q hi hqueue hq =>
      cases LsmliteInner.readQuery q <;> exact List.prefix_rfl
    | _ => exact List.prefix_rfl

theorem popped_grows {c : Config} {e e' : Engine} {a : Action} (hs : step c e a = some e') :
    e.popped <+: e'.popped := by
  cases step_cases hs with
  | spawn | drop => exact List.prefix_rfl
  | client hc => exact hc.tasks_same.popped ▸ List.prefix_rfl
  | background hb =>
    cases hb with
    | popTable hc => exact List.prefix_append _ _
    | _ => exact List.prefix_rfl

theorem Reaches.cleared {c : Config} {ok : Engine → Action → Prop} {e : Engine}
    (h : Reaches c ok e) : Cleared e :=
  (h.invariant (P := fun e => OneLoad e ∧
    Cleared e) (fun stamp => ⟨one_load_start c stamp, cleared_start c stamp⟩) fun _ _ _ he _ hs =>
    ⟨one_load_step he.1 hs, cleared_step he.2 he.1 hs⟩).2

/-! ## Fair runs -/

/-- A run that goes on forever with its handles open, in files that meet the limits of their
format. -/
structure Run (c : Config) where
  state : Nat → Engine
  action : Nat → Action
  reached : Reaches c FileFits (state 0)
  step : ∀ t, Engine.step c (state t) (action t) = some (state (t + 1))
  opened : ∀ t, (state t).dropped = false
  fits : ∀ t, (state t).FilesFit

/-- Client `i` is in a rotation, and finds room for its signal in a channel of `capacity`. -/
def CanRotate (e : Engine) (capacity i : Nat) : Prop :=
  ∃ p, e.clients[i]? = some p ∧ p.rotates = true ∧
    (owes p = none ∨ e.memtableChannel.length < capacity)

/-- Neither the tasks nor a client that can go on with a rotation are left out forever. -/
structure Run.Fair {c : Config} (run : Run c) (capacity : Nat) : Prop where
  tasks : WeaklyFair (fun t => (run.state t).CanAdvance c)
    (fun t => ∃ a, a.advances = true ∧ run.action t = .background a)
  clients : ∀ i, WeaklyFair (fun t => (run.state t).CanRotate capacity i)
    (fun t => ∃ a, run.action t = .client i a)

namespace Run
variable {c : Config} (run : Run c)

theorem reaches (t : Nat) : Reaches c FileFits (run.state t) := by
  induction t with
  | zero => exact run.reached
  | succ t ih =>
    refine ih.next ?_ (run.step t)
    have hfits := run.fits t
    cases run.action t with
    | background a => exact hfits a
    | _ => trivial

theorem isOpen (t : Nat) : Open c (run.state t) := (run.reaches t).isOpen (run.opened t)

theorem grows {t u : Nat} (h : t ≤ u) :
    (run.state t).asked ≤ (run.state u).asked ∧ (run.state t).spent ≤ (run.state u).spent := by
  induction h with
  | refl => exact ⟨Nat.le_refl _, Nat.le_refl _⟩
  | @step u _ ih =>
    obtain ⟨hasked, hspent⟩ := (run.isOpen u).step (run.step u) (run.opened (u + 1))
    exact ⟨Nat.le_trans ih.1 hasked, Nat.le_trans ih.2 hspent⟩

theorem keeps {t u : Nat} (h : t ≤ u) :
    (run.state t).appended <+: (run.state u).appended ∧ (run.state t).popped <+:
      (run.state u).popped := by
  induction h with
  | refl => exact ⟨List.prefix_rfl, List.prefix_rfl⟩
  | @step u _ ih =>
    exact ⟨ih.1.trans (appended_grows (run.step u)), ih.2.trans (popped_grows (run.step u))⟩

end Run

namespace Run.Fair
variable {c : Config} {run : Run c} {capacity : Nat} (fair : run.Fair capacity)
include fair

/-- A client that can go on with its rotation as long as it does not, does. -/
theorem client {t i : Nat} {p : Phase} (hi : (run.state t).clients[i]? = some p)
    (hgoes : ∀ u, t ≤ u → (run.state u).clients[i]? = some p → (run.state u).CanRotate capacity i) :
    ∃ u a, t ≤ u ∧ (run.state u).clients[i]? = some p ∧
      ClientStep c (run.state u) i a (run.state (u + 1)) := by
  obtain ⟨u, htu, ⟨_, hu⟩, a, ha⟩ :=
    (fair.clients i).until (fun u => t ≤ u ∧ (run.state u).clients[i]? = some p)
      (fun u hu => hgoes u hu.1 hu.2)
      (fun u hu hnot => ⟨by omega, step_phase (run.step u) hu.2 fun b hb => hnot ⟨b, hb⟩⟩)
        ⟨Nat.le_refl t, hi⟩
  have hs := run.step u
  rw [ha] at hs
  exact ⟨u, a, htu, hu, clientStep_cases hs⟩

end Run.Fair

namespace Run
variable {c : Config} {e : Engine}

/-- Only new handles are taken. -/
def idle (he : Reaches c FileFits e) (hopen : e.dropped = false) (hfits : e.FilesFit) : Run c where
  state t := { e with clients := e.clients ++ List.replicate t .idle }
  action _ := .spawn
  reached := by
    rw [List.replicate_zero, List.append_nil]
    exact he
  step t := by
    rw [Engine.step, if_neg (by simp [hopen]), List.replicate_succ', List.append_assoc]
  opened _ := hopen
  fits _ := hfits

/-- A run with a step in front. -/
def cons (run : Run c) (a : Action) (he : Reaches c FileFits e)
    (hs : Engine.step c e a = some (run.state 0)) (hfits : e.FilesFit) : Run c where
  state t := t.casesOn e run.state
  action t := t.casesOn a run.action
  reached := he
  step t := by
    cases t with
    | zero => exact hs
    | succ t => exact run.step t
  opened t := by
    cases t with
    | zero => exact (step_dropped hs (run.opened 0)).1
    | succ t => exact run.opened t
  fits t := by
    cases t with
    | zero => exact hfits
    | succ t => exact run.fits t

theorem Fair.cons {run : Run c} {capacity : Nat} (fair : run.Fair capacity) {a : Action}
    (he : Reaches c FileFits e) (hs : Engine.step c e a = some (run.state 0)) (hfits : e.FilesFit) :
    (run.cons a he hs hfits).Fair capacity where
  tasks := WeaklyFair.later fair.tasks
  clients i := WeaklyFair.later (fair.clients i)

end Run

end Engine

end Lsmlite
