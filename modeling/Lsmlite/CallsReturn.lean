import Lsmlite.FairRuns
import Lsmlite.ReadSources

/-!
# Calls return

The flush channel is bounded, and a client that has swapped out a table waits for room in it. No
call waits forever: as long as the tasks go on, room is made again and again, and a call that is not
left out returns, or a step of its own panics.
-/

namespace Lsmlite
open Variants

/-- The steps that a call has left. -/
def Phase.left : Phase → Nat
  | .idle => 0
  | .attempting _ => 5
  | .rotating _ => 4
  | .appending _ _ => 3
  | .signalling _ => 2
  | .retrying _ => 1
  | .readingMemtable _ _ => 3
  | .readingImmutable _ _ => 2
  | .readingSstables _ _ => 1

namespace Engine

/-! ## One step of a call -/

/-- Each step of a call leaves fewer. -/
theorem ClientStep.left {c : Config} {e e' : Engine} {i : Nat} {a : ClientAction}
    (h : ClientStep c e i a e') {p : Phase} (hi : e.clients[i]? = some p) (hp : p ≠ .idle) :
    ∃ q, e'.clients[i]? = some q ∧ q.left < p.left := by
  obtain ⟨hlt, _⟩ := List.getElem?_eq_some_iff.mp hi
  have hset : ∀ q : Phase, (e.clients.set i q)[i]? = some q := fun q => List.getElem?_set_self hlt
  cases h with
  | call hi' | get hi' =>
    cases hi.symm.trans hi'
    exact absurd rfl hp
  | attemptOk hi' | attemptFull hi' | rotate hi' | append hi' | signal hi'
  | retryOk hi' | retryFull hi'
  | readSstables hi' =>
    cases hi.symm.trans hi'
    exact ⟨_, hset _, by simp [Phase.left]⟩
  | @readMemtable key before table q hi' =>
    cases hi.symm.trans hi'
    cases LsmliteInner.readQuery q <;> exact ⟨_, hset _, by simp [Phase.left]⟩
  | @readImmutable key before queue q hi' =>
    cases hi.symm.trans hi'
    cases LsmliteInner.readQuery q <;> exact ⟨_, hset _, by simp [Phase.left]⟩

/-- Client `i` is in a call and can go on with it, with a channel of `capacity`. -/
def CanGo (e : Engine) (c : Config) (capacity i : Nat) : Prop :=
  ∃ p, e.clients[i]? = some p ∧ p ≠ .idle ∧
    ∃ a e', Engine.step c e (.client i a) = some e' ∧ e.WithRoom capacity (.client i a)

/-- No step asks the tasks for anything while their channel is full. -/
theorem Open.asked_same {c : Config} {e e' : Engine} {a : Action} {capacity : Nat} (h : Open c e)
    (hs : Engine.step c e a = some e') (hopen : e'.dropped = false) (hroom : e.WithRoom capacity a)
    (hfull : capacity ≤ e.memtableChannel.length) : e'.asked = e.asked := by
  cases step_cases hs with
  | spawn => rfl
  | drop => cases hopen
  | background hb => exact background_asked h.working.promised hb
  | client hc =>
    obtain ⟨n, hasked, _, ⟨rfl, _⟩ | ⟨_, rfl⟩⟩ := client_asked hc
    · exact absurd hroom (Nat.not_lt.mpr hfull)
    · exact hasked

/-- Signals are sent where there is room, the tasks are not left out forever, and a client that can
go on with its call again and again does. -/
structure Run.Prompt {c : Config} (run : Run c) (capacity : Nat) : Prop where
  room : ∀ t, (run.state t).WithRoom capacity (run.action t)
  tasks : WeaklyFair (fun t => (run.state t).CanAdvance c)
    (fun t => ∃ a, a.advances = true ∧ run.action t = .background a)
  clients : ∀ i, StronglyFair (fun t => (run.state t).CanGo c capacity i)
    (fun t => ∃ a, run.action t = .client i a)

namespace Run.Prompt
variable {c : Config} {run : Run c} {capacity : Nat} (prompt : run.Prompt capacity)
include prompt

/-- Nothing is asked of the tasks while their channel is full. -/
theorem asks_nothing {t u : Nat} (htu : t ≤ u)
    (hfull : ∀ v, t ≤ v → capacity ≤ (run.state v).memtableChannel.length) :
    (run.state u).asked = (run.state t).asked := by
  induction htu with
  | refl => rfl
  | @step u htu ih =>
    rw [← ih]
    exact (run.isOpen u).asked_same (run.step u) (run.opened (u + 1)) (prompt.room u) (hfull u htu)

/-- Room is made in the channel again and again. -/
theorem roomy (hcapacity : 0 < capacity) (t : Nat) :
    ∃ u, t ≤ u ∧ (run.state u).memtableChannel.length < capacity := by
  by_contra hnever
  push Not at hnever
  -- The tasks never rest, and what they have left is spent at last.
  have hmoves : ∀ u, t ≤ u → ∃ v, u ≤ v ∧ (run.state u).spent < (run.state v).spent := by
    intro u htu
    have hcan : ∀ v, u ≤ v → (run.state v).CanAdvance c := by
      intro v huv
      have hopen := run.isOpen v
      refine hopen.working.canAdvance (run.fits v) fun hrests => ?_
      obtain ⟨_, hchannel⟩ := hrests.flusher.resolve_left hopen.flusher
      have hfull := hnever v (by omega)
      rw [hchannel] at hfull
      exact absurd hcapacity (Nat.not_lt.mpr hfull)
    obtain ⟨v, huv, a, ha, haction⟩ := prompt.tasks u hcan
    have hs := run.step v
    rw [haction] at hs
    have hspent := (run.isOpen v).advances ⟨ha, hs⟩
    have hgrows := run.grows huv
    exact ⟨v + 1, by omega, by omega⟩
  obtain ⟨u, htu, hpasses⟩ :=
    passes (fun u => (run.state u).spent) hmoves (15 * (run.state t).asked + 53)
  have hasked := prompt.asks_nothing htu hnever
  have hspent := (run.isOpen u).spent_le
  have hpopped : (run.state u).popped.length ≤ (run.state u).asked := Nat.le_add_right _ _
  omega

end Run.Prompt

namespace Run
variable {c : Config} {e : Engine}

theorem Prompt.cons {run : Run c} {capacity : Nat} (prompt : run.Prompt capacity) {a : Action}
    (he : Reaches c FileFits e) (hs : Engine.step c e a = some (run.state 0)) (hfits : e.FilesFit)
    (hroom : e.WithRoom capacity a) : (run.cons a he hs hfits).Prompt capacity where
  room t := by
    cases t with
    | zero => exact hroom
    | succ t => exact prompt.room t
  tasks := WeaklyFair.later prompt.tasks
  clients i := StronglyFair.later (prompt.clients i)

end Run

end Engine

end Lsmlite
