import Lsmlite.Acknowledged
import Lsmlite.CompactionTable
import Lsmlite.QueueOrder

/-!
# The layers of a run

Where the memtables are: each table but the active one is popped, in the queue or held by a client
that has not appended it yet. A table's SSTable is in the cache before the table is popped: there
is one load under way at a time, and it is that of the queue's front.
-/

namespace Lsmlite
open KeyValue

/-- The timestamp of the table a signal is about. -/
def CompactionSignal.ts : CompactionSignal → Option Nat
  | .loadSSTable ts => some ts
  | .shutdown => none

/-- The task has received a load and not acknowledged it. -/
def Compactor.busy : Compactor → Bool
  | .waiting => false
  | .stopped => false
  | _ => true

/-- The table the flush task has written and not sent to be loaded yet. -/
def Flusher.ready : Flusher → List Nat
  | .written ts _ => [ts]
  | .sending ts => [ts]
  | _ => []

/-- The table the compaction task is about to load. -/
def Compactor.ready : Compactor → List Nat
  | .loading ts => [ts]
  | _ => []

theorem Compactor.ready_of_idle {compactor : Compactor} (h : compactor.busy = false) :
    compactor.ready = [] := by
  cases compactor <;> first | rfl | cases h

namespace Engine

/-! ## The place of every table -/

/-- Every table but the active one is in one place. -/
structure Placed (e : Engine) : Prop where
  nonempty : e.tables ≠ []
  once : (e.popped ++ e.immutable ++ e.waiting).Perm (List.range e.active)

theorem placed_start (c : Config) (stamp : LsmliteInner.Stamp) : Placed (start c stamp) where
  nonempty := by simp [start]
  once := List.Perm.refl _

theorem Placed.same {e e' : Engine} (h : Placed e) (hlength : e'.tables.length = e.tables.length)
    (hlayers : e'.popped ++ e'.immutable = e.popped ++ e.immutable)
    (hwaiting : e'.waiting.Perm e.waiting) : Placed e' where
  nonempty := by
    rw [← List.length_pos_iff, hlength]
    exact List.length_pos_iff.mpr h.nonempty
  once := by
    rw [hlayers, active, hlength]
    exact (hwaiting.append_left _).trans h.once

/-- The table a client has swapped out and not yet appended. -/
def inHand : Phase → Option Nat
  | .appending _ full => some full
  | _ => none

theorem waiting_eq (e : Engine) : e.waiting = e.clients.filterMap inHand := rfl

/-- A client that goes from one phase to another with no table in hand. -/
theorem waiting_same {e : Engine} {i : Nat} {p q : Phase} (hi : e.clients[i]? = some p)
    (hp : inHand p = none) (hq : inHand q = none) : (e.setPhase i q).waiting.Perm e.waiting := by
  have hperm := filterMap_set_perm inHand hi q
  rw [hp, hq] at hperm
  rw [waiting_eq, waiting_eq]
  exact hperm

theorem placed_step {c : Config} {e e' : Engine} {a : Action} (h : Placed e)
    (hs : step c e a = some e') : Placed e' := by
  cases step_cases hs with
  | spawn hopen =>
    refine h.same rfl rfl ?_
    simp [waiting, List.filterMap_append]
  | drop hopen hidle => exact h.same rfl rfl (List.Perm.refl _)
  | client hc =>
    cases hc with
    | @rotate w stamp hi hts =>
      refine ⟨by simp [setPhase], ?_⟩
      have hpos := List.length_pos_iff.mpr h.nonempty
      have hperm := filterMap_set_perm inHand hi (.appending w e.active)
      have hactive : (e.tables ++ [freshTable c stamp]).length - 1 = e.active + 1 := by
        simp only [active, List.length_append, List.length_singleton]
        omega
      have honce := h.once
      rw [waiting_eq] at honce ⊢
      show List.Perm _ (List.range ((e.tables ++ [freshTable c stamp]).length - 1))
      rw [hactive, List.range_succ]
      refine (hperm.append_left _).trans (List.perm_middle.trans ?_)
      exact (honce.cons _).trans (List.perm_append_singleton _ _).symm
    | @append w full hi =>
      refine ⟨h.nonempty, ?_⟩
      have hperm := filterMap_set_perm inHand hi (.signalling w)
      have honce := h.once
      rw [waiting_eq] at honce ⊢
      show (e.popped ++ (e.immutable ++ [full]) ++ _).Perm (List.range e.active)
      rw [← List.append_assoc, List.append_assoc _ [full]]
      exact (hperm.append_left _).trans honce
    | attemptOk hi htable hw =>
      exact h.same (List.length_set ..) rfl (waiting_same hi rfl rfl)
    | retryOk hi htable hw =>
      exact h.same (List.length_set ..) rfl (waiting_same hi rfl rfl)
    | @readMemtable key before table q hi htable hq =>
      cases LsmliteInner.readQuery q <;> exact h.same rfl rfl (waiting_same hi rfl rfl)
    | @readImmutable key before queue q hi hqueue hq =>
      cases LsmliteInner.readQuery q <;> exact h.same rfl rfl (waiting_same hi rfl rfl)
    | call hi => exact h.same rfl rfl (waiting_same hi rfl rfl)
    | attemptFull hi => exact h.same rfl rfl (waiting_same hi rfl rfl)
    | signal hi => exact h.same rfl rfl (waiting_same hi rfl rfl)
    | retryFull hi => exact h.same rfl rfl (waiting_same hi rfl rfl)
    | get hi => exact h.same rfl rfl (waiting_same hi rfl rfl)
    | readSstables hi => exact h.same rfl rfl (waiting_same hi rfl rfl)
  | background hb =>
    cases hb with
    | popTable hc =>
      refine h.same rfl ?_ (List.Perm.refl _)
      cases e.immutable <;> simp
    | removeWal hf ht => exact h.same (List.length_set ..) rfl (List.Perm.refl _)
    | _ => exact h.same rfl rfl (List.Perm.refl _)

/-- A table that is popped or in the queue is not the active one. -/
theorem Placed.lt {e : Engine} (h : Placed e) {i : Nat} (hi : i ∈ e.popped ++ e.immutable) :
    i < e.active :=
  List.mem_range.mp (h.once.mem_iff.mp (List.mem_append_left _ hi))

/-! ## Writes of settled tables -/

/-- The writes table `i` took. -/
def writesOf (e : Engine) (i : Nat) : Entries := ((e.tables[i]?).map Table.writes).getD []

theorem writesOf_eq {e : Engine} {i : Nat} {t : Table} (ht : e.tables[i]? = some t) :
    e.writesOf i = t.writes := by simp [writesOf, ht]

/-- Only the active table takes writes. -/
theorem writesOf_step {c : Config} {e e' : Engine} {a : Action} (hs : step c e a = some e')
    {i : Nat} (hi : i < e.active) : e'.writesOf i = e.writesOf i := by
  have hlt : i < e.tables.length := by
    unfold active at hi
    omega
  unfold writesOf
  cases step_tables hs with
  | took j w clock table inner _ htable hw hstep =>
    subst hstep
    show (((e.tables.set e.active _)[i]?).map Table.writes).getD [] = _
    rw [List.getElem?_set_ne (Nat.ne_of_gt hi)]
  | fresh j w stamp _ _ hstep => rw [hstep, List.getElem?_append_left hlt]
  | removed ts table t _ _ ht hstep =>
    rw [hstep]
    by_cases heq : table = i
    · subst heq
      rw [List.getElem?_set_self hlt, ht]
      rfl
    · rw [List.getElem?_set_ne heq]
  | other hsame => rw [hsame]

/-! ## One load at a time -/

/-- The tables to load that the compaction task has not received yet. -/
def loads (e : Engine) : List Nat := e.signal.filterMap CompactionSignal.ts

theorem TasksSame.loads {e e' : Engine} (h : TasksSame e e') : e'.loads = e.loads := by
  rw [Engine.loads, Engine.loads, h.signal]

/-- There is no load under way, or one and the flush task waits for it. -/
def OneLoad (e : Engine) : Prop :=
  e.loads.length + e.compactor.busy.toNat + e.sstableAck ≤ (decide (e.flusher = .awaiting)).toNat ∨
    e.flusher = .stopped ∧ e.compactor = .stopped

theorem one_load_start (c : Config) (stamp : LsmliteInner.Stamp) : OneLoad (start c stamp) :=
  Or.inl (Nat.le_refl 0)

theorem OneLoad.of_busy {e : Engine} (h : OneLoad e) (hb : e.compactor.busy = true) :
    e.flusher = .awaiting ∧ e.loads = [] ∧ e.sstableAck = 0 := by
  rcases h with h | ⟨_, hc⟩
  · by_cases hf : e.flusher = .awaiting
    · rw [hb, hf] at h
      simp only [decide_true, Bool.toNat_true] at h
      exact ⟨hf, List.length_eq_zero_iff.mp (by omega), by omega⟩
    · rw [hb, decide_eq_false hf] at h
      simp only [Bool.toNat_true, Bool.toNat_false] at h
      omega
  · rw [hc] at hb
    cases hb

theorem OneLoad.of_flusher {e : Engine} (h : OneLoad e) (hf : e.flusher ≠ .awaiting)
    (hs : e.flusher ≠ .stopped) : e.loads = [] ∧ e.compactor.busy = false ∧ e.sstableAck = 0 := by
  rcases h with h | ⟨hstop, _⟩
  · rw [decide_eq_false hf] at h
    cases hb : e.compactor.busy <;> simp only [hb, Bool.toNat_true, Bool.toNat_false] at h
    · exact ⟨List.length_eq_zero_iff.mp (by omega), rfl, by omega⟩
    · omega
  · exact absurd hstop hs

/-- A step of the flush task that leaves it neither waiting for an acknowledgement nor stopped. -/
theorem OneLoad.flusher_moved {e e' : Engine} (h : OneLoad e) (hf : e.flusher ≠ .awaiting)
    (hs : e.flusher ≠ .stopped) (hsignal : e'.signal = e.signal)
    (hack : e'.sstableAck = e.sstableAck) (hcompactor : e'.compactor = e.compactor) :
    OneLoad e' := by
  obtain ⟨hl, hb, ha⟩ := h.of_flusher hf hs
  refine Or.inl ?_
  rw [loads, hsignal, ← loads, hcompactor, hack, hl, hb, ha]
  exact Nat.zero_le _

/-- A step of the compaction task with a load in hand. -/
theorem OneLoad.compactor_moved {e e' : Engine} (h : OneLoad e) (hb : e.compactor.busy = true)
    (hb' : e'.compactor.busy = true) (hsignal : e'.signal = e.signal)
    (hack : e'.sstableAck = e.sstableAck) (hflusher : e'.flusher = e.flusher) : OneLoad e' := by
  obtain ⟨hf, hl, ha⟩ := h.of_busy hb
  refine Or.inl ?_
  rw [loads, hsignal, ← loads, hflusher, hack, hl, hb', ha, hf]
  exact Nat.le_refl 1

theorem one_load_step {c : Config} {e e' : Engine} {a : Action} (h : OneLoad e)
    (hs : step c e a = some e') : OneLoad e' := by
  cases step_cases hs with
  | spawn hopen => exact h
  | drop hopen hidle =>
    unfold OneLoad loads at h ⊢
    simp only [List.filterMap_append,
      show [CompactionSignal.shutdown].filterMap CompactionSignal.ts = [] from rfl, List.append_nil]
    exact h
  | client hc =>
    have hsame := hc.tasks_same
    rwa [OneLoad, hsame.loads, hsame.sstableAck, hsame.flusher, hsame.compactor]
  | background hb =>
    cases hb with
    | receiveFlush hf hch => exact h.flusher_moved (by simp [hf]) (by simp [hf]) rfl rfl rfl
    | createFile hf hts => exact h.flusher_moved (by simp [hf]) (by simp [hf]) rfl rfl rfl
    | takeFront hf hq => exact h.flusher_moved (by simp [hf]) (by simp [hf]) rfl rfl rfl
    | writePart hf ht hcontent => exact h
    | finishFile hf ht hcontent => exact h.flusher_moved (by simp [hf]) (by simp [hf]) rfl rfl rfl
    | removeWal hf ht => exact h.flusher_moved (by simp [hf]) (by simp [hf]) rfl rfl rfl
    | stopFlusher hf hch => exact h.flusher_moved (by simp [hf]) (by simp [hf]) rfl rfl rfl
    | @sendLoad ts hf =>
      obtain ⟨hl, hb, ha⟩ := h.of_flusher (by simp [hf]) (by simp [hf])
      unfold loads at hl
      refine Or.inl ?_
      simp [loads, hl, hb, ha, CompactionSignal.ts]
    | receiveAck hf hack =>
      refine Or.inl ?_
      rcases h with h | ⟨hstop, _⟩
      · rw [hf] at h
        simp only [decide_true, Bool.toNat_true] at h
        show e.loads.length + e.compactor.busy.toNat + (e.sstableAck - 1) ≤ 0
        omega
      · rw [hf] at hstop
        cases hstop
    | ackLost hf hack hc => exact Or.inr ⟨rfl, hc⟩
    | @receiveLoad ts rest hc hch =>
      rcases h with h | ⟨_, hstop⟩
      · refine Or.inl ?_
        simp only [loads, hch, CompactionSignal.ts, List.filterMap_cons, List.length_cons, hc,
          Compactor.busy, Bool.toNat_false] at h ⊢
        simp only [Bool.toNat_true]
        omega
      · rw [hc] at hstop
        cases hstop
    | pushTable hc hfile htable => exact h.compactor_moved (by rw [hc]; rfl) rfl rfl rfl rfl
    | @popTable currentLen hc =>
      refine h.compactor_moved (by rw [hc]; rfl) ?_ rfl rfl rfl
      dsimp only
      split <;> rfl
    | compact hc hts hiters htable => exact h.compactor_moved (by rw [hc]; rfl) rfl rfl rfl rfl
    | replaceTables hc => exact h.compactor_moved (by rw [hc]; rfl) rfl rfl rfl rfl
    | removeStale hc => exact h.compactor_moved (by rw [hc]; rfl) rfl rfl rfl rfl
    | sendAck hc =>
      obtain ⟨hf, hl, ha⟩ := h.of_busy (by rw [hc]; rfl)
      unfold loads at hl
      refine Or.inl ?_
      simp [loads, hl, ha, hf, Compactor.busy]
    | @stopCompactor rest hc hch =>
      rcases h with h | ⟨_, hstop⟩
      · refine Or.inl ?_
        simp only [loads, hch, CompactionSignal.ts, List.filterMap_cons, hc, Compactor.busy] at h ⊢
        exact h
      · rw [hc] at hstop
        cases hstop

/-! ## The file of the queue's front -/

/-- The queue's front is `i`. -/
def Front (e : Engine) (i : Nat) : Prop := ∃ rest, e.immutable = i :: rest

/-- The file of timestamp `ts` holds what the queue's front took. -/
def FrontFile (h : Hashing) (e : Engine) (ts : Nat) : Prop :=
  ∃ i f, e.Front i ∧ e.files.find? (·.ts = ts) = some f ∧
    FileHolds h f.content (ofWrites (e.writesOf i))

/-- The tables written and not pushed to the cache yet. -/
def underWay (e : Engine) : List Nat := e.flusher.ready ++ e.loads ++ e.compactor.ready

/-- The table under the flush task's hands is the queue's front, and so is the one that is loaded
and popped. -/
structure Loading (h : Hashing) (e : Engine) : Prop where
  stamps : ∀ f ∈ e.files, f.ts ≤ e.clock
  created : ∀ ts, (e.flusher = .created ts ∨ ∃ i, e.flusher = .writing ts i) →
    ∃ f ∈ e.files, f.ts = ts
  front : ∀ ts i, (e.flusher = .writing ts i ∨ e.flusher = .written ts i) → e.Front i
  file : ∀ ts ∈ e.underWay, FrontFile h e ts
  popping : ∀ n, e.compactor = .popping n → ∃ i, e.Front i

theorem loading_start (h : Hashing) (c : Config) (stamp : LsmliteInner.Stamp) :
    Loading h (start c stamp) where
  stamps f hf := by cases hf
  created ts hts := by simp [start] at hts
  front ts i hi := by simp [start] at hi
  file ts hts := by cases hts
  popping n hn := by cases hn

/-- What a step cannot take from the queue's front and the files. -/
structure Keeps (e e' : Engine) : Prop where
  front : ∀ i, e.Front i → e'.Front i
  files : ∀ ts ≤ e.clock, e'.files.find? (·.ts = ts) = e.files.find? (·.ts = ts)
  writes : ∀ i, e.Front i → e'.writesOf i = e.writesOf i

theorem FrontFile.keeps {h : Hashing} {e e' : Engine} {ts : Nat} (hf : FrontFile h e ts)
    (hstamps : ∀ f ∈ e.files, f.ts ≤ e.clock) (hk : Keeps e e') : FrontFile h e' ts := by
  obtain ⟨i, f, hfront, hfind, hholds⟩ := hf
  have hts : ts ≤ e.clock := by
    have := List.find?_some hfind
    rw [decide_eq_true_eq] at this
    exact this ▸ hstamps f (List.mem_of_find?_eq_some hfind)
  exact ⟨i, f,
    hk.front i hfront, by rw [hk.files ts hts, hfind], by rw [hk.writes i hfront]; exact hholds⟩

/-- A step of neither task. -/
theorem Loading.other {h : Hashing} {e e' : Engine} (hl : Loading h e) (hk : Keeps e e')
    (hfiles : e'.files = e.files) (hclock : e.clock ≤ e'.clock) (hflusher : e'.flusher = e.flusher)
    (hloads : e'.loads = e.loads) (hcompactor : e'.compactor = e.compactor) : Loading h e' where
  stamps f hf := (hl.stamps f (hfiles ▸ hf)).trans hclock
  created := by rw [hflusher, hfiles]; exact hl.created
  front ts i hi := hk.front i (hl.front ts i (hflusher ▸ hi))
  file ts hts := by
    rw [underWay, hflusher, hloads, hcompactor] at hts
    exact (hl.file ts hts).keeps hl.stamps hk
  popping n hn := (hl.popping n (hcompactor ▸ hn)).imp hk.front

/-- A step of the flush task with no load under way. -/
theorem Loading.flusher_moved {h : Hashing} {e e' : Engine} (hone : OneLoad e)
    (hf : e.flusher ≠ .awaiting) (hs : e.flusher ≠ .stopped) (hsignal : e'.signal = e.signal)
    (hcompactor : e'.compactor = e.compactor) (hstamps : ∀ f ∈ e'.files, f.ts ≤ e'.clock)
    (hcreated : ∀ ts, (e'.flusher = .created ts ∨ ∃ i, e'.flusher = .writing ts i) →
      ∃ f ∈ e'.files, f.ts = ts)
    (hfront : ∀ ts i, (e'.flusher = .writing ts i ∨ e'.flusher = .written ts i) → e'.Front i)
    (hfile : ∀ ts ∈ e'.flusher.ready, FrontFile h e' ts) : Loading h e' := by
  obtain ⟨hl, hb, _⟩ := hone.of_flusher hf hs
  refine ⟨hstamps, hcreated, hfront, fun ts hts => hfile ts ?_, fun n hn => ?_⟩
  · rwa [underWay, loads, hsignal, ← loads, hl, hcompactor, Compactor.ready_of_idle hb,
      List.append_nil, List.append_nil] at hts
  · rw [← hcompactor, hn] at hb
    cases hb

/-- A step of the compaction task with a load in hand. -/
theorem Loading.compactor_moved {h : Hashing} {e e' : Engine} (hone : OneLoad e)
    (hb : e.compactor.busy = true) (hsignal : e'.signal = e.signal)
    (hflusher : e'.flusher = e.flusher) (hstamps : ∀ f ∈ e'.files, f.ts ≤ e'.clock)
    (hready : e'.compactor.ready = [])
    (hpopping : ∀ n, e'.compactor = .popping n → ∃ i, e'.Front i) : Loading h e' := by
  obtain ⟨hf, hl, _⟩ := hone.of_busy hb
  rw [hf] at hflusher
  refine ⟨hstamps, fun ts hts => ?_, fun ts i hi => ?_, fun ts hts => ?_, hpopping⟩
  · simp [hflusher] at hts
  · simp [hflusher] at hi
  · rw [underWay, loads, hsignal, ← loads, hl, hflusher, hready] at hts
    cases hts

/-- A load changes hands. -/
theorem Loading.handed {h : Hashing} {e e' : Engine} (hl : Loading h e)
    (himmutable : e'.immutable = e.immutable) (htables : e'.tables = e.tables)
    (hfiles : e'.files = e.files) (hclock : e'.clock = e.clock)
    (hcreated : ∀ ts, e'.flusher ≠ .created ts) (hwriting : ∀ ts i, e'.flusher ≠ .writing ts i)
    (hwritten : ∀ ts i, e'.flusher ≠ .written ts i) (hsub : ∀ ts ∈ e'.underWay, ts ∈ e.underWay)
    (hpopping : ∀ n, e'.compactor = .popping n → e.compactor = .popping n) : Loading h e' where
  stamps := by rw [hfiles, hclock]; exact hl.stamps
  created ts hts := by
    rcases hts with hts | ⟨i, hi⟩
    · exact absurd hts (hcreated ts)
    · exact absurd hi (hwriting ts i)
  front ts i hi := by
    rcases hi with hi | hi
    · exact absurd hi (hwriting ts i)
    · exact absurd hi (hwritten ts i)
  file ts hts := by
    obtain ⟨i, f, ⟨rest, hrest⟩, hfind, hholds⟩ := hl.file ts (hsub ts hts)
    refine ⟨i, f, ⟨rest, by rw [himmutable, hrest]⟩, by rw [hfiles, hfind], ?_⟩
    unfold writesOf at hholds ⊢
    rwa [htables]
  popping n hn := by
    obtain ⟨i, rest, hrest⟩ := hl.popping n (hpopping n hn)
    exact ⟨i, rest, by rw [himmutable, hrest]⟩

/-- The compaction task takes a signal. -/
theorem Loading.handed_on {h : Hashing} {e e' : Engine} (hl : Loading h e)
    (himmutable : e'.immutable = e.immutable) (htables : e'.tables = e.tables)
    (hfiles : e'.files = e.files) (hclock : e'.clock = e.clock) (hflusher : e'.flusher = e.flusher)
    (hsub : ∀ ts ∈ e'.underWay, ts ∈ e.underWay) (hpopping : ∀ n, e'.compactor ≠ .popping n) :
    Loading h e' where
  stamps := by rw [hfiles, hclock]; exact hl.stamps
  created := by rw [hflusher, hfiles]; exact hl.created
  front ts i hi := by rw [Front, himmutable]; exact hl.front ts i (hflusher ▸ hi)
  file ts hts := by
    obtain ⟨i, f, ⟨rest, hrest⟩, hfind, hholds⟩ := hl.file ts (hsub ts hts)
    refine ⟨i, f, ⟨rest, by rw [himmutable, hrest]⟩, by rw [hfiles, hfind], ?_⟩
    unfold writesOf at hholds ⊢
    rwa [htables]
  popping n hn := absurd hn (hpopping n)

theorem find_putFile {files : List SstFile} {ts : Nat} (content : Blob)
    (h : ∃ f ∈ files, f.ts = ts) :
    (putFile files ts content).find? (·.ts = ts) = some ⟨ts, content⟩ := by
  induction files with
  | nil =>
    obtain ⟨f, hf, _⟩ := h
    cases hf
  | cons g files ih =>
    rw [putFile, List.map_cons]
    by_cases hg : g.ts = ts
    · rw [if_pos hg, List.find?_cons_of_pos (by simpa using hg), ← hg]
    · rw [if_neg hg, List.find?_cons_of_neg (by simpa using hg)]
      refine ih ?_
      obtain ⟨f, hf, hts⟩ := h
      rcases List.mem_cons.mp hf with rfl | hf
      · exact absurd hts hg
      · exact ⟨f, hf, hts⟩

theorem mem_putFile {files : List SstFile} {ts : Nat} {content : Blob} {f : SstFile}
    (h : f ∈ putFile files ts content) : ∃ g ∈ files, g.ts = f.ts := by
  obtain ⟨g, hg, rfl⟩ := List.mem_map.mp h
  refine ⟨g, hg, ?_⟩
  split <;> rfl

theorem exists_putFile {files : List SstFile} (ts : Nat) (content : Blob) {ts' : Nat}
    (h : ∃ f ∈ files, f.ts = ts') : ∃ f ∈ putFile files ts content, f.ts = ts' := by
  obtain ⟨f, hf, hts⟩ := h
  refine ⟨_, List.mem_map_of_mem hf, ?_⟩
  split <;> exact hts

/-- Clients move neither the queue's front nor the files. -/
theorem keeps_client {c : Config} {e e' : Engine} {i : Nat} {a : ClientAction} (hp : Placed e)
    (h : ClientStep c e i a e') (hs : step c e (.client i a) = some e') : Keeps e e' where
  front j hj := by
    obtain ⟨rest, hrest⟩ := hj
    cases h with
    | append hi => exact ⟨rest ++ [_], by show e.immutable ++ _ = _; rw [hrest, List.cons_append]⟩
    | @readMemtable key before table q hi htable hq =>
      cases LsmliteInner.readQuery q <;> exact ⟨rest, hrest⟩
    | @readImmutable key before queue q hi hqueue hq =>
      cases LsmliteInner.readQuery q <;> exact ⟨rest, hrest⟩
    | _ => exact ⟨rest, hrest⟩
  files ts _ := by rw [h.tasks_same.files]
  writes j hj := by
    obtain ⟨rest, hrest⟩ := hj
    exact writesOf_step hs
      (hp.lt (List.mem_append_right _ (by rw [hrest]; exact List.mem_cons_self ..)))

/-- Removing a log changes neither the queue nor a table's writes. -/
theorem keeps_removeWal {c : Config} {e e' : Engine} (hp : Placed e)
    (hs : step c e (.background .removeWal) = some e') (himmutable : e'.immutable = e.immutable)
    (hfiles : e'.files = e.files) : Keeps e e' where
  front i hi := by rwa [Front, himmutable]
  files ts _ := by rw [hfiles]
  writes i hi := by
    obtain ⟨rest, hrest⟩ := hi
    exact writesOf_step hs
      (hp.lt (List.mem_append_right _ (by rw [hrest]; exact List.mem_cons_self ..)))

/-- The last write to a file meets the limits of its format. -/
def FlushFits (e : Engine) (a : Action) : Prop :=
  match a with
  | .background .finishFile =>
    match e.flusher with
    | .writing _ i => Representable (ofWrites (e.writesOf i))
    | _ => True
  | _ => True

theorem sstableContent_fileHolds {h : Hashing} {t : MemtableInner} {es : Entries} {content : Blob}
    (ht : t.Holds es) (hrep : Representable es) (hcontent : sstableContent h t = some content) :
    FileHolds h content es := by
  obtain ⟨fd, hrun, hholds⟩ := sstableContent_holds h ht hrep
  rw [sstableContent, hrun] at hcontent
  cases hcontent
  exact hholds

/-- The flush task has nothing more in hand. -/
theorem Loading.flusher_rests {h : Hashing} {e e' : Engine} (hl : Loading h e)
    (himmutable : e'.immutable = e.immutable) (htables : e'.tables = e.tables)
    (hfiles : e'.files = e.files) (hclock : e'.clock = e.clock) (hsignal : e'.signal = e.signal)
    (hcompactor : e'.compactor = e.compactor)
    (hrests : e'.flusher = .waiting ∨ e'.flusher = .stopped) :
    Loading h e' := by
  have hready : e'.flusher.ready = [] := by
    rcases hrests with hrests | hrests <;> rw [hrests] <;> rfl
  refine hl.handed himmutable htables hfiles hclock (fun ts hts => ?_) (fun ts i hi => ?_)
    (fun ts i hi => ?_) (fun ts hts => ?_) fun n hn => hcompactor ▸ hn
  · simp [hts] at hrests
  · simp [hi] at hrests
  · simp [hi] at hrests
  · rw [underWay, loads, hready, hsignal, ← loads, hcompactor] at hts
    rw [underWay, List.append_assoc]
    exact List.mem_append_right _ hts

/-- The file under the flush task's hands gets a new content. -/
theorem Loading.put {h : Hashing} {e : Engine} (hl : Loading h e) (ts : Nat) (content : Blob) :
    ∀ f ∈ putFile e.files ts content, f.ts ≤ e.clock := by
  intro f hf
  obtain ⟨g, hg, hts⟩ := mem_putFile hf
  exact hts ▸ hl.stamps g hg

/-- The flush task finishes the file of the queue's front. -/
theorem loading_finishFile {c : Config} {e : Engine} {ts i : Nat} {t : Table} {content : Blob}
    (hl : Loading c.hashing e) (hone : OneLoad e) (htook : ∀ t ∈ e.tables, t.Took)
    (hf : e.flusher = .writing ts i) (ht : e.tables[i]? = some t)
    (hrep : Representable (ofWrites (e.writesOf i)))
    (hcontent : sstableContent c.hashing t.inner = some content) :
    Loading c.hashing { e with flusher := .written ts i, files := putFile e.files ts content } := by
  have hfront := hl.front ts i (Or.inl hf)
  have hholds := (htook t (List.mem_of_getElem? ht)).holds
  rw [← writesOf_eq ht] at hholds
  refine Loading.flusher_moved hone (by simp [hf])
    (by simp [hf]) rfl rfl (hl.put ts content) ?_ ?_ ?_
  · simp
  · intro ts' i' hi
    simp only [reduceCtorEq, Flusher.written.injEq, false_or] at hi
    exact hi.2 ▸ hfront
  · intro ts' hts'
    rw [List.mem_singleton.mp hts']
    exact ⟨i, ⟨ts, content⟩, hfront, find_putFile content (hl.created ts (Or.inr ⟨i, hf⟩)),
      sstableContent_fileHolds hholds hrep hcontent⟩

/-- The steps of the flush task. -/
def BackgroundAction.ofFlusher : BackgroundAction → Bool
  | .receiveFlush | .createFile _ | .takeFront | .writePart _ | .finishFile | .removeWal | .sendLoad
  | .receiveAck | .stopFlusher => true
  | _ => false

theorem loading_flusher {c : Config} {e e' : Engine} {a : BackgroundAction}
    (ha : a.ofFlusher = true) (hl : Loading c.hashing e) (hp : Placed e) (hone : OneLoad e)
    (htook : ∀ t ∈ e.tables, t.Took) (hok : e.FlushFits (.background a))
    (hs : step c e (.background a) = some e') :
    Loading c.hashing e' := by
  cases backgroundStep_cases hs with
  | receiveFlush hf hch =>
    refine Loading.flusher_moved hone (by simp [hf]) (by simp [hf]) rfl rfl hl.stamps ?_ ?_ ?_
    · simp
    · simp
    · simp [Flusher.ready]
  | @createFile ts hf hts =>
    refine Loading.flusher_moved hone (by simp [hf])
      (by simp [hf]) rfl rfl (fun f hf => ?_) ?_ ?_ ?_
    · rcases List.mem_append.mp hf with hf | hf
      · exact (hl.stamps f hf).trans (Nat.le_of_lt hts)
      · rw [List.mem_singleton.mp hf]
    · intro ts' hts'
      simp only [Flusher.created.injEq, reduceCtorEq, exists_false, or_false] at hts'
      exact ⟨⟨ts, []⟩, by simp, hts'⟩
    · simp
    · simp [Flusher.ready]
  | @takeFront ts i rest hf hq =>
    refine Loading.flusher_moved hone (by simp [hf]) (by simp [hf]) rfl rfl hl.stamps ?_ ?_ ?_
    · intro ts' hts'
      simp only [reduceCtorEq, Flusher.writing.injEq, exists_and_left, exists_eq', and_true,
        false_or] at hts'
      exact hl.created ts' (Or.inl (hts' ▸ hf))
    · intro ts' i' hi
      simp only [Flusher.writing.injEq, reduceCtorEq, or_false] at hi
      exact ⟨rest, hi.2 ▸ hq⟩
    · simp [Flusher.ready]
  | @writePart ts i n t content hf ht hcontent =>
    refine Loading.flusher_moved hone (by simp [hf]) (by simp [hf]) rfl rfl (hl.put ts _) ?_
      (fun ts' i' hi => hl.front ts' i' hi) ?_
    · exact fun ts' hts' => exists_putFile ts _ (hl.created ts' hts')
    · simp [hf, Flusher.ready]
  | @finishFile ts i t content hf ht hcontent =>
    have hrep : Representable (ofWrites (e.writesOf i)) := by simpa only [FlushFits, hf] using hok
    exact loading_finishFile hl hone htook hf ht hrep hcontent
  | @removeWal ts i t hf ht =>
    have hk := keeps_removeWal hp hs rfl rfl
    refine Loading.flusher_moved hone (by simp [hf]) (by simp [hf]) rfl rfl hl.stamps ?_ ?_ ?_
    · simp
    · simp
    · intro ts' hts'
      refine (hl.file ts' ?_).keeps hl.stamps hk
      rw [underWay, hf]
      exact List.mem_append_left _ (List.mem_append_left _ hts')
  | @sendLoad ts hf =>
    obtain ⟨hloads, hb, _⟩ := hone.of_flusher (by simp [hf]) (by simp [hf])
    refine hl.handed rfl rfl rfl rfl (by simp) (by simp) (by simp) (fun ts' hts' => ?_) fun n hn =>
      hn
    have hready : Compactor.ready e.compactor = [] := Compactor.ready_of_idle hb
    unfold underWay loads at hts'
    rw [loads] at hloads
    simp only [List.filterMap_append, hloads, hready, List.nil_append, List.append_nil] at hts'
    rw [underWay, hf]
    exact List.mem_append_left _ (List.mem_append_left _ hts')
  | receiveAck hf hack => exact hl.flusher_rests rfl rfl rfl rfl rfl rfl (Or.inl rfl)
  | ackLost hf hack hc => exact hl.flusher_rests rfl rfl rfl rfl rfl rfl (Or.inr rfl)
  | stopFlusher hf hch => exact hl.flusher_rests rfl rfl rfl rfl rfl rfl (Or.inr rfl)
  | _ => cases ha

theorem loading_compactor {c : Config} {e e' : Engine} {a : BackgroundAction}
    (ha : a.ofFlusher = false) (hl : Loading c.hashing e) (hone : OneLoad e)
    (hs : step c e (.background a) = some e') :
    Loading c.hashing e' := by
  cases backgroundStep_cases hs with
  | @receiveLoad ts rest hc hch =>
    refine hl.handed_on rfl rfl rfl rfl rfl (fun ts' hts' => ?_) (by simp)
    unfold underWay loads at hts' ⊢
    rw [hch, hc]
    simp only [Compactor.ready, List.mem_append, List.mem_singleton] at hts'
    simp only [List.filterMap_cons, CompactionSignal.ts, List.mem_append, List.mem_cons,
      Compactor.ready, List.not_mem_nil, or_false]
    tauto
  | @pushTable ts f table hc hfile htable =>
    refine Loading.compactor_moved hone (by rw [hc]; rfl) rfl rfl hl.stamps rfl fun n hn => ?_
    obtain ⟨i, _, hfront, _⟩ := hl.file ts (by
      rw [underWay, hc]
      exact List.mem_append_right _ (List.mem_singleton_self _))
    exact ⟨i, hfront⟩
  | popTable hc =>
    refine Loading.compactor_moved hone (by rw [hc]; rfl) rfl rfl hl.stamps ?_ ?_
    · dsimp only
      split <;> rfl
    · intro n hn
      dsimp only at hn
      split at hn <;> cases hn
  | @compact ts iters cache table path hc hts hiters htable =>
    refine Loading.compactor_moved hone (by rw [hc]; rfl) rfl rfl (fun f hf => ?_) rfl (by simp)
    rcases List.mem_append.mp hf with hf | hf
    · exact (hl.stamps f hf).trans (Nat.le_of_lt hts)
    · rw [List.mem_singleton.mp hf]
  | replaceTables hc =>
    exact Loading.compactor_moved hone (by rw [hc]; rfl) rfl rfl hl.stamps rfl (by simp)
  | removeStale hc =>
    exact Loading.compactor_moved hone (by rw [hc]; rfl) rfl rfl
      (fun f hf => hl.stamps f (List.mem_filter.mp hf).1) rfl (by simp)
  | sendAck hc =>
    exact Loading.compactor_moved hone (by rw [hc]; rfl) rfl rfl hl.stamps rfl (by simp)
  | @stopCompactor rest hc hch =>
    refine hl.handed_on rfl rfl rfl rfl rfl (fun ts' hts' => ?_) (by simp)
    unfold underWay loads at hts' ⊢
    rw [hch, hc]
    exact hts'
  | _ => cases ha

theorem loading_step {c : Config} {e e' : Engine} {a : Action} (hl : Loading c.hashing e)
    (hp : Placed e) (hone : OneLoad e) (htook : ∀ t ∈ e.tables, t.Took) (hok : e.FlushFits a)
    (hs : step c e a = some e') : Loading c.hashing e' := by
  cases step_cases hs with
  | spawn hopen => exact ⟨hl.stamps, hl.created, hl.front, hl.file, hl.popping⟩
  | drop hopen hidle =>
    have hloads : (e.signal ++ [CompactionSignal.shutdown]).filterMap CompactionSignal.ts =
        e.loads := by
      rw [List.filterMap_append]
      exact List.append_nil _
    refine ⟨hl.stamps, hl.created, hl.front, fun ts hts => hl.file ts ?_, hl.popping⟩
    rwa [underWay, loads, hloads] at hts
  | @client i a _ hc =>
    have hk := keeps_client hp hc hs
    have hsame := hc.tasks_same
    exact hl.other hk hsame.files hsame.clock hsame.flusher hsame.loads hsame.compactor
  | @background b _ hb =>
    cases ha : b.ofFlusher with
    | true => exact loading_flusher ha hl hp hone htook hok hs
    | false => exact loading_compactor ha hl hone hs

end Engine

end Lsmlite
