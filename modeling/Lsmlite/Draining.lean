import Lsmlite.EnginePipeline
import Lsmlite.FormatLimits
import Lsmlite.Lib.Variants
import Lsmlite.RestartSignals

/-!
# The background tasks get done

The two tasks are never stuck with work to do, and every step of theirs takes from what is left. So
they come to rest whatever the order of their steps, and after a shutdown they stop.
-/

namespace Lsmlite
open KeyValue

/-- The steps that the flush task has left for its signal, with those that it then asks for. -/
def Flusher.left : Flusher → Nat
  | .waiting => 0
  | .creating => 14
  | .created _ => 13
  | .writing _ _ => 12
  | .written _ _ => 11
  | .sending _ => 10
  | .awaiting => 1
  | .stopped => 0

def Compactor.left : Compactor → Nat
  | .waiting => 0
  | .loading _ => 7
  | .popping _ => 6
  | .compacting => 5
  | .replacing _ _ => 4
  | .cleaning _ => 3
  | .acking => 2
  | .stopped => 0

/-- The task has received a signal and not sent its table on. -/
def Flusher.holds : Flusher → Bool
  | .waiting => false
  | .awaiting => false
  | .stopped => false
  | _ => true

/-- The task has received a load and not popped its table. -/
def Compactor.holds : Compactor → Bool
  | .loading _ => true
  | .popping _ => true
  | _ => false

namespace Engine

/-- A file that is being written may be seen in any part; every other step brings its task on. -/
def BackgroundAction.advances : BackgroundAction → Bool
  | .writePart _ => false
  | _ => true

/-- A step that brings a task on. -/
def Advances (c : Config) (e : Engine) (a : BackgroundAction) (e' : Engine) : Prop :=
  a.advances = true ∧ step c e (.background a) = some e'

/-- A bound on the steps that the tasks have left. -/
def work (e : Engine) : Nat :=
  15 * e.memtableChannel.length + e.flusher.left + 8 * e.signal.length +
    e.compactor.left + e.sstableAck

/-- Every step that brings a task on takes from the work. -/
theorem work_advances {c : Config} (e : Engine) (a : BackgroundAction) (e' : Engine)
    (h : Advances c e a e') :
    e'.work < e.work := by
  obtain ⟨hadvances, hs⟩ := h
  cases step_cases hs with
  | background hb =>
    cases hb with
    | writePart => cases hadvances
    | receiveFlush hf hch | stopFlusher hf hch =>
      simp only [work, hf, hch, Flusher.left, List.length_cons]
      omega
    | receiveAck hf hack =>
      simp only [work, hf, Flusher.left]
      omega
    | receiveLoad hc hch | stopCompactor hc hch =>
      simp only [work, hc, hch, Compactor.left, List.length_cons]
      omega
    | @popTable n hc =>
      have hleft : (if e.sstableCache.compactionRate ≤ n then Compactor.compacting
          else .acking).left ≤ 5 := by
        split <;> decide
      simp only [work, hc, show Compactor.left (.popping n) = 6 from rfl]
      omega
    | sendLoad hf =>
      simp only [work, hf, Flusher.left, List.length_append, List.length_singleton]
      omega
    | createFile hf | takeFront hf | finishFile hf | removeWal hf | ackLost hf =>
      simp only [work, hf, Flusher.left]
      omega
    | pushTable hc | compact hc | replaceTables hc | removeStale hc | sendAck hc =>
      simp only [work, hc, Compactor.left]
      omega

/-! ## The tables that are promised a flush -/

/-- The flushes that were asked for and have not popped their table. -/
def promised (e : Engine) : Nat :=
  (e.memtableChannel.filter (· = .flush)).length + e.flusher.holds.toNat +
    e.loads.length + e.compactor.holds.toNat

/-- The queue has a table for each flush that is promised or owed, and no other. -/
def Promised (e : Engine) : Prop := e.immutable.length = e.promised + e.owed

theorem promised_start (c : Config) (stamp : LsmliteInner.Stamp) : Promised (start c stamp) := rfl

/-- A client moves that neither appends nor signals. -/
theorem Promised.moved {e e' : Engine} (h : Promised e) {i : Nat} {p q : Phase}
    (hi : e.clients[i]? = some p) (hp : owes p = none) (hq : owes q = none)
    (hclients : e'.clients = e.clients.set i q) (himmutable : e'.immutable = e.immutable)
    (hpromised : e'.promised = e.promised) : Promised e' := by
  have howed := owed_setPhase hi q
  rw [hp, hq] at howed
  have hsame : e'.owed = (e.setPhase i q).owed := by
    rw [owed, hclients]
    rfl
  unfold Promised at h ⊢
  rw [himmutable, hpromised, hsame]
  simp only [Option.toList_none, List.length_nil] at howed
  omega

theorem promised_client {c : Config} {e e' : Engine} {i : Nat} {a : ClientAction} (h : Promised e)
    (hc : ClientStep c e i a e') : Promised e' := by
  cases hc with
  | @append w full hi =>
    have howed := owed_setPhase hi (.signalling w)
    unfold Promised at h ⊢
    show (e.immutable ++ [full]).length = e.promised + (e.setPhase i (.signalling w)).owed
    simp only [owes, Option.toList_none, Option.toList_some, List.length_nil,
      List.length_singleton] at howed
    rw [List.length_append, List.length_singleton]
    omega
  | @signal w hi =>
    have howed := owed_setPhase hi (.retrying w)
    unfold Promised promised at h ⊢
    show e.immutable.length =
      ((e.memtableChannel ++ [MemtableFlushSignal.flush]).filter (· = .flush)).length +
      e.flusher.holds.toNat + e.loads.length + e.compactor.holds.toNat +
        (e.setPhase i (.retrying w)).owed
    simp only [owes, Option.toList_none, Option.toList_some, List.length_nil,
      List.length_singleton] at howed
    rw [List.filter_append, List.length_append]
    simp only [decide_true, List.filter_cons_of_pos, List.filter_nil, List.length_singleton]
    omega
  | call hi | get hi | readSstables hi => exact h.moved hi rfl rfl rfl rfl rfl
  | attemptOk hi | attemptFull hi | rotate hi | retryOk hi | retryFull hi =>
    exact h.moved hi rfl rfl rfl rfl rfl
  | @readMemtable key before table q hi htable hq =>
    cases LsmliteInner.readQuery q <;> exact h.moved hi rfl rfl rfl rfl rfl
  | @readImmutable key before queue q hi hqueue hq =>
    cases LsmliteInner.readQuery q <;> exact h.moved hi rfl rfl rfl rfl rfl

theorem promised_background {c : Config} {e e' : Engine} {a : BackgroundAction} (h : Promised e)
    (hb : BackgroundStep c e a e') : Promised e' := by
  unfold Promised promised at h ⊢
  cases hb with
  | receiveFlush hf hch =>
    rw [hf, hch] at h
    simpa [Flusher.holds, loads, owed, Nat.add_comm, Nat.add_left_comm, Nat.add_assoc] using h
  | stopFlusher hf hch =>
    rw [hf, hch] at h
    simpa [Flusher.holds, loads, owed] using h
  | sendLoad hf =>
    rw [hf] at h
    simp only [Flusher.holds, Bool.toNat_true, Bool.toNat_false, loads, owed, List.filterMap_append,
      List.filterMap_cons, List.filterMap_nil, CompactionSignal.ts, List.length_append,
        List.length_singleton] at h ⊢
    omega
  | receiveLoad hc hch =>
    rw [hc, loads, hch] at h
    simp only [Compactor.holds, Bool.toNat_true, Bool.toNat_false, loads, owed,
      List.filterMap_cons, CompactionSignal.ts, List.length_cons] at h ⊢
    omega
  | stopCompactor hc hch =>
    rw [hc, loads, hch] at h
    exact h
  | @popTable n hc =>
    have hholds : (if e.sstableCache.compactionRate ≤ n then Compactor.compacting
        else .acking).holds = false := by
      split <;> rfl
    rw [hc] at h
    simp only [Compactor.holds, Bool.toNat_true, loads, owed] at h
    simp only [hholds, Bool.toNat_false, loads, owed, List.length_tail]
    omega
  | createFile hf | takeFront hf | finishFile hf | removeWal hf | receiveAck hf | ackLost hf =>
    rw [hf] at h
    exact h
  | writePart hf => exact h
  | pushTable hc | compact hc | replaceTables hc | removeStale hc | sendAck hc =>
    rw [hc] at h
    exact h

theorem promised_step {c : Config} {e e' : Engine} {a : Action} (h : Promised e)
    (hs : step c e a = some e') :
    Promised e' := by
  cases step_cases hs with
  | spawn hopen =>
    have howed : (e.clients ++ [Phase.idle]).filterMap owes = e.clients.filterMap owes := by
      rw [List.filterMap_append]
      exact List.append_nil _
    unfold Promised owed at h ⊢
    rw [howed]
    exact h
  | drop hopen hidle =>
    have hloads : (e.signal ++ [CompactionSignal.shutdown]).filterMap CompactionSignal.ts =
        e.loads := by
      rw [List.filterMap_append]
      exact List.append_nil _
    have hflushes : (e.memtableChannel ++ [MemtableFlushSignal.shutdown]).filter (· = .flush) =
        e.memtableChannel.filter (· = .flush) := by
      rw [List.filter_append]
      exact List.append_nil _
    unfold Promised promised at h ⊢
    rw [hflushes, loads, hloads]
    exact h
  | client hc => exact promised_client h hc
  | background hb => exact promised_background h hb

/-! ## What the tasks wait for -/

/-- A flush task that waits for an acknowledgement gets one, unless the compaction task has
stopped. -/
def Awaited (e : Engine) : Prop :=
  e.flusher = .awaiting → e.compactor = .stopped ∨
    0 < e.loads.length + e.compactor.busy.toNat + e.sstableAck

theorem awaited_start (c : Config) (stamp : LsmliteInner.Stamp) : Awaited (start c stamp) := by
  intro hf
  cases hf

theorem awaited_step {c : Config} {e e' : Engine} {a : Action} (h : Awaited e)
    (hs : step c e a = some e') :
    Awaited e' := by
  cases step_cases hs with
  | spawn hopen => exact h
  | drop hopen hidle =>
    have hloads : (e.signal ++ [CompactionSignal.shutdown]).filterMap CompactionSignal.ts =
        e.loads := by
      rw [List.filterMap_append]
      exact List.append_nil _
    unfold Awaited at h ⊢
    rw [loads, hloads]
    exact h
  | client hc =>
    have hsame := hc.tasks_same
    unfold Awaited at h ⊢
    rw [hsame.flusher, hsame.compactor, hsame.loads, hsame.sstableAck]
    exact h
  | background hb =>
    intro hf'
    cases hb with
    | writePart hf =>
      rw [hf] at hf'
      cases hf'
    | @sendLoad ts hf =>
      right
      simp only [loads, List.filterMap_append, List.filterMap_cons, List.filterMap_nil,
        CompactionSignal.ts, List.length_append, List.length_singleton]
      omega
    | receiveLoad hc | pushTable hc | compact hc | replaceTables hc | removeStale hc =>
      right
      simp only [Compactor.busy, Bool.toNat_true]
      omega
    | @popTable n hc =>
      right
      have hbusy : (if e.sstableCache.compactionRate ≤ n then Compactor.compacting
          else .acking).busy = true := by
        split <;> rfl
      simp only [hbusy, Bool.toNat_true]
      omega
    | sendAck hc =>
      right
      simp only
      omega
    | stopCompactor hc hch => exact Or.inl rfl
    | _ => cases hf'

/-- A drop's signals stay in their channels until the tasks stop. -/
structure Closing (e : Engine) : Prop where
  flusher : e.dropped = true → e.flusher = .stopped ∨ .shutdown ∈ e.memtableChannel
  compactor : e.dropped = true → e.compactor = .stopped ∨ .shutdown ∈ e.signal

theorem closing_start (c : Config) (stamp : LsmliteInner.Stamp) : Closing (start c stamp) where
  flusher h := by cases h
  compactor h := by cases h

theorem closing_client {c : Config} {e e' : Engine} {i : Nat} {a : ClientAction} (h : Closing e)
    (hc : ClientStep c e i a e') : Closing e' := by
  cases hc with
  | signal hi =>
    refine ⟨fun hd => ?_, h.compactor⟩
    exact (h.flusher hd).imp id fun hin => List.mem_append_left _ hin
  | @readMemtable key before table q hi htable hq =>
    cases LsmliteInner.readQuery q <;> exact ⟨h.flusher, h.compactor⟩
  | @readImmutable key before queue q hi hqueue hq =>
    cases LsmliteInner.readQuery q <;> exact ⟨h.flusher, h.compactor⟩
  | _ => exact ⟨h.flusher, h.compactor⟩

theorem closing_background {c : Config} {e e' : Engine} {a : BackgroundAction} (h : Closing e)
    (hb : BackgroundStep c e a e') : Closing e' := by
  -- A running task has its signal to come, and a step that takes another signal leaves it there.
  have hflusher : e.flusher ≠ .stopped → e.dropped = true → .shutdown ∈ e.memtableChannel :=
    fun hne hd => (h.flusher hd).resolve_left hne
  have hcompactor : e.compactor ≠ .stopped → e.dropped = true → .shutdown ∈ e.signal :=
    fun hne hd => (h.compactor hd).resolve_left hne
  cases hb with
  | receiveFlush hf hch =>
    refine ⟨fun hd => Or.inr ?_, h.compactor⟩
    have hin := hflusher (by simp [hf]) hd
    rw [hch] at hin
    exact (List.mem_cons.mp hin).resolve_left (by simp)
  | ackLost hf | stopFlusher hf => exact ⟨fun _ => Or.inl rfl, h.compactor⟩
  | sendLoad hf =>
    refine ⟨fun hd => Or.inr (hflusher (by simp [hf]) hd), fun hd => ?_⟩
    exact (h.compactor hd).imp id fun hin => List.mem_append_left _ hin
  | createFile hf | takeFront hf | finishFile hf | removeWal hf | receiveAck hf =>
    exact ⟨fun hd => Or.inr (hflusher (by simp [hf]) hd), h.compactor⟩
  | writePart hf => exact ⟨h.flusher, h.compactor⟩
  | receiveLoad hc hch =>
    refine ⟨h.flusher, fun hd => Or.inr ?_⟩
    have hin := hcompactor (by simp [hc]) hd
    rw [hch] at hin
    exact (List.mem_cons.mp hin).resolve_left (by simp)
  | stopCompactor hc hch => exact ⟨h.flusher, fun _ => Or.inl rfl⟩
  | pushTable hc | popTable hc | compact hc | replaceTables hc | removeStale hc | sendAck hc =>
    exact ⟨h.flusher, fun hd => Or.inr (hcompactor (by simp [hc]) hd)⟩

theorem closing_step {c : Config} {e e' : Engine} {a : Action} (h : Closing e)
    (hs : step c e a = some e') :
    Closing e' := by
  cases step_cases hs with
  | spawn hopen => exact ⟨h.flusher, h.compactor⟩
  | drop hopen hidle =>
    refine ⟨fun _ => Or.inr ?_, fun _ => Or.inr ?_⟩
    · exact List.mem_append_right _ (List.mem_singleton_self _)
    · exact List.mem_append_right _ (List.mem_singleton_self _)
  | client hc => exact closing_client h hc
  | background hb => exact closing_background h hb

/-- What the tasks go on with. -/
structure Working (c : Config) (e : Engine) : Prop where
  layered : Layered c.hashing Sound e
  known : Known e
  promised : Promised e
  awaited : Awaited e
  closing : Closing e

theorem Reaches.working {c : Config} {e : Engine} (h : Reaches c FileFits e) : Working c e where
  layered := h.sound
  known := h.known
  promised := h.invariant (promised_start c) fun _ _ _ he _ hs => promised_step he hs
  awaited := h.invariant (awaited_start c) fun _ _ _ he _ hs => awaited_step he hs
  closing := h.invariant (closing_start c) fun _ _ _ he _ hs => closing_step he hs

/-! ## Progress -/

/-- The tasks wait for signals that are not there, or have stopped. -/
structure Rests (e : Engine) : Prop where
  flusher : e.flusher = .stopped ∨ e.flusher = .waiting ∧ e.memtableChannel = []
  compactor : e.compactor = .stopped ∨ e.compactor = .waiting ∧ e.signal = []

/-- What the tasks would write now meets the limits of its format. -/
def FilesFit (e : Engine) : Prop := ∀ a, e.FileFits (.background a)

/-- Some step brings a task on. -/
def CanAdvance (c : Config) (e : Engine) : Prop := ∃ a e', Advances c e a e'

theorem canAdvance_of {c : Config} {e e' : Engine} (a : BackgroundAction) (ha : a.advances = true)
    (hs : backgroundStep c e a = some e') : CanAdvance c e := ⟨a, e', ha, hs⟩

/-- A table that is loaded can be read back. -/
theorem Working.loads {c : Config} {e : Engine} (h : Working c e) {ts : Nat}
    (hc : e.compactor = .loading ts) :
    CanAdvance c e := by
  obtain ⟨i, f, _, hfile, table, htable, _⟩ := h.layered.loading.file ts (by
    rw [underWay, hc]
    exact List.mem_append_right _ (List.mem_singleton_self _))
  apply canAdvance_of .pushTable rfl
  simp only [backgroundStep, hc, hfile, htable, Option.bind_eq_bind, Option.bind_some]
  rfl

/-- The tables of the cache can be merged. -/
theorem Working.compacts {c : Config} {e : Engine} (h : Working c e) (hfits : e.FilesFit)
    (hc : e.compactor = .compacting) : CanAdvance c e := by
  obtain ⟨ess, hess, _⟩ := h.layered.cache.tables
  obtain ⟨iters, cache, es, hiters, _, hcompacted⟩ := compacted hess
  have hrep := hfits (.compact (e.clock + 1))
  simp only [FileFits, hiters] at hrep
  have hfit := hrep _ hcompacted.pushed
  rw [map_entryOf] at hfit
  obtain ⟨table, path, hrun, _⟩ := hcompacted.table hfit (e.clock + 1)
  apply canAdvance_of (.compact (e.clock + 1)) rfl
  simp only [backgroundStep, hc, if_pos (Nat.lt_succ_self _), hiters, hrun,
    Option.bind_eq_bind, Option.bind_some]
  rfl

/-- The compaction task is not stuck with a load. -/
theorem Working.compactor_advances {c : Config} {e : Engine} (h : Working c e)
    (hfits : e.FilesFit)
    (hrests : ¬ (e.compactor = .stopped ∨ e.compactor = .waiting ∧ e.signal = [])) :
    CanAdvance c e := by
  cases hc : e.compactor with
  | waiting =>
    cases hch : e.signal with
    | nil => exact absurd (Or.inr ⟨hc, hch⟩) hrests
    | cons m rest =>
      cases m with
      | loadSSTable ts =>
        exact canAdvance_of .receiveLoad rfl (by simp only [backgroundStep, hc, hch]; rfl)
      | shutdown =>
        exact canAdvance_of .stopCompactor rfl (by simp only [backgroundStep, hc, hch]; rfl)
  | loading ts => exact h.loads hc
  | popping n => exact canAdvance_of .popTable rfl (by simp only [backgroundStep, hc]; rfl)
  | compacting => exact h.compacts hfits hc
  | replacing ts table =>
    exact canAdvance_of .replaceTables rfl (by simp only [backgroundStep, hc]; rfl)
  | cleaning ts => exact canAdvance_of .removeStale rfl (by simp only [backgroundStep, hc]; rfl)
  | acking => exact canAdvance_of .sendAck rfl (by simp only [backgroundStep, hc]; rfl)
  | stopped => exact absurd (Or.inl hc) hrests

/-- A table in the flush task's hands. -/
theorem Working.table {c : Config} {e : Engine} (h : Working c e) {ts i : Nat}
    (hf : e.flusher = .writing ts i ∨ e.flusher = .written ts i) : ∃ t, e.tables[i]? = some t := by
  obtain ⟨rest, hrest⟩ := h.layered.loading.front ts i hf
  have hlt :=
    h.layered.placed.settled (i := i) (List.mem_append_right _ (hrest ▸ List.mem_cons_self))
  exact ⟨_, List.getElem?_eq_getElem hlt⟩

theorem Working.content {c : Config} {e : Engine} (h : Working c e) (hfits : e.FilesFit)
    {ts i : Nat} {t : Table} (hf : e.flusher = .writing ts i) (ht : e.tables[i]? = some t) :
    ∃ content, sstableContent c.hashing t.inner = some content := by
  have hrep := hfits .finishFile
  simp only [FileFits, FlushFits, hf, writesOf_eq ht] at hrep
  obtain ⟨fd, hrun, _⟩ :=
    sstableContent_holds c.hashing (h.layered.took t (List.mem_of_getElem? ht)).holds hrep
  refine ⟨fd.content, ?_⟩
  rw [sstableContent, hrun]
  rfl

/-- The flush task finds a table for its signal. -/
theorem Working.front {c : Config} {e : Engine} (h : Working c e) (hf : e.flusher.holds = true) :
    ∃ i rest, e.immutable = i :: rest := by
  have hpromised := h.promised
  unfold Promised Engine.promised at hpromised
  rw [hf, Bool.toNat_true] at hpromised
  cases himmutable : e.immutable with
  | nil =>
    rw [himmutable, List.length_nil] at hpromised
    omega
  | cons i rest => exact ⟨i, rest, rfl⟩

/-- A flush task that waits for an acknowledgement has the compaction task at work for it. -/
theorem Working.awaiting_advances {c : Config} {e : Engine} (h : Working c e) (hfits : e.FilesFit)
    (hf : e.flusher = .awaiting) : CanAdvance c e := by
  by_cases hack : 0 < e.sstableAck
  · exact canAdvance_of .receiveAck rfl (by simp only [backgroundStep, hf, if_pos hack]; rfl)
  · by_cases hstop : e.compactor = .stopped
    · exact canAdvance_of .receiveAck rfl (by
        simp only [backgroundStep, hf, if_neg hack, if_pos hstop]; rfl)
    · apply h.compactor_advances hfits
      rintro (hstopped | ⟨hwaiting, hempty⟩)
      · exact hstop hstopped
      · have hawaited := (h.awaited hf).resolve_left hstop
        simp only [Engine.loads, hempty, hwaiting, Compactor.busy, List.filterMap_nil,
          List.length_nil, Bool.toNat_false] at hawaited
        omega

theorem Working.flusher_advances {c : Config} {e : Engine} (h : Working c e) (hfits : e.FilesFit)
    (hrests : ¬ (e.flusher = .stopped ∨ e.flusher = .waiting ∧ e.memtableChannel = [])) :
    CanAdvance c e := by
  cases hf : e.flusher with
  | waiting =>
    cases hch : e.memtableChannel with
    | nil => exact absurd (Or.inr ⟨hf, hch⟩) hrests
    | cons m rest =>
      cases m with
      | flush => exact canAdvance_of .receiveFlush rfl (by simp only [backgroundStep, hf, hch]; rfl)
      | shutdown =>
        exact canAdvance_of .stopFlusher rfl (by simp only [backgroundStep, hf, hch]; rfl)
  | creating =>
    apply canAdvance_of (.createFile (e.clock + 1)) rfl
    simp only [backgroundStep, hf, if_pos (Nat.lt_succ_self _)]
    rfl
  | created ts =>
    obtain ⟨i, rest, hq⟩ := h.front (by rw [hf]; rfl)
    exact canAdvance_of .takeFront rfl (by simp only [backgroundStep, hf, hq]; rfl)
  | writing ts i =>
    obtain ⟨t, ht⟩ := h.table (Or.inl hf)
    obtain ⟨content, hcontent⟩ := h.content hfits hf ht
    apply canAdvance_of .finishFile rfl
    simp only [backgroundStep, hf, ht, hcontent, Option.bind_eq_bind, Option.bind_some]
    rfl
  | written ts i =>
    obtain ⟨t, ht⟩ := h.table (Or.inr hf)
    apply canAdvance_of .removeWal rfl
    simp only [backgroundStep, hf, ht, Option.bind_eq_bind, Option.bind_some]
    rfl
  | sending ts => exact canAdvance_of .sendLoad rfl (by simp only [backgroundStep, hf]; rfl)
  | awaiting => exact h.awaiting_advances hfits hf
  | stopped => exact absurd (Or.inl hf) hrests

/-- Tasks that do not rest are not stuck. -/
theorem Working.canAdvance {c : Config} {e : Engine} (h : Working c e) (hfits : e.FilesFit)
    (hrests : ¬ e.Rests) : CanAdvance c e := by
  by_cases hf : e.flusher = .stopped ∨ e.flusher = .waiting ∧ e.memtableChannel = []
  · by_cases hc : e.compactor = .stopped ∨ e.compactor = .waiting ∧ e.signal = []
    · exact absurd ⟨hf, hc⟩ hrests
    · exact h.compactor_advances hfits hc
  · exact h.flusher_advances hfits hf

/-! ## To rest -/

/-- Until the last handle is dropped no task stops. -/
theorem Reaches.running {c : Config} {ok : Engine → Action → Prop} {e : Engine} (h : Reaches c ok e)
    (hopen : e.dropped = false) : e.flusher ≠ .stopped ∧ e.compactor ≠ .stopped := by
  obtain ⟨s, _, hruns⟩ := h.runs hopen
  constructor
  · intro hf
    exact flusherPhase_eq (hruns.flusher_eq hf) hruns.running.1
  · intro hc
    have hrunning := hruns.running.2
    rw [hruns.compactor_eq hc] at hrunning
    cases hrunning

/-- What the tasks leave to the clients. -/
structure TasksOnly (e e' : Engine) : Prop where
  invoked : e'.invoked = e.invoked
  dropped : e'.dropped = e.dropped
  clients : e'.clients = e.clients
  layers : e'.popped ++ e'.immutable = e.popped ++ e.immutable

theorem TasksOnly.trans {e e' e'' : Engine} (h : TasksOnly e e') (h' : TasksOnly e' e'') :
    TasksOnly e e'' where
  invoked := h'.invoked.trans h.invoked
  dropped := h'.dropped.trans h.dropped
  clients := h'.clients.trans h.clients
  layers := h'.layers.trans h.layers

theorem BackgroundStep.tasksOnly {c : Config} {e e' : Engine} {a : BackgroundAction}
    (h : BackgroundStep c e a e') :
    TasksOnly e e' := by
  cases h with
  | popTable hc =>
    refine ⟨rfl, rfl, rfl, ?_⟩
    cases e.immutable <;> simp
  | _ => exact ⟨rfl, rfl, rfl, rfl⟩

/-- The states that the tasks reach on their own. -/
theorem Reaches.path {c : Config} {ok : Engine → Action → Prop} {e e' : Engine} (h : Reaches c ok e)
    {as : List BackgroundAction} (hpath : Variants.Path (Advances c) e as e') :
    Reaches c (fun _ _ => True) e' ∧ TasksOnly e e' := by
  refine hpath.invariant (P := fun e' => Reaches c (fun _ _ => True) e' ∧ TasksOnly e e') ?_
    ⟨h.mono fun _ _ _ => trivial, rfl, rfl, rfl, rfl⟩
  intro e1 a e2 ⟨hreach, hsame⟩ hadvances
  refine ⟨hreach.next trivial hadvances.2, hsame.trans ?_⟩
  cases step_cases hadvances.2 with
  | background hb => exact hb.tasksOnly

end Engine

end Lsmlite
