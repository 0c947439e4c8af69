import Lsmlite.LiveLogs

/-!
# The signals of a restart

A restart sends a signal for every log but the newest before the flush task runs. These logs are
those of the tables nobody has flushed: as many as there are signals in the channel, clients between
the swap and the signal, and tables in the flush task's hands.
-/

namespace Lsmlite

/-- What `ImmutableMemtable::new` sends to the flush task's channel. -/
def restartSignals (dir : List DirEntry) : Option Nat :=
  (scanDirectory dir).map fun (_, walFiles) => walFiles.dropLast.length

namespace Engine

/-- `send` waits while the channel is full. -/
def WithRoom (capacity : Nat) (e : Engine) (a : Action) : Prop :=
  match a with
  | .client _ .signal => e.memtableChannel.length < capacity
  | _ => True

instance (capacity : Nat) (e : Engine) (a : Action) : Decidable (e.WithRoom capacity a) := by
  unfold WithRoom
  split <;> infer_instance

/-! ## The tables nobody has flushed -/

def owes : Phase → Option Unit
  | .signalling _ => some ()
  | _ => none

/-- The clients that have appended a table and not sent its signal. -/
def owed (e : Engine) : Nat := (e.clients.filterMap owes).length

def flushSignals (e : Engine) : Nat := e.memtableChannel.count .flush

/-- The tables on their way to the flush task, or in its hands with their log. -/
def unflushed (e : Engine) : Nat :=
  e.waiting.length + e.owed + e.flushSignals + e.flusher.working.toNat

/-- The queue has a table for each of these, and the one that has lost its log. -/
def Signalled (e : Engine) : Prop :=
  e.immutable.length = e.owed + e.flushSignals + e.flusher.working.toNat + e.settling.toNat

theorem signalled_start (c : Config) (stamp : LsmliteInner.Stamp) : Signalled (start c stamp) := rfl

theorem owed_setPhase {e : Engine} {i : Nat} {p : Phase} (hi : e.clients[i]? = some p) (q : Phase) :
    (owes p).toList.length + (e.setPhase i q).owed = (owes q).toList.length + e.owed := by
  have h := (filterMap_set_perm owes hi q).length_eq
  rw [List.length_append, List.length_append] at h
  exact h

/-- A client that goes from one phase to another with no signal to send. -/
theorem owed_same {e : Engine} {i : Nat} {p q : Phase} (hi : e.clients[i]? = some p)
    (hp : owes p = none) (hq : owes q = none) : (e.setPhase i q).owed = e.owed := by
  have h := owed_setPhase hi q
  rw [hp, hq] at h
  simpa using h

theorem Signalled.same {e e' : Engine} (h : Signalled e)
    (himmutable : e'.immutable.length = e.immutable.length) (howed : e'.owed = e.owed)
    (hsignals : e'.flushSignals = e.flushSignals)
    (hflusher : e'.flusher.working = e.flusher.working) (hsettling : e'.settling = e.settling) :
    Signalled e' := by
  rw [Signalled, himmutable, howed, hsignals, hflusher, hsettling]
  exact h

theorem signalled_client {c : Config} {e e' : Engine} {i : Nat} {a : ClientAction} (h : Signalled e)
    (hs : ClientStep c e i a e') : Signalled e' := by
  cases hs with
  | @append w full hi =>
    have howed := owed_setPhase hi (.signalling w)
    unfold Signalled at h ⊢
    show (e.immutable ++ [full]).length = (e.setPhase i (.signalling w)).owed + e.flushSignals +
      e.flusher.working.toNat + e.settling.toNat
    simp only [owes, Option.toList_none, Option.toList_some, List.length_nil,
      List.length_singleton] at howed
    rw [List.length_append, List.length_singleton]
    omega
  | @signal w hi =>
    have howed := owed_setPhase hi (.retrying w)
    unfold Signalled at h ⊢
    show e.immutable.length = (e.setPhase i (.retrying w)).owed +
      (e.memtableChannel ++ [MemtableFlushSignal.flush]).count .flush + e.flusher.working.toNat +
        e.settling.toNat
    simp only [owes, Option.toList_none, Option.toList_some, List.length_nil,
      List.length_singleton] at howed
    rw [List.count_append, List.count_singleton_self, ← flushSignals]
    omega
  | attemptOk hi htable hw => exact h.same rfl (owed_same hi rfl rfl) rfl rfl rfl
  | retryOk hi htable hw => exact h.same rfl (owed_same hi rfl rfl) rfl rfl rfl
  | rotate hi hts => exact h.same rfl (owed_same hi rfl rfl) rfl rfl rfl
  | @readMemtable key before table q hi htable hq =>
    cases LsmliteInner.readQuery q <;> exact h.same rfl (owed_same hi rfl rfl) rfl rfl rfl
  | @readImmutable key before queue q hi hqueue hq =>
    cases LsmliteInner.readQuery q <;> exact h.same rfl (owed_same hi rfl rfl) rfl rfl rfl
  | call hi => exact h.same rfl (owed_same hi rfl rfl) rfl rfl rfl
  | attemptFull hi => exact h.same rfl (owed_same hi rfl rfl) rfl rfl rfl
  | retryFull hi => exact h.same rfl (owed_same hi rfl rfl) rfl rfl rfl
  | get hi => exact h.same rfl (owed_same hi rfl rfl) rfl rfl rfl
  | readSstables hi => exact h.same rfl (owed_same hi rfl rfl) rfl rfl rfl

theorem signalled_step {c : Config} {e e' : Engine} {a : Action} (h : Signalled e) (hc : Cleared e)
    (hone : OneLoad e) (hs : step c e a = some e') : Signalled e' := by
  have hone' := one_load_step hone hs
  cases step_cases hs with
  | spawn hopen =>
    refine h.same rfl ?_ rfl rfl rfl
    simp [owed, owes, List.filterMap_append]
  | drop hopen hidle =>
    refine h.same rfl rfl ?_ rfl ?_
    · simp [flushSignals, List.count_append]
    · rw [settling, settling, loads, loads, List.filterMap_append,
        show [CompactionSignal.shutdown].filterMap CompactionSignal.ts = []
          from rfl, List.append_nil]
  | client hc' => exact signalled_client h hc'
  | background hb =>
    have hsettling := settling_same hone hone' hb
    cases hb with
    | @receiveFlush rest hf hch =>
      rw [Signalled, hf, flushSignals, hch, List.count_cons_self] at h
      rw [Signalled, hsettling rfl]
      show e.immutable.length = e.owed + rest.count .flush + 1 + e.settling.toNat
      simp only [Flusher.working, Bool.toNat_false] at h
      omega
    | createFile hf hts => exact h.same rfl rfl rfl (by rw [hf]; rfl) (hsettling rfl)
    | takeFront hf hq => exact h.same rfl rfl rfl (by rw [hf]; rfl) (hsettling rfl)
    | writePart hf ht hcontent => exact h.same rfl rfl rfl rfl (hsettling rfl)
    | finishFile hf ht hcontent => exact h.same rfl rfl rfl (by rw [hf]; rfl) (hsettling rfl)
    | removeWal hf ht =>
      obtain ⟨hbefore, hafter⟩ := settling_removeWal (c := c) hone hone' (.removeWal hf ht)
      rw [Signalled, hbefore, hf] at h
      rw [Signalled, hafter]
      exact h
    | sendLoad hf => exact h.same rfl rfl rfl (by rw [hf]; rfl) (hsettling rfl)
    | receiveAck hf hack => exact h.same rfl rfl rfl (by rw [hf]; rfl) (hsettling rfl)
    | ackLost hf hack hc' => exact h.same rfl rfl rfl (by rw [hf]; rfl) (hsettling rfl)
    | stopFlusher hf hch =>
      refine h.same rfl rfl ?_ (by rw [hf]; rfl) (hsettling rfl)
      rw [flushSignals, flushSignals, hch]
      simp
    | receiveLoad hc' hch => exact h.same rfl rfl rfl rfl (hsettling rfl)
    | pushTable hc' hfile htable => exact h.same rfl rfl rfl rfl (hsettling rfl)
    | popTable hc' =>
      obtain ⟨hbefore, hafter⟩ := settling_popTable (c := c) hone hone' (.popTable hc')
      obtain ⟨_, ⟨rest, hrest⟩, _⟩ := hc.settled hbefore
      rw [Signalled, hbefore, hrest, List.length_cons] at h
      rw [Signalled, hafter]
      dsimp only
      rw [hrest]
      exact Nat.succ.inj h
    | compact hc' hts hiters htable => exact h.same rfl rfl rfl rfl (hsettling rfl)
    | replaceTables hc' => exact h.same rfl rfl rfl rfl (hsettling rfl)
    | removeStale hc' => exact h.same rfl rfl rfl rfl (hsettling rfl)
    | sendAck hc' => exact h.same rfl rfl rfl rfl (hsettling rfl)
    | stopCompactor hc' hch => exact h.same rfl rfl rfl rfl (hsettling rfl)

theorem Reopened.signalled {c : Config} {dir : List DirEntry} {clock : Nat}
    {sstables : List SSTableArtifact} {wals : List WalArtifact}
    {stamps : WalArtifact → LsmliteInner.Stamp} {fresh : LsmliteInner.Stamp} {e : Engine}
    (h : Reopened c dir clock sstables wals stamps fresh e) :
    Signalled e := by
  rw [Signalled, h.queue, owed, h.clients, flushSignals, h.signals, h.flusher, h.settling]
  simp [Flusher.working]

/-! ## The logs are those of these tables -/

/-- The queue's tables have their logs but for the front between its flush and its pop. -/
theorem queue_logs {e : Engine} (hp : Placed e) (hc : Cleared e) :
    (e.immutable.filter e.hasLog).length + e.settling.toNat = e.immutable.length := by
  have hnodup : (e.popped ++ e.immutable ++ e.waiting).Nodup :=
    hp.once.nodup_iff.mpr List.nodup_range
  have hqueue := List.nodup_append.mp hnodup.of_append_left
  have hlt : ∀ i ∈ e.immutable, i < e.tables.length := by
    intro i hi
    have hactive := hp.lt (List.mem_append_right e.popped hi)
    unfold active at hactive
    omega
  cases hsettling : e.settling with
  | false =>
    rw [List.filter_eq_self.mpr]
    · rfl
    · intro i hi
      refine hasLog_iff.mpr ⟨hlt i hi, fun hgone => ?_⟩
      rcases hc.removed i hgone with hpopped | ⟨hs, _⟩
      · exact hqueue.2.2 i hpopped i hi rfl
      · rw [hsettling] at hs
        cases hs
  | true =>
    obtain ⟨front, ⟨rest, hrest⟩, hgone⟩ := hc.settled hsettling
    have hfront : e.hasLog front = false := by
      cases hlog : e.hasLog front with
      | false => rfl
      | true => exact absurd hgone (hasLog_iff.mp hlog).2
    have hother : rest.filter e.hasLog = rest := by
      rw [List.filter_eq_self]
      intro i hi
      have hmem : i ∈ e.immutable := hrest ▸ List.mem_cons_of_mem _ hi
      refine hasLog_iff.mpr ⟨hlt i hmem, fun hremoved => ?_⟩
      rcases hc.removed i hremoved with hpopped | ⟨_, hi'⟩
      · exact hqueue.2.2 i hpopped i hmem rfl
      · have heq := hi'.eq ⟨rest, hrest⟩
        have hnew := hqueue.2.1
        rw [hrest, List.nodup_cons] at hnew
        exact hnew.1 (heq ▸ hi)
    rw [hrest, List.filter_cons_of_neg (by simp [hfront]), hother]
    rfl

/-- Every log but the active memtable's is that of a table nobody has flushed. -/
theorem logged_length {e : Engine} (hp : Placed e) (hc : Cleared e) (hsignalled : Signalled e) :
    e.logged.length = e.unflushed + 1 := by
  have hpos := List.length_pos_iff.mpr hp.nonempty
  have hlength : e.tables.length = e.active + 1 := by
    unfold active
    omega
  have hplaces := congrArg List.length (logged_places e)
  rw [List.length_map, List.length_map, hlength, List.range_succ, List.filter_append,
    List.length_append] at hplaces
  have hperm := (hp.once.filter e.hasLog).length_eq
  rw [List.filter_append, List.filter_append, List.length_append, List.length_append] at hperm
  have hpopped : e.popped.filter e.hasLog = [] := by
    rw [List.filter_eq_nil_iff]
    exact fun i hi hlog => (hasLog_iff.mp hlog).2 (hc.popped i hi)
  have hwaiting : e.waiting.filter e.hasLog = e.waiting :=
    List.filter_eq_self.mpr fun i hi => hasLog_waiting hp hc hi
  have hactive : e.hasLog e.active = true := by
    refine hasLog_iff.mpr ⟨by omega, fun hgone => ?_⟩
    rcases hc.removed _ hgone with hpopped | ⟨_, rest, hrest⟩
    · exact absurd (hp.lt (List.mem_append_left _ hpopped)) (Nat.lt_irrefl _)
    · have hmem : e.active ∈ e.immutable := hrest ▸ List.mem_cons_self ..
      exact absurd (hp.lt (List.mem_append_right _ hmem)) (Nat.lt_irrefl _)
  have hqueue := queue_logs hp hc
  unfold Signalled at hsignalled
  rw [hpopped, hwaiting, List.length_nil] at hperm
  rw [List.filter_cons_of_pos hactive, List.filter_nil, List.length_singleton] at hplaces
  unfold unflushed
  omega

end Engine

/-- These are the signals in the channel of the engine that a restart makes. -/
theorem Engine.Reopened.restartSignals {c : Config} {dir : List DirEntry} {clock : Nat}
    {sstables : List SSTableArtifact} {wals : List WalArtifact}
    {stamps : WalArtifact → LsmliteInner.Stamp} {fresh : LsmliteInner.Stamp} {e : Engine}
    (h : Reopened c dir clock sstables wals stamps fresh e) :
    Lsmlite.restartSignals dir = some e.memtableChannel.length := by
  rw [Lsmlite.restartSignals, h.scanned, h.signals, List.length_replicate]
  exact congrArg some List.length_dropLast

/-- A restart sends a signal for every log but one. -/
theorem Generated.restartSignals {dir : List DirEntry} {clock : Nat} (h : Generated dir clock)
    {n : Nat} (hn : Lsmlite.restartSignals dir = some n) : n = (dir.filter isLog).length - 1 := by
  obtain ⟨⟨sstables, wals⟩, hscan, hlength⟩ := Option.map_eq_some_iff.mp hn
  rw [← h.scanned_length hscan, ← hlength]
  exact List.length_dropLast

namespace Session

/-- The runs with a flush channel of this capacity. A restart with more signals never ends. -/
def WithCapacity (c : Config) (capacity : Nat) : Session → Prop :=
  Runs c (fun _ => Engine.WithRoom capacity) fun walFiles => walFiles.dropLast.length ≤ capacity

/-- What such a run can leave when the process ends, with the number of tables nobody has flushed. A
restart that is cut short leaves the logs it has not removed beside those it has made. -/
inductive Leaves (c : Config) (capacity : Nat) : List DirEntry → Nat → Prop
  | crash {e : Engine} {recovered : List Entries} (h : WithCapacity c capacity (.up e recovered)) :
    Leaves c capacity e.disk e.unflushed
  | interrupted {dir kept : List DirEntry} {clock clock' : Nat} {made : List Nat}
      (h : WithCapacity c capacity (.down dir clock)) (hkept : kept.Sublist dir)
      (hlogs : ∀ e ∈ dir, e ∉ kept → isLog e = true) (hclock : clock ≤ clock')
      (hmade : ∀ ts ∈ made, clock < ts ∧ ts ≤ clock') (hnodup : made.Nodup) :
    Leaves c capacity (kept ++ made.map fun ts => walEntry ts [])
      ((logsOf kept).length + made.length - 1)

/-- What holds of every run. -/
def LogsCounted : Session → Prop
  | up e _ => e.Stamped ∧ e.OneLoad ∧ e.Placed ∧ e.Cleared ∧ e.Signalled
  | down dir clock => Generated dir clock

theorem Runs.logs_counted {c : Config} {ok : List Entries → Engine → Engine.Action → Prop}
    {found : List WalArtifact → Prop} {s : Session} (h : Runs c ok found s) : s.LogsCounted := by
  induction h with
  | start stamp =>
    exact ⟨Engine.stamped_start c stamp, Engine.one_load_start c stamp, Engine.placed_start c stamp,
      Engine.cleared_start c stamp, Engine.signalled_start c stamp⟩
  | step _ _ hs ih =>
    obtain ⟨hstamped, hone, hp, hc, hsignalled⟩ := ih
    exact ⟨Engine.stamped_step hstamped hs, Engine.one_load_step hone hs, Engine.placed_step hp hs,
      Engine.cleared_step hc hone hs, Engine.signalled_step hsignalled hc hone hs⟩
  | crash _ ih => exact ih.1.generated
  | restart _ _ _ hs _ ih =>
    obtain ⟨_, _, hreopened⟩ := Engine.reopen_some hs
    exact ⟨hreopened.stamped ih, hreopened.one_load, hreopened.placed,
      hreopened.cleared, hreopened.signalled⟩
  | interrupted _ hkept _ hclock hmade hnodup ih =>
    exact generated_interrupted ih hkept hclock hmade hnodup

theorem Leaves.logs {c : Config} {capacity : Nat} {dir : List DirEntry} {unflushed : Nat}
    (h : Leaves c capacity dir unflushed) :
    (∃ clock, Generated dir clock) ∧ (dir.filter isLog).length - 1 = unflushed := by
  cases h with
  | crash h =>
    obtain ⟨hstamped, _, hp, hc, hsignalled⟩ := h.logs_counted
    refine ⟨⟨_, hstamped.generated⟩, ?_⟩
    rw [hstamped.logs, List.length_map, Engine.logged_length hp hc hsignalled]
    rfl
  | @interrupted dir kept clock clock' made h hkept hlogs hclock hmade hnodup =>
    have hgenerated : Generated dir clock := h.logs_counted
    refine ⟨⟨clock', generated_interrupted hgenerated hkept hclock hmade hnodup⟩, ?_⟩
    have hnew : (made.map fun ts => walEntry ts []).filter isLog = made.map fun ts =>
        walEntry ts [] := by
      rw [List.filter_eq_self]
      intro d hd
      obtain ⟨ts, _, rfl⟩ := List.mem_map.mp hd
      exact isLog_wal ts []
    rw [List.filter_append, hnew, List.length_append, List.length_map, logsOf, List.length_map]

/-- A restart sends more signals than its channel holds exactly where the process before it ended
with more tables that nobody had flushed. -/
theorem restart_signals_fit {c : Config} {capacity : Nat} {dir left : List DirEntry}
    {unflushed n : Nat} (h : Leaves c capacity left unflushed) (hlisted : dir.Perm left)
    (hn : restartSignals dir = some n) :
    n ≤ capacity ↔ unflushed ≤ capacity := by
  obtain ⟨⟨clock, hgenerated⟩, hlogs⟩ := h.logs
  rw [(hgenerated.perm hlisted).restartSignals hn, (hlisted.filter _).length_eq, hlogs]

/-- A write and a rotation whose signal is in the channel. -/
def queuedRun : List Engine.Action :=
  [.spawn] ++ Engine.writeSteps 0 [97] [1] ++ Engine.swapSteps 0 [98] [2] 1 ++
    [.client 0 .append, .client 0 .signal, .client 0 (.retry ⟨0, 0⟩)]

/-- The flush task takes that signal, and a second rotation sends its own. -/
def overlappedRun : List Engine.Action :=
  queuedRun ++ [.background .receiveFlush] ++ Engine.swapSteps 0 [99] [3] 2 ++
    [.client 0 .append, .client 0 .signal]

/-- The signals of a restart after a run with room for one signal, and the tables nobody has
flushed. -/
def signalsAfter (actions : List Engine.Action) : Option (Nat × List Nat) := do
  let e ← Engine.runActions Engine.tinyConfig (Engine.WithRoom 1)
    (Engine.start Engine.tinyConfig ⟨0, 0⟩) actions
  let (sstables, wals) ← scanEntries e.disk
  guard (sstables = [])
  return (e.unflushed, wals.map (·.ts))

theorem leaves_of_run {actions : List Engine.Action} {unflushed : Nat} {tss : List Nat}
    (h : signalsAfter actions = some (unflushed, tss)) (hsorted : tss.Pairwise (· ≤ ·)) :
    ∃ dir, Leaves Engine.tinyConfig 1 dir unflushed ∧
      restartSignals dir = some (tss.length - 1) := by
  simp only [signalsAfter, Option.bind_eq_bind, Option.bind_eq_some_iff] at h
  obtain ⟨e, he, ⟨sstables, wals⟩, hentries, _, hguard, h⟩ := h
  cases h
  have hnil : sstables = [] := by
    by_contra hnot
    rw [guard, if_neg hnot] at hguard
    cases hguard
  subst hnil
  refine ⟨e.disk, .crash ((Runs.start ⟨0, 0⟩).run he), ?_⟩
  rw [restartSignals, scanDirectory_sorted hentries .nil (List.pairwise_map.mp hsorted),
    List.length_map]
  exact congrArg some List.length_dropLast

/-- One signal in the channel and one table in the flush task's hands leave two signals to send. -/
theorem restart_signals_overflow : ∃ dir unflushed n, Leaves Engine.tinyConfig 1 dir unflushed ∧
    restartSignals dir = some n ∧ ¬ n ≤ 1 := by
  have hrun : signalsAfter overlappedRun = some (2, [0, 1, 2]) := by decide +kernel
  obtain ⟨dir, hleaves, hn⟩ := leaves_of_run hrun (by decide)
  exact ⟨dir, 2, 2, hleaves, hn, by decide⟩

/-- One signal in the channel leaves one to send. -/
theorem restart_signals_fit_queued : ∃ dir n, Leaves Engine.tinyConfig 1 dir 1 ∧
    restartSignals dir = some n ∧ n ≤ 1 := by
  have hrun : signalsAfter queuedRun = some (1, [0, 1]) := by decide +kernel
  obtain ⟨dir, hleaves, hn⟩ := leaves_of_run hrun (by decide)
  exact ⟨dir, 1, hleaves, hn,
    (restart_signals_fit hleaves (List.Perm.refl _) hn).mpr (Nat.le_refl 1)⟩

end Session

end Lsmlite
