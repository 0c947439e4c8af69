import Lsmlite.Pipeline
import Mathlib.Logic.Relation

/-!
# The pipeline when steps fail

A failed flush spends its signal, so it leaves a table in the queue that no signal is for. The two
tasks do not wait for each other in a circle, nor for room in a channel.
-/

namespace Lsmlite.Pipeline

/-! ## Stranded tables -/

/-- `flush_to_disk` or `remove_file` is under way. -/
def Flusher.flushing : Flusher → Bool
  | .writing _ _ => true
  | .removing _ _ => true
  | _ => false

/-- The step is a failure of a flush. -/
def FlushFailed (s s' : Pipeline) : Prop := s.flusher.flushing = true ∧ s'.flusher = .waiting

instance (s s' : Pipeline) : Decidable (FlushFailed s s') := inferInstanceAs (Decidable (_ ∧ _))

/-- The states of the runs in which `n` flushes failed. -/
inductive ReachesFailing (compactionRate : Nat) : Nat → Pipeline → Prop where
  | start (recovered sstables clock : Nat) :
    ReachesFailing compactionRate 0 (start recovered sstables clock)
  | next {n : Nat} {s s' : Pipeline} (h : ReachesFailing compactionRate n s)
      (hs : Step compactionRate s s') :
    ReachesFailing compactionRate (n + (decide (FlushFailed s s')).toNat) s'

theorem ReachesFailing.reaches {compactionRate n : Nat} {s : Pipeline}
    (h : ReachesFailing compactionRate n s) :
    Reaches compactionRate s := by
  induction h with
  | start recovered sstables clock => exact .start ..
  | next _ hs ih => exact ih.next hs

/-- The signals that are queued, in progress or owed. -/
def due (s : Pipeline) : Nat := s.memtableChannel + s.inProgress + s.owed

/-- The queue has a table for each signal that is due and for each flush that failed, and while the
flush task runs no other. -/
structure Stranded (n : Nat) (s : Pipeline) : Prop where
  enough : s.due + n ≤ s.immutable.length
  exact : s.flusher.running = true → s.immutable.length = s.due + n

theorem stranded_start (recovered sstables clock : Nat) :
    Stranded 0 (start recovered sstables clock) := by
  constructor <;> simp [start, due, inProgress, owed]

theorem Stranded.same {n m : Nat} {s s' : Pipeline} (h : Stranded n s)
    (hrunning : s'.flusher.running = true → s.flusher.running = true)
    (hsame : s.immutable.length + s'.due + m = s'.immutable.length + s.due + n) :
    Stranded m s' where
  enough := by
    have := h.enough
    omega
  exact hr := by
    have := h.exact (hrunning hr)
    omega

theorem due_setWriter {s : Pipeline} {i : Nat} {w : Writer} (hi : s.writers[i]? = some w)
    (w' : Writer) :
    w.owes.toList.length + (s.setWriter i w').due = w'.owes.toList.length + s.due := by
  have howed := owed_setWriter hi w'
  have hsame : (s.setWriter i w').due = s.memtableChannel + s.inProgress +
    (s.setWriter i w').owed := rfl
  rw [hsame, due]
  omega

/-- A writer moves that owes no signal. -/
theorem Stranded.writer_moved {n : Nat} {s : Pipeline} (h : Stranded n s) {i : Nat}
    {w w' : Writer} (hi : s.writers[i]? = some w) (hw : w.owes = none) (hw' : w'.owes = none) :
    Stranded n (s.setWriter i w') := by
  have hdue := due_setWriter hi w'
  rw [hw, hw'] at hdue
  refine h.same id ?_
  show s.immutable.length + (s.setWriter i w').due + n = s.immutable.length + s.due + n
  omega

theorem stranded_writer {n : Nat} {s s' : Pipeline} (h : Stranded n s) (hs : WriterStep s s') :
    Stranded n s' := by
  cases hs with
  | spawn =>
    have howed : ({ s with writers := s.writers ++ [.idle] } : Pipeline).owed = s.owed := by
      simp [owed, Writer.owes]
    have hprogress :
      ({ s with writers := s.writers ++ [.idle] } : Pipeline).inProgress = s.inProgress := rfl
    exact h.same id (by simp only [due, howed, hprogress])
  | check hi hp => exact h.writer_moved hi rfl rfl
  | checkFails hi hp => exact h.writer_moved hi rfl rfl
  | fits hi => exact h.writer_moved hi rfl rfl
  | full hi => exact h.writer_moved hi rfl rfl
  | rotate hi =>
    have hmade : Stranded n { s with tables := s.tables + 1 } := ⟨h.enough, h.exact⟩
    exact hmade.writer_moved hi rfl rfl
  | rotateFails hi => exact h.writer_moved hi rfl rfl
  | @insert i full hi =>
    have hdue := due_setWriter hi .sending
    simp only [Writer.owes, Option.toList_none, Option.toList_some, List.length_nil,
      List.length_singleton] at hdue
    refine h.same id ?_
    show s.immutable.length + (s.setWriter i .sending).due + n =
      (s.immutable ++ [full]).length + s.due + n
    rw [List.length_append, List.length_singleton]
    omega
  | @send i hi hopen =>
    have hdue := due_setWriter hi .idle
    simp only [Writer.owes, Option.toList_none, Option.toList_some, List.length_nil,
      List.length_singleton] at hdue
    have hsent : ({ s with memtableChannel := s.memtableChannel + 1 }.setWriter i .idle).due =
        (s.setWriter i .idle).due + 1 := by
      show s.memtableChannel + 1 + s.inProgress + (s.setWriter i .idle).owed =
        s.memtableChannel + s.inProgress + (s.setWriter i .idle).owed + 1
      omega
    refine h.same id ?_
    show s.immutable.length + _ + n = s.immutable.length + s.due + n
    omega
  | @sendFails i hi hclosed =>
    -- A signal that is not sent is owed no longer, and the flush task has ended.
    have hdue := due_setWriter hi .panicked
    have henough := h.enough
    simp only [Writer.owes, Option.toList_none, Option.toList_some, List.length_nil,
      List.length_singleton] at hdue
    refine ⟨?_, fun hr => ?_⟩
    · show (s.setWriter i .panicked).due + n ≤ s.immutable.length
      omega
    · have hrunning : s.flusher.running = true := hr
      rw [hclosed] at hrunning
      cases hrunning

/-- A step of the flush task, or of the compaction task between two pops. -/
theorem Stranded.task_moved {n m : Nat} {s s' : Pipeline} (h : Stranded n s)
    (himmutable : s'.immutable = s.immutable) (hwriters : s'.writers = s.writers)
    (hrunning : s'.flusher.running = true → s.flusher.running = true)
    (hsame : s'.memtableChannel + s'.inProgress + m = s.memtableChannel + s.inProgress + n) :
    Stranded m s' := by
  refine h.same hrunning ?_
  have howed : s'.owed = s.owed := by rw [owed, owed, hwriters]
  rw [himmutable, due, due, howed]
  omega

/-- The flush task ends with a signal in hand. -/
theorem Stranded.ended {n : Nat} {s s' : Pipeline} (h : Stranded n s)
    (himmutable : s'.immutable = s.immutable) (hwriters : s'.writers = s.writers)
    (hended : s'.flusher.running = false)
    (hle : s'.memtableChannel + s'.inProgress ≤ s.memtableChannel + s.inProgress) :
    Stranded n s' where
  enough := by
    have henough := h.enough
    have howed : s'.owed = s.owed := by rw [owed, owed, hwriters]
    unfold due at henough ⊢
    rw [himmutable, howed]
    omega
  exact hr := by
    rw [hended] at hr
    cases hr

theorem stranded_flusher {n : Nat} {s s' : Pipeline} (h : Stranded n s) (hinv : Invariant s)
    (hs : FlusherStep s s') :
    Stranded (n + (decide (FlushFailed s s')).toNat) s' := by
  have hnot : ∀ {s' : Pipeline}, ¬ FlushFailed s s' →
      n + (decide (FlushFailed s s')).toNat = n := by
    intro s' hnot
    rw [decide_eq_false hnot]
    rfl
  cases hs with
  | receiveFlush hf hch =>
    rw [hnot (by simp [FlushFailed, hf, Flusher.flushing])]
    refine h.task_moved rfl rfl (by simp [hf, Flusher.running]) ?_
    simp only [inProgress, hf]
    omega
  | createFile hf hts | takeFront hf hq =>
    rw [hnot (by simp [FlushFailed, hf, Flusher.flushing])]
    refine h.task_moved rfl rfl (by simp [hf, Flusher.running]) ?_
    simp only [inProgress, hf]
  | flushToDisk hf | removeWal hf =>
    rw [hnot (by simp [FlushFailed])]
    refine h.task_moved rfl rfl (by simp [hf, Flusher.running]) ?_
    simp only [inProgress, hf]
  | createFails hf =>
    rw [hnot (by simp [FlushFailed, hf, Flusher.flushing])]
    refine h.ended rfl rfl rfl ?_
    simp only [inProgress, hf]
    omega
  | takeNothing hf hq =>
    rw [hnot (by simp [FlushFailed, hf, Flusher.flushing])]
    refine h.ended rfl rfl rfl ?_
    simp only [inProgress, hf]
    omega
  | flushFails hf =>
    have hprogress : s.inProgress = 1 := by rcases hf with hf | hf <;> simp only [inProgress, hf]
    have hfailed : FlushFailed s { s with flusher := .waiting, poisoned := true } :=
      ⟨by rcases hf with hf | hf <;> (rw [hf]; rfl), rfl⟩
    rw [decide_eq_true hfailed]
    refine h.task_moved rfl rfl (fun _ => by rcases hf with hf | hf <;> (rw [hf]; rfl)) ?_
    show s.memtableChannel + 0 + (n + 1) = s.memtableChannel + s.inProgress + n
    omega
  | @sendLoad path table hf hopen =>
    have hfront := hinv.taken (i := table) (by rw [hf]; rfl)
    rw [hnot (by simp [FlushFailed])]
    refine h.task_moved rfl rfl (by simp [hf, Flusher.running]) ?_
    simp only [inProgress, hf, hinv.accounted.not_popped hfront, if_false]
  | @sendLoadFails path table hf hclosed =>
    have hfront := hinv.taken (i := table) (by rw [hf]; rfl)
    rw [hnot (by simp [FlushFailed])]
    refine h.task_moved rfl rfl (by simp [hf, Flusher.running]) ?_
    simp only [inProgress, hf, hinv.accounted.not_popped hfront, if_false]
  | @receiveAck table hf hack =>
    rw [hnot (by simp [FlushFailed, hf, Flusher.flushing])]
    refine h.task_moved rfl rfl (by simp [hf, Flusher.running]) ?_
    cases hinv.stage with
    | @acked table' hf' hsignal hack' hc hmem hloaded =>
      cases hf.symm.trans hf'
      simp only [inProgress, hf, if_pos hmem]
    | flushing _ _ hack' | queued _ _ hack' | loading _ _ hack'
    | pushed _ _ hack' | popped _ _ hack'
    | lost _ _ hack' =>
      rw [hack'] at hack
      cases hack
  | ackLost hf hack hclosed =>
    rw [hnot (by simp [FlushFailed])]
    exact h.ended rfl rfl rfl (Nat.add_le_add_left (Nat.zero_le _) _)

theorem stranded_compactor {compactionRate n : Nat} {s s' : Pipeline} (h : Stranded n s)
    (hinv : Invariant s) (hs : CompactorStep compactionRate s s') : Stranded n s' := by
  cases hs with
  | @popTable currentLen hc =>
    cases hinv.stage with
    | @pushed table _ hf hsignal hack _ hfront _ hloaded =>
      -- The pop settles the signal in progress.
      have hbefore : s.inProgress = 1 := by
        rw [inProgress_awaiting hf, if_neg (hinv.accounted.not_popped hfront)]
      have hmem : table ∈ s.popped ++ s.immutable.head?.toList := by
        rw [hfront]
        exact List.mem_append_right _ (List.mem_singleton_self _)
      have hafter : ∀ compactor, inProgress { s with
          immutable := s.immutable.tail
          popped := s.popped ++ s.immutable.head?.toList
          compactor } = 0 := by
        intro compactor
        simp only [inProgress, hf, if_pos hmem]
      have hlength := congrArg List.length (eq_cons_of_head hfront)
      rw [List.length_cons] at hlength
      refine h.same id ?_
      rw [due, due, hafter, hbefore]
      show s.immutable.length + (s.memtableChannel + 0 + s.owed) + n =
        s.immutable.tail.length + (s.memtableChannel + 1 + s.owed) + n
      omega
    | flushing _ _ _ hc' => rcases hc' with hc' | hc' <;> (rw [hc'] at hc; cases hc)
    | popped _ _ _ hc' => rcases hc' with hc' | hc' | hc' <;> (rw [hc'] at hc; cases hc)
    | queued _ _ _ hc' | loading _ _ _ hc' | acked _ _ _ hc' | lost _ _ _ hc' =>
      rw [hc'] at hc
      cases hc
  | _ => exact h.task_moved rfl rfl id rfl

theorem ReachesFailing.stranded {compactionRate n : Nat} {s : Pipeline}
    (h : ReachesFailing compactionRate n s) :
    Stranded n s := by
  induction h with
  | start recovered sstables clock => exact stranded_start ..
  | @next n s s' h hs ih =>
    have hinv := h.reaches.invariant
    have hnot : s'.flusher = s.flusher → n + (decide (FlushFailed s s')).toNat = n := by
      intro hsame
      rw [decide_eq_false
        (by rintro ⟨hflushing, hwaiting⟩; rw [← hsame, hwaiting] at hflushing; cases hflushing)]
      rfl
    cases hs with
    | writer hs =>
      rw [hnot (by cases hs <;> rfl)]
      exact stranded_writer ih hs
    | flusher hs => exact stranded_flusher ih hinv hs
    | compactor hs =>
      rw [hnot (by cases hs <;> rfl)]
      exact stranded_compactor ih hinv hs

/-- Every flush that failed leaves a table in the queue that no signal is for, whatever happens
later: the queue never has fewer tables than flushes have failed, and while the flush task runs it
has exactly one for each of them and one for each signal that is queued, in progress or owed. -/
theorem failed_flushes_strand {compactionRate n : Nat} {s : Pipeline}
    (h : ReachesFailing compactionRate n s) :
    s.memtableChannel + s.inProgress + s.owed + n ≤ s.immutable.length ∧
      (s.flusher.running = true →
        s.immutable.length = s.memtableChannel + s.inProgress + s.owed + n) :=
  ⟨h.stranded.enough, h.stranded.exact⟩

/-- The flush of the first of two recovered tables fails, and the second signal flushes it. -/
theorem failed_flushes_strand_retried :
    ∃ s, ReachesFailing 10 1 s ∧ s.popped = [0] ∧ s.immutable = [1] ∧
    s.memtableChannel + s.inProgress + s.owed + 1 ≤ s.immutable.length ∧
      (s.flusher.running = true →
        s.immutable.length = s.memtableChannel + s.inProgress + s.owed + 1) := by
  have h := (ReachesFailing.start 2 0 0 : ReachesFailing 10 _ _)
  have h := h.next (.flusher (.receiveFlush rfl (by decide)))
  have h := h.next (.flusher (@FlusherStep.createFile _ 1 rfl (by decide)))
  have h := h.next (.flusher (.takeFront rfl rfl))
  have h := h.next (.flusher (.flushFails (Or.inl rfl)))
  have h := h.next (.flusher (.receiveFlush rfl (by decide)))
  have h := h.next (.flusher (@FlusherStep.createFile _ 2 rfl (by decide)))
  have h := h.next (.flusher (.takeFront rfl rfl))
  have h := h.next (.flusher (.flushToDisk rfl))
  have h := h.next (.flusher (.removeWal rfl))
  have h := h.next (.flusher (.sendLoad rfl rfl))
  have h := h.next (.compactor (.receiveLoad rfl rfl))
  have h := h.next (.compactor (.pushTable rfl rfl))
  have h := h.next (.compactor (.popTable rfl))
  exact ⟨_, h, rfl, rfl, failed_flushes_strand h⟩

/-! ## No deadlock -/

/-- Both tasks wait for a signal that is not there. -/
structure Rests (s : Pipeline) : Prop where
  flusher : s.flusher = .waiting ∧ s.memtableChannel = 0
  compactor : s.compactor = .waiting ∧ s.signal = []

/-- Nothing fails in the step. -/
structure Succeeds (s s' : Pipeline) : Prop where
  poisoned : s'.poisoned = s.poisoned
  flusher : s'.flusher.running = true
  compactor : s'.compactor.running = true

/-- The flush task takes the front that its signal is for. -/
theorem Invariant.front {s : Pipeline} (h : Invariant s) {path : Nat}
    (hf : s.flusher = .created path) :
    ∃ table rest, s.immutable = table :: rest := by
  have hroom := h.accounted.room
  simp only [inProgress, hf] at hroom
  cases hq : s.immutable with
  | nil =>
    rw [hq, List.length_nil] at hroom
    omega
  | cons table rest => exact ⟨table, rest, rfl⟩

/-- As long as both tasks run, one of them has a step that succeeds or both wait for a signal that
is not there. No send of theirs waits: the channel of loads is empty when the flush task sends, and
that of acknowledgements when the compaction task does. -/
theorem tasks_never_deadlock {compactionRate : Nat} {s : Pipeline} (h : Reaches compactionRate s)
    (hrunning : s.flusher.running = true ∧ s.compactor.running = true) :
    (s.Rests ∨ ∃ s', (FlusherStep s s' ∨ CompactorStep compactionRate s s') ∧ Succeeds s s') ∧
      (∀ path table, s.flusher = .sending path table → s.signal = []) ∧
      (s.compactor = .acking → s.sstableAck = 0) := by
  obtain ⟨hflusher, hcompactor⟩ := hrunning
  have hinv := h.invariant
  have flusherStep : ∀ {s'}, FlusherStep s s' → s'.poisoned = s.poisoned →
      s'.flusher.running = true →
      s'.compactor = s.compactor → ∃ s', (FlusherStep s s' ∨ CompactorStep compactionRate s s') ∧
          Succeeds s s' :=
    fun hs hp hf hc => ⟨_, Or.inl hs, hp, hf, by rw [hc]; exact hcompactor⟩
  have compactorStep : ∀ {s'}, CompactorStep compactionRate s s' → s'.poisoned = s.poisoned →
      s'.flusher = s.flusher → s'.compactor.running = true →
      ∃ s', (FlusherStep s s' ∨ CompactorStep compactionRate s s') ∧ Succeeds s s' :=
    fun hs hp hf hc => ⟨_, Or.inr hs, hp, by rw [hf]; exact hflusher, hc⟩
  cases hinv.stage with
  | flushing hfree hsignal hack hc hfront hfile hloaded =>
    have hwaiting : s.compactor = .waiting := hc.resolve_right fun hstopped => by
      rw [hstopped] at hcompactor
      cases hcompactor
    refine ⟨?_, fun _ _ _ => hsignal, fun _ => hack⟩
    cases hf : s.flusher with
    | waiting =>
      by_cases hchannel : s.memtableChannel = 0
      · exact Or.inl ⟨⟨hf, hchannel⟩, hwaiting, hsignal⟩
      · exact Or.inr (flusherStep (.receiveFlush hf (Nat.pos_of_ne_zero hchannel)) rfl rfl rfl)
    | creating => exact Or.inr (flusherStep (.createFile hf (Nat.lt_succ_self _)) rfl rfl rfl)
    | created path =>
      obtain ⟨table, rest, hq⟩ := hinv.front hf
      exact Or.inr (flusherStep (.takeFront hf hq) rfl rfl rfl)
    | writing path table => exact Or.inr (flusherStep (.flushToDisk hf) rfl rfl rfl)
    | removing path table => exact Or.inr (flusherStep (.removeWal hf) rfl rfl rfl)
    | sending path table => exact Or.inr (flusherStep (.sendLoad hf hcompactor) rfl rfl rfl)
    | awaiting table | emptyQueue | stopped =>
      simp [hf, Flusher.free, Flusher.running] at hfree hflusher
  | queued hf hsignal hack hc =>
    refine ⟨Or.inr (compactorStep (.receiveLoad hc hsignal) rfl rfl rfl), ?_, fun _ => hack⟩
    intro path table hsending
    cases hf.symm.trans hsending
  | loading hf hsignal hack hc _ hfile =>
    exact ⟨Or.inr (compactorStep (.pushTable hc hfile) rfl rfl rfl),
      fun _ _ _ => hsignal, fun _ => hack⟩
  | pushed hf hsignal hack hc =>
    refine ⟨Or.inr (compactorStep (.popTable hc) rfl rfl ?_), fun _ _ _ => hsignal, fun _ => hack⟩
    dsimp only
    split <;> rfl
  | popped hf hsignal hack hc =>
    refine ⟨Or.inr ?_, fun _ _ _ => hsignal, fun _ => hack⟩
    rcases hc with hc | hc | hc
    · exact compactorStep (.replaceTables hc) rfl rfl rfl
    · exact compactorStep (.removeStale hc) rfl rfl rfl
    · exact compactorStep (.sendAck hc hflusher) rfl rfl rfl
  | acked hf hsignal hack hc =>
    refine ⟨Or.inr (flusherStep (.receiveAck hf (by omega)) rfl rfl rfl),
      fun _ _ _ => hsignal, fun hacking => ?_⟩
    cases hc.symm.trans hacking
  | lost hf hsignal hack hc =>
    rw [hc] at hcompactor
    cases hcompactor

/-- A table is loaded and the flush task waits. -/
theorem tasks_never_deadlock_loading :
    ∃ s, Reaches 10 s ∧ (s.flusher.running = true ∧ s.compactor.running = true) ∧
    s.compactor = .loading 1 ∧
    (s.Rests ∨ ∃ s', (FlusherStep s s' ∨ CompactorStep 10 s s') ∧ Succeeds s s') ∧
      (∀ path table, s.flusher = .sending path table → s.signal = []) ∧
      (s.compactor = .acking → s.sstableAck = 0) := by
  have h := (Reaches.start 1 0 0 : Reaches 10 _)
  have h := h.next (.flusher (.receiveFlush rfl (by decide)))
  have h := h.next (.flusher (@FlusherStep.createFile _ 1 rfl (by decide)))
  have h := h.next (.flusher (.takeFront rfl rfl))
  have h := h.next (.flusher (.flushToDisk rfl))
  have h := h.next (.flusher (.removeWal rfl))
  have h := h.next (.flusher (.sendLoad rfl rfl))
  have h := h.next (.compactor (.receiveLoad rfl rfl))
  exact ⟨_, h, ⟨rfl, rfl⟩, rfl, tasks_never_deadlock h ⟨rfl, rfl⟩⟩

/-! ## After a failure -/

/-- The writer has passed the check of the flag and not swapped the table yet. -/
def Writer.passed : Writer → Option Unit
  | .checked => some ()
  | .rotating => some ()
  | _ => none

def passed (s : Pipeline) : Nat := (s.writers.filterMap Writer.passed).length

theorem passed_setWriter {s : Pipeline} {i : Nat} {w : Writer} (hi : s.writers[i]? = some w)
    (w' : Writer) :
    w.passed.toList.length + (s.setWriter i w').passed = w'.passed.toList.length + s.passed := by
  have h := (Engine.filterMap_set_perm Writer.passed hi w').length_eq
  rw [List.length_append, List.length_append] at h
  exact h

/-- A writer that does not pass the check now is counted no more than before. -/
theorem passed_setWriter_le {s : Pipeline} {i : Nat} {w w' : Writer} (hi : s.writers[i]? = some w)
    (hle : w'.passed.toList.length ≤ w.passed.toList.length) :
    (s.setWriter i w').passed ≤ s.passed := by
  have h := passed_setWriter hi w'
  omega

/-- With the flag set, a step makes a memtable only for a write that has passed the check. -/
theorem poisoned_step {compactionRate : Nat} {s s' : Pipeline} (hs : Step compactionRate s s')
    (hp : s.poisoned = true) :
    s'.poisoned = true ∧ s'.tables + s'.passed ≤ s.tables + s.passed := by
  cases hs with
  | flusher hs => cases hs <;> exact ⟨by first | exact hp | rfl, Nat.le_refl _⟩
  | compactor hs => cases hs <;> exact ⟨hp, Nat.le_refl _⟩
  | writer hs =>
    cases hs with
    | spawn =>
      refine ⟨hp, ?_⟩
      simp [passed, Writer.passed]
    | check hi hopen =>
      rw [hp] at hopen
      cases hopen
    | rotate hi =>
      have hpassed := passed_setWriter hi (.inserting s.active)
      refine ⟨hp, ?_⟩
      simp only [Writer.passed, Option.toList_some, Option.toList_none, List.length_singleton,
        List.length_nil] at hpassed
      show s.tables + 1 + (s.setWriter _ (.inserting s.active)).passed ≤ _
      omega
    | checkFails hi | fits hi | full hi | rotateFails hi | insert hi | send hi | sendFails hi =>
      exact ⟨hp, Nat.add_le_add_left (passed_setWriter_le hi (by simp [Writer.passed])) _⟩

/-- Once the flag is set it stays set, and from then on no more memtables are made than there were
writes past the check: no write that begins later swaps a table. -/
theorem poisoned_stops_writes {compactionRate : Nat} {s s' : Pipeline} (hp : s.poisoned = true)
    (h : Relation.ReflTransGen (Step compactionRate) s s') :
    s'.poisoned = true ∧ s'.tables + s'.passed ≤ s.tables + s.passed := by
  induction h with
  | refl => exact ⟨hp, Nat.le_refl _⟩
  | tail _ hs ih =>
    obtain ⟨hp', hle⟩ := poisoned_step hs ih.1
    exact ⟨hp', Nat.le_trans hle ih.2⟩

/-- A write past the check can still find its table full. -/
theorem rotates_late {compactionRate : Nat} {s : Pipeline} {i : Nat}
    (hi : s.writers[i]? = some .checked) :
    ∃ s', Relation.ReflTransGen (Step compactionRate) s s' ∧ s'.tables = s.tables + 1 := by
  have hset : (s.setWriter i .rotating).writers[i]? = some .rotating :=
    List.getElem?_set_self (List.getElem?_eq_some_iff.mp hi).1
  exact ⟨_, (Relation.ReflTransGen.single (.writer (.full hi))).tail (.writer (.rotate hset)), rfl⟩

/-- A writer has passed the check when the creation of a file fails, and finds its table full
afterwards. -/
theorem poisoned_stops_writes_late :
    ∃ s s', Reaches 10 s ∧ Relation.ReflTransGen (Step 10) s s' ∧
    s.poisoned = true ∧ s.passed = 1 ∧ s'.tables = s.tables + 1 ∧
    s'.poisoned = true ∧ s'.tables + s'.passed ≤ s.tables + s.passed := by
  obtain ⟨s, h, hi, hp, hpassed⟩ : ∃ s, Reaches 10 s ∧ s.writers[0]? = some .checked ∧
      s.poisoned = true ∧ s.passed = 1 := by
    have h := (Reaches.start 1 0 0 : Reaches 10 _)
    have h := h.next (.writer .spawn)
    have h := h.next (.writer (@WriterStep.check _ 0 rfl rfl))
    have h := h.next (.flusher (.receiveFlush rfl (by decide)))
    exact ⟨_, h.next (.flusher (.createFails rfl)), rfl, rfl, rfl⟩
  obtain ⟨s', hrun, htables⟩ := @rotates_late 10 _ 0 hi
  exact ⟨s, s', h, hrun, hp, hpassed, htables, poisoned_stops_writes hp hrun⟩

end Lsmlite.Pipeline
