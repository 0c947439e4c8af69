import Lsmlite.EngineLayers
import Lsmlite.SessionFiles

/-!
# The logs that are left

A log goes when its table is written to an SSTable, and its table leaves the queue later. So the
tables without a log are those popped and, from the removal to the pop, the queue's front. What is
left are the logs of the tables nobody has flushed: each has a signal, or a client or the flush task
has it in hand.
-/

namespace Lsmlite

/-- The flush task has removed a log and not sent the table to be loaded. -/
def Flusher.settling : Flusher → Bool
  | .sending _ => true
  | _ => false

/-- The compaction task has received a table that is still in the queue. -/
def Compactor.settling : Compactor → Bool
  | .loading _ => true
  | .popping _ => true
  | _ => false

/-- The flush task has received a signal and not removed the log. -/
def Flusher.working : Flusher → Bool
  | .creating => true
  | .created _ => true
  | .writing _ _ => true
  | .written _ _ => true
  | _ => false

namespace Engine

/-! ## The tables whose log is removed -/

def logsRemoved (e : Engine) : List Bool := e.tables.map (·.walRemoved)

def Removed (e : Engine) (i : Nat) : Prop := e.logsRemoved[i]? = some true

instance (e : Engine) (i : Nat) : Decidable (e.Removed i) := by
  unfold Removed
  infer_instance

/-- The queue's front has lost its log and is not popped yet. -/
def settling (e : Engine) : Bool := e.flusher.settling || !e.loads.isEmpty || e.compactor.settling

/-- The step starts or ends the settling of the queue's front. -/
def BackgroundAction.settles : BackgroundAction → Bool
  | .removeWal => true
  | .popTable => true
  | _ => false

theorem settling_flusher {e : Engine} (h : OneLoad e) (hf : e.flusher ≠ .awaiting)
    (hs : e.flusher ≠ .stopped) : e.settling = e.flusher.settling := by
  obtain ⟨hloads, hidle, _⟩ := h.of_flusher hf hs
  have hcompactor : e.compactor.settling = false := by
    cases hc : e.compactor <;> first | rfl | (rw [hc] at hidle; cases hidle)
  rw [settling, hloads, hcompactor]
  simp

theorem settling_compactor {e : Engine} (h : OneLoad e) (hb : e.compactor.busy = true) :
    e.settling = e.compactor.settling := by
  obtain ⟨hf, hloads, _⟩ := h.of_busy hb
  rw [settling, hf, hloads]
  rfl

/-- The removal of a log is where the queue's front starts to settle. -/
theorem settling_removeWal {c : Config} {e e' : Engine} (hone : OneLoad e) (hone' : OneLoad e')
    (hs : BackgroundStep c e .removeWal e') : e.settling = false ∧ e'.settling = true := by
  cases hs with
  | removeWal hf ht =>
    constructor
    · rw [settling_flusher hone (by simp [hf]) (by simp [hf]), hf]
      rfl
    · exact settling_flusher hone' nofun nofun

/-- The pop is where it ends. -/
theorem settling_popTable {c : Config} {e e' : Engine} (hone : OneLoad e) (hone' : OneLoad e')
    (hs : BackgroundStep c e .popTable e') : e.settling = true ∧ e'.settling = false := by
  cases hs with
  | @popTable currentLen hc =>
    constructor
    · rw [settling_compactor hone (by rw [hc]; rfl), hc]
      rfl
    · by_cases hrate : e.sstableCache.compactionRate ≤ currentLen
      · rw [settling_compactor hone' (by simp [hrate, Compactor.busy])]
        simp [hrate, Compactor.settling]
      · rw [settling_compactor hone' (by simp [hrate, Compactor.busy])]
        simp [hrate, Compactor.settling]

/-- No other step of the tasks starts or ends it. -/
theorem settling_same {c : Config} {e e' : Engine} {b : BackgroundAction} (hone : OneLoad e)
    (hone' : OneLoad e') (hs : BackgroundStep c e b e') (hb : b.settles = false) :
    e'.settling = e.settling := by
  -- Outside its rest the flush task alone decides, and so does the compaction task while it is
  -- busy.
  have hflush : e.flusher ≠ .awaiting → e.flusher ≠ .stopped → e'.flusher ≠ .awaiting →
      e'.flusher ≠ .stopped → e'.flusher.settling = e.flusher.settling →
          e'.settling = e.settling := by
    intro hf hst hf' hst' hsame
    rw [settling_flusher hone hf hst, settling_flusher hone' hf' hst', hsame]
  have hcompact : e.compactor.busy = true → e'.compactor.busy = true →
      e'.compactor.settling = e.compactor.settling → e'.settling = e.settling := by
    intro hb hb' hsame
    rw [settling_compactor hone hb, settling_compactor hone' hb', hsame]
  cases hs with
  | receiveFlush hf hch => exact hflush (by simp [hf]) (by simp [hf]) nofun nofun (by rw [hf]; rfl)
  | createFile hf hts => exact hflush (by simp [hf]) (by simp [hf]) nofun nofun (by rw [hf]; rfl)
  | takeFront hf hq => exact hflush (by simp [hf]) (by simp [hf]) nofun nofun (by rw [hf]; rfl)
  | writePart hf ht hcontent => rfl
  | finishFile hf ht hcontent =>
    exact hflush (by simp [hf]) (by simp [hf]) nofun nofun (by rw [hf]; rfl)
  | removeWal hf ht => cases hb
  | sendLoad hf =>
    rw [settling_flusher hone (by simp [hf]) (by simp [hf]), hf]
    simp [settling, loads, Flusher.settling, CompactionSignal.ts]
  | receiveAck hf hack =>
    rw [settling, settling, hf]
    rfl
  | ackLost hf hack hc =>
    rw [settling, settling, hf]
    rfl
  | stopFlusher hf hch =>
    rw [settling, settling, hf]
    rfl
  | receiveLoad hc hch =>
    rw [settling_compactor hone' rfl]
    simp [settling, loads, hch, CompactionSignal.ts, Compactor.settling]
  | pushTable hc hfile htable => exact hcompact (by rw [hc]; rfl) rfl (by rw [hc]; rfl)
  | popTable hc => cases hb
  | compact hc hts hiters htable => exact hcompact (by rw [hc]; rfl) rfl (by rw [hc]; rfl)
  | replaceTables hc => exact hcompact (by rw [hc]; rfl) rfl (by rw [hc]; rfl)
  | removeStale hc => exact hcompact (by rw [hc]; rfl) rfl (by rw [hc]; rfl)
  | sendAck hc =>
    rw [settling, settling, hc]
    rfl
  | stopCompactor hc hch =>
    rw [settling, settling, loads, loads, hc, hch]
    rfl

/-- The tables without a log are those popped, and the queue's front from the removal to the pop. -/
structure Cleared (e : Engine) : Prop where
  front : ∀ ts i, (e.flusher = .writing ts i ∨ e.flusher = .written ts i) → e.Front i
  settled : e.settling = true → ∃ i, e.Front i ∧ e.Removed i
  removed : ∀ i, e.Removed i → i ∈ e.popped ∨ e.settling = true ∧ e.Front i
  popped : ∀ i ∈ e.popped, e.Removed i

theorem cleared_start (c : Config) (stamp : LsmliteInner.Stamp) : Cleared (start c stamp) where
  front := by nofun
  settled := by nofun
  removed i hi := by
    cases i with
    | zero => cases hi
    | succ i => cases hi
  popped := by nofun

theorem Front.eq {e : Engine} {i j : Nat} (hi : e.Front i) (hj : e.Front j) : i = j := by
  obtain ⟨rest, hrest⟩ := hi
  obtain ⟨rest', hrest'⟩ := hj
  exact (List.cons.inj (hrest.symm.trans hrest')).1

/-- A step that removes no log and pops no table. -/
theorem Cleared.moved {e e' : Engine} (h : Cleared e)
    (hfront : ∀ ts i, (e'.flusher = .writing ts i ∨ e'.flusher = .written ts i) → e'.Front i)
    (hqueue : ∀ i, e.Front i → e'.Front i) (hremoved : ∀ i, e'.Removed i ↔ e.Removed i)
    (hpopped : e'.popped = e.popped) (hsettling : e'.settling = e.settling) : Cleared e' where
  front := hfront
  settled hs := by
    obtain ⟨i, hi, hgone⟩ := h.settled (hsettling ▸ hs)
    exact ⟨i, hqueue i hi, (hremoved i).mpr hgone⟩
  removed i hi := by
    rw [hpopped, hsettling]
    exact (h.removed i ((hremoved i).mp hi)).imp_right fun hs => ⟨hs.1, hqueue i hs.2⟩
  popped i hi := (hremoved i).mpr (h.popped i (hpopped ▸ hi))

/-- A step of neither task. -/
theorem Cleared.other {e e' : Engine} (h : Cleared e) (hqueue : ∀ i, e.Front i → e'.Front i)
    (hremoved : ∀ i, e'.Removed i ↔ e.Removed i) (hpopped : e'.popped = e.popped)
    (hflusher : e'.flusher = e.flusher) (hloads : e'.loads = e.loads)
    (hcompactor : e'.compactor = e.compactor) :
    Cleared e' := by
  refine h.moved (fun ts i hi => ?_) hqueue hremoved hpopped ?_
  · rw [hflusher] at hi
    exact hqueue i (h.front ts i hi)
  · rw [settling, settling, hflusher, hloads, hcompactor]

/-- A step of a task that leaves the queue and the logs. -/
theorem Cleared.task {e e' : Engine} (h : Cleared e) (himmutable : e'.immutable = e.immutable)
    (htables : e'.tables = e.tables) (hpopped : e'.popped = e.popped)
    (hsettling : e'.settling = e.settling)
    (hfront : ∀ ts i, (e'.flusher = .writing ts i ∨ e'.flusher = .written ts i) → e.Front i) :
    Cleared e' := by
  refine h.moved (fun ts i hi => ?_) (fun i hi => ?_) (fun i => ?_) hpopped hsettling
  · rw [Front, himmutable]
    exact hfront ts i hi
  · rwa [Front, himmutable]
  · rw [Removed, logsRemoved, htables]
    rfl

theorem cleared_client {c : Config} {e e' : Engine} {i : Nat} {a : ClientAction} (h : Cleared e)
    (hs : ClientStep c e i a e') : Cleared e' := by
  have hsame : ∀ {tables : List Table}, tables.map (·.walRemoved) = e.logsRemoved → ∀ j,
      (tables.map (·.walRemoved))[j]? = some true ↔ e.Removed j := by
    intro tables htables j
    rw [htables]
    rfl
  cases hs with
  | attemptOk hi htable hw =>
    exact h.other (fun _ hj => hj) (hsame (map_set_same htable rfl)) rfl rfl rfl rfl
  | retryOk hi htable hw =>
    exact h.other (fun _ hj => hj) (hsame (map_set_same htable rfl)) rfl rfl rfl rfl
  | @rotate w stamp hi hts =>
    refine h.other (fun _ hj => hj) (fun j => ?_) rfl rfl rfl rfl
    show ((e.tables ++ [freshTable c stamp]).map (·.walRemoved))[j]? = some true ↔
      e.logsRemoved[j]? = some true
    rw [List.map_append, ← logsRemoved, List.getElem?_append]
    split
    · rfl
    · rename_i hlt
      rw [List.getElem?_eq_none (Nat.le_of_not_lt hlt), List.map_singleton, List.getElem?_singleton]
      split <;> simp [freshTable]
  | append hi =>
    refine h.other (fun j hj => ?_) (fun _ => Iff.rfl) rfl rfl rfl rfl
    obtain ⟨rest, hrest⟩ := hj
    exact ⟨rest ++ [_], by show e.immutable ++ _ = _; rw [hrest, List.cons_append]⟩
  | @readMemtable key before table q hi htable hq =>
    cases LsmliteInner.readQuery q
      <;> exact h.other (fun _ hj => hj) (fun _ => Iff.rfl) rfl rfl rfl rfl
  | @readImmutable key before queue q hi hqueue hq =>
    cases LsmliteInner.readQuery q
      <;> exact h.other (fun _ hj => hj) (fun _ => Iff.rfl) rfl rfl rfl rfl
  | _ => exact h.other (fun _ hj => hj) (fun _ => Iff.rfl) rfl rfl rfl rfl

theorem cleared_step {c : Config} {e e' : Engine} {a : Action} (h : Cleared e) (hone : OneLoad e)
    (hs : step c e a = some e') : Cleared e' := by
  have hone' := one_load_step hone hs
  cases step_cases hs with
  | spawn hopen => exact h.other (fun _ hj => hj) (fun _ => Iff.rfl) rfl rfl rfl rfl
  | drop hopen hidle =>
    refine h.other (fun _ hj => hj) (fun _ => Iff.rfl) rfl rfl ?_ rfl
    rw [loads, List.filterMap_append]
    exact List.append_nil _
  | client hc => exact cleared_client h hc
  | background hb =>
    have hsettling := settling_same hone hone' hb
    cases hb with
    | receiveFlush hf hch => exact h.task rfl rfl rfl (hsettling rfl) (by simp)
    | createFile hf hts => exact h.task rfl rfl rfl (hsettling rfl) (by simp)
    | @takeFront ts table rest hf hq =>
      refine h.task rfl rfl rfl (hsettling rfl) fun ts' i hi => ?_
      simp only [Flusher.writing.injEq, reduceCtorEq, or_false] at hi
      exact ⟨rest, hi.2 ▸ hq⟩
    | writePart hf ht hcontent => exact h.task rfl rfl rfl (hsettling rfl) h.front
    | @finishFile ts table t content hf ht hcontent =>
      refine h.task rfl rfl rfl (hsettling rfl) fun ts' i hi => ?_
      simp only [reduceCtorEq, Flusher.written.injEq, false_or] at hi
      exact hi.2 ▸ h.front ts table (Or.inl hf)
    | @removeWal ts table t hf ht =>
      obtain ⟨hbefore, hafter⟩ := settling_removeWal (c := c) hone hone' (.removeWal hf ht)
      obtain ⟨hlt, rfl⟩ := List.getElem?_eq_some_iff.mp ht
      have hfront := h.front ts table (Or.inr hf)
      have hset : (e.tables.set table { e.tables[table] with walRemoved := true }).map
          (·.walRemoved) = e.logsRemoved.set table true := by
        rw [List.map_set]
        rfl
      have hgone : (e.logsRemoved.set table true)[table]? = some true :=
        List.getElem?_set_self (by rw [logsRemoved, List.length_map]; exact hlt)
      refine ⟨by simp, fun _ => ⟨table, hfront, ?_⟩, fun j hj => ?_, fun j hj => ?_⟩
      · rw [Removed, logsRemoved, hset]
        exact hgone
      · rw [Removed, logsRemoved, hset] at hj
        by_cases heq : table = j
        · subst heq
          exact Or.inr ⟨hafter, hfront⟩
        · rw [List.getElem?_set_ne heq] at hj
          rcases h.removed j hj with hpopped | ⟨hsettling, _⟩
          · exact Or.inl hpopped
          · rw [hbefore] at hsettling
            cases hsettling
      · rw [Removed, logsRemoved, hset]
        by_cases heq : table = j
        · rw [← heq]
          exact hgone
        · rw [List.getElem?_set_ne heq]
          exact h.popped j hj
    | sendLoad hf => exact h.task rfl rfl rfl (hsettling rfl) (by simp)
    | receiveAck hf hack => exact h.task rfl rfl rfl (hsettling rfl) (by simp)
    | ackLost hf hack hc => exact h.task rfl rfl rfl (hsettling rfl) (by simp)
    | stopFlusher hf hch => exact h.task rfl rfl rfl (hsettling rfl) (by simp)
    | receiveLoad hc hch => exact h.task rfl rfl rfl (hsettling rfl) h.front
    | pushTable hc hfile htable => exact h.task rfl rfl rfl (hsettling rfl) h.front
    | popTable hc =>
      obtain ⟨hbefore, hafter⟩ := settling_popTable (c := c) hone hone' (.popTable hc)
      obtain ⟨hf, _, _⟩ := hone.of_busy (by rw [hc]; rfl)
      obtain ⟨i, hfront, hgone⟩ := h.settled hbefore
      obtain ⟨rest, hrest⟩ := hfront
      refine ⟨by simp [hf], fun hs => ?_, fun j hj => ?_, fun j hj => ?_⟩
      · rw [hafter] at hs
        cases hs
      · left
        simp only [hrest, List.head?_cons, Option.toList_some, List.mem_append, List.mem_singleton]
        exact (h.removed j hj).imp_right fun hs => hs.2.eq ⟨rest, hrest⟩
      · simp only [hrest, List.head?_cons, Option.toList_some, List.mem_append,
          List.mem_singleton] at hj
        rcases hj with hj | rfl
        · exact h.popped j hj
        · exact hgone
    | compact hc hts hiters htable => exact h.task rfl rfl rfl (hsettling rfl) h.front
    | replaceTables hc => exact h.task rfl rfl rfl (hsettling rfl) h.front
    | removeStale hc => exact h.task rfl rfl rfl (hsettling rfl) h.front
    | sendAck hc => exact h.task rfl rfl rfl (hsettling rfl) h.front
    | stopCompactor hc hch => exact h.task rfl rfl rfl (hsettling rfl) h.front

section
variable {c : Config} {dir : List DirEntry} {clock : Nat} {sstables : List SSTableArtifact}
  {wals : List WalArtifact} {stamps : WalArtifact → LsmliteInner.Stamp} {fresh : LsmliteInner.Stamp}
  {e : Engine}

theorem Reopened.one_load (h : Reopened c dir clock sstables wals stamps fresh e) : e.OneLoad := by
  refine Or.inl ?_
  rw [loads, h.signal, h.compactor, h.ack]
  exact Nat.zero_le _

theorem Reopened.settling (h : Reopened c dir clock sstables wals stamps fresh e) :
    e.settling = false := by
  rw [Engine.settling, loads, h.flusher, h.signal, h.compactor]
  rfl

theorem Reopened.cleared (h : Reopened c dir clock sstables wals stamps fresh e) : Cleared e where
  front ts i hi := by simp [h.flusher] at hi
  settled hs := by simp [h.settling] at hs
  removed i hi := by
    rw [Removed, logsRemoved, List.getElem?_map, Option.map_eq_some_iff] at hi
    obtain ⟨t, ht, hgone⟩ := hi
    have hkept := h.kept t (List.mem_of_getElem? ht)
    rw [hkept] at hgone
    cases hgone
  popped i hi := by simp [h.popped] at hi

theorem Reopened.placed (h : Reopened c dir clock sstables wals stamps fresh e) : Placed e := by
  have hlength := h.length
  constructor
  · rw [← List.length_pos_iff]
    omega
  · have hactive : e.active = wals.length - 1 := by
      rw [active, hlength]
      omega
    rw [h.popped, h.queue, waiting, h.clients, hactive]
    simp

end

end Engine

/-! ## The logs a restart scans -/

theorem isLog_wal (ts : Nat) (content : Blob) : isLog (walEntry ts content) = true := by
  have hpath : (walEntry ts content).path = Path.join [dot] (generateWalFileName ts) := rfl
  simp [isLog, hpath, fromPath_wal]

theorem isLog_sstable (ts : Nat) (content : Blob) : isLog (sstableEntry ts content) = false := by
  have hpath : (sstableEntry ts content).path = Path.join [dot] (generateSstableFileName ts) := rfl
  simp [isLog, hpath, fromPath_sstable]

theorem Lists.logs {dir : List DirEntry} {sstables wals : List StoredFile}
    (h : Lists dir sstables wals) :
    dir.filter isLog = wals.map fun f => walEntry f.ts f.content := by
  induction h with
  | nil => rfl
  | sstable f _ ih => rw [List.filter_cons, isLog_sstable, if_neg Bool.false_ne_true, ih]
  | wal f _ ih => rw [List.filter_cons, isLog_wal, if_pos rfl, ih, List.map_cons]
  | other hother _ ih =>
    rw [List.filter_cons, isLog, hother]
    exact ih

/-- A restart scans every log once. -/
theorem Generated.scanned_length {dir : List DirEntry} {clock : Nat} (h : Generated dir clock)
    {sstables : List SSTableArtifact} {wals : List WalArtifact}
    (hscan : scanDirectory dir = some (sstables, wals)) :
    wals.length = (dir.filter isLog).length := by
  obtain ⟨files, logs, hlists⟩ := h.lists hscan
  have hsame := hlists.scanDirectory.symm.trans hscan
  simp only [Option.some.injEq, Prod.mk.injEq] at hsame
  rw [← hsame.2, hlists.logs, List.length_map, List.length_map]
  exact (newestFirst_perm _ logs).length_eq

namespace Engine

/-- The tables that have their log. -/
def logged (e : Engine) : List Table := e.tables.filter fun t => !t.walRemoved

theorem Stamped.logs {e : Engine} (h : Stamped e) :
    e.disk.filter isLog = e.logged.map logEntry := by
  obtain ⟨tss, hwals, _, _⟩ := h.wals
  rw [disk, List.filter_append, List.filter_eq_nil_iff.mpr,
    List.nil_append, List.filter_eq_self.mpr]
  · rfl
  · intro d hd
    obtain ⟨t, ht, rfl⟩ := List.mem_map.mp hd
    have hmem : t.inner.wal.filename ∈ e.walFiles := List.mem_map_of_mem (List.mem_filter.mp ht).1
    rw [hwals] at hmem
    obtain ⟨ts, _, hname⟩ := List.mem_map.mp hmem
    rw [logEntry, ← hname]
    exact isLog_wal ts _
  · intro d hd
    obtain ⟨f, _, rfl⟩ := List.mem_map.mp hd
    exact Bool.not_eq_true _ ▸ isLog_sstable f.ts f.content

/-- Table `i` has its log. -/
def hasLog (e : Engine) (i : Nat) : Bool := (e.tables[i]?).any fun t => !t.walRemoved

/-- The path under which a restart finds the log of table `i`. -/
def logPath (e : Engine) (i : Nat) : Option PathBuf :=
  (e.tables[i]?).map fun t => (logEntry t).path

theorem hasLog_iff {e : Engine} {i : Nat} :
    e.hasLog i = true ↔ i < e.tables.length ∧ ¬ e.Removed i := by
  rw [hasLog, Removed, logsRemoved, List.getElem?_map]
  by_cases hi : i < e.tables.length
  · rw [List.getElem?_eq_getElem hi]
    simp [hi]
  · rw [List.getElem?_eq_none (Nat.le_of_not_lt hi)]
    simp [hi]

/-- The elements of a list that meet a condition, by their places. -/
theorem filter_places {α β : Type} (p : α → Bool) (f : α → β) (xs : List α) :
    (xs.filter p).map (fun x => some (f x)) =
      ((List.range xs.length).filter fun i => (xs[i]?).any p).map fun i => (xs[i]?).map f := by
  induction xs using List.reverseRecOn with
  | nil => rfl
  | append_singleton xs x ih =>
    have hbefore : ∀ i ∈ List.range xs.length, (xs ++ [x])[i]? = xs[i]? := fun i hi =>
      List.getElem?_append_left (List.mem_range.mp hi)
    have hfilter : ((List.range xs.length).filter fun i => ((xs ++ [x])[i]?).any p) =
        (List.range xs.length).filter fun i => (xs[i]?).any p :=
      List.filter_congr fun i hi => by rw [hbefore i hi]
    have hmap : (((List.range xs.length).filter fun i => (xs[i]?).any p).map fun i =>
        ((xs ++ [x])[i]?).map f) =
        ((List.range xs.length).filter fun i => (xs[i]?).any p).map fun i => (xs[i]?).map f :=
      List.map_congr_left fun i hi => by rw [hbefore i (List.mem_filter.mp hi).1]
    rw [List.length_append, List.length_singleton, List.range_succ, List.filter_append,
      List.filter_append, List.map_append, List.map_append, hfilter, hmap, ih]
    congr 1
    by_cases hx : p x = true
    · simp [hx]
    · simp [hx]

theorem logged_places (e : Engine) : e.logged.map (fun t => some (logEntry t).path) =
    ((List.range e.tables.length).filter e.hasLog).map e.logPath :=
  filter_places _ _ e.tables

/-- A table in a client's hands has its log. -/
theorem hasLog_waiting {e : Engine} (hp : Placed e) (hc : Cleared e) {i : Nat}
    (hi : i ∈ e.waiting) :
    e.hasLog i = true := by
  have hnodup : (e.popped ++ e.immutable ++ e.waiting).Nodup :=
    hp.once.nodup_iff.mpr List.nodup_range
  have hlt : i < e.active := List.mem_range.mp (hp.once.mem_iff.mp (List.mem_append_right _ hi))
  refine hasLog_iff.mpr ⟨?_, fun hgone => ?_⟩
  · unfold active at hlt
    omega
  · have hqueued : i ∈ e.popped ++ e.immutable := by
      rcases hc.removed i hgone with hpopped | ⟨_, rest, hrest⟩
      · exact List.mem_append_left _ hpopped
      · rw [hrest]
        exact List.mem_append_right _ (List.mem_cons_self ..)
    exact (List.nodup_append.mp hnodup).2.2 i hqueued i hi rfl

end Engine

end Lsmlite
