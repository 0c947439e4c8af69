import Lsmlite.MapRuns
import Lsmlite.ReplayRoom
import Lsmlite.TableOrder

/-!
# The tables on disk

The `.sstable` files that are finished have the records of every table that was flushed, and one
that a compaction made changes nothing as long as those it was made from are there. A compaction's
cleanup takes them all.
-/

namespace Lsmlite
open KeyValue

/-- The file that the flush task has not finished. -/
def Flusher.unfinished : Flusher → List Nat
  | .created ts => [ts]
  | .writing ts _ => [ts]
  | _ => []

/-- The file is finished, and the log is still there. -/
def Flusher.finished : Flusher → Bool
  | .written _ _ => true
  | _ => false

/-- The merged table is on disk with those it was made from. -/
def Compactor.merged : Compactor → Bool
  | .replacing _ _ => true
  | .cleaning _ => true
  | _ => false

/-! ## Tables opened from files -/

theorem SSTable.Holds.readOn {h : Hashing} {s s' : SSTable} {es : Entries} (hs : s.Holds h es)
    (hread : s.ReadOn s') :
    s'.Holds h es where
  content := by
    rw [hread.fd.content]
    exact hs.content
  faults := by
    have hsuffix := hread.fd.faults
    rw [hs.faults] at hsuffix
    exact List.suffix_nil.mp hsuffix
  dataBlockEnd := by
    rw [hread.index]
    exact hs.dataBlockEnd
  maps := by
    rw [hread.index]
    exact hs.maps
  formed := by
    rw [hread.index]
    exact hs.formed
  added := by
    rw [hread.index]
    exact hs.added
  sorted := hs.sorted
  fits := hs.fits
  size := hs.size

/-- A table that is opened from a file has what the file holds. -/
theorem FileHolds.of {h : Hashing} {s : SSTable} {content : Blob} {es : Entries}
    (hfile : FileHolds h content es) (hs : s.Of content) : s.Holds h es := by
  obtain ⟨opened, hload, hread⟩ := hs
  obtain ⟨s', hload', hholds⟩ := hfile.loadTable
  cases hload.symm.trans hload'
  exact hholds.readOn hread

theorem OpenedFrom.holds {h : Hashing} {ess : List Entries} {cache : List SSTable}
    {fs : List SstFile} (hopened : OpenedFrom cache fs)
    (hholds : List.Forall₂ (fun (f : SstFile) es => FileHolds h f.content es) fs ess) :
    SSTableCache.Holds h cache ess := by
  induction hopened generalizing ess with
  | nil =>
    cases hholds
    exact .nil
  | cons hs _ ih =>
    cases hholds with
    | cons hfile hrest => exact .cons (hfile.of hs) (ih hrest)

namespace Engine

/-- The tables whose files are finished, oldest first. -/
def finishedTables (e : Engine) : List Nat :=
  e.popped ++ if e.settling || e.flusher.finished then e.immutable.head?.toList else []

/-- The records of table `i`, those it was recovered from first. -/
def recordsOf (recovered : List Entries) (e : Engine) (i : Nat) : Entries :=
  recovered.getD i [] ++ e.writesOf i

def finishedRecords (recovered : List Entries) (e : Engine) : Entries :=
  e.finishedTables.flatMap (e.recordsOf recovered)

/-- A finished file is within the limits of the format, a merge takes each key's newest record, and
no compaction is cleaned up. -/
def KeepsTables (recovered : List Entries) (e : Engine) (a : Action) : Prop :=
  match a with
  | .background .finishFile =>
    match e.flusher with
    | .writing _ i => Representable (ofWrites (e.recordsOf recovered i))
    | _ => True
  | .background (.compact _) =>
    match tablesToIterators e.sstableCache.cache with
    | some (iters, _) =>
      RootsNewest iters ∧ ∀ pushed, Merge.pushed iters = some pushed →
        Representable (pushed.map entryOf)
    | none => True
  | .background .removeStale => False
  | _ => True

/-- Compacting tables that agree keeps them. -/
theorem keepsTables_of_agree {recovered : List Entries} {e : Engine} {ts : Nat}
    {iters : List SSTableIterator} {cache : List SSTable}
    (hiters : tablesToIterators e.sstableCache.cache = some (iters, cache))
    (hagree : TablesAgree iters)
    (hrep : ∀ pushed, Merge.pushed iters = some pushed → Representable (pushed.map entryOf)) :
    e.KeepsTables recovered (.background (.compact ts)) := by
  simp only [KeepsTables, hiters]
  exact ⟨hagree.rootsNewest, hrep⟩

/-- The step finishes no file and has no part in a compaction. -/
def Action.leavesTables : Action → Bool
  | .background .finishFile => false
  | .background (.compact _) => false
  | .background .removeStale => false
  | _ => true

theorem keepsTables_of_leaves {recovered : List Entries} {e : Engine} {a : Action}
    (ha : a.leavesTables = true) :
    e.KeepsTables recovered a := by
  unfold KeepsTables
  split <;> trivial

/-! ## Which tables are finished -/

theorem settling_client {e e' : Engine} (h : TasksSame e e') : e'.settling = e.settling := by
  rw [settling, settling, h.flusher, h.compactor, h.loads]

/-- The front of the queue while its file is finished. -/
theorem Cleared.finished_front {e : Engine} (h : Cleared e)
    (hfin : (e.settling || e.flusher.finished) = true) :
    ∃ i, e.Front i := by
  rcases Bool.or_eq_true_iff.mp hfin with hset | hfl
  · obtain ⟨i, hi, _⟩ := h.settled hset
    exact ⟨i, hi⟩
  · cases hf : e.flusher with
    | written ts i => exact ⟨i, h.front ts i (Or.inr hf)⟩
    | _ =>
      rw [hf] at hfl
      cases hfl

theorem finishedTables_client {c : Config} {e e' : Engine} {i : Nat} {a : ClientAction}
    (h : Cleared e) (hs : ClientStep c e i a e') : e'.finishedTables = e.finishedTables := by
  have htasks := hs.tasks_same
  have hqueue : (e.settling || e.flusher.finished) = true →
      e'.immutable.head? = e.immutable.head? := by
    intro hfin
    obtain ⟨j, rest, hrest⟩ := h.finished_front hfin
    cases hs with
    | append hi =>
      show (e.immutable ++ _).head? = _
      rw [hrest]
      rfl
    | @readMemtable key before table q hi htable hq => cases LsmliteInner.readQuery q <;> rfl
    | @readImmutable key before queue q hi hqueue hq => cases LsmliteInner.readQuery q <;> rfl
    | _ => rfl
  rw [finishedTables, finishedTables, settling_client htasks, htasks.flusher, htasks.popped]
  by_cases hfin : (e.settling || e.flusher.finished) = true
  · rw [if_pos hfin, if_pos hfin, hqueue hfin]
  · rw [if_neg hfin, if_neg hfin]

/-- A step of a task that leaves the queue, starts or ends no settling and finishes no file. -/
theorem finishedTables_task {e e' : Engine} (hsettling : e'.settling = e.settling)
    (hfinished : e'.flusher.finished = e.flusher.finished) (himmutable : e'.immutable = e.immutable)
    (hpopped : e'.popped = e.popped) : e'.finishedTables = e.finishedTables := by
  rw [finishedTables, finishedTables, hsettling, hfinished, himmutable, hpopped]

/-- Only the end of a file adds a table. -/
theorem finishedTables_background {c : Config} {e e' : Engine} {b : BackgroundAction}
    (hone : OneLoad e) (hone' : OneLoad e') (hb : BackgroundStep c e b e')
    (hfile : b ≠ .finishFile) :
    e'.finishedTables = e.finishedTables := by
  have hsettling := settling_same hone hone' hb
  cases hb with
  | receiveFlush hf hch => exact finishedTables_task (hsettling rfl) (by rw [hf]; rfl) rfl rfl
  | createFile hf hts => exact finishedTables_task (hsettling rfl) (by rw [hf]; rfl) rfl rfl
  | takeFront hf hq => exact finishedTables_task (hsettling rfl) (by rw [hf]; rfl) rfl rfl
  | writePart hf ht hcontent => exact finishedTables_task (hsettling rfl) rfl rfl rfl
  | finishFile hf ht hcontent => exact absurd rfl hfile
  | removeWal hf ht =>
    obtain ⟨_, hafter⟩ := settling_removeWal (c := c) hone hone' (.removeWal hf ht)
    rw [finishedTables, finishedTables, hafter, hf]
    simp [Flusher.finished]
  | sendLoad hf => exact finishedTables_task (hsettling rfl) (by rw [hf]; rfl) rfl rfl
  | receiveAck hf hack => exact finishedTables_task (hsettling rfl) (by rw [hf]; rfl) rfl rfl
  | ackLost hf hack hc => exact finishedTables_task (hsettling rfl) (by rw [hf]; rfl) rfl rfl
  | stopFlusher hf hch => exact finishedTables_task (hsettling rfl) (by rw [hf]; rfl) rfl rfl
  | popTable hc =>
    obtain ⟨hbefore, hafter⟩ := settling_popTable (c := c) hone hone' (.popTable hc)
    obtain ⟨hf, _, _⟩ := hone.of_busy (by rw [hc]; rfl)
    rw [finishedTables, finishedTables, hbefore, hafter]
    simp [hf, Flusher.finished]
  | _ => exact finishedTables_task (hsettling rfl) rfl rfl rfl

theorem mem_finishedTables {e : Engine} {i : Nat} (hi : i ∈ e.finishedTables) :
    i ∈ e.popped ++ e.immutable := by
  rcases List.mem_append.mp hi with hi | hi
  · exact List.mem_append_left _ hi
  · split at hi
    · exact List.mem_append_right _ (List.mem_of_mem_head? (Option.mem_toList.mp hi))
    · cases hi

/-- Their records stay. -/
theorem finishedRecords_step {c : Config} {e e' : Engine} {a : Action} (recovered : List Entries)
    (hp : Placed e) (hs : step c e a = some e') (htables : e'.finishedTables = e.finishedTables) :
    e'.finishedRecords recovered = e.finishedRecords recovered := by
  rw [finishedRecords, finishedRecords, htables]
  apply List.flatMap_congr
  intro i hi
  rw [recordsOf, recordsOf, writesOf_step hs (hp.lt (mem_finishedTables hi))]

/-! ## What the files hold -/

/-- Of the engine's files `done` are finished and hold `ess`, which read as the tables do; until a
merged table is written, those that are not on their way to the cache are behind its tables. -/
structure OnDisk (h : Hashing) (base : Entries) (recovered : List Entries)
    (done last : List SstFile) (ess : List Entries) (e : Engine) : Prop where
  files : e.files.Perm (done ++ last)
  unfinished : last.map (·.ts) = e.flusher.unfinished
  sorted : ((done ++ last).map (·.ts)).Pairwise (· < ·)
  holds : List.Forall₂ (fun (f : SstFile) es => FileHolds h f.content es) done ess
  same : SameMap (base ++ e.finishedRecords recovered) ess.reverse
  cache : e.compactor.merged = false → ∃ behind under, done = behind ++ under ∧
    under.map (·.ts) = e.underWay ∧ OpenedFrom e.sstableCache.cache behind.reverse

section
variable {h : Hashing} {base : Entries} {recovered : List Entries} {done last : List SstFile}
  {ess : List Entries} {e e' : Engine}

/-- A step that leaves the files. -/
theorem OnDisk.moved (ho : OnDisk h base recovered done last ess e) (hfiles : e'.files = e.files)
    (hunfinished : e'.flusher.unfinished = e.flusher.unfinished)
    (hrecords : e'.finishedRecords recovered = e.finishedRecords recovered)
    (hmerged : e'.compactor.merged = false → e.compactor.merged = false)
    (hunder : e'.underWay = e.underWay)
    (hcache : List.Forall₂ SSTable.ReadOn e.sstableCache.cache e'.sstableCache.cache) :
    OnDisk h base recovered done last ess e' where
  files := hfiles ▸ ho.files
  unfinished := ho.unfinished.trans hunfinished.symm
  sorted := ho.sorted
  holds := ho.holds
  same := by
    rw [hrecords]
    exact ho.same
  cache hm := by
    obtain ⟨behind, under, hdone, hts, hopened⟩ := ho.cache (hmerged hm)
    exact ⟨behind, under, hdone, hts.trans hunder.symm, hopened.readOn hcache⟩

/-- The merged table replaces the cache. -/
theorem OnDisk.merged (ho : OnDisk h base recovered done last ess e) (hfiles : e'.files = e.files)
    (hunfinished : e'.flusher.unfinished = e.flusher.unfinished)
    (hrecords : e'.finishedRecords recovered = e.finishedRecords recovered)
    (hmerged : e'.compactor.merged = true) : OnDisk h base recovered done last ess e' where
  files := hfiles ▸ ho.files
  unfinished := ho.unfinished.trans hunfinished.symm
  sorted := ho.sorted
  holds := ho.holds
  same := by
    rw [hrecords]
    exact ho.same
  cache hm := by
    rw [hmerged] at hm
    cases hm

theorem onDisk_start (h : Hashing) (c : Config) (stamp : LsmliteInner.Stamp) :
    OnDisk h [] [] [] [] [] (start c stamp) where
  files := .nil
  unfinished := rfl
  sorted := .nil
  holds := .nil
  same _ := rfl
  cache _ := ⟨[], [], rfl, rfl, .nil⟩

/-! ## The files that change -/

/-- The flush task's file is the last one. -/
theorem OnDisk.last_file (ho : OnDisk h base recovered done last ess e) {ts : Nat}
    (hf : e.flusher.unfinished = [ts]) (content : Blob) :
    (putFile e.files ts content).Perm (done ++ [⟨ts, content⟩]) ∧
      ((done ++ [(⟨ts, content⟩ : SstFile)]).map (·.ts)).Pairwise (· < ·) := by
  have hlast := ho.unfinished.trans hf
  obtain ⟨f, rest, rfl, hts, hrest⟩ := List.map_eq_cons_iff.mp hlast
  obtain rfl := List.map_eq_nil_iff.mp hrest
  have hsorted := ho.sorted
  rw [List.map_append, List.pairwise_append] at hsorted
  have hdone : putFile done ts content = done := by
    refine (List.map_congr_left fun g hg => ?_).trans (List.map_id done)
    have hlt := hsorted.2.2 g.ts (List.mem_map_of_mem hg) ts (by simp [hts])
    rw [if_neg (Nat.ne_of_lt hlt)]
    rfl
  have hput := ho.files.map fun g => if g.ts = ts then { g with content } else g
  rw [List.map_append, List.map_singleton, if_pos hts, hts] at hput
  rw [putFile] at hdone
  rw [hdone] at hput
  refine ⟨hput, ?_⟩
  have hsame := ho.sorted
  rw [List.map_append, List.map_singleton, hts] at hsame
  rwa [List.map_append, List.map_singleton]

theorem OnDisk.nothing_last (ho : OnDisk h base recovered done last ess e)
    (hf : e.flusher.unfinished = []) :
    last = [] :=
  List.map_eq_nil_iff.mp (ho.unfinished.trans hf)

/-- A new file is the newest. -/
theorem OnDisk.sorted_snoc (ho : OnDisk h base recovered done [] ess e) (hstamped : Stamped e)
    {f : SstFile} (hts : e.clock < f.ts) : ((done ++ [f]).map (·.ts)).Pairwise (· < ·) := by
  have hsorted := ho.sorted
  rw [List.append_nil] at hsorted
  rw [List.map_append, List.pairwise_append]
  refine ⟨hsorted, List.pairwise_singleton _ _, fun ts hmem ts' hmem' => ?_⟩
  obtain ⟨g, hg, rfl⟩ := List.mem_map.mp hmem
  rw [List.mem_singleton.mp hmem']
  exact (hstamped.files_le g (ho.files.mem_iff.mpr (List.mem_append_left _ hg))).trans_lt hts

theorem OnDisk.created (ho : OnDisk h base recovered done last ess e) (hstamped : Stamped e)
    {ts : Nat} (hf : e.flusher = .creating) (hts : e.clock < ts)
    (hrecords : ({ e with flusher := .created ts, files := e.files ++ [⟨ts, []⟩], clock := ts } :
      Engine).finishedRecords recovered = e.finishedRecords recovered) :
    OnDisk h base recovered done [⟨ts, []⟩] ess
      { e with flusher := .created ts, files := e.files ++ [⟨ts, []⟩], clock := ts } where
  files := by
    obtain rfl := ho.nothing_last (by rw [hf]; rfl)
    have hfiles := ho.files
    rw [List.append_nil] at hfiles
    exact hfiles.append_right _
  unfinished := rfl
  sorted := by
    obtain rfl := ho.nothing_last (by rw [hf]; rfl)
    exact ho.sorted_snoc hstamped hts
  holds := ho.holds
  same := by
    rw [hrecords]
    exact ho.same
  cache hm := by
    obtain ⟨behind, under, hdone, hunder, hopened⟩ := ho.cache hm
    refine ⟨behind, under, hdone, ?_, hopened⟩
    rw [hunder, underWay, hf]
    rfl

theorem OnDisk.part_written (ho : OnDisk h base recovered done last ess e) {ts table : Nat}
    {content : Blob} (hf : e.flusher = .writing ts table)
    (hrecords : ({ e with files := putFile e.files ts content } :
      Engine).finishedRecords recovered = e.finishedRecords recovered) :
    OnDisk h base recovered done [⟨ts, content⟩] ess
      { e with files := putFile e.files ts content } where
  files := (ho.last_file (by rw [hf]; rfl) content).1
  unfinished := by
    rw [hf]
    rfl
  sorted := (ho.last_file (by rw [hf]; rfl) content).2
  holds := ho.holds
  same := by
    rw [hrecords]
    exact ho.same
  cache := ho.cache

/-- The end of a file. -/
theorem OnDisk.file_finished (ho : OnDisk h base recovered done last ess e) (hone : OneLoad e)
    (hcleared : Cleared e) {ts table : Nat} {content : Blob} (hf : e.flusher = .writing ts table)
    (hfile : FileHolds h content (ofWrites (e.recordsOf recovered table))) :
    OnDisk h base recovered (done ++ [⟨ts, content⟩]) []
      (ess ++ [ofWrites (e.recordsOf recovered table)])
      { e with flusher := .written ts table, files := putFile e.files ts content } where
  files := by
    rw [List.append_nil]
    exact (ho.last_file (by rw [hf]; rfl) content).1
  unfinished := rfl
  sorted := by
    rw [List.append_nil]
    exact (ho.last_file (by rw [hf]; rfl) content).2
  holds := List.rel_append ho.holds (.cons hfile .nil)
  same := by
    obtain ⟨rest, hrest⟩ := hcleared.front ts table (Or.inl hf)
    obtain ⟨hloads, hidle, _⟩ := hone.of_flusher (by simp [hf]) (by simp [hf])
    have hsettling : e.settling = false := by
      rw [settling_flusher hone (by simp [hf]) (by simp [hf]), hf]
      rfl
    have hbefore : e.finishedRecords recovered = e.popped.flatMap (e.recordsOf recovered) := by
      rw [finishedRecords, finishedTables, hsettling, hf]
      simp [Flusher.finished]
    have hafter : ({ e with flusher := .written ts table, files := putFile e.files ts content } :
        Engine).finishedRecords recovered = e.finishedRecords recovered ++
            e.recordsOf recovered table := by
      rw [hbefore, finishedRecords, finishedTables]
      simp only [Flusher.finished, Bool.or_true, if_true, hrest, List.head?_cons,
        Option.toList_some, List.flatMap_append, List.flatMap_singleton]
      rfl
    rw [hafter, ← List.append_assoc, List.reverse_append]
    exact (sameMap_rule h).push _ ho.same
  cache hm := by
    obtain ⟨hloads, hidle, _⟩ := hone.of_flusher (by simp [hf]) (by simp [hf])
    obtain ⟨behind, under, hdone, hunder, hopened⟩ := ho.cache hm
    have hready := Compactor.ready_of_idle hidle
    rw [underWay, hf, hloads, hready] at hunder
    obtain rfl := List.map_eq_nil_iff.mp hunder
    refine ⟨behind, [⟨ts, content⟩], by rw [hdone, List.append_nil], ?_, hopened⟩
    show [ts] = [ts] ++ e.loads ++ e.compactor.ready
    rw [hloads, hready]
    rfl

/-- A table goes to the cache. -/
theorem OnDisk.table_pushed (ho : OnDisk h base recovered done last ess e) (hone : OneLoad e)
    {ts n : Nat} {f : SstFile} {table : SSTable} (hc : e.compactor = .loading ts)
    (hfile : e.files.find? (·.ts = ts) = some f)
    (htable : SSTable.fromFd (.opened f.content []) = some (.ok table))
    (hrecords : ({ e with sstableCache := e.sstableCache.push table, compactor := .popping n } :
      Engine).finishedRecords recovered = e.finishedRecords recovered) :
    OnDisk h base recovered done last ess
      { e with sstableCache := e.sstableCache.push table, compactor := .popping n } where
  files := ho.files
  unfinished := ho.unfinished
  sorted := ho.sorted
  holds := ho.holds
  same := by
    rw [hrecords]
    exact ho.same
  cache _ := by
    obtain ⟨hf, hloads, _⟩ := hone.of_busy (by rw [hc]; rfl)
    obtain ⟨behind, under, hdone, hunder, hopened⟩ := ho.cache (by rw [hc]; rfl)
    rw [underWay, hf, hloads, hc] at hunder
    obtain ⟨g, rest, rfl, hts, hrest⟩ := List.map_eq_cons_iff.mp hunder
    obtain rfl := List.map_eq_nil_iff.mp hrest
    have hsame : f = g := by
      obtain ⟨hmem, hfts⟩ := mem_find hfile
      apply eq_of_ts (ho.sorted.imp Nat.ne_of_lt) _ (ho.files.mem_iff.mp hmem) (hfts.trans hts.symm)
      rw [hdone]
      simp
    subst hsame
    refine ⟨behind ++ [f], [], by rw [hdone, List.append_nil], ?_, ?_⟩
    · show [] = e.flusher.ready ++ e.loads ++ _
      rw [hf, hloads]
      rfl
    · rw [List.reverse_append]
      exact .cons (of_fromFd htable) hopened

/-- What a compaction makes of the tables reads as they do. -/
theorem OnDisk.compacted_file (ho : OnDisk h base recovered done last ess e) (hone : OneLoad e)
    (hstamped : Stamped e) (hcompactor : e.compactor = .compacting) {ts : Nat} (hts : e.clock < ts)
    {iters : List SSTableIterator} {cache : List SSTable} {table : SSTable} {path : PathBuf}
    (hiters : tablesToIterators e.sstableCache.cache = some (iters, cache))
    (htable : runCompaction h iters ts [] = some (table, path)) (hroots : RootsNewest iters)
    (hrep : ∀ pushed, Merge.pushed iters = some pushed → Representable (pushed.map entryOf))
    (hrecords : e'.finishedRecords recovered = e.finishedRecords recovered)
    (hfiles : e'.files = e.files ++ [⟨ts, table.fd.content⟩]) (hflusher : e'.flusher = e.flusher)
    (hmerged : e'.compactor.merged = true) :
    ∃ es, OnDisk h base recovered (done ++ [⟨ts, table.fd.content⟩]) [] (ess ++ [es]) e' := by
  obtain ⟨hf, hloads, _⟩ := hone.of_busy (by rw [hcompactor]; rfl)
  obtain ⟨behind, under, hdone, hunder, hopened⟩ := ho.cache (by rw [hcompactor]; rfl)
  rw [underWay, hf, hloads, hcompactor] at hunder
  obtain rfl := List.map_eq_nil_iff.mp hunder
  rw [List.append_nil] at hdone
  subst hdone
  obtain rfl := ho.nothing_last (by rw [hf]; rfl)
  have hcache := hopened.holds (List.rel_reverse ho.holds)
  obtain ⟨iters', cache', es, hiters', _, hcompacted⟩ := compacted hcache
  cases hiters.symm.trans hiters'
  have hfits := hrep _ hcompacted.pushed
  rw [map_entryOf] at hfits
  obtain ⟨table', path', hrun, _, hfile⟩ := hcompacted.table hfits ts
  cases htable.symm.trans hrun
  refine ⟨es, ⟨?_, ?_, ?_, List.rel_append ho.holds (.cons hfile .nil), ?_, fun hm => ?_⟩⟩
  · have hdone := ho.files
    rw [List.append_nil] at hdone
    rw [hfiles, List.append_nil]
    exact hdone.append_right _
  · rw [hflusher, hf]
    rfl
  · rw [List.append_nil]
    exact ho.sorted_snoc hstamped hts
  · rw [hrecords, List.reverse_append]
    intro key
    have hmerge := (sameMap_rule h).compact ho.same hcompacted hroots key
    rw [findEntry_cons] at hmerge
    show readEntry (findEntry key (es :: ess.reverse)) = _
    rw [findEntry_cons]
    cases hlast : last key es with
    | some e => rw [← hmerge, hlast]; rfl
    | none => exact ho.same key
  · rw [hmerged] at hm
    cases hm

end

/-! ## A step -/

theorem underWay_client {e e' : Engine} (h : TasksSame e e') : e'.underWay = e.underWay := by
  rw [underWay, underWay, h.flusher, h.loads, h.compactor]

theorem cache_client {c : Config} {e e' : Engine} {i : Nat} {a : ClientAction}
    (hs : ClientStep c e i a e') :
    List.Forall₂ SSTable.ReadOn e.sstableCache.cache e'.sstableCache.cache := by
  cases hs with
  | readSstables hi hr => exact SSTableCache.search_readOn hr
  | @readMemtable key before table q hi htable hq =>
    cases LsmliteInner.readQuery q <;> exact readOn_same _
  | @readImmutable key before queue q hi hqueue hq =>
    cases LsmliteInner.readQuery q <;> exact readOn_same _
  | _ => exact readOn_same _

/-- The tables on disk stay there. -/
theorem on_disk_step {c : Config} {sized : Prop} {base : Entries} {recovered : List Entries}
    {done last : List SstFile} {ess : List Entries} {e e' : Engine} {a : Action}
    (ho : OnDisk c.hashing base recovered done last ess e) (hstamped : Stamped e) (hp : Placed e)
    (hone : OneLoad e) (hcleared : Cleared e) (hfits : Session.TablesFit c sized recovered e)
    (hok : e.KeepsTables recovered a) (hs : step c e a = some e') :
    ∃ done' last' ess', OnDisk c.hashing base recovered done' last' ess' e' := by
  have hone' := one_load_step hone hs
  have hrecords := finishedRecords_step recovered hp hs
  have hmoved : e'.files = e.files → e'.flusher.unfinished = e.flusher.unfinished →
      e'.finishedTables = e.finishedTables →
        (e'.compactor.merged = false → e.compactor.merged = false) →
      e'.underWay = e.underWay →
      List.Forall₂ SSTable.ReadOn e.sstableCache.cache e'.sstableCache.cache →
      ∃ done' last' ess', OnDisk c.hashing base recovered done' last' ess' e' :=
    fun hfiles hunfinished htables hmerged hunder hcache =>
      ⟨done, last, ess, ho.moved hfiles hunfinished (hrecords htables) hmerged hunder hcache⟩
  cases step_cases hs with
  | spawn hopen => exact hmoved rfl rfl rfl id rfl (readOn_same _)
  | drop hopen hidle =>
    have hloads : (e.signal ++ [CompactionSignal.shutdown]).filterMap CompactionSignal.ts =
        e.loads := by
      rw [List.filterMap_append]
      exact List.append_nil _
    apply hmoved rfl rfl _ id _ (readOn_same _)
    · rw [finishedTables, settling, loads, hloads]
      rfl
    · rw [underWay, loads, hloads]
      rfl
  | client hc =>
    have htasks := hc.tasks_same
    apply hmoved htasks.files _ (finishedTables_client hcleared hc) _ (underWay_client htasks)
      (cache_client hc)
    · rw [htasks.flusher]
    · rw [htasks.compactor]
      exact id
  | background hb =>
    have htables := finishedTables_background hone hone' hb
    cases hb with
    | receiveFlush hf hch =>
      exact hmoved rfl (by rw [hf]; rfl) (htables (by simp)) id
        (by rw [underWay, underWay, hf]; rfl) (readOn_same _)
    | createFile hf hts =>
      exact ⟨_, _, _, ho.created hstamped hf hts (hrecords (htables (by simp)))⟩
    | takeFront hf hq =>
      exact hmoved rfl (by rw [hf]; rfl) (htables (by simp)) id
        (by rw [underWay, underWay, hf]; rfl) (readOn_same _)
    | writePart hf ht hcontent => exact ⟨_, _, _, ho.part_written hf (hrecords (htables (by simp)))⟩
    | @finishFile ts table t content hf ht hcontent =>
      simp only [KeepsTables, hf] at hok
      have hholds := (hfits.tables table t ht).1.counts.holds
      rw [← writesOf_eq ht] at hholds
      exact ⟨_, _, _,
        ho.file_finished hone hcleared hf (sstableContent_fileHolds hholds hok hcontent)⟩
    | removeWal hf ht =>
      exact hmoved rfl (by rw [hf]; rfl) (htables (by simp)) id
        (by rw [underWay, underWay, hf]; rfl) (readOn_same _)
    | sendLoad hf =>
      obtain ⟨hloads, _⟩ := hone.of_flusher (by simp [hf]) (by simp [hf])
      apply hmoved rfl (by rw [hf]; rfl) (htables (by simp)) id _ (readOn_same _)
      rw [underWay, underWay, hf, hloads]
      unfold loads at hloads
      simp [loads, hloads, Flusher.ready, CompactionSignal.ts]
    | receiveAck hf hack =>
      exact hmoved rfl (by rw [hf]; rfl) (htables (by simp)) id
        (by rw [underWay, underWay, hf]; rfl) (readOn_same _)
    | ackLost hf hack hc =>
      exact hmoved rfl (by rw [hf]; rfl) (htables (by simp)) id
        (by rw [underWay, underWay, hf]; rfl) (readOn_same _)
    | stopFlusher hf hch =>
      exact hmoved rfl (by rw [hf]; rfl) (htables (by simp)) id
        (by rw [underWay, underWay, hf]; rfl) (readOn_same _)
    | receiveLoad hc hch =>
      obtain ⟨_, hloads, _⟩ := hone'.of_busy rfl
      apply hmoved rfl rfl (htables (by simp)) (fun _ => by rw [hc]; rfl) _ (readOn_same _)
      unfold loads at hloads
      dsimp only at hloads
      simp [underWay, loads, hch, hc, hloads, CompactionSignal.ts, Compactor.ready]
    | pushTable hc hfile htable =>
      exact ⟨_, _, _, ho.table_pushed hone hc hfile htable (hrecords (htables (by simp)))⟩
    | popTable hc =>
      apply hmoved rfl rfl (htables (by simp)) (fun _ => by rw [hc]; rfl) _ (readOn_same _)
      rw [underWay, underWay, hc]
      dsimp only
      split <;> rfl
    | compact hc hts hiters htable =>
      simp only [KeepsTables, hiters] at hok
      obtain ⟨es, hes⟩ := ho.compacted_file hone hstamped hc hts hiters htable hok.1 hok.2
        (hrecords (htables (by simp))) rfl rfl rfl
      exact ⟨_, _, _, hes⟩
    | replaceTables hc => exact ⟨_, _, _, ho.merged rfl rfl (hrecords (htables (by simp))) rfl⟩
    | removeStale hc => exact absurd hok id
    | sendAck hc =>
      exact hmoved rfl rfl (htables (by simp)) (fun _ => by rw [hc]; rfl)
        (by rw [underWay, underWay, hc]; rfl) (readOn_same _)
    | stopCompactor hc hch =>
      apply hmoved rfl rfl (htables (by simp)) (fun _ => by rw [hc]; rfl) _ (readOn_same _)
      rw [underWay, underWay, loads, loads, hch, hc]
      rfl

end Engine

end Lsmlite
