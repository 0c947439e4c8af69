import Lsmlite.Cleanup
import Lsmlite.RestartFiles

/-!
# A crash in cleanup

The stale tables go in the order of the directory walk. The new table has no tombstones, so a
restart in between shows a deleted key again if its tombstone went before an older value.
-/

namespace Lsmlite
open Bytes KeyValue

/-- The directory after `n` deletions of the walk of `cleanup`, where the new table is kept. -/
def cleanupUntil (newTablePath : PathBuf) : Nat → List DirEntry → List DirEntry
  | 0, dir => dir
  | _ + 1, [] => []
  | n + 1, e :: dir =>
    if e.name = newTablePath then e :: cleanupUntil newTablePath (n + 1) dir
    else if isStale newTablePath e then cleanupUntil newTablePath n dir
    else e :: cleanupUntil newTablePath (n + 1) dir

/-! ## What is left -/

theorem cleanupUntil_nil (path : PathBuf) (n : Nat) : cleanupUntil path n [] = [] := by
  cases n <;> rfl

theorem cleanupUntil_sublist (path : PathBuf) (n : Nat) (dir : List DirEntry) :
    (cleanupUntil path n dir).Sublist dir := by
  induction dir generalizing n with
  | nil =>
    rw [cleanupUntil_nil]
  | cons e dir ih =>
    cases n with
    | zero => exact List.Sublist.refl _
    | succ n =>
      rw [cleanupUntil]
      split
      · exact (ih _).cons_cons e
      · split
        · exact (ih n).cons e
        · exact (ih _).cons_cons e

theorem Lists.split {front back : List DirEntry} {sstables wals : List StoredFile}
    (h : Lists (front ++ back) sstables wals) :
    ∃ s1 s2 w1 w2, sstables = s1 ++ s2 ∧ wals = w1 ++ w2 ∧
      Lists front s1 w1 ∧ Lists back s2 w2 := by
  induction front generalizing sstables wals with
  | nil => exact ⟨[], sstables, [], wals, rfl, rfl, .nil, h⟩
  | cons e front ih =>
    rw [List.cons_append] at h
    cases h with
    | sstable f h =>
      obtain ⟨s1, s2, w1, w2, rfl, rfl, h1, h2⟩ := ih h
      exact ⟨f :: s1, s2, w1, w2, rfl, rfl, .sstable f h1, h2⟩
    | wal f h =>
      obtain ⟨s1, s2, w1, w2, rfl, rfl, h1, h2⟩ := ih h
      exact ⟨s1, s2, f :: w1, w2, rfl, rfl, .wal f h1, h2⟩
    | other hother h =>
      obtain ⟨s1, s2, w1, w2, rfl, rfl, h1, h2⟩ := ih h
      exact ⟨s1, s2, w1, w2, rfl, rfl, .other hother h1, h2⟩

theorem Lists.append {front back : List DirEntry} {s1 s2 w1 w2 : List StoredFile}
    (h1 : Lists front s1 w1) (h2 : Lists back s2 w2) :
    Lists (front ++ back) (s1 ++ s2) (w1 ++ w2) := by
  induction h1 with
  | nil => exact h2
  | sstable f _ ih => exact .sstable f ih
  | wal f _ ih => exact .wal f ih
  | other hother _ ih => exact .other hother ih

theorem fromPath_of_isSstableFile {e : DirEntry} (hfile : e.isSstableFile = true) :
    DatabaseFile.fromPath e.path = some (some .sstable) := by
  simp only [DirEntry.isSstableFile, Bool.and_eq_true, decide_eq_true_eq] at hfile
  rw [DatabaseFile.fromPath, hfile.2]
  rfl

/-- What is no SSTable is passed by. -/
theorem cleanupUntil_pass {e : DirEntry} (hfile : e.isSstableFile = false) (newTs n : Nat)
    (dir : List DirEntry) :
    cleanupUntil (generateSstableFileName newTs) n (e :: dir) =
      e :: cleanupUntil (generateSstableFileName newTs) n dir := by
  cases n with
  | zero => simp [cleanupUntil]
  | succ n =>
    rw [cleanupUntil, isStale_generated, hfile]
    simp

/-- The walk deletes the first `n` tables of what it lists. -/
theorem Lists.cleanupUntil {front : List DirEntry} {s1 w1 : List StoredFile} (h : Lists front s1 w1)
    {newTs : Nat} (hnew : ∀ f ∈ s1, f.ts ≠ newTs) (n : Nat) (rest : List DirEntry) :
    ∃ left, Lsmlite.cleanupUntil (generateSstableFileName newTs) n (front ++ rest) =
        left ++ Lsmlite.cleanupUntil (generateSstableFileName newTs) (n - s1.length) rest ∧
      Lists left (s1.drop n) w1 := by
  induction h generalizing n with
  | nil => exact ⟨[], rfl, by rw [List.drop_nil]; exact .nil⟩
  | @sstable dir sstables wals f hrest ih =>
    cases n with
    | zero => exact ⟨_, by simp [Lsmlite.cleanupUntil], .sstable f hrest⟩
    | succ n =>
      have hname : ¬ (sstableEntry f.ts f.content).name = generateSstableFileName newTs := fun h =>
        hnew f (List.mem_cons_self ..) (generateSstableFileName_inj h)
      have hfile : (sstableEntry f.ts f.content).isSstableFile = true := by
        have hext := extension_sstable f.ts
        simp only [DirEntry.isSstableFile, sstableEntry, DirEntry.path, hext,
          decide_true, Bool.and_self]
      obtain ⟨left, hleft, hlists⟩ := ih (fun f' hf' => hnew f' (List.mem_cons_of_mem _ hf')) n
      refine ⟨left, ?_, hlists⟩
      rw [List.cons_append, Lsmlite.cleanupUntil, if_neg hname, isStale_generated, hfile,
        if_pos rfl, hleft, List.length_cons, Nat.add_sub_add_right]
  | @wal dir sstables wals f _ ih =>
    obtain ⟨left, hleft, hlists⟩ := ih hnew n
    have hfile : (walEntry f.ts f.content).isSstableFile = false := by
      have hext := extension_wal f.ts
      simp only [DirEntry.isSstableFile, walEntry, DirEntry.path, hext, Bool.true_and]
      decide
    refine ⟨walEntry f.ts f.content :: left, ?_, .wal f hlists⟩
    rw [List.cons_append, cleanupUntil_pass hfile, hleft, List.cons_append]
  | @other dir sstables wals e hother _ ih =>
    obtain ⟨left, hleft, hlists⟩ := ih hnew n
    have hfile : e.isSstableFile = false := by
      cases hfile : e.isSstableFile with
      | false => rfl
      | true =>
        rw [fromPath_of_isSstableFile hfile] at hother
        cases hother
    refine ⟨e :: left, ?_, .other hother hlists⟩
    rw [List.cons_append, cleanupUntil_pass hfile, hleft, List.cons_append]

/-! ## What is read -/

/-- The new table has the data of the old ones and no tombstone. -/
structure Merged (ess : List Entries) (es : Entries) : Prop where
  data : ∀ w ∈ es, ∃ value, w.2 = .data value
  newest : ∀ key, readEntry (last key es) = readEntry (findEntry key ess)

/-- Every value left of a deleted key is below a tombstone that is left. -/
def Shadowed {h : Hashing} (tables left : List (StoredTable h)) : Prop :=
  ∀ key, findEntry key ((newestFirst (fun t : StoredTable h => t.ts) tables).map
      StoredTable.entries) = some .tombstone →
    ∀ t ∈ left, ∀ value, last key t.entries = some (.data value) →
      ∃ t' ∈ left, t.ts < t'.ts ∧ last key t'.entries = some .tombstone

/-- The newest table with the key. -/
theorem findEntry_newestFirst {h : Hashing} {tables : List (StoredTable h)} {key : Blob} {e : Entry}
    (hfind : findEntry key ((newestFirst (fun t : StoredTable h => t.ts) tables).map
      StoredTable.entries) = some e) :
    ∃ t ∈ tables, last key t.entries = some e ∧
      ∀ t' ∈ tables, t.ts < t'.ts → last key t'.entries = none := by
  have hsorted := newestFirst_sorted (fun t : StoredTable h => t.ts) tables
  have hperm := newestFirst_perm (fun t : StoredTable h => t.ts) tables
  rw [findEntry, List.findSome?_map, List.findSome?_eq_some_iff] at hfind
  obtain ⟨newer, t, older, hsplit, ht, hnewer⟩ := hfind
  rw [hsplit] at hsorted hperm
  refine ⟨t, hperm.mem_iff.mp (by simp), ht, fun t' ht' hlt => ?_⟩
  rcases List.mem_append.mp (hperm.mem_iff.mpr ht') with hmem | hmem
  · exact hnewer t' hmem
  · obtain ⟨_, hold, _⟩ := List.pairwise_append.mp hsorted
    rcases List.mem_cons.mp hmem with rfl | hmem
    · exact absurd hlt (lt_irrefl _)
    · have hle := (List.pairwise_cons.mp hold).1 t' hmem
      omega

theorem findEntry_newestFirst_none {h : Hashing} {tables : List (StoredTable h)} {key : Blob} :
    findEntry key ((newestFirst (fun t : StoredTable h => t.ts) tables).map StoredTable.entries) =
      none ↔ ∀ t ∈ tables, last key t.entries = none := by
  have hperm := newestFirst_perm (fun t : StoredTable h => t.ts) tables
  rw [findEntry, List.findSome?_map, List.findSome?_eq_none_iff]
  simp only [hperm.mem_iff, Function.comp_apply]

/-- The tables left show a value exactly where one is not shadowed. -/
theorem shadowed_iff {h : Hashing} {tables left : List (StoredTable h)}
    (hnodup : (left.map fun t : StoredTable h => t.ts).Nodup) :
    Shadowed tables left ↔ ∀ key,
      findEntry key ((newestFirst (fun t : StoredTable h => t.ts) tables).map StoredTable.entries) =
        some .tombstone →
      ∀ value, findEntry key ((newestFirst (fun t : StoredTable h => t.ts) left).map
        StoredTable.entries) ≠ some (.data value) := by
  constructor
  · intro hshadowed key hdeleted value hfind
    obtain ⟨t, ht, hlast, hnewest⟩ := findEntry_newestFirst hfind
    obtain ⟨t', ht', hlt, htomb⟩ := hshadowed key hdeleted t ht value hlast
    rw [hnewest t' ht' hlt] at htomb
    cases htomb
  · intro hnone key hdeleted t ht value hlast
    cases hfind : findEntry key ((newestFirst (fun t : StoredTable h => t.ts) left).map
        StoredTable.entries) with
    | none =>
      rw [findEntry_newestFirst_none.mp hfind t ht] at hlast
      cases hlast
    | some e =>
      cases e with
      | data value' => exact absurd hfind (hnone key hdeleted value')
      | tombstone =>
        obtain ⟨t', ht', hlast', hnewest⟩ := findEntry_newestFirst hfind
        refine ⟨t', ht', ?_, hlast'⟩
        rcases Nat.lt_trichotomy t.ts t'.ts with hlt | heq | hgt
        · exact hlt
        · obtain rfl := List.inj_on_of_nodup_map hnodup ht ht' heq
          rw [hlast] at hlast'
          cases hlast'
        · rw [hnewest t ht hgt] at hlast
          cases hlast

/-- With the new table in front, a key reads as before unless it was deleted and a value is left. -/
theorem answerAt_merged {ess : List Entries} {es : Entries} (hmerged : Merged ess es) {key : Blob}
    {left : Option Entry} (hleft : findEntry key ess = none → left = none) :
    answerAt key ((last key es).or left) = answerAt key (findEntry key ess) ↔
      (findEntry key ess = some .tombstone → ∀ value, left ≠ some (.data value)) := by
  have hnewest := hmerged.newest key
  have hdata : ∀ e, last key es = some e → ∃ value, e = .data value := fun e he =>
    hmerged.data _ (mem_of_last he)
  cases hfind : findEntry key ess with
  | none =>
    rw [hfind] at hnewest
    have hlast : last key es = none := by
      cases hlast : last key es with
      | none => rfl
      | some e =>
        obtain ⟨value, rfl⟩ := hdata e hlast
        rw [hlast] at hnewest
        cases hnewest
    rw [hlast, hleft hfind]
    simp
  | some e =>
    rw [hfind] at hnewest
    cases e with
    | data value =>
      have hlast : last key es = some (.data value) := by
        cases hlast : last key es with
        | none =>
          rw [hlast] at hnewest
          cases hnewest
        | some e =>
          obtain ⟨value', rfl⟩ := hdata e hlast
          rw [hlast] at hnewest
          cases hnewest
          rfl
      rw [hlast]
      simp
    | tombstone =>
      have hlast : last key es = none := by
        cases hlast : last key es with
        | none => rfl
        | some e =>
          obtain ⟨value, rfl⟩ := hdata e hlast
          rw [hlast] at hnewest
          cases hnewest
      rw [hlast, Option.none_or]
      constructor
      · rintro hanswer _ value rfl
        rw [answerAt] at hanswer
        split at hanswer <;> cases hanswer
      · intro hnone
        cases left with
        | none => rfl
        | some e =>
          cases e with
          | data value => exact absurd rfl (hnone rfl value)
          | tombstone => rfl

/-! ## The crash -/

/-- A directory with the new table of a compaction, and the one it was before. -/
structure CompactedDir (h : Hashing) (before dir : List DirEntry) (tables : List (StoredTable h))
    (new : StoredTable h) (wals : List StoredFile) : Prop where
  lists : Lists before (tables.map StoredTable.toStoredFile) wals
  written : ∃ front back, before = front ++ back ∧
    dir = front ++ sstableEntry new.ts new.content :: back
  distinct : Distinct dir
  newer : ∀ t ∈ tables, t.ts < new.ts
  merged : Merged
    ((newestFirst (fun t : StoredTable h => t.ts) tables).map StoredTable.entries) new.entries

/-- A restart from `dir` answers every key as one from `before`. -/
def AnswersAs (h : Hashing) (compactionRate : Nat) (dir before : List DirEntry) : Prop :=
  ∃ cache cache', restartCache dir compactionRate = some cache ∧
    restartCache before compactionRate = some cache' ∧
    ∀ key, (cache.search h key).map (·.1) = (cache'.search h key).map (·.1)

theorem cleanupUntil_new (newTs n : Nat) (content : Blob) (dir : List DirEntry) :
    cleanupUntil (generateSstableFileName newTs) n (sstableEntry newTs content :: dir) =
      sstableEntry newTs content :: cleanupUntil (generateSstableFileName newTs) n dir := by
  cases n with
  | zero => simp [cleanupUntil]
  | succ n =>
    have hname : (sstableEntry newTs content).name = generateSstableFileName newTs := rfl
    rw [cleanupUntil, if_pos hname]

/-- The files after `n` deletions. -/
theorem CompactedDir.left {h : Hashing} {before dir : List DirEntry}
    {tables : List (StoredTable h)} {new : StoredTable h} {wals : List StoredFile}
    (hdir : CompactedDir h before dir tables new wals) (n : Nat) :
    ∃ files : List (StoredTable h), files.Perm (new :: tables.drop n) ∧
      Lists (cleanupUntil (generateSstableFileName new.ts) n dir)
        (files.map StoredTable.toStoredFile) wals := by
  obtain ⟨front, back, hbefore, hwritten⟩ := hdir.written
  have hlists := hdir.lists
  rw [hbefore] at hlists
  obtain ⟨s1, s2, w1, w2, hsplit, rfl, hfront, hback⟩ := hlists.split
  obtain ⟨t1, t2, rfl, rfl, rfl⟩ := List.map_eq_append_iff.mp hsplit
  have hne : ∀ ts' : List (StoredTable h), (∀ t ∈ ts', t ∈ t1 ++ t2) →
      ∀ f ∈ ts'.map StoredTable.toStoredFile, f.ts ≠ new.ts := by
    intro ts' hsub f hf
    obtain ⟨t, ht, rfl⟩ := List.mem_map.mp hf
    exact Nat.ne_of_lt (hdir.newer t (hsub t ht))
  obtain ⟨left1, hleft1, hlists1⟩ := hfront.cleanupUntil
    (hne t1 fun t ht => List.mem_append_left _ ht) n (sstableEntry new.ts new.content :: back)
  obtain ⟨left2, hleft2, hlists2⟩ := hback.cleanupUntil
    (hne t2 fun t ht => List.mem_append_right _ ht)
      (n - (t1.map StoredTable.toStoredFile).length) []
  rw [List.append_nil] at hleft2
  refine ⟨t1.drop n ++ new :: t2.drop (n - t1.length), ?_, ?_⟩
  · rw [List.drop_append]
    exact List.perm_middle
  · rw [hwritten, hleft1, cleanupUntil_new, hleft2]
    have hall := hlists1.append (.sstable new.toStoredFile hlists2)
    rw [List.length_map, ← List.map_drop, ← List.map_drop] at hall
    rw [List.map_append, List.map_cons]
    rw [cleanupUntil_nil, List.append_nil]
    exact hall

/-- What a restart after `n` deletions answers for a key, against one before the compaction. -/
theorem CompactedDir.answers {h : Hashing} {before dir : List DirEntry}
    {tables : List (StoredTable h)} {new : StoredTable h} {wals : List StoredFile}
    (hdir : CompactedDir h before dir tables new wals) (compactionRate n : Nat) :
    ((tables.drop n).map fun t : StoredTable h => t.ts).Nodup ∧
    ∃ cache cache', restartCache (cleanupUntil (generateSstableFileName new.ts) n dir)
        compactionRate = some cache ∧ restartCache before compactionRate = some cache' ∧
      ∀ key, (cache.search h key).map (·.1) = (cache'.search h key).map (·.1) ↔
        (findEntry key ((newestFirst (fun t : StoredTable h => t.ts) tables).map
          StoredTable.entries) = some .tombstone →
        ∀ value, findEntry key ((newestFirst (fun t : StoredTable h => t.ts) (tables.drop n)).map
          StoredTable.entries) ≠ some (.data value)) := by
  obtain ⟨files, hperm, hleft⟩ := hdir.left n
  have hdistinct : Distinct (cleanupUntil (generateSstableFileName new.ts) n dir) :=
    hdir.distinct.sublist (cleanupUntil_sublist ..)
  have hdistinct' : Distinct before := by
    obtain ⟨front, back, rfl, hwritten⟩ := hdir.written
    have hall := hdir.distinct
    rw [hwritten] at hall
    exact hall.sublist ((List.sublist_cons_self _ _).append_left front)
  have hnodup := hleft.sstables_nodup hdistinct
  have hnodup' := hdir.lists.sstables_nodup hdistinct'
  rw [List.map_map] at hnodup hnodup'
  obtain ⟨cache, hcache, hholds⟩ := hleft.restartCache hdistinct compactionRate
  obtain ⟨cache', hcache', hholds'⟩ := hdir.lists.restartCache hdistinct' compactionRate
  have hfiles := newestFirst_insert (fun t : StoredTable h => t.ts) hnodup hperm fun t ht =>
    Nat.le_of_lt (hdir.newer t (List.mem_of_mem_drop ht))
  rw [hfiles, List.map_cons] at hholds
  refine ⟨hnodup'.sublist ((List.drop_sublist n tables).map _), _, _,
    hcache, hcache', fun key => ?_⟩
  rw [search_answer hholds, search_answer hholds', findEntry_cons]
  apply answerAt_merged hdir.merged
  intro hnone
  rw [findEntry_newestFirst_none] at hnone ⊢
  exact fun t ht => hnone t (List.mem_of_mem_drop ht)

/-- A restart after `n` deletions answers as before the compaction if and only if every value left
of a deleted key is below a tombstone that is left. -/
theorem crashed_cleanup_iff {h : Hashing} {before dir : List DirEntry}
    {tables : List (StoredTable h)} {new : StoredTable h} {wals : List StoredFile}
    (hdir : CompactedDir h before dir tables new wals) (compactionRate n : Nat) :
    AnswersAs h compactionRate (cleanupUntil (generateSstableFileName new.ts) n dir) before ↔
      Shadowed tables (tables.drop n) := by
  obtain ⟨hnodup, cache, cache', hcache, hcache', hanswer⟩ := hdir.answers compactionRate n
  rw [shadowed_iff hnodup]
  constructor
  · rintro ⟨c, c', hc, hc', hall⟩ key
    cases hcache.symm.trans hc
    cases hcache'.symm.trans hc'
    exact (hanswer key).mp (hall key)
  · intro hall
    exact ⟨cache, cache', hcache, hcache', fun key => (hanswer key).mpr (hall key)⟩

/-! ## A deleted key -/

/-- A table with these entries can be stored. -/
theorem exists_stored (h : Hashing) {es : Entries} (hrep : Representable es) (hs : Sorted es)
    (hfits : ∀ w ∈ es, Record.Fits w.1 w.2) {ts : Nat} (hts : ts < 2 ^ 128) :
    ∃ t : StoredTable h, t.ts = ts ∧ t.entries = es := by
  obtain ⟨w0, _, hw0⟩ := CompactionWriter.new_eq h (prefixes es) ts
  obtain ⟨w, _, hw⟩ := hw0.pushAll hrep (List.nil_append es).symm hs
  have hbuilt := hw.built
  rw [show w.diskOffset = headerSize + (logBlob es).length from hbuilt.diskSize] at hbuilt
  obtain ⟨s, hload, hs', _⟩ := fromFd_image hrep hs hfits hbuilt (by decide)
  exact ⟨⟨⟨ts, sstableImage es w.trie w.bloomFilter, hts⟩, es, s, hload, hs'⟩, rfl, rfl⟩

/-- The format can hold one short record. -/
theorem representable_short {e : Entry} (hlength : (Record.of [97] e).blob.length < 100) :
    Representable [([97], e)] := by
  have hprefixes : prefixes [([97], e)] = [[], [97]] := rfl
  refine ⟨⟨by rw [hprefixes]; decide, ?_⟩, ?_⟩
  · rw [hprefixes]
    intro label hlabel
    refine ⟨0, ?_⟩
    rcases List.mem_cons.mp hlabel with rfl | hlabel
    · decide
    · rw [List.mem_singleton.mp hlabel]
      decide
  · rw [logBlob_singleton, headerSize]
    omega

/-- Stored tables are listed, and the new one behind them. -/
theorem compactedDir_listed {h : Hashing} {tables : List (StoredTable h)} {new : StoredTable h}
    (hnodup : (tables.map fun t : StoredTable h => t.ts).Nodup)
    (hnewer : ∀ t ∈ tables, t.ts < new.ts)
    (hmerged : Merged
      ((newestFirst (fun t : StoredTable h => t.ts) tables).map StoredTable.entries) new.entries) :
    CompactedDir h (tables.map fun t => sstableEntry t.ts t.content)
      (tables.map (fun t => sstableEntry t.ts t.content) ++
        [sstableEntry new.ts new.content]) tables new [] := by
  have hpath : ∀ {ts ts' : Nat} {content content' : Blob}, ts ≠ ts' →
      Path.eq (sstableEntry ts content).path (sstableEntry ts' content').path = false := by
    intro ts ts' content content' hne
    by_contra heq
    have hcomponents : Path.components (sstableEntry ts content).path =
        Path.components (sstableEntry ts' content').path := by simpa [Path.eq] using heq
    have hname : Path.fileName (sstableEntry ts content).path =
        Path.fileName (sstableEntry ts' content').path := by
      rw [Path.fileName, Path.fileName, hcomponents]
    have hsame := (fileName_sstable ts).symm.trans (hname.trans (fileName_sstable ts'))
    exact hne (generateSstableFileName_inj (Option.some.inj hsame))
  constructor
  · clear hnodup hnewer hmerged
    induction tables with
    | nil => exact .nil
    | cons t tables ih => exact .sstable t.toStoredFile ih
  · exact ⟨_, [], (List.append_nil _).symm, rfl⟩
  · refine List.pairwise_append.mpr ⟨?_, List.pairwise_singleton .., fun a ha b hb => ?_⟩
    · exact List.pairwise_map.mpr ((List.pairwise_map.mp hnodup).imp hpath)
    · obtain ⟨t, ht, rfl⟩ := List.mem_map.mp ha
      rw [List.mem_singleton.mp hb]
      exact hpath (Nat.ne_of_lt (hnewer t ht))
  · exact hnewer
  · exact hmerged

/-- One short record can be stored. -/
theorem exists_stored_short (h : Hashing) {e : Entry}
    (hlength : (Record.of [97] e).blob.length < 100) {ts : Nat} (hts : ts < 2 ^ 128) :
    ∃ t : StoredTable h, t.ts = ts ∧ t.entries = [([97], e)] := by
  refine exists_stored h (representable_short hlength) (List.pairwise_singleton ..)
    (fun w hw => ?_) hts
  rw [List.mem_singleton.mp hw]
  exact Nat.lt_trans hlength (by decide)

/-- A table without records can be stored. -/
theorem exists_stored_empty (h : Hashing) {ts : Nat} (hts : ts < 2 ^ 128) :
    ∃ t : StoredTable h, t.ts = ts ∧ t.entries = [] :=
  exists_stored h ⟨⟨by decide, by simp [prefixes]⟩, by decide⟩ List.Pairwise.nil (by simp) hts

/-- Of one key with a newest tombstone, nothing is left to merge. -/
theorem merged_deleted {ess : List Entries} (hkeys : ∀ es ∈ ess, ∀ w ∈ es, w.1 = [97])
    (hdeleted : findEntry [97] ess = some .tombstone) : Merged ess [] := by
  refine ⟨by simp, fun key => ?_⟩
  by_cases hkey : key = [97]
  · rw [hkey, hdeleted]
    rfl
  · have hnone : findEntry key ess = none := by
      rw [findEntry, List.findSome?_eq_none_iff]
      intro es hes
      exact last_eq_none_iff.mpr fun w hw hw' => hkey (hw'.symm.trans (hkeys es hes w hw))
    rw [hnone]
    rfl

/-- The walk lists the table with the tombstone before the one with the value. -/
theorem deleted_key_dir : ∃ older newer new : StoredTable flatHashing,
    older.entries = [([97], .data [1])] ∧ newer.entries = [([97], .tombstone)] ∧ new.entries = [] ∧
    CompactedDir flatHashing [sstableEntry 2 newer.content, sstableEntry 1 older.content]
      [sstableEntry 2 newer.content, sstableEntry 1 older.content, sstableEntry 3 new.content]
      [newer, older] new [] ∧ older.ts < newer.ts := by
  obtain ⟨older, hts1, hes1⟩ := exists_stored_short flatHashing (e := .data [1]) (by decide +kernel)
    (show 1 < 2 ^ 128 by decide)
  obtain ⟨newer, hts2, hes2⟩ := exists_stored_short flatHashing (e := .tombstone)
    (by decide +kernel) (show 2 < 2 ^ 128 by decide)
  obtain ⟨new, hts3, hes3⟩ := exists_stored_empty flatHashing (show 3 < 2 ^ 128 by decide)
  have hmerged : Merged ((newestFirst (fun t : StoredTable flatHashing => t.ts) [newer, older]).map
      StoredTable.entries) new.entries := by
    rw [newestFirst_eq _ (by simp [hts1, hts2]) (List.Perm.refl _) (by simp [hts1, hts2]), hes3]
    apply merged_deleted <;> simp [hes1, hes2, findEntry_cons, last_cons]
  have hdir := compactedDir_listed (by simp [hts1, hts2]) (by simp [hts1, hts2, hts3]) hmerged
  simp only [List.map_cons, List.map_nil, hts1, hts2, hts3] at hdir
  exact ⟨older, newer, new, hes1, hes2, hes3, hdir, by simp [hts1, hts2]⟩

/-- Two values of a deleted key: one is gone, and the other has the tombstone still above it. -/
theorem crashed_cleanup_shadowed :
    ∃ tables : List (StoredTable flatHashing), ∃ new : StoredTable flatHashing,
    tables.map (·.ts) = [2, 1, 3] ∧ new.entries = [] ∧
    tables.map (·.entries) = [[([97], .data [2])], [([97], .data [1])], [([97], .tombstone)]] ∧
    AnswersAs flatHashing 10 (cleanupUntil (generateSstableFileName new.ts) 1
      (tables.map (fun t => sstableEntry t.ts t.content) ++ [sstableEntry new.ts new.content]))
      (tables.map fun t => sstableEntry t.ts t.content) := by
  obtain ⟨t1, hts1, hes1⟩ := exists_stored_short flatHashing (e := .data [1]) (by decide +kernel)
    (show 1 < 2 ^ 128 by decide)
  obtain ⟨t2, hts2, hes2⟩ := exists_stored_short flatHashing (e := .data [2]) (by decide +kernel)
    (show 2 < 2 ^ 128 by decide)
  obtain ⟨t3, hts3, hes3⟩ := exists_stored_short flatHashing (e := .tombstone) (by decide +kernel)
    (show 3 < 2 ^ 128 by decide)
  obtain ⟨new, hts4, hes4⟩ := exists_stored_empty flatHashing (show 4 < 2 ^ 128 by decide)
  have hmerged : Merged ((newestFirst (fun t : StoredTable flatHashing => t.ts) [t2, t1, t3]).map
      StoredTable.entries) new.entries := by
    have hperm : [t3, t2, t1].Perm [t2, t1, t3] := @List.perm_append_comm _ [t3] [t2, t1]
    rw [newestFirst_eq _ (by simp [hts1, hts2, hts3]) hperm (by simp [hts1, hts2, hts3]), hes4]
    apply merged_deleted <;> simp [hes1, hes2, hes3, findEntry_cons, last_cons]
  have hdir :=
    compactedDir_listed (by simp [hts1, hts2, hts3]) (by simp [hts1, hts2, hts3, hts4]) hmerged
  refine ⟨[t2, t1, t3], new, by simp [hts1, hts2, hts3], hes4, by simp [hes1, hes2, hes3],
    (crashed_cleanup_iff hdir 10 1).mpr fun key _ t ht value hvalue => ?_⟩
  rcases List.mem_cons.mp ht with rfl | ht
  · have hkey : key = [97] := by
      have hmem := mem_of_last hvalue
      rw [hes1, List.mem_singleton] at hmem
      exact (Prod.mk.inj hmem).1
    refine ⟨t3, by simp, by simp [hts1, hts3], ?_⟩
    rw [hkey, hes3]
    rfl
  · rw [List.mem_singleton.mp ht, hes3] at hvalue
    have hmem := mem_of_last hvalue
    simp at hmem

/-- After the first deletion the key is back. -/
theorem crashed_cleanup_revives : ∃ (older newer new : StoredTable flatHashing),
    older.entries = [([97], .data [1])] ∧ newer.entries = [([97], .tombstone)] ∧ new.entries = [] ∧
    CompactedDir flatHashing [sstableEntry 2 newer.content, sstableEntry 1 older.content]
      [sstableEntry 2 newer.content, sstableEntry 1 older.content, sstableEntry 3 new.content]
      [newer, older] new [] ∧
    ¬ AnswersAs flatHashing 10 (cleanupUntil (generateSstableFileName new.ts) 1
      [sstableEntry 2 newer.content, sstableEntry 1 older.content, sstableEntry 3 new.content])
      [sstableEntry 2 newer.content, sstableEntry 1 older.content] := by
  obtain ⟨older, newer, new, holder, hnewer, hnew, hdir, hts⟩ := deleted_key_dir
  refine ⟨older, newer, new, holder, hnewer, hnew, hdir, ?_⟩
  rintro ⟨c, c', hc, hc', hall⟩
  obtain ⟨_, cache, cache', hcache, hcache', hanswer⟩ := hdir.answers 10 1
  cases hcache.symm.trans hc
  cases hcache'.symm.trans hc'
  refine (hanswer [97]).mp (hall [97]) ?_ [1] ?_
  · have hnewest :
        newestFirst (fun t : StoredTable flatHashing => t.ts) [newer, older] = [newer, older] :=
      newestFirst_eq _ (by simp; omega) (List.Perm.refl _) (by simp; omega)
    rw [hnewest]
    simp [findEntry_cons, hnewer, last]
  · rw [newestFirst]
    simp [findEntry_cons, holder, last]

end Lsmlite
