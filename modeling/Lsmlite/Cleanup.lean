import Lsmlite.Restart

/-!
# What cleanup removes

The writer names the new table `lsmlite.<ts>.sstable`; the directory walk names the same file
`./lsmlite.<ts>.sstable`. The leading `.` is a component, so the comparison that should spare
the new table never succeeds.
-/

namespace Lsmlite

/-- A file that a restart would take for an SSTable. -/
def DirEntry.isSstableFile (e : DirEntry) : Bool :=
  e.isFile && Path.extension e.path = some sstableExtension

/-- What cleanup is for: of the SSTable files only the new one is left, nothing else is gone,
and a restart finds in the tables what the cache holds. -/
structure CleanupExact (h : Hashing) (cache : SSTableCache) (sstable : SSTable) (fileTs : Nat)
    (dir : List DirEntry) : Prop where
  newTableLeft : ∃ e, e.name = generateSstableFileName fileTs ∧
    (cleanup cache sstable (generateSstableFileName fileTs) dir).2.filter (·.isSstableFile) = [e]
  othersKept : ∀ e ∈ dir, e.isSstableFile = false →
    e ∈ (cleanup cache sstable (generateSstableFileName fileTs) dir).2
  restartAgrees : ∀ key, ∃ sstables wals loaded,
    scanDirectory (cleanup cache sstable (generateSstableFileName fileTs) dir).2 =
      some (sstables, wals) ∧
    loadTables (cleanup cache sstable (generateSstableFileName fileTs) dir).2 sstables
      cache.compactionRate = some loaded ∧
    (loaded.search h key).map (·.1) =
      ((cleanup cache sstable (generateSstableFileName fileTs) dir).1.search h key).map (·.1)

theorem components_join_dot (name : Blob) :
    Path.components (Path.join [dot] name) =
      .curDir :: (Path.splitAt slash name).filterMap Path.laterComponent := by
  have hsplit : Path.splitAt slash (dot :: slash :: name) = [dot] :: Path.splitAt slash name := by
    simp [Path.splitAt, dot, slash]
  simp only [Path.join, List.cons_append, List.nil_append, Path.components, hsplit]
  rfl

theorem splitAt_ne_nil (sep : UInt8) (text : Blob) : Path.splitAt sep text ≠ [] := by
  cases text with
  | nil => simp [Path.splitAt]
  | cons c cs =>
    simp only [Path.splitAt]
    split
    · simp
    · split <;> simp

/-- A generated name is one component that is no `.`. -/
theorem components_generated (fileTs : Nat) :
    (Path.components (generateSstableFileName fileTs)).head? ≠ some .curDir := by
  have hname : ∃ rest, generateSstableFileName fileTs = 108 :: 115 :: rest := ⟨_, rfl⟩
  obtain ⟨rest, hrest⟩ := hname
  obtain ⟨part, parts, hparts⟩ := List.exists_cons_of_ne_nil (splitAt_ne_nil slash rest)
  have hsplit : Path.splitAt slash (108 :: 115 :: rest) = (108 :: 115 :: part) :: parts := by
    simp [Path.splitAt, slash, hparts]
  rw [hrest, Path.components, hsplit]
  simp [Path.firstComponent, Path.laterComponent, dot]

/-- The new table's path never equals a path of the walk. -/
theorem generated_ne_walked (fileTs : Nat) (e : DirEntry) :
    Path.eq (generateSstableFileName fileTs) e.path = false := by
  have h := components_generated fileTs
  simp only [Path.eq, DirEntry.path, components_join_dot, decide_eq_false_iff_not]
  intro heq
  rw [heq] at h
  exact h rfl

/-- Cleanup removes the SSTable files, all of them, and nothing else. -/
theorem isStale_generated (fileTs : Nat) (e : DirEntry) :
    isStale (generateSstableFileName fileTs) e = e.isSstableFile := by
  simp only [isStale, generated_ne_walked, Bool.false_eq_true, ↓reduceIte, DirEntry.isSstableFile]
  cases e.isFile with
  | false => rfl
  | true => cases Path.extension e.path <;> simp

theorem cleanup_leaves_no_sstable (cache : SSTableCache) (sstable : SSTable) (fileTs : Nat)
    (dir : List DirEntry) :
    (cleanup cache sstable (generateSstableFileName fileTs) dir).2 =
      dir.filter fun e => !e.isSstableFile := by
  simp only [cleanup, isStale_generated]

/-- Cleanup does what it is for on no directory. -/
theorem cleanup_never_exact (h : Hashing) (cache : SSTableCache) (sstable : SSTable) (fileTs : Nat)
    (dir : List DirEntry) : ¬ CleanupExact h cache sstable fileTs dir := by
  intro hexact
  obtain ⟨e, _, hleft⟩ := hexact.newTableLeft
  rw [cleanup_leaves_no_sstable, List.filter_filter] at hleft
  have hmem : e ∈ [e] := List.mem_singleton_self e
  rw [← hleft] at hmem
  simp at hmem

/-- The directory of a database whose first compaction has just written its table. -/
def compactedDir : List DirEntry := [⟨generateSstableFileName 7, true, lsmliteSstableHeader⟩]

def blankTable : SSTable :=
  ⟨⟨Trie.new, BloomFilter.new flatHashing 0, headerSize⟩, File.opened lsmliteSstableHeader [], 0⟩

/-- The new table, alone in the directory, is deleted. -/
theorem cleanup_deletes_new_table :
    (cleanup (SSTableCache.new 1) blankTable (generateSstableFileName 7) compactedDir).2 = [] ∧
    ¬ CleanupExact flatHashing (SSTableCache.new 1) blankTable 7 compactedDir := by
  have hgone : (cleanup (SSTableCache.new 1) blankTable (generateSstableFileName 7)
      compactedDir).2 = [] := by
    have hstale : isStale (generateSstableFileName 7)
        ⟨generateSstableFileName 7, true, lsmliteSstableHeader⟩ = true := by decide +kernel
    simp [cleanup, compactedDir, hstale]
  refine ⟨hgone, fun hexact => ?_⟩
  obtain ⟨e, _, hleft⟩ := hexact.newTableLeft
  rw [hgone] at hleft
  cases hleft

end Lsmlite
