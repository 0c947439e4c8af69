import Lsmlite.RestartFiles

/-!
# What a scan returns

`scan_directory` takes every name with the extension `sstable` for an SSTable, and every name that
starts with `lsmlite.wal` and has the extension `log` for a log; a name with the extension `log`
that is not UTF-8 makes it panic. It returns exactly the files of the engine where all such names
are names that the engine generates.
-/

namespace Lsmlite

/-! ## The names of the engine -/

/-- The timestamp in a name that `generate` makes, where it is the part `part` between the dots. -/
def stampOf (generate : Nat → PathBuf) (part : Nat) (name : Blob) : Option Nat := do
  let digits ← (Path.splitAt dot name)[part]?
  let ts := digitsValue digits 0
  if ts < 2 ^ 128 ∧ generate ts = name then some ts else none

theorem stampOf_iff {generate : Nat → PathBuf} {part : Nat}
    (hpart : ∀ ts, (Path.splitAt dot (generate ts))[part]? = some (decimal ts)) {name : Blob}
    {ts : Nat} :
    stampOf generate part name = some ts ↔ ts < 2 ^ 128 ∧ generate ts = name := by
  constructor
  · intro h
    simp only [stampOf, Option.bind_eq_bind, Option.bind_eq_some_iff] at h
    obtain ⟨digits, _, h⟩ := h
    by_cases hname : digitsValue digits 0 < 2 ^ 128 ∧ generate (digitsValue digits 0) = name
    · rw [if_pos hname] at h
      cases h
      exact hname
    · rw [if_neg hname] at h
      cases h
  · rintro ⟨hts, rfl⟩
    simp only [stampOf, hpart, Option.bind_eq_bind, Option.bind_some, digitsValue_decimal]
    rw [if_pos ⟨hts, trivial⟩]

def sstableStamp (name : Blob) : Option Nat := stampOf generateSstableFileName 1 name

def walStamp (name : Blob) : Option Nat := stampOf generateWalFileName 2 name

theorem sstableStamp_iff {name : Blob} {ts : Nat} :
    sstableStamp name = some ts ↔ ts < 2 ^ 128 ∧ generateSstableFileName ts = name :=
  stampOf_iff fun ts => by rw [splitAt_sstableFileName]; rfl

theorem walStamp_iff {name : Blob} {ts : Nat} :
    walStamp name = some ts ↔ ts < 2 ^ 128 ∧ generateWalFileName ts = name :=
  stampOf_iff fun ts => by rw [splitAt_walFileName]; rfl

/-- The SSTables of the engine in a directory, with their timestamps. -/
def engineSstables (dir : List DirEntry) : List SSTableArtifact :=
  dir.filterMap fun e => (sstableStamp e.name).map (SSTableArtifact.mk e.path)

def engineWals (dir : List DirEntry) : List WalArtifact :=
  dir.filterMap fun e => (walStamp e.name).map (WalArtifact.mk e.path)

/-- The scan ends, and finds the files of the engine and no others, in the order of their
timestamps. -/
def ScansExactly (dir : List DirEntry) : Prop :=
  ∃ sstables wals, scanDirectory dir = some (sstables, wals) ∧
    sstables.Perm (engineSstables dir) ∧ (sstables.Pairwise fun a b => b.ts ≤ a.ts) ∧
    wals.Perm (engineWals dir) ∧ wals.Pairwise fun a b => a.ts ≤ b.ts

/-- A name with the extension `sstable` is one that the engine generates. A name with the extension
`log` is UTF-8, and where it starts with `lsmlite.wal` it is one that the engine generates. -/
def OnlyEngineNames (dir : List DirEntry) : Prop :=
  ∀ e ∈ dir, (Path.extension e.path = some sstableExtension →
      ∃ ts < 2 ^ 128, generateSstableFileName ts = e.name) ∧
    (Path.extension e.path = some logExtension → ∀ name, Path.fileName e.path = some name →
      ByteArray.IsValidUTF8 ⟨name.toArray⟩ ∧
        (walPrefix <+: name → ∃ ts < 2 ^ 128, generateWalFileName ts = e.name))

/-! ## One entry -/

theorem fromPath_eq_sstable {path : PathBuf} : DatabaseFile.fromPath path = some (some .sstable) ↔
    Path.extension path = some sstableExtension := by
  rw [DatabaseFile.fromPath]
  cases hext : Path.extension path with
  | none => simp
  | some ext =>
    by_cases hsstable : ext = sstableExtension
    · simp [hsstable]
    · by_cases hlog : ext = logExtension
      · simp only [Option.some.injEq, if_pos hlog, hsstable, iff_false]
        cases Path.fileName path with
        | none => simp
        | some name =>
          cases hstr : Path.toStr name with
          | none => simp [hstr]
          | some name' => simp [hstr]
      · simp [hsstable, hlog]

/-- Behind the extension `log` the name is taken as a `str`. -/
theorem fromPath_log {path : PathBuf} (hext : Path.extension path = some logExtension) {name : Blob}
    (hname : Path.fileName path = some name) : DatabaseFile.fromPath path =
      if ByteArray.IsValidUTF8 ⟨name.toArray⟩ then
        some (if walPrefix.isPrefixOf name then some .wal else none)
      else none := by
  rw [DatabaseFile.fromPath, hext]
  have hne : logExtension ≠ sstableExtension := by decide
  simp only [if_neg hne, hname, Option.bind_eq_bind, Option.bind_some, if_true, Path.toStr]
  split <;> rfl

/-- Behind another extension nothing is read. -/
theorem fromPath_other {path : PathBuf} (hsstable : Path.extension path ≠ some sstableExtension)
    (hlog : Path.extension path ≠ some logExtension) : DatabaseFile.fromPath path = some none := by
  rw [DatabaseFile.fromPath]
  cases hext : Path.extension path with
  | none => rfl
  | some ext =>
    rw [hext, Ne, Option.some.injEq] at hsstable hlog
    simp only [if_neg hsstable, if_neg hlog]

theorem fileName_of_extension {path : PathBuf} {ext : Blob} (h : Path.extension path = some ext) :
    ∃ name, Path.fileName path = some name := by
  rw [Path.extension, Option.bind_eq_bind, Option.bind_eq_some_iff] at h
  obtain ⟨name, hname, _⟩ := h
  exact ⟨name, hname⟩

/-- The names are right if what the scan makes of the paths is. -/
theorem onlyEngineNames_iff {dir : List DirEntry} : OnlyEngineNames dir ↔
    ∀ e ∈ dir, DatabaseFile.fromPath e.path ≠ none ∧
      (DatabaseFile.fromPath e.path = some (some .sstable) →
        ∃ ts < 2 ^ 128, generateSstableFileName ts = e.name) ∧
      (DatabaseFile.fromPath e.path = some (some .wal) →
        ∃ ts < 2 ^ 128, generateWalFileName ts = e.name) := by
  refine forall₂_congr fun e _ => ?_
  rw [fromPath_eq_sstable]
  by_cases hlog : Path.extension e.path = some logExtension
  · obtain ⟨name, hname⟩ := fileName_of_extension hlog
    rw [fromPath_log hlog hname]
    by_cases hutf8 : ByteArray.IsValidUTF8 ⟨name.toArray⟩
    · simp [hlog, hname, hutf8]
    · simp [hlog, hname, hutf8]
  · simp only [hlog, false_implies, and_true]
    by_cases hsstable : Path.extension e.path = some sstableExtension
    · simp [hsstable, fromPath_eq_sstable.mpr hsstable]
    · simp [hsstable, fromPath_other hsstable hlog]

theorem fromPath_of_sstableStamp {e : DirEntry} {ts : Nat} (h : sstableStamp e.name = some ts) :
    DatabaseFile.fromPath e.path = some (some .sstable) ∧
      SSTableArtifact.new e.path = some ⟨e.path, ts⟩ := by
  obtain ⟨hts, hname⟩ := sstableStamp_iff.mp h
  rw [DirEntry.path, ← hname]
  exact ⟨fromPath_sstable ts, artifact_sstable hts⟩

theorem fromPath_of_walStamp {e : DirEntry} {ts : Nat} (h : walStamp e.name = some ts) :
    DatabaseFile.fromPath e.path = some (some .wal) ∧
      WalArtifact.new e.path = some ⟨e.path, ts⟩ := by
  obtain ⟨hts, hname⟩ := walStamp_iff.mp h
  rw [DirEntry.path, ← hname]
  exact ⟨fromPath_wal ts, artifact_wal hts⟩

/-- A name that is taken for something else, or for nothing, is no name of an SSTable. -/
theorem sstableStamp_none {e : DirEntry} (h : DatabaseFile.fromPath e.path ≠ some (some .sstable)) :
    sstableStamp e.name = none := by
  rw [Option.eq_none_iff_forall_ne_some]
  intro ts hts
  exact h (fromPath_of_sstableStamp hts).1

theorem walStamp_none {e : DirEntry} (h : DatabaseFile.fromPath e.path ≠ some (some .wal)) :
    walStamp e.name = none := by
  rw [Option.eq_none_iff_forall_ne_some]
  intro ts hts
  exact h (fromPath_of_walStamp hts).1

/-! ## The walk -/

/-- With the names of the engine only, the walk collects its files. -/
theorem OnlyEngineNames.scanEntries {dir : List DirEntry} (h : OnlyEngineNames dir) :
    scanEntries dir = some (engineSstables dir, engineWals dir) := by
  induction dir with
  | nil => rfl
  | cons e dir ih =>
    have hrest := ih fun d hd => h d (List.mem_cons_of_mem _ hd)
    obtain ⟨hreads, hsstable, hwal⟩ := onlyEngineNames_iff.mp h e (List.mem_cons_self ..)
    rw [Lsmlite.scanEntries, engineSstables, engineWals, List.filterMap_cons, List.filterMap_cons]
    cases hpath : DatabaseFile.fromPath e.path with
    | none => exact absurd hpath hreads
    | some kind =>
      cases kind with
      | none =>
        rw [sstableStamp_none (by simp [hpath]), walStamp_none (by simp [hpath])]
        exact hrest
      | some kind =>
        cases kind with
        | wal =>
          obtain ⟨ts, hts, hname⟩ := hwal hpath
          have hstamp : walStamp e.name = some ts := walStamp_iff.mpr ⟨hts, hname⟩
          rw [sstableStamp_none (by simp [hpath]), hstamp]
          simp only [(fromPath_of_walStamp hstamp).2, hrest, Option.bind_eq_bind, Option.bind_some,
            Option.pure_def]
          rfl
        | sstable =>
          obtain ⟨ts, hts, hname⟩ := hsstable hpath
          have hstamp : sstableStamp e.name = some ts := sstableStamp_iff.mpr ⟨hts, hname⟩
          rw [walStamp_none (by simp [hpath]), hstamp]
          simp only [(fromPath_of_sstableStamp hstamp).2, hrest, Option.bind_eq_bind,
            Option.bind_some, Option.pure_def]
          rfl

/-- A walk that ends returns whatever is taken for a file of the engine. -/
theorem scanEntries_mem {dir : List DirEntry} {sstables : List SSTableArtifact}
    {wals : List WalArtifact} (h : scanEntries dir = some (sstables, wals)) {e : DirEntry}
    (he : e ∈ dir) :
    DatabaseFile.fromPath e.path ≠ none ∧
    (DatabaseFile.fromPath e.path = some (some .sstable) → ∃ a ∈ sstables, a.filename = e.path) ∧
    (DatabaseFile.fromPath e.path = some (some .wal) → ∃ a ∈ wals, a.filename = e.path) := by
  induction dir generalizing sstables wals with
  | nil => cases he
  | cons d dir ih =>
    rw [scanEntries] at h
    cases hpath : DatabaseFile.fromPath d.path with
    | none =>
      rw [hpath] at h
      cases h
    | some kind =>
      rw [hpath] at h
      cases kind with
      | none =>
        rcases List.mem_cons.mp he with rfl | he
        · simp [hpath]
        · exact ih h he
      | some kind =>
        cases kind with
        | wal =>
          simp only [Option.bind_eq_bind, Option.bind_eq_some_iff] at h
          obtain ⟨artifact, hartifact, ⟨sstables', wals'⟩, hrest, h⟩ := h
          cases h
          rcases List.mem_cons.mp he with rfl | he
          · have hfile := WalArtifact.new_filename hartifact
            simp [hpath, hfile]
          · obtain ⟨hreads, hsstable, hwal⟩ := ih hrest he
            refine ⟨hreads, hsstable, fun hkind => ?_⟩
            obtain ⟨a, ha, hfile⟩ := hwal hkind
            exact ⟨a, List.mem_cons_of_mem _ ha, hfile⟩
        | sstable =>
          simp only [Option.bind_eq_bind, Option.bind_eq_some_iff] at h
          obtain ⟨artifact, hartifact, ⟨sstables', wals'⟩, hrest, h⟩ := h
          cases h
          rcases List.mem_cons.mp he with rfl | he
          · have hfile := SSTableArtifact.new_filename hartifact
            simp [hpath, hfile]
          · obtain ⟨hreads, hsstable, hwal⟩ := ih hrest he
            refine ⟨hreads, fun hkind => ?_, hwal⟩
            obtain ⟨a, ha, hfile⟩ := hsstable hkind
            exact ⟨a, List.mem_cons_of_mem _ ha, hfile⟩

theorem path_inj {d e : DirEntry} (h : d.path = e.path) : d.name = e.name := by
  rw [DirEntry.path, DirEntry.path, Path.join, Path.join] at h
  exact (List.cons.inj (List.append_cancel_left h)).2

/-! ## The scan -/

/-- The scan returns exactly the files of the engine if and only if every name with one of the two
extensions is right. -/
theorem scansExactly_iff (dir : List DirEntry) : ScansExactly dir ↔ OnlyEngineNames dir := by
  constructor
  · rintro ⟨sstables, wals, hscan, hsstables, _, hwals, _⟩
    refine onlyEngineNames_iff.mpr fun e he => ?_
    simp only [scanDirectory, Option.bind_eq_bind, Option.bind_eq_some_iff] at hscan
    obtain ⟨⟨walked, walkedWals⟩, hwalk, hscan⟩ := hscan
    cases hscan
    obtain ⟨hreads, hsstable, hwal⟩ := scanEntries_mem hwalk he
    refine ⟨hreads, ?_, ?_⟩
    · intro hkind
      obtain ⟨a, ha, hfile⟩ := hsstable hkind
      have hmem := hsstables.mem_iff.mp ((List.mergeSort_perm ..).mem_iff.mpr ha)
      obtain ⟨d, _, hd⟩ := List.mem_filterMap.mp hmem
      obtain ⟨ts, hstamp, rfl⟩ := Option.map_eq_some_iff.mp hd
      obtain ⟨hts, hname⟩ := sstableStamp_iff.mp hstamp
      exact ⟨ts, hts, hname.trans (path_inj hfile)⟩
    · intro hkind
      obtain ⟨a, ha, hfile⟩ := hwal hkind
      have hmem := hwals.mem_iff.mp ((List.mergeSort_perm ..).mem_iff.mpr ha)
      obtain ⟨d, _, hd⟩ := List.mem_filterMap.mp hmem
      obtain ⟨ts, hstamp, rfl⟩ := Option.map_eq_some_iff.mp hd
      obtain ⟨hts, hname⟩ := walStamp_iff.mp hstamp
      exact ⟨ts, hts, hname.trans (path_inj hfile)⟩
  · intro honly
    refine ⟨newestFirst SSTableArtifact.ts (engineSstables dir),
      oldestFirst WalArtifact.ts (engineWals dir), ?_, ?_, ?_, ?_, ?_⟩
    · rw [scanDirectory, honly.scanEntries]
      rfl
    · exact newestFirst_perm SSTableArtifact.ts (engineSstables dir)
    · exact newestFirst_sorted SSTableArtifact.ts (engineSstables dir)
    · exact newestFirst_perm (fun a => OrderDual.toDual (WalArtifact.ts a)) (engineWals dir)
    · exact newestFirst_sorted (fun a => OrderDual.toDual (WalArtifact.ts a)) (engineWals dir)

/-- A file of somebody else, whose extension is that of an SSTable. -/
def foreignDir : List DirEntry :=
  [⟨generateSstableFileName 7, true, []⟩,
    ⟨ascii ['n', 'o', 't', 'e', 's'] ++ dot :: sstableExtension, true, []⟩]

/-- The scan panics on it. -/
theorem foreign_name_panics : scanDirectory foreignDir = none ∧ ¬ ScansExactly foreignDir := by
  have hpanic : scanDirectory foreignDir = none := by
    have hwalk : scanEntries foreignDir = none := by decide +kernel
    rw [scanDirectory, hwalk]
    rfl
  refine ⟨hpanic, ?_⟩
  rintro ⟨sstables, wals, hscan, _⟩
  rw [hpanic] at hscan
  cases hscan

-- So it does on a name with a log's extension that is not UTF-8.
example : scanEntries [⟨[255] ++ dot :: logExtension, true, []⟩] = none := by decide +kernel

end Lsmlite
