import Lsmlite.SSTableWriters

/-!
# A compaction whose calls fail

The iterators drop the results of their seeks and reads, and the merge drops those of its pushes. A
record whose push fails to write is indexed but never written.
-/

namespace Lsmlite
open Bytes KeyValue

/-! ## The step -/

namespace SSTableIterator

/-- `new`, with `left` in the buffer behind a failed read. -/
def newLeft (s : SSTable) (left : Blob) : Option (SSTableIterator × SSTable) := do
  guard (headerSize ≤ s.index.dataBlockEnd)
  let len := s.index.dataBlockEnd - headerSize
  guard (len < 2 ^ 63)
  let fd := (s.fd.seek headerSize).2
  let (r, fd) := fd.readExact len
  let buffer := match r with
    | .ok buffer => buffer
    | .error _ => resize left len 0
  return (⟨buffer, 0⟩, { s with fd })

theorem new_eq_newLeft (s : SSTable) : new s = newLeft s [] := by
  simp only [newLeft, resize, List.take_nil, List.nil_append, List.length_nil, Nat.sub_zero]
  rfl

end SSTableIterator

/-- `tables_to_iterators`; a buffer without an entry in `left` stays zero. -/
def tablesToIteratorsLeft : List SSTable → List Blob → Option (List SSTableIterator × List SSTable)
  | [], _ => some ([], [])
  | s :: tables, left => do
    let (it, s) ← SSTableIterator.newLeft s (left.headD [])
    let (iters, tables) ← tablesToIteratorsLeft tables left.tail
    return (it :: iters, s :: tables)

theorem tablesToIterators_eq_left (tables : List SSTable) :
    tablesToIterators tables = tablesToIteratorsLeft tables [] := by
  induction tables with
  | nil => rfl
  | cons s tables ih =>
    rw [tablesToIterators, tablesToIteratorsLeft, ih, SSTableIterator.new_eq_newLeft]
    rfl

/-- The compaction of `sstable_background`: the cache and the directory behind it, `none` where the
task panics with both as they were. -/
def compactCache (h : Hashing) (cache : SSTableCache) (left : List Blob) (fileTs : Nat)
    (faults : List IoResult) (dir : List DirEntry) : Option (SSTableCache × List DirEntry) := do
  let (tableIters, tables) ← tablesToIteratorsLeft cache.cache left
  let (compactTable, compactTablePath) ← runCompaction h tableIters fileTs faults
  return cleanup { cache with cache := tables } compactTable compactTablePath dir

/-! ## The writes of the pushes -/

/-- The results of the writes inside pushes of records of these sizes, and the results left for the
calls behind them. A failed write leaves its record out of the buffer. -/
def pushWrites : Nat → Nat → List Nat → List IoResult → List IoResult × List IoResult
  | _, _, [], faults => ([], faults)
  | capacity, buffered, size :: sizes, faults =>
    if buffered + size < capacity then pushWrites capacity (buffered + size) sizes faults
    else
      let r := faults.headD .full
      let (results, faults) :=
        if r = .error then pushWrites capacity buffered sizes faults.tail
        else pushWrites (reserved capacity size) size sizes faults.tail
      (r :: results, faults)

section
variable {capacity buffered size : Nat} {sizes : List Nat} {faults : List IoResult}

theorem pushWrites_full (hroom : ¬ buffered + size < capacity)
    (hresult : faults.headD .full = .full) :
    pushWrites capacity buffered (size :: sizes) faults =
      (.full :: (pushWrites (reserved capacity size) size sizes faults.tail).1,
        (pushWrites (reserved capacity size) size sizes faults.tail).2) := by
  rw [pushWrites, if_neg hroom, hresult]
  rfl

theorem pushWrites_error (hroom : ¬ buffered + size < capacity)
    (hresult : faults.headD .full = .error) :
    pushWrites capacity buffered (size :: sizes) faults =
      (.error :: (pushWrites capacity buffered sizes faults.tail).1,
        (pushWrites capacity buffered sizes faults.tail).2) := by
  rw [pushWrites, if_neg hroom, hresult]
  rfl

end

/-- The calls succeed in full or fail. -/
def Clean (faults : List IoResult) : Prop := ∀ r ∈ faults, r = .full ∨ r = .error

theorem Clean.tail {faults : List IoResult} (h : Clean faults) : Clean faults.tail :=
  fun r hr => h r (List.mem_of_mem_tail hr)

theorem Clean.headD {faults : List IoResult} (h : Clean faults) :
    faults.headD .full = .full ∨ faults.headD .full = .error := by
  cases faults with
  | nil => exact Or.inl rfl
  | cons r faults => exact h r (List.mem_cons_self ..)

/-- The first call succeeds, and the next `n`. -/
theorem succeeds_succ {faults : List IoResult} {n : Nat} (h : .error ∉ faults.take (n + 1)) :
    faults.headD .full ≠ .error ∧ .error ∉ faults.tail.take n := by
  cases faults with
  | nil => exact ⟨nofun, by simp⟩
  | cons r faults =>
    rw [List.take_succ_cons, List.mem_cons, not_or] at h
    exact ⟨fun hr => h.1 hr.symm, h.2⟩

/-- A write at the end appends everything or fails. -/
theorem File.write_clean {faults : List IoResult} (h : Clean faults) (content buf : Blob) :
    (faults.headD .full = .full ∧ write ⟨content, content.length, faults⟩ buf =
      (.ok buf.length, ⟨content ++ buf, (content ++ buf).length, faults.tail⟩)) ∨
    (faults.headD .full = .error ∧ write ⟨content, content.length, faults⟩ buf =
      (.error .failed, ⟨content, content.length, faults.tail⟩)) := by
  cases faults with
  | nil => exact Or.inl ⟨rfl, File.write_append content buf⟩
  | cons r faults =>
    rcases h r (List.mem_cons_self ..) with rfl | rfl
    · left
      simp [File.write, File.next, File.put]
    · exact Or.inr ⟨rfl, rfl⟩

namespace File

theorem seek_succeeds {fd : File} (hresult : fd.faults.headD .full ≠ .error) (offset : Nat) :
    fd.seek offset = (.ok (), ⟨fd.content, offset, fd.faults.tail⟩) := by
  obtain ⟨content, pos, faults⟩ := fd
  cases faults with
  | nil => rfl
  | cons r faults =>
    cases r with
    | full | short => rfl
    | error => exact absurd rfl hresult

theorem readExact_succeeds {fd : File} (hresult : fd.faults.headD .full ≠ .error) (n : Nat) :
    (fd.readExact n).1 = if ((fd.content.drop fd.pos).take n).length = n
      then .ok ((fd.content.drop fd.pos).take n) else .error .unexpectedEof := by
  obtain ⟨content, pos, faults⟩ := fd
  cases faults with
  | nil =>
    rw [readExact, next_nil]
    dsimp only
    split <;> rfl
  | cons r faults =>
    cases r with
    | full | short =>
      rw [readExact]
      dsimp only [next]
      split <;> rfl
    | error => exact absurd rfl hresult

/-- The first call takes the first result, whatever it is, and the second the next. -/
theorem readExact_fails {fd : File} (hfailed : fd.faults[1]? = some .error) (offset n : Nat) :
    ((fd.seek offset).2.readExact n).1 = .error .failed := by
  obtain ⟨content, pos, faults⟩ := fd
  match faults, hfailed with
  | r :: .error :: faults, _ => cases r <;> rfl

end File

namespace CompactionWriter

/-- The records of `kept` are in the file and the buffer behind it. -/
structure Filled (w : CompactionWriter) (kept : Entries) : Prop where
  atEnd : w.fd.pos = w.fd.content.length
  content : w.fd.content ++ w.writeBuffer = (lsmliteSstableHeader ++ toBe 2 v0Header) ++
    logBlob kept
  diskOffset : w.diskOffset = headerSize + (logBlob kept).length
  clean : Clean w.fd.faults

theorem Filled.fd_eq {w : CompactionWriter} {kept : Entries} (hw : w.Filled kept) :
    w.fd = ⟨w.fd.content, w.fd.content.length, w.fd.faults⟩ := by
  rw [← hw.atEnd]

/-- Where a push finds room, where it writes the buffer and where that fails. -/
inductive Pushed (w w' : CompactionWriter) (kept : Entries) (v : Blob × Entry) : Prop
  | buffered (hroom : w.writeBuffer.length + (recordOf v).size < w.capacity)
      (hfilled : w'.Filled (kept ++ [v])) (hcapacity : w'.capacity = w.capacity)
      (hbuffer : w'.writeBuffer.length = w.writeBuffer.length + (recordOf v).size)
      (hfaults : w'.fd.faults = w.fd.faults)
  | written (hroom : ¬ w.writeBuffer.length + (recordOf v).size < w.capacity)
      (hresult : w.fd.faults.headD .full = .full) (hfilled : w'.Filled (kept ++ [v]))
      (hcapacity : w'.capacity = reserved w.capacity (recordOf v).size)
      (hbuffer : w'.writeBuffer.length = (recordOf v).size)
      (hfaults : w'.fd.faults = w.fd.faults.tail)
  | failed (hroom : ¬ w.writeBuffer.length + (recordOf v).size < w.capacity)
      (hresult : w.fd.faults.headD .full = .error) (hfilled : w'.Filled kept)
      (hcapacity : w'.capacity = w.capacity)
      (hbuffer : w'.writeBuffer.length = w.writeBuffer.length)
      (hfaults : w'.fd.faults = w.fd.faults.tail)

theorem Filled.push {w : CompactionWriter} {kept : Entries} (hw : w.Filled kept) (h : Hashing)
    (v : Blob × Entry) {bloomFilter : BloomFilter} {trie : Trie}
    (hbloom : w.bloomFilter.insert h v.1 = some bloomFilter)
    (htrie : w.trie.insert v.1 w.diskOffset = some trie) :
    ∃ w', w.pushDropped h (recordOf v) = some w' ∧ w'.bloomFilter = bloomFilter ∧ w'.trie = trie ∧
      w.Pushed w' kept v := by
  have hkey : (recordOf v).keySlice = some v.1 := (Record.canonical_of v.1 v.2).keySlice
  have hblob : logBlob (kept ++ [v]) = logBlob kept ++ (recordOf v).blob := by
    rw [logBlob_append, logBlob_singleton]
  have hsize : (recordOf v).blob.length = (recordOf v).size := rfl
  have hoffset :
      w.diskOffset + (recordOf v).size = headerSize + (logBlob (kept ++ [v])).length := by
    rw [hw.diskOffset, hblob, List.length_append, hsize, Nat.add_assoc]
  simp only [pushDropped, CompactionWriter.push, hkey, hbloom, htrie, Option.bind_eq_bind,
    Option.bind_some, Option.pure_def]
  by_cases hroom : w.writeBuffer.length + (recordOf v).size < w.capacity
  · simp only [if_neg (Nat.not_le.mpr hroom), Option.map_some]
    refine ⟨_, rfl, rfl, rfl, .buffered hroom ⟨hw.atEnd, ?_, hoffset, hw.clean⟩ ?_ ?_ rfl⟩
    · dsimp only
      rw [← List.append_assoc, hw.content, hblob, List.append_assoc _ (logBlob kept)]
    · exact if_pos (Nat.le_of_lt hroom)
    · exact List.length_append
  · simp only [if_pos (Nat.not_lt.mp hroom)]
    rcases File.write_clean hw.clean w.fd.content w.writeBuffer with ⟨hresult, hwrite⟩ |
      ⟨hresult, hwrite⟩
    · rw [← hw.fd_eq] at hwrite
      simp only [hwrite, Option.map_some]
      refine ⟨_, rfl, rfl, rfl, .written hroom hresult ⟨rfl, ?_, hoffset, hw.clean.tail⟩ ?_ ?_ rfl⟩
      · dsimp only
        rw [List.nil_append, hw.content, hblob, List.append_assoc _ (logBlob kept)]
      · dsimp only
        rw [List.length_nil, Nat.zero_add]
      · dsimp only
        rw [List.nil_append, hsize]
    · rw [← hw.fd_eq] at hwrite
      simp only [hwrite, Option.map_some]
      exact ⟨_, rfl, rfl, rfl,
        .failed hroom hresult ⟨rfl, hw.content, hw.diskOffset, hw.clean.tail⟩ rfl rfl rfl⟩

theorem pushDropped_some {h : Hashing} {w w' : CompactionWriter} {v : Blob × Entry}
    (hpush : w.pushDropped h (recordOf v) = some w') :
    (∃ bloomFilter, w.bloomFilter.insert h v.1 = some bloomFilter) ∧
      ∃ trie, w.trie.insert v.1 w.diskOffset = some trie := by
  have hkey : (recordOf v).keySlice = some v.1 := (Record.canonical_of v.1 v.2).keySlice
  simp only [pushDropped, CompactionWriter.push, hkey, Option.bind_eq_bind, Option.bind_some,
    Option.map_eq_some_iff, Option.bind_eq_some_iff] at hpush
  obtain ⟨_, ⟨bloomFilter, hbloom, trie, htrie, _⟩, _⟩ := hpush
  exact ⟨⟨bloomFilter, hbloom⟩, trie, htrie⟩

/-- The pushes keep the records whose writes do not fail. -/
theorem Filled.pushAll {h : Hashing} {w w' : CompactionWriter} {kept : Entries}
    (hw : w.Filled kept) {es : Entries}
    (hpush : (es.map recordOf).foldlM (pushDropped h) w = some w') {results rest : List IoResult}
    (hwrites : pushWrites w.capacity w.writeBuffer.length (es.map fun v =>
      (recordOf v).size) w.fd.faults = (results, rest)) :
    ∃ new, w'.Filled (kept ++ new) ∧ w'.fd.faults = rest ∧ new.Sublist es ∧
      (.error ∉ results → new = es) ∧ (.error ∈ results → new.length < es.length) := by
  induction es generalizing w kept results rest with
  | nil =>
    cases hpush
    cases hwrites
    exact ⟨[], by rwa [List.append_nil], rfl, .slnil, fun _ => rfl, by nofun⟩
  | cons v es ih =>
    rw [List.map_cons, List.foldlM_cons] at hpush
    obtain ⟨w1, hfirst, hpush⟩ := Option.bind_eq_some_iff.mp hpush
    obtain ⟨⟨bloomFilter, hbloom⟩, trie, htrie⟩ := pushDropped_some hfirst
    obtain ⟨w2, hsecond, _, _, hpushed⟩ := hw.push h v hbloom htrie
    cases hfirst.symm.trans hsecond
    rw [List.map_cons] at hwrites
    cases hpushed with
    | buffered hroom hfilled hcapacity hbuffer hfaults =>
      rw [pushWrites, if_pos hroom, ← hcapacity, ← hbuffer, ← hfaults] at hwrites
      obtain ⟨new, hnew, hrest, hsub, hall, hlost⟩ := ih hfilled hpush hwrites
      rw [List.append_assoc] at hnew
      exact ⟨v :: new, hnew, hrest, hsub.cons_cons v, fun hclean => by rw [hall hclean],
        fun herror => Nat.succ_lt_succ (hlost herror)⟩
    | written hroom hresult hfilled hcapacity hbuffer hfaults =>
      rw [pushWrites_full hroom hresult, ← hcapacity, ← hbuffer, ← hfaults] at hwrites
      cases hwrites
      obtain ⟨new, hnew, hrest, hsub, hall, hlost⟩ := ih hfilled hpush rfl
      rw [List.append_assoc] at hnew
      refine ⟨v :: new, hnew, hrest, hsub.cons_cons v, fun hclean => ?_, fun herror => ?_⟩
      · rw [hall fun herror => hclean (List.mem_cons_of_mem _ herror)]
      · exact Nat.succ_lt_succ (hlost ((List.mem_cons.mp herror).resolve_left (by decide)))
    | failed hroom hresult hfilled hcapacity hbuffer hfaults =>
      rw [pushWrites_error hroom hresult, ← hcapacity, ← hbuffer, ← hfaults] at hwrites
      cases hwrites
      obtain ⟨new, hnew, hrest, hsub, _, _⟩ := ih hfilled hpush rfl
      refine ⟨new, hnew, hrest, hsub.cons v, fun hclean => ?_, fun _ => ?_⟩
      · exact absurd (List.mem_cons_self ..) hclean
      · exact Nat.lt_succ_of_le hsub.length_le

/-- The trie and the filter take further keys. -/
structure Indexes (w : CompactionWriter) (h : Hashing) (all : List Blob) : Prop where
  maps : ∃ m, w.trie.Maps all m
  bloom : w.bloomFilter.Extends (BloomFilter.new h 1024)

/-- Failed or not, pushes of keys the trie can number do not panic. -/
theorem Filled.pushes {h : Hashing} {all : List Blob} (hnodes : all.length ≤ 2 ^ 32)
    {w : CompactionWriter} {kept : Entries} (hw : w.Filled kept) (hindex : w.Indexes h all)
    {es : Entries} (hall : ∀ v ∈ es, ∀ pre, pre <+: v.1 → pre ∈ all)
    (hsize : headerSize + (logBlob kept).length + (logBlob es).length < 2 ^ 63) :
    ∃ w', (es.map recordOf).foldlM (pushDropped h) w = some w' ∧ w'.Indexes h all := by
  induction es generalizing w kept with
  | nil => exact ⟨w, rfl, hindex⟩
  | cons v es ih =>
    obtain ⟨m, hmaps⟩ := hindex.maps
    have hcons : (logBlob (v :: es)).length = (logBlob [v]).length + (logBlob es).length := by
      rw [← List.length_append, ← logBlob_append]
      rfl
    have hoffset : w.diskOffset < 2 ^ 63 := by
      rw [hw.diskOffset]
      omega
    obtain ⟨bloomFilter, hbloom, hext, _⟩ := hindex.bloom.formed.insert h v.1
    obtain ⟨trie, htrie, hmaps'⟩ := hmaps.insert hnodes (hall v (List.mem_cons_self ..)) hoffset
    obtain ⟨w1, hfirst, hfilter, htrie', hpushed⟩ := hw.push h v hbloom htrie
    have hindex1 : w1.Indexes h all := ⟨⟨_, htrie' ▸ hmaps'⟩, hfilter ▸ hext.trans hindex.bloom⟩
    have hkept : ∃ kept1, w1.Filled kept1 ∧
        (logBlob kept1).length ≤ (logBlob kept).length + (logBlob [v]).length := by
      cases hpushed with
      | buffered _ hfilled | written _ _ hfilled =>
        exact ⟨_, hfilled, by rw [logBlob_append, List.length_append]⟩
      | failed _ _ hfilled => exact ⟨_, hfilled, Nat.le_add_right ..⟩
    obtain ⟨kept1, hfilled, hlength⟩ := hkept
    obtain ⟨w', hrest, hindex'⟩ :=
      ih hfilled hindex1 (fun u hu => hall u (List.mem_cons_of_mem _ hu)) (by omega)
    refine ⟨w', ?_, hindex'⟩
    rw [List.map_cons, List.foldlM_cons, hfirst]
    exact hrest

/-! ## The file -/

theorem write_some {fd fd' : File} (hend : fd.pos = fd.content.length) (hclean : Clean fd.faults)
    {buf : Blob} {n : Nat} (hrun : (Fd.write buf).runOn fd = some (.ok n, fd')) :
    fd.faults.headD .full = .full ∧
      fd' = ⟨fd.content ++ buf, (fd.content ++ buf).length, fd.faults.tail⟩ := by
  obtain ⟨content, pos, faults⟩ := fd
  simp only at hend
  subst hend
  rw [Fd.write, Fallible.runOn_step] at hrun
  rcases File.write_clean hclean content buf with ⟨hresult, hwrite⟩ | ⟨_, hwrite⟩
  · rw [hwrite] at hrun
    cases hrun
    exact ⟨hresult, rfl⟩
  · rw [hwrite] at hrun
    cases hrun

theorem write_full {content buf : Blob} {faults : List IoResult} (hclean : Clean faults)
    (hresult : faults.headD .full ≠ .error) :
    (Fd.write buf).runOn ⟨content, content.length, faults⟩ =
      some (.ok buf.length, ⟨content ++ buf, (content ++ buf).length, faults.tail⟩) := by
  rw [Fd.write, Fallible.runOn_step]
  rcases File.write_clean hclean content buf with ⟨_, hwrite⟩ | ⟨herror, _⟩
  · rw [hwrite]
  · exact absurd herror hresult

theorem new_some {h : Hashing} {fileTs : Nat} {faults : List IoResult} (hclean : Clean faults)
    {w : CompactionWriter} (hnew : new h fileTs faults = some (.ok w)) :
    w.Filled [] ∧ w.trie = Trie.new ∧ w.bloomFilter = BloomFilter.new h 1024 ∧ w.writeBuffer = [] ∧
      w.capacity = 4096 ∧ w.fd.faults = faults.drop 2 := by
  rw [new, Option.bind_eq_bind, Option.bind_eq_some_iff] at hnew
  obtain ⟨⟨r, fd⟩, hheader, hnew⟩ := hnew
  cases r with
  | error e => cases hnew
  | ok u =>
    cases hnew
    obtain ⟨_, fd1, hfirst, hheader⟩ := Fallible.of_bind_ok hheader
    obtain ⟨_, fd2, hsecond, hheader⟩ := Fallible.of_bind_ok hheader
    cases hheader
    obtain ⟨_, rfl⟩ := write_some rfl hclean hfirst
    obtain ⟨_, rfl⟩ := write_some rfl hclean.tail hsecond
    have hdrop : faults.tail.tail = faults.drop 2 := by
      rw [← List.drop_one, ← List.drop_one, List.drop_drop]
    exact ⟨⟨rfl, rfl, rfl, hclean.tail.tail⟩, rfl, rfl, rfl, rfl, hdrop⟩

theorem new_full (h : Hashing) (fileTs : Nat) {faults : List IoResult} (hclean : Clean faults)
    (hresults : .error ∉ faults.take 2) : ∃ w, new h fileTs faults = some (.ok w) := by
  obtain ⟨hfirst, hresults⟩ := succeeds_succ hresults
  obtain ⟨hsecond, _⟩ := succeeds_succ hresults
  have hheader : (Fd.write lsmliteSstableHeader).runOn (File.create faults) = _ :=
    write_full hclean hfirst
  have hversion : (Fd.write (toBe 2 v0Header)).runOn ⟨[] ++ lsmliteSstableHeader, _,
      faults.tail⟩ = _ :=
    write_full hclean.tail hsecond
  have hrun : (do
      let _ ← Fd.write lsmliteSstableHeader
      let _ ← Fd.write (toBe 2 v0Header) : Fd IoError Unit).runOn (File.create faults) =
          some (.ok (), _) :=
    (Fallible.bind_ok hheader).trans ((Fallible.bind_ok hversion).trans rfl)
  rw [new]
  simp only [hrun, Option.bind_eq_bind, Option.bind_some]
  exact ⟨_, rfl⟩

/-- What `finish` leaves behind the kept records. -/
theorem Filled.finish_some {w : CompactionWriter} {kept : Entries} (hw : w.Filled kept)
    {path : PathBuf} {file : File} (hfinish : w.finish = some (.ok path, file)) :
    ∃ index bloom, w.trie.serialize = some index ∧ w.bloomFilter.serialize = some bloom ∧
      file.content = tableBytes kept index bloom := by
  rw [CompactionWriter.finish] at hfinish
  obtain ⟨_, fd1, h1, hfinish⟩ := Fallible.of_bind_ok hfinish
  obtain ⟨_, rfl⟩ := write_some hw.atEnd hw.clean h1
  obtain ⟨index, fd2, h2, hfinish⟩ := Fallible.of_bind_ok hfinish
  obtain ⟨_, hindex, heq⟩ := Option.map_eq_some_iff.mp h2
  cases heq
  obtain ⟨_, fd3, h3, hfinish⟩ := Fallible.of_bind_ok hfinish
  obtain ⟨_, rfl⟩ := write_some rfl hw.clean.tail h3
  obtain ⟨bloom, fd4, h4, hfinish⟩ := Fallible.of_bind_ok hfinish
  obtain ⟨_, hbloom, heq⟩ := Option.map_eq_some_iff.mp h4
  cases heq
  obtain ⟨_, fd5, h5, hfinish⟩ := Fallible.of_bind_ok hfinish
  obtain ⟨_, rfl⟩ := write_some rfl hw.clean.tail.tail h5
  obtain ⟨_, fd6, h6, hfinish⟩ := Fallible.of_bind_ok hfinish
  obtain ⟨_, rfl⟩ := write_some rfl hw.clean.tail.tail.tail h6
  cases hfinish
  refine ⟨index, bloom, hindex, hbloom, ?_⟩
  simp only [hw.content, hw.diskOffset, tableBytes, List.append_assoc]

theorem Filled.finish_full {w : CompactionWriter} {kept : Entries} (hw : w.Filled kept)
    (hresults : .error ∉ w.fd.faults.take 4) {index bloom : Blob}
    (hindex : w.trie.serialize = some index) (hbloom : w.bloomFilter.serialize = some bloom) :
    ∃ path file, w.finish = some (.ok path, file) ∧ file.content = tableBytes kept index bloom := by
  obtain ⟨h1, hresults⟩ := succeeds_succ hresults
  obtain ⟨h2, hresults⟩ := succeeds_succ hresults
  obtain ⟨h3, hresults⟩ := succeeds_succ hresults
  obtain ⟨h4, _⟩ := succeeds_succ hresults
  have hfinish : ∃ path file, w.finish = some (.ok path, file) := by
    rw [CompactionWriter.finish, hw.fd_eq]
    apply Exists.intro w.filename
    apply Exists.intro
    refine (Fallible.bind_ok (write_full hw.clean h1)).trans ?_
    rw [hindex]
    refine (Fallible.bind_ok (Fallible.runOn_lift_some _ _)).trans ?_
    refine (Fallible.bind_ok (write_full hw.clean.tail h2)).trans ?_
    rw [hbloom]
    refine (Fallible.bind_ok (Fallible.runOn_lift_some _ _)).trans ?_
    refine (Fallible.bind_ok (write_full hw.clean.tail.tail h3)).trans ?_
    exact (Fallible.bind_ok (write_full hw.clean.tail.tail.tail h4)).trans rfl
  obtain ⟨path, file, hfinish⟩ := hfinish
  obtain ⟨index', bloom', hindex', hbloom', hfile⟩ := hw.finish_some hfinish
  cases hindex.symm.trans hindex'
  cases hbloom.symm.trans hbloom'
  exact ⟨path, file, hfinish, hfile⟩

end CompactionWriter

theorem filterBlock_tableBytes {es : Entries} {index bloom : Blob}
    (hlength : (tableBytes es index bloom).length < 2 ^ 64) :
    filterBlock (tableBytes es index bloom) = bloom := by
  have hlen := tableBytes_length es index bloom
  have hfront : (((lsmliteSstableHeader ++ toBe 2 v0Header) ++ logBlob es) ++ index).length =
      headerSize + (logBlob es).length + index.length := by
    rw [List.length_append, List.length_append, header_length]
  rw [filterBlock, filterStart_tableBytes hlength, hlen, tableBytes, ← List.append_assoc,
    ← List.append_assoc, List.drop_left' hfront, List.take_left' (by omega)]

/-- The blocks of a table that can be read make a table. -/
theorem fromFd_tableBytes {es : Entries} {index bloom : Blob}
    (hlength : (tableBytes es index bloom).length < 2 ^ 64) (hindex : index.length < 2 ^ 63)
    (hfilterlen : bloom.length < 2 ^ 63) {trie : Trie}
    (htrie : Trie.deserializeFromDisk index = some trie) {bloomFilter : BloomFilter}
    (hbloom : BloomFilter.fromBytes bloom = some bloomFilter) :
    ∃ s, SSTable.fromFd (.opened (tableBytes es index bloom) []) = some (.ok s) := by
  have hlen := tableBytes_length es index bloom
  have hstart := indexStart_tableBytes hlength
  have hfilter := filterStart_tableBytes hlength
  have hheader : ¬ HeaderFails (tableBytes es index bloom) := by
    rintro (hshort | hother)
    · omega
    · exact hother rfl
  have hfooter : FooterSound isizeMax (tableBytes es index bloom) :=
    ⟨by omega, by omega, allocates_isizeMax.mpr (by omega)⟩
  have hblock : FilterSound isizeMax (tableBytes es index bloom) :=
    ⟨by omega, allocates_isizeMax.mpr (by omega)⟩
  have hcut : ¬ IndexCut (tableBytes es index bloom) := fun hcut => by
    have := hcut.1
    omega
  obtain ⟨version, fd, _, _, hload⟩ := SSTable.fromFd_blocks hheader hfooter hcut
  rw [indexBlock_tableBytes hlength, Trie.deserializeWithin_isizeMax, htrie, Option.bind_some,
    if_pos hblock, filterBlock_tableBytes hlength, hbloom] at hload
  exact ⟨_, hload⟩

/-! ## The run -/

theorem runCompaction_some {h : Hashing} {iters : List SSTableIterator} {es : Entries}
    (hloop : ∀ w, Merge.run (CompactionWriter.pushDropped h) w iters = (es.map recordOf).foldlM
      (CompactionWriter.pushDropped h) w) {faults : List IoResult} (hclean : Clean faults)
    {fileTs : Nat} {table : SSTable} {path : PathBuf}
    (hrun : runCompaction h iters fileTs faults = some (table, path))
    {results rest : List IoResult}
    (hwrites :
      pushWrites 4096 0 (es.map fun v => (recordOf v).size) (faults.drop 2) = (results, rest)) :
    ∃ kept index bloom, table.fd.content = tableBytes kept index bloom ∧
      table.index.dataBlockEnd = indexStart table.fd.content ∧ kept.Sublist es ∧
      (.error ∉ results → kept = es) ∧ (.error ∈ results → kept.length < es.length) := by
  rw [runCompaction, Option.bind_eq_bind, Option.bind_eq_some_iff] at hrun
  obtain ⟨created, hnew, hrun⟩ := hrun
  cases created with
  | error e => cases hrun
  | ok w0 =>
    obtain ⟨hw0, _, _, hbuffer, hcapacity, hfaults⟩ := CompactionWriter.new_some hclean hnew
    obtain ⟨w, hpush, hrun⟩ := Option.bind_eq_some_iff.mp hrun
    obtain ⟨⟨r, file⟩, hfinish, hrun⟩ := Option.bind_eq_some_iff.mp hrun
    cases r with
    | error e => cases hrun
    | ok newTablePath =>
      obtain ⟨loaded, hload, hrun⟩ := Option.bind_eq_some_iff.mp hrun
      cases loaded with
      | error e => cases hrun
      | ok sstable =>
        cases hrun
        rw [hloop] at hpush
        rw [← hcapacity, ← hfaults, show 0 = w0.writeBuffer.length by rw [hbuffer]; rfl] at hwrites
        obtain ⟨kept, hkept, _, hsub, hall, hlost⟩ := hw0.pushAll hpush hwrites
        rw [List.nil_append] at hkept
        obtain ⟨index, bloom, _, _, hfile⟩ := hkept.finish_some hfinish
        obtain ⟨hcontent, _, hend, _⟩ := SSTable.fromFd_ok hload
        exact ⟨kept, index, bloom, hcontent.trans hfile, hcontent ▸ hend, hsub, hall, hlost⟩

/-- With the calls around the pushes successful, the compaction ends with a table, whatever the
pushes lose. -/
theorem runCompaction_full {h : Hashing} {iters : List SSTableIterator} {es : Entries}
    (hloop : ∀ w, Merge.run (CompactionWriter.pushDropped h) w iters = (es.map recordOf).foldlM
      (CompactionWriter.pushDropped h) w) (hrep : Representable es) {faults : List IoResult}
    (hclean : Clean faults) (hheader : .error ∉ faults.take 2) {results rest : List IoResult}
    (hwrites :
      pushWrites 4096 0 (es.map fun v => (recordOf v).size) (faults.drop 2) = (results, rest))
    (hfinish : .error ∉ rest.take 4) (fileTs : Nat) :
    ∃ table path, runCompaction h iters fileTs faults = some (table, path) ∧
      table.fd.content.length < 2 ^ 64 := by
  obtain ⟨w0, hnew⟩ := CompactionWriter.new_full h fileTs hclean hheader
  obtain ⟨hw0, htrie, hbloom, hbuffer, hcapacity, hfaults⟩ := CompactionWriter.new_some hclean hnew
  have hindex0 : w0.Indexes h (prefixes es) := by
    constructor
    · exact ⟨_, htrie ▸ Trie.maps_new (prefixes es)⟩
    · rw [hbloom]
      exact BloomFilter.Extends.refl (BloomFilter.formed_new h 1024)
  have hsize := hrep.size
  obtain ⟨w, hpush, hindex⟩ := hw0.pushes hrep.roomy.nodes.le hindex0
    (fun v hv pre hpre => mem_prefixes hv hpre) (by simpa [logBlob] using hsize)
  rw [← hcapacity, ← hfaults, show 0 = w0.writeBuffer.length by rw [hbuffer]; rfl] at hwrites
  obtain ⟨kept, hkept, hrest, hsub, _, _⟩ := hw0.pushAll hpush hwrites
  rw [List.nil_append] at hkept
  obtain ⟨m, hmaps⟩ := hindex.maps
  have htrieLt := hmaps.bytes_lt hrep.roomy.nodes
  have hbloomLt := bloom_bytes_lt hindex.bloom (show 1024 < 2 ^ 32 by decide)
  obtain ⟨path, file, hend, hfile⟩ := hkept.finish_full (hrest ▸ hfinish)
    (Trie.serialize_eq (show w.trie.bytes.length < 2 ^ 63 by omega))
    (BloomFilter.serialize_eq (show w.bloomFilter.bytes.length < 2 ^ 63 by omega))
  have hlength : (tableBytes kept w.trie.bytes w.bloomFilter.bytes).length < 2 ^ 64 := by
    have hlen := tableBytes_length kept w.trie.bytes w.bloomFilter.bytes
    have hle : (logBlob kept).length ≤ (logBlob es).length := (hsub.flatMap _).length_le
    simp only [footerSize] at hlen
    omega
  obtain ⟨table, hload⟩ := fromFd_tableBytes hlength (by omega) (by omega) (hmaps.codec hrep.roomy)
    (hindex.bloom.formed.codec (by omega))
  rw [← hfile] at hload
  have hcontent := (SSTable.fromFd_ok hload).1
  refine ⟨table, path, ?_, by rw [hcontent, hfile]; exact hlength⟩
  simp only [runCompaction, hnew, hloop, hpush, hend, hload, Option.bind_eq_bind, Option.bind_some,
    Option.pure_def]

end Lsmlite
