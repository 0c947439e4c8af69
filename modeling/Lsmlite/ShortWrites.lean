import Lsmlite.SSTableWriters

/-!
# Writes that accept a part

`write` may accept a part of its buffer, and its callers drop the number it returns. The log clears
its buffer behind any write; the writers of the tables go on behind a short one.
-/

namespace Lsmlite
open Bytes KeyValue

/-! ## One write -/

/-- How many of `n` bytes a write accepts. -/
def IoResult.accepted (n : Nat) : IoResult → Nat
  | .full => n
  | .short m => min m n
  | .error => 0

theorem IoResult.accepted_le (n : Nat) (r : IoResult) : r.accepted n ≤ n := by
  cases r with
  | full => exact Nat.le_refl n
  | short m => exact Nat.min_le_right m n
  | error => exact Nat.zero_le n

/-- The write accepts its whole buffer. -/
def IoResult.Whole (n : Nat) (r : IoResult) : Prop := r.accepted n = n

instance (n : Nat) (r : IoResult) : Decidable (r.Whole n) := inferInstanceAs (Decidable (_ = _))

/-- At the end of a file, the bytes that are accepted are appended. -/
theorem File.write_accepted {fd : File} (hend : fd.pos = fd.content.length) (buf : Blob) :
    (fd.write buf).2 = ⟨fd.content ++ buf.take ((fd.faults.headD .full).accepted buf.length),
      (fd.content ++ buf.take ((fd.faults.headD .full).accepted buf.length)).length,
        fd.faults.tail⟩ := by
  obtain ⟨content, pos, faults⟩ := fd
  simp only at hend
  subst hend
  cases faults with
  | nil => simp [File.write, File.put, IoResult.accepted]
  | cons r faults =>
    cases r with
    | full => simp [File.write, File.next, File.put, IoResult.accepted]
    | short n =>
      have htake : buf.take (min n buf.length) = buf.take n := List.take_eq_take_min.symm
      simp [File.write, File.next, File.put, IoResult.accepted, htake]
    | error => simp [File.write, File.next, IoResult.accepted]

theorem take_accepted_eq_iff {buf : Blob} {r : IoResult} :
    buf.take (r.accepted buf.length) = buf ↔ r.Whole buf.length := by
  have hle := r.accepted_le buf.length
  rw [List.take_eq_self_iff, IoResult.Whole]
  omega

/-! ## The log -/

namespace Wal

/-- The records of `ws`, logged one after another at these clock readings. -/
def logAll (wal : Wal) (ws : List (Record × Clock)) : Wal :=
  ws.foldl (fun wal w => wal.writeLog w.1 w.2) wal

/-- The file and the buffer behind it have the bytes of the records. -/
def Keeps (wal : Wal) (rs : List Record) : Prop := wal.fd.content ++ wal.buffer = blobs rs

/-- At every point of the run, nothing logged so far is lost. -/
def LosesNothing (wal : Wal) (ws : List (Record × Clock)) : Prop :=
  ∀ logged rest, ws = logged ++ rest → (wal.logAll logged).Keeps (logged.map Prod.fst)

/-- Where a record makes the log flush, the write accepts the whole buffer. -/
def FlushesWhole : Wal → List (Record × Clock) → Prop
  | _, [] => True
  | wal, (r, clock) :: ws =>
    (wal.needsFlush clock.now = true → (wal.fd.faults.headD .full).Whole wal.buffer.length) ∧
      FlushesWhole (wal.writeLog r clock) ws

theorem logAll_cons (wal : Wal) (w : Record × Clock) (ws : List (Record × Clock)) :
    wal.logAll (w :: ws) = (wal.writeLog w.1 w.2).logAll ws := rfl

/-- A record is logged behind what its flush accepts of the buffer. -/
theorem writeLog_bytes {wal : Wal} (hend : wal.fd.pos = wal.fd.content.length) (r : Record)
    (clock : Clock) :
    (wal.writeLog r clock).fd.pos = (wal.writeLog r clock).fd.content.length ∧
      ∃ kept, (wal.writeLog r clock).fd.content ++ (wal.writeLog r clock).buffer =
        wal.fd.content ++ (kept ++ r.blob) ∧
      (kept = wal.buffer ↔ (wal.needsFlush clock.now = true →
        (wal.fd.faults.headD .full).Whole wal.buffer.length)) := by
  by_cases hflush : wal.needsFlush clock.now = true
  · have hwrite := File.write_accepted hend wal.buffer
    simp only [writeLog, if_pos hflush, flush, hwrite]
    refine ⟨trivial,
      wal.buffer.take ((wal.fd.faults.headD .full).accepted wal.buffer.length), ?_, ?_⟩
    · rw [List.nil_append, List.append_assoc]
    · rw [take_accepted_eq_iff]
      exact ⟨fun hwhole _ => hwhole, fun hwhole => hwhole hflush⟩
  · simp only [writeLog, if_neg hflush]
    exact ⟨hend, wal.buffer, rfl, fun _ hno => absurd hno hflush, fun _ => rfl⟩

/-- From a log with these records on. -/
theorem Keeps.flushesWhole_iff {wal : Wal} {rs : List Record} (hwal : wal.Keeps rs)
    (hend : wal.fd.pos = wal.fd.content.length) {ws : List (Record × Clock)} :
    (∀ logged rest, ws = logged ++ rest → (wal.logAll logged).Keeps (rs ++ logged.map Prod.fst)) ↔
      wal.FlushesWhole ws := by
  induction ws generalizing wal rs with
  | nil =>
    constructor
    · exact fun _ => trivial
    · intro _ logged rest hsplit
      obtain ⟨rfl, rfl⟩ := List.append_eq_nil_iff.mp hsplit.symm
      rwa [List.map_nil, List.append_nil]
  | cons w ws ih =>
    obtain ⟨r, clock⟩ := w
    obtain ⟨hend', kept, hbytes, hkept⟩ := writeLog_bytes hend r clock
    have hblobs : blobs (rs ++ [r]) = wal.fd.content ++ (wal.buffer ++ r.blob) := by
      rw [← List.append_assoc, show wal.fd.content ++ wal.buffer = blobs rs from hwal]
      simp [blobs]
    have hfirst : (wal.writeLog r clock).Keeps (rs ++ [r]) ↔ kept = wal.buffer := by
      constructor
      · intro hkeeps
        have hsame := hbytes.symm.trans (hkeeps.trans hblobs)
        exact List.append_cancel_right (List.append_cancel_left hsame)
      · rintro rfl
        exact hbytes.trans hblobs.symm
    rw [FlushesWhole, ← hkept, ← hfirst]
    constructor
    · intro hall
      have hkeeps := hall [(r, clock)] ws rfl
      refine ⟨hkeeps, (ih hkeeps hend').mp ?_⟩
      rintro logged rest rfl
      have hlater := hall ((r, clock) :: logged) rest rfl
      rwa [logAll_cons, List.map_cons, List.append_cons] at hlater
    · rintro ⟨hkeeps, hrest⟩ logged rest hsplit
      cases logged with
      | nil => rwa [List.map_nil, List.append_nil]
      | cons w logged =>
        obtain ⟨rfl, hbehind⟩ := List.cons.inj hsplit
        have hlater := (ih hkeeps hend').mpr hrest logged rest hbehind
        rwa [logAll_cons, List.map_cons, List.append_cons]

/-- A new log loses nothing if and only if every flush writes the whole buffer. -/
theorem losesNothing_iff (fileTs now : Nat) (faults : List IoResult) (ws : List (Record × Clock)) :
    (new fileTs now faults).LosesNothing ws ↔ (new fileTs now faults).FlushesWhole ws := by
  have hnew : (new fileTs now faults).Keeps [] := rfl
  exact hnew.flushesWhole_iff rfl

/-- The clock flushes the first record with the second, and the write accepts none of it. -/
theorem failed_flush_loses_record : ∃ r r', encodeDataRecord [97] [1] = some r ∧
    encodeDataRecord [98] [2] = some r' ∧
    ¬ (new 0 0 [.error]).LosesNothing [(r, ⟨0, 0⟩), (r', ⟨401, 401⟩)] := by
  refine ⟨Record.of [97] (.data [1]), Record.of [98] (.data [2]), Record.encodeDataRecord_eq
    (by decide +kernel), Record.encodeDataRecord_eq (by decide +kernel), fun hkeeps => ?_⟩
  have hall := hkeeps _ [] (List.append_nil _).symm
  revert hall
  unfold Keeps
  decide +kernel

end Wal

/-! ## One write after another -/

/-- The buffers written one after another. -/
def Fd.writeAll : List Blob → Fd IoError Unit
  | [] => pure ()
  | buf :: bufs => do
    let _ ← Fd.write buf
    writeAll bufs

/-- Every write accepts its whole buffer. -/
def AllWhole : List IoResult → List Blob → Prop
  | _, [] => True
  | faults, buf :: bufs => (faults.headD .full).Whole buf.length ∧ AllWhole faults.tail bufs

instance : (faults : List IoResult) → (bufs : List Blob) → Decidable (AllWhole faults bufs)
  | _, [] => inferInstanceAs (Decidable True)
  | faults, _ :: bufs => @instDecidableAnd _ _ _ (instDecidableAllWhole faults.tail bufs)

theorem Fd.write_ok {fd fd' : File} {buf : Blob} {n : Nat} (hend : fd.pos = fd.content.length)
    (hrun : (Fd.write buf).runOn fd = some (.ok n, fd')) :
    fd' = ⟨fd.content ++ buf.take ((fd.faults.headD .full).accepted buf.length),
      (fd.content ++ buf.take ((fd.faults.headD .full).accepted buf.length)).length,
        fd.faults.tail⟩ := by
  rw [Fd.write, Fallible.runOn_step, Option.some.injEq] at hrun
  rw [← File.write_accepted hend, hrun]

theorem Fd.writeAll_cons {buf : Blob} {bufs : List Blob} {fd fd' fd'' : File} {n : Nat}
    (hwrite : (write buf).runOn fd = some (.ok n, fd'))
    (hrest : (writeAll bufs).runOn fd' = some (.ok (), fd'')) :
    (writeAll (buf :: bufs)).runOn fd = some (.ok (), fd'') :=
  (Fallible.bind_ok hwrite).trans hrest

theorem Fd.writeAll_append {bufs more : List Blob} {fd fd' fd'' : File}
    (hfirst : (writeAll bufs).runOn fd = some (.ok (), fd'))
    (hrest : (writeAll more).runOn fd' = some (.ok (), fd'')) :
    (writeAll (bufs ++ more)).runOn fd = some (.ok (), fd'') := by
  induction bufs generalizing fd with
  | nil =>
    cases hfirst
    exact hrest
  | cons buf bufs ih =>
    obtain ⟨n, fd1, hwrite, hfirst⟩ := Fallible.of_bind_ok hfirst
    exact writeAll_cons hwrite (ih hfirst)

theorem Fd.writeAll_singleton {buf : Blob} {fd fd' : File} {n : Nat}
    (hwrite : (Fd.write buf).runOn fd = some (.ok n, fd')) :
    (writeAll [buf]).runOn fd = some (.ok (), fd') :=
  writeAll_cons hwrite rfl

/-- What is written is no longer than the buffers, and is all of them if and only if every write
accepts its whole buffer. -/
theorem Fd.writeAll_ok {bufs : List Blob} {fd fd' : File} (hend : fd.pos = fd.content.length)
    (hrun : (writeAll bufs).runOn fd = some (.ok (), fd')) :
    ∃ written, fd'.content = fd.content ++ written ∧ written.length ≤ bufs.flatten.length ∧
      (written = bufs.flatten ↔ AllWhole fd.faults bufs) := by
  induction bufs generalizing fd with
  | nil =>
    cases hrun
    exact ⟨[], (List.append_nil _).symm, Nat.le_refl _, fun _ => trivial, fun _ => rfl⟩
  | cons buf bufs ih =>
    obtain ⟨n, fd1, hwrite, hrest⟩ := Fallible.of_bind_ok hrun
    obtain rfl := Fd.write_ok hend hwrite
    obtain ⟨written, hcontent, hle, hwhole⟩ := ih rfl hrest
    obtain ⟨taken, htaken⟩ : ∃ taken,
      taken = buf.take ((fd.faults.headD .full).accepted buf.length) := ⟨_, rfl⟩
    have hshort : taken.length ≤ buf.length := by
      rw [htaken, List.length_take]
      exact Nat.min_le_right ..
    rw [← htaken, List.append_assoc] at hcontent
    refine ⟨taken ++ written, hcontent, ?_, ?_⟩
    · rw [List.flatten_cons, List.length_append, List.length_append]
      omega
    · rw [AllWhole, ← take_accepted_eq_iff, ← htaken, ← hwhole, List.flatten_cons]
      constructor
      · intro hsame
        -- Neither part can be shorter than its buffers.
        have hlength := congrArg List.length hsame
        rw [List.length_append, List.length_append] at hlength
        exact List.append_inj hsame (by omega)
      · rintro ⟨rfl, rfl⟩
        rfl

/-! ## The files of the writers -/

/-- One more record in the index. -/
def indexOne (h : Hashing) (st : Nat × Trie × BloomFilter) (r : Record) :
    Option (Nat × Trie × BloomFilter) := do
  let key ← r.keySlice
  let bloomFilter ← st.2.2.insert h key
  let trie ← st.2.1.insert key st.1
  return (st.1 + r.size, trie, bloomFilter)

/-- The blocks that index every record where it begins; `size` is what the filter is made for. -/
def Blocks (h : Hashing) (size : Nat) (rs : List Record) (index bloom : Blob) : Prop :=
  ∃ st, rs.foldlM (indexOne h) (headerSize, Trie.new, BloomFilter.new h size) = some st ∧
    st.2.1.serialize = some index ∧ st.2.2.serialize = some bloom

/-- Header, records, index block, bloom filter and footer. -/
def completeFile (rs : List Record) (index bloom : Blob) : Blob :=
  lsmliteSstableHeader ++ (toBe 2 v0Header ++ (blobs rs ++ (index ++ (bloom ++
    encodeFooter (headerSize + (blobs rs).length) index.length
      (headerSize + (blobs rs).length + index.length)))))

/-- The buffers that the pushes of these records write, and the one that `finish` writes. -/
def pushBuffers : Nat → Blob → List Record → List Blob
  | _, buffer, [] => [buffer]
  | capacity, buffer, r :: rs =>
    if capacity ≤ buffer.length + r.size then
      buffer :: pushBuffers (reserved capacity r.size) r.blob rs
    else pushBuffers capacity (buffer ++ r.blob) rs

namespace Writer

/-- What the bloom filter is made for. -/
def filterSize : Writer → List Record → Nat
  | .flush, rs => rs.length
  | .compaction, _ => 1024

/-- The records in the buffers they are written in. -/
def recordBuffers : Writer → List Record → List Blob
  | .flush, rs => rs.map (·.blob)
  | .compaction, rs => pushBuffers 4096 [] rs

/-- The buffers in the order they are written. -/
def buffers (writer : Writer) (rs : List Record) (index bloom : Blob) : List Blob :=
  [lsmliteSstableHeader, toBe 2 v0Header] ++ (writer.recordBuffers rs ++ [index, bloom,
    encodeFooter (headerSize + (blobs rs).length) index.length
      (headerSize + (blobs rs).length + index.length)])

end Writer

/-- Every push returns `Ok`. -/
inductive PushesOk (h : Hashing) : CompactionWriter → List Record → CompactionWriter → Prop
  | nil (w : CompactionWriter) : PushesOk h w [] w
  | cons {w w1 w' : CompactionWriter} {r : Record} {rs : List Record}
      (hpush : w.push h r = some (.ok (), w1))
      (hrest : PushesOk h w1 rs w') : PushesOk h w (r :: rs) w'

/-- A writer that gets these results for its writes returns `Ok` and leaves the file: a flush of a
memtable with the records, or a compaction that pushes them. -/
inductive ReturnsOk (h : Hashing) (faults : List IoResult) (rs : List Record) : Writer → File → Prop
  | flush {t : MemtableInner} {fd : File} (ht : t.Reached) (hrs : InKeyOrder t rs)
      (hrun : (writeSstable h t).runOn (File.create faults) = some (.ok (), fd)) :
        ReturnsOk h faults rs .flush fd
  | compaction {w0 w : CompactionWriter} {fileTs : Nat} {path : PathBuf} {fd : File}
      (hnew : CompactionWriter.new h fileTs faults = some (.ok w0)) (hpushes : PushesOk h w0 rs w)
      (hfinish : w.finish = some (.ok path, fd)) : ReturnsOk h faults rs .compaction fd

theorem pushBuffers_flatten (capacity : Nat) (buffer : Blob) (rs : List Record) :
    (pushBuffers capacity buffer rs).flatten = buffer ++ blobs rs := by
  induction rs generalizing capacity buffer with
  | nil => simp [pushBuffers, blobs]
  | cons r rs ih =>
    have hcons : blobs (r :: rs) = r.blob ++ blobs rs := rfl
    rw [pushBuffers]
    split
    · rw [List.flatten_cons, ih, hcons]
    · rw [ih, hcons, List.append_assoc]

theorem Writer.buffers_flatten (writer : Writer) (rs : List Record) (index bloom : Blob) :
    (writer.buffers rs index bloom).flatten = completeFile rs index bloom := by
  have hrecords : (writer.recordBuffers rs).flatten = blobs rs := by
    cases writer with
    | flush => exact (List.flatMap_def ..).symm
    | compaction => exact pushBuffers_flatten 4096 [] rs
  simp only [buffers, completeFile, List.flatten_append, hrecords, List.flatten_cons,
    List.flatten_nil, List.append_nil, List.append_assoc]

/-! ## A flush -/

/-- A walk that ends well has indexed the records and written them one after another. -/
theorem inorderFlush_ok (h : Hashing) {arena : Arena} {slot : Nat → Blob × Entry}
    (hcanon : ∀ i (n : MemtableNode), arena[i]? = some n →
      n.record.Canonical (slot i).1 (slot i).2) {p : Option Nat} {tree : RedBlack.RbTree}
    {fuel : Nat} (hl : Linked arena p tree) (hfuel : tree.inorder.length ≤ fuel)
    {st st' : Nat × Trie × BloomFilter} {fd fd' : File}
    (hrun : (inorderFlush h arena fuel tree.root st).runOn fd = some (.ok st', fd')) :
    indexAll h st (tree.inorder.map slot) = some st' ∧
      (Fd.writeAll ((tree.inorder.map slot).map fun w => (recordOf w).blob)).runOn fd =
        some (.ok (), fd') := by
  induction tree generalizing p fuel st st' fd fd' with
  | nil =>
    cases fuel <;> cases hrun <;> exact ⟨rfl, rfl⟩
  | node c l i r ihl ihr =>
    obtain ⟨⟨n, hn, _, hnl, hnr, _⟩, hl, hr⟩ := hl
    simp only [RedBlack.RbTree.inorder_node, List.length_append, List.length_cons] at hfuel
    obtain ⟨fuel, rfl⟩ : ∃ k, fuel = k + 1 := ⟨fuel - 1, by omega⟩
    have hblob : n.record.blob = (recordOf (slot i)).blob := (hcanon i n hn).blob
    rw [RedBlack.RbTree.root_node, inorderFlush, hn] at hrun
    obtain ⟨_, fd0, h0, hrun⟩ := Fallible.of_bind_ok hrun
    cases h0
    obtain ⟨⟨diskSize, trie, bloomFilter⟩, fd1, h1, hrun⟩ := Fallible.of_bind_ok hrun
    rw [hnl] at h1
    obtain ⟨hindexl, hwritel⟩ := ihl hl (show _ ≤ fuel by omega) h1
    obtain ⟨_, fd2, h2, hrun⟩ := Fallible.of_bind_ok hrun
    obtain ⟨key, hkey, heq⟩ := Option.map_eq_some_iff.mp h2
    cases heq
    cases (hcanon i n hn).keySlice.symm.trans hkey
    obtain ⟨_, fd3, h3, hrun⟩ := Fallible.of_bind_ok hrun
    obtain ⟨bloomFilter', hbloom, heq⟩ := Option.map_eq_some_iff.mp h3
    cases heq
    obtain ⟨_, fd4, h4, hrun⟩ := Fallible.of_bind_ok hrun
    obtain ⟨trie', htrie, heq⟩ := Option.map_eq_some_iff.mp h4
    cases heq
    obtain ⟨_, fd5, h5, hrun⟩ := Fallible.of_bind_ok hrun
    rw [hnr] at hrun
    obtain ⟨hindexr, hwriter⟩ := ihr hr (show _ ≤ fuel by omega) hrun
    rw [hblob] at h5 hindexr
    constructor
    · rw [RedBlack.RbTree.inorder_node, List.map_append, List.map_cons, indexAll_append, hindexl,
        Option.bind_some, indexAll_cons, indexRecord]
      simp only [hbloom, htrie, Option.bind_eq_bind, Option.bind_some, Option.pure_def]
      exact hindexr
    · rw [RedBlack.RbTree.inorder_node, List.map_append, List.map_cons,
        List.map_append, List.map_cons]
      exact Fd.writeAll_append hwritel (Fd.writeAll_cons h5 hwriter)

theorem StandFor.indexOne {rs : List Record} {es : Entries} (hrs : StandFor rs es) (h : Hashing)
    (st : Nat × Trie × BloomFilter) : rs.foldlM (Lsmlite.indexOne h) st = indexAll h st es := by
  induction hrs generalizing st with
  | nil => rfl
  | @cons r w rs es hr _ ih =>
    have hhead : Lsmlite.indexOne h st r = indexRecord h st w := by
      have hblob : r.blob = (Record.of w.1 w.2).blob := hr.blob
      simp only [Lsmlite.indexOne, indexRecord, hr.keySlice, Record.size, hblob,
        Option.bind_eq_bind, Option.bind_some]
    rw [List.foldlM_cons, indexAll_cons, hhead]
    exact Option.bind_congr fun st' _ => ih st'

theorem StandFor.recordBuffers {rs : List Record} {es : Entries} (hrs : StandFor rs es) :
    Writer.flush.recordBuffers rs = es.map fun w => (recordOf w).blob := by
  induction hrs with
  | nil => rfl
  | cons hr _ ih =>
    rw [Writer.recordBuffers, List.map_cons, List.map_cons]
    exact congrArg₂ _ hr.blob ih

/-- A flush that returns `Ok` has written its buffers one after another. -/
theorem flush_writes {h : Hashing} {faults : List IoResult} {t : MemtableInner} (ht : t.Reached)
    {rs : List Record} (hrs : InKeyOrder t rs) {fd : File}
    (hrun : (writeSstable h t).runOn (File.create faults) = some (.ok (), fd)) :
    ∃ index bloom, Blocks h (Writer.flush.filterSize rs) rs index bloom ∧
      (Fd.writeAll (Writer.flush.buffers rs index bloom)).runOn (File.create faults) =
        some (.ok (), fd) := by
  obtain ⟨es, hes⟩ := ht.holds
  obtain ⟨rs', hrs', hstand⟩ := hes.records
  obtain rfl := hrs.eq hrs'
  have hlength : t.arena.length = rs.length := by
    rw [hrs.perm.length_eq, List.length_map]
  obtain ⟨⟨tree, slot, htree, hinorder⟩, _, _⟩ := hes
  have hfuel : tree.inorder.length ≤ t.arena.length + 1 := by
    rw [htree.perm.length_eq, List.length_range]
    exact Nat.le_succ _
  rw [writeSstable] at hrun
  obtain ⟨_, fd1, h1, hrun⟩ := Fallible.of_bind_ok hrun
  obtain ⟨_, fd2, h2, hrun⟩ := Fallible.of_bind_ok hrun
  obtain ⟨⟨diskSize, trie, bloomFilter⟩, fd3, h3, hrun⟩ := Fallible.of_bind_ok hrun
  rw [show t.rootNode = tree.root from htree.held.root, hlength] at h3
  obtain ⟨hindexed, hwritten⟩ :=
    inorderFlush_ok h htree.canonical htree.held.linked (hlength ▸ hfuel) h3
  rw [← hinorder] at hindexed hwritten
  obtain rfl : diskSize = headerSize + (logBlob es).length := indexAll_disk hindexed
  obtain ⟨index, fd4, h4, hrun⟩ := Fallible.of_bind_ok hrun
  obtain ⟨_, hindex, heq⟩ := Option.map_eq_some_iff.mp h4
  cases heq
  obtain ⟨_, fd5, h5, hrun⟩ := Fallible.of_bind_ok hrun
  obtain ⟨bloom, fd6, h6, hrun⟩ := Fallible.of_bind_ok hrun
  obtain ⟨_, hbloom, heq⟩ := Option.map_eq_some_iff.mp h6
  cases heq
  obtain ⟨_, fd7, h7, hrun⟩ := Fallible.of_bind_ok hrun
  obtain ⟨_, fd8, h8, hrun⟩ := Fallible.of_bind_ok hrun
  cases hrun
  refine ⟨index, bloom, ⟨_, (hstand.indexOne h _).trans hindexed, hindex, hbloom⟩, ?_⟩
  rw [Writer.buffers, hstand.recordBuffers, hstand.blobs]
  refine Fd.writeAll_append (Fd.writeAll_cons h1 (Fd.writeAll_singleton h2)) ?_
  refine Fd.writeAll_append hwritten ?_
  exact Fd.writeAll_cons h5 (Fd.writeAll_cons h7 (Fd.writeAll_singleton h8))

/-! ## A compaction -/

theorem foldlM_indexOne_disk {h : Hashing} {rs : List Record} {st st' : Nat × Trie × BloomFilter}
    (hst : rs.foldlM (indexOne h) st = some st') : st'.1 = st.1 + (blobs rs).length := by
  induction rs generalizing st with
  | nil =>
    cases hst
    rfl
  | cons r rs ih =>
    rw [List.foldlM_cons] at hst
    obtain ⟨st1, hfirst, hst⟩ := Option.bind_eq_some_iff.mp hst
    simp only [indexOne, Option.bind_eq_bind, Option.bind_eq_some_iff] at hfirst
    obtain ⟨_, _, _, _, _, _, hfirst⟩ := hfirst
    cases hfirst
    have hcons : blobs (r :: rs) = r.blob ++ blobs rs := rfl
    rw [ih hst, hcons, List.length_append, Record.size, Nat.add_assoc]

namespace CompactionWriter

/-- A push that returns `Ok` has indexed its record, and written the buffer where it had no room. -/
theorem push_ok {h : Hashing} {w w' : CompactionWriter} {r : Record}
    (hpush : w.push h r = some (.ok (), w')) :
    indexOne h w.index r = some w'.index ∧
      if w.capacity ≤ w.writeBuffer.length + r.size then
        (∃ n, (Fd.write w.writeBuffer).runOn w.fd = some (.ok n, w'.fd)) ∧ w'.writeBuffer = r.blob ∧
          w'.capacity = reserved w.capacity r.size
      else w'.fd = w.fd ∧ w'.writeBuffer = w.writeBuffer ++ r.blob ∧ w'.capacity = w.capacity := by
  simp only [push, Option.bind_eq_bind, Option.bind_eq_some_iff] at hpush
  obtain ⟨key, hkey, bloomFilter, hbloom, trie, htrie, hpush⟩ := hpush
  simp only [indexOne, index, hkey, hbloom, htrie, Option.bind_eq_bind, Option.bind_some,
    Option.pure_def, Option.some.injEq]
  by_cases hfull : w.capacity ≤ w.writeBuffer.length + r.size
  · simp only [if_pos hfull] at hpush ⊢
    cases hwrite : w.fd.write w.writeBuffer with
    | mk result fd =>
      simp only [hwrite] at hpush
      cases result with
      | error e => cases hpush
      | ok n =>
        cases hpush
        refine ⟨rfl, ⟨n, ?_⟩, rfl, ?_⟩
        · rw [Fd.write, Fallible.runOn_step, hwrite]
        · dsimp only
          rw [List.length_nil, Nat.zero_add]
  · simp only [if_neg hfull] at hpush ⊢
    cases hpush
    refine ⟨rfl, rfl, rfl, ?_⟩
    dsimp only
    rw [reserved, if_pos (by omega)]

end CompactionWriter

/-- With the buffer that the pushes leave, they have written their buffers one after another. -/
theorem PushesOk.writes {h : Hashing} {w w' : CompactionWriter} {rs : List Record}
    (hpushes : PushesOk h w rs w') {fd' : File} {n : Nat}
    (hlast : (Fd.write w'.writeBuffer).runOn w'.fd = some (.ok n, fd')) :
    rs.foldlM (indexOne h) w.index = some w'.index ∧
      (Fd.writeAll (pushBuffers w.capacity w.writeBuffer rs)).runOn w.fd = some (.ok (), fd') := by
  induction hpushes with
  | nil w => exact ⟨rfl, Fd.writeAll_singleton hlast⟩
  | @cons w w1 w' r rs hpush _ ih =>
    obtain ⟨hindexed, hwritten⟩ := ih hlast
    obtain ⟨hindex, hpush⟩ := CompactionWriter.push_ok hpush
    refine ⟨?_, ?_⟩
    · rw [List.foldlM_cons, hindex]
      exact hindexed
    · by_cases hfull : w.capacity ≤ w.writeBuffer.length + r.size
      · rw [if_pos hfull] at hpush
        obtain ⟨⟨n1, hwrite⟩, hbuffer, hcapacity⟩ := hpush
        rw [pushBuffers, if_pos hfull, ← hbuffer, ← hcapacity]
        exact Fd.writeAll_cons hwrite hwritten
      · rw [if_neg hfull] at hpush
        obtain ⟨hfd, hbuffer, hcapacity⟩ := hpush
        rw [pushBuffers, if_neg hfull, ← hfd, ← hbuffer, ← hcapacity]
        exact hwritten

/-- A compaction whose calls return `Ok` has written its buffers one after another. -/
theorem compaction_writes {h : Hashing} {faults : List IoResult} {rs : List Record}
    {w0 w : CompactionWriter} {fileTs : Nat} {path : PathBuf} {fd : File}
    (hnew : CompactionWriter.new h fileTs faults = some (.ok w0)) (hpushes : PushesOk h w0 rs w)
    (hfinish : w.finish = some (.ok path, fd)) :
    ∃ index bloom, Blocks h (Writer.compaction.filterSize rs) rs index bloom ∧
      (Fd.writeAll (Writer.compaction.buffers rs index bloom)).runOn (File.create faults) =
        some (.ok (), fd) := by
  rw [CompactionWriter.new, Option.bind_eq_bind, Option.bind_eq_some_iff] at hnew
  obtain ⟨⟨r, fd0⟩, hheader, hnew⟩ := hnew
  cases r with
  | error e => cases hnew
  | ok u =>
    cases hnew
    obtain ⟨_, fd1, h1, hheader⟩ := Fallible.of_bind_ok hheader
    obtain ⟨_, fd2, h2, hheader⟩ := Fallible.of_bind_ok hheader
    cases hheader
    rw [CompactionWriter.finish] at hfinish
    obtain ⟨_, fd3, h3, hfinish⟩ := Fallible.of_bind_ok hfinish
    obtain ⟨hindexed, hwritten⟩ := hpushes.writes h3
    obtain ⟨index, fd4, h4, hfinish⟩ := Fallible.of_bind_ok hfinish
    obtain ⟨_, hindex, heq⟩ := Option.map_eq_some_iff.mp h4
    cases heq
    obtain ⟨_, fd5, h5, hfinish⟩ := Fallible.of_bind_ok hfinish
    obtain ⟨bloom, fd6, h6, hfinish⟩ := Fallible.of_bind_ok hfinish
    obtain ⟨_, hbloom, heq⟩ := Option.map_eq_some_iff.mp h6
    cases heq
    obtain ⟨_, fd7, h7, hfinish⟩ := Fallible.of_bind_ok hfinish
    obtain ⟨_, fd8, h8, hfinish⟩ := Fallible.of_bind_ok hfinish
    cases hfinish
    have hdisk : w.diskOffset = headerSize + (blobs rs).length := foldlM_indexOne_disk hindexed
    rw [hdisk] at h8
    refine ⟨index, bloom, ⟨_, hindexed, hindex, hbloom⟩, ?_⟩
    refine Fd.writeAll_append (Fd.writeAll_cons h1 (Fd.writeAll_singleton h2)) ?_
    refine Fd.writeAll_append hwritten ?_
    exact Fd.writeAll_cons h5 (Fd.writeAll_cons h7 (Fd.writeAll_singleton h8))

/-! ## What `Ok` says -/

theorem ReturnsOk.writes {h : Hashing} {faults : List IoResult} {rs : List Record}
    {writer : Writer} {fd : File} (hrun : ReturnsOk h faults rs writer fd) :
    ∃ index bloom, Blocks h (writer.filterSize rs) rs index bloom ∧
      (Fd.writeAll (writer.buffers rs index bloom)).runOn (File.create faults) =
        some (.ok (), fd) := by
  cases hrun with
  | flush ht hrs hrun => exact flush_writes ht hrs hrun
  | compaction hnew hpushes hfinish => exact compaction_writes hnew hpushes hfinish

/-- A writer that returns `Ok` leaves a complete file if and only if every write accepts its whole
buffer. -/
theorem complete_iff {h : Hashing} {faults : List IoResult} {rs : List Record} {writer : Writer}
    {fd : File} (hrun : ReturnsOk h faults rs writer fd) :
    ∃ index bloom, Blocks h (writer.filterSize rs) rs index bloom ∧
      (fd.content = completeFile rs index bloom ↔
        AllWhole faults (writer.buffers rs index bloom)) := by
  obtain ⟨index, bloom, hblocks, hwrites⟩ := hrun.writes
  obtain ⟨written, hcontent, _, hwhole⟩ := Fd.writeAll_ok rfl hwrites
  refine ⟨index, bloom, hblocks, ?_⟩
  rw [show fd.content = written from hcontent, ← writer.buffers_flatten]
  exact hwhole

/-- Of the only record, three bytes are written. -/
theorem short_flush :
    ∃ fd, ReturnsOk flatHashing [.full, .full, .short 3] [Record.of [97] (.data [1])] .flush fd ∧
    fd.content.take 15 ≠ lsmliteSstableHeader ++
      (toBe 2 v0Header ++ (Record.of [97] (.data [1])).blob) := by
  obtain ⟨call, hcall⟩ : ∃ call, call =
      (MemtableInner.new 1000 10 (Wal.new 0 0 [])).call ⟨[97], .data [1], ⟨0, 0⟩⟩ := ⟨_, rfl⟩
  have hrecords :
      call.map (fun t => t.arena.map (·.record)) = some [Record.of [97] (.data [1])] := by
    rw [hcall]
    decide +kernel
  have hrun : (call.bind fun t =>
      (writeSstable flatHashing t).runOn (File.create [.full, .full, .short 3])).map (fun end' =>
        (end'.1, decide (end'.2.content.take 15 = lsmliteSstableHeader ++ (toBe 2 v0Header ++
          (Record.of [97] (.data [1])).blob)))) = some (.ok (), false) := by
    rw [hcall]
    decide +kernel
  obtain ⟨t, ht, hrecord⟩ := Option.map_eq_some_iff.mp hrecords
  obtain ⟨⟨r, fd⟩, hwrite, heq⟩ := Option.map_eq_some_iff.mp hrun
  obtain ⟨rfl, hshort⟩ := Prod.mk.inj heq
  rw [ht, Option.bind_some] at hwrite
  have hreached : t.Reached :=
    (MemtableInner.Reached.new 1000 10 (Wal.new 0 0 [])).call _ (hcall.symm.trans ht)
  refine ⟨fd, .flush hreached ⟨?_, List.pairwise_singleton _ _⟩ hwrite, of_decide_eq_false hshort⟩
  rw [hrecord]

/-- The flush returns `Ok` and its file is not complete. -/
theorem short_write_incomplete : ∃ fd,
    ReturnsOk flatHashing [.full, .full, .short 3] [Record.of [97] (.data [1])] .flush fd ∧
    ∀ index bloom, fd.content ≠ completeFile [Record.of [97] (.data [1])] index bloom := by
  obtain ⟨fd, hrun, hshort⟩ := short_flush
  refine ⟨fd, hrun, fun index bloom hcomplete => hshort ?_⟩
  have hsize : (lsmliteSstableHeader ++
      (toBe 2 v0Header ++ blobs [Record.of [97] (.data [1])])).length = 15 := by
    decide +kernel
  have hblobs : blobs [Record.of [97] (.data [1])] = (Record.of [97] (.data [1])).blob := by
    simp [blobs]
  rw [hcomplete, completeFile, ← List.append_assoc (toBe 2 v0Header), ← List.append_assoc,
    List.take_left' hsize, hblobs]

theorem complete_iff_short :
    ∃ fd index bloom,
    ReturnsOk flatHashing [.full, .full, .short 3] [Record.of [97] (.data [1])] .flush fd ∧
    Blocks flatHashing 1 [Record.of [97] (.data [1])] index bloom ∧
    (fd.content = completeFile [Record.of [97] (.data [1])] index bloom ↔
      AllWhole [.full, .full, .short 3]
        (Writer.flush.buffers [Record.of [97] (.data [1])] index bloom)) := by
  obtain ⟨fd, hrun, _⟩ := short_flush
  obtain ⟨index, bloom, hblocks, hiff⟩ := complete_iff hrun
  exact ⟨fd, index, bloom, hrun, hblocks, hiff⟩

end Lsmlite
