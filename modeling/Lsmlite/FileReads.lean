import Lsmlite.Compaction

/-!
# What reading leaves of a file

A search, the opening of a table and the start of its iterator move the descriptor, and nothing
else.
-/

namespace Lsmlite
open Fallible

/-! ## Files -/

/-- The same file, read further. -/
structure File.ReadOn (fd fd' : File) : Prop where
  content : fd'.content = fd.content
  faults : fd'.faults <:+ fd.faults

namespace File

theorem ReadOn.refl (fd : File) : fd.ReadOn fd := ⟨rfl, List.suffix_refl _⟩

theorem ReadOn.trans {fd fd' fd'' : File} (h : fd.ReadOn fd') (h' : fd'.ReadOn fd'') :
    fd.ReadOn fd'' :=
  ⟨h'.content.trans h.content, h'.faults.trans h.faults⟩

theorem next_readOn (fd : File) : fd.ReadOn fd.next.2 := by
  unfold next
  cases hfaults : fd.faults with
  | nil => exact .refl fd
  | cons r rs =>
    constructor
    · rfl
    · rw [hfaults]
      exact List.suffix_cons r rs

theorem seek_readOn (offset : Nat) (fd : File) : fd.ReadOn (fd.seek offset).2 := by
  have hnext := fd.next_readOn
  unfold seek
  split
  · rename_i heq
    rw [heq] at hnext
    exact hnext
  · rename_i heq
    rw [heq] at hnext
    exact ⟨hnext.content, hnext.faults⟩

theorem read_readOn (n : Nat) (fd : File) : fd.ReadOn (fd.read n).2 := by
  have hnext := fd.next_readOn
  unfold read
  split
  · rename_i heq
    rw [heq] at hnext
    exact ⟨hnext.content, hnext.faults⟩
  · rename_i heq
    rw [heq] at hnext
    exact ⟨hnext.content, hnext.faults⟩
  · rename_i heq
    rw [heq] at hnext
    exact hnext

theorem readExact_readOn (n : Nat) (fd : File) : fd.ReadOn (fd.readExact n).2 := by
  have hnext := fd.next_readOn
  unfold readExact
  split
  · rename_i heq
    rw [heq] at hnext
    exact hnext
  · rename_i heq
    rw [heq] at hnext
    dsimp only
    split <;> exact ⟨hnext.content, hnext.faults⟩

theorem len_readOn (fd : File) : fd.ReadOn fd.len.2 := by
  have hnext := fd.next_readOn
  unfold len
  split
  · rename_i heq
    rw [heq] at hnext
    exact hnext
  · rename_i heq
    rw [heq] at hnext
    exact hnext

end File

/-- The computation only reads. -/
def Fd.Reads {ε α : Type} (x : Fd ε α) : Prop := Fallible.Moves File.ReadOn x

namespace Fd
variable {ε α β : Type}

theorem reads_seek (offset : Nat) : (seek offset).Reads := moves_step (File.seek_readOn offset)

theorem reads_read (n : Nat) : (read n).Reads := moves_step (File.read_readOn n)

theorem reads_readExact (n : Nat) : (readExact n).Reads := moves_step (File.readExact_readOn n)

theorem reads_len : len.Reads := moves_step File.len_readOn

theorem reads_pure (a : α) : Reads (pure a : Fd ε α) := moves_pure File.ReadOn.refl a

theorem reads_throw (e : ε) : Reads (throw e : Fd ε α) := moves_throw File.ReadOn.refl e

theorem reads_lift (o : Option α) : Reads (Fallible.lift o : Fd ε α) :=
  moves_lift File.ReadOn.refl o

theorem Reads.bind {x : Fd ε α} {f : α → Fd ε β} (hx : x.Reads) (hf : ∀ a, (f a).Reads) :
    Reads (x >>= f) :=
  Moves.bind (R := File.ReadOn) File.ReadOn.trans hx hf

theorem Reads.sst {x : Fd IoError α} (hx : x.Reads) : x.sst.Reads :=
  Moves.mapError hx SSTableError.ioError

end Fd

/-! ## Tables -/

theorem readOversizedRecordFromDisk_reads (offset : Nat) (buffer : Blob) :
    (readOversizedRecordFromDisk offset buffer).Reads := by
  unfold readOversizedRecordFromDisk
  refine (Fd.reads_lift _).bind fun (blobSize, bytesWalked) => ?_
  refine (Fd.reads_lift _).bind fun firstPart => ?_
  refine (Fd.reads_lift _).bind fun _ => ?_
  exact (Fd.reads_readExact _).sst.bind fun _ => Fd.reads_pure _

theorem readDataBlock_reads (offset : Nat) (key : Blob) : (readDataBlock offset key).Reads := by
  unfold readDataBlock
  apply (Fd.reads_seek _).sst.bind
  intro _
  apply (Fd.reads_read _).sst.bind
  intro got
  apply (Fd.reads_lift _).bind
  intro header
  by_cases htombstone : isTombstone header = true
  · rw [if_pos htombstone]
    exact Fd.reads_throw _
  · rw [if_neg htombstone]
    apply (Fd.reads_lift _).bind
    rintro ⟨logSize, logBytesWalked⟩
    apply (Fd.reads_lift _).bind
    intro found
    apply (Fd.reads_lift _).bind
    intro _
    apply (Fd.reads_lift _).bind
    intro _
    dsimp only
    split
    · exact readOversizedRecordFromDisk_reads _ _
    · exact (Fd.reads_lift _).bind fun _ => Fd.reads_lift _

theorem validateBufferAndGetVersion_reads : validateBufferAndGetVersion.Reads := by
  unfold validateBufferAndGetVersion
  apply (Fd.reads_readExact _).sst.bind
  intro headerBuffer
  by_cases hheader : headerBuffer ≠ lsmliteSstableHeader
  · rw [if_pos hheader]
    exact Fd.reads_throw _
  · rw [if_neg hheader]
    exact (Fd.reads_readExact _).sst.bind fun _ => Fd.reads_pure _

theorem SSTableFooter.fromDiskSstable_reads (footerOffset : Nat) :
    (fromDiskSstable footerOffset).Reads := by
  unfold fromDiskSstable
  apply (Fd.reads_seek _).bind
  intro _
  apply (Fd.reads_readExact _).bind
  intro footerBuffer
  apply (Fd.reads_lift _).bind
  intro indexBlockStart
  apply (Fd.reads_lift _).bind
  intro indexBlockLen
  exact (Fd.reads_lift _).bind fun _ => Fd.reads_pure _

theorem SstIndex.fromDiskSstable_reads (memory : Nat) : (fromDiskSstable memory).Reads := by
  unfold fromDiskSstable
  apply Fd.reads_len.bind
  intro len
  apply (Fd.reads_lift _).bind
  intro _
  apply (SSTableFooter.fromDiskSstable_reads _).bind
  intro footer
  apply (Fd.reads_lift _).bind
  intro _
  apply (Fd.reads_lift _).bind
  intro _
  apply (Fd.reads_seek _).bind
  intro _
  apply (Fd.reads_readExact _).bind
  intro indexTableBuffer
  apply (Fd.reads_lift _).bind
  intro trie
  apply (Fd.reads_lift _).bind
  intro _
  apply (Fd.reads_lift _).bind
  intro _
  apply (Fd.reads_readExact _).bind
  intro bloomFilterBuffer
  exact (Fd.reads_lift _).bind fun _ => Fd.reads_pure _

namespace SSTable

/-- The same table of the same file, its descriptor read further. -/
structure ReadOn (s s' : SSTable) : Prop where
  index : s'.index = s.index
  version : s'.version = s.version
  fd : s.fd.ReadOn s'.fd

theorem ReadOn.refl (s : SSTable) : s.ReadOn s := ⟨rfl, rfl, .refl _⟩

theorem ReadOn.trans {s s' s'' : SSTable} (h : s.ReadOn s') (h' : s'.ReadOn s'') : s.ReadOn s'' :=
  ⟨h'.index.trans h.index, h'.version.trans h.version, h.fd.trans h'.fd⟩

theorem fromFd_readOn {fd : File} {s : SSTable} (h : fromFd fd = some (.ok s)) :
    fd.ReadOn s.fd := by
  simp only [fromFd, fromFdWithin, Option.bind_eq_bind, Option.bind_eq_some_iff] at h
  obtain ⟨⟨r, fd'⟩, hrun, h⟩ := h
  have hreads : Fd.Reads (do
      let version ← validateBufferAndGetVersion
      let index ← (SstIndex.fromDiskSstable isizeMax).sst
      return (version, index) : Fd SSTableError (Nat × SstIndex)) :=
    validateBufferAndGetVersion_reads.bind fun _ =>
        (SstIndex.fromDiskSstable_reads _).sst.bind fun _ =>
      Fd.reads_pure _
  have hmoved := hreads _ _ _ hrun
  cases r with
  | error e => cases h
  | ok loaded =>
    cases h
    exact hmoved

theorem search_readOn {s s' : SSTable} {h : Hashing} {key : Blob} {r : Except SSTableError Blob}
    (hsearch : s.search h key = some (r, s')) : s.ReadOn s' := by
  simp only [search, Option.bind_eq_bind, Option.bind_eq_some_iff] at hsearch
  obtain ⟨offset, _, hsearch⟩ := hsearch
  cases offset with
  | none =>
    cases hsearch
    exact .refl s
  | some offset =>
    obtain ⟨⟨r', fd⟩, hrun, heq⟩ := Option.bind_eq_some_iff.mp hsearch
    cases heq
    exact ⟨rfl, rfl, readDataBlock_reads offset key _ _ _ hrun⟩

end SSTable

theorem SSTableIterator.new_readOn {s s' : SSTable} {it : SSTableIterator}
    (h : SSTableIterator.new s = some (it, s')) : s.ReadOn s' := by
  simp only [new, Option.bind_eq_bind, Option.bind_eq_some_iff] at h
  obtain ⟨_, _, _, _, h⟩ := h
  cases h
  exact ⟨rfl, rfl, (File.seek_readOn _ _).trans (File.readExact_readOn _ _)⟩

theorem SSTableCache.searchTables_readOn {h : Hashing} {key : Blob} {tables tables' : List SSTable}
    {r : Except SSTableError Blob} (hsearch : searchTables h key tables = some (r, tables')) :
    List.Forall₂ SSTable.ReadOn tables tables' := by
  induction tables generalizing r tables' with
  | nil =>
    cases hsearch
    exact .nil
  | cons s rest ih =>
    have hrest : List.Forall₂ SSTable.ReadOn rest rest := List.forall₂_same.mpr fun t _ => .refl t
    simp only [searchTables, Option.bind_eq_bind, Option.bind_eq_some_iff] at hsearch
    obtain ⟨⟨r', s'⟩, hs, hsearch⟩ := hsearch
    have hmoved := SSTable.search_readOn hs
    split at hsearch
    · rename_i heq
      cases heq
      cases hsearch
      exact .cons hmoved hrest
    · rename_i heq
      cases heq
      cases hsearch
      exact .cons hmoved hrest
    · rename_i heq
      cases heq
      obtain ⟨⟨r'', rest'⟩, hrec, heq⟩ := Option.bind_eq_some_iff.mp hsearch
      cases heq
      exact .cons hmoved (ih hrec)

theorem SSTableCache.search_readOn {c c' : SSTableCache} {h : Hashing} {key : Blob}
    {r : Except SSTableError Blob} (hsearch : c.search h key = some (r, c')) :
    List.Forall₂ SSTable.ReadOn c.cache c'.cache := by
  obtain ⟨⟨r', tables⟩, htables, heq⟩ := Option.map_eq_some_iff.mp hsearch
  cases heq
  exact searchTables_readOn htables

theorem tablesToIterators_readOn {tables tables' : List SSTable} {iters : List SSTableIterator}
    (h : tablesToIterators tables = some (iters, tables')) :
    List.Forall₂ SSTable.ReadOn tables tables' := by
  induction tables generalizing iters tables' with
  | nil =>
    cases h
    exact .nil
  | cons s tables ih =>
    simp only [tablesToIterators, Option.bind_eq_bind, Option.bind_eq_some_iff] at h
    obtain ⟨⟨it, s'⟩, hs, ⟨iters', tables''⟩, htables, heq⟩ := h
    cases heq
    exact .cons (SSTableIterator.new_readOn hs) (ih htables)

end Lsmlite
