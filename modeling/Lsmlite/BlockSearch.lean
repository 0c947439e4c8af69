import Lsmlite.SSTableRoundTrip

/-!
# Searching a whole data block

`search_data_block` of `disk/mod.rs` reads the block and goes over its records one by one. On the
data block of a table it finds what the index finds, and also the records that the read window of
the index cuts off.
-/

namespace Lsmlite
open Bytes KeyValue

/-- The loop of `search_data_block`; `fuel` bounds its rounds. -/
def searchDataBlockLoop (blockBuffer searchKey : Blob) :
    Nat → Nat → Option (Except SSTableError Blob)
  | 0, _ => none
  | fuel + 1, offset =>
    if offset < blockBuffer.length then do
      let header ← blockBuffer[offset]?
      let offset := offset + 1
      let (logSize, bytesWalked) ← decodeVarint blockBuffer offset
      let offset := offset + bytesWalked
      let logEnd := offset + logSize
      guard (logEnd < 2 ^ 64)
      let (keySize, bytesWalked) ← decodeVarint blockBuffer offset
      let offset := offset + bytesWalked
      let key ← slice blockBuffer offset (offset + keySize)
      if key ≠ searchKey then searchDataBlockLoop blockBuffer searchKey fuel logEnd
      else if isTombstone header then return .error .tombstone
      else
        let offset := offset + keySize
        let (dataSize, bytesWalked) ← decodeVarint blockBuffer offset
        let offset := offset + bytesWalked
        return .ok (← slice blockBuffer offset (offset + dataSize))
    else return .error .diskRecordNotFound

def searchDataBlock (blockStart blockEnd : Nat) (searchKey : Blob) : Fd SSTableError Blob := do
  .lift (guard (blockStart ≤ blockEnd))
  let blockSize := blockEnd - blockStart
  (Fd.seek blockStart).sst
  .lift (guard (blockSize < 2 ^ 63))
  let blockBuffer ← (Fd.readExact blockSize).sst
  -- A round goes on behind the header byte at least.
  match ← .lift (searchDataBlockLoop blockBuffer searchKey (blockSize + 1) 0) with
  | .ok value => return value
  | .error err => throw err

/-- One round of the loop, at a record. -/
theorem searchDataBlockLoop_record (pre suf : Blob) {key : Blob} {e : Entry} (h : Record.Fits key e)
    (hsize : pre.length + (Record.of key e).blob.length < 2 ^ 64) (searchKey : Blob) (fuel : Nat) :
    searchDataBlockLoop (pre ++ ((Record.of key e).blob ++ suf)) searchKey (fuel + 1) pre.length =
      if key = searchKey then some (answerOf (some e))
      else searchDataBlockLoop (pre ++ ((Record.of key e).blob ++ suf)) searchKey fuel
        (pre.length + (Record.of key e).blob.length) := by
  have hk := h.key_lt
  have hb := h.body_lt
  have hbl := Record.body_length key e
  have hlen := Record.blob_length key e
  have hhead : (pre ++ ((Record.of key e).blob ++ suf))[pre.length]? = some e.header := by
    simp [Record.of]
  have hat1 : pre ++ ((Record.of key e).blob ++ suf) = (pre ++ [e.header]) ++
      (leb (Record.body key e).length ++ (Record.body key e ++ suf)) := by
    simp [Record.of]
  have hat2 : pre ++ ((Record.of key e).blob ++ suf) = (pre ++ [e.header] ++
      leb (Record.body key e).length) ++ (leb key.length ++ (key ++ (e.tail ++ suf))) := by
    simp [Record.of, Record.body]
  have h1 := decodeVarint_leb (pre ++ [e.header]) (Record.body key e ++ suf)
    (Record.body key e).length (show pre.length + 1 = _ by simp) (by omega)
  have h2 := decodeVarint_leb (pre ++ [e.header] ++ leb (Record.body key e).length)
    (key ++ (e.tail ++ suf)) key.length
    (show pre.length + 1 + (leb (Record.body key e).length).length = _ by simp; omega) (by omega)
  have h3 := slice_mid (pre ++ [e.header] ++ leb (Record.body key e).length ++ leb key.length) key
    (e.tail ++ suf)
    (show pre.length + 1 + (leb (Record.body key e).length).length + (leb key.length).length = _ by
      simp; omega) rfl
  have hat3 : pre ++ ((Record.of key e).blob ++ suf) = (pre ++ [e.header] ++
      leb (Record.body key e).length ++ leb key.length) ++ (key ++ (e.tail ++ suf)) := by
    rw [hat2]
    simp only [List.append_assoc]
  rw [← hat1] at h1
  rw [← hat2] at h2
  rw [← hat3] at h3
  have hend : pre.length + 1 + (leb (Record.body key e).length).length +
      (Record.body key e).length = pre.length + (Record.of key e).blob.length := by
    rw [hlen, Record.logWidth]
    omega
  rw [searchDataBlockLoop, if_pos (by simp only [List.length_append]; omega)]
  simp only [hhead, h1, h2, h3, hend, guard, if_pos hsize, Option.bind_eq_bind,
    Option.bind_some, Option.pure_def]
  by_cases hkey : key = searchKey
  · rw [if_neg (not_not.mpr hkey), if_pos hkey]
    cases e with
    | tombstone => rfl
    | data value =>
      have hv := h.value_lt
      have h4 := decodeVarint_leb (pre ++ [dataLogHeader] ++ leb (Record.body key
          (.data value)).length ++ leb key.length ++ key) (value ++ suf) value.length
        (show pre.length + 1 + (leb (Record.body key (.data value)).length).length +
          (leb key.length).length + key.length = _ by simp; omega) (by omega)
      have h5 := slice_mid (pre ++ [dataLogHeader] ++ leb (Record.body key (.data value)).length ++
          leb key.length ++ key ++ leb value.length) value suf
        (show pre.length + 1 + (leb (Record.body key (.data value)).length).length +
          (leb key.length).length + key.length + (leb value.length).length = _ by simp; omega) rfl
      have hat4 : pre ++ ((Record.of key (.data value)).blob ++ suf) = (pre ++ [dataLogHeader] ++
          leb (Record.body key (.data value)).length ++ leb key.length ++ key) ++
            (leb value.length ++ (value ++ suf)) := by
        simp [Record.of, Record.body, Entry.header, Entry.tail]
      have hat5 : pre ++ ((Record.of key (.data value)).blob ++ suf) = (pre ++ [dataLogHeader] ++
          leb (Record.body key (.data value)).length ++ leb key.length ++ key ++
              leb value.length) ++ (value ++ suf) := by
        rw [hat4]
        simp only [List.append_assoc]
      rw [← hat4] at h4
      rw [← hat5] at h5
      have htomb : isTombstone (Entry.header (.data value)) = false := rfl
      simp only [htomb, h4, h5, Option.bind_some]
      rfl
  · rw [if_pos hkey, if_neg hkey]

/-- On records the loop answers with the first one of the key. -/
theorem searchDataBlockLoop_records {ws : Entries} (hfits : ∀ w ∈ ws, Record.Fits w.1 w.2)
    (searchKey pre : Blob) (hsize : (pre ++ logBlob ws).length < 2 ^ 64) {fuel : Nat}
    (hfuel : (logBlob ws).length < fuel) :
    searchDataBlockLoop (pre ++ logBlob ws) searchKey fuel pre.length =
      some (answerOf (first searchKey ws)) := by
  induction ws generalizing pre fuel with
  | nil =>
    obtain ⟨fuel, rfl⟩ := Nat.exists_eq_succ_of_ne_zero (Nat.ne_of_gt hfuel)
    rw [searchDataBlockLoop, if_neg (by simp [logBlob])]
    rfl
  | cons w ws ih =>
    obtain ⟨fuel, rfl⟩ :=
      Nat.exists_eq_succ_of_ne_zero (Nat.ne_of_gt (Nat.lt_of_le_of_lt (Nat.zero_le _) hfuel))
    have hcons : logBlob (w :: ws) = (Record.of w.1 w.2).blob ++ logBlob ws := by simp [logBlob]
    have hpos := List.length_pos_iff.mpr (blob_ne_nil w.1 w.2)
    rw [hcons] at hsize hfuel ⊢
    simp only [List.length_append] at hsize hfuel
    rw [searchDataBlockLoop_record pre (logBlob ws) (hfits w List.mem_cons_self) (by omega), first]
    by_cases hkey : searchKey = w.1
    · rw [if_pos hkey, if_pos hkey.symm]
    · have hsmall : (logBlob ws).length < fuel := by omega
      have hrest := ih (fun w' hw' => hfits w' (List.mem_cons_of_mem _ hw'))
        (pre ++ (Record.of w.1 w.2).blob) (by simp only [List.length_append]; omega) hsmall
      rw [if_neg hkey, if_neg (Ne.symm hkey), ← List.append_assoc, ← List.length_append]
      exact hrest

/-- A block of records is searched as their list, wherever the descriptor stands. -/
theorem searchDataBlock_records {ws : Entries} (hfits : ∀ w ∈ ws, Record.Fits w.1 w.2)
    (searchKey pre suf : Blob) {blockEnd : Nat}
    (hend : blockEnd = pre.length + (logBlob ws).length) (hsize : (logBlob ws).length < 2 ^ 63)
    (pos : Nat) :
    (searchDataBlock pre.length blockEnd searchKey).runOn ⟨pre ++ (logBlob ws ++ suf), pos, []⟩ =
      some (answerOf (first searchKey ws), ⟨pre ++ (logBlob ws ++ suf), blockEnd, []⟩) := by
  subst hend
  have hlength : pre.length + (logBlob ws).length - pre.length = (logBlob ws).length :=
    Nat.add_sub_cancel_left ..
  have hread := File.readExact_mid pre (logBlob ws) suf rfl rfl
  have hloop := searchDataBlockLoop_records hfits searchKey [] (by rw [List.nil_append]; omega)
    (Nat.lt_succ_self _)
  rw [List.nil_append, List.length_nil] at hloop
  rw [searchDataBlock]
  refine (Fallible.bind_ok (runOn_guard (Nat.le_add_right _ _) _)).trans ?_
  refine (Fallible.bind_ok
    (Fallible.mapError_ok (show (Fd.seek _).runOn _ = some (.ok (), _) from rfl))).trans ?_
  dsimp only
  rw [hlength]
  refine (Fallible.bind_ok (runOn_guard hsize _)).trans ?_
  refine (Fallible.bind_ok
      (Fallible.mapError_ok (show (Fd.readExact _).runOn _ = some (.ok (logBlob ws), _) by
    rw [Fd.readExact, Fallible.runOn_step, hread]))).trans ?_
  rw [hloop]
  refine (Fallible.bind_ok (Fallible.runOn_lift_some _ _)).trans ?_
  cases answerOf (first searchKey ws) <;> rfl

/-- The data block of a table is searched as the list it holds. -/
theorem SSTable.Holds.scan {h : Hashing} {s : SSTable} {es : Entries} (hs : s.Holds h es)
    (key : Blob) :
    ((searchDataBlock headerSize s.index.dataBlockEnd key).runOn s.fd).map (·.1) =
      some (answerOf (last key es)) := by
  obtain ⟨suf, hcontent⟩ := hs.content
  have hsize := hs.size
  have hscan := searchDataBlock_records hs.fits key
    (lsmliteSstableHeader ++ toBe 2 v0Header) suf hs.dataBlockEnd (by omega) s.fd.pos
  rw [← hcontent, ← hs.fd_eq, first_eq_last hs.sorted] at hscan
  exact congrArg (Option.map (·.1)) hscan

namespace MemtableInner

/-- In the file of a memtable the search of the whole data block finds every entry. The search
through the index finds the same where the record is in its read window, and panics where it is
not. -/
theorem scan_agrees {t : MemtableInner} (ht : t.Reached) (hrep : Representable t.encodedEntries)
    (h : Hashing) :
    ∃ fd s, (writeSstable h t).runOn (File.create []) = some (.ok (), fd) ∧
      SSTable.fromFd (.opened fd.content []) = some (.ok s) ∧ ∀ key,
        ((searchDataBlock headerSize s.index.dataBlockEnd key).runOn s.fd).map (·.1) =
          some (answerOf (last key t.encodedEntries)) ∧
        ((∀ e, last key t.encodedEntries = some e → InWindow key e) →
          (s.search h key).map (·.1) =
            ((searchDataBlock headerSize s.index.dataBlockEnd key).runOn s.fd).map (·.1)) ∧
        ∀ e, last key t.encodedEntries = some e → ¬ InWindow key e → s.search h key = none := by
  obtain ⟨es, hes⟩ := ht.holds
  obtain ⟨fd, hwrite, s, hload, hs⟩ := sstableContent_holds h hes (hrep.perm hes.encodedEntries)
  refine ⟨fd, s, hwrite, hload, fun key => ?_⟩
  have hscan := hs.scan key
  rw [last_perm hes.sorted hes.encodedEntries, hscan]
  refine ⟨rfl, fun hwin => ?_, fun e hlast hout => hs.search_outside hlast hout⟩
  obtain ⟨s', hsearch, _⟩ := hs.search hwin
  rw [hsearch]
  rfl

/-- Two keys with a common prefix, one of them deleted. -/
theorem scan_agrees_filed :
    ∃ t, filedCalls.foldlM MemtableInner.call (new 100 5 (Wal.new 0 0 [])) = some t ∧
    t.encodedEntries = [([1, 2], .data [8, 8]), ([1], .tombstone)] ∧
    ∃ fd s, (writeSstable flatHashing t).runOn (File.create []) = some (.ok (), fd) ∧
      SSTable.fromFd (.opened fd.content []) = some (.ok s) ∧ ∀ key,
        ((searchDataBlock headerSize s.index.dataBlockEnd key).runOn s.fd).map (·.1) =
          some (answerOf (last key t.encodedEntries)) ∧
        ((∀ e, last key t.encodedEntries = some e → InWindow key e) →
          (s.search flatHashing key).map (·.1) =
            ((searchDataBlock headerSize s.index.dataBlockEnd key).runOn s.fd).map (·.1)) ∧
        ∀ e, last key t.encodedEntries = some e → ¬ InWindow key e →
          s.search flatHashing key = none := by
  have hrun : (filedCalls.foldlM MemtableInner.call (new 100 5 (Wal.new 0 0 []))).map
      encodedEntries = some [([1, 2], .data [8, 8]), ([1], .tombstone)] := by
    decide +kernel
  obtain ⟨t, ht, hentries⟩ := Option.map_eq_some_iff.mp hrun
  have hrep : Representable t.encodedEntries := by
    rw [hentries]
    exact representable_of_gap (by decide +kernel) (by decide +kernel) (by decide +kernel)
  exact ⟨t, ht, hentries, scan_agrees ((Reached.new 100 5 _).calls ht) hrep flatHashing⟩

end MemtableInner

end Lsmlite
