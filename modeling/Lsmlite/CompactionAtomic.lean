import Lsmlite.CompactionKept

/-!
# A push that fails

A push changes the bloom filter and the trie in front of its write. A write that fails leaves a key
in the index whose record is not in the file.
-/

namespace Lsmlite
open Bytes KeyValue

/-- The state that a push reports on. -/
structure CompactionWriter.SameState (w w' : CompactionWriter) : Prop where
  trie : w'.trie = w.trie
  diskOffset : w'.diskOffset = w.diskOffset
  writeBuffer : w'.writeBuffer = w.writeBuffer
  bloomFilter : w'.bloomFilter = w.bloomFilter

/-- Of the pushes one after another, those that fail leave the state as it was. -/
def AtomicPushes (h : Hashing) : CompactionWriter → List Record → Prop
  | _, [] => True
  | w, r :: rs => (∀ e w', w.push h r = some (.error e, w') → w.SameState w') ∧
      ∀ w', w.pushDropped h r = some w' → AtomicPushes h w' rs

/-- The index of a table leads to records with their own keys, and a search finds what one of them
holds. -/
structure OwnRecords (h : Hashing) (rs : List Record) (s : SSTable) : Prop where
  offsets : ∀ key offset, s.index.trie.get key = some (some offset) → ∃ r ∈ rs,
    r.keySlice = some key ∧ ∃ pre suf, s.fd.content = pre ++ (r.blob ++ suf) ∧ pre.length = offset
  values : ∀ key value s', s.search h key = some (.ok value, s') →
    ∃ r ∈ rs, Record.encoded key (.data value) = some r

/-- The table of every file that the pushes finish has its own records. -/
def FinishesOwn (h : Hashing) (w0 : CompactionWriter) (rs : List Record) : Prop :=
  ∀ w path file s, rs.foldlM (CompactionWriter.pushDropped h) w0 = some w →
    w.finish = some (.ok path, file) → SSTable.fromFd (.opened file.content []) = some (.ok s) →
      OwnRecords h rs s

/-! ## One push -/

/-- The offset is where a record with the key begins. -/
def OwnOffset (es : Entries) (key : Blob) (offset : Nat) : Prop :=
  ∃ pre e post, es = pre ++ (key, e) :: post ∧ offset = headerSize + (logBlob pre).length

theorem OwnOffset.append {es : Entries} {key : Blob} {offset : Nat} (h : OwnOffset es key offset)
    (more : Entries) : OwnOffset (es ++ more) key offset := by
  obtain ⟨pre, e, post, rfl, hoffset⟩ := h
  exact ⟨pre, e, post ++ more, by simp, hoffset⟩

theorem OwnOffset.lt {es : Entries} {key : Blob} {offset : Nat} (h : OwnOffset es key offset) :
    offset < headerSize + (logBlob es).length := by
  obtain ⟨pre, e, post, rfl, rfl⟩ := h
  have hblob := Record.blob_length key e
  simp only [logBlob, List.flatMap_append, List.flatMap_cons, List.length_append]
  omega

namespace CompactionWriter

/-- The kept records are in the file and the buffer, and every indexed key leads to its own. -/
structure Located (w : CompactionWriter) (h : Hashing) (all : List Blob)
    (kept : Entries) : Prop where
  filled : w.Filled kept
  maps : ∃ m, w.trie.Maps all m ∧ ∀ key offset, m key = some offset → OwnOffset kept key offset
  bloom : w.bloomFilter.Extends (BloomFilter.new h 1024)

/-- A push fails where it has no room and the write fails. -/
theorem push_fails {h : Hashing} {w w' : CompactionWriter} {v : Blob × Entry}
    {r : Except IoError Unit} (hend : w.fd.pos = w.fd.content.length) (hclean : Clean w.fd.faults)
    (hpush : w.push h (recordOf v) = some (r, w')) :
    (∃ e, r = .error e) ↔
      ¬ w.writeBuffer.length + (recordOf v).size < w.capacity ∧
        w.fd.faults.headD .full = .error := by
  simp only [push, Option.bind_eq_bind, Option.bind_eq_some_iff] at hpush
  obtain ⟨_, _, _, _, _, _, hpush⟩ := hpush
  by_cases hroom : w.writeBuffer.length + (recordOf v).size < w.capacity
  · simp only [if_neg (Nat.not_le.mpr hroom)] at hpush
    cases hpush
    constructor
    · rintro ⟨e, he⟩
      cases he
    · exact fun hno => absurd hroom hno.1
  · simp only [if_pos (Nat.not_lt.mp hroom)] at hpush
    have hfd : w.fd = ⟨w.fd.content, w.fd.content.length, w.fd.faults⟩ := by rw [← hend]
    rcases File.write_clean hclean w.fd.content w.writeBuffer with ⟨hresult, hwrite⟩ |
      ⟨hresult, hwrite⟩
    · rw [← hfd] at hwrite
      simp only [hwrite] at hpush
      cases hpush
      rw [hresult]
      constructor
      · rintro ⟨e, he⟩
        cases he
      · rintro ⟨_, he⟩
        cases he
    · rw [← hfd] at hwrite
      simp only [hwrite] at hpush
      cases hpush
      exact ⟨fun _ => ⟨hroom, hresult⟩, fun _ => ⟨_, rfl⟩⟩

/-- The writes inside the pushes of `es` from here on. -/
def writes (w : CompactionWriter) (es : Entries) : List IoResult :=
  (pushWrites w.capacity w.writeBuffer.length (es.map fun v => (recordOf v).size) w.fd.faults).1

/-- A push keeps its record, or it fails with the trie changed. -/
theorem Located.push {w : CompactionWriter} {h : Hashing} {all : List Blob} {kept : Entries}
    (hw : w.Located h all kept) (hnodes : all.length ≤ 2 ^ 32) {v : Blob × Entry}
    (hall : ∀ pre, pre <+: v.1 → pre ∈ all) (hsize : headerSize + (logBlob kept).length < 2 ^ 63) :
    ∃ r w', w.push h (recordOf v) = some (r, w') ∧
      ((r = .ok () ∧ w'.Located h all (kept ++ [v]) ∧
          ∀ es, .error ∈ w.writes (v :: es) ↔ .error ∈ w'.writes es) ∨
        ((∃ e, r = .error e) ∧ w'.trie ≠ w.trie ∧ ∀ es, .error ∈ w.writes (v :: es))) := by
  obtain ⟨m, hmaps, hown⟩ := hw.maps
  have hdisk := hw.filled.diskOffset
  obtain ⟨bloomFilter, hbloom, hext, _⟩ := hw.bloom.formed.insert h v.1
  obtain ⟨trie, htrie, hmaps'⟩ := hmaps.insert hnodes hall (show w.diskOffset < 2 ^ 63 by omega)
  obtain ⟨w', hdropped, hfilter, htrie', hpushed⟩ := hw.filled.push h v hbloom htrie
  obtain ⟨⟨r, w''⟩, hpush, hsame⟩ := Option.map_eq_some_iff.mp hdropped
  obtain rfl : w'' = w' := hsame
  have hfails := push_fails hw.filled.atEnd hw.filled.clean hpush
  have hlocated : w''.Filled (kept ++ [v]) → w''.Located h all (kept ++ [v]) := by
    intro hfilled
    refine ⟨hfilled, ⟨_, htrie' ▸ hmaps', fun key offset hkey => ?_⟩, hfilter ▸ hext.trans hw.bloom⟩
    by_cases hv : key = v.1
    · rw [hv, Function.update_self, Option.some.injEq] at hkey
      exact ⟨kept, v.2, [], by rw [hv], by rw [← hkey, hdisk]⟩
    · rw [Function.update_of_ne hv] at hkey
      exact (hown key offset hkey).append [v]
  have hkept : ¬ (∃ e, r = .error e) → r = .ok () := by
    intro hno
    cases r with
    | ok u => rfl
    | error e => exact absurd ⟨e, rfl⟩ hno
  refine ⟨r, w'', hpush, ?_⟩
  cases hpushed with
  | buffered hroom hfilled hcapacity hbuffer hfaults =>
    refine Or.inl ⟨hkept fun hr => (hfails.mp hr).1 hroom, hlocated hfilled, fun es => ?_⟩
    rw [writes, writes, List.map_cons, pushWrites, if_pos hroom, hcapacity, hbuffer, hfaults]
  | written hroom hresult hfilled hcapacity hbuffer hfaults =>
    refine Or.inl ⟨hkept fun hr => ?_, hlocated hfilled, fun es => ?_⟩
    · have herror := (hfails.mp hr).2
      rw [hresult] at herror
      cases herror
    · rw [writes, writes, List.map_cons, pushWrites_full hroom hresult, hcapacity, hbuffer, hfaults]
      rw [List.mem_cons, or_iff_right (by simp)]
  | failed hroom hresult hfilled hcapacity hbuffer hfaults =>
    refine Or.inr ⟨hfails.mpr ⟨hroom, hresult⟩, fun hunchanged => ?_, fun es => ?_⟩
    · -- The trie has the next offset, and the one before led no key there.
      have hget := hmaps'.get v.1
      rw [← htrie', hunchanged, hmaps.get, Function.update_self, Option.some.injEq] at hget
      have hlt := (hown v.1 _ hget).lt
      omega
    · rw [writes, List.map_cons, pushWrites_error hroom hresult]
      exact List.mem_cons_self ..

/-! ## All pushes -/

/-- A record more leaves the sizes. -/
theorem size_cons {kept : Entries} {v : Blob × Entry} {es : Entries}
    (hsize : headerSize + (logBlob (kept ++ v :: es)).length < 2 ^ 63) :
    headerSize + (logBlob kept).length < 2 ^ 63 ∧
      headerSize + (logBlob ((kept ++ [v]) ++ es)).length < 2 ^ 63 := by
  constructor
  · rw [logBlob_append, List.length_append] at hsize
    omega
  · rwa [List.append_assoc, List.singleton_append]

section
variable {h : Hashing} {all : List Blob} (hnodes : all.length ≤ 2 ^ 32)
include hnodes

theorem Located.atomic_iff {w : CompactionWriter} {kept : Entries} (hw : w.Located h all kept)
    {es : Entries} (hall : ∀ v ∈ es, ∀ pre, pre <+: v.1 → pre ∈ all)
    (hsize : headerSize + (logBlob (kept ++ es)).length < 2 ^ 63) :
    AtomicPushes h w (es.map recordOf) ↔ .error ∉ w.writes es := by
  induction es generalizing w kept with
  | nil => exact ⟨fun _ => List.not_mem_nil, fun _ => trivial⟩
  | cons v es ih =>
    obtain ⟨hfirst, hrest⟩ := size_cons hsize
    obtain ⟨r, w', hpush, hok | hfailed⟩ := hw.push hnodes (hall v (List.mem_cons_self ..)) hfirst
    · obtain ⟨rfl, hlocated, hwrites⟩ := hok
      rw [hwrites, ← ih hlocated (fun u hu => hall u (List.mem_cons_of_mem _ hu)) hrest]
      constructor
      · exact fun hatomic => hatomic.2 w' (by rw [pushDropped, hpush]; rfl)
      · intro hatomic
        constructor
        · intro e w'' herror
          rw [hpush] at herror
          cases herror
        · intro w'' hdropped
          rw [pushDropped, hpush] at hdropped
          cases hdropped
          exact hatomic
    · obtain ⟨⟨e, rfl⟩, hchanged, hwrites⟩ := hfailed
      constructor
      · exact fun hatomic => absurd (hatomic.1 e w' hpush).trie hchanged
      · exact fun hnone => absurd (hwrites es) hnone

theorem Located.pushAll {w w' : CompactionWriter} {kept : Entries} (hw : w.Located h all kept)
    {es : Entries} (hall : ∀ v ∈ es, ∀ pre, pre <+: v.1 → pre ∈ all)
    (hsize : headerSize + (logBlob (kept ++ es)).length < 2 ^ 63)
    (hwritten : .error ∉ w.writes es)
    (hpushes : (es.map recordOf).foldlM (pushDropped h) w = some w') :
    w'.Located h all (kept ++ es) := by
  induction es generalizing w kept with
  | nil =>
    cases hpushes
    rwa [List.append_nil]
  | cons v es ih =>
    obtain ⟨hfirst, hrest⟩ := size_cons hsize
    obtain ⟨r, w1, hpush, hok | hfailed⟩ := hw.push hnodes (hall v (List.mem_cons_self ..)) hfirst
    · obtain ⟨rfl, hlocated, hwrites⟩ := hok
      rw [List.map_cons, List.foldlM_cons, pushDropped, hpush] at hpushes
      have hend := ih hlocated (fun u hu => hall u (List.mem_cons_of_mem _ hu)) hrest
        (fun herror => hwritten ((hwrites es).mpr herror)) hpushes
      rwa [List.append_assoc, List.singleton_append] at hend
    · exact absurd (hfailed.2.2 es) hwritten

end

/-! ## The file -/

/-- A read at a record's offset ends with the record or not at all. -/
theorem readDataBlock_own {pre suf key : Blob} {e : Entry} (hfits : Record.Fits key e) {pos : Nat}
    {r : Except SSTableError Blob} {fd : File}
    (hread : (readDataBlock pre.length key).runOn ⟨pre ++ ((Record.of key e).blob ++ suf), pos,
      []⟩ = some (r, fd)) :
    r = answerOf (some e) := by
  by_cases hwin : InWindow key e
  · obtain ⟨pos', hat⟩ : ∃ pos', (readDataBlock pre.length key).runOn
        ⟨pre ++ ((Record.of key e).blob ++ suf), pos, []⟩ = some (answerOf (some e), _) :=
      readDataBlock_eq suf hfits hwin rfl
    rw [hat] at hread
    cases hread
    rfl
  · cases e with
    | tombstone => exact absurd trivial hwin
    | data value =>
      rw [readDataBlock_outside pre suf hfits hwin] at hread
      cases hread

theorem ownOffset_tableBytes {es : Entries} {key : Blob} {offset : Nat}
    (hown : OwnOffset es key offset) (index bloom : Blob) :
    ∃ e pre suf, (key, e) ∈ es ∧
      tableBytes es index bloom = pre ++ ((Record.of key e).blob ++ suf) ∧ pre.length = offset := by
  obtain ⟨front, e, back, rfl, rfl⟩ := hown
  refine ⟨e, (lsmliteSstableHeader ++ toBe 2 v0Header) ++ logBlob front, ?_⟩
  refine ⟨logBlob back ++
    (index ++ (bloom ++ encodeFooter (headerSize + (logBlob (front ++ (key, e) :: back)).length)
    index.length (headerSize + (logBlob (front ++ (key, e) :: back)).length + index.length))), ?_,
      ?_, ?_⟩
  · exact List.mem_append_right _ (List.mem_cons_self ..)
  · have hblob : logBlob (front ++ (key, e) :: back) = logBlob front ++
        ((Record.of key e).blob ++ logBlob back) := by
      simp [logBlob]
    rw [tableBytes, hblob]
    simp only [List.append_assoc]
  · rw [List.length_append, header_length]

theorem Located.ownRecords {w : CompactionWriter} {h : Hashing} {kept : Entries}
    (hw : w.Located h (prefixes kept) kept) (hrep : Representable kept)
    (hfits : ∀ v ∈ kept, Record.Fits v.1 v.2) {path : PathBuf} {file : File}
    (hfinish : w.finish = some (.ok path, file)) {s : SSTable}
    (hload : SSTable.fromFd (.opened file.content []) = some (.ok s)) :
    OwnRecords h (kept.map recordOf) s := by
  obtain ⟨m, hmaps, hown⟩ := hw.maps
  obtain ⟨index, bloom, hindex, hbloom, hfile⟩ := hw.filled.finish_some hfinish
  have htrieLt := hmaps.bytes_lt hrep.roomy.nodes
  have hbloomLt := bloom_bytes_lt hw.bloom (show 1024 < 2 ^ 32 by decide)
  have hserialized : w.trie.serialize = some w.trie.bytes := Trie.serialize_eq (by omega)
  cases hindex.symm.trans hserialized
  have hfilter : w.bloomFilter.serialize = some w.bloomFilter.bytes :=
    BloomFilter.serialize_eq (by omega)
  cases hbloom.symm.trans hfilter
  have hsize := hrep.size
  have hlength : (tableBytes kept w.trie.bytes w.bloomFilter.bytes).length < 2 ^ 64 := by
    have hlen := tableBytes_length kept w.trie.bytes w.bloomFilter.bytes
    simp only [footerSize] at hlen
    omega
  obtain ⟨hcontent, hfaults, _, _, _, htrie, _⟩ := SSTable.fromFd_ok hload
  rw [hfile] at hcontent htrie
  rw [Trie.deserializeWithin_isizeMax, indexBlock_tableBytes hlength, hmaps.codec hrep.roomy,
    Option.some.injEq] at htrie
  -- What the index answers is the offset of the key's own record.
  have hat : ∀ key offset, s.index.trie.get key = some (some offset) → ∃ e pre suf, (key, e) ∈
      kept ∧ s.fd.content = pre ++ ((Record.of key e).blob ++ suf) ∧ pre.length = offset := by
    intro key offset hkey
    rw [← htrie, hmaps.get, Option.some.injEq] at hkey
    rw [hcontent]
    exact ownOffset_tableBytes (hown key offset hkey) _ _
  constructor
  · intro key offset hkey
    obtain ⟨e, pre, suf, hin, hsplit, hpre⟩ := hat key offset hkey
    exact ⟨recordOf (key, e), List.mem_map_of_mem hin, (Record.canonical_of key e).keySlice, pre,
      suf, hsplit, hpre⟩
  · intro key value s' hsearch
    simp only [SSTable.search, SstIndex.getOffsetForKey, Option.bind_eq_bind,
      Option.bind_eq_some_iff] at hsearch
    obtain ⟨found, ⟨contained, _, hfound⟩, hsearch⟩ := hsearch
    cases found with
    | none => cases hsearch
    | some offset =>
      have hkey : s.index.trie.get key = some (some offset) := by
        cases contained with
        | true => exact hfound
        | false => cases hfound
      obtain ⟨e, pre, suf, hin, hsplit, rfl⟩ := hat key offset hkey
      obtain ⟨⟨r, fd⟩, hread, hend⟩ := Option.bind_eq_some_iff.mp hsearch
      have hfd : s.fd = ⟨pre ++ ((Record.of key e).blob ++ suf), s.fd.pos,
        []⟩ := by rw [← hsplit, ← hfaults]
      rw [hfd] at hread
      have hanswer := readDataBlock_own (hfits _ hin) hread
      cases hend
      cases e with
      | tombstone => cases hanswer
      | data found =>
        cases hanswer
        exact ⟨_, List.mem_map_of_mem hin, Record.encoded_of (hfits _ hin)⟩

end CompactionWriter

/-! ## The run -/

theorem FitsFormat.representable_map {es : Entries} (h : FitsFormat (es.map recordOf)) :
    Representable es := by
  have hstand := standFor_map es
  exact ⟨hstand.keyPrefixes ▸ h.prefixes, hstand.blobs ▸ h.size⟩

/-- From a new writer on, the pushes are atomic if and only if none of them fails to write. -/
theorem CompactionWriter.new_atomic {h : Hashing} {fileTs : Nat} {faults : List IoResult}
    (hclean : Clean faults) {w0 : CompactionWriter} (hnew : new h fileTs faults = some (.ok w0))
    {es : Entries} (hrep : Representable es) :
    w0.Located h (prefixes es) [] ∧
      (.error ∉ w0.writes es ↔ PushesWritten (es.map recordOf) faults) ∧
      (AtomicPushes h w0 (es.map recordOf) ↔ PushesWritten (es.map recordOf) faults) := by
  obtain ⟨hfilled, htrie, hbloom, hbuffer, hcapacity, hfaults⟩ := new_some hclean hnew
  have hlocated : w0.Located h (prefixes es) [] := by
    refine ⟨hfilled, ⟨_, htrie ▸ Trie.maps_new (prefixes es), fun _ _ hkey => ?_⟩, ?_⟩
    · cases hkey
    · rw [hbloom]
      exact BloomFilter.Extends.refl (BloomFilter.formed_new h 1024)
  have hwrites : .error ∉ w0.writes es ↔ PushesWritten (es.map recordOf) faults := by
    rw [PushesWritten, writes, hcapacity, hbuffer, hfaults, List.map_map]
    rfl
  refine ⟨hlocated, hwrites, ?_⟩
  rw [← hwrites]
  exact hlocated.atomic_iff hrep.roomy.nodes.le (fun v hv pre hpre =>
    mem_prefixes hv hpre) hrep.size

/-- Within the limits of the format, all that fails leaves the state as it was and the file has its
own records, if and only if no write inside a push fails. -/
theorem pushes_atomic_iff {h : Hashing} {fileTs : Nat} {faults : List IoResult}
    (hclean : Clean faults) {w0 : CompactionWriter}
    (hnew : CompactionWriter.new h fileTs faults = some (.ok w0)) {rs : List Record}
    (hrs : ∀ r ∈ rs, Encoded r) (hfits : FitsFormat rs) :
    (AtomicPushes h w0 rs ∧ FinishesOwn h w0 rs) ↔ PushesWritten rs faults := by
  obtain ⟨es, rfl, hentries⟩ := exists_map fun r hr => (hrs r hr).entry
  have hrep := hfits.representable_map
  obtain ⟨hlocated, hwrites, hatomic⟩ := CompactionWriter.new_atomic hclean hnew hrep
  rw [← hatomic]
  refine and_iff_left_of_imp fun hpushes => ?_
  intro w path file s hrun hfinish hload
  have hend := hlocated.pushAll hrep.roomy.nodes.le (fun v hv pre hpre =>
    mem_prefixes hv hpre) hrep.size (hwrites.mpr (hatomic.mp hpushes)) hrun
  rw [List.nil_append] at hend
  exact hend.ownRecords hrep hentries hfinish hload

/-- The records of the two entries are ones of the encoders. -/
theorem encoded_two {value : Blob} (hvalue : value.length ≤ 4096) :
    ∀ r ∈ (twoEntries value).map recordOf, Encoded r := by
  obtain ⟨hshort, hlong⟩ := twoEntries_lengths hvalue
  intro r hr
  obtain ⟨w, hw, rfl⟩ := List.mem_map.mp hr
  rcases List.mem_cons.mp hw with rfl | hw
  · exact Or.inl ⟨[97], [1], Record.encodeDataRecord_eq (by rw [Record.Fits]; omega)⟩
  · rw [List.mem_singleton.mp hw]
    exact Or.inl ⟨[98], value, Record.encodeDataRecord_eq (by rw [Record.Fits]; omega)⟩

/-- The push of the second record fails to write the first one, and leaves its own key in the
index. -/
theorem failed_push_indexes :
    ∃ w0 value, CompactionWriter.new flatHashing 7 [.full, .full, .error] = some (.ok w0) ∧
    value = List.replicate 4096 0 ∧
      ¬ AtomicPushes flatHashing w0 ((twoEntries value).map recordOf) := by
  obtain ⟨value, hvalue⟩ : ∃ value : Blob, value = List.replicate 4096 0 := ⟨_, rfl⟩
  have hlength : value.length = 4096 := by rw [hvalue, List.length_replicate]
  have hclean : ∀ r ∈ ([.full, .full, .error] : List IoResult), r = .full ∨ r = .error := by decide
  obtain ⟨w0, hnew⟩ := CompactionWriter.new_full flatHashing 7 hclean (by decide)
  obtain ⟨_, _, hatomic⟩ :=
    CompactionWriter.new_atomic hclean hnew (representable_two (Nat.le_of_eq hlength))
  refine ⟨w0, value, hnew, hvalue, fun hpushes => ?_⟩
  have hnone : IoResult.error ∉ (pushWrites 4096 0 _ [.error]).1 := hatomic.mp hpushes
  rw [twoEntries_writes hlength (Or.inr rfl)] at hnone
  exact hnone (List.mem_singleton_self _)

/-- The second push has to write the first record, and the write succeeds. -/
theorem pushes_atomic_two :
    ∃ w0 rs, CompactionWriter.new flatHashing 7 [.full, .full, .full] = some (.ok w0) ∧
    (pushWrites 4096 0 (rs.map Record.size) [.full]).1 = [.full] ∧
    (AtomicPushes flatHashing w0 rs ∧ FinishesOwn flatHashing w0 rs) := by
  obtain ⟨value, hlength⟩ : ∃ value : Blob, value.length = 4096 :=
    ⟨List.replicate 4096 0, List.length_replicate⟩
  have hclean : ∀ r ∈ ([.full, .full, .full] : List IoResult), r = .full ∨ r = .error := by decide
  have hle := Nat.le_of_eq hlength
  obtain ⟨w0, hnew⟩ := CompactionWriter.new_full flatHashing 7 hclean (by decide)
  have hwrites := congrArg Prod.fst (twoEntries_writes hlength (Or.inl rfl))
  have hwritten : PushesWritten ((twoEntries value).map recordOf) [.full, .full, .full] := by
    show IoResult.error ∉ (pushWrites 4096 0 _ [.full]).1
    rw [hwrites]
    decide
  exact ⟨w0, _, hnew, hwrites,
    (pushes_atomic_iff hclean hnew (encoded_two hle)
      (fitsFormat_map (representable_two hle))).mpr hwritten⟩

end Lsmlite
