import Lsmlite.Compaction
import Lsmlite.Lib.Pairing
import Lsmlite.SSTableFormat

/-!
# SSTables as sorted maps

A loaded table is searched and iterated as the list it holds. A search reads a record through a
window: a data record has to be `InWindow`, its first 4096 bytes hold everything but the value.
-/

namespace Lsmlite
open Bytes KeyValue

/-! ## Reading one record -/

/-- Everything but the value lies in the first 4096 bytes of the record. -/
def InWindow (key : Blob) : Entry → Prop
  | .data value =>
    Record.keyOffset key (.data value) + key.length + (leb value.length).length ≤
      recordReadBufferSize
  | .tombstone => True

instance (key : Blob) : (e : Entry) → Decidable (InWindow key e)
  | .data _ => inferInstanceAs (Decidable (_ ≤ _))
  | .tombstone => inferInstanceAs (Decidable True)

/-- How a table answers with an entry, or without one. -/
def answerOf : Option Entry → Except SSTableError Blob
  | some (.data value) => .ok value
  | some .tombstone => .error .tombstone
  | none => .error .diskRecordNotFound

/-- The bytes before the value. -/
def recordFront (key value : Blob) : Blob :=
  [dataLogHeader] ++ (leb (Record.body key (.data value)).length ++ (leb key.length ++
    (key ++ leb value.length)))

theorem blob_front (key value : Blob) :
    (Record.of key (.data value)).blob = recordFront key value ++ value := by
  simp [Record.of, recordFront, Record.body, Entry.tail, Entry.header]

theorem recordFront_length (key value : Blob) : (recordFront key value).length =
    Record.keyOffset key (.data value) + key.length + (leb value.length).length := by
  simp only [recordFront, List.length_append, List.length_singleton,
    Record.keyOffset, Record.logWidth]
  omega

/-- A value that reaches past the window is completed from the file. -/
theorem readOversizedRecordFromDisk_eq (front part rest suf pre : Blob) {value : Blob}
    (hvalue : value = part ++ rest) (hrest : rest ≠ []) (hlt : value.length < 2 ^ 63)
    {offset pos : Nat} (ho : offset = front.length) (hp : pos = pre.length) :
    (readOversizedRecordFromDisk offset (front ++ (leb value.length ++ part))).runOn
        ⟨pre ++ (rest ++ suf), pos, []⟩ =
      some (.ok value, ⟨pre ++ (rest ++ suf), pos + rest.length, []⟩) := by
  have hdec := decodeVarint_leb front part value.length ho (by omega)
  have hslice : slice (front ++ (leb value.length ++ part)) (offset + (leb value.length).length)
      (front ++ (leb value.length ++ part)).length = some part := by
    have := slice_mid (front ++ leb value.length) part []
      (show offset + (leb value.length).length = _ by rw [List.length_append, ho]) rfl
    simpa [ho, Nat.add_assoc] using this
  have hlen : value.length = part.length + rest.length := by rw [hvalue, List.length_append]
  have hpos := List.length_pos_iff.mpr hrest
  rw [readOversizedRecordFromDisk, hdec]
  refine (Fallible.bind_ok (Fallible.runOn_lift_some _ _)).trans ?_
  dsimp only
  rw [hslice]
  refine (Fallible.bind_ok (Fallible.runOn_lift_some _ _)).trans ?_
  refine (Fallible.bind_ok (runOn_guard (by omega) _)).trans ?_
  refine (Fallible.bind_ok
      (Fallible.mapError_ok (show (Fd.readExact _).runOn _ = some (.ok rest, _) by
    rw [Fd.readExact, Fallible.runOn_step,
      File.readExact_mid pre rest suf hp (by omega)]))).trans ?_
  rw [hvalue]
  rfl

/-- A window keeps what lies in it. -/
theorem resize_take (front back : Blob) {n : Nat} (h : front.length ≤ n) :
    resize ((front ++ back).take n) n 0 =
      front ++ resize (back.take (n - front.length)) (n - front.length) 0 := by
  rw [List.take_append, List.take_of_length_le h, resize_append _ _ _ h]

/-- What `read_data_block` does with a data record's window. -/
theorem readDataBlock_window {key value : Blob} (hfits : Record.Fits key (.data value))
    (back : Blob) :
    decodeVarint (recordFront key value ++ back) 1 =
        some ((Record.body key (.data value)).length, Record.logWidth key (.data value)) ∧
      slice (recordFront key value ++ back)
        (1 + Record.logWidth key (.data value) + varintSizeFromLen key.length)
        (1 + Record.logWidth key (.data value) + varintSizeFromLen key.length + key.length) =
          some key ∧
      decodeVarint (recordFront key value ++ back)
        (1 + Record.logWidth key (.data value) + (varintSizeFromLen key.length + key.length)) =
          some (value.length, (leb value.length).length) := by
  have hk := hfits.key_lt
  have hb := hfits.body_lt
  have hv := hfits.value_lt
  rw [varintSizeFromLen_eq hk]
  refine ⟨?_, ?_, ?_⟩
  · have := decodeVarint_leb [dataLogHeader] (leb key.length ++ (key ++ leb value.length) ++ back)
      (Record.body key (.data value)).length (show 1 = _ from rfl) (by omega)
    simpa [recordFront, Record.logWidth] using this
  · have := slice_mid ([dataLogHeader] ++ leb (Record.body key (.data value)).length ++
      leb key.length) key (leb value.length ++ back)
      (show 1 + Record.logWidth key (.data value) + (leb key.length).length = _ by
        simp [Record.logWidth, Nat.add_comm, Nat.add_left_comm]) rfl
    simpa [recordFront] using this
  · have := decodeVarint_leb ([dataLogHeader] ++ leb (Record.body key (.data value)).length ++
        leb key.length ++ key) back value.length
      (show 1 + Record.logWidth key (.data value) + ((leb key.length).length + key.length) = _ by
        simp [Record.logWidth, Nat.add_assoc, Nat.add_comm, Nat.add_left_comm]) (by omega)
    simpa [recordFront] using this

/-- What is read at an offset. -/
theorem Fd.read_at {α : Type} (f : Blob → Fd SSTableError α) (content : Blob) (pos offset n : Nat) :
    ((do
      (Fd.seek offset).sst
      let got ← (Fd.read n).sst
      f got) : Fd SSTableError α).runOn ⟨content, pos, []⟩ =
        (f ((content.drop offset).take n)).runOn
          ⟨content, offset + ((content.drop offset).take n).length, []⟩ := by
  refine (Fallible.bind_ok (show (Fd.seek offset).sst.runOn _ = some (.ok (), _) from rfl)).trans ?_
  refine (Fallible.bind_ok (Fallible.mapError_ok (show (Fd.read _).runOn _ = _ by
    rw [Fd.read, Fallible.runOn_step, File.read_nil]))).trans ?_
  rfl

/-- What a record's window has behind the bytes before the value. -/
def windowBack (key value suf : Blob) : Blob :=
  resize ((value ++ suf).take (recordReadBufferSize - (recordFront key value).length))
    (recordReadBufferSize - (recordFront key value).length) 0

theorem blob_length_front (key value : Blob) : (Record.of key (.data value)).blob.length =
    (recordFront key value).length + value.length := by
  rw [blob_front, List.length_append]

section
variable {key value : Blob} (suf : Blob)

theorem window_eq (hwin : InWindow key (.data value)) :
    resize (((Record.of key (.data value)).blob ++ suf).take recordReadBufferSize)
      recordReadBufferSize 0 = recordFront key value ++ windowBack key value suf := by
  simp only [InWindow, ← recordFront_length] at hwin
  rw [blob_front, List.append_assoc]
  exact resize_take (recordFront key value) (value ++ suf) hwin

/-- The window ends behind the value. -/
theorem slice_window (hwhole : (Record.of key (.data value)).blob.length ≤ recordReadBufferSize) :
    slice (recordFront key value ++ windowBack key value suf) (recordFront key value).length
      ((recordFront key value).length + value.length) = some value := by
  have hlen := blob_length_front key value
  rw [windowBack, resize_take _ _ (by omega)]
  exact slice_mid _ _ _ rfl rfl

/-- The window ends inside the value. -/
theorem windowBack_oversized
    (hover : recordReadBufferSize < (Record.of key (.data value)).blob.length) :
    windowBack key value suf =
      value.take (recordReadBufferSize - (recordFront key value).length) := by
  have hlen := blob_length_front key value
  have hfull : (value.take (recordReadBufferSize - (recordFront key value).length)).length =
      recordReadBufferSize - (recordFront key value).length := by
    rw [List.length_take]
    omega
  rw [windowBack, List.take_append_of_le_length (by omega), resize, hfull, Nat.sub_self,
    List.take_of_length_le hfull.le, List.replicate_zero, List.append_nil]

/-- A value that the window cuts is read to its end. -/
theorem readOversized_window {pre : Blob} (hfits : Record.Fits key (.data value))
    (hwin : InWindow key (.data value))
    (hover : recordReadBufferSize < (Record.of key (.data value)).blob.length) :
    ∃ pos', (readOversizedRecordFromDisk
        (1 + Record.logWidth key (.data value) + (varintSizeFromLen key.length + key.length))
        (recordFront key value ++ windowBack key value suf)).runOn
          ⟨pre ++ ((Record.of key (.data value)).blob ++ suf), pre.length +
            (((Record.of key (.data value)).blob ++ suf).take recordReadBufferSize).length, []⟩ =
      some (.ok value, ⟨pre ++ ((Record.of key (.data value)).blob ++ suf), pos', []⟩) := by
  obtain ⟨back, hback⟩ : ∃ back, back = windowBack key value suf := ⟨_, rfl⟩
  obtain ⟨rest, hrest⟩ : ∃ rest, rest = value.drop
    (recordReadBufferSize - (recordFront key value).length) := ⟨_, rfl⟩
  have hlen := blob_length_front key value
  simp only [InWindow, ← recordFront_length] at hwin
  have hbacklen : back.length = recordReadBufferSize - (recordFront key value).length := by
    rw [hback, windowBack, resize_length]
  have hsplit : value = back ++ rest := by
    rw [hback, hrest, windowBack_oversized suf hover, List.take_append_drop]
  have hne : rest ≠ [] := by
    rw [hrest, Ne, List.drop_eq_nil_iff]
    omega
  have hfront : recordFront key value ++ back = ([dataLogHeader] ++
      leb (Record.body key (.data value)).length ++ leb key.length ++ key) ++
        (leb value.length ++ back) := by simp [recordFront]
  have hfile : pre ++ ((Record.of key (.data value)).blob ++ suf) =
      (pre ++ (recordFront key value ++ back)) ++ (rest ++ suf) := by
    rw [blob_front]
    simp only [List.append_assoc]
    rw [← List.append_assoc back, ← hsplit]
  have hpos : pre.length + (((Record.of key (.data value)).blob ++ suf).take
      recordReadBufferSize).length = (pre ++ (recordFront key value ++ back)).length := by
    rw [List.length_append, List.length_append, hbacklen, List.length_take, List.length_append]
    omega
  have hread := readOversizedRecordFromDisk_eq _ back _ suf _ hsplit hne hfits.value_lt
    (show 1 + Record.logWidth key (.data value) + (varintSizeFromLen key.length + key.length) =
      ([dataLogHeader] ++ leb (Record.body key (.data value)).length ++
          leb key.length ++ key).length by
        simp [Record.logWidth, varintSizeFromLen_eq hfits.key_lt,
          Nat.add_comm, Nat.add_left_comm]) hpos
  rw [← hfront, ← hfile] at hread
  rw [← hback]
  exact ⟨_, hread⟩

end

theorem tombstone_window (key suf : Blob) :
    (resize (((Record.of key .tombstone).blob ++ suf).take recordReadBufferSize)
      recordReadBufferSize 0)[0]? = some tombstoneLogHeader := by
  have := resize_take [tombstoneLogHeader] (leb (Record.body key .tombstone).length ++
    Record.body key .tombstone ++ suf) (show 1 ≤ recordReadBufferSize by decide)
  rw [show (Record.of key .tombstone).blob ++ suf = [tombstoneLogHeader] ++
    (leb (Record.body key .tombstone).length ++ Record.body key .tombstone ++ suf) by
      simp [Record.of, Entry.header], this]
  rfl

/-- A record is read where it stands, through its window. -/
theorem readDataBlock_eq {pre key : Blob} (suf : Blob) {e : Entry} (hfits : Record.Fits key e)
    (hwin : InWindow key e) {offset pos : Nat} (ho : offset = pre.length) :
    ∃ pos', (readDataBlock offset key).runOn ⟨pre ++ ((Record.of key e).blob ++ suf), pos, []⟩ =
      some (answerOf (some e), ⟨pre ++ ((Record.of key e).blob ++ suf), pos', []⟩) := by
  subst ho
  have hgot : ((pre ++ ((Record.of key e).blob ++ suf)).drop pre.length).take recordReadBufferSize =
      ((Record.of key e).blob ++ suf).take recordReadBufferSize := by
    rw [List.drop_left]
  rw [readDataBlock, Fd.read_at, hgot]
  cases e with
  | tombstone =>
    refine ⟨pre.length +
      (((Record.of key .tombstone).blob ++ suf).take recordReadBufferSize).length, ?_⟩
    dsimp only
    rw [tombstone_window]
    refine (Fallible.bind_ok (Fallible.runOn_lift_some _ _)).trans ?_
    rfl
  | data value =>
    have hblob := Record.blob_length key (.data value)
    have hbody := Record.body_length key (.data value)
    have hkw := varintSizeFromLen_eq hfits.key_lt
    have htail : (Entry.tail (.data value)).length = (leb value.length).length + value.length := by
      simp [Entry.tail]
    have hkey : (recordFront key value).length = 1 + Record.logWidth key (.data value) +
        (varintSizeFromLen key.length + key.length) + (leb value.length).length := by
      rw [recordFront_length, Record.keyOffset, hkw]
      omega
    obtain ⟨h1, h2, h3⟩ := readDataBlock_window hfits (windowBack key value suf)
    have hvalue : ∃ pos', (if recordReadBufferSize < (Record.of key (.data value)).blob.length then
          readOversizedRecordFromDisk
            (1 + Record.logWidth key (.data value) + (varintSizeFromLen key.length + key.length))
            (recordFront key value ++ windowBack key value suf)
        else .lift (slice (recordFront key value ++ windowBack key value suf)
          (recordFront key value).length ((recordFront key value).length + value.length))).runOn
            ⟨pre ++ ((Record.of key (.data value)).blob ++ suf), pre.length +
              (((Record.of key (.data value)).blob ++ suf).take recordReadBufferSize).length, []⟩ =
        some (.ok value, ⟨pre ++ ((Record.of key (.data value)).blob ++ suf), pos', []⟩) := by
      split
      · rename_i hover
        exact readOversized_window suf hfits hwin hover
      · rename_i hwhole
        rw [slice_window suf (Nat.not_lt.mp hwhole)]
        exact ⟨_, rfl⟩
    rw [window_eq suf hwin]
    obtain ⟨pos', hread⟩ := hvalue
    refine ⟨pos', ?_⟩
    refine (Fallible.bind_ok (Fallible.runOn_lift_some dataLogHeader _)).trans ?_
    rw [if_neg (by decide), h1]
    refine (Fallible.bind_ok (Fallible.runOn_lift_some _ _)).trans ?_
    dsimp only
    rw [h2]
    refine (Fallible.bind_ok (Fallible.runOn_lift_some _ _)).trans ?_
    refine (Fallible.bind_ok (runOn_guard rfl _)).trans ?_
    refine (Fallible.bind_ok (runOn_guard (by omega) _)).trans ?_
    rw [show 1 + Record.logWidth key (.data value) + (varintSizeFromLen key.length + key.length) +
      ((Record.body key (.data value)).length - (varintSizeFromLen key.length + key.length)) =
        (Record.of key (.data value)).blob.length by omega]
    rw [answerOf, ← hread]
    split
    · rfl
    · rw [h3]
      refine (Fallible.bind_ok (Fallible.runOn_lift_some _ _)).trans ?_
      rw [hkey]

/-! ## Search -/

/-- The descriptor's position is free. -/
theorem SSTable.Holds.with_pos {h : Hashing} {s : SSTable} {es : Entries} (hs : s.Holds h es)
    {fd : File} (hcontent : fd.content = s.fd.content) (hfaults : fd.faults = []) :
    { s with fd }.Holds h es :=
  ⟨hcontent ▸ hs.content, hfaults, hs.dataBlockEnd, hs.maps, hs.formed, hs.added,
    hs.sorted, hs.fits, hs.size⟩

theorem SSTable.Holds.fd_eq {h : Hashing} {s : SSTable} {es : Entries} (hs : s.Holds h es) :
    s.fd = ⟨s.fd.content, s.fd.pos, []⟩ := by rw [← hs.faults]

/-- The index leads to the record of a stored key. -/
theorem SSTable.Holds.located {h : Hashing} {s : SSTable} {es : Entries} (hs : s.Holds h es)
    {key : Blob} {e : Entry} (hlast : last key es = some e) :
    ∃ pre suf : Blob, s.index.getOffsetForKey h key = some (some pre.length) ∧
      s.fd.content = pre ++ ((Record.of key e).blob ++ suf) := by
  obtain ⟨all, hmaps⟩ := hs.maps
  obtain ⟨offset, hoffset⟩ : ∃ offset, recordOffset headerSize es key = some offset := by
    rw [← Option.ne_none_iff_exists']
    intro hnone
    rw [recordOffset_eq_none_iff.mp hnone] at hlast
    cases hlast
  obtain ⟨e', pre, suf, hlast', hblob, hpos⟩ := recordOffset_split hs.sorted hoffset
  cases hlast.symm.trans hlast'
  have hcontains := hs.formed.contains (hs.added _ (mem_of_last hlast))
  obtain ⟨suf', hcontent⟩ := hs.content
  have hlength : (lsmliteSstableHeader ++ toBe 2 v0Header ++ pre).length = offset := by
    rw [List.length_append, header_length, hpos]
  refine ⟨lsmliteSstableHeader ++ toBe 2 v0Header ++ pre, suf ++ suf', ?_, ?_⟩
  · have hget := hmaps.get key
    rw [hoffset] at hget
    rw [SstIndex.getOffsetForKey, hcontains, hlength]
    exact hget
  · rw [hcontent, hblob]
    simp only [List.append_assoc]

/-- A table answers with what it holds for the key. -/
theorem SSTable.Holds.search {h : Hashing} {s : SSTable} {es : Entries} (hs : s.Holds h es)
    {key : Blob} (hwin : ∀ e, last key es = some e → InWindow key e) :
    ∃ s', s.search h key = some (answerOf (last key es), s') ∧ s'.Holds h es := by
  cases hlast : last key es with
  | none =>
    obtain ⟨all, hmaps⟩ := hs.maps
    obtain ⟨found, hfound⟩ := hs.formed.contains_isSome h key
    -- The trie has no offset, whatever the bloom filter says.
    have hoff : s.index.getOffsetForKey h key = some none := by
      rw [SstIndex.getOffsetForKey, hfound]
      cases found with
      | false => rfl
      | true =>
        have := hmaps.get key
        rw [recordOffset_eq_none_iff.mpr hlast] at this
        exact this
    refine ⟨s, ?_, hs⟩
    rw [SSTable.search, hoff]
    rfl
  | some e =>
    obtain ⟨pre, suf, hoff, hfile⟩ := hs.located hlast
    obtain ⟨pos', hread⟩ := readDataBlock_eq suf (hs.fits _ (mem_of_last hlast)) (hwin e hlast)
      (show pre.length = pre.length from rfl)
    rw [← hfile] at hread
    refine ⟨{ s with fd := ⟨s.fd.content, pos', []⟩ }, ?_, hs.with_pos rfl rfl⟩
    rw [SSTable.search, hoff]
    simp only [Option.bind_eq_bind, Option.bind_some]
    rw [hs.fd_eq, hread]
    rfl

/-- The tables of a cache hold `ess`, in the same order. -/
def SSTableCache.Holds (h : Hashing) (tables : List SSTable) (ess : List Entries) : Prop :=
  List.Forall₂ (fun s es => s.Holds h es) tables ess

theorem SSTableCache.Holds.sorted {h : Hashing} {tables : List SSTable} {ess : List Entries}
    (hs : SSTableCache.Holds h tables ess) : ∀ es ∈ ess, Sorted es := by
  intro es hes
  obtain ⟨s, _, hholds⟩ := exists_of_forall₂ hs.flip hes
  exact hholds.sorted

theorem SSTableCache.Holds.fits {h : Hashing} {tables : List SSTable} {ess : List Entries}
    (hs : SSTableCache.Holds h tables ess) : ∀ es ∈ ess, ∀ w ∈ es, Record.Fits w.1 w.2 := by
  intro es hes
  obtain ⟨s, _, hholds⟩ := exists_of_forall₂ hs.flip hes
  exact hholds.fits

/-- The first list with the key decides. -/
def findEntry (key : Blob) (ess : List Entries) : Option Entry := ess.findSome? (last key)

theorem findEntry_cons (key : Blob) (es : Entries) (ess : List Entries) :
    findEntry key (es :: ess) = (last key es).or (findEntry key ess) := by
  rw [findEntry, List.findSome?_cons]
  cases last key es <;> rfl

/-- Newest first is oldest first with the last one deciding. -/
theorem last_flatten_reverse (key : Blob) (ess : List Entries) :
    last key ess.reverse.flatten = findEntry key ess := by
  induction ess with
  | nil => rfl
  | cons es ess ih =>
    rw [List.reverse_cons, List.flatten_append, last_append, ih, findEntry_cons]
    simp

/-- What a search returns for an entry: a tombstone is not found. -/
def readEntry : Option Entry → Option Blob
  | some (.data value) => some value
  | some .tombstone => none
  | none => none

/-- The cache answers with the newest table that has the key. -/
theorem searchTables_eq {h : Hashing} {tables : List SSTable} {ess : List Entries}
    (hs : SSTableCache.Holds h tables ess) {key : Blob}
    (hwin : ∀ e, findEntry key ess = some e → InWindow key e) :
    ∃ r tables', SSTableCache.searchTables h key tables = some (r, tables') ∧
      r.toOption = readEntry (findEntry key ess) ∧ SSTableCache.Holds h tables' ess := by
  induction hs with
  | nil => exact ⟨_, _, rfl, rfl, List.Forall₂.nil⟩
  | @cons s es tables ess hs htables ih =>
    rw [findEntry_cons] at hwin ⊢
    obtain ⟨s', hsearch, hs'⟩ := hs.search fun e he => hwin e (by rw [he, Option.some_or])
    rw [SSTableCache.searchTables, hsearch]
    cases hlast : last key es with
    | none =>
      rw [hlast, Option.none_or] at hwin
      obtain ⟨r, tables', hrest, hr, htables'⟩ := ih hwin
      refine ⟨r, s' :: tables', ?_, by rw [Option.none_or]; exact hr, htables'.cons hs'⟩
      simp only [answerOf, Option.bind_eq_bind, Option.bind_some, hrest, Option.pure_def]
    | some e =>
      cases e with
      | data value => exact ⟨_, _, rfl, rfl, List.Forall₂.cons hs' htables⟩
      | tombstone => exact ⟨_, _, rfl, rfl, List.Forall₂.cons hs' htables⟩

/-! ## Iteration -/

/-- The iterator returns the records of a list. -/
inductive SSTableIterator.Yields : SSTableIterator → List Record → Prop where
  | done {it it' : SSTableIterator} (h : it.next = some (none, it')) : Yields it []
  | record {it it' : SSTableIterator} {r : Record} {rs : List Record}
      (h : it.next = some (some r, it')) (hrest : Yields it' rs) : Yields it (r :: rs)

theorem yields_logBlob {ws : Entries} (hfits : ∀ w ∈ ws, Record.Fits w.1 w.2) (pre : Blob)
    {offset : Nat} (ho : offset = pre.length) :
    SSTableIterator.Yields ⟨pre ++ logBlob ws, offset⟩ (ws.map fun w => Record.of w.1 w.2) := by
  induction ws generalizing pre offset with
  | nil =>
    have hnext : SSTableIterator.next ⟨pre ++ logBlob [], offset⟩ =
        some (none, ⟨pre ++ logBlob [], offset⟩) := by simp [SSTableIterator.next, logBlob, ho]
    exact .done hnext
  | cons w ws ih =>
    have hcons : logBlob (w :: ws) = (Record.of w.1 w.2).blob ++ logBlob ws := by simp [logBlob]
    have hpos := List.length_pos_iff.mpr (blob_ne_nil w.1 w.2)
    have htail := ih (fun w' hw' => hfits w' (List.mem_cons_of_mem _ hw'))
      (pre ++ (Record.of w.1 w.2).blob) rfl
    rw [List.append_assoc, ← hcons] at htail
    refine .record ?_ htail
    rw [SSTableIterator.next, hcons, if_neg (by simp only [List.length_append]; omega),
      Record.decodeDiskRecord_of _ _ (hfits w (List.mem_cons_self ..)) ho, List.length_append, ho]
    rfl

/-- The iterator of a table returns the records it holds. -/
theorem SSTable.Holds.iterator {h : Hashing} {s : SSTable} {es : Entries} (hs : s.Holds h es) :
    ∃ it s', SSTableIterator.new s = some (it, s') ∧ s'.Holds h es ∧ it.buffer = logBlob es ∧
      it.Yields (es.map fun w => Record.of w.1 w.2) := by
  obtain ⟨suf, hcontent⟩ := hs.content
  have hsize := hs.size
  have hread := File.readExact_mid (lsmliteSstableHeader ++ toBe 2 v0Header) (logBlob es) suf
    (show headerSize = _ from rfl) (show headerSize + (logBlob es).length - headerSize = _ by omega)
  rw [← hcontent] at hread
  refine ⟨⟨logBlob es, 0⟩, { s with fd := ⟨s.fd.content, headerSize + (logBlob es).length, []⟩ },
    ?_, hs.with_pos rfl rfl, rfl, yields_logBlob hs.fits [] rfl⟩
  have hlen : headerSize + (logBlob es).length - headerSize < 2 ^ 63 := by omega
  simp only [SSTableIterator.new, hs.dataBlockEnd, guard, if_pos (Nat.le_add_right _ _),
    if_pos hlen, Option.bind_eq_bind, Option.bind_some, Option.pure_def]
  rw [hs.fd_eq, File.seek_nil, hread]

theorem tablesToIterators_eq {h : Hashing} {tables : List SSTable} {ess : List Entries}
    (hs : SSTableCache.Holds h tables ess) :
    ∃ iters tables', tablesToIterators tables = some (iters, tables') ∧
      SSTableCache.Holds h tables' ess ∧
      List.Forall₂ (fun it es => it.Yields (es.map fun w => Record.of w.1 w.2)) iters ess := by
  induction hs with
  | nil => exact ⟨[], [], rfl, List.Forall₂.nil, List.Forall₂.nil⟩
  | @cons s es tables ess hs htables ih =>
    obtain ⟨it, s', hnew, hs', _, hit⟩ := hs.iterator
    obtain ⟨iters, tables', hrest, htables', hiters⟩ := ih
    refine ⟨it :: iters, s' :: tables', ?_, htables'.cons hs', hiters.cons hit⟩
    simp only [tablesToIterators, hnew, hrest, Option.bind_eq_bind,
      Option.bind_some, Option.pure_def]

end Lsmlite
