import Lsmlite.CanonicalFiles
import Lsmlite.TableBounds

/-!
# Space

A flush writes a key's last record only, and a compaction writes a record that one of its tables
has. So the records in the cache's tables are never more than what was written, and a key has one in
each table. What a file has besides its records, the index above all, is linear in them.
-/

namespace Lsmlite
open Bytes KeyValue

/-! ## The records -/

/-- The records of the lists, each as often as it is there, are among those flushed. -/
def Frugal (ws : Entries) (ess : List Entries) : Prop := ess.flatten.Subperm ws

/-- A compaction writes a record of its tables for a key. -/
theorem Compacted.subperm {h : Hashing} {ess : List Entries} {iters : List SSTableIterator}
    {es : Entries} (hcompacted : Compacted h ess iters es) : es.Subperm ess.flatten := by
  apply sorted_subperm hcompacted.sorted
  intro w hw
  obtain ⟨_, es', hes', hw⟩ := hcompacted.data w hw
  exact List.mem_flatten_of_mem hes' hw

theorem frugal_rule (h : Hashing) : CacheRule h (fun _ => True) (fun _ _ => False) Frugal where
  nil := List.Subperm.refl []
  push := by
    intro ws ess tw hfrugal
    have hnew : (ofWrites tw).Subperm tw := sorted_subperm (sorted_ofWrites tw) fun w hw =>
      mem_ofWrites hw
    rw [Frugal, List.flatten_cons]
    exact (hnew.append hfrugal).trans List.perm_append_comm.subperm
  compact := by
    intro ws ess iters es hfrugal hcompacted _
    rw [Frugal, List.flatten_singleton]
    exact hcompacted.subperm.trans hfrugal
  window := by
    intro ws ess key _ hreads
    exact hreads.elim

/-- The bytes of a table's records. -/
def SSTable.dataBytes (s : SSTable) : Nat := s.index.dataBlockEnd - headerSize

theorem SSTableCache.Holds.dataBytes {h : Hashing} {tables : List SSTable} {ess : List Entries}
    (hs : SSTableCache.Holds h tables ess) :
    (tables.map SSTable.dataBytes).sum = (logBlob ess.flatten).length := by
  induction hs with
  | nil => rfl
  | cons hs _ ih =>
    rw [List.map_cons, List.sum_cons, ih, List.flatten_cons, logBlob_append, List.length_append,
      SSTable.dataBytes, hs.dataBlockEnd, Nat.add_sub_cancel_left]

theorem count_key_le {es : Entries} (hs : Sorted es) (key : Blob) :
    es.countP (fun w => w.1 = key) ≤ 1 := by
  induction es with
  | nil => exact Nat.zero_le 1
  | cons w es ih =>
    obtain ⟨hw, hes⟩ := List.pairwise_cons.mp hs
    rw [List.countP_cons]
    split
    · rename_i hkey
      have hnone : es.countP (fun w => w.1 = key) = 0 := by
        rw [List.countP_eq_zero]
        intro w' hw' hkey'
        have hlt := hw w' hw'
        simp only [decide_eq_true_eq] at hkey hkey'
        exact absurd (hkey.trans hkey'.symm) (ne_of_lt hlt)
      exact Nat.le_of_eq (congrArg (· + 1) hnone)
    · exact ih hes

/-- One record of a key in each table. -/
theorem count_flatten_le {ess : List Entries} (hs : ∀ es ∈ ess, Sorted es) (key : Blob) :
    ess.flatten.countP (fun w => w.1 = key) ≤ ess.length := by
  induction ess with
  | nil => exact Nat.zero_le 0
  | cons es ess ih =>
    obtain ⟨hes, hrest⟩ := List.forall_mem_cons.mp hs
    have hfirst := count_key_le hes key
    have hothers := ih hrest
    rw [List.flatten_cons, List.countP_append, List.length_cons]
    omega

namespace Engine

/-- Maintenance never multiplies a record: in every state reached, as long as the files' limits are
met, the records in the cache's tables are among the flushed writes, each as often at most, and a
key has no more of them than the cache may have tables. -/
theorem space_bounded {c : Config} {ok : Engine → Action → Prop} {e : Engine} (h : Reaches c ok e)
    (hfits : e.FitsFormat) :
    (e.sstableCache.cache.map SSTable.dataBytes).sum ≤ (logBlob e.flushed).length ∧
    ∃ ess, SSTableCache.Holds c.hashing e.sstableCache.cache ess ∧ ess.flatten.Subperm e.flushed ∧
      ∀ key, ess.flatten.countP (fun w => w.1 = key) ≤ max c.compactionRate 2 := by
  have hlayered := (h.within hfits).layered (frugal_rule c.hashing)
  obtain ⟨ess, hess, hfrugal⟩ := hlayered.cache.tables
  refine ⟨?_, ess, hess, hfrugal, fun key => ?_⟩
  · rw [hess.dataBytes]
    exact logBlob_length_le hfrugal
  · have hcount := count_flatten_le hess.sorted key
    have htables := (tables_bounded h).1
    rw [hess.length_eq] at htables
    exact hcount.trans htables

/-- A key is set twice before its table is flushed. -/
def overwrittenRun : List Action :=
  [.spawn] ++ writeSteps 0 [97] [1] ++ writeSteps 0 [97] [2] ++ writeSteps 0 [98] [3] ++
    swapSteps 0 [99] [4] 1 ++ retrySteps 0 ++ flushCycle 2

theorem overwritten_reached :
    ∃ e, Reaches pairConfig (fun _ _ => True) e ∧ e.FitsFormat ∧
    e.flushed = [([97], .data [1]), ([97], .data [2]), ([98], .data [3])] ∧
    e.sstableCache.cache.map SSTable.dataBytes = [12] ∧
      e.files.map (fun f => f.content.length) = [111] := by
  have hrun : (runActions pairConfig (fun _ _ => True) (start pairConfig ⟨0, 0⟩) overwrittenRun).map
      (fun e => decide (e.flushed = [([97], .data [1]), ([97], .data [2]), ([98], .data [3])] ∧
        e.sstableCache.cache.map SSTable.dataBytes = [12] ∧
          e.files.map (fun f => f.content.length) = [111] ∧
        asEntries e.invoked = [([97], .data [1]), ([97], .data [2]), ([98], .data [3]),
            ([99], .data [4])])) = some true := by
    decide +kernel
  obtain ⟨e, he, hfacts⟩ := Option.map_eq_some_iff.mp hrun
  obtain ⟨hflushed, hbytes, hfiles, hinvoked⟩ := of_decide_eq_true hfacts
  refine ⟨e, reaches_runActions (.start _) he, ?_, hflushed, hbytes, hfiles⟩
  unfold FitsFormat
  rw [hinvoked]
  exact representable_of_gap (by decide +kernel) (by decide +kernel) (by decide +kernel)

theorem space_bounded_overwritten :
    ∃ e, Reaches pairConfig (fun _ _ => True) e ∧
    e.flushed = [([97], .data [1]), ([97], .data [2]), ([98], .data [3])] ∧
    e.sstableCache.cache.map SSTable.dataBytes = [12] ∧
    (e.sstableCache.cache.map SSTable.dataBytes).sum ≤ (logBlob e.flushed).length ∧
    ∃ ess, SSTableCache.Holds pairConfig.hashing e.sstableCache.cache ess ∧
      ess.flatten.Subperm e.flushed ∧
      ∀ key, ess.flatten.countP (fun w => w.1 = key) ≤ max pairConfig.compactionRate 2 := by
  obtain ⟨e, hreach, hfits, hflushed, hbytes, _⟩ := overwritten_reached
  exact ⟨e, hreach, hflushed, hbytes, space_bounded hreach hfits⟩

end Engine

/-! ## The index -/

section
variable {t : Trie} {all labels : List Blob} {m : Blob → Option Nat}

/-- The labels of a node's children. -/
def childLabels (p : TrieNode × Blob) : List Blob := p.1.children.map fun child => p.2 ++ [child.1]

theorem Trie.Labeled.childLabels_nodup (h : t.Labeled all labels m) :
    ((t.arena.zip labels).flatMap childLabels).Nodup := by
  rw [List.nodup_flatMap]
  constructor
  · intro p hp
    have hascending := h.ascending p.1 (List.of_mem_zip hp).1
    rw [childLabels, List.Nodup, List.pairwise_map]
    apply hascending.imp
    intro child child' hlt heq
    have hsame := List.singleton_injective (List.append_cancel_left heq)
    exact absurd hsame (ne_of_lt hlt)
  · have hlabels : ((t.arena.zip labels).map Prod.snd).Nodup := by
      rw [List.map_snd_zip (Nat.le_of_eq h.length)]
      exact h.nodup
    rw [List.Nodup, List.pairwise_map] at hlabels
    apply hlabels.imp
    intro p q hne label hp hq
    obtain ⟨child, _, rfl⟩ := List.mem_map.mp hp
    obtain ⟨child', _, heq⟩ := List.mem_map.mp hq
    exact hne (List.append_inj_left' heq rfl).symm

/-- The children's labels are those of the nodes but the root. -/
theorem Trie.Labeled.childLabels_subset (h : t.Labeled all labels m) :
    (t.arena.zip labels).flatMap childLabels ⊆ labels.tail := by
  intro label hlabel
  obtain ⟨p, hp, hin⟩ := List.mem_flatMap.mp hlabel
  obtain ⟨⟨c, j⟩, hchild, rfl⟩ := List.mem_map.mp hin
  obtain ⟨i, hi⟩ := List.mem_iff_getElem?.mp hp
  obtain ⟨hnode, hparent⟩ := List.getElem?_zip_eq_some.mp hi
  have hmem := List.mem_of_getElem? ((h.child i p.1 p.2 c j hnode hparent).mp hchild)
  have hroot := h.root
  cases hlabels : labels with
  | nil =>
    rw [hlabels] at hmem
    cases hmem
  | cons root rest =>
    rw [hlabels] at hmem hroot
    cases hroot
    rcases List.mem_cons.mp hmem with hnil | hmem
    · exact absurd hnil (List.append_ne_nil_of_right_ne_nil _ (List.cons_ne_nil c []))
    · exact hmem

/-- Every node but the root is the child of one node. -/
theorem Trie.Labeled.children_lt (h : t.Labeled all labels m) :
    (t.arena.map fun node => node.children.length).sum < t.arena.length := by
  have hcount : ((t.arena.zip labels).flatMap childLabels).length =
      (t.arena.map fun node => node.children.length).sum := by
    rw [List.length_flatMap, ← List.map_fst_zip (Nat.le_of_eq h.length.symm), List.map_map,
      List.map_fst_zip (Nat.le_of_eq h.length.symm)]
    congr 1
    exact List.map_congr_left fun p _ => List.length_map _
  have hle := (List.subperm_of_subset h.childLabels_nodup h.childLabels_subset).length_le
  have hpos := (List.getElem?_eq_some_iff.mp h.root).1
  rw [hcount, List.length_tail, h.length] at hle
  rw [h.length] at hpos
  omega

theorem sum_serializedSize (nodes : List TrieNode) : (nodes.map TrieNode.serializedSize).sum =
    9 * nodes.length + 5 * (nodes.map fun node => node.children.length).sum := by
  induction nodes with
  | nil => rfl
  | cons node nodes ih =>
    rw [List.map_cons, List.sum_cons, ih, List.map_cons, List.sum_cons, List.length_cons,
      TrieNode.serializedSize, trieNodeHeaderSize, sizePerChildNode]
    omega

/-- The index has at most 14 bytes for each prefix of a key. -/
theorem Trie.Maps.bytes_le (h : t.Maps all m) : t.bytes.length ≤ 14 * all.length + 4 := by
  rw [Trie.bytes_length, Trie.serializedSize, sum_serializedSize, trieHeaderSize]
  rcases h with ⟨hnil, _⟩ | ⟨labels, h⟩
  · rw [hnil]
    exact Nat.le_add_left 4 _
  · have hchildren := h.children_lt
    have hnodes := h.length_le
    omega

end

/-! ## The files -/

/-- A key's prefixes but the empty one, which all keys share. -/
theorem prefixes_length_le (es : Entries) :
    (prefixes es).length ≤ (es.map fun w => w.1.length).sum + 1 := by
  have hinits : ∀ key : Blob, key.inits = [] :: key.inits.tail := by
    intro key
    cases key with
    | nil => rfl
    | cons c key => rw [List.inits_cons, List.tail_cons]
  have hsub : prefixes es ⊆ [] :: es.flatMap fun w => w.1.inits.tail := by
    intro label hlabel
    obtain ⟨w, hw, hin⟩ := List.mem_flatMap.mp (List.mem_dedup.mp hlabel)
    rw [hinits] at hin
    rcases List.mem_cons.mp hin with rfl | hin
    · exact List.mem_cons_self
    · exact List.mem_cons_of_mem _ (List.mem_flatMap.mpr ⟨w, hw, hin⟩)
  have hle := (List.subperm_of_subset (List.nodup_dedup _) hsub).length_le
  have hcount : (es.flatMap fun w => w.1.inits.tail).length = (es.map fun w => w.1.length).sum := by
    rw [List.length_flatMap]
    congr 1
    apply List.map_congr_left
    intro w _
    rw [List.length_tail, List.length_inits, Nat.add_sub_cancel]
  rw [List.length_cons, hcount] at hle
  exact hle

theorem keys_le_logBlob (es : Entries) :
    (es.map fun w => w.1.length).sum + 3 * es.length ≤ (logBlob es).length := by
  induction es with
  | nil => exact Nat.le_refl 0
  | cons w es ih =>
    have hblob := Record.blob_length w.1 w.2
    have hbody := Record.body_length w.1 w.2
    have hlog := leb_length_pos (Record.body w.1 w.2).length
    have hkey := leb_length_pos w.1.length
    have hcons : (logBlob (w :: es)).length = (Record.of w.1 w.2).blob.length +
        (logBlob es).length := by
      rw [logBlob, List.flatMap_cons, List.length_append]
      rfl
    rw [Record.logWidth] at hblob
    rw [hcons, List.map_cons, List.sum_cons, List.length_cons]
    omega

/-- A file with a bloom filter for `size` keys. -/
theorem tableBytes_length_le {h : Hashing} {es : Entries} (hs : Sorted es) (hnum : Numbered es)
    {size : Nat} (hsize : size < 2 ^ 32) {st : Nat × Trie × BloomFilter}
    (hst : indexAll h (headerSize, Trie.new, BloomFilter.new h size) es = some st)
    {index bloom : Blob} (hindex : st.2.1.serialize = some index)
    (hbloom : st.2.2.serialize = some bloom) :
    (tableBytes es index bloom).length + 42 * es.length ≤ 15 * (logBlob es).length +
      2 * size + 85 := by
  obtain ⟨st', hst', hbuilt⟩ := built_all hs hnum size
  cases hst.symm.trans hst'
  obtain ⟨hindex', hbloom'⟩ := index_blocks hnum hbuilt hsize
  cases hindex.symm.trans hindex'
  cases hbloom.symm.trans hbloom'
  have hbits : st.2.2.bits.length = (size * 10 + 63 + 63) / 64 :=
    hbuilt.extends_new.length.trans (by simp [BloomFilter.new])
  have hleb := leb_length_le_ten (show st.2.2.bits.length < 2 ^ 64 by omega)
  have hbloomBytes := st.2.2.bytes_length
  have hindexBytes := hbuilt.maps.bytes_le
  have hprefixes := prefixes_length_le es
  have hrecords := keys_le_logBlob es
  have hlength : (tableBytes es st.2.1.bytes st.2.2.bytes).length =
      headerSize + (logBlob es).length + st.2.1.bytes.length +
          st.2.2.bytes.length + footerSize := by
    rw [tableBytes, List.length_append, header_length, List.length_append, List.length_append,
      List.length_append, encodeFooter_length]
    omega
  rw [hlength, headerSize, footerSize]
  omega

/-- The file of a flush. -/
theorem sstableContent_length_le {h : Hashing} {t : MemtableInner} {es : Entries}
    (ht : t.Holds es) (hnum : Numbered es) {content : Blob}
    (hcontent : Engine.sstableContent h t = some content) :
    content.length ≤ 15 * (logBlob es).length + 85 := by
  have hcount := length_le_prefixes ht.sorted
  have hnodes := hnum.nodes
  have hsize : es.length < 2 ^ 32 := by omega
  rw [Engine.sstableContent, writeSstable_run h ht] at hcontent
  simp only [Option.bind_eq_bind, Option.bind_eq_some_iff, Option.map_eq_some_iff] at hcontent
  obtain ⟨_, ⟨st, hst, index, hindex, bloom, hbloom, rfl⟩, heq⟩ := hcontent
  cases heq
  have hle := tableBytes_length_le ht.sorted hnum hsize hst hindex hbloom
  dsimp only
  omega

/-- The file of a compaction. -/
theorem runCompaction_length_le {h : Hashing} {tables read : List SSTable} {ess : List Entries}
    (hs : SSTableCache.Holds h tables ess) {iters : List SSTableIterator}
    (hiters : tablesToIterators tables = some (iters, read))
    (hnum : ∀ es, Compacted h ess iters es → Numbered es) {ts : Nat} {table : SSTable}
    {path : PathBuf} (hrun : runCompaction h iters ts [] = some (table, path)) :
    ∃ es, Compacted h ess iters es ∧ table.fd.content.length ≤ 15 * (logBlob es).length + 2133 := by
  obtain ⟨iters', read', es, hiters', hloop, hcompacted⟩ := compacted_loop hs
  cases hiters.symm.trans hiters'
  obtain ⟨st, index, bloom, hst, hindex, hbloom, hcontent⟩ := runCompaction_content hloop hrun
  have hle :=
    tableBytes_length_le hcompacted.sorted (hnum es hcompacted) (by decide) hst hindex hbloom
  refine ⟨es, hcompacted, ?_⟩
  rw [hcontent]
  omega

namespace Engine

/-- Each file has at most 15 bytes for each byte of the records that clients have called to write,
and 2133 more. -/
def FilesLinear (e : Engine) : Prop :=
  ∀ f ∈ e.files, f.content.length ≤ 15 * (logBlob (asEntries e.invoked)).length + 2133

section
variable {c : Config} {e e' : Engine} {a : Action}

theorem logBlob_invoked_le (hs : step c e a = some e') :
    (logBlob (asEntries e.invoked)).length ≤ (logBlob (asEntries e'.invoked)).length := by
  have hgrows := invoked_prefix hs
  exact logBlob_length_le (hgrows.sublist.map _).subperm

/-- What a flush writes. -/
theorem flush_length_le (hl : Layered c.hashing Sound e) (hk : Known e) (hfits : e.FitsFormat)
    {i : Nat} {t : Table} (ht : e.tables[i]? = some t) {content : Blob}
    (hcontent : sstableContent c.hashing t.inner = some content) :
    content.length ≤ 15 * (logBlob (asEntries e.invoked)).length + 2133 := by
  have hholds := (hl.took t (List.mem_of_getElem? ht)).holds
  have hrep := hfits.table hk i
  rw [writesOf_eq ht] at hrep
  have hle := sstableContent_length_le hholds hrep.numbered hcontent
  have hrecords := logBlob_length_le (sorted_subperm (sorted_ofWrites t.writes) fun w hw =>
    hk.writesOf (i := i) w (by rw [writesOf_eq ht]; exact mem_ofWrites hw))
  omega

/-- What a compaction writes. -/
theorem compaction_length_le (hl : Layered c.hashing Sound e) (hk : Known e)
    (hfits : e.FitsFormat) {iters : List SSTableIterator} {read : List SSTable}
    (hiters : tablesToIterators e.sstableCache.cache = some (iters, read)) {ts : Nat}
    {table : SSTable} {path : PathBuf}
    (hrun : runCompaction c.hashing iters ts [] = some (table, path)) :
    table.fd.content.length ≤ 15 * (logBlob (asEntries e.invoked)).length + 2133 := by
  obtain ⟨ess, hess, hsound⟩ := hl.cache.tables
  obtain ⟨es, hcompacted, hle⟩ := runCompaction_length_le hess hiters
    (fun es hcompacted => (hfits.merged hk hsound hcompacted).numbered) hrun
  have hrecords := logBlob_length_le (sorted_subperm hcompacted.sorted fun w hw => by
    obtain ⟨_, es', hes', hw⟩ := hcompacted.data w hw
    exact hk.flushed w (hsound es' hes' w hw))
  omega

theorem content_putFile {files : List SstFile} {ts : Nat} {content : Blob} {f : SstFile}
    (hf : f ∈ putFile files ts content) :
    f ∈ files ∨ f.content = content := by
  obtain ⟨f', hf', rfl⟩ := List.mem_map.mp hf
  split
  · exact Or.inr rfl
  · exact Or.inl hf'

theorem files_linear_step (h : FilesLinear e) (hl : Layered c.hashing Sound e) (hk : Known e)
    (hfits : e.FitsFormat) (hs : step c e a = some e') : FilesLinear e' := by
  have hgrows := logBlob_invoked_le hs
  have hkept : ∀ f ∈ e.files,
      f.content.length ≤ 15 * (logBlob (asEntries e'.invoked)).length + 2133 := by
    intro f hf
    have hle := h f hf
    omega
  cases step_cases hs with
  | spawn | drop => exact hkept
  | client hc =>
    intro f hf
    rw [hc.tasks_same.files] at hf
    exact hkept f hf
  | background hb =>
    intro f hf
    cases hb with
    | createFile hflusher hts =>
      rcases List.mem_append.mp hf with hf | hf
      · exact hkept f hf
      · rw [List.mem_singleton.mp hf]
        exact Nat.zero_le _
    | writePart hflusher ht hcontent =>
      rcases content_putFile hf with hf | hf
      · exact hkept f hf
      · rw [hf]
        exact (List.length_take_le' _ _).trans (flush_length_le hl hk hfits ht hcontent)
    | finishFile hflusher ht hcontent =>
      rcases content_putFile hf with hf | hf
      · exact hkept f hf
      · rw [hf]
        exact flush_length_le hl hk hfits ht hcontent
    | compact hcompactor hts hiters hrun =>
      rcases List.mem_append.mp hf with hf | hf
      · exact hkept f hf
      · rw [List.mem_singleton.mp hf]
        exact compaction_length_le hl hk hfits hiters hrun
    | removeStale => exact hkept f (List.mem_filter.mp hf).1
    | _ => exact hkept f hf

/-- The directory's tables, finished or not, are linear in the records that clients have called to
write. -/
theorem directory_linear {ok : Engine → Action → Prop} (h : Reaches c ok e) (hfits : e.FitsFormat) :
    e.FilesLinear ∧ (e.files.map fun f => f.content.length).sum ≤
      (max c.compactionRate 2 + 1) * (15 * (logBlob (asEntries e.invoked)).length + 2133) := by
  have hlinear : e.FilesLinear := by
    induction h with
    | start stamp => exact nofun
    | next h _ hs ih =>
      have hbefore := hfits.before hs
      exact files_linear_step (ih hbefore) (h.within hbefore).sound h.known hbefore hs
  refine ⟨hlinear, ?_⟩
  have hfiles := (tables_bounded h).2
  have heach : ∀ n ∈ e.files.map fun f => f.content.length,
      n ≤ 15 * (logBlob (asEntries e.invoked)).length + 2133 :=
    List.forall_mem_map.mpr hlinear
  have hsum := List.sum_le_card_nsmul _ _ heach
  rw [List.length_map, Nat.nsmul_eq_mul] at hsum
  exact hsum.trans (Nat.mul_le_mul_right _ hfiles)

end

theorem directory_linear_overwritten :
    ∃ e, Reaches pairConfig (fun _ _ => True) e ∧
    e.files.map (fun f => f.content.length) = [111] ∧ e.FilesLinear ∧
    (e.files.map fun f => f.content.length).sum ≤ (max pairConfig.compactionRate 2 + 1) *
      (15 * (logBlob (asEntries e.invoked)).length + 2133) := by
  obtain ⟨e, hreach, hfits, _, _, hfiles⟩ := overwritten_reached
  exact ⟨e, hreach, hfiles, directory_linear hreach hfits⟩

end Engine

end Lsmlite
