import Lsmlite.MemtableTree
import Lsmlite.WalLog

/-!
# The memtable as a sorted map

`Holds`: the arena is a red-black tree over all its nodes, whose records in order are the sorted
list of the keys and their entries. An insertion that returns is an insertion into that list, and
`get` reads the value range of the record stored for the key.
-/

namespace Lsmlite
open RedBlack

/-- How a memtable answers with an entry, or without one. -/
def queryOf : Option Entry → MemtableQuery
  | some (.data value) => .data value
  | some .tombstone => .tombstone
  | none => .none

namespace MemtableInner

/-- The arena is `tree` over all its nodes; the record of node `i` is that of `slot i`. -/
structure TreeOf (t : MemtableInner) (tree : RbTree) (slot : Nat → Blob × Entry) : Prop where
  held : t.Held [] tree
  black : tree.color = .black
  perm : tree.inorder.Perm (List.range t.arena.length)
  canonical : ∀ i (n : MemtableNode), t.arena[i]? = some n →
    n.record.Canonical (slot i).1 (slot i).2

/-- The table holds `es`. -/
structure Holds (t : MemtableInner) (es : Entries) : Prop where
  shape : ∃ tree slot, t.TreeOf tree slot ∧ es = tree.inorder.map slot
  sorted : KeyValue.Sorted es
  fits : ∀ w ∈ es, Record.Fits w.1 w.2

theorem holds_new (maxSize maxNodes : Nat) (wal : Wal) : (new maxSize maxNodes wal).Holds [] where
  shape := by
    refine ⟨.nil, fun _ => ([], .tombstone), ⟨⟨trivial, trivial, rfl, List.nodup_nil⟩, rfl,
      List.Perm.nil, fun i n hn => ?_⟩, rfl⟩
    simp [new] at hn
  sorted := List.Pairwise.nil
  fits _ h := by cases h

theorem Holds.length {t : MemtableInner} {es : Entries} (h : t.Holds es) :
    es.length = t.arena.length := by
  obtain ⟨tree, slot, htree, rfl⟩ := h.shape
  rw [List.length_map, htree.perm.length_eq, List.length_range]

/-! ## Search -/

theorem getSearch_locate {arena : Arena} {slot : Nat → Blob × Entry} (key : Blob) (fs : List Frame)
    (hcanon : ∀ i (n : MemtableNode), arena[i]? = some n → n.record.Canonical (slot i).1 (slot i).2)
    {p : Option Nat} {tree : RbTree} {i fuel : Nat} (hl : Linked arena p tree)
    (hi : tree.root = some i) (hfuel : tree.inorder.length ≤ fuel) :
    getSearch arena key fuel i = some (locate (fun j => (slot j).1) key fs tree).2.root := by
  induction tree generalizing p fs i fuel with
  | nil => cases hi
  | node c l j r ihl ihr =>
    cases hi
    obtain ⟨⟨n, hn, _, hnl, hnr, _⟩, hl, hr⟩ := hl
    simp only [RbTree.inorder_node, List.length_append, List.length_cons] at hfuel
    obtain ⟨fuel, rfl⟩ : ∃ k, fuel = k + 1 := ⟨fuel - 1, by omega⟩
    have hkey := (hcanon j n hn).keySlice
    simp only [getSearch, hn, hkey, Option.bind_eq_bind, Option.bind_some, Option.pure_def]
    rw [locate]
    split
    · rfl
    · split
      · cases hroot : l.root with
        | some k =>
          rw [hnl, hroot]
          exact ihl _ hl hroot (by omega)
        | none =>
          rw [hnl, hroot]
          cases l with
          | nil => rfl
          | node => cases hroot
      · cases hroot : r.root with
        | some k =>
          rw [hnr, hroot]
          exact ihr _ hr hroot (by omega)
        | none =>
          rw [hnr, hroot]
          cases r with
          | nil => rfl
          | node => cases hroot

/-- The child that hangs in a frame's hole. -/
def holeChild : Frame → Child
  | .left _ _ _ => .left
  | .right _ _ _ => .right

theorem findInsertPosition_locate {arena : Arena} {keyAt : Nat → Blob} (key : Blob)
    (fs : List Frame)
    (hkeys : ∀ i (n : MemtableNode), arena[i]? = some n → n.record.keySlice = some (keyAt i))
    {p : Option Nat} {tree : RbTree} {i fuel : Nat} (hl : Linked arena p tree)
    (hi : tree.root = some i) (hfuel : tree.inorder.length ≤ fuel) :
    (∃ j, (locate keyAt key fs tree).2.root = some j ∧
      findInsertPosition arena key fuel i = some (.existingNode j)) ∨
    ∃ f fs', locate keyAt key fs tree = (f :: fs', .nil) ∧
      findInsertPosition arena key fuel i = some (.newNode f.idx (holeChild f)) := by
  induction tree generalizing p fs i fuel with
  | nil => cases hi
  | node c l j r ihl ihr =>
    cases hi
    obtain ⟨⟨n, hn, _, hnl, hnr, _⟩, hl, hr⟩ := hl
    simp only [RbTree.inorder_node, List.length_append, List.length_cons] at hfuel
    obtain ⟨fuel, rfl⟩ : ∃ k, fuel = k + 1 := ⟨fuel - 1, by omega⟩
    have hkey := hkeys j n hn
    simp only [findInsertPosition, hn, hkey, Option.bind_eq_bind, Option.bind_some, Option.pure_def]
    rw [locate]
    split
    · exact Or.inl ⟨j, rfl, rfl⟩
    · split
      · cases hroot : l.root with
        | some k =>
          rw [hnl, hroot]
          exact ihl _ hl hroot (by omega)
        | none =>
          rw [hnl, hroot]
          cases l with
          | nil => exact Or.inr ⟨.left c j r, fs, rfl, rfl⟩
          | node => cases hroot
      · cases hroot : r.root with
        | some k =>
          rw [hnr, hroot]
          exact ihr _ hr hroot (by omega)
        | none =>
          rw [hnr, hroot]
          cases r with
          | nil => exact Or.inr ⟨.right c j l, fs, rfl, rfl⟩
          | node => cases hroot

/-- Where the search for `key` ends: at its node, or between smaller and greater keys. -/
theorem locate_spec {tree : RbTree} {slot : Nat → Blob × Entry}
    (hs : KeyValue.Sorted (tree.inorder.map slot)) (key : Blob) :
    plug (locate (fun j => (slot j).1) key [] tree).1 (locate (fun j => (slot j).1) key [] tree).2 =
      tree ∧
    (∀ i ∈ before (locate (fun j => (slot j).1) key [] tree).1, (slot i).1 < key) ∧
    ∀ i ∈ after (locate (fun j => (slot j).1) key [] tree).1, key < (slot i).1 := by
  refine ⟨plug_locate _ _ _ _, locate_between _ _ [] ?_ (by simp [before]) (by simp [after])⟩
  rw [plug_nil]
  unfold KeyValue.Sorted at hs
  rwa [List.pairwise_map] at hs ⊢

/-- A key between those before a hole and those behind it is not in the tree. -/
theorem last_of_between {fs : List Frame} {slot : Nat → Blob × Entry} {key : Blob}
    (hbefore : ∀ i ∈ before fs, (slot i).1 < key) (hafter : ∀ i ∈ after fs, key < (slot i).1) :
    KeyValue.last key ((plug fs .nil).inorder.map slot) = none := by
  rw [KeyValue.last_eq_none_iff]
  intro w hw
  rw [RedBlack.inorder_plug] at hw
  simp only [RbTree.inorder_nil, List.append_nil, List.map_append, List.mem_append,
    List.mem_map] at hw
  rcases hw with ⟨j, hj, rfl⟩ | ⟨j, hj, rfl⟩
  · exact ne_of_lt (hbefore j hj)
  · exact ne_of_gt (hafter j hj)

/-- `get` finds the record stored for the key and reads its value range. -/
theorem Holds.get_cases {t : MemtableInner} {es : Entries} (h : t.Holds es) (key : Blob) :
    (KeyValue.last key es = none ∧ t.get key = some .none) ∨
    ∃ e n, KeyValue.last key es = some e ∧ n ∈ t.arena ∧ n.record.Canonical key e ∧
      t.get key = n.record.valueSlice.map fun
        | some value => .data value
        | none => .tombstone := by
  obtain ⟨⟨tree, slot, htree, rfl⟩, hsorted, _⟩ := h
  have hroot : t.rootNode = tree.root := htree.held.root
  cases tree with
  | nil => exact Or.inl ⟨rfl, by simp [MemtableInner.get, getWithin, hroot]⟩
  | node c l i r =>
    obtain ⟨hplug, hbefore, hafter⟩ := locate_spec hsorted key
    have hsearch := getSearch_locate key [] htree.canonical htree.held.linked rfl
      (show _ ≤ t.arena.length + 1 by rw [htree.perm.length_eq, List.length_range]; omega)
    simp only [MemtableInner.get, getWithin, hroot, RbTree.root_node, hsearch, Option.bind_eq_bind,
      Option.bind_some, Option.pure_def]
    cases hloc : (locate (fun j => (slot j).1) key [] (.node c l i r)).2 with
    | nil =>
      refine Or.inl ⟨?_, rfl⟩
      rw [hloc] at hplug
      rw [← hplug]
      exact last_of_between hbefore hafter
    | node c' l' j r' =>
      have hkey : (slot j).1 = key :=
        locate_found (fun j => (slot j).1) key [] (.node c l i r) j (by rw [hloc]; rfl)
      have hj : j ∈ (RbTree.node c l i r).inorder := by
        rw [← hplug, hloc, RedBlack.inorder_plug]
        simp
      have hlt : j < t.arena.length := List.mem_range.mp (htree.perm.mem_iff.mp hj)
      have hget : t.arena[j]? = some t.arena[j] := List.getElem?_eq_getElem hlt
      refine Or.inr ⟨(slot j).2, t.arena[j], ?_, List.getElem_mem hlt, ?_, ?_⟩
      · refine KeyValue.last_of_mem hsorted (List.mem_map.mpr ⟨j, hj, ?_⟩)
        rw [← hkey]
      · rw [← hkey]
        exact htree.canonical j _ hget
      · simp only [RbTree.root_node, hget, Option.bind_some]
        cases t.arena[j].record.valueSlice with
        | none => rfl
        | some v => cases v <;> rfl

/-! ## Insertion -/

/-- A node hung into the hole of a path, red and without children. -/
theorem hang_held {t : MemtableInner} {f : Frame} {fs : List Frame} (h : t.Held (f :: fs) .nil)
    (hlt : ∀ j ∈ pathNodes (f :: fs), j < t.arena.length) (record : Record) (size : Nat) :
    ∃ arena', t.arena.modify f.idx (.linkChild (holeChild f) t.arena.length) = some arena' ∧
      arena'.map (·.record) = t.arena.map (·.record) ∧
      ({ t with
        arena := arena' ++ [{ MemtableNode.newFromRecord record with parent := some f.idx }]
        currentSize := size } :
          MemtableInner).Held (f :: fs) (.node .red .nil t.arena.length .nil) := by
  obtain ⟨⟨⟨m, hm, hmc, hml, hmr, hmp⟩, hsib, hrest⟩, _, hroot, hnd⟩ := h
  have hpath := (nodup_plug.mp hnd).2.1
  obtain ⟨hfs, hfp, _, _, _⟩ := nodup_pathNodes_cons hpath
  obtain ⟨arena', hmod, hi, hs⟩ := modify_sameOff
    (MemtableNode.linkChild (holeChild f) t.arena.length) hm (by cases f <;> rfl)
  have hlen : arena'.length = t.arena.length := by
    have := congrArg List.length hs.records
    simpa using this
  have hsame : ∀ j ∈ pathNodes (f :: fs), j ≠ f.idx → ∀ x, (arena' ++ [x])[j]? = t.arena[j]? := by
    intro j hj hne x
    rw [List.getElem?_append_left (by rw [hlen]; exact hlt j hj), hs.nodes j (by simpa using hne)]
  have hhook : ∀ x, (arena' ++ [x])[f.idx]? = some _ := fun x =>
    (List.getElem?_append_left
      (by rw [hlen]; exact hlt _ (mem_pathNodes_cons.mpr (Or.inl rfl)))).trans hi
  have hnew : ∀ x, (arena' ++ [x])[t.arena.length]? = some x := fun x => by
    rw [← hlen, List.getElem?_concat_length]
  refine ⟨arena', hmod, hs.records, ⟨⟨⟨_, hhook _, ?_⟩, ?_, ?_⟩,
    ⟨⟨_, hnew _, rfl, rfl, rfl, rfl⟩, trivial, trivial⟩, hroot, ?_⟩⟩
  · cases f with
    | left c i s => exact ⟨hmc, rfl, hmr, hmp⟩
    | right c i s => exact ⟨hmc, hml, rfl, hmp⟩
  · exact hsib.congr fun j hj =>
      hsame j (mem_pathNodes_cons.mpr (Or.inr (Or.inl hj))) (fun he => hfs (he ▸ hj)) _
  · exact hrest.congr fun j hj =>
      hsame j (mem_pathNodes_cons.mpr (Or.inr (Or.inr hj))) (fun he => hfp (he ▸ hj)) _
  · rw [nodup_plug]
    refine ⟨by simp, hpath, fun j hj hj' => ?_⟩
    simp only [RbTree.inorder_node, RbTree.inorder_nil, List.nil_append, List.mem_singleton] at hj
    exact absurd (hlt j hj') (by omega)

theorem length_le_pathNodes (fs : List Frame) : fs.length ≤ (pathNodes fs).length := by
  induction fs with
  | nil => exact Nat.le_refl _
  | cons f fs ih =>
    rw [(pathNodes_cons_perm f fs).length_eq]
    simp only [List.length_cons, List.length_append]
    omega

/-- The tree after the fix-up of node `i`, hung into the hole of the path `fs`. -/
def hung (fs : List Frame) (i : Nat) : RbTree := (fix fs (.node .red .nil i .nil)).blacken

theorem inorder_hung (fs : List Frame) (i : Nat) :
    (hung fs i).inorder = before fs ++ i :: after fs := by
  rw [hung, RbTree.inorder_withColor, inorder_fix, RedBlack.inorder_plug]
  simp

/-- A node with `record` has been hung into the hole of the path `fs`. -/
structure Hung (t : MemtableInner) (fs : List Frame) (record : Record) (size : Nat)
    (t' : MemtableInner) : Prop where
  held : t'.Held [] (hung fs t.arena.length)
  perm : (hung fs t.arena.length).inorder.Perm (List.range t'.arena.length)
  records : t'.arena.map (·.record) = t.arena.map (·.record) ++ [record]
  capacity : t'.capacity = t.capacity
  maxSize : t'.maxSize = t.maxSize
  currentSize : t'.currentSize = size
  wal : t'.wal = t.wal

/-- The insertion below a node ends, with the fix-up done. -/
theorem insert_hung {t : MemtableInner} {f : Frame} {fs : List Frame}
    (h : t.Held [] (plug (f :: fs) .nil)) (hblack : (plug (f :: fs) .nil).color = .black)
    (hperm : (plug (f :: fs) .nil).inorder.Perm (List.range t.arena.length)) (record : Record)
    (size : Nat) :
    ∃ arena' t', t.arena.modify f.idx (.linkChild (holeChild f) t.arena.length) = some arena' ∧
      insertFixTree (t.arena.length + 2)
        { t with
          arena := arena' ++ [{ MemtableNode.newFromRecord record with parent := some f.idx }]
          currentSize := size } t.arena.length = some t' ∧
      Hung t (f :: fs) record size t' := by
  have hp := hperm
  rw [RedBlack.inorder_plug, RbTree.inorder_nil, List.append_nil] at hp
  have hlt : ∀ j ∈ pathNodes (f :: fs), j < t.arena.length := fun j hj =>
    List.mem_range.mp (hp.mem_iff.mp hj)
  obtain ⟨arena', hmod, hrec, hheld⟩ := hang_held (held_plug.mpr h) hlt record size
  have hdepth := length_le_pathNodes (f :: fs)
  rw [show (pathNodes (f :: fs)).length = t.arena.length by
    rw [pathNodes, hp.length_eq, List.length_range]] at hdepth
  obtain ⟨t', hfix, hheld', hrel⟩ := insertFixTree_held hheld
    (show _ < t.arena.length + 2 by omega) fun _ => (color_plug_cons f fs _ .nil).trans hblack
  have hrecords : t'.arena.map (·.record) = t.arena.map (·.record) ++ [record] := by
    rw [hrel.records]
    simp [hrec, MemtableNode.newFromRecord]
  have hlength' : t'.arena.length = t.arena.length + 1 := by
    simpa using congrArg List.length hrecords
  refine ⟨arena', t', hmod, hfix, hheld', ?_, hrecords, hrel.capacity, hrel.maxSize,
    hrel.currentSize, hrel.wal⟩
  rw [inorder_hung, hlength', List.range_succ]
  refine List.perm_middle.trans ?_
  exact (hp.cons _).trans (List.perm_append_singleton _ _).symm

/-- Subtrees are kept where colours and links are. -/
theorem linked_of_links {arena arena' : Arena}
    (h : ∀ (j : Nat) (n : MemtableNode), arena[j]? = some n → ∃ n' : MemtableNode,
      arena'[j]? = some n' ∧ n'.color = n.color ∧ n'.left = n.left ∧ n'.right = n.right ∧
      n'.parent = n.parent)
    {p : Option Nat} {tree : RbTree} (hl : Linked arena p tree) : Linked arena' p tree := by
  induction tree generalizing p with
  | nil => trivial
  | node c l i r ihl ihr =>
    obtain ⟨⟨n, hn, hc, hnl, hnr, hp⟩, hl, hr⟩ := hl
    obtain ⟨n', hn', hc', hl', hr', hp'⟩ := h i n hn
    exact ⟨⟨n', hn', hc'.trans hc, hl'.trans hnl, hr'.trans hnr, hp'.trans hp⟩, ihl hl, ihr hr⟩

/-- The write does not panic on what the table holds for its key. -/
def Writable (es : Entries) (key : Blob) (e : Entry) : Prop :=
  ∀ old value, KeyValue.last key es = some old → e = .data value → Record.Reachable key old value

/-- What an insertion of `e` under `key` makes of a table with `es`. -/
structure Inserted (t : MemtableInner) (es : Entries) (key : Blob) (e : Entry)
    (t' : MemtableInner) : Prop where
  holds : t'.Holds (KeyValue.insert key e es)
  capacity : t'.capacity = t.capacity
  maxSize : t'.maxSize = t.maxSize
  wal : t'.wal = t.wal
  /-- A record is an old one or that of `key`, in step if the key is new. -/
  records : ∀ n ∈ t'.arena, (∃ m ∈ t.arena, n.record = m.record) ∨
    n.record.Canonical key e ∧ (KeyValue.last key es = none → n.record = Record.of key e)

theorem fits_insert {es : Entries} {key : Blob} {e : Entry} (h : ∀ w ∈ es, Record.Fits w.1 w.2)
    (hf : Record.Fits key e) : ∀ w ∈ KeyValue.insert key e es, Record.Fits w.1 w.2 := by
  intro w hw
  rcases KeyValue.mem_insert hw with rfl | hw
  · exact hf
  · exact h w hw

/-- The first insertion. -/
theorem setRoot_inserted {t : MemtableInner} {es : Entries} {key : Blob} {e : Entry}
    (h : t.Holds es) (hroot : t.rootNode = none) (hf : Record.Fits key e) :
    Inserted t es key e (t.setRoot (.newFromRecord (Record.of key e)) t.arena.length) := by
  obtain ⟨⟨tree, slot, htree, rfl⟩, _, _⟩ := h
  have hnil : tree = .nil := by
    have hr : t.rootNode = tree.root := htree.held.root
    rw [hroot] at hr
    cases tree with
    | nil => rfl
    | node => cases hr
  subst hnil
  have hlen : t.arena.length = 0 := by
    have := htree.perm.length_eq
    simpa using this.symm
  have harena : t.arena = [] := List.length_eq_zero_iff.mp hlen
  refine ⟨⟨⟨.node .black .nil 0 .nil, fun _ => (key, e), ⟨⟨trivial, ?_, ?_, ?_⟩, rfl, ?_, ?_⟩, rfl⟩,
    List.pairwise_singleton _ _, fits_insert (by simp) hf⟩, rfl, rfl, rfl, ?_⟩
  · exact ⟨⟨{ MemtableNode.newFromRecord (Record.of key e) with color := .black },
      by simp [setRoot, harena], rfl, rfl, rfl, rfl⟩, trivial, trivial⟩
  · simp [setRoot, hlen, rootOf]
  · simp
  · simp [setRoot, harena, List.range_succ]
  · intro i n hn
    simp only [setRoot, harena, List.nil_append, List.getElem?_singleton] at hn
    split at hn
    · cases hn
      exact Record.canonical_of key e
    · cases hn
  · intro n hn
    simp only [setRoot, harena, List.nil_append, List.mem_singleton] at hn
    subst hn
    exact Or.inr ⟨Record.canonical_of key e, fun _ => rfl⟩

/-- The insertion of a key that the table does not have, below the node the search ends at. -/
theorem newNode_inserted {t : MemtableInner} {tree : RbTree} {slot : Nat → Blob × Entry}
    {key : Blob} {e : Entry} {f : Frame} {fs : List Frame} (htree : t.TreeOf tree slot)
    (hsorted : KeyValue.Sorted (tree.inorder.map slot))
    (hfits : ∀ w ∈ tree.inorder.map slot, Record.Fits w.1 w.2) (hf : Record.Fits key e)
    (hplug : plug (f :: fs) .nil = tree) (hbefore : ∀ i ∈ before (f :: fs), (slot i).1 < key)
    (hafter : ∀ i ∈ after (f :: fs), key < (slot i).1) {t' : MemtableInner} {size : Nat}
    (hhung : Hung t (f :: fs) (Record.of key e) size t') :
    Inserted t (tree.inorder.map slot) key e t' := by
  subst hplug
  have hperm := htree.perm
  rw [RedBlack.inorder_plug, RbTree.inorder_nil, List.append_nil] at hperm
  have hlt : ∀ j ∈ pathNodes (f :: fs), j < t.arena.length := fun j hj =>
    List.mem_range.mp (hperm.mem_iff.mp hj)
  have hrecords := hhung.records
  have hslot : ∀ i, i < t.arena.length →
      Function.update slot t.arena.length (key, e) i = slot i := fun i hi =>
    Function.update_of_ne (Nat.ne_of_lt hi) _ _
  have hb : (before (f :: fs)).map (Function.update slot t.arena.length (key, e)) =
      (before (f :: fs)).map slot :=
    List.map_congr_left fun i hi => hslot i (hlt i (List.mem_append_left _ hi))
  have ha : (after (f :: fs)).map (Function.update slot t.arena.length (key, e)) =
      (after (f :: fs)).map slot :=
    List.map_congr_left fun i hi => hslot i (hlt i (List.mem_append_right _ hi))
  have hes : (plug (f :: fs) .nil).inorder.map slot =
      (before (f :: fs)).map slot ++ (after (f :: fs)).map slot := by
    rw [RedBlack.inorder_plug]
    simp
  have hlen' : t'.arena.length = t.arena.length + 1 := by
    simpa using congrArg List.length hrecords
  refine ⟨⟨⟨_, Function.update slot t.arena.length (key, e),
    ⟨hhung.held, RbTree.color_blacken _, hhung.perm, ?_⟩, ?_⟩, KeyValue.sorted_insert hsorted key e,
    fits_insert hfits hf⟩, hhung.capacity, hhung.maxSize, hhung.wal, ?_⟩
  · intro i n hn
    have hr : (t.arena.map (·.record) ++ [Record.of key e])[i]? = some n.record := by
      rw [← hrecords, List.getElem?_map, hn]
      rfl
    by_cases hi : i < t.arena.length
    · rw [List.getElem?_append_left (by simpa using hi), List.getElem?_map] at hr
      rw [Option.map_eq_some_iff] at hr
      obtain ⟨m, hm, hmr⟩ := hr
      rw [hslot i hi, ← hmr]
      exact htree.canonical i m hm
    · have hi' : i = t.arena.length := by
        have := (List.getElem?_eq_some_iff.mp hn).1
        omega
      subst hi'
      rw [List.getElem?_append_right (by simp)] at hr
      simp only [List.length_map, Nat.sub_self, List.getElem?_cons_zero, Option.some.injEq] at hr
      rw [Function.update_self, ← hr]
      exact Record.canonical_of key e
  · rw [inorder_hung, List.map_append, List.map_cons, hb, ha, hes, KeyValue.insert_between e]
    · simp
    · simpa using hbefore
    · simpa using hafter
  · intro n hn
    have hr : n.record ∈ t.arena.map (·.record) ++ [Record.of key e] := by
      rw [← hrecords]
      exact List.mem_map_of_mem hn
    rcases List.mem_append.mp hr with hr | hr
    · obtain ⟨m, hm, hmr⟩ := List.mem_map.mp hr
      exact Or.inl ⟨m, hm, hmr.symm⟩
    · rw [List.mem_singleton.mp hr]
      exact Or.inr ⟨Record.canonical_of key e, fun _ => rfl⟩

/-- The update of the node that has the key. -/
theorem existingNode_inserted {t : MemtableInner} {tree : RbTree} {slot : Nat → Blob × Entry}
    {e : Entry} {j : Nat} {n : MemtableNode} {r : Record} (htree : t.TreeOf tree slot)
    (hsorted : KeyValue.Sorted (tree.inorder.map slot))
    (hfits : ∀ w ∈ tree.inorder.map slot, Record.Fits w.1 w.2) (hf : Record.Fits (slot j).1 e)
    (hj : j ∈ tree.inorder) (hn : t.arena[j]? = some n)
    (hr : n.record.updateFromRecord (Record.of (slot j).1 e) = some r) :
    Inserted t (tree.inorder.map slot) (slot j).1 e
      { t with arena := t.arena.set j { n with record := r } } := by
  have hcanon := htree.canonical j n hn
  have hlt := (List.getElem?_eq_some_iff.mp hn).1
  have hfits' : Record.Fits (slot j).1 (slot j).2 := hfits _ (List.mem_map_of_mem hj)
  have hlast : KeyValue.last (slot j).1 (tree.inorder.map slot) = some (slot j).2 :=
    KeyValue.last_of_mem hsorted (List.mem_map.mpr ⟨j, hj, rfl⟩)
  obtain ⟨xs, ys, hxy⟩ := List.append_of_mem hj
  have hnd := nodup_plug.mp htree.held.nodup
  have hnd' : tree.inorder.Nodup := hnd.1
  rw [hxy, List.nodup_append, List.nodup_cons] at hnd'
  have hslot : ∀ i, i ≠ j → Function.update slot j ((slot j).1, e) i = slot i := fun i hi =>
    Function.update_of_ne hi _ _
  have hx : xs.map (Function.update slot j ((slot j).1, e)) = xs.map slot :=
    List.map_congr_left fun i hi => hslot i (hnd'.2.2 i hi j (List.mem_cons_self ..))
  have hy : ys.map (Function.update slot j ((slot j).1, e)) = ys.map slot :=
    List.map_congr_left fun i hi => hslot i fun he => hnd'.2.1.1 (he ▸ hi)
  have hlinks : ∀ (i : Nat) (m : MemtableNode), t.arena[i]? = some m → ∃ m' : MemtableNode,
      (t.arena.set j { n with record := r })[i]? = some m' ∧ m'.color = m.color ∧
      m'.left = m.left ∧ m'.right = m.right ∧ m'.parent = m.parent := by
    intro i m hm
    rw [List.getElem?_set]
    split
    · rename_i hij
      subst hij
      cases hn.symm.trans hm
      exact ⟨_, rfl, rfl, rfl, rfl, rfl⟩
    · exact ⟨m, hm, rfl, rfl, rfl, rfl⟩
  refine ⟨⟨⟨tree, Function.update slot j ((slot j).1, e),
    ⟨⟨trivial, linked_of_links hlinks htree.held.linked, htree.held.root, htree.held.nodup⟩,
      htree.black, ?_, ?_⟩, ?_⟩, KeyValue.sorted_insert hsorted _ e, fits_insert hfits hf⟩,
    rfl, rfl, rfl, ?_⟩
  · simpa using htree.perm
  · intro i m hm
    simp only [List.getElem?_set] at hm
    split at hm
    · rename_i hij
      subst hij
      cases hm
      rw [Function.update_self]
      exact hcanon.update hfits' hf hr
    · rename_i hij
      rw [hslot i fun he => hij he.symm]
      exact htree.canonical i m hm
  · rw [hxy, List.map_append, List.map_append, List.map_cons, List.map_cons, hx, hy,
      Function.update_self]
    refine KeyValue.insert_at e (slot j).2 ?_
    rw [hxy, List.map_append, List.map_cons] at hsorted
    obtain ⟨_, _, hlt'⟩ := List.pairwise_append.mp hsorted
    exact fun w hw => hlt' w hw _ (List.mem_cons_self ..)
  · intro m hm
    rcases List.mem_or_eq_of_mem_set hm with hm | rfl
    · exact Or.inl ⟨m, hm, rfl⟩
    · refine Or.inr ⟨hcanon.update hfits' hf hr, fun hnone => ?_⟩
      rw [hlast] at hnone
      cases hnone

/-- Where the search of `insert_node` ends in a table that is not empty. -/
theorem Holds.position {t : MemtableInner} {es : Entries} (h : t.Holds es) (key : Blob) {root : Nat}
    (hroot : t.rootNode = some root) :
    ∃ tree slot, t.TreeOf tree slot ∧ es = tree.inorder.map slot ∧
      ((∃ j n, j ∈ tree.inorder ∧ t.arena[j]? = some n ∧ (slot j).1 = key ∧
        findInsertPosition t.arena key (t.arena.length + 1) root = some (.existingNode j)) ∨
      ∃ f fs, plug (f :: fs) .nil = tree ∧ (∀ i ∈ before (f :: fs), (slot i).1 < key) ∧
        (∀ i ∈ after (f :: fs), key < (slot i).1) ∧
        findInsertPosition t.arena key (t.arena.length + 1) root =
          some (.newNode f.idx (holeChild f))) := by
  obtain ⟨⟨tree, slot, htree, rfl⟩, hsorted, _⟩ := h
  refine ⟨tree, slot, htree, rfl, ?_⟩
  have hr : tree.root = some root := htree.held.root.symm.trans hroot
  obtain ⟨hplug, hbefore, hafter⟩ := locate_spec hsorted key
  have hpos := findInsertPosition_locate key [] (fun i n hn => (htree.canonical i n hn).keySlice)
    htree.held.linked hr
    (show _ ≤ t.arena.length + 1 by rw [htree.perm.length_eq, List.length_range]; omega)
  rcases hpos with ⟨j, hj, hfind⟩ | ⟨f, fs, hloc, hfind⟩
  · have hkey := locate_found (fun j => (slot j).1) key [] tree j hj
    have hmem : j ∈ tree.inorder := by
      rw [← hplug, RedBlack.inorder_plug]
      simp [RbTree.mem_of_root hj]
    have hlt : j < t.arena.length := List.mem_range.mp (htree.perm.mem_iff.mp hmem)
    exact Or.inl ⟨j, t.arena[j], hmem, List.getElem?_eq_getElem hlt, hkey, hfind⟩
  · rw [hloc] at hplug hbefore hafter
    exact Or.inr ⟨f, fs, hplug, hbefore, hafter, hfind⟩

/-- An insertion whose search ends at a node updates its record. -/
theorem insertNode_existing {t : MemtableInner} {record : Record} {key : Blob} {root j : Nat}
    {n : MemtableNode} (hroot : t.rootNode = some root) (hkey : record.keySlice = some key)
    (hfind : findInsertPosition t.arena key (t.arena.length + 1) root = some (.existingNode j))
    (hn : t.arena[j]? = some n) :
    t.insertNode (.newFromRecord record) = (n.record.updateFromRecord record).map fun r =>
      { t with arena := t.arena.set j { n with record := r } } := by
  have hkey' : (MemtableNode.newFromRecord record).record.keySlice = some key := hkey
  simp only [MemtableInner.insertNode, insertNodeWithin, hroot, hkey', hfind, hn,
    Option.bind_eq_bind, Option.bind_some, Option.pure_def, Option.map_eq_bind]
  rfl

/-- An insertion whose search ends below a node hangs the record there. -/
theorem insertNode_new {t : MemtableInner} {record : Record} {key : Blob} {root parent : Nat}
    {child : Child} {arena : Arena} (hroot : t.rootNode = some root)
    (hkey : record.keySlice = some key)
    (hfind : findInsertPosition t.arena key (t.arena.length + 1) root =
      some (.newNode parent child))
    (hmod : t.arena.modify parent (.linkChild child t.arena.length) = some arena) :
    t.insertNode (.newFromRecord record) =
      insertFixTree (t.arena.length + 2)
        { t with
          arena := arena ++ [{ MemtableNode.newFromRecord record with parent := some parent }]
          currentSize := t.currentSize + record.size } t.arena.length := by
  have hkey' : (MemtableNode.newFromRecord record).record.keySlice = some key := hkey
  simp only [MemtableInner.insertNode, insertNodeWithin, hroot, hkey', hfind, hmod,
    Option.bind_eq_bind, Option.bind_some]
  rw [← hroot]
  rfl

/-- An insertion whose search panics. -/
theorem insertNode_lost {t : MemtableInner} {record : Record} {key : Blob} {root : Nat}
    (hroot : t.rootNode = some root) (hkey : record.keySlice = some key)
    (hfind : findInsertPosition t.arena key (t.arena.length + 1) root = none) :
    t.insertNode (.newFromRecord record) = none := by
  have hkey' : (MemtableNode.newFromRecord record).record.keySlice = some key := hkey
  simp only [MemtableInner.insertNode, insertNodeWithin, hroot, hkey', hfind, Option.bind_eq_bind,
    Option.bind_some, Option.bind_none]

/-- An insertion is an insertion into the sorted list. -/
theorem Holds.insertNode {t : MemtableInner} {es : Entries} (h : t.Holds es) {key : Blob}
    {e : Entry} (hf : Record.Fits key e) (hw : Writable es key e) :
    ∃ t', t.insertNode (.newFromRecord (Record.of key e)) = some t' ∧ Inserted t es key e t' := by
  cases hroot : t.rootNode with
  | none =>
    refine ⟨_, ?_, setRoot_inserted h hroot hf⟩
    simp only [MemtableInner.insertNode, insertNodeWithin, hroot, Option.pure_def]
  | some root =>
    have hsorted := h.sorted
    have hfits := h.fits
    obtain ⟨tree, slot, htree, rfl, hpos⟩ := h.position key hroot
    have hkey := (Record.canonical_of key e).keySlice
    rcases hpos with ⟨j, n, hj, hn, rfl, hfind⟩ | ⟨f, fs, hplug, hbefore, hafter, hfind⟩
    · have hcanon := htree.canonical j n hn
      have hlast : KeyValue.last (slot j).1 (tree.inorder.map slot) = some (slot j).2 :=
        KeyValue.last_of_mem hsorted (List.mem_map.mpr ⟨j, hj, rfl⟩)
      have hupd : ∃ r, n.record.updateFromRecord (Record.of (slot j).1 e) = some r := by
        rw [Record.updateFromRecord_eq hcanon (hfits _ (List.mem_map_of_mem hj)) hf]
        cases e with
        | data value => exact ⟨_, if_pos (hw _ _ hlast rfl)⟩
        | tombstone => exact ⟨_, rfl⟩
      obtain ⟨r, hr⟩ := hupd
      refine ⟨_, ?_, existingNode_inserted htree hsorted hfits hf hj hn hr⟩
      rw [insertNode_existing hroot hkey hfind hn, hr, Option.map_some]
    · subst hplug
      obtain ⟨arena', t', hmod, hfix, hhung⟩ := insert_hung htree.held htree.black htree.perm
        (Record.of key e) (t.currentSize + (Record.of key e).size)
      refine ⟨t', ?_, newNode_inserted htree hsorted hfits hf rfl hbefore hafter hhung⟩
      rw [insertNode_new hroot hkey hfind hmod]
      exact hfix

/-- An in-place write whose old key is out of reach panics. -/
theorem Holds.insertNode_panics {t : MemtableInner} {es : Entries} (h : t.Holds es) {key : Blob}
    {e : Entry} (hf : Record.Fits key e) (hw : ¬ Writable es key e) :
    t.insertNode (.newFromRecord (Record.of key e)) = none := by
  unfold Writable at hw
  push Not at hw
  obtain ⟨old, value, hlast, rfl, hreach⟩ := hw
  have hsorted := h.sorted
  have hfits := h.fits
  cases hroot : t.rootNode with
  | none =>
    obtain ⟨⟨tree, slot, htree, rfl⟩, _, _⟩ := h
    have hr : t.rootNode = tree.root := htree.held.root
    rw [hroot] at hr
    cases tree with
    | nil => cases hlast
    | node => cases hr
  | some root =>
    obtain ⟨tree, slot, htree, rfl, hpos⟩ := h.position key hroot
    have hkey := (Record.canonical_of key (.data value)).keySlice
    rcases hpos with ⟨j, n, hj, hn, rfl, hfind⟩ | ⟨f, fs, rfl, hbefore, hafter, hfind⟩
    · have hcanon := htree.canonical j n hn
      have hlast' : KeyValue.last (slot j).1 (tree.inorder.map slot) = some (slot j).2 :=
        KeyValue.last_of_mem hsorted (List.mem_map.mpr ⟨j, hj, rfl⟩)
      cases hlast.symm.trans hlast'
      have hupd := Record.updateFromRecord_eq hcanon (hfits _ (List.mem_map_of_mem hj)) hf
      simp only [if_neg hreach] at hupd
      rw [insertNode_existing hroot hkey hfind hn, hupd, Option.map_none]
    · rw [last_of_between hbefore hafter] at hlast
      cases hlast

end MemtableInner

end Lsmlite
