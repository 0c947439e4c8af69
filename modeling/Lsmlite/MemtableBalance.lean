import Lsmlite.MemtableLog
import Lsmlite.Lib.RedBlackBalance

/-!
# The memtable's tree is a red-black tree

Every call on a memtable keeps its tree balanced, also the replay of a record of any shape: an
update in place keeps the key of the record it finds. An insertion panics only where it reads a key
or updates a record, never in the fix-up.
-/

namespace Lsmlite
open RedBlack

namespace MemtableInner

/-- A call that takes a record into the table. -/
inductive Insertion where
  | data (key value : Blob) (clock : Clock)
  | tombstone (key : Blob) (clock : Clock)
  | fromWal (record : Record)
  deriving DecidableEq, Repr

/-- A call, whether the table takes the record or returns it as full. -/
def insertion (t : MemtableInner) : Insertion → Option MemtableInner
  | .data key value clock => do
    match ← t.insertDataRecord key value clock with
    | .ok t => return t
    | .error _ => return t
  | .tombstone key clock => do
    match ← t.insertTombstoneRecord key clock with
    | .ok t => return t
    | .error _ => return t
  | .fromWal record => t.insertRecordFromWal record

/-- The record of a call. -/
def Insertion.record : Insertion → Option Record
  | .data key value _ => Record.newDataRecord key value
  | .tombstone key _ => Record.newTombstoneRecord key
  | .fromWal record => some record

/-- The key that a search reads at node `i`. -/
def keyAt (t : MemtableInner) (i : Nat) : Blob := ((t.arena[i]?).bind (·.record.keySlice)).getD []

/-- The arena is the red-black tree `tree`. -/
structure RedBlackTree (t : MemtableInner) (tree : RbTree) : Prop where
  links : Linked t.arena none tree
  root : t.rootNode = tree.root
  nodes : tree.inorder.Perm (List.range t.arena.length)
  readable : ∀ n ∈ t.arena, n.record.keySlice = none → t.arena.length = 1
  ordered : (tree.inorder.map t.keyAt).Pairwise (· < ·)
  rootBlack : tree.color = .black
  noRedRed : tree.NoRedRed
  blackHeight : ∃ h, tree.BlackHeight h
  depth : tree.depth ≤ 2 * Nat.log 2 (t.arena.length + 1)

/-- Why the insertion of a record panics: it has no key, a record in the table has none, or the
update of the record under its key panics. -/
inductive InsertPanic (t : MemtableInner) (record : Record) : Prop where
  | newKey (hkey : record.keySlice = none)
  | oldKey (n : MemtableNode) (hn : n ∈ t.arena) (hkey : n.record.keySlice = none)
  | update (n : MemtableNode) (hn : n ∈ t.arena) (hkey : n.record.keySlice = record.keySlice)
    (hupdate : n.record.updateFromRecord record = none)

/-- An insertion leaves the limits and takes one node at most. -/
structure Grown (t t' : MemtableInner) : Prop where
  length : t'.arena.length ≤ t.arena.length + 1
  capacity : t'.capacity = t.capacity
  maxSize : t'.maxSize = t.maxSize

/-- What every call keeps. -/
structure Shape (t : MemtableInner) (tree : RbTree) : Prop where
  held : t.Held [] tree
  nodes : tree.inorder.Perm (List.range t.arena.length)
  readable : ∀ n ∈ t.arena, n.record.keySlice = none → t.arena.length = 1
  ordered : (tree.inorder.map t.keyAt).Pairwise (· < ·)
  black : tree.color = .black
  balanced : ∃ h, tree.Balanced h

theorem Shape.redBlackTree {t : MemtableInner} {tree : RbTree} (h : t.Shape tree) :
    t.RedBlackTree tree := by
  obtain ⟨k, hk⟩ := h.balanced
  have hdepth := hk.depth_bound h.black
  rw [h.nodes.length_eq, List.length_range] at hdepth
  exact ⟨h.held.linked, h.held.root, h.nodes, h.readable, h.ordered, h.black, hk.noRedRed,
    ⟨k, hk.blackHeight⟩, hdepth⟩

theorem shape_new (maxSize maxNodes : Nat) (wal : Wal) : (new maxSize maxNodes wal).Shape .nil where
  held := ⟨trivial, trivial, rfl, List.nodup_nil⟩
  nodes := List.Perm.nil
  readable n hn := by cases hn
  ordered := List.Pairwise.nil
  black := rfl
  balanced := ⟨0, RbTree.balanced_nil⟩

theorem Shape.with_wal {t : MemtableInner} {tree : RbTree} (h : t.Shape tree) (wal : Wal) :
    { t with wal := wal }.Shape tree :=
  ⟨⟨h.held.path, h.held.linked, h.held.root, h.held.nodup⟩, h.nodes, h.readable, h.ordered, h.black,
    h.balanced⟩

theorem keyAt_records (t : MemtableInner) (i : Nat) :
    t.keyAt i = (((t.arena.map (·.record))[i]?).bind Record.keySlice).getD [] := by
  rw [keyAt, List.getElem?_map, Option.bind_map]
  rfl

/-- The first record becomes the root, with a key or without. -/
theorem Shape.setRoot {t : MemtableInner} {tree : RbTree} (h : t.Shape tree)
    (hroot : t.rootNode = none) (record : Record) :
    (t.setRoot (.newFromRecord record) t.arena.length).Shape (.node .black .nil 0 .nil) := by
  have hnil : tree = .nil := by
    have hr : t.rootNode = tree.root := h.held.root
    rw [hroot] at hr
    cases tree with
    | nil => rfl
    | node => cases hr
  subst hnil
  have hlength : t.arena.length = 0 := by simpa using h.nodes.length_eq.symm
  have harena : t.arena = [] := List.length_eq_zero_iff.mp hlength
  refine ⟨⟨trivial, ⟨⟨{ MemtableNode.newFromRecord record with color := .black }, ?_, rfl, rfl, rfl,
    rfl⟩, trivial, trivial⟩, ?_, ?_⟩, ?_, ?_, ?_, rfl, ⟨1, ?_⟩⟩
  · simp [MemtableInner.setRoot, harena]
  · simp [MemtableInner.setRoot, hlength, rootOf]
  · simp
  · simp [MemtableInner.setRoot, harena, List.range_succ]
  · intro n _ _
    simp [MemtableInner.setRoot, harena]
  · exact List.pairwise_singleton _ _
  · exact RbTree.balanced_black.mpr ⟨0, rfl, RbTree.balanced_nil, RbTree.balanced_nil⟩

/-- An update keeps the tree and its keys. -/
theorem Shape.update {t : MemtableInner} {tree : RbTree} (h : t.Shape tree) {j : Nat}
    {n : MemtableNode} {key : Blob} {record r : Record} (hn : t.arena[j]? = some n)
    (hkey : n.record.keySlice = some key) (hr : n.record.updateFromRecord record = some r) :
    { t with arena := t.arena.set j { n with record := r } }.Shape tree := by
  have hkey' := Record.updateFromRecord_keySlice hkey hr
  have hlinks : ∀ (i : Nat) (m : MemtableNode), t.arena[i]? = some m → ∃ m' : MemtableNode,
      (t.arena.set j { n with record := r })[i]? = some m' ∧ m'.color = m.color ∧
      m'.left = m.left ∧ m'.right = m.right ∧ m'.parent = m.parent := by
    intro i m hm
    by_cases hij : j = i
    · subst hij
      cases hn.symm.trans hm
      exact ⟨_, List.getElem?_set_self (List.getElem?_eq_some_iff.mp hn).1, rfl, rfl, rfl, rfl⟩
    · exact ⟨m, (List.getElem?_set_ne hij).trans hm, rfl, rfl, rfl, rfl⟩
  have hkeys : ∀ i, ({ t with arena := t.arena.set j { n with record := r } } :
      MemtableInner).keyAt i = t.keyAt i := by
    intro i
    by_cases hij : j = i
    · subst hij
      simp only [keyAt, List.getElem?_set_self (List.getElem?_eq_some_iff.mp hn).1, hn,
        Option.bind_some, hkey, hkey']
    · simp only [keyAt, List.getElem?_set_ne hij]
  refine ⟨⟨trivial, linked_of_links hlinks h.held.linked, h.held.root, h.held.nodup⟩, ?_, ?_, ?_,
    h.black, h.balanced⟩
  · rw [List.length_set]
    exact h.nodes
  · intro m hm hnone
    rw [List.length_set]
    rcases List.mem_or_eq_of_mem_set hm with hm | rfl
    · exact h.readable m hm hnone
    · rw [hkey'] at hnone
      cases hnone
  · rw [List.map_congr_left fun i _ => hkeys i]
    exact h.ordered

/-- A record hung between smaller and greater keys. -/
theorem Shape.hung {t t' : MemtableInner} {f : Frame} {fs : List Frame} {record : Record}
    {size : Nat} {key : Blob} (h : t.Shape (plug (f :: fs) .nil))
    (hreadable : ∀ n ∈ t.arena, n.record.keySlice ≠ none) (hkey : record.keySlice = some key)
    (hbefore : ∀ i ∈ before (f :: fs), t.keyAt i < key)
    (hafter : ∀ i ∈ after (f :: fs), key < t.keyAt i) (hhung : Hung t (f :: fs) record size t') :
    t'.Shape (MemtableInner.hung (f :: fs) t.arena.length) := by
  have hperm := h.nodes
  rw [RedBlack.inorder_plug, RbTree.inorder_nil, List.append_nil] at hperm
  have hold : ∀ i, i < t.arena.length → t'.keyAt i = t.keyAt i := by
    intro i hi
    rw [keyAt_records, keyAt_records, hhung.records, List.getElem?_append_left (by simpa using hi)]
  have hnew : t'.keyAt t.arena.length = key := by
    rw [keyAt_records, hhung.records, List.getElem?_append_right (by simp)]
    simp [hkey]
  have hlt : ∀ i ∈ pathNodes (f :: fs), i < t.arena.length := fun i hi =>
    List.mem_range.mp (hperm.mem_iff.mp hi)
  have hb : (before (f :: fs)).map t'.keyAt = (before (f :: fs)).map t.keyAt :=
    List.map_congr_left fun i hi => hold i (hlt i (List.mem_append_left _ hi))
  have ha : (after (f :: fs)).map t'.keyAt = (after (f :: fs)).map t.keyAt :=
    List.map_congr_left fun i hi => hold i (hlt i (List.mem_append_right _ hi))
  have hordered := h.ordered
  rw [RedBlack.inorder_plug, RbTree.inorder_nil, List.append_nil, List.map_append,
    List.pairwise_append] at hordered
  obtain ⟨hob, hoa, hcross⟩ := hordered
  refine ⟨hhung.held, hhung.perm, ?_, ?_, RbTree.color_blacken _, ?_⟩
  · intro n hn hnone
    have hmem : n.record ∈ t.arena.map (·.record) ++ [record] := by
      rw [← hhung.records]
      exact List.mem_map_of_mem hn
    rcases List.mem_append.mp hmem with hmem | hmem
    · obtain ⟨m, hm, hmr⟩ := List.mem_map.mp hmem
      rw [← hmr] at hnone
      exact absurd hnone (hreadable m hm)
    · rw [List.mem_singleton.mp hmem, hkey] at hnone
      cases hnone
  · rw [inorder_hung, List.map_append, List.map_cons, hb, ha, hnew, List.pairwise_append,
      List.pairwise_cons]
    refine ⟨hob, ⟨?_, hoa⟩, ?_⟩
    · intro k hk
      obtain ⟨i, hi, rfl⟩ := List.mem_map.mp hk
      exact hafter i hi
    · intro k hk k' hk'
      rcases List.mem_cons.mp hk' with rfl | hk'
      · obtain ⟨i, hi, rfl⟩ := List.mem_map.mp hk
        exact hbefore i hi
      · exact hcross k hk k' hk'
  · obtain ⟨k, hk⟩ := h.balanced
    obtain ⟨m, htakes, hnil⟩ := takes_of_balanced hk
    refine balanced_fix htakes (RbTree.balanced_red.mpr ⟨rfl, rfl, hnil, hnil⟩) rfl fun _ => ?_
    exact (color_plug_cons f fs _ .nil).trans h.black

/-- Where the search of an insertion ends. -/
theorem Shape.position {t : MemtableInner} {tree : RbTree} (h : t.Shape tree)
    (hreadable : ∀ n ∈ t.arena, n.record.keySlice ≠ none) (key : Blob) {root : Nat}
    (hroot : t.rootNode = some root) :
    (∃ j n, t.arena[j]? = some n ∧ n.record.keySlice = some key ∧
      findInsertPosition t.arena key (t.arena.length + 1) root = some (.existingNode j)) ∨
    ∃ f fs, plug (f :: fs) .nil = tree ∧ (∀ i ∈ before (f :: fs), t.keyAt i < key) ∧
      (∀ i ∈ after (f :: fs), key < t.keyAt i) ∧
      findInsertPosition t.arena key (t.arena.length + 1) root =
        some (.newNode f.idx (holeChild f)) := by
  have hkeys : ∀ i (n : MemtableNode), t.arena[i]? = some n →
      n.record.keySlice = some (t.keyAt i) := by
    intro i n hn
    cases hk : n.record.keySlice with
    | none => exact absurd hk (hreadable n (List.mem_of_getElem? hn))
    | some k => simp only [keyAt, hn, Option.bind_some, hk, Option.getD_some]
  have hr : tree.root = some root := h.held.root.symm.trans hroot
  have hpos := findInsertPosition_locate key [] hkeys h.held.linked hr
    (show _ ≤ t.arena.length + 1 by rw [h.nodes.length_eq, List.length_range]; omega)
  have hplug := plug_locate t.keyAt key [] tree
  rcases hpos with ⟨j, hj, hfind⟩ | ⟨f, fs, hloc, hfind⟩
  · have hfound := locate_found t.keyAt key [] tree j hj
    have hmem : j ∈ tree.inorder := by
      rw [plug_nil] at hplug
      rw [← hplug, RedBlack.inorder_plug]
      simp [RbTree.mem_of_root hj]
    have hlt : j < t.arena.length := List.mem_range.mp (h.nodes.mem_iff.mp hmem)
    have hget := List.getElem?_eq_getElem hlt
    refine Or.inl ⟨j, t.arena[j], hget, ?_, hfind⟩
    rw [hkeys j _ hget, hfound]
  · obtain ⟨hbefore, hafter⟩ := locate_between t.keyAt key [] h.ordered
      (by simp [before]) (by simp [after])
    rw [hloc] at hplug hbefore hafter
    exact Or.inr ⟨f, fs, hplug, hbefore, hafter, hfind⟩

/-- An insertion ends with the shape kept, or panics before it gets to a new node. -/
theorem Shape.insertNode {t : MemtableInner} {tree : RbTree} (h : t.Shape tree) (record : Record) :
    (∃ t' tree', t.insertNode (.newFromRecord record) = some t' ∧ t'.Shape tree' ∧ t.Grown t') ∨
    t.insertNode (.newFromRecord record) = none ∧ t.InsertPanic record ∧
      ∀ root key parent child, t.rootNode = some root → record.keySlice = some key →
        findInsertPosition t.arena key (t.arena.length + 1) root ≠
          some (.newNode parent child) := by
  cases hroot : t.rootNode with
  | none =>
    refine Or.inl ⟨_, _, ?_, h.setRoot hroot record, ?_, rfl, rfl⟩
    · simp only [MemtableInner.insertNode, insertNodeWithin, hroot, Option.pure_def]
    · simp [MemtableInner.setRoot]
  | some root =>
    cases hkey : record.keySlice with
    | none =>
      refine Or.inr ⟨?_, .newKey hkey, ?_⟩
      · simp only [MemtableInner.insertNode, insertNodeWithin, hroot]
        rw [show (MemtableNode.newFromRecord record).record = record from rfl, hkey]
        rfl
      · intro _ _ _ _ _ hk
        cases hk
    | some key =>
      by_cases hreadable : ∀ n ∈ t.arena, n.record.keySlice ≠ none
      · rcases h.position hreadable key hroot with ⟨j, n, hn, hnkey, hfind⟩ |
          ⟨f, fs, rfl, hbefore, hafter, hfind⟩
        · have hstart := insertNode_existing hroot hkey hfind hn
          cases hr : n.record.updateFromRecord record with
          | none =>
            rw [hr, Option.map_none] at hstart
            refine Or.inr ⟨hstart,
              .update n (List.mem_of_getElem? hn) (hnkey.trans hkey.symm) hr, ?_⟩
            intro root' key' parent child hroot' hkey' hnew
            cases hroot'
            cases hkey'
            rw [hfind] at hnew
            cases hnew
          | some r =>
            rw [hr, Option.map_some] at hstart
            exact Or.inl ⟨_, tree, hstart, h.update hn hnkey hr, by simp, rfl, rfl⟩
        · obtain ⟨arena', t', hmod, hfix, hhung⟩ := insert_hung h.held h.black h.nodes record
            (t.currentSize + record.size)
          refine Or.inl ⟨t', _, ?_, h.hung hreadable hkey hbefore hafter hhung, ?_, hhung.capacity,
            hhung.maxSize⟩
          · rw [insertNode_new hroot hkey hfind hmod]
            exact hfix
          · have hlength := congrArg List.length hhung.records
            simp only [List.length_map, List.length_append, List.length_singleton] at hlength
            omega
      · -- The only node is the root, and its key cannot be read.
        push Not at hreadable
        obtain ⟨n, hn, hnone⟩ := hreadable
        have hlength := h.readable n hn hnone
        have hmem : root ∈ tree.inorder := RbTree.mem_of_root (h.held.root.symm.trans hroot)
        have hlt : root < t.arena.length := List.mem_range.mp (h.nodes.mem_iff.mp hmem)
        obtain ⟨m, hm⟩ := List.length_eq_one_iff.mp hlength
        have hget : t.arena[root]? = some n := by
          rw [hm] at hn ⊢
          rw [List.mem_singleton.mp hn, show root = 0 by omega]
          rfl
        have hfind : findInsertPosition t.arena key (t.arena.length + 1) root = none := by
          simp only [findInsertPosition, hget, Option.bind_eq_bind, Option.bind_some, hnone,
            Option.bind_none]
        refine Or.inr ⟨insertNode_lost hroot hkey hfind, .oldKey n hn hnone, ?_⟩
        intro root' key' parent child hroot' hkey' hnew
        cases hroot'
        cases hkey'
        rw [hfind] at hnew
        cases hnew

theorem Shape.insertNode_some {t t' : MemtableInner} {tree : RbTree} (h : t.Shape tree)
    {record : Record} (ht' : t.insertNode (.newFromRecord record) = some t') :
    (∃ tree', t'.Shape tree') ∧ t.Grown t' := by
  rcases h.insertNode record with ⟨u, tree', hu, hshape, hgrown⟩ | ⟨hnone, _⟩
  · cases hu.symm.trans ht'
    exact ⟨⟨tree', hshape⟩, hgrown⟩
  · rw [hnone] at ht'
    cases ht'

/-- A call that returns found the table full, or inserted its record. -/
theorem insertion_cases {t t' : MemtableInner} {call : Insertion}
    (hcall : t.insertion call = some t') :
    (t.full = true ∧ t' = t) ∨
    t.full = false ∧ ∃ record wal, call.record = some record ∧
      { t with wal := wal }.insertNode (.newFromRecord record) = some t' := by
  have hwrite : ∀ {key : Blob} {e : Entry} {clock : Clock} {made : Option Record},
      (Record.Fits key e → made = some (Record.of key e)) →
      (t.write key e clock >>= fun
        | .ok u => some u
        | .error _ => some t) = some t' →
      (t.full = true ∧ t' = t) ∨ t.full = false ∧ ∃ record wal, made = some record ∧
        { t with wal := wal }.insertNode (.newFromRecord record) = some t' := by
    intro key e clock made hmade hw
    rw [write_eq] at hw
    split at hw
    · rename_i hfull
      cases hw
      exact Or.inl ⟨hfull, rfl⟩
    · rename_i hfull
      split at hw
      · rename_i hfits
        rw [Option.bind_eq_bind, Option.bind_map, Option.bind_eq_some_iff] at hw
        obtain ⟨u, hu, hw⟩ := hw
        cases hw
        exact Or.inr ⟨by simpa using hfull, _, _, hmade hfits, hu⟩
      · cases hw
  cases call with
  | data key value clock =>
    exact hwrite (e := .data value) Record.encodeDataRecord_eq hcall
  | tombstone key clock =>
    exact hwrite (e := .tombstone) Record.encodeTombstoneRecord_eq hcall
  | fromWal record =>
    simp only [MemtableInner.insertion, insertRecordFromWal] at hcall
    split at hcall
    · cases hcall
    · rename_i hfull
      exact Or.inr ⟨by simpa using hfull, record, t.wal, rfl, hcall⟩

/-- A call that returns keeps the shape. -/
theorem Shape.insertion {t t' : MemtableInner} {tree : RbTree} (h : t.Shape tree) {call : Insertion}
    (hcall : t.insertion call = some t') : ∃ tree', t'.Shape tree' := by
  rcases insertion_cases hcall with ⟨_, rfl⟩ | ⟨_, record, wal, _, hinsert⟩
  · exact ⟨tree, h⟩
  · exact ((h.with_wal wal).insertNode_some hinsert).1

theorem Shape.insertions {t t' : MemtableInner} {tree : RbTree} (h : t.Shape tree)
    {calls : List Insertion} (hrun : calls.foldlM MemtableInner.insertion t = some t') :
    ∃ tree', t'.Shape tree' := by
  induction calls generalizing t tree with
  | nil =>
    cases hrun
    exact ⟨tree, h⟩
  | cons call calls ih =>
    rw [List.foldlM_cons] at hrun
    obtain ⟨t1, hcall, hrun⟩ := Option.bind_eq_some_iff.mp hrun
    obtain ⟨tree1, h1⟩ := h.insertion hcall
    exact ih h1 hrun

/-- After any calls the arena is a red-black tree, and the next insertion panics only over keys that
cannot be read or in an update: one that gets to a new node ends. -/
theorem insertions_redBlack {maxSize maxNodes : Nat} {wal : Wal} {calls : List Insertion}
    {t : MemtableInner} (h : calls.foldlM insertion (new maxSize maxNodes wal) = some t) :
    (∃ tree, t.RedBlackTree tree) ∧
    ∀ record : Record,
      (t.insertNode (.newFromRecord record) = none → t.InsertPanic record) ∧
      ∀ root key parent child, t.rootNode = some root → record.keySlice = some key →
        findInsertPosition t.arena key (t.arena.length + 1) root = some (.newNode parent child) →
        ∃ t', t.insertNode (.newFromRecord record) = some t' := by
  obtain ⟨tree, hshape⟩ := (shape_new maxSize maxNodes wal).insertions h
  refine ⟨⟨tree, hshape.redBlackTree⟩, fun record => ?_⟩
  rcases hshape.insertNode record with ⟨t', tree', ht', _, _⟩ | ⟨hnone, hpanic, hnew⟩
  · constructor
    · intro hnone
      rw [hnone] at ht'
      cases ht'
    · intro _ _ _ _ _ _ _
      exact ⟨t', ht'⟩
  · constructor
    · intro _
      exact hpanic
    · intro root key parent child hroot hkey hfind
      exact absurd hfind (hnew root key parent child hroot hkey)

/-- Ascending keys, an overwrite and a replayed record. -/
def insertedCalls : List Insertion :=
  [.data [1] [7] ⟨0, 0⟩, .data [2] [7] ⟨0, 0⟩, .tombstone [3] ⟨0, 0⟩, .data [2] [8, 8] ⟨0, 0⟩,
    .fromWal (Record.of [4] (.data [9])), .fromWal (Record.of [3] .tombstone)]

theorem insertions_redBlack_six : ∃ t : MemtableInner,
    insertedCalls.foldlM insertion (new 1000 10 (Wal.new 0 0 [])) = some t ∧ t.arena.length = 4 ∧
    (∃ tree, t.RedBlackTree tree) ∧
    ∀ record : Record,
      (t.insertNode (.newFromRecord record) = none → t.InsertPanic record) ∧
      ∀ root key parent child, t.rootNode = some root → record.keySlice = some key →
        findInsertPosition t.arena key (t.arena.length + 1) root = some (.newNode parent child) →
        ∃ t', t.insertNode (.newFromRecord record) = some t' := by
  have hrun : (insertedCalls.foldlM insertion (new 1000 10 (Wal.new 0 0 []))).map (·.arena.length) =
      some 4 := by
    decide +kernel
  obtain ⟨t, ht, hlength⟩ := Option.map_eq_some_iff.mp hrun
  exact ⟨t, ht, hlength, insertions_redBlack ht⟩

end MemtableInner

end Lsmlite
