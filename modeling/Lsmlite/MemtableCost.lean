import Lsmlite.MemtableBalance

/-!
# The cost of a memtable

The loops of a memtable go down its tree and up again, and the tree is balanced. They end after `2 *
log2 (n + 1) + 1` rounds over `n` records: cut off there, a read and an insertion do what they do.
-/

namespace Lsmlite.MemtableInner
open RedBlack

/-! ## The way down -/

section
variable {arena : Arena} {p : Option Nat} {tree : RbTree} {i fuel fuel' : Nat}

/-- Rounds beyond the depth of the tree are not needed. -/
theorem getSearch_depth (key : Blob) (hl : Linked arena p tree) (hi : tree.root = some i)
    (hfuel : tree.depth ≤ fuel) (hfuel' : tree.depth ≤ fuel') :
    getSearch arena key fuel i = getSearch arena key fuel' i := by
  induction tree generalizing p i fuel fuel' with
  | nil => cases hi
  | node c l j r ihl ihr =>
    cases hi
    obtain ⟨⟨n, hn, _, hnl, hnr, _⟩, hl, hr⟩ := hl
    simp only [RbTree.depth] at hfuel hfuel'
    obtain ⟨fuel, rfl⟩ : ∃ k, fuel = k + 1 := ⟨fuel - 1, by omega⟩
    obtain ⟨fuel', rfl⟩ : ∃ k, fuel' = k + 1 := ⟨fuel' - 1, by omega⟩
    simp only [getSearch, hn, hnl, hnr, Option.bind_eq_bind, Option.bind_some]
    congr 1
    funext nodeKey
    have hleft : ∀ k, l.root = some k → getSearch arena key fuel k = getSearch arena key fuel' k :=
      fun k hk => ihl hl hk (by omega) (by omega)
    have hright : ∀ k, r.root = some k → getSearch arena key fuel k = getSearch arena key fuel' k :=
      fun k hk => ihr hr hk (by omega) (by omega)
    cases hlr : l.root with
    | none =>
      cases hrr : r.root with
      | none => rfl
      | some k => simp only [hright k hrr]
    | some k =>
      cases hrr : r.root with
      | none => simp only [hleft k hlr]
      | some k' => simp only [hleft k hlr, hright k' hrr]

theorem findInsertPosition_depth (key : Blob) (hl : Linked arena p tree) (hi : tree.root = some i)
    (hfuel : tree.depth ≤ fuel) (hfuel' : tree.depth ≤ fuel') :
    findInsertPosition arena key fuel i = findInsertPosition arena key fuel' i := by
  induction tree generalizing p i fuel fuel' with
  | nil => cases hi
  | node c l j r ihl ihr =>
    cases hi
    obtain ⟨⟨n, hn, _, hnl, hnr, _⟩, hl, hr⟩ := hl
    simp only [RbTree.depth] at hfuel hfuel'
    obtain ⟨fuel, rfl⟩ : ∃ k, fuel = k + 1 := ⟨fuel - 1, by omega⟩
    obtain ⟨fuel', rfl⟩ : ∃ k, fuel' = k + 1 := ⟨fuel' - 1, by omega⟩
    simp only [findInsertPosition, hn, hnl, hnr, Option.bind_eq_bind, Option.bind_some]
    congr 1
    funext nodeKey
    have hleft : ∀ k, l.root = some k →
        findInsertPosition arena key fuel k = findInsertPosition arena key fuel' k :=
      fun k hk => ihl hl hk (by omega) (by omega)
    have hright : ∀ k, r.root = some k →
        findInsertPosition arena key fuel k = findInsertPosition arena key fuel' k :=
      fun k hk => ihr hr hk (by omega) (by omega)
    cases hlr : l.root with
    | none =>
      cases hrr : r.root with
      | none => rfl
      | some k => simp only [hright k hrr]
    | some k =>
      cases hrr : r.root with
      | none => simp only [hleft k hlr]
      | some k' => simp only [hleft k hlr, hright k' hrr]

end

/-! ## The way up -/

/-- A path is no longer than the tree is deep. -/
theorem length_le_depth (fs : List Frame) (t : RbTree) :
    fs.length + t.depth ≤ (plug fs t).depth := by
  induction fs generalizing t with
  | nil => exact Nat.le_of_eq (Nat.zero_add _)
  | cons f fs ih =>
    have hdepth : t.depth + 1 ≤ (f.plug t).depth := by
      cases f <;> simp only [Frame.plug, RbTree.depth] <;> omega
    have hrest := ih (f.plug t)
    rw [plug_cons, List.length_cons]
    omega

/-- A fix-up that ends does the same with more rounds. -/
theorem insertFixTree_succ {fuel : Nat} {t t' : MemtableInner} {i : Nat}
    (h : insertFixTree fuel t i = some t') :
    insertFixTree (fuel + 1) t i = some t' := by
  induction fuel generalizing t i with
  | zero => cases h
  | succ fuel ih =>
    rw [insertFixTree] at h ⊢
    simp only [Option.bind_eq_bind, Option.bind_eq_some_iff] at h ⊢
    obtain ⟨node, hnode, h⟩ := h
    refine ⟨node, hnode, ?_⟩
    cases hparent : node.parent with
    | none =>
      rw [hparent] at h
      exact h
    | some parentIdx =>
      rw [hparent] at h
      simp only [Option.bind_eq_some_iff] at h ⊢
      obtain ⟨parent, hp, h⟩ := h
      refine ⟨parent, hp, ?_⟩
      by_cases hblack : parent.color = .black
      · rw [if_pos hblack] at h ⊢
        exact h
      · rw [if_neg hblack] at h ⊢
        simp only [Option.bind_eq_some_iff] at h ⊢
        obtain ⟨grandparentIdx, hg, uncle, huncle, h⟩ := h
        refine ⟨grandparentIdx, hg, uncle, huncle, ?_⟩
        cases uncle with
        | some u =>
          simp only [Option.bind_eq_some_iff] at h ⊢
          obtain ⟨a1, h1, a2, h2, a3, h3, h⟩ := h
          exact ⟨a1, h1, a2, h2, a3, h3, ih h⟩
        | none =>
          simp only [Option.bind_eq_some_iff] at h ⊢
          obtain ⟨grandparent, hgp, h⟩ := h
          refine ⟨grandparent, hgp, ?_⟩
          generalize deriveRotationDirection grandparent.left parentIdx parent.left i =
            rotation at h ⊢
          obtain ⟨side, direction⟩ := rotation
          cases side with
          | inner =>
            cases direction with
            | left | right =>
              simp only [Option.bind_eq_some_iff] at h ⊢
              obtain ⟨t1, h1, h⟩ := h
              exact ⟨t1, h1, ih h⟩
          | outer =>
            cases direction with
            | left | right => exact h

theorem insertFixTree_mono {fuel fuel' : Nat} {t t' : MemtableInner} {i : Nat} (hle : fuel ≤ fuel')
    (h : insertFixTree fuel t i = some t') : insertFixTree fuel' t i = some t' := by
  induction hle with
  | refl => exact h
  | step _ ih => exact insertFixTree_succ ih

/-- Two numbers of rounds after which a fix-up ends have the same result. -/
theorem insertFixTree_agree {fuel fuel' : Nat} {t a b : MemtableInner} {i : Nat}
    (ha : insertFixTree fuel t i = some a) (hb : insertFixTree fuel' t i = some b) : a = b := by
  have ha' := insertFixTree_mono (Nat.le_max_left fuel fuel') ha
  have hb' := insertFixTree_mono (Nat.le_max_right fuel fuel') hb
  exact Option.some.inj (ha'.symm.trans hb')

/-! ## Reads and insertions -/

section
variable {t : MemtableInner} {tree : RbTree} {rounds : Nat}

theorem Shape.depth_le (h : t.Shape tree) : tree.depth ≤ t.arena.length + 1 := by
  have hlength := tree.depth_le_length
  rw [h.nodes.length_eq, List.length_range] at hlength
  omega

theorem Shape.getWithin (h : t.Shape tree) (hrounds : tree.depth ≤ rounds) (key : Blob) :
    t.getWithin rounds key = t.get key := by
  cases hroot : t.rootNode with
  | none => simp only [MemtableInner.get, MemtableInner.getWithin, hroot]
  | some root =>
    have hr : tree.root = some root := h.held.root.symm.trans hroot
    have hsearch := getSearch_depth key h.held.linked hr hrounds h.depth_le
    simp only [MemtableInner.get, MemtableInner.getWithin, hroot, hsearch]

/-- A node is hung only into the tree of keys that can be read. -/
theorem Shape.path_of_newNode (h : t.Shape tree) {root parent : Nat} {key : Blob} {child : Child}
    (hroot : t.rootNode = some root)
    (hfind : findInsertPosition t.arena key (t.arena.length + 1) root =
      some (.newNode parent child)) :
    ∃ f fs, plug (f :: fs) .nil = tree ∧ parent = f.idx ∧ child = holeChild f := by
  by_cases hreadable : ∀ n ∈ t.arena, n.record.keySlice ≠ none
  · rcases h.position hreadable key hroot with ⟨j, n, _, _, hfound⟩ | ⟨f, fs, hplug, _, _, hfound⟩
    · cases hfind.symm.trans hfound
    · cases hfind.symm.trans hfound
      exact ⟨f, fs, hplug, rfl, rfl⟩
  · -- The search panics at the only node.
    push Not at hreadable
    obtain ⟨n, hn, hnone⟩ := hreadable
    obtain ⟨m, hm⟩ := List.length_eq_one_iff.mp (h.readable n hn hnone)
    have hmem : root ∈ tree.inorder := RbTree.mem_of_root (h.held.root.symm.trans hroot)
    have hlt : root < t.arena.length := List.mem_range.mp (h.nodes.mem_iff.mp hmem)
    rw [hm, List.length_singleton, Nat.lt_one_iff] at hlt
    rw [hm, List.mem_singleton] at hn
    subst hlt hn
    simp [findInsertPosition, hm, hnone] at hfind

/-- A node that is hung into the tree goes up in fewer rounds than a path is long. -/
theorem Shape.hung_within {f : Frame} {fs : List Frame} (h : t.Shape (plug (f :: fs) .nil))
    (hrounds : (plug (f :: fs) .nil).depth < rounds) (record : Record) :
    ∃ arena' t', t.arena.modify f.idx (.linkChild (holeChild f) t.arena.length) = some arena' ∧
      insertFixTree rounds { t with
        arena := arena' ++ [{ MemtableNode.newFromRecord record with parent := some f.idx }]
        currentSize := t.currentSize + record.size } t.arena.length = some t' ∧
      insertFixTree (t.arena.length + 2)
        { t with
          arena := arena' ++ [{ MemtableNode.newFromRecord record with parent := some f.idx }]
          currentSize := t.currentSize + record.size } t.arena.length = some t' := by
  have hperm := h.nodes
  rw [RedBlack.inorder_plug, RbTree.inorder_nil, List.append_nil] at hperm
  have hlt : ∀ j ∈ pathNodes (f :: fs), j < t.arena.length := fun j hj =>
    List.mem_range.mp (hperm.mem_iff.mp hj)
  obtain ⟨arena', hmod, _, hheld⟩ :=
    hang_held (held_plug.mpr h.held) hlt record (t.currentSize + record.size)
  have hpath := length_le_depth (f :: fs) .nil
  obtain ⟨t', hwithin, _⟩ :=
      insertFixTree_held hheld (show (f :: fs).length < rounds by omega) fun _ =>
    (color_plug_cons f fs _ .nil).trans h.black
  obtain ⟨arena'', t'', hmod', hfix, _⟩ :=
    insert_hung h.held h.black h.nodes record (t.currentSize + record.size)
  cases hmod.symm.trans hmod'
  rw [← insertFixTree_agree hwithin hfix] at hfix
  exact ⟨arena', t', hmod, hwithin, hfix⟩

theorem Shape.insertNodeWithin (h : t.Shape tree) (hrounds : tree.depth < rounds)
    (record : Record) :
    t.insertNodeWithin rounds rounds (.newFromRecord record) =
      t.insertNode (.newFromRecord record) := by
  cases hroot : t.rootNode with
  | none => simp only [MemtableInner.insertNode, MemtableInner.insertNodeWithin, hroot]
  | some root =>
    have hr : tree.root = some root := h.held.root.symm.trans hroot
    have hposition : ∀ key, findInsertPosition t.arena key rounds root =
        findInsertPosition t.arena key (t.arena.length + 1) root := fun key =>
      findInsertPosition_depth key h.held.linked hr (Nat.le_of_lt hrounds) h.depth_le
    simp only [MemtableInner.insertNode, MemtableInner.insertNodeWithin, hroot, hposition]
    congr 1
    funext key
    cases hfind : findInsertPosition t.arena key (t.arena.length + 1) root with
    | none => rfl
    | some position =>
      cases position with
      | existingNode j => rfl
      | newNode parent child =>
        obtain ⟨f, fs, rfl, rfl, rfl⟩ := h.path_of_newNode hroot hfind
        obtain ⟨arena', t', hmod, hwithin, hfix⟩ := h.hung_within hrounds record
        have hsize : (MemtableNode.newFromRecord record).record.size = record.size := rfl
        simp only [hmod, hsize, Option.bind_eq_bind, Option.bind_some]
        rw [hroot] at hwithin hfix
        exact hwithin.trans hfix.symm

end

/-- Whatever calls made the table, its reads and its next insertion end after a number of rounds
that grows with the logarithm of its records. -/
theorem rounds_logarithmic {maxSize maxNodes : Nat} {wal : Wal} {calls : List Insertion}
    {t : MemtableInner} (h : calls.foldlM insertion (new maxSize maxNodes wal) = some t) :
    (∀ key, t.getWithin (2 * Nat.log 2 (t.arena.length + 1) + 1) key = t.get key) ∧
      ∀ record, t.insertNodeWithin (2 * Nat.log 2 (t.arena.length + 1) + 1)
        (2 * Nat.log 2 (t.arena.length + 1) + 1) (.newFromRecord record) =
          t.insertNode (.newFromRecord record) := by
  obtain ⟨tree, hshape⟩ := (shape_new maxSize maxNodes wal).insertions h
  have hdepth := hshape.redBlackTree.depth
  constructor
  · intro key
    exact hshape.getWithin (Nat.le_succ_of_le hdepth) key
  · intro record
    exact hshape.insertNodeWithin (Nat.lt_succ_of_le hdepth) record

/-- Four records: five rounds do for a new key. -/
theorem rounds_logarithmic_six :
    ∃ t : MemtableInner,
    insertedCalls.foldlM insertion (new 1000 10 (Wal.new 0 0 [])) = some t ∧
      2 * Nat.log 2 (t.arena.length + 1) + 1 = 5 ∧
      (∀ key, t.getWithin (2 * Nat.log 2 (t.arena.length + 1) + 1) key = t.get key) ∧
        ∀ record, t.insertNodeWithin (2 * Nat.log 2 (t.arena.length + 1) + 1)
          (2 * Nat.log 2 (t.arena.length + 1) + 1) (.newFromRecord record) =
            t.insertNode (.newFromRecord record) := by
  have hrun : (insertedCalls.foldlM insertion (new 1000 10 (Wal.new 0 0 []))).map (·.arena.length) =
      some 4 := by
    decide +kernel
  obtain ⟨t, ht, hlength⟩ := Option.map_eq_some_iff.mp hrun
  have hfive : 2 * Nat.log 2 (t.arena.length + 1) + 1 = 5 := by
    rw [hlength]
    decide +kernel
  exact ⟨t, ht, hfive, rounds_logarithmic ht⟩

end Lsmlite.MemtableInner
