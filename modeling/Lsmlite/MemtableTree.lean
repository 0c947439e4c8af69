import Lsmlite.Memtable

/-!
# The arena as a tree

The arena with its links holds a red-black tree: `Linked` for a subtree below its parent,
`OnPath` for the nodes on a path around a hole. Under them the rotations are those of
the tree, and `insert_fix_tree` is `RedBlack.fix` with the root turned black.
-/

namespace Lsmlite
open RedBlack

/-- The arena holds `tree` with its root linked up to `parent`. -/
def Linked (arena : Arena) (parent : Option Nat) : RbTree → Prop
  | .nil => True
  | .node c l i r =>
    (∃ n, arena[i]? = some n ∧ n.color = c ∧ n.left = l.root ∧ n.right = r.root ∧
      n.parent = parent) ∧
    Linked arena (some i) l ∧ Linked arena (some i) r

/-- The link from a frame's node on its left, with `hole` in the hole. -/
def frameLeft (f : Frame) (hole : Option Nat) : Option Nat :=
  match f with
  | .left _ _ _ => hole
  | .right _ _ s => s.root

def frameRight (f : Frame) (hole : Option Nat) : Option Nat :=
  match f with
  | .left _ _ s => s.root
  | .right _ _ _ => hole

/-- The arena holds the path `fs` around a hole with the node `hole`. -/
def OnPath (arena : Arena) : List Frame → Option Nat → Prop
  | [], _ => True
  | f :: fs, hole =>
    (∃ n, arena[f.idx]? = some n ∧ n.color = f.color ∧ n.left = frameLeft f hole ∧
      n.right = frameRight f hole ∧ n.parent = parentOf fs) ∧
    Linked arena (some f.idx) f.sibling ∧ OnPath arena fs (some f.idx)

/-- The nodes of a path and of the subtrees beside it. -/
def pathNodes (fs : List Frame) : List Nat := before fs ++ after fs

/-- Two arenas with the same records, whose nodes differ at `touched` only. -/
structure SameOff (arena arena' : Arena) (touched : List Nat) : Prop where
  records : arena'.map (·.record) = arena.map (·.record)
  nodes : ∀ j, j ∉ touched → arena'[j]? = arena[j]?

theorem SameOff.refl (arena : Arena) : SameOff arena arena [] := ⟨rfl, fun _ _ => rfl⟩

theorem SameOff.trans {a b c : Arena} {xs ys : List Nat} (h : SameOff a b xs)
    (h' : SameOff b c ys) : SameOff a c (xs ++ ys) where
  records := h'.records.trans h.records
  nodes j hj := by
    rw [List.mem_append, not_or] at hj
    rw [h'.nodes j hj.2, h.nodes j hj.1]

theorem SameOff.mono {a b : Arena} {xs ys : List Nat} (h : SameOff a b xs) (hs : xs ⊆ ys) :
    SameOff a b ys :=
  ⟨h.records, fun j hj => h.nodes j fun hx => hj (hs hx)⟩

/-- Changing the links or the colour of one node. -/
theorem modify_sameOff {arena : Arena} {i : Nat} {n : MemtableNode}
    (f : MemtableNode → MemtableNode) (hn : arena[i]? = some n) (hf : (f n).record = n.record) :
    ∃ arena', arena.modify i f = some arena' ∧ arena'[i]? = some (f n) ∧
      SameOff arena arena' [i] := by
  obtain ⟨hi, hget⟩ := List.getElem?_eq_some_iff.mp hn
  refine ⟨arena.set i (f n), by simp [Arena.modify, hn], by simp [hi], ?_, fun j hj => ?_⟩
  · rw [List.map_set, hf]
    refine List.ext_getElem? fun j => ?_
    rw [List.getElem?_set, List.getElem?_map]
    split
    · rename_i h
      subst h
      simp [hget, hi]
    · rfl
  · rw [List.getElem?_set_ne]
    simpa [eq_comm] using hj

theorem Linked.congr {arena arena' : Arena} {p : Option Nat} {t : RbTree} (h : Linked arena p t)
    (hsame : ∀ j ∈ t.inorder, arena'[j]? = arena[j]?) : Linked arena' p t := by
  induction t generalizing p with
  | nil => trivial
  | node c l i r ihl ihr =>
    obtain ⟨⟨n, hn⟩, hl, hr⟩ := h
    simp only [RbTree.inorder_node, List.mem_append, List.mem_cons] at hsame
    refine ⟨⟨n, ?_⟩, ihl hl fun j hj => hsame j (Or.inl hj),
      ihr hr fun j hj => hsame j (Or.inr (Or.inr hj))⟩
    rw [hsame i (Or.inr (Or.inl rfl))]
    exact hn

/-- A subtree is kept by what happens outside of it. -/
theorem Linked.sameOff {arena arena' : Arena} {p : Option Nat} {t : RbTree} {touched : List Nat}
    (h : Linked arena p t) (hs : SameOff arena arena' touched)
    (hd : ∀ j ∈ t.inorder, j ∉ touched) : Linked arena' p t :=
  h.congr fun j hj => hs.nodes j (hd j hj)

theorem mem_pathNodes_cons {f : Frame} {fs : List Frame} {j : Nat} :
    j ∈ pathNodes (f :: fs) ↔ j = f.idx ∨ j ∈ f.sibling.inorder ∨ j ∈ pathNodes fs := by
  cases f <;> simp only [pathNodes, before, after, Frame.before, Frame.after, Frame.idx,
    Frame.sibling, List.mem_append, List.mem_cons, List.not_mem_nil, or_false, false_or] <;> tauto

theorem OnPath.congr {arena arena' : Arena} {fs : List Frame} {hole : Option Nat}
    (h : OnPath arena fs hole) (hsame : ∀ j ∈ pathNodes fs, arena'[j]? = arena[j]?) :
    OnPath arena' fs hole := by
  induction fs generalizing hole with
  | nil => trivial
  | cons f fs ih =>
    obtain ⟨⟨n, hn⟩, hsib, hrest⟩ := h
    simp only [mem_pathNodes_cons] at hsame
    refine ⟨⟨n, ?_⟩, hsib.congr fun j hj => hsame j (Or.inr (Or.inl hj)),
      ih hrest fun j hj => hsame j (Or.inr (Or.inr hj))⟩
    rw [hsame f.idx (Or.inl rfl)]
    exact hn

theorem OnPath.sameOff {arena arena' : Arena} {fs : List Frame} {hole : Option Nat}
    {touched : List Nat} (h : OnPath arena fs hole) (hs : SameOff arena arena' touched)
    (hd : ∀ j ∈ pathNodes fs, j ∉ touched) : OnPath arena' fs hole :=
  h.congr fun j hj => hs.nodes j (hd j hj)

/-- A path and what is in its hole are the whole tree. -/
theorem linked_plug (arena : Arena) (fs : List Frame) (t : RbTree) :
    Linked arena none (plug fs t) ↔ OnPath arena fs t.root ∧ Linked arena (parentOf fs) t := by
  induction fs generalizing t with
  | nil => simp [OnPath, parentOf]
  | cons f fs ih =>
    rw [plug_cons, ih, Frame.root_plug]
    cases f <;>
      simp only [Frame.plug, Linked, OnPath, Frame.idx, Frame.color, Frame.sibling, frameLeft,
        frameRight, parentOf] <;> tauto


theorem pathNodes_cons_perm (f : Frame) (fs : List Frame) :
    (pathNodes (f :: fs)).Perm (f.idx :: (f.sibling.inorder ++ pathNodes fs)) := by
  rw [List.perm_iff_count]
  intro a
  cases f <;>
    simp only [pathNodes, before, after, Frame.before, Frame.after, Frame.idx, Frame.sibling,
      List.append_nil, List.count_append, List.count_cons, List.count_nil, List.nil_append] <;>
    omega

theorem nodup_pathNodes_cons {f : Frame} {fs : List Frame} (h : (pathNodes (f :: fs)).Nodup) :
    f.idx ∉ f.sibling.inorder ∧ f.idx ∉ pathNodes fs ∧ f.sibling.inorder.Nodup ∧
      (pathNodes fs).Nodup ∧ ∀ j ∈ f.sibling.inorder, j ∉ pathNodes fs := by
  have h' := (pathNodes_cons_perm f fs).nodup_iff.mp h
  simp only [List.nodup_cons, List.mem_append, not_or, List.nodup_append] at h'
  obtain ⟨⟨h1, h2⟩, h3, h4, h5⟩ := h'
  exact ⟨h1, h2, h3, h4, fun j hj hj' => h5 j hj j hj' rfl⟩

theorem nodup_plug {fs : List Frame} {t : RbTree} :
    (plug fs t).inorder.Nodup ↔
      t.inorder.Nodup ∧ (pathNodes fs).Nodup ∧ ∀ j ∈ t.inorder, j ∉ pathNodes fs := by
  have hperm : (plug fs t).inorder.Perm (t.inorder ++ pathNodes fs) := by
    rw [RedBlack.inorder_plug, pathNodes, List.append_assoc]
    exact List.perm_append_comm_assoc ..
  rw [hperm.nodup_iff, List.nodup_append]
  constructor
  · rintro ⟨h1, h2, h3⟩
    exact ⟨h1, h2, fun j hj hj' => h3 j hj j hj' rfl⟩
  · rintro ⟨h1, h2, h3⟩
    exact ⟨h1, h2, fun a ha b hb hab => h3 a ha (hab ▸ hb)⟩

/-! ## Rotations -/

/-- The table's arena is the tree with `tree` in the hole of the path `fs`. -/
structure MemtableInner.Held (t : MemtableInner) (fs : List Frame) (tree : RbTree) : Prop where
  path : OnPath t.arena fs tree.root
  linked : Linked t.arena (parentOf fs) tree
  root : t.rootNode = rootOf fs tree.root
  nodup : (plug fs tree).inorder.Nodup

/-- The same table but for colours and links. -/
structure Relinked (t t' : MemtableInner) : Prop where
  records : t'.arena.map (·.record) = t.arena.map (·.record)
  capacity : t'.capacity = t.capacity
  maxSize : t'.maxSize = t.maxSize
  currentSize : t'.currentSize = t.currentSize
  wal : t'.wal = t.wal

theorem Relinked.trans {a b c : MemtableInner} (h : Relinked a b) (h' : Relinked b c) :
    Relinked a c :=
  ⟨h'.records.trans h.records, h'.capacity.trans h.capacity, h'.maxSize.trans h.maxSize,
    h'.currentSize.trans h.currentSize, h'.wal.trans h.wal⟩

theorem Relinked.of_arena (t : MemtableInner) {arena' : Arena} {touched : List Nat}
    (h : SameOff t.arena arena' touched) : Relinked t { t with arena := arena' } :=
  ⟨h.records, rfl, rfl, rfl, rfl⟩

theorem held_cons {t : MemtableInner} {f : Frame} {fs : List Frame} {tree : RbTree} :
    t.Held (f :: fs) tree ↔ t.Held fs (f.plug tree) := by
  have hl := linked_plug t.arena (f :: fs) tree
  rw [plug_cons, linked_plug] at hl
  have hr : rootOf (f :: fs) tree.root = rootOf fs (f.plug tree).root := by
    rw [Frame.root_plug]; rfl
  constructor
  · intro h
    obtain ⟨hp, hl'⟩ := hl.mpr ⟨h.path, h.linked⟩
    exact ⟨hp, hl', h.root.trans hr, h.nodup⟩
  · intro h
    obtain ⟨hp, hl'⟩ := hl.mp ⟨h.path, h.linked⟩
    exact ⟨hp, hl', h.root.trans hr.symm, h.nodup⟩

/-- The table holds the same tree seen from the root. -/
theorem held_plug {t : MemtableInner} {fs : List Frame} {tree : RbTree} :
    t.Held fs tree ↔ t.Held [] (plug fs tree) := by
  induction fs generalizing tree with
  | nil => rfl
  | cons f fs ih => rw [held_cons, ih, plug_cons]

theorem adopt_linked {arena : Arena} {p : Option Nat} {t : RbTree} (h : Linked arena p t)
    (hnd : t.inorder.Nodup) (q : Nat) :
    ∃ arena', MemtableInner.adopt arena t.root q = some arena' ∧ Linked arena' (some q) t ∧
      SameOff arena arena' t.inorder := by
  cases t with
  | nil => exact ⟨arena, rfl, trivial, SameOff.refl arena⟩
  | node c l i r =>
    obtain ⟨⟨n, hn, hc, hl, hr, hp⟩, hll, hlr⟩ := h
    obtain ⟨arena', hmod, hi, hs⟩ :=
      modify_sameOff (fun m => { m with parent := some q }) hn rfl
    simp only [RbTree.inorder_node, List.nodup_append, List.nodup_cons, List.mem_cons] at hnd
    have hil : ∀ j ∈ l.inorder, j ∉ [i] := fun j hj => by
      simpa using hnd.2.2 j hj i (Or.inl rfl)
    have hir : ∀ j ∈ r.inorder, j ∉ [i] := fun j hj hj' => by
      rw [List.mem_singleton] at hj'
      exact hnd.2.1.1 (hj' ▸ hj)
    exact ⟨arena', hmod, ⟨⟨_, hi, hc, hl, hr, rfl⟩, hll.sameOff hs hil, hlr.sameOff hs hir⟩,
      hs.mono (by simp)⟩

theorem relinkParent_onPath {t : MemtableInner} {fs : List Frame} {n : Nat}
    (h : OnPath t.arena fs (some n)) (hroot : t.rootNode = rootOf fs (some n))
    (hnd : (pathNodes fs).Nodup) (hn : n ∉ pathNodes fs) (r : Nat) :
    ∃ t', t.relinkParent (parentOf fs) n r = some t' ∧ OnPath t'.arena fs (some r) ∧
      t'.rootNode = rootOf fs (some r) ∧ SameOff t.arena t'.arena (pathNodes fs) ∧
      Relinked t t' := by
  cases fs with
  | nil => exact ⟨_, rfl, trivial, rfl, SameOff.refl _, ⟨rfl, rfl, rfl, rfl, rfl⟩⟩
  | cons f fs =>
    obtain ⟨⟨m, hm, hc, hl, hr, hp⟩, hsib, hrest⟩ := h
    obtain ⟨hfs, hfp, _, _, _⟩ := nodup_pathNodes_cons hnd
    rw [mem_pathNodes_cons, not_or, not_or] at hn
    obtain ⟨arena', hmod, hi, hs⟩ := modify_sameOff
      (fun k => if m.left = some n then { k with left := some r } else { k with right := some r })
      hm (by split <;> rfl)
    have hsib' : Linked arena' (some f.idx) f.sibling := hsib.sameOff hs fun j hj hj' => by
      rw [List.mem_singleton] at hj'
      exact hfs (hj' ▸ hj)
    have hrest' : OnPath arena' fs (some f.idx) := hrest.sameOff hs fun j hj hj' => by
      rw [List.mem_singleton] at hj'
      exact hfp (hj' ▸ hj)
    have hs' : SameOff t.arena arena' (pathNodes (f :: fs)) := hs.mono fun j hj => by
      rw [List.mem_singleton] at hj
      exact mem_pathNodes_cons.mpr (Or.inl hj)
    refine ⟨{ t with arena := arena' }, ?_, ⟨?_, hsib', hrest'⟩, hroot, hs',
      Relinked.of_arena t hs⟩
    · simp only [parentOf, MemtableInner.relinkParent, hm, Option.bind_eq_bind, Option.bind_some,
        hmod, Option.pure_def]
    · cases f with
      | left c i s =>
        refine ⟨_, hi, ?_⟩
        rw [if_pos (show m.left = some n from hl)]
        exact ⟨hc, rfl, hr, hp⟩
      | right c i s =>
        have hne : m.left ≠ some n := by
          rw [hl]
          exact fun hs => hn.2.1 (RbTree.mem_of_root hs)
        refine ⟨_, hi, ?_⟩
        rw [if_neg hne]
        exact ⟨hc, hl, rfl, hp⟩

/-- A rotation: the middle subtree is adopted by `n`, `r` takes `n`'s place on the path, and `n`
goes below `r`. What the two nodes' own links become is up to the caller. -/
theorem rotate_steps {t : MemtableInner} {fs : List Frame} {n r : Nat} {A B C : RbTree}
    {nn rr nn' : MemtableNode} {p : Option Nat}
    (hpath : OnPath t.arena fs (some n)) (hroot : t.rootNode = rootOf fs (some n))
    (hA : Linked t.arena (some n) A) (hB : Linked t.arena p B) (hC : Linked t.arena (some r) C)
    (hnd : (n :: r :: (A.inorder ++ (B.inorder ++ (C.inorder ++ pathNodes fs)))).Nodup)
    (hn : t.arena[n]? = some nn) (hr : t.arena[r]? = some rr)
    (f g : MemtableNode → MemtableNode) (hf : (f nn).record = nn.record)
    (hfn : f nn = nn') (hg : ∀ m, (g m).record = m.record) :
    ∃ a1 a2 a3 t4 a5 a6, t.arena.modify n f = some a1 ∧
      MemtableInner.adopt a1 B.root n = some a2 ∧
      Arena.modify a2 r ({ · with parent := parentOf fs }) = some a3 ∧
      MemtableInner.relinkParent { t with arena := a3 } (parentOf fs) n r = some t4 ∧
      t4.arena.modify r g = some a5 ∧
      Arena.modify a5 n ({ · with parent := some r }) = some a6 ∧
      a6[n]? = some { nn' with parent := some r } ∧
      a6[r]? = some (g { rr with parent := parentOf fs }) ∧
      OnPath a6 fs (some r) ∧ t4.rootNode = rootOf fs (some r) ∧
      Linked a6 (some n) A ∧ Linked a6 (some n) B ∧ Linked a6 (some r) C ∧
      Relinked t { t4 with arena := a6 } := by
  subst hfn
  simp only [List.nodup_cons, List.mem_cons, List.mem_append, not_or, List.nodup_append] at hnd
  obtain ⟨⟨hnr, hnA, hnB, hnC, hnP⟩, ⟨hrA, hrB, hrC, hrP⟩, hAnd, ⟨hBnd, ⟨hCnd, hPnd, hCP⟩, hBCP⟩,
    hABCP⟩ := hnd
  obtain ⟨a1, h1, hn1, hs1⟩ := modify_sameOff f hn hf
  have hB1 : Linked a1 p B := hB.sameOff hs1 fun j hj hj' => by
    rw [List.mem_singleton] at hj'
    exact hnB (hj' ▸ hj)
  obtain ⟨a2, h2, hB2, hs2⟩ := adopt_linked hB1 hBnd n
  have hr2 : a2[r]? = some rr := by
    rw [hs2.nodes r hrB, hs1.nodes r (by simpa using Ne.symm hnr), hr]
  obtain ⟨a3, h3, hr3, hs3⟩ :=
    modify_sameOff (fun m => { m with parent := parentOf fs }) hr2 rfl
  have hs13 := (hs1.trans hs2).trans hs3
  have hpath3 : OnPath a3 fs (some n) := hpath.sameOff hs13 fun j hj hj' => by
    simp only [List.mem_append, List.mem_singleton] at hj'
    rcases hj' with (rfl | hj') | rfl
    · exact hnP hj
    · exact hBCP j hj' j (Or.inr hj) rfl
    · exact hrP hj
  obtain ⟨t4, h4, hpath4, hroot4, hs4, hrel4⟩ := relinkParent_onPath
    (t := { t with arena := a3 }) hpath3 hroot hPnd hnP r
  have hr4 : t4.arena[r]? = some { rr with parent := parentOf fs } := by
    rw [hs4.nodes r hrP]
    exact hr3
  obtain ⟨a5, h5, hr5, hs5⟩ := modify_sameOff g hr4 (hg _)
  have hn5 : a5[n]? = some (f nn) := by
    rw [hs5.nodes n (by simpa using hnr), hs4.nodes n hnP]
    show a3[n]? = _
    rw [hs3.nodes n (by simpa using hnr), hs2.nodes n hnB, hn1]
  obtain ⟨a6, h6, hn6, hs6⟩ := modify_sameOff (fun m => { m with parent := some r }) hn5 rfl
  have hs46 := (hs4.trans hs5).trans hs6
  have hs16 := hs13.trans hs46
  have hmem : ∀ j, j ∈ ([n] ++ B.inorder ++ [r]) ++ (pathNodes fs ++ [r] ++ [n]) →
      j = n ∨ j = r ∨ j ∈ B.inorder ∨ j ∈ pathNodes fs := by
    intro j hj
    simp only [List.mem_append, List.mem_singleton] at hj
    tauto
  refine ⟨a1, a2, a3, t4, a5, a6, h1, h2, h3, h4, h5, h6, hn6, ?_, ?_, hroot4, ?_, ?_, ?_, ?_⟩
  · rw [hs6.nodes r (by simpa using Ne.symm hnr), hr5]
  · refine hpath4.sameOff (hs5.trans hs6) fun j hj hj' => ?_
    simp only [List.mem_append, List.mem_singleton] at hj'
    rcases hj' with rfl | rfl
    · exact hrP hj
    · exact hnP hj
  · refine hA.sameOff hs16 fun j hj hj' => ?_
    rcases hmem j hj' with rfl | rfl | hj' | hj'
    · exact hnA hj
    · exact hrA hj
    · exact hABCP j hj j (Or.inl hj') rfl
    · exact hABCP j hj j (Or.inr (Or.inr hj')) rfl
  · refine hB2.sameOff (hs3.trans hs46) fun j hj hj' => ?_
    simp only [List.mem_append, List.mem_singleton] at hj'
    rcases hj' with rfl | (hj' | rfl) | rfl
    · exact hrB hj
    · exact hBCP j hj j (Or.inr hj') rfl
    · exact hrB hj
    · exact hnB hj
  · refine hC.sameOff hs16 fun j hj hj' => ?_
    rcases hmem j hj' with rfl | rfl | hj' | hj'
    · exact hnC hj
    · exact hrC hj
    · exact hBCP j hj' j (Or.inl hj) rfl
    · exact hCP j hj j hj' rfl
  · have hrel := (Relinked.of_arena t hs13).trans hrel4
    exact hrel.trans (Relinked.of_arena t4 (hs5.trans hs6))

theorem leftRotate_held {t : MemtableInner} {fs : List Frame} {cn cr : Color} {n r : Nat}
    {A B C : RbTree} (h : t.Held fs (.node cn A n (.node cr B r C))) :
    ∃ t', t.leftRotate n = some t' ∧ t'.Held fs (.node cr (.node cn A n B) r C) ∧
      Relinked t t' := by
  obtain ⟨hpath, ⟨⟨nn, hn, hnc, hnl, hnr, hnp⟩, hA, ⟨rr, hr, hrc, hrl, hrr, hrp⟩, hB, hC⟩, hroot,
    hnd⟩ := h
  have hnd' : (n :: r :: (A.inorder ++ (B.inorder ++ (C.inorder ++ pathNodes fs)))).Nodup := by
    refine List.Perm.nodup ?_ hnd
    rw [RedBlack.inorder_plug, pathNodes, List.perm_iff_count]
    intro a
    simp only [RbTree.inorder_node, List.count_append, List.count_cons]
    omega
  obtain ⟨a1, a2, a3, t4, a5, a6, h1, h2, h3, h4, h5, h6, hn6, hr6, hpath6, hroot6, hA6, hB6, hC6,
    hrel⟩ := rotate_steps hpath hroot hA hB hC hnd' hn hr
      ({ · with right := B.root }) ({ · with left := some n }) rfl rfl (fun _ => rfl)
  refine ⟨{ t4 with arena := a6 }, ?_, ⟨hpath6, ⟨⟨_, hr6, hrc, rfl, hrr, rfl⟩,
    ⟨⟨_, hn6, hnc, hnl, rfl, rfl⟩, hA6, hB6⟩, hC6⟩, hroot6, ?_⟩, hrel⟩
  · simp only [MemtableInner.leftRotate, hn, hnr, RbTree.root_node, hr, Option.bind_eq_bind,
      Option.bind_some, hrl, h1, h2, hnp, h3, h4, h5, h6, Option.pure_def]
  · rw [RedBlack.inorder_plug] at hnd ⊢
    simpa using hnd

theorem rightRotate_held {t : MemtableInner} {fs : List Frame} {cn cl : Color} {n l : Nat}
    {A B C : RbTree} (h : t.Held fs (.node cn (.node cl C l B) n A)) :
    ∃ t', t.rightRotate n = some t' ∧ t'.Held fs (.node cl C l (.node cn B n A)) ∧
      Relinked t t' := by
  obtain ⟨hpath, ⟨⟨nn, hn, hnc, hnl, hnr, hnp⟩, ⟨⟨ll, hl, hlc, hll, hlr, hlp⟩, hC, hB⟩, hA⟩, hroot,
    hnd⟩ := h
  have hnd' : (n :: l :: (A.inorder ++ (B.inorder ++ (C.inorder ++ pathNodes fs)))).Nodup := by
    refine List.Perm.nodup ?_ hnd
    rw [RedBlack.inorder_plug, pathNodes, List.perm_iff_count]
    intro a
    simp only [RbTree.inorder_node, List.count_append, List.count_cons]
    omega
  obtain ⟨a1, a2, a3, t4, a5, a6, h1, h2, h3, h4, h5, h6, hn6, hl6, hpath6, hroot6, hA6, hB6, hC6,
    hrel⟩ := rotate_steps hpath hroot hA hB hC hnd' hn hl
      ({ · with left := B.root }) ({ · with right := some n }) rfl rfl (fun _ => rfl)
  refine ⟨{ t4 with arena := a6 }, ?_, ⟨hpath6, ⟨⟨_, hl6, hlc, hll, rfl, rfl⟩, hC6,
    ⟨⟨_, hn6, hnc, rfl, hnr, rfl⟩, hB6, hA6⟩⟩, hroot6, ?_⟩, hrel⟩
  · simp only [MemtableInner.rightRotate, hn, hnl, RbTree.root_node, hl, Option.bind_eq_bind,
      Option.bind_some, hlr, h1, h2, hnp, h3, h4, h5, h6, Option.pure_def]
  · rw [RedBlack.inorder_plug] at hnd ⊢
    simpa using hnd

/-! ## The fix-up -/

/-- Recolouring the node in the hole. -/
theorem recolor_held {t : MemtableInner} {fs : List Frame} {tree : RbTree} {i : Nat}
    (h : t.Held fs tree) (hi : tree.root = some i) (c : Color) :
    ∃ arena', t.arena.modify i (.colored c) = some arena' ∧
      ({ t with arena := arena' } : MemtableInner).Held fs (tree.withColor c) ∧
      Relinked t { t with arena := arena' } := by
  cases tree with
  | nil => cases hi
  | node c' l j r =>
    cases hi
    obtain ⟨hpath, ⟨⟨n, hn, hnc, hnl, hnr, hnp⟩, hl, hr⟩, hroot, hnd⟩ := h
    obtain ⟨arena', hmod, hi', hs⟩ := modify_sameOff (MemtableNode.colored c) hn rfl
    obtain ⟨htn, _, hdisj⟩ := nodup_plug.mp hnd
    simp only [RbTree.inorder_node, List.nodup_append, List.nodup_cons, List.mem_append,
      List.mem_cons] at htn hdisj
    refine ⟨arena', hmod, ⟨?_, ⟨⟨_, hi', rfl, hnl, hnr, hnp⟩, ?_, ?_⟩, hroot, ?_⟩,
      Relinked.of_arena t hs⟩
    · refine hpath.sameOff hs fun j hj hj' => ?_
      rw [List.mem_singleton] at hj'
      exact hdisj j (Or.inr (Or.inl hj')) hj
    · refine hl.sameOff hs fun j hj hj' => ?_
      exact htn.2.2 j hj j (Or.inl (List.mem_singleton.mp hj')) rfl
    · refine hr.sameOff hs fun j hj hj' => ?_
      rw [List.mem_singleton] at hj'
      exact htn.2.1.1 (hj' ▸ hj)
    · rw [RedBlack.inorder_plug] at hnd ⊢
      exact hnd

theorem blackenRoot_held {t : MemtableInner} {fs : List Frame} {c : Color} {l r : RbTree} {i : Nat}
    (h : t.Held fs (.node c l i r)) :
    ∃ t', t.blackenRoot = some t' ∧ t'.Held [] (plug fs (.node c l i r)).blacken ∧
      Relinked t t' := by
  have h' := held_plug.mp h
  obtain ⟨j, hj⟩ : ∃ j, (plug fs (.node c l i r)).root = some j := by
    rw [RedBlack.root_plug]
    clear h h'
    suffices ∀ hole : Option Nat, hole.isSome → ∃ j, rootOf fs hole = some j from this _ rfl
    induction fs with
    | nil => exact fun hole hs => Option.isSome_iff_exists.mp hs
    | cons f fs ih => exact fun _ _ => ih _ rfl
  obtain ⟨arena', hmod, hheld, hrel⟩ := recolor_held h' hj .black
  refine ⟨_, ?_, hheld, hrel⟩
  simp only [MemtableInner.blackenRoot, h'.root, rootOf, hj, Option.bind_eq_bind,
    Option.bind_some, hmod, Option.pure_def]

/-- The nodes the loop looks at. -/
theorem held_nodes {t : MemtableInner} {p g : Frame} {fs : List Frame} {c : Color} {l r : RbTree}
    {i : Nat} (h : t.Held (p :: g :: fs) (.node c l i r)) :
    ∃ n pn gn, t.arena[i]? = some n ∧ n.parent = some p.idx ∧
      t.arena[p.idx]? = some pn ∧ pn.color = p.color ∧ pn.left = frameLeft p (some i) ∧
      pn.parent = some g.idx ∧
      t.arena[g.idx]? = some gn ∧ gn.left = frameLeft g (some p.idx) ∧
      gn.right = frameRight g (some p.idx) := by
  obtain ⟨⟨⟨pn, hp, hpc, hpl, _, hpp⟩, _, ⟨⟨gn, hg, _, hgl, hgr, _⟩, _⟩⟩,
    ⟨⟨n, hn, _, _, _, hnp⟩, _⟩, _, _⟩ := h
  exact ⟨n, pn, gn, hn, hnp, hp, hpc, hpl, hpp, hg, hgl, hgr⟩

/-- What hangs in a hole is not the sibling. -/
theorem sibling_root_ne {t : MemtableInner} {f : Frame} {fs : List Frame} {tree : RbTree} {i : Nat}
    (h : t.Held (f :: fs) tree) (hi : tree.root = some i) : f.sibling.root ≠ some i := by
  intro hs
  obtain ⟨_, _, hdisj⟩ := nodup_plug.mp h.nodup
  exact hdisj i (RbTree.mem_of_root hi)
    (mem_pathNodes_cons.mpr (Or.inr (Or.inl (RbTree.mem_of_root hs))))

theorem redUncle_held {t : MemtableInner} {p g : Frame} {fs : List Frame} {c : Color} {l r : RbTree}
    {i : Nat} {n : MemtableNode} (h : t.Held (p :: g :: fs) (.node c l i r))
    (hn : t.arena[i]? = some n) :
    t.redUncle n = some (if g.sibling.color = .red then g.sibling.root else none) := by
  obtain ⟨n', pn, gn, hn', hnp, hp, hpc, hpl, hpp, hg, hgl, hgr⟩ := held_nodes h
  cases hn.symm.trans hn'
  have hne := sibling_root_ne (held_cons.mp h) (Frame.root_plug p _)
  have huncle : n.uncle t.arena = some g.sibling.root := by
    simp only [MemtableNode.uncle, hnp, hp, hpp, hg, Option.bind_eq_bind, Option.bind_some,
      Option.pure_def, Option.some.injEq]
    cases g with
    | left c j s => rw [if_pos (show gn.left = some p.idx from hgl), hgr]; rfl
    | right c j s => rw [if_neg fun hl => hne (hgl.symm.trans hl), hgl]; rfl
  simp only [MemtableInner.redUncle, huncle, Option.bind_eq_bind, Option.bind_some]
  have hsib : Linked t.arena (some g.idx) g.sibling := h.path.2.2.2.1
  revert hsib
  cases g.sibling with
  | nil => simp
  | node sc sl j sr =>
    rintro ⟨⟨m, hm, hmc, _⟩, _⟩
    simp only [RbTree.root_node, hm, hmc, RbTree.color_node, Option.bind_some, Option.pure_def]
    rfl

theorem redUncle_black {t : MemtableInner} {p g : Frame} {fs : List Frame} {c : Color}
    {l r : RbTree} {i : Nat} {n : MemtableNode} (h : t.Held (p :: g :: fs) (.node c l i r))
    (hn : t.arena[i]? = some n) (hg : g.sibling.color ≠ .red) : t.redUncle n = some none := by
  rw [redUncle_held h hn, if_neg hg]

theorem insertRecolor_held {t : MemtableInner} {p g : Frame} {fs : List Frame} {tree : RbTree}
    (h : t.Held (p :: g :: fs) tree) :
    ∃ t', t.insertRecolor p.idx g.idx = some t' ∧
      t'.Held fs ((g.recolor .red).plug ((p.recolor .black).plug tree)) ∧ Relinked t t' := by
  obtain ⟨a1, h1, hheld1, hrel1⟩ := recolor_held (held_cons.mp h) (Frame.root_plug p _) .black
  rw [← Frame.plug_recolor, held_cons] at hheld1
  obtain ⟨a2, h2, hheld2, hrel2⟩ := recolor_held hheld1 (Frame.root_plug g _) .red
  rw [← Frame.plug_recolor] at hheld2
  refine ⟨_, ?_, hheld2, hrel1.trans hrel2⟩
  simp only [MemtableInner.insertRecolor, h1, h2, Option.bind_eq_bind, Option.bind_some,
    Option.pure_def]

/-- The loop when the uncle is red. -/
theorem recolorUncle_held {t : MemtableInner} {p g : Frame} {fs : List Frame} {tree : RbTree}
    {u : Nat} (h : t.Held (p :: g :: fs) tree) (hu : g.sibling.root = some u) :
    ∃ a1 a2 a3, t.arena.modify u (.colored .black) = some a1 ∧
      Arena.modify a1 p.idx (.colored .black) = some a2 ∧
      Arena.modify a2 g.idx (.colored .red) = some a3 ∧
      ({ t with arena := a3 } : MemtableInner).Held fs
        ((g.recolor .red |>.withSibling g.sibling.blacken).plug ((p.recolor .black).plug tree)) ∧
      Relinked t { t with arena := a3 } := by
  have h0 : t.Held (g.flip (p.plug tree) :: fs) g.sibling := by
    rw [held_cons, Frame.plug_flip, ← held_cons, ← held_cons]
    exact h
  obtain ⟨a1, h1, hheld1, hrel1⟩ := recolor_held h0 hu .black
  rw [held_cons, Frame.flip_plug_withSibling, ← held_cons] at hheld1
  obtain ⟨a2, h2, hheld2, hrel2⟩ := recolor_held hheld1 (Frame.root_plug p _) .black
  rw [← Frame.plug_recolor, held_cons] at hheld2
  have hg : ((g.withSibling g.sibling.blacken).plug ((p.recolor .black).plug tree)).root =
      some g.idx := by
    rw [Frame.root_plug]
    cases g <;> rfl
  obtain ⟨a3, h3, hheld3, hrel3⟩ := recolor_held hheld2 hg .red
  rw [← Frame.plug_recolor] at hheld3
  refine ⟨a1, a2, a3, h1, h2, h3, ?_, (hrel1.trans hrel2).trans hrel3⟩
  cases g <;> exact hheld3

/-- The node and its parent are both left children: one rotation ends the loop. -/
theorem insertFixTree_leftLeft {t : MemtableInner} {pi gi i : Nat} {gc : Color}
    {ps gs l r : RbTree} {fs : List Frame}
    (h : t.Held (.left .red pi ps :: .left gc gi gs :: fs) (.node .red l i r))
    (hg : gs.color ≠ .red) (fuel : Nat) :
    ∃ t', MemtableInner.insertFixTree (fuel + 1) t i = some t' ∧
      t'.Held [] (plug fs (.node .black (.node .red l i r) pi (.node .red ps gi gs))).blacken ∧
      Relinked t t' := by
  obtain ⟨n, pn, gn, hn, hnp, hp, hpc, hpl, hpp, hgn, hgl, _⟩ := held_nodes h
  have huncle := redUncle_black h hn hg
  obtain ⟨t1, h1, hheld1, hrel1⟩ := insertRecolor_held h
  obtain ⟨t2, h2, hheld2, hrel2⟩ := rightRotate_held hheld1
  obtain ⟨t3, h3, hheld3, hrel3⟩ := blackenRoot_held hheld2
  refine ⟨t3, ?_, hheld3, (hrel1.trans hrel2).trans hrel3⟩
  have hdir : deriveRotationDirection gn.left pi pn.left i = (.outer, .right) := by
    simp [hgl, hpl, frameLeft, Frame.idx, deriveRotationDirection, childType, deriveOuterRotation]
  simp only [Frame.idx, Frame.color] at *
  simp only [MemtableInner.insertFixTree, hn, hnp, hp, hpc, hpp, huncle, hgn, hdir, h1, h2,
    h3, Option.bind_eq_bind, Option.bind_some, reduceCtorEq, ↓reduceIte]

/-- The mirror case. -/
theorem insertFixTree_rightRight {t : MemtableInner} {pi gi i : Nat} {gc : Color}
    {ps gs l r : RbTree} {fs : List Frame}
    (h : t.Held (.right .red pi ps :: .right gc gi gs :: fs) (.node .red l i r))
    (hg : gs.color ≠ .red) (fuel : Nat) :
    ∃ t', MemtableInner.insertFixTree (fuel + 1) t i = some t' ∧
      t'.Held [] (plug fs (.node .black (.node .red gs gi ps) pi (.node .red l i r))).blacken ∧
      Relinked t t' := by
  obtain ⟨n, pn, gn, hn, hnp, hp, hpc, hpl, hpp, hgn, hgl, _⟩ := held_nodes h
  have huncle := redUncle_black h hn hg
  have hne : gs.root ≠ some pi := sibling_root_ne (held_cons.mp h) rfl
  have hne' : ps.root ≠ some i := sibling_root_ne h rfl
  obtain ⟨t1, h1, hheld1, hrel1⟩ := insertRecolor_held h
  obtain ⟨t2, h2, hheld2, hrel2⟩ := leftRotate_held hheld1
  obtain ⟨t3, h3, hheld3, hrel3⟩ := blackenRoot_held hheld2
  refine ⟨t3, ?_, hheld3, (hrel1.trans hrel2).trans hrel3⟩
  have hdir : deriveRotationDirection gn.left pi pn.left i = (.outer, .left) := by
    simp [hgl, hpl, frameLeft, deriveRotationDirection, childType, deriveOuterRotation, hne, hne']
  simp only [Frame.idx, Frame.color] at *
  simp only [MemtableInner.insertFixTree, hn, hnp, hp, hpc, hpp, huncle, hgn, hdir, h1, h2,
    h3, Option.bind_eq_bind, Option.bind_some, reduceCtorEq, ↓reduceIte]

/-- A right child of a left child: a rotation below leads to the outer case. -/
theorem insertFixTree_leftRight {t : MemtableInner} {pi gi i : Nat} {gc : Color}
    {ps gs l r : RbTree} {fs : List Frame}
    (h : t.Held (.right .red pi ps :: .left gc gi gs :: fs) (.node .red l i r))
    (hg : gs.color ≠ .red) (fuel : Nat) :
    ∃ t', MemtableInner.insertFixTree (fuel + 2) t i = some t' ∧
      t'.Held [] (plug fs (.node .black (.node .red ps pi l) i (.node .red r gi gs))).blacken ∧
      Relinked t t' := by
  obtain ⟨n, pn, gn, hn, hnp, hp, hpc, hpl, hpp, hgn, hgl, _⟩ := held_nodes h
  have huncle := redUncle_black h hn hg
  have hne : ps.root ≠ some i := sibling_root_ne h rfl
  obtain ⟨t1, h1, hheld1, hrel1⟩ := leftRotate_held (held_cons.mp h)
  have hheld1' : t1.Held (.left .red i r :: .left gc gi gs :: fs) (.node .red ps pi l) :=
    held_cons.mpr hheld1
  obtain ⟨t2, h2, hheld2, hrel2⟩ := insertFixTree_leftLeft hheld1' hg fuel
  refine ⟨t2, ?_, hheld2, hrel1.trans hrel2⟩
  have hdir : deriveRotationDirection gn.left pi pn.left i = (.inner, .left) := by
    simp [hgl, hpl, frameLeft, Frame.idx, deriveRotationDirection, childType, deriveInnerRotation,
      hne]
  simp only [Frame.idx, Frame.color] at *
  rw [MemtableInner.insertFixTree]
  simp only [hn, hnp, hp, hpc, hpp, huncle, hgn, hdir, h1, h2,
    Option.bind_eq_bind, Option.bind_some, reduceCtorEq, ↓reduceIte]

theorem insertFixTree_rightLeft {t : MemtableInner} {pi gi i : Nat} {gc : Color}
    {ps gs l r : RbTree} {fs : List Frame}
    (h : t.Held (.left .red pi ps :: .right gc gi gs :: fs) (.node .red l i r))
    (hg : gs.color ≠ .red) (fuel : Nat) :
    ∃ t', MemtableInner.insertFixTree (fuel + 2) t i = some t' ∧
      t'.Held [] (plug fs (.node .black (.node .red gs gi l) i (.node .red r pi ps))).blacken ∧
      Relinked t t' := by
  obtain ⟨n, pn, gn, hn, hnp, hp, hpc, hpl, hpp, hgn, hgl, _⟩ := held_nodes h
  have huncle := redUncle_black h hn hg
  have hne : gs.root ≠ some pi := sibling_root_ne (held_cons.mp h) rfl
  obtain ⟨t1, h1, hheld1, hrel1⟩ := rightRotate_held (held_cons.mp h)
  have hheld1' : t1.Held (.right .red i l :: .right gc gi gs :: fs) (.node .red r pi ps) :=
    held_cons.mpr hheld1
  obtain ⟨t2, h2, hheld2, hrel2⟩ := insertFixTree_rightRight hheld1' hg fuel
  refine ⟨t2, ?_, hheld2, hrel1.trans hrel2⟩
  have hdir : deriveRotationDirection gn.left pi pn.left i = (.inner, .right) := by
    simp [hgl, hpl, frameLeft, deriveRotationDirection, childType, deriveInnerRotation, hne]
  simp only [Frame.idx, Frame.color] at *
  rw [MemtableInner.insertFixTree]
  simp only [hn, hnp, hp, hpc, hpp, huncle, hgn, hdir, h1, h2,
    Option.bind_eq_bind, Option.bind_some, reduceCtorEq, ↓reduceIte]

/-- `insert_fix_tree` computes the fix-up and turns the root black. -/
theorem insertFixTree_held {fuel : Nat} {t : MemtableInner} {fs : List Frame} {l r : RbTree}
    {i : Nat} (h : t.Held fs (.node .red l i r)) (hfuel : fs.length < fuel)
    (hroot : fs ≠ [] → (plug fs (.node .red l i r)).color = .black) :
    ∃ t', MemtableInner.insertFixTree fuel t i = some t' ∧
      t'.Held [] (fix fs (.node .red l i r)).blacken ∧ Relinked t t' := by
  induction fuel generalizing t fs l i r with
  | zero => exact absurd hfuel (Nat.not_lt_zero _)
  | succ fuel ih =>
    match fs, h, hfuel, hroot with
    | [], h, _, _ =>
      obtain ⟨⟨n, hn, _, _, _, hnp⟩, _⟩ := h.linked
      obtain ⟨t', h1, hheld, hrel⟩ := blackenRoot_held h
      refine ⟨t', ?_, hheld, hrel⟩
      simp only [MemtableInner.insertFixTree, hn, hnp, parentOf, h1, Option.bind_eq_bind,
        Option.bind_some]
    | [p], h, _, hroot =>
      obtain ⟨⟨n, hn, _, _, _, hnp⟩, _⟩ := h.linked
      obtain ⟨⟨pn, hp, hpc, _, _, _⟩, _⟩ := h.path
      have hblack : p.color = .black := by
        rw [← Frame.color_plug p (.node .red l i r)]
        exact hroot (by simp)
      obtain ⟨t', h1, hheld, hrel⟩ := blackenRoot_held h
      refine ⟨t', ?_, hheld, hrel⟩
      simp only [MemtableInner.insertFixTree, hn, hnp, parentOf, hp, hpc, hblack, h1,
        Option.bind_eq_bind, Option.bind_some, ↓reduceIte]
    | p :: g :: fs, h, hfuel, hroot =>
      obtain ⟨n, pn, gn, hn, hnp, hp, hpc, hpl, hpp, hgn, hgl, _⟩ := held_nodes h
      rw [fix]
      by_cases hblack : p.color = .black
      · obtain ⟨t', h1, hheld, hrel⟩ := blackenRoot_held h
        rw [if_pos hblack]
        refine ⟨t', ?_, hheld, hrel⟩
        simp only [MemtableInner.insertFixTree, hn, hnp, hp, hpc, hblack, h1,
          Option.bind_eq_bind, Option.bind_some, ↓reduceIte]
      rw [if_neg hblack]
      by_cases hred : g.sibling.color = .red
      · -- A red uncle: go on from the grandparent.
        rw [if_pos hred]
        obtain ⟨u, hu⟩ : ∃ u, g.sibling.root = some u := by
          cases hs : g.sibling with
          | nil => rw [hs] at hred; cases hred
          | node c l j r => exact ⟨j, rfl⟩
        obtain ⟨a1, a2, a3, h1, h2, h3, hheld, hrel⟩ := recolorUncle_held h hu
        have hnode : ∃ l' r', (g.recolor .red |>.withSibling g.sibling.blacken).plug
            ((p.recolor .black).plug (.node .red l i r)) = .node .red l' g.idx r' := by
          cases g <;> exact ⟨_, _, rfl⟩
        obtain ⟨l', r', hnode⟩ := hnode
        rw [hnode] at hheld ⊢
        have hroot' : fs ≠ [] → (plug fs (.node .red l' g.idx r')).color = .black := by
          intro hne
          obtain ⟨f, fs, rfl⟩ := List.exists_cons_of_ne_nil hne
          rw [← hroot (by simp), plug_cons, plug_cons]
          exact color_plug_cons f fs _ _
        obtain ⟨t', h4, hheld', hrel'⟩ := ih hheld (by simp at hfuel; omega) hroot'
        refine ⟨t', ?_, hheld', hrel.trans hrel'⟩
        have huncle := redUncle_held h hn
        rw [if_pos hred, hu] at huncle
        simp only [MemtableInner.insertFixTree, hn, hnp, hp, hpc, hpp, huncle, h1, h2, h3, h4,
          Option.bind_eq_bind, Option.bind_some, if_neg hblack]
      · rw [if_neg hred]
        have hpred : p.color = .red := by
          cases hc : p.color with
          | red => rfl
          | black => exact absurd hc hblack
        obtain ⟨fuel, rfl⟩ : ∃ k, fuel = k + 1 := ⟨fuel - 1, by simp at hfuel; omega⟩
        cases p with
        | left pc pi ps =>
          cases hpred
          cases g with
          | left gc gi gs => exact insertFixTree_leftLeft h hred (fuel + 1)
          | right gc gi gs => exact insertFixTree_rightLeft h hred fuel
        | right pc pi ps =>
          cases hpred
          cases g with
          | left gc gi gs => exact insertFixTree_leftRight h hred fuel
          | right gc gi gs => exact insertFixTree_rightRight h hred (fuel + 1)

end Lsmlite
