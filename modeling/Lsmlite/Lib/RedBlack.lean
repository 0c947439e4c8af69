import Mathlib.Data.List.Perm.Basic
import Mathlib.Order.Lattice
import Mathlib.Tactic.Common

/-!
# Red-black trees with a hole

Coloured trees over node indices, the path from a node to the root as a list of frames
(innermost first), and the insertion fix-up as a function of that path. The fix-up moves nodes
but not their order (`inorder_fix`).
-/

namespace RedBlack

inductive Color where
  | red
  | black
  deriving DecidableEq, Repr

inductive RbTree where
  | nil
  | node (color : Color) (left : RbTree) (idx : Nat) (right : RbTree)
  deriving DecidableEq, Repr

namespace RbTree

def root : RbTree → Option Nat
  | nil => none
  | node _ _ i _ => some i

/-- The colour at the root; a missing node is black. -/
def color : RbTree → Color
  | nil => .black
  | node c _ _ _ => c

/-- The same tree with another colour at its root. -/
def withColor (c : Color) : RbTree → RbTree
  | nil => nil
  | node _ l i r => node c l i r

abbrev blacken (t : RbTree) : RbTree := t.withColor .black

def inorder : RbTree → List Nat
  | nil => []
  | node _ l i r => l.inorder ++ i :: r.inorder

@[simp] theorem root_nil : root nil = none := rfl
@[simp] theorem root_node (c : Color) (l : RbTree) (i : Nat) (r : RbTree) :
    root (node c l i r) = some i := rfl
@[simp] theorem color_nil : color nil = .black := rfl
@[simp] theorem color_node (c : Color) (l : RbTree) (i : Nat) (r : RbTree) :
    color (node c l i r) = c := rfl
@[simp] theorem inorder_nil : inorder nil = [] := rfl
@[simp] theorem inorder_node (c : Color) (l : RbTree) (i : Nat) (r : RbTree) :
    inorder (node c l i r) = l.inorder ++ i :: r.inorder := rfl

@[simp] theorem inorder_withColor (c : Color) (t : RbTree) :
    (t.withColor c).inorder = t.inorder := by cases t <;> rfl
@[simp] theorem root_withColor (c : Color) (t : RbTree) : (t.withColor c).root = t.root := by
  cases t <;> rfl
@[simp] theorem color_blacken (t : RbTree) : t.blacken.color = .black := by cases t <;> rfl

theorem mem_of_root {t : RbTree} {i : Nat} (h : t.root = some i) : i ∈ t.inorder := by
  cases t with
  | nil => cases h
  | node c l j r => cases h; simp

end RbTree

/-- A node with a hole for one of its children. -/
inductive Frame where
  /-- The hole is the left child. -/
  | left (color : Color) (idx : Nat) (sibling : RbTree)
  /-- The hole is the right child. -/
  | right (color : Color) (idx : Nat) (sibling : RbTree)
  deriving DecidableEq, Repr

namespace Frame

def idx : Frame → Nat
  | left _ i _ => i
  | right _ i _ => i

def color : Frame → Color
  | left c _ _ => c
  | right c _ _ => c

def sibling : Frame → RbTree
  | left _ _ s => s
  | right _ _ s => s

def recolor (c : Color) : Frame → Frame
  | left _ i s => left c i s
  | right _ i s => right c i s

/-- The same node with another subtree beside the hole. -/
def withSibling (s : RbTree) : Frame → Frame
  | left c i _ => left c i s
  | right c i _ => right c i s

def plug : Frame → RbTree → RbTree
  | left c i s, t => .node c t i s
  | right c i s, t => .node c s i t

/-- What comes before the hole in order. -/
def before : Frame → List Nat
  | left _ _ _ => []
  | right _ i s => s.inorder ++ [i]

def after : Frame → List Nat
  | left _ i s => i :: s.inorder
  | right _ _ _ => []

theorem inorder_plug (f : Frame) (t : RbTree) :
    (f.plug t).inorder = f.before ++ t.inorder ++ f.after := by
  cases f <;> simp [plug, before, after]

/-- The same node with its other child in the hole. -/
def flip (t : RbTree) : Frame → Frame
  | left c i _ => right c i t
  | right c i _ => left c i t

theorem plug_flip (f : Frame) (t : RbTree) : (f.flip t).plug f.sibling = f.plug t := by
  cases f <;> rfl

theorem plug_recolor (c : Color) (f : Frame) (t : RbTree) :
    (f.recolor c).plug t = (f.plug t).withColor c := by
  cases f <;> rfl

theorem flip_plug_withSibling (f : Frame) (s t : RbTree) :
    (f.flip t).plug s = (f.withSibling s).plug t := by
  cases f <;> rfl

theorem color_plug (f : Frame) (t : RbTree) : (f.plug t).color = f.color := by cases f <;> rfl

theorem root_plug (f : Frame) (t : RbTree) : (f.plug t).root = some f.idx := by cases f <;> rfl

end Frame

/-- The tree with `t` in the hole of the path. -/
def plug : List Frame → RbTree → RbTree
  | [], t => t
  | f :: fs, t => plug fs (f.plug t)

/-- The index of the node the hole hangs from. -/
def parentOf : List Frame → Option Nat
  | [] => none
  | f :: _ => some f.idx

/-- The root of the tree, given the root of what is in the hole. -/
def rootOf : List Frame → Option Nat → Option Nat
  | [], hole => hole
  | f :: fs, _ => rootOf fs (some f.idx)

def before : List Frame → List Nat
  | [] => []
  | f :: fs => before fs ++ f.before

def after : List Frame → List Nat
  | [] => []
  | f :: fs => f.after ++ after fs

@[simp] theorem plug_nil (t : RbTree) : plug [] t = t := rfl
@[simp] theorem plug_cons (f : Frame) (fs : List Frame) (t : RbTree) :
    plug (f :: fs) t = plug fs (f.plug t) := rfl

theorem inorder_plug (fs : List Frame) (t : RbTree) :
    (plug fs t).inorder = before fs ++ t.inorder ++ after fs := by
  induction fs generalizing t with
  | nil => simp [before, after]
  | cons f fs ih => simp [ih, before, after, Frame.inorder_plug]

theorem root_plug (fs : List Frame) (t : RbTree) : (plug fs t).root = rootOf fs t.root := by
  induction fs generalizing t with
  | nil => rfl
  | cons f fs ih => rw [plug_cons, ih, Frame.root_plug]; rfl

/-- Off the root, what is in the hole does not change the root's colour. -/
theorem color_plug_cons (f : Frame) (fs : List Frame) (t u : RbTree) :
    (plug (f :: fs) t).color = (plug (f :: fs) u).color := by
  induction fs generalizing f t u with
  | nil => simp only [plug_cons, plug_nil, Frame.color_plug]
  | cons g fs ih => exact ih g (f.plug t) (f.plug u)

/-- The tree below the grandparent after the rotations: `t` is the red node, `p` its red parent,
`g` its grandparent with a black sibling of `p`. -/
def rotate (p g : Frame) (t : RbTree) : RbTree :=
  match p, g, t with
  | .left _ pi ps, .left _ gi gs, t => .node .black t pi (.node .red ps gi gs)
  | .right _ pi ps, .right _ gi gs, t => .node .black (.node .red gs gi ps) pi t
  | .right _ pi ps, .left _ gi gs, .node _ a i b =>
    .node .black (.node .red ps pi a) i (.node .red b gi gs)
  | .left _ pi ps, .right _ gi gs, .node _ a i b =>
    .node .black (.node .red gs gi a) i (.node .red b pi ps)
  | p, g, .nil => g.plug (p.plug .nil)

/-- The insertion fix-up at a red node `t`. -/
def fix : List Frame → RbTree → RbTree
  | [], t => t
  | [p], t => p.plug t
  | p :: g :: fs, t =>
    if p.color = .black then plug (p :: g :: fs) t
    else if g.sibling.color = .red then
      fix fs ((g.recolor .red |>.withSibling g.sibling.blacken).plug ((p.recolor .black).plug t))
    else plug fs (rotate p g t)

theorem inorder_rotate (p g : Frame) (t : RbTree) :
    (rotate p g t).inorder = (g.plug (p.plug t)).inorder := by
  cases p <;> cases g <;> cases t <;>
    simp [rotate, Frame.plug]

/-- The fix-up keeps the order of the nodes. -/
theorem inorder_fix (fs : List Frame) (t : RbTree) : (fix fs t).inorder = (plug fs t).inorder := by
  induction fs, t using fix.induct with
  | case1 t => rfl
  | case2 p t => rfl
  | case3 p g fs t hp => rw [fix, if_pos hp]
  | case4 p g fs t hp hg ih =>
    rw [fix, if_neg hp, if_pos hg, ih, inorder_plug, plug_cons, plug_cons, inorder_plug]
    congr 2
    cases p <;> cases g <;>
      simp [Frame.recolor, Frame.withSibling, Frame.plug, Frame.sibling]
  | case5 p g fs t hp hg =>
    rw [fix, if_neg hp, if_neg hg, inorder_plug, inorder_rotate, plug_cons, plug_cons, inorder_plug]

/-! ## Search -/

section Search

variable {K : Type} [LinearOrder K]

/-- The path down to `k`, or to where it would hang, by the keys of the nodes. -/
def locate (keyAt : Nat → K) (k : K) : List Frame → RbTree → List Frame × RbTree
  | fs, .nil => (fs, .nil)
  | fs, .node c l i r =>
    if k = keyAt i then (fs, .node c l i r)
    else if k < keyAt i then locate keyAt k (.left c i r :: fs) l
    else locate keyAt k (.right c i l :: fs) r

/-- The search takes nothing out of the tree. -/
theorem plug_locate (keyAt : Nat → K) (k : K) (fs : List Frame) (t : RbTree) :
    plug (locate keyAt k fs t).1 (locate keyAt k fs t).2 = plug fs t := by
  induction t generalizing fs with
  | nil => rfl
  | node c l i r ihl ihr =>
    unfold locate
    split
    · rfl
    · split
      · exact ihl _
      · exact ihr _

/-- The search ends at `k` or at a missing node. -/
theorem locate_found (keyAt : Nat → K) (k : K) (fs : List Frame) (t : RbTree) :
    ∀ i, (locate keyAt k fs t).2.root = some i → keyAt i = k := by
  induction t generalizing fs with
  | nil =>
    intro i hi
    cases hi
  | node c l j r ihl ihr =>
    intro i
    unfold locate
    split
    · rename_i hk
      intro hi
      cases hi
      exact hk.symm
    · split
      · exact ihl _ i
      · exact ihr _ i

/-- In a tree with ascending keys, the search has smaller keys before it and greater ones
behind it. -/
theorem locate_between (keyAt : Nat → K) (k : K) (fs : List Frame) {t : RbTree}
    (hsorted : ((plug fs t).inorder.map keyAt).Pairwise (· < ·))
    (hbefore : ∀ i ∈ before fs, keyAt i < k) (hafter : ∀ i ∈ after fs, k < keyAt i) :
    (∀ i ∈ before (locate keyAt k fs t).1, keyAt i < k) ∧
      ∀ i ∈ after (locate keyAt k fs t).1, k < keyAt i := by
  induction t generalizing fs with
  | nil => exact ⟨hbefore, hafter⟩
  | node c l i r ihl ihr =>
    have hs := hsorted
    rw [inorder_plug] at hs
    simp only [RbTree.inorder_node, List.map_append, List.map_cons, List.pairwise_append,
      List.pairwise_cons, List.mem_append, List.mem_cons, List.mem_map] at hs
    unfold locate
    split
    · exact ⟨hbefore, hafter⟩
    · rename_i hne
      split
      · rename_i hlt
        refine ihl (.left c i r :: fs) hsorted (fun j hj => ?_) (fun j hj => ?_)
        · exact hbefore j (by simpa [before, Frame.before] using hj)
        · simp only [after, Frame.after, List.cons_append, List.mem_cons, List.mem_append] at hj
          rcases hj with rfl | hj | hj
          · exact hlt
          · exact lt_trans hlt (hs.1.2.1.2.1.1 _ ⟨j, hj, rfl⟩)
          · exact hafter j hj
      · rename_i hnlt
        have hgt : keyAt i < k := lt_of_le_of_ne (le_of_not_gt hnlt) (Ne.symm hne)
        refine ihr (.right c i l :: fs) hsorted (fun j hj => ?_) (fun j hj => ?_)
        · simp only [before, Frame.before, List.mem_append, List.mem_singleton] at hj
          rcases hj with hj | hj | rfl
          · exact hbefore j hj
          · exact lt_trans (hs.1.2.1.2.2 _ ⟨j, hj, rfl⟩ _ (Or.inl rfl)) hgt
          · exact hgt
        · exact hafter j (by simpa [after, Frame.after] using hj)

end Search

end RedBlack
