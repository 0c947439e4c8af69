import Lsmlite.Lib.RedBlack
import Mathlib.Algebra.Order.Ring.Nat
import Mathlib.Data.Nat.Log

/-!
# The balance of a red-black tree

No red node has a red child and every way to a missing node passes the same number of black
nodes, so no way is longer than twice the logarithm of the number of nodes. The fix-up of a red
node restores the balance: along the path only the edge above the hole may be red-red.
-/

namespace RedBlack

namespace RbTree

def NoRedRed : RbTree → Prop
  | nil => True
  | node c l _ r => (c = .red → l.color = .black ∧ r.color = .black) ∧ l.NoRedRed ∧ r.NoRedRed

/-- Every way from the root to a missing node passes `h` black nodes. -/
def BlackHeight : RbTree → Nat → Prop
  | nil, h => h = 0
  | node .red l _ r, h => l.BlackHeight h ∧ r.BlackHeight h
  | node .black l _ r, h => ∃ k, h = k + 1 ∧ l.BlackHeight k ∧ r.BlackHeight k

/-- The number of nodes on the longest way down. -/
def depth : RbTree → Nat
  | nil => 0
  | node _ l _ r => max l.depth r.depth + 1

structure Balanced (t : RbTree) (h : Nat) : Prop where
  noRedRed : t.NoRedRed
  blackHeight : t.BlackHeight h

theorem balanced_nil : nil.Balanced 0 := ⟨trivial, rfl⟩

theorem balanced_red {l r : RbTree} {i h : Nat} :
    (node .red l i r).Balanced h ↔
      l.color = .black ∧ r.color = .black ∧ l.Balanced h ∧ r.Balanced h := by
  constructor
  · rintro ⟨⟨hc, hl, hr⟩, hhl, hhr⟩
    exact ⟨(hc rfl).1, (hc rfl).2, ⟨hl, hhl⟩, hr, hhr⟩
  · rintro ⟨hcl, hcr, hl, hr⟩
    exact ⟨⟨fun _ => ⟨hcl, hcr⟩, hl.noRedRed, hr.noRedRed⟩, hl.blackHeight, hr.blackHeight⟩

theorem balanced_black {l r : RbTree} {i h : Nat} :
    (node .black l i r).Balanced h ↔ ∃ k, h = k + 1 ∧ l.Balanced k ∧ r.Balanced k := by
  constructor
  · rintro ⟨⟨_, hl, hr⟩, k, hk, hhl, hhr⟩
    exact ⟨k, hk, ⟨hl, hhl⟩, hr, hhr⟩
  · rintro ⟨k, hk, hl, hr⟩
    refine ⟨⟨fun hc => ?_, hl.noRedRed, hr.noRedRed⟩, k, hk, hl.blackHeight, hr.blackHeight⟩
    cases hc

theorem Balanced.blacken {t : RbTree} {h : Nat} (ht : t.Balanced h) :
    ∃ k, t.blacken.Balanced k := by
  cases t with
  | nil => exact ⟨h, ht⟩
  | node c l i r =>
    cases c with
    | black => exact ⟨h, ht⟩
    | red =>
      obtain ⟨_, _, hl, hr⟩ := balanced_red.mp ht
      exact ⟨h + 1, balanced_black.mpr ⟨h, rfl, hl, hr⟩⟩

/-- A red root adds one node to twice the black height. -/
theorem Balanced.depth_le {t : RbTree} {h : Nat} (ht : t.Balanced h) :
    t.depth ≤ 2 * h + if t.color = .red then 1 else 0 := by
  induction t generalizing h with
  | nil => exact Nat.zero_le _
  | node c l i r ihl ihr =>
    cases c with
    | red =>
      obtain ⟨hcl, hcr, hl, hr⟩ := balanced_red.mp ht
      have hdl := ihl hl
      have hdr := ihr hr
      simp only [hcl, hcr, reduceCtorEq, ↓reduceIte] at hdl hdr
      simp only [depth, color_node, ↓reduceIte]
      omega
    | black =>
      obtain ⟨k, rfl, hl, hr⟩ := balanced_black.mp ht
      have hdl : l.depth ≤ 2 * k + 1 := (ihl hl).trans (by split <;> omega)
      have hdr : r.depth ≤ 2 * k + 1 := (ihr hr).trans (by split <;> omega)
      simp only [depth, color_node, reduceCtorEq, ↓reduceIte]
      omega

theorem Balanced.pow_le {t : RbTree} {h : Nat} (ht : t.Balanced h) :
    2 ^ h ≤ t.inorder.length + 1 := by
  induction t generalizing h with
  | nil =>
    have hh : h = 0 := ht.blackHeight
    subst hh
    exact Nat.le_refl _
  | node c l i r ihl ihr =>
    simp only [inorder_node, List.length_append, List.length_cons]
    cases c with
    | red =>
      obtain ⟨_, _, hl, _⟩ := balanced_red.mp ht
      have := ihl hl
      omega
    | black =>
      obtain ⟨k, rfl, hl, hr⟩ := balanced_black.mp ht
      have hpl := ihl hl
      have hpr := ihr hr
      rw [Nat.pow_succ]
      omega

theorem depth_le_length (t : RbTree) : t.depth ≤ t.inorder.length := by
  induction t with
  | nil => exact Nat.le_refl _
  | node c l i r ihl ihr =>
    simp only [depth, inorder_node, List.length_append, List.length_cons]
    omega

/-- No way down is longer than `2 * log2 (n + 1)`. -/
theorem Balanced.depth_bound {t : RbTree} {h : Nat} (ht : t.Balanced h) (hc : t.color = .black) :
    t.depth ≤ 2 * Nat.log 2 (t.inorder.length + 1) := by
  have hdepth := ht.depth_le
  rw [hc, if_neg (by simp)] at hdepth
  have hlog : h ≤ Nat.log 2 (t.inorder.length + 1) :=
    Nat.le_log_of_pow_le (by decide) ht.pow_le
  omega

end RbTree

open RbTree

/-- The black height of what a frame makes of a hole of height `h`. -/
def Frame.heightOver (f : Frame) (h : Nat) : Nat :=
  match f.color with
  | .red => h
  | .black => h + 1

/-- A frame takes a tree of colour `c` and height `h` into its hole. -/
structure Frame.Takes (f : Frame) (c : Color) (h : Nat) : Prop where
  sibling : f.sibling.Balanced h
  red : f.color = .red → c = .black ∧ f.sibling.color = .black

theorem Frame.balanced_plug {f : Frame} {t : RbTree} {h : Nat} :
    (f.plug t).Balanced (f.heightOver h) ↔ f.Takes t.color h ∧ t.Balanced h := by
  constructor
  · intro ht
    cases f with
    | left c i s =>
      cases c with
      | red =>
        obtain ⟨hct, hcs, ht, hs⟩ := balanced_red.mp ht
        exact ⟨⟨hs, fun _ => ⟨hct, hcs⟩⟩, ht⟩
      | black =>
        obtain ⟨k, hk, ht, hs⟩ := balanced_black.mp ht
        cases hk
        exact ⟨⟨hs, fun hc => by cases hc⟩, ht⟩
    | right c i s =>
      cases c with
      | red =>
        obtain ⟨hcs, hct, hs, ht⟩ := balanced_red.mp ht
        exact ⟨⟨hs, fun _ => ⟨hct, hcs⟩⟩, ht⟩
      | black =>
        obtain ⟨k, hk, hs, ht⟩ := balanced_black.mp ht
        cases hk
        exact ⟨⟨hs, fun hc => by cases hc⟩, ht⟩
  · rintro ⟨⟨hs, hred⟩, ht⟩
    cases f with
    | left c i s =>
      cases c with
      | red => exact balanced_red.mpr ⟨(hred rfl).1, (hred rfl).2, ht, hs⟩
      | black => exact balanced_black.mpr ⟨h, rfl, ht, hs⟩
    | right c i s =>
      cases c with
      | red => exact balanced_red.mpr ⟨(hred rfl).2, (hred rfl).1, hs, ht⟩
      | black => exact balanced_black.mpr ⟨h, rfl, hs, ht⟩

/-- A path takes a tree of colour `c` and height `h` into its hole. -/
def Takes : List Frame → Color → Nat → Prop
  | [], _, _ => True
  | f :: fs, c, h => f.Takes c h ∧ Takes fs f.color (f.heightOver h)

/-- A balanced tree is a path and a balanced tree that the path takes. -/
theorem takes_of_balanced {fs : List Frame} {t : RbTree} {h : Nat} (ht : (plug fs t).Balanced h) :
    ∃ k, Takes fs t.color k ∧ t.Balanced k := by
  induction fs generalizing t with
  | nil => exact ⟨h, trivial, ht⟩
  | cons f fs ih =>
    obtain ⟨k, hfs, hf⟩ := ih ht
    rw [Frame.color_plug] at hfs
    obtain ⟨j, rfl⟩ : ∃ j, k = f.heightOver j := by
      cases f with
      | left c i s =>
        cases c with
        | red => exact ⟨k, rfl⟩
        | black =>
          obtain ⟨j, hj, _⟩ := balanced_black.mp hf
          exact ⟨j, hj⟩
      | right c i s =>
        cases c with
        | red => exact ⟨k, rfl⟩
        | black =>
          obtain ⟨j, hj, _⟩ := balanced_black.mp hf
          exact ⟨j, hj⟩
    obtain ⟨htakes, ht'⟩ := Frame.balanced_plug.mp hf
    exact ⟨j, ⟨htakes, hfs⟩, ht'⟩

theorem balanced_plug {fs : List Frame} {t : RbTree} {h : Nat} (hfs : Takes fs t.color h)
    (ht : t.Balanced h) : ∃ k, (plug fs t).Balanced k := by
  induction fs generalizing t h with
  | nil => exact ⟨h, ht⟩
  | cons f fs ih =>
    refine ih (h := f.heightOver h) ?_ (Frame.balanced_plug.mpr ⟨hfs.1, ht⟩)
    rw [Frame.color_plug]
    exact hfs.2

/-- What the rotations make of the grandparent's tree is black and as high. -/
theorem balanced_rotate {p g : Frame} {t : RbTree} {h : Nat} (hp : p.Takes .black h)
    (hpc : p.color = .red) (hg : g.sibling.Balanced h) (hgc : g.sibling.color = .black)
    (ht : t.Balanced h) (htc : t.color = .red) :
    (rotate p g t).Balanced (h + 1) ∧ (rotate p g t).color = .black := by
  have hps := hp.sibling
  have hpsc := (hp.red hpc).2
  cases t with
  | nil => cases htc
  | node c a i b =>
    cases htc
    obtain ⟨hca, hcb, ha, hb⟩ := balanced_red.mp ht
    cases p with
    | left pc pi ps =>
      cases g with
      | left gc gi gs =>
        refine ⟨balanced_black.mpr ⟨h, rfl, ht, balanced_red.mpr ⟨hpsc, hgc, hps, hg⟩⟩, rfl⟩
      | right gc gi gs =>
        refine ⟨balanced_black.mpr ⟨h, rfl, balanced_red.mpr ⟨hgc, hca, hg, ha⟩,
          balanced_red.mpr ⟨hcb, hpsc, hb, hps⟩⟩, rfl⟩
    | right pc pi ps =>
      cases g with
      | left gc gi gs =>
        refine ⟨balanced_black.mpr ⟨h, rfl, balanced_red.mpr ⟨hpsc, hca, hps, ha⟩,
          balanced_red.mpr ⟨hcb, hgc, hb, hg⟩⟩, rfl⟩
      | right gc gi gs =>
        refine ⟨balanced_black.mpr ⟨h, rfl, balanced_red.mpr ⟨hgc, hpsc, hg, hps⟩, ht⟩, rfl⟩

/-- Above a red parent there is a black grandparent. -/
theorem Takes.red_parent {p g : Frame} {fs : List Frame} {h : Nat}
    (hfs : Takes (p :: g :: fs) .black h) (hpc : p.color ≠ .black) :
    p.color = .red ∧ p.Takes .black h ∧ g.Takes .red h ∧ Takes fs .black (h + 1) := by
  obtain ⟨hp, hg, hrest⟩ := hfs
  have hpred : p.color = .red := by
    cases hc : p.color with
    | red => rfl
    | black => exact absurd hc hpc
  have hgc : g.color = .black := by
    cases hc : g.color with
    | black => rfl
    | red =>
      have hblack := (hg.red hc).1
      rw [hpred] at hblack
      cases hblack
  have hover : p.heightOver h = h := by simp only [Frame.heightOver, hpred]
  have hover' : g.heightOver h = h + 1 := by simp only [Frame.heightOver, hgc]
  rw [hover, hpred] at hg
  rw [hover, hover', hgc] at hrest
  exact ⟨hpred, hp, hg, hrest⟩

/-- The fix-up of a red node in a hole for a black one restores the balance. -/
theorem balanced_fix {fs : List Frame} {t : RbTree} {h : Nat} (hfs : Takes fs .black h)
    (ht : t.Balanced h) (htc : t.color = .red) (hroot : fs ≠ [] → (plug fs t).color = .black) :
    ∃ k, (fix fs t).blacken.Balanced k := by
  induction fs, t using fix.induct generalizing h with
  | case1 t => exact ht.blacken
  | case2 p t =>
    have hpc : p.color = .black := by
      rw [← Frame.color_plug p t]
      exact hroot (by simp)
    have htakes : p.Takes t.color h := ⟨hfs.1.sibling, fun hc => by rw [hpc] at hc; cases hc⟩
    exact (Frame.balanced_plug.mpr ⟨htakes, ht⟩).blacken
  | case3 p g fs t hpc =>
    rw [fix, if_pos hpc]
    have htakes : p.Takes t.color h := ⟨hfs.1.sibling, fun hc => by rw [hpc] at hc; cases hc⟩
    obtain ⟨k, hk⟩ := balanced_plug (show Takes (p :: g :: fs) t.color h from ⟨htakes, hfs.2⟩) ht
    exact hk.blacken
  | case4 p g fs t hpc hred ih =>
    rw [fix, if_neg hpc, if_pos hred]
    obtain ⟨_, hp, hg, hrest⟩ := hfs.red_parent hpc
    have hps := hp.sibling
    -- The grandparent turns red over two black children, as high as before.
    refine ih hrest ?_ ?_ ?_
    · have hpt : ((p.recolor .black).plug t).Balanced (h + 1) := by
        cases p with
        | left c i s => exact balanced_black.mpr ⟨h, rfl, ht, hps⟩
        | right c i s => exact balanced_black.mpr ⟨h, rfl, hps, ht⟩
      have hpb : ((p.recolor .black).plug t).color = .black := by
        cases p <;> rfl
      have hgs : g.sibling.blacken.Balanced (h + 1) := by
        have hs := hg.sibling
        cases hsib : g.sibling with
        | nil =>
          rw [hsib] at hred
          cases hred
        | node c l i r =>
          rw [hsib] at hred hs
          cases hred
          obtain ⟨_, _, hl, hr⟩ := balanced_red.mp hs
          exact balanced_black.mpr ⟨h, rfl, hl, hr⟩
      cases g with
      | left c i s => exact balanced_red.mpr ⟨hpb, color_blacken _, hpt, hgs⟩
      | right c i s => exact balanced_red.mpr ⟨color_blacken _, hpb, hgs, hpt⟩
    · cases g <;> rfl
    · intro hne
      obtain ⟨f, fs, rfl⟩ := List.exists_cons_of_ne_nil hne
      rw [← hroot (by simp), plug_cons, plug_cons]
      exact color_plug_cons f fs _ _
  | case5 p g fs t hpc hred =>
    rw [fix, if_neg hpc, if_neg hred]
    obtain ⟨hpred, hp, hg, hrest⟩ := hfs.red_parent hpc
    have hblack : g.sibling.color = .black := by cases hc : g.sibling.color with
      | red => exact absurd hc hred
      | black => rfl
    obtain ⟨hrot, hrotc⟩ := balanced_rotate hp hpred hg.sibling hblack ht htc
    rw [← hrotc] at hrest
    obtain ⟨k, hk⟩ := balanced_plug hrest hrot
    exact hk.blacken

end RedBlack
