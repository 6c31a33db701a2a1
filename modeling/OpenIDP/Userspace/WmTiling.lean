import OpenIDP.Userspace.WmLayout

/-!
# The leaves share the screen

`layout_recursive` follows the child pointers only, so it lays out every tree of nodes, whatever
their parents and windows are. Halving a size leaves its remainder to the second child, so that
the leaves cover all pixels of the whole, and no pixel twice.

## Main definitions

* `Rect.Partition` — rectangles that have each pixel of the whole once
* `Wm.Shape` — the child pointers form a tree
* `Wm.Replaced` — only positions and sizes of nodes differ

## Main results

* `tileRects_partition` — the parts of the leaves are a partition
* `Wm.layoutRecursive_partition` — the leaves get these parts
-/

namespace OpenIDP.Userspace

open OpenIDP.Math OpenIDP.Process

namespace Rect

/-- Rectangles in a whole that do not overlap and leave no pixel out. -/
structure Partition (parts : List Rect) (whole : Rect) : Prop where
  inside : ∀ r ∈ parts, r.Inside whole
  apart : parts.Pairwise Apart
  cover : ∀ px py, whole.Mem px py → ∃ r ∈ parts, r.Mem px py

/-- A pixel of the whole is in one of its halves. -/
theorem first_or_second {r : Rect} {px py : ℤ} (dir : SplitDir) (h : r.Mem px py) :
    (r.first dir).Mem px py ∨ (r.second dir).Mem px py := by
  obtain ⟨hleft, hright, htop, hbottom⟩ := h
  cases dir with
  | splitH =>
    rcases lt_or_ge py (r.y + r.h.tdiv 2) with hlt | hge
    · exact Or.inl ⟨hleft, hright, htop, hlt⟩
    · exact Or.inr ⟨hleft, hright, hge, by simp only [second]; omega⟩
  | splitV =>
    rcases lt_or_ge px (r.x + r.w.tdiv 2) with hlt | hge
    · exact Or.inl ⟨hleft, hlt, htop, hbottom⟩
    · exact Or.inr ⟨hge, by simp only [second]; omega, htop, hbottom⟩

end Rect

/-- Each pixel of the whole is in the part of a leaf. -/
theorem tileRects_cover {dirs : ℕ → SplitDir} {t : BinTree} {r : Rect} {px py : ℤ}
    (h : r.Mem px py) : ∃ q ∈ tileRects dirs t r, q.2.Mem px py := by
  induction t generalizing r with
  | leaf i => exact ⟨(i, r), List.mem_singleton_self _, h⟩
  | split i a b iha ihb =>
    rcases Rect.first_or_second (dirs i) h with hfirst | hsecond
    · obtain ⟨q, hq, hmem⟩ := iha hfirst
      exact ⟨q, List.mem_append_left _ hq, hmem⟩
    · obtain ⟨q, hq, hmem⟩ := ihb hsecond
      exact ⟨q, List.mem_append_right _ hq, hmem⟩

/-- The parts of the leaves are a partition of the whole. -/
theorem tileRects_partition (dirs : ℕ → SplitDir) (t : BinTree) {r : Rect} (hw : 0 ≤ r.w)
    (hh : 0 ≤ r.h) : Rect.Partition ((tileRects dirs t r).map Prod.snd) r where
  inside := List.forall_mem_map.mpr (tileRects_inside (.refl hw hh))
  apart := List.pairwise_map.mpr (tileRects_disjoint (.refl hw hh))
  cover px py hmem := by
    obtain ⟨q, hq, hmem⟩ := tileRects_cover hmem
    exact ⟨q.2, List.mem_map_of_mem hq, hmem⟩

/-- The part of the screen that a node has. -/
def TreeNode.rect (n : TreeNode) : Rect := ⟨n.x, n.y, n.w, n.h⟩

/-- A node gets a part of the screen. -/
def TreeNode.place (n : TreeNode) (r : Rect) : TreeNode :=
  { n with x := r.x, y := r.y, w := r.w, h := r.h }

namespace Wm

variable {s s' s'' : Wm} {t : BinTree} {r : Rect} {fuel i slot : ℕ}

/-- The child pointers form the tree. -/
def Shape (s : Wm) : BinTree → Prop
  | .leaf i => (s.nodes i).isLeaf = true
  | .split i l r => (s.nodes i).isLeaf = false ∧ (s.nodes i).left = some l.index ∧
      (s.nodes i).right = some r.index ∧ s.Shape l ∧ s.Shape r

/-- Only the positions and sizes of the nodes differ, and what the windows hold. -/
def Replaced (s s' : Wm) : Prop := ∀ i, s'.nodes i = (s.nodes i).place (s'.nodes i).rect

namespace Replaced

theorem trans (h : s.Replaced s') (h' : s'.Replaced s'') : s.Replaced s'' := by
  intro i
  rw [h' i, h i]
  rfl

theorem placeNode (s : Wm) (i : ℕ) (r : Rect) : s.Replaced (s.placeNode i r) := by
  intro j
  by_cases hj : j = i
  · subst hj
    rw [Wm.placeNode, setNode_self]
    rfl
  · rw [Wm.placeNode, setNode_of_ne _ hj]
    rfl

theorem shape (h : s.Replaced s') (hshape : s.Shape t) : s'.Shape t := by
  induction t with
  | leaf i =>
    rw [Shape, h i]
    exact hshape
  | split i l r ihl ihr =>
    obtain ⟨hsplit, hleft, hright, hl, hr⟩ := hshape
    rw [Shape, h i]
    exact ⟨hsplit, hleft, hright, ihl hl, ihr hr⟩

theorem dirs_eq (h : s.Replaced s') : s'.dirs = s.dirs := by
  funext i
  rw [dirs, h i]
  rfl

theorem winOf_eq (h : s.Replaced s') : s'.winOf = s.winOf := by
  funext i
  rw [winOf, h i]
  rfl

end Replaced

/-- The leaves of a tree have got their parts of a rectangle, and so have the windows that belong to
one leaf only. Other nodes and windows are the same. -/
structure Divided (s s' : Wm) (t : BinTree) (r : Rect) : Prop where
  replaced : s.Replaced s'
  leaves : ∀ q ∈ tileRects s.dirs t r, (s'.nodes q.1).rect = q.2
  nodes : ∀ i, i ∉ t.nodes → s'.nodes i = s.nodes i
  placed : ∀ q ∈ tileRects s.dirs t r, ∀ slot, s.winOf q.1 = some slot →
    (∀ j ∈ t.leaves, s.winOf j = some slot → j = q.1) → (s'.windows slot).rect = q.2
  others : ∀ slot, (∀ i ∈ t.leaves, s.winOf i ≠ some slot) → s'.windows slot = s.windows slot

/-- A leaf without a window. -/
theorem layoutRecursive_bare (hleaf : ((s.placeNode i r).nodes i).isLeaf = true)
    (hwin : ((s.placeNode i r).nodes i).win = none) :
    layoutRecursive (fuel + 1) (some i) r.x r.y r.w r.h s = some (s.placeNode i r, []) := by
  rw [placeNode] at hleaf hwin
  rw [layoutRecursive]
  simp only [hleaf, hwin, if_true]
  rfl

/-- A leaf gets the whole, and so does its window. -/
theorem layoutRecursive_divided_leaf (hleaf : (s.nodes i).isLeaf = true) :
    ∃ s' posts, layoutRecursive (fuel + 1) (some i) r.x r.y r.w r.h s = some (s', posts) ∧
      s.Divided s' (.leaf i) r := by
  have hreplaced := Replaced.placeNode s i r
  have hself : (s.placeNode i r).nodes i = (s.nodes i).place r := setNode_self _ _ _
  have hleaf' : ((s.placeNode i r).nodes i).isLeaf = true := by
    rw [hself]
    exact hleaf
  have hnode : ∀ q ∈ tileRects s.dirs (.leaf i) r, ((s.placeNode i r).nodes q.1).rect = q.2 := by
    intro q hq
    rw [List.mem_singleton.mp hq, hself]
    rfl
  have hothers : ∀ j, j ∉ (BinTree.leaf i).nodes → (s.placeNode i r).nodes j = s.nodes j :=
    fun j hj => setNode_of_ne _ (List.ne_of_not_mem_cons hj)
  cases hwin : (s.nodes i).win with
  | none =>
    have hwin' : ((s.placeNode i r).nodes i).win = none := by
      rw [hself]
      exact hwin
    refine ⟨_, _, layoutRecursive_bare hleaf' hwin', hreplaced, hnode, hothers, ?_, fun _ _ => rfl⟩
    intro q hq slot hslot
    rw [List.mem_singleton.mp hq, winOf, hwin] at hslot
    exact absurd hslot.symm (Option.some_ne_none slot)
  | some slot =>
    have hwin' : ((s.placeNode i r).nodes i).win = some slot := by
      rw [hself]
      exact hwin
    refine ⟨_, _, layoutRecursive_leaf hleaf' hwin', hreplaced, hnode, hothers, ?_, ?_⟩
    · intro q hq slot' hslot' _
      rw [List.mem_singleton.mp hq, winOf, hwin] at hslot'
      rw [List.mem_singleton.mp hq, ← Option.some_inj.mp hslot', setWindow_self]
      rfl
    · intro slot' hslot'
      exact setWindow_of_ne _ fun heq => hslot' i List.mem_cons_self (heq ▸ hwin)

/-- Laying out a tree gives each leaf its part. -/
theorem layoutRecursive_divided (h : s.Shape t) (hnodup : t.nodes.Nodup)
    (hfuel : t.nodes.length ≤ fuel) :
    ∃ s' posts, layoutRecursive fuel (some t.index) r.x r.y r.w r.h s = some (s', posts) ∧
      s.Divided s' t r := by
  induction t generalizing s r fuel with
  | leaf i =>
    obtain ⟨fuel, rfl⟩ := Nat.exists_eq_add_of_lt hfuel
    exact layoutRecursive_divided_leaf h
  | split i a b iha ihb =>
    obtain ⟨fuel, rfl⟩ := Nat.exists_eq_add_of_lt (Nat.lt_of_lt_of_le (Nat.succ_pos _) hfuel)
    rw [BinTree.nodes, List.length_cons, List.length_append] at hfuel
    rw [BinTree.nodes, List.nodup_cons, List.nodup_append'] at hnodup
    obtain ⟨hi, hnodupA, hnodupB, hdisjoint⟩ := hnodup
    -- the node itself, then its left and its right subtree
    have hnode := Replaced.placeNode s i r
    have hshape := hnode.shape h
    obtain ⟨s₂, posts, hlayoutA, hdividedA⟩ := @iha (s.placeNode i r) (r.first (s.dirs i))
      (0 + fuel) hshape.2.2.2.1 hnodupA (by omega)
    have hreplacedA := hnode.trans hdividedA.replaced
    have hshapeA := hreplacedA.shape h
    obtain ⟨s₃, posts', hlayoutB, hdividedB⟩ := @ihb s₂ (r.second (s.dirs i)) (0 + fuel)
      hshapeA.2.2.2.2 hnodupB (by omega)
    refine ⟨s₃, posts ++ posts', ?_, hreplacedA.trans hdividedB.replaced, ?_, ?_, ?_, ?_⟩
    · rw [BinTree.index, layoutRecursive_split hshape.1, hshape.2.1, hnode.dirs_eq, hlayoutA,
        Option.bind_some, hshapeA.2.2.1, hlayoutB]
      rfl
    · intro q hq
      rcases List.mem_append.mp hq with hq | hq
      · have hmem : q.1 ∈ a.leaves := tileRects_fst a _ ▸ List.mem_map_of_mem hq
        rw [hdividedB.nodes q.1 (hdisjoint (a.leaves_subset _ hmem))]
        exact hdividedA.leaves q (hnode.dirs_eq ▸ hq)
      · exact hdividedB.leaves q (hreplacedA.dirs_eq ▸ hq)
    · intro j hj
      rw [BinTree.nodes, List.mem_cons, List.mem_append, not_or, not_or] at hj
      rw [hdividedB.nodes j hj.2.2, hdividedA.nodes j hj.2.1]
      exact setNode_of_ne _ hj.1
    · intro q hq slot hslot honly
      rcases List.mem_append.mp hq with hq | hq
      · -- no leaf of the right subtree has the window
        have hmem : q.1 ∈ a.leaves := tileRects_fst a _ ▸ List.mem_map_of_mem hq
        rw [hdividedB.others slot fun j hj hslot' => ?_]
        · exact hdividedA.placed q (hnode.dirs_eq ▸ hq) slot (hnode.winOf_eq ▸ hslot)
            fun j hj hslot' => honly j (List.mem_append_left _ hj) (hnode.winOf_eq ▸ hslot')
        · rw [hreplacedA.winOf_eq] at hslot'
          have heq := honly j (List.mem_append_right _ hj) hslot'
          exact hdisjoint (a.leaves_subset _ hmem) (heq ▸ b.leaves_subset _ hj)
      · exact hdividedB.placed q (hreplacedA.dirs_eq ▸ hq) slot (hreplacedA.winOf_eq ▸ hslot)
          fun j hj hslot' => honly j (List.mem_append_right _ hj) (hreplacedA.winOf_eq ▸ hslot')
    · intro slot hslot
      rw [hdividedB.others slot, hdividedA.others slot]
      · rfl
      · exact hnode.winOf_eq ▸ fun j hj => hslot j (List.mem_append_left _ hj)
      · exact hreplacedA.winOf_eq ▸ fun j hj => hslot j (List.mem_append_right _ hj)

/-- The leaves of a tree divide the pixels of the rectangle among themselves, and a window that
belongs to one leaf has the pixels of this leaf. -/
theorem layoutRecursive_partition (h : s.Shape t) (hnodup : t.nodes.Nodup)
    (hfuel : t.nodes.length ≤ fuel) (hw : 0 ≤ r.w) (hh : 0 ≤ r.h) :
    ∃ s' posts, layoutRecursive fuel (some t.index) r.x r.y r.w r.h s = some (s', posts) ∧
      Rect.Partition (t.leaves.map fun i => (s'.nodes i).rect) r ∧
      ∀ i ∈ t.leaves, ∀ slot, s.winOf i = some slot →
        (∀ j ∈ t.leaves, s.winOf j = some slot → j = i) →
        (s'.windows slot).rect = (s'.nodes i).rect := by
  obtain ⟨s', posts, hlayout, hdivided⟩ := layoutRecursive_divided (r := r) h hnodup hfuel
  refine ⟨s', posts, hlayout, ?_, fun i hi slot hslot honly => ?_⟩
  · have hrects : (t.leaves.map fun i => (s'.nodes i).rect) =
        (tileRects s.dirs t r).map Prod.snd := by
      rw [← tileRects_fst t r, List.map_map]
      exact List.map_congr_left hdivided.leaves
    rw [hrects]
    exact tileRects_partition s.dirs t hw hh
  · rw [← tileRects_fst t r] at hi
    obtain ⟨q, hq, rfl⟩ := List.mem_map.mp hi
    rw [hdivided.placed q hq slot hslot honly, hdivided.leaves q hq]

/-- A container of two leaves, of which the first has the focus. -/
def twoLeaves : Wm :=
  { start with
    nodes := fun i =>
      if i = 2 then { TreeNode.zero with left := some 0, right := some 1, splitDir := .splitV }
      else { TreeNode.zero with isLeaf := true, win := some i, parent := .node 2 }
    root := some 2
    focusedNode := some 0 }

/-- The first leaf of an odd screen gets one column less. -/
theorem layoutRecursive_partition_twoLeaves : ∃ s' posts,
    layoutRecursive 3 (some 2) 0 0 7 5 twoLeaves = some (s', posts) ∧
      Rect.Partition ([0, 1].map fun i => (s'.nodes i).rect) ⟨0, 0, 7, 5⟩ ∧
      ((s'.nodes 0).rect.w, (s'.nodes 1).rect.w) = (3, 4) := by
  have hshape : twoLeaves.Shape (.split 2 (.leaf 0) (.leaf 1)) := ⟨rfl, rfl, rfl, rfl, rfl⟩
  obtain ⟨s', posts, hlayout, hpartition, -⟩ := @layoutRecursive_partition twoLeaves _
    ⟨0, 0, 7, 5⟩ 3 hshape (by decide) (by decide) (by decide) (by decide)
  change layoutRecursive 3 (some 2) 0 0 7 5 twoLeaves = _ at hlayout
  refine ⟨s', posts, hlayout, hpartition, ?_⟩
  have hsizes : (layoutRecursive 3 (some 2) 0 0 7 5 twoLeaves).map (fun q =>
      ((q.1.nodes 0).rect.w, (q.1.nodes 1).rect.w)) = some (3, 4) := by decide +kernel
  rw [hlayout] at hsizes
  exact Option.some_inj.mp hsizes

end Wm

end OpenIDP.Userspace
