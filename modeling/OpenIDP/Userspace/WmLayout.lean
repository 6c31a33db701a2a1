import OpenIDP.Userspace.Rect
import OpenIDP.Userspace.WmPool

/-!
# The layout of the windows

Laying out a tree divides the screen among its leaves. Each window of the tree gets its part, and
nothing else about the windows, the nodes or the tree changes; the windows whose sizes have changed
are told so, from left to right.

## Main definitions

* `tileRects` — the part of each leaf
* `Wm.Moved` — only positions and sizes differ
* `Wm.LaidOut` — the windows of a tree have their parts

## Main results

* `tileRects_inside`, `tileRects_disjoint` — the parts are in the whole, and do not overlap
* `Wm.layoutRecursive_eq` — what `layout_recursive` does
-/

namespace OpenIDP.Userspace

open OpenIDP.Math OpenIDP.Process

namespace Rect

/-- The left or upper half. -/
def first (r : Rect) : SplitDir → Rect
  | .splitV => { r with w := r.w.tdiv 2 }
  | .splitH => { r with h := r.h.tdiv 2 }

/-- The right or lower half. -/
def second (r : Rect) : SplitDir → Rect
  | .splitV => { r with x := r.x + r.w.tdiv 2, w := r.w - r.w.tdiv 2 }
  | .splitH => { r with y := r.y + r.h.tdiv 2, h := r.h - r.h.tdiv 2 }

variable {r outer : Rect} {dir : SplitDir}

/-- Half of a size is at most the size. -/
theorem half_bounds {n : ℤ} (h : 0 ≤ n) : 0 ≤ n.tdiv 2 ∧ n.tdiv 2 ≤ n := by
  rw [Int.tdiv_eq_ediv_of_nonneg h]
  omega

theorem first_inside (h : r.Inside outer) : (r.first dir).Inside outer := by
  have hw := half_bounds h.width
  have hh := half_bounds h.height
  obtain ⟨hleft, hright, htop, hbottom, hwidth, hheight⟩ := h
  cases dir
  · exact ⟨hleft, hright, htop, by simp only [first]; omega, hwidth, hh.1⟩
  · exact ⟨hleft, by simp only [first]; omega, htop, hbottom, hw.1, hheight⟩

theorem second_inside (h : r.Inside outer) : (r.second dir).Inside outer := by
  have hw := half_bounds h.width
  have hh := half_bounds h.height
  obtain ⟨hleft, hright, htop, hbottom, hwidth, hheight⟩ := h
  cases dir
  · exact ⟨hleft, hright, by simp only [second]; omega, by simp only [second]; omega, hwidth,
      by simp only [second]; omega⟩
  · exact ⟨by simp only [second]; omega, by simp only [second]; omega, htop, hbottom,
      by simp only [second]; omega, hheight⟩

theorem first_second_apart (r : Rect) (dir : SplitDir) : (r.first dir).Apart (r.second dir) := by
  rintro px py ⟨hfirst, hsecond⟩
  cases dir
  · exact absurd hfirst.2.2.2 (not_lt.mpr hsecond.2.2.1)
  · exact absurd hfirst.2.1 (not_lt.mpr hsecond.1)

end Rect

/-- The leaves of a tree with their parts of a rectangle. -/
def tileRects (dirs : ℕ → SplitDir) : BinTree → Rect → List (ℕ × Rect)
  | .leaf i, r => [(i, r)]
  | .split i a b, r =>
    tileRects dirs a (r.first (dirs i)) ++ tileRects dirs b (r.second (dirs i))

section Tiles

variable {dirs : ℕ → SplitDir} {t : BinTree} {r outer : Rect}

theorem tileRects_fst (t : BinTree) (r : Rect) : (tileRects dirs t r).map Prod.fst = t.leaves := by
  induction t generalizing r with
  | leaf i => rfl
  | split i a b iha ihb => rw [tileRects, List.map_append, iha, ihb, BinTree.leaves]

/-- The part of each leaf is in the whole. -/
theorem tileRects_inside (h : r.Inside outer) : ∀ q ∈ tileRects dirs t r, q.2.Inside outer := by
  induction t generalizing r with
  | leaf i =>
    intro q hq
    rw [List.mem_singleton.mp hq]
    exact h
  | split i a b iha ihb =>
    intro q hq
    rcases List.mem_append.mp hq with hq | hq
    · exact iha (Rect.first_inside h) q hq
    · exact ihb (Rect.second_inside h) q hq

/-- The parts of the leaves do not overlap. -/
theorem tileRects_disjoint (h : r.Inside r) :
    (tileRects dirs t r).Pairwise fun q q' => q.2.Apart q'.2 := by
  induction t generalizing r with
  | leaf i => exact List.pairwise_singleton _ _
  | split i a b iha ihb =>
    have hfirst : (r.first (dirs i)).Inside r := Rect.first_inside h
    have hsecond : (r.second (dirs i)).Inside r := Rect.second_inside h
    refine List.pairwise_append.mpr ⟨iha (.refl hfirst.width hfirst.height),
      ihb (.refl hsecond.width hsecond.height), fun q hq q' hq' px py hmem => ?_⟩
    have hq := tileRects_inside (.refl hfirst.width hfirst.height) q hq
    have hq' := tileRects_inside (.refl hsecond.width hsecond.height) q' hq'
    exact r.first_second_apart (dirs i) px py ⟨hq.mem hmem.1, hq'.mem hmem.2⟩

end Tiles

/-- The whole screen. -/
def Screen.rect (screen : Screen) : Rect :=
  ⟨0, 0, toInt32 screen.fbWidth, toInt32 screen.fbHeight⟩

/-- A window gets a part of the screen. -/
def Window.place (win : Window) (r : Rect) : Window :=
  { win with x := r.x, y := r.y, width := r.w, height := r.h }

/-- The part of the screen that a window has. -/
def Window.rect (win : Window) : Rect := ⟨win.x, win.y, win.width, win.height⟩

/-- The message to a window that gets a part of the screen: only when its size changes. -/
def Window.resizePosts (win : Window) (r : Rect) : List Post :=
  if win.width ≠ r.w ∨ win.height ≠ r.h then [⟨win.pid, msgWindowResize, toU64 r.w, toU64 r.h, 0⟩]
  else []

namespace Wm

variable {s s' s'' : Wm} {t : BinTree} {p : Option ℕ} {r : Rect} {fuel : ℕ}

/-- The directions in which nodes are split. -/
def dirs (s : Wm) (i : ℕ) : SplitDir := (s.nodes i).splitDir

/-- The windows of nodes. -/
def winOf (s : Wm) (i : ℕ) : Option ℕ := (s.nodes i).win

/-- The message to the window of a leaf that gets its part. -/
def leafPosts (s : Wm) (q : ℕ × Rect) : List Post :=
  match s.winOf q.1 with
  | some slot => (s.windows slot).resizePosts q.2
  | none => []

/-- The node with its part of the screen. -/
def placeNode (s : Wm) (i : ℕ) (r : Rect) : Wm :=
  s.setNode i { s.nodes i with x := r.x, y := r.y, w := r.w, h := r.h }

/-- Only the positions and sizes of nodes and windows differ. -/
structure Moved (s s' : Wm) : Prop where
  view : s'.view = s.view
  dirs : s'.dirs = s.dirs
  winOf : s'.winOf = s.winOf
  windows : ∀ slot, s'.windows slot = (s.windows slot).place (s'.windows slot).rect
  rest : s' = { s with nodes := s'.nodes, windows := s'.windows }

/-- The windows of a tree have got their parts of a rectangle, and other windows are the same. -/
structure LaidOut (s s' : Wm) (t : BinTree) (r : Rect) : Prop where
  moved : s.Moved s'
  placed : ∀ q ∈ tileRects s.dirs t r, ∀ slot, s.winOf q.1 = some slot →
    s'.windows slot = (s.windows slot).place q.2
  others : ∀ slot, (∀ i ∈ t.leaves, s.winOf i ≠ some slot) → s'.windows slot = s.windows slot

@[simp] theorem setWindow_self (s : Wm) (slot : ℕ) (win : Window) :
    (s.setWindow slot win).windows slot = win := Function.update_self _ _ _

@[simp] theorem setWindow_of_ne {slot slot' : ℕ} (win : Window) (h : slot' ≠ slot) :
    (s.setWindow slot win).windows slot' = s.windows slot' := Function.update_of_ne h _ _

namespace Moved

theorem refl (s : Wm) : s.Moved s := ⟨rfl, rfl, rfl, fun _ => rfl, rfl⟩

theorem trans (h : s.Moved s') (h' : s'.Moved s'') : s.Moved s'' where
  view := h'.view.trans h.view
  dirs := h'.dirs.trans h.dirs
  winOf := h'.winOf.trans h.winOf
  windows slot := by
    rw [h'.windows slot, h.windows slot]
    rfl
  rest := by
    rw [h'.rest, h.rest]

/-- A node is moved. -/
theorem placeNode (s : Wm) (i : ℕ) (r : Rect) : s.Moved (s.placeNode i r) where
  view := by
    rw [Wm.placeNode, view_setNode]
    exact Function.update_eq_self i s.view
  dirs := by
    funext j
    by_cases hj : j = i
    · subst hj
      rw [Wm.dirs, Wm.placeNode, setNode_self, Wm.dirs]
    · rw [Wm.dirs, Wm.placeNode, setNode_of_ne _ hj, Wm.dirs]
  winOf := by
    funext j
    by_cases hj : j = i
    · subst hj
      rw [Wm.winOf, Wm.placeNode, setNode_self, Wm.winOf]
    · rw [Wm.winOf, Wm.placeNode, setNode_of_ne _ hj, Wm.winOf]
  windows _ := rfl
  rest := rfl

/-- A window is moved. -/
theorem setWindow (s : Wm) (slot : ℕ) (r : Rect) :
    s.Moved (s.setWindow slot ((s.windows slot).place r)) where
  view := rfl
  dirs := rfl
  winOf := rfl
  windows slot' := by
    by_cases hslot : slot' = slot
    · subst hslot
      rw [setWindow_self]
      rfl
    · rw [setWindow_of_ne _ hslot]
      rfl
  rest := rfl

end Moved

theorem nodes_of_view {i : ℕ} {v : NodeView} (h : s.view i = some v) :
    (s.nodes i).parent.follow = some v.parent ∧ (s.nodes i).isLeaf = v.isLeaf ∧
      (s.nodes i).left = v.left ∧ (s.nodes i).right = v.right := by
  obtain ⟨parent, hparent, hv⟩ := Option.map_eq_some_iff.mp h
  subst hv
  exact ⟨hparent, rfl, rfl, rfl⟩

theorem layoutRecursive_leaf {i slot : ℕ} (hleaf : ((s.placeNode i r).nodes i).isLeaf = true)
    (hwin : ((s.placeNode i r).nodes i).win = some slot) :
    layoutRecursive (fuel + 1) (some i) r.x r.y r.w r.h s =
      some ((s.placeNode i r).setWindow slot ((s.windows slot).place r),
        (s.windows slot).resizePosts r) := by
  rw [placeNode] at hleaf hwin
  rw [layoutRecursive]
  simp only [hleaf, hwin, if_true]
  rw [Window.resizePosts]
  by_cases hsize : (s.windows slot).width ≠ r.w ∨ (s.windows slot).height ≠ r.h
  · rw [if_pos hsize]
    exact if_pos hsize
  · rw [if_neg hsize]
    exact if_neg hsize

theorem layoutRecursive_split {i : ℕ} (hsplit : ((s.placeNode i r).nodes i).isLeaf = false) :
    layoutRecursive (fuel + 1) (some i) r.x r.y r.w r.h s =
      (layoutRecursive fuel ((s.placeNode i r).nodes i).left
        (r.first ((s.placeNode i r).dirs i)).x (r.first ((s.placeNode i r).dirs i)).y
        (r.first ((s.placeNode i r).dirs i)).w (r.first ((s.placeNode i r).dirs i)).h
        (s.placeNode i r)).bind fun q =>
      (layoutRecursive fuel (q.1.nodes i).right
        (r.second ((s.placeNode i r).dirs i)).x (r.second ((s.placeNode i r).dirs i)).y
        (r.second ((s.placeNode i r).dirs i)).w (r.second ((s.placeNode i r).dirs i)).h
        q.1).bind fun q' => some (q'.1, q.2 ++ q'.2) := by
  rw [dirs]
  rw [placeNode] at hsplit ⊢
  rw [layoutRecursive]
  simp only [hsplit, Bool.false_eq_true, if_false]
  cases ((s.setNode i { s.nodes i with x := r.x, y := r.y, w := r.w, h := r.h }).nodes i).splitDir
  · rfl
  · rfl

/-- Laying out a tree gives each of its windows its part, and tells those whose sizes change. -/
theorem layoutRecursive_eq (hrep : Represents s.view p t)
    (hwin : ∀ i ∈ t.leaves, ∃ slot, s.winOf i = some slot)
    (hnodup : (t.leaves.map s.winOf).Nodup) (hfuel : t.nodes.length ≤ fuel) :
    ∃ s', layoutRecursive fuel (some t.index) r.x r.y r.w r.h s =
      some (s', (tileRects s.dirs t r).flatMap s.leafPosts) ∧ s.LaidOut s' t r := by
  induction t generalizing s p r fuel with
  | leaf i =>
    obtain ⟨fuel, rfl⟩ := Nat.exists_eq_add_of_lt hfuel
    obtain ⟨l, c, hview⟩ := hrep
    obtain ⟨slot, hslot⟩ := hwin i List.mem_cons_self
    have hnode := Moved.placeNode s i r
    have hleaf := (nodes_of_view (hnode.view ▸ hview)).2.1
    have hslot' : (s.placeNode i r).winOf i = some slot := hnode.winOf ▸ hslot
    refine ⟨_, (layoutRecursive_leaf hleaf hslot').trans ?_, hnode.trans (Moved.setWindow _ slot r),
      fun q hq slot' hslot' => ?_, fun slot' hslot' => ?_⟩
    · rw [tileRects, List.flatMap_singleton, leafPosts, hslot]
      rfl
    · rw [List.mem_singleton.mp hq] at hslot' ⊢
      obtain rfl := Option.some_inj.mp (hslot.symm.trans hslot')
      exact setWindow_self _ _ _
    · exact setWindow_of_ne _ fun heq => hslot' i List.mem_cons_self (heq ▸ hslot)
  | split i a b iha ihb =>
    obtain ⟨fuel, rfl⟩ := Nat.exists_eq_add_of_lt (Nat.lt_of_lt_of_le (Nat.succ_pos _) hfuel)
    rw [BinTree.nodes, List.length_cons, List.length_append] at hfuel
    obtain ⟨hview, ha, hb⟩ := hrep
    rw [BinTree.leaves, List.map_append, List.nodup_append'] at hnodup
    obtain ⟨hnodupA, hnodupB, hdisjoint⟩ := hnodup
    -- the node itself, then its left and its right subtree
    have hnode := Moved.placeNode s i r
    have hfuelA : a.nodes.length ≤ 0 + fuel := by omega
    have hfuelB : b.nodes.length ≤ 0 + fuel := by omega
    obtain ⟨s₂, hlayoutA, hlaidA⟩ := iha (r := r.first (s.dirs i)) (hnode.view ▸ ha)
      (hnode.winOf ▸ fun j hj => hwin j (List.mem_append_left _ hj)) (hnode.winOf ▸ hnodupA) hfuelA
    have hmovedA := hnode.trans hlaidA.moved
    obtain ⟨s₃, hlayoutB, hlaidB⟩ := ihb (r := r.second (s.dirs i)) (hmovedA.view ▸ hb)
      (hmovedA.winOf ▸ fun j hj => hwin j (List.mem_append_right _ hj))
      (hmovedA.winOf ▸ hnodupB) hfuelB
    have hotherB : ∀ j ∈ b.leaves, ∀ slot, s.winOf j = some slot →
        s₂.windows slot = s.windows slot := fun j hj slot hslot => by
      refine hlaidA.others slot fun k hk hslot' => ?_
      rw [hnode.winOf] at hslot'
      exact hdisjoint (List.mem_map_of_mem hk)
        (hslot'.trans hslot.symm ▸ List.mem_map_of_mem hj)
    refine ⟨s₃, ?_, hmovedA.trans hlaidB.moved, fun q hq slot hslot => ?_, fun slot hslot => ?_⟩
    · obtain ⟨-, hsplit, hleft, -⟩ := nodes_of_view (hnode.view ▸ hview)
      have hright : (s₂.nodes i).right = some b.index :=
        (nodes_of_view (hmovedA.view ▸ hview)).2.2.2
      have hpostsA : (tileRects s.dirs a (r.first (s.dirs i))).flatMap
          (s.placeNode i r).leafPosts =
          (tileRects s.dirs a (r.first (s.dirs i))).flatMap s.leafPosts := by
        refine List.flatMap_congr fun q _ => ?_
        rw [leafPosts, hnode.winOf, leafPosts]
        rfl
      have hpostsB : (tileRects s.dirs b (r.second (s.dirs i))).flatMap s₂.leafPosts =
          (tileRects s.dirs b (r.second (s.dirs i))).flatMap s.leafPosts := by
        refine List.flatMap_congr fun q hq => ?_
        have hmem : q.1 ∈ b.leaves := tileRects_fst b _ ▸ List.mem_map_of_mem hq
        obtain ⟨slot, hslot⟩ := hwin q.1 (List.mem_append_right _ hmem)
        rw [leafPosts, hmovedA.winOf, leafPosts, hslot]
        exact congrArg (·.resizePosts q.2) (hotherB q.1 hmem slot hslot)
      rw [hnode.dirs, hpostsA] at hlayoutA
      rw [hmovedA.dirs, hpostsB] at hlayoutB
      rw [BinTree.index, layoutRecursive_split hsplit, hleft, hnode.dirs, hlayoutA,
        Option.bind_some, hright, hlayoutB, tileRects, List.flatMap_append]
      rfl
    · rcases List.mem_append.mp hq with hq | hq
      · have hmem : q.1 ∈ a.leaves := tileRects_fst a _ ▸ List.mem_map_of_mem hq
        rw [hlaidB.others slot, hlaidA.placed q (hnode.dirs ▸ hq) slot (hnode.winOf ▸ hslot)]
        · rfl
        · intro k hk hslot'
          rw [hmovedA.winOf] at hslot'
          exact hdisjoint (List.mem_map_of_mem hmem)
            (hslot.trans hslot'.symm ▸ List.mem_map_of_mem hk)
      · have hmem : q.1 ∈ b.leaves := tileRects_fst b _ ▸ List.mem_map_of_mem hq
        rw [hlaidB.placed q (hmovedA.dirs ▸ hq) slot (hmovedA.winOf ▸ hslot),
          hotherB q.1 hmem slot hslot]
    · rw [hlaidB.others slot, hlaidA.others slot]
      · rfl
      · exact hnode.winOf ▸ fun k hk => hslot k (List.mem_append_left _ hk)
      · exact hmovedA.winOf ▸ fun k hk => hslot k (List.mem_append_right _ hk)

end Wm

end OpenIDP.Userspace
