import Mathlib.Data.List.Perm.Basic
import Mathlib.Data.List.Nodup

/-!
# Binary trees linked through parent and child pointers

Nodes are numbers, and a memory says of each number that is a node whether it is a leaf, and what
its parent and its children are. A tree is represented in memory when these agree. A tree with a
hole is represented with the number that its hole stands for; putting another subtree there changes
one child pointer.

## Main definitions

* `BinTree`, `TreeCtx` — trees, and trees with a hole
* `NodeView` — what memory says of a node
* `Represents`, `RepresentsCtx` — a memory holds a tree, or a tree with a hole

## Main results

* `BinTree.length_nodes` — a tree has one node less than twice its leaves
* `represents_plug` — a tree is in memory when a part of it and the rest are
* `Represents.reparent` — a tree gets another parent
* `RepresentsCtx.retarget` — another subtree is put in the hole
-/

namespace OpenIDP.Math

/-- A binary tree whose nodes have numbers. -/
inductive BinTree
  | leaf (i : ℕ)
  | split (i : ℕ) (l r : BinTree)

namespace BinTree

/-- The number of the topmost node. -/
def index : BinTree → ℕ
  | leaf i => i
  | split i _ _ => i

/-- All nodes. -/
def nodes : BinTree → List ℕ
  | leaf i => [i]
  | split i l r => i :: (l.nodes ++ r.nodes)

/-- The leaves, from left to right. -/
def leaves : BinTree → List ℕ
  | leaf i => [i]
  | split _ l r => l.leaves ++ r.leaves

/-- The leftmost leaf. -/
def leftmost : BinTree → ℕ
  | leaf i => i
  | split _ l _ => l.leftmost

variable {t : BinTree} {i : ℕ}

theorem index_mem_nodes (t : BinTree) : t.index ∈ t.nodes := by
  cases t <;> exact List.mem_cons_self

theorem length_nodes (t : BinTree) : t.nodes.length + 1 = 2 * t.leaves.length := by
  induction t with
  | leaf i => rfl
  | split i l r ihl ihr =>
    rw [nodes, leaves, List.length_cons, List.length_append, List.length_append]
    omega

theorem leaves_subset (t : BinTree) : ∀ i ∈ t.leaves, i ∈ t.nodes := by
  induction t with
  | leaf i => exact fun j hj => hj
  | split i l r ihl ihr =>
    intro j hj
    refine List.mem_cons_of_mem _ (List.mem_append.mpr ?_)
    exact (List.mem_append.mp hj).imp (ihl j) (ihr j)

theorem leftmost_mem (t : BinTree) : t.leftmost ∈ t.leaves := by
  induction t with
  | leaf i => exact List.mem_cons_self
  | split i l r ihl ihr => exact List.mem_append_left _ ihl

theorem length_leaves_pos (t : BinTree) : 0 < t.leaves.length :=
  List.length_pos_of_mem t.leftmost_mem

theorem nodup_leaves (h : t.nodes.Nodup) : t.leaves.Nodup := by
  induction t with
  | leaf i => exact h
  | split i l r ihl ihr =>
    obtain ⟨hl, hr, hdisjoint⟩ := List.nodup_append'.mp (List.nodup_cons.mp h).2
    exact List.nodup_append'.mpr ⟨ihl hl, ihr hr, fun j hj hj' =>
      hdisjoint (l.leaves_subset j hj) (r.leaves_subset j hj')⟩

end BinTree

/-- A tree with a hole. -/
inductive TreeCtx
  | hole
  | left (i : ℕ) (c : TreeCtx) (r : BinTree)
  | right (i : ℕ) (l : BinTree) (c : TreeCtx)

namespace TreeCtx

/-- Puts a tree into the hole. -/
def plug : TreeCtx → BinTree → BinTree
  | hole, t => t
  | left i c r, t => .split i (c.plug t) r
  | right i l c, t => .split i l (c.plug t)

/-- The number of the topmost node, when that in the hole is `j`. -/
def index : TreeCtx → ℕ → ℕ
  | hole, j => j
  | left i _ _, _ => i
  | right i _ _, _ => i

/-- The node above the hole, when that above the tree is `p`. -/
def parent : TreeCtx → Option ℕ → Option ℕ
  | hole, p => p
  | left i c _, _ => c.parent (some i)
  | right i _ c, _ => c.parent (some i)

/-- The nodes outside of the hole. -/
def nodes : TreeCtx → List ℕ
  | hole => []
  | left i c r => i :: (c.nodes ++ r.nodes)
  | right i l c => i :: (l.nodes ++ c.nodes)

/-- The leaves outside of the hole. -/
def leaves : TreeCtx → List ℕ
  | hole => []
  | left _ c r => c.leaves ++ r.leaves
  | right _ l c => l.leaves ++ c.leaves

variable {c : TreeCtx} {t : BinTree} {p : Option ℕ} {i j : ℕ}

theorem index_plug (c : TreeCtx) (t : BinTree) : (c.plug t).index = c.index t.index := by
  cases c <;> rfl

theorem nodes_plug (c : TreeCtx) (t : BinTree) : (c.plug t).nodes.Perm (c.nodes ++ t.nodes) := by
  induction c with
  | hole => exact List.Perm.refl _
  | left i c r ih =>
    have hinner : ((c.plug t).nodes ++ r.nodes).Perm ((c.nodes ++ r.nodes) ++ t.nodes) := by
      apply (ih.append_right _).trans
      rw [List.append_assoc, List.append_assoc]
      exact List.perm_append_comm.append_left _
    exact hinner.cons i
  | right i l c ih =>
    have hinner : (l.nodes ++ (c.plug t).nodes).Perm ((l.nodes ++ c.nodes) ++ t.nodes) := by
      rw [List.append_assoc]
      exact ih.append_left _
    exact hinner.cons i

theorem leaves_plug (c : TreeCtx) (t : BinTree) :
    (c.plug t).leaves.Perm (c.leaves ++ t.leaves) := by
  induction c with
  | hole => exact List.Perm.refl _
  | left i c r ih =>
    refine (ih.append_right _).trans ?_
    rw [leaves, List.append_assoc, List.append_assoc]
    exact List.perm_append_comm.append_left _
  | right i l c ih =>
    refine (ih.append_left _).trans ?_
    rw [leaves, List.append_assoc]

/-- Nodes that one tree has more than another, it also has more as a part. -/
theorem nodes_plug_append {t t' : BinTree} {l : List ℕ} (c : TreeCtx)
    (h : t.nodes.Perm (l ++ t'.nodes)) : (c.plug t).nodes.Perm (l ++ (c.plug t').nodes) := by
  have hmoved : (c.nodes ++ (l ++ t'.nodes)).Perm (l ++ (c.nodes ++ t'.nodes)) := by
    rw [← List.append_assoc, ← List.append_assoc]
    exact List.perm_append_comm.append_right _
  exact (c.nodes_plug t).trans ((h.append_left _).trans
    (hmoved.trans ((c.nodes_plug t').symm.append_left l)))

/-- Leaves that one tree has more than another, it also has more as a part. -/
theorem leaves_plug_append {t t' : BinTree} {l : List ℕ} (c : TreeCtx)
    (h : t.leaves.Perm (l ++ t'.leaves)) : (c.plug t).leaves.Perm (l ++ (c.plug t').leaves) := by
  have hmoved : (c.leaves ++ (l ++ t'.leaves)).Perm (l ++ (c.leaves ++ t'.leaves)) := by
    rw [← List.append_assoc, ← List.append_assoc]
    exact List.perm_append_comm.append_right _
  exact (c.leaves_plug t).trans ((h.append_left _).trans
    (hmoved.trans ((c.leaves_plug t').symm.append_left l)))

theorem parent_mem (h : c.parent p = some i) (hne : c ≠ hole) : i ∈ c.nodes := by
  induction c generalizing p with
  | hole => exact absurd rfl hne
  | left k c r ih =>
    by_cases hc : c = hole
    · subst hc
      obtain rfl := Option.some_inj.mp h
      exact List.mem_cons_self
    · exact List.mem_cons_of_mem _ (List.mem_append_left _ (ih h hc))
  | right k l c ih =>
    by_cases hc : c = hole
    · subst hc
      obtain rfl := Option.some_inj.mp h
      exact List.mem_cons_self
    · exact List.mem_cons_of_mem _ (List.mem_append_right _ (ih h hc))

theorem parent_ne_none (c : TreeCtx) (i : ℕ) : c.parent (some i) ≠ none := by
  induction c generalizing i with
  | hole => exact Option.some_ne_none i
  | left k c r ih => exact ih k
  | right k l c ih => exact ih k

/-- Only the topmost tree has no parent. -/
theorem parent_eq_none_iff (c : TreeCtx) : c.parent none = none ↔ c = hole := by
  cases c with
  | hole => exact iff_of_true rfl rfl
  | left k c r => exact iff_of_false (c.parent_ne_none k) (fun h => nomatch h)
  | right k l c => exact iff_of_false (c.parent_ne_none k) (fun h => nomatch h)

theorem index_eq (hne : c ≠ hole) (j j' : ℕ) : c.index j = c.index j' := by
  cases c with
  | hole => exact absurd rfl hne
  | left => rfl
  | right => rfl

/-- Each leaf of a tree is what is left when the rest is taken away. -/
theorem exists_plug {t : BinTree} (h : i ∈ t.leaves) : ∃ c : TreeCtx, t = c.plug (.leaf i) := by
  induction t with
  | leaf j =>
    obtain rfl := List.mem_singleton.mp h
    exact ⟨hole, rfl⟩
  | split j l r ihl ihr =>
    rcases List.mem_append.mp h with h | h
    · obtain ⟨c, rfl⟩ := ihl h
      exact ⟨left j c r, rfl⟩
    · obtain ⟨c, rfl⟩ := ihr h
      exact ⟨right j l c, rfl⟩

/-- What is in a hole below the top has a parent and a sibling. -/
theorem exists_sibling (hne : c ≠ hole) : ∃ (c' : TreeCtx) (q : ℕ) (sib : BinTree),
    (∀ t, c.plug t = c'.plug (.split q t sib)) ∨ ∀ t, c.plug t = c'.plug (.split q sib t) := by
  induction c with
  | hole => exact absurd rfl hne
  | left k c r ih =>
    by_cases hc : c = hole
    · subst hc
      exact ⟨hole, k, r, Or.inl fun _ => rfl⟩
    · obtain ⟨c', q, sib, h⟩ := ih hc
      refine ⟨left k c' r, q, sib, h.imp (fun h t => ?_) fun h t => ?_⟩
      · exact congrArg (BinTree.split k · r) (h t)
      · exact congrArg (BinTree.split k · r) (h t)
  | right k l c ih =>
    by_cases hc : c = hole
    · subst hc
      exact ⟨hole, k, l, Or.inr fun _ => rfl⟩
    · obtain ⟨c', q, sib, h⟩ := ih hc
      refine ⟨right k l c', q, sib, h.imp (fun h t => ?_) fun h t => ?_⟩
      · exact congrArg (BinTree.split k l) (h t)
      · exact congrArg (BinTree.split k l) (h t)

end TreeCtx

/-! ## Trees in memory -/

/-- What memory says of a node. -/
structure NodeView where
  isLeaf : Bool
  parent : Option ℕ
  left : Option ℕ
  right : Option ℕ

/-- The tree is in memory, with the parent `p`. -/
def Represents (view : ℕ → Option NodeView) : Option ℕ → BinTree → Prop
  | p, .leaf i => ∃ l r, view i = some ⟨true, p, l, r⟩
  | p, .split i l r => view i = some ⟨false, p, some l.index, some r.index⟩ ∧
      Represents view (some i) l ∧ Represents view (some i) r

/-- The tree with a hole is in memory, and the hole stands for the node `j`. -/
def RepresentsCtx (view : ℕ → Option NodeView) : Option ℕ → TreeCtx → ℕ → Prop
  | _, .hole, _ => True
  | p, .left i c r, j => view i = some ⟨false, p, some (c.index j), some r.index⟩ ∧
      RepresentsCtx view (some i) c j ∧ Represents view (some i) r
  | p, .right i l c, j => view i = some ⟨false, p, some l.index, some (c.index j)⟩ ∧
      Represents view (some i) l ∧ RepresentsCtx view (some i) c j

section Memory

variable {view view' : ℕ → Option NodeView} {p : Option ℕ} {c : TreeCtx} {t : BinTree} {j j' : ℕ}

theorem Represents.congr (h : Represents view p t) (hview : ∀ i ∈ t.nodes, view' i = view i) :
    Represents view' p t := by
  induction t generalizing p with
  | leaf i =>
    obtain ⟨l, r, hi⟩ := h
    exact ⟨l, r, (hview i List.mem_cons_self).trans hi⟩
  | split i l r ihl ihr =>
    obtain ⟨hi, hl, hr⟩ := h
    refine ⟨(hview i List.mem_cons_self).trans hi, ihl hl fun k hk => hview k ?_,
      ihr hr fun k hk => hview k ?_⟩
    · exact List.mem_cons_of_mem _ (List.mem_append_left _ hk)
    · exact List.mem_cons_of_mem _ (List.mem_append_right _ hk)

/-- A tree gets another parent. -/
theorem Represents.reparent {p' : Option ℕ} (h : Represents view p t) (hnodup : t.nodes.Nodup)
    (hkept : ∀ i ∈ t.nodes, i ≠ t.index → view' i = view i)
    (hindex : ∀ n, view t.index = some n → view' t.index = some { n with parent := p' }) :
    Represents view' p' t := by
  cases t with
  | leaf i =>
    obtain ⟨l, r, hi⟩ := h
    exact ⟨l, r, hindex _ hi⟩
  | split i l r =>
    obtain ⟨hi, hl, hr⟩ := h
    have hne : ∀ k ∈ l.nodes ++ r.nodes, k ≠ i := fun k hk heq =>
      (List.nodup_cons.mp hnodup).1 (heq ▸ hk)
    refine ⟨hindex _ hi, hl.congr fun k hk => ?_, hr.congr fun k hk => ?_⟩
    · have hmem := List.mem_append_left r.nodes hk
      exact hkept k (List.mem_cons_of_mem _ hmem) (hne k hmem)
    · have hmem := List.mem_append_right l.nodes hk
      exact hkept k (List.mem_cons_of_mem _ hmem) (hne k hmem)

/-- A tree is in memory when a part of it and the rest are. -/
theorem represents_plug : Represents view p (c.plug t) ↔
    RepresentsCtx view p c t.index ∧ Represents view (c.parent p) t := by
  induction c generalizing p with
  | hole => exact ⟨fun h => ⟨trivial, h⟩, And.right⟩
  | left i c r ih =>
    rw [TreeCtx.plug, Represents, RepresentsCtx, TreeCtx.parent, ih, TreeCtx.index_plug]
    tauto
  | right i l c ih =>
    rw [TreeCtx.plug, Represents, RepresentsCtx, TreeCtx.parent, ih, TreeCtx.index_plug]
    tauto

theorem RepresentsCtx.congr (h : RepresentsCtx view p c j)
    (hview : ∀ i ∈ c.nodes, view' i = view i) : RepresentsCtx view' p c j := by
  induction c generalizing p with
  | hole => trivial
  | left i c r ih =>
    obtain ⟨hi, hc, hr⟩ := h
    refine ⟨(hview i List.mem_cons_self).trans hi, ih hc fun k hk => hview k ?_,
      hr.congr fun k hk => hview k ?_⟩
    · exact List.mem_cons_of_mem _ (List.mem_append_left _ hk)
    · exact List.mem_cons_of_mem _ (List.mem_append_right _ hk)
  | right i l c ih =>
    obtain ⟨hi, hl, hc⟩ := h
    refine ⟨(hview i List.mem_cons_self).trans hi, hl.congr fun k hk => hview k ?_,
      ih hc fun k hk => hview k ?_⟩
    · exact List.mem_cons_of_mem _ (List.mem_append_left _ hk)
    · exact List.mem_cons_of_mem _ (List.mem_append_right _ hk)

/-- Another subtree is put in the hole: the parent of the hole gets another child. -/
theorem RepresentsCtx.retarget (h : RepresentsCtx view p c j) (hnodup : c.nodes.Nodup)
    (hj : j ∉ c.nodes) (hkept : ∀ i ∈ c.nodes, some i ≠ c.parent p → view' i = view i)
    (hparent : ∀ i ∈ c.nodes, some i = c.parent p → ∀ n, view i = some n →
      view' i = some (if n.left = some j then { n with left := some j' }
        else { n with right := some j' })) :
    RepresentsCtx view' p c j' := by
  -- Along the path from the root: only the last node of it points at the hole.
  induction c generalizing p with
  | hole => trivial
  | left i c r ih =>
    obtain ⟨hi, hc, hr⟩ := h
    obtain ⟨hnotMem, htail⟩ := List.nodup_cons.mp hnodup
    obtain ⟨hcnodup, -, hdisjoint⟩ := List.nodup_append'.mp htail
    have hmem : ∀ k ∈ c.nodes, k ∈ (TreeCtx.left i c r).nodes := fun k hk =>
      List.mem_cons_of_mem _ (List.mem_append_left _ hk)
    have hinner := ih hc hcnodup (fun hk => hj (hmem j hk))
      (fun k hk hne => hkept k (hmem k hk) hne) fun k hk heq => hparent k (hmem k hk) heq
    have hright : Represents view' (some i) r := hr.congr fun k hk => by
      refine hkept k (List.mem_cons_of_mem _ (List.mem_append_right _ hk)) fun heq => ?_
      -- The node is the parent of the hole exactly where the path ends below it.
      by_cases hhole : c = .hole
      · subst hhole
        obtain rfl := Option.some_inj.mp heq
        exact hnotMem (List.mem_append_right _ hk)
      · exact hdisjoint (TreeCtx.parent_mem heq.symm hhole) hk
    refine ⟨?_, hinner, hright⟩
    by_cases hhole : c = .hole
    · subst hhole
      exact (hparent i List.mem_cons_self rfl _ hi).trans (congrArg some (if_pos rfl))
    · have hindex : c.index j' = c.index j := TreeCtx.index_eq hhole j' j
      rw [hkept i List.mem_cons_self, hi, hindex]
      intro heq
      exact hnotMem (List.mem_append_left _ (TreeCtx.parent_mem heq.symm hhole))
  | right i l c ih =>
    obtain ⟨hi, hl, hc⟩ := h
    obtain ⟨hnotMem, htail⟩ := List.nodup_cons.mp hnodup
    obtain ⟨-, hcnodup, hdisjoint⟩ := List.nodup_append'.mp htail
    have hmem : ∀ k ∈ c.nodes, k ∈ (TreeCtx.right i l c).nodes := fun k hk =>
      List.mem_cons_of_mem _ (List.mem_append_right _ hk)
    have hinner := ih hc hcnodup (fun hk => hj (hmem j hk))
      (fun k hk hne => hkept k (hmem k hk) hne) fun k hk heq => hparent k (hmem k hk) heq
    have hleft : Represents view' (some i) l := hl.congr fun k hk => by
      refine hkept k (List.mem_cons_of_mem _ (List.mem_append_left _ hk)) fun heq => ?_
      by_cases hhole : c = .hole
      · subst hhole
        obtain rfl := Option.some_inj.mp heq
        exact hnotMem (List.mem_append_left _ hk)
      · exact hdisjoint hk (TreeCtx.parent_mem heq.symm hhole)
    refine ⟨?_, hleft, hinner⟩
    by_cases hhole : c = .hole
    · subst hhole
      have hne : l.index ≠ j := fun heq =>
        hj (heq ▸ List.mem_cons_of_mem _ (List.mem_append_left _ l.index_mem_nodes))
      exact (hparent i List.mem_cons_self rfl _ hi).trans
        (congrArg some (if_neg fun heq => hne (Option.some_inj.mp heq)))
    · have hindex : c.index j' = c.index j := TreeCtx.index_eq hhole j' j
      rw [hkept i List.mem_cons_self, hi, hindex]
      intro heq
      exact hnotMem (List.mem_append_right _ (TreeCtx.parent_mem heq.symm hhole))

end Memory

end OpenIDP.Math
