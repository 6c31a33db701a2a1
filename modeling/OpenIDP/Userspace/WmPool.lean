import OpenIDP.Math.BinTree
import OpenIDP.Userspace.Wm

/-!
# The pool of tree nodes

Each node below `node_pool_idx` is either in the tree or on the free stack, and on it only once.
As long as fewer than all nodes are in use, `tree_alloc` finds one; `tree_free` finds room on the
stack for every node that was in use.

## Main definitions

* `Wm.view` — what the pool says of a node
* `Wm.Pool` — the nodes in use and the free nodes are those below `node_pool_idx`

## Main results

* `Wm.Pool.treeAlloc`, `Wm.Pool.treeFree` — nodes come into use and go out of use
-/

namespace OpenIDP.Userspace

open OpenIDP.Math OpenIDP.Process

/-- What a node says of its place in the tree. A free node says nothing. -/
def TreeNode.view (n : TreeNode) : Option NodeView :=
  n.parent.follow.map fun parent => ⟨n.isLeaf, parent, n.left, n.right⟩

namespace Wm

variable {s : Wm} {used : List ℕ} {i : ℕ}

/-- What the pool says of the nodes. -/
def view (s : Wm) (i : ℕ) : Option NodeView := (s.nodes i).view

/-- The nodes on the free stack. -/
def free (s : Wm) : List ℕ := (List.range s.freeStackSize).map s.freeStack

/-- The nodes in use and those on the free stack are the nodes below `node_pool_idx`, each once. -/
structure Pool (s : Wm) (used : List ℕ) : Prop where
  bound : s.nodePoolIdx ≤ maxNodes
  perm : (used ++ s.free).Perm (List.range s.nodePoolIdx)

@[simp] theorem setNode_self (s : Wm) (i : ℕ) (n : TreeNode) : (s.setNode i n).nodes i = n :=
  Function.update_self _ _ _

@[simp] theorem setNode_of_ne {j : ℕ} (n : TreeNode) (hj : j ≠ i) :
    (s.setNode i n).nodes j = s.nodes j := Function.update_of_ne hj _ _

theorem view_setNode (s : Wm) (i : ℕ) (n : TreeNode) :
    (s.setNode i n).view = Function.update s.view i n.view := by
  funext j
  by_cases hj : j = i
  · subst hj
    rw [Function.update_self, view, setNode_self]
  · rw [Function.update_of_ne hj, view, setNode_of_ne n hj, view]

namespace Pool

theorem nodup (h : s.Pool used) : used.Nodup :=
  (List.nodup_append'.mp (h.perm.nodup_iff.mpr List.nodup_range)).1

theorem lt (h : s.Pool used) (hi : i ∈ used) : i < maxNodes :=
  (List.mem_range.mp (h.perm.subset (List.mem_append_left _ hi))).trans_le h.bound

theorem length_eq (h : s.Pool used) : used.length + s.freeStackSize = s.nodePoolIdx := by
  have hlength := h.perm.length_eq
  rwa [List.length_append, free, List.length_map, List.length_range, List.length_range] at hlength

/-- The nodes in use, those on the free stack and those that were never used make up the pool. -/
theorem partition (h : s.Pool used) :
    (used ++ s.free ++ List.range' s.nodePoolIdx (maxNodes - s.nodePoolIdx)).Perm
      (List.range maxNodes) := by
  have hrange : List.range maxNodes =
      List.range s.nodePoolIdx ++ List.range' s.nodePoolIdx (maxNodes - s.nodePoolIdx) := by
    have happend := @List.range'_append_1 0 s.nodePoolIdx (maxNodes - s.nodePoolIdx)
    rw [Nat.zero_add, Nat.add_sub_cancel' h.bound] at happend
    rw [List.range_eq_range', List.range_eq_range', happend]
  rw [hrange]
  exact h.perm.append_right _

theorem congr {s' : Wm} (h : s.Pool used) (hidx : s'.nodePoolIdx = s.nodePoolIdx)
    (hstack : s'.freeStack = s.freeStack) (hsize : s'.freeStackSize = s.freeStackSize) :
    s'.Pool used := by
  refine ⟨hidx ▸ h.bound, ?_⟩
  rw [free, hstack, hsize, hidx]
  exact h.perm

theorem congr_used {used' : List ℕ} (h : s.Pool used) (hused : used'.Perm used) :
    s.Pool used' :=
  ⟨h.bound, (hused.append_right _).trans h.perm⟩

/-- A node that is not in use comes into use, and is cleared. -/
theorem treeAlloc (h : s.Pool used) (hroom : used.length < maxNodes) :
    ∃ i idx size, i ∉ used ∧ s.treeAlloc = (some i, { s.setNode i TreeNode.zero with
      nodePoolIdx := idx
      freeStackSize := size }) ∧
      ({ s.setNode i TreeNode.zero with nodePoolIdx := idx, freeStackSize := size } : Wm).Pool
        (i :: used) := by
  by_cases hstack : 0 < s.freeStackSize
  · -- the node on top of the stack
    have hfree : s.free =
        (List.range (s.freeStackSize - 1)).map s.freeStack ++
          [s.freeStack (s.freeStackSize - 1)] := by
      obtain ⟨n, hn⟩ := Nat.exists_eq_add_of_lt hstack
      rw [free, hn, Nat.zero_add, Nat.add_sub_cancel, List.range_succ, List.map_append]
      rfl
    have hmoved : (s.freeStack (s.freeStackSize - 1) ::
        (used ++ (List.range (s.freeStackSize - 1)).map s.freeStack)).Perm (used ++ s.free) := by
      rw [hfree, ← List.append_assoc]
      exact (List.perm_append_singleton _ _).symm
    refine ⟨s.freeStack (s.freeStackSize - 1), s.nodePoolIdx, s.freeStackSize - 1, ?_, ?_,
      h.bound, hmoved.trans h.perm⟩
    · have hnodup := (hmoved.trans h.perm).nodup_iff.mpr List.nodup_range
      exact fun hmem => (List.nodup_cons.mp hnodup).1 (List.mem_append_left _ hmem)
    · exact if_pos hstack
  · -- the stack is empty: the next node of the pool
    have hsize : s.freeStackSize = 0 := Nat.eq_zero_of_not_pos hstack
    have hlength := h.length_eq
    have hidx : s.nodePoolIdx < maxNodes := by omega
    have hfree : s.free = [] := by rw [free, hsize]; rfl
    have hperm : used.Perm (List.range s.nodePoolIdx) := by
      have hperm := h.perm
      rwa [hfree, List.append_nil] at hperm
    refine ⟨s.nodePoolIdx, s.nodePoolIdx + 1, s.freeStackSize, ?_, ?_, hidx, ?_⟩
    · exact fun hmem => absurd (List.mem_range.mp (hperm.subset hmem)) (Nat.lt_irrefl _)
    · exact (if_neg hstack).trans (if_pos hidx)
    · have hempty : ({ s.setNode s.nodePoolIdx TreeNode.zero with
          nodePoolIdx := s.nodePoolIdx + 1
          freeStackSize := s.freeStackSize } : Wm).free = [] := hfree
      rw [hempty, List.append_nil, List.range_succ]
      exact (hperm.cons _).trans (List.perm_append_singleton _ _).symm

/-- A node goes out of use. It is not free already, so nothing goes wrong. -/
theorem treeFree (h : s.Pool (i :: used)) (hused : (s.nodes i).parent ≠ .deadDead) :
    ∃ stack, s.treeFree i = { s.setNode i { s.nodes i with parent := .deadDead } with
      freeStack := stack
      freeStackSize := s.freeStackSize + 1 } ∧ (s.treeFree i).Pool used := by
  have hi : i < maxNodes := h.lt List.mem_cons_self
  have hlength := h.length_eq
  have hroom : s.freeStackSize < maxNodes := by
    have hbound := h.bound
    rw [List.length_cons] at hlength
    omega
  have heq : s.treeFree i = { s.setNode i { s.nodes i with parent := .deadDead } with
      freeStack := Function.update s.freeStack s.freeStackSize i
      freeStackSize := s.freeStackSize + 1 } := by
    rw [Wm.treeFree, if_neg (Nat.not_le.mpr hi), if_neg (Nat.not_le.mpr hroom), if_neg hused]
    simp only [List.append_nil]
    rfl
  refine ⟨_, heq, heq ▸ ⟨h.bound, ?_⟩⟩
  have hfree : ({ s.setNode i { s.nodes i with parent := .deadDead } with
      freeStack := Function.update s.freeStack s.freeStackSize i
      freeStackSize := s.freeStackSize + 1 } : Wm).free = s.free ++ [i] := by
    have hbelow : ∀ k ∈ List.range s.freeStackSize,
        Function.update s.freeStack s.freeStackSize i k = s.freeStack k := fun k hk =>
      Function.update_of_ne (List.mem_range.mp hk).ne _ _
    rw [free, List.range_succ, List.map_append, List.map_congr_left hbelow]
    exact congrArg (s.free ++ [·]) (Function.update_self _ _ _)
  rw [hfree, ← List.append_assoc]
  exact (List.perm_append_singleton _ _).trans h.perm

end Pool

end Wm

end OpenIDP.Userspace
