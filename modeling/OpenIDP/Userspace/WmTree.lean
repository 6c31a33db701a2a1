import OpenIDP.Math.Reaches
import OpenIDP.Userspace.WmLayout

/-!
# The window tree

## Main definitions

* `Wm.WindowTree` — the nodes hold a tree whose leaves are the windows

## Main results

* `Wm.WindowTree.insertWindowIntoTree`, `Wm.WindowTree.deleteNode` — windows come and go
-/

namespace OpenIDP.Userspace

open OpenIDP.Math OpenIDP.Process

namespace Wm

variable {s s' : Wm} {t : BinTree} {p : Option ℕ} {c : TreeCtx} {fuel i j slot : ℕ}

/-- The way down to the left ends at the leftmost leaf. -/
theorem leftmostLeaf_eq (h : Represents s.view p t) (hfuel : t.nodes.length ≤ fuel) :
    s.leftmostLeaf fuel t.index = some t.leftmost := by
  induction t generalizing p fuel with
  | leaf i =>
    obtain ⟨fuel, rfl⟩ := Nat.exists_eq_add_of_lt hfuel
    obtain ⟨l, r, hview⟩ := h
    rw [leftmostLeaf, BinTree.index, if_pos (nodes_of_view hview).2.1, BinTree.leftmost]
  | split i a b iha ihb =>
    obtain ⟨fuel, rfl⟩ := Nat.exists_eq_add_of_lt (Nat.lt_of_lt_of_le (Nat.succ_pos _) hfuel)
    obtain ⟨hview, ha, -⟩ := h
    obtain ⟨-, hsplit, hleft, -⟩ := nodes_of_view hview
    rw [BinTree.nodes, List.length_cons, List.length_append] at hfuel
    rw [leftmostLeaf, BinTree.index, hsplit, if_neg Bool.false_ne_true, hleft, Option.bind_some,
      iha ha (by omega), BinTree.leftmost]

/-! ## One child in the place of another -/

section ReplaceChild

variable {parent : Option ℕ} {old new : ℕ}

theorem replaceChild_of_ne (h : parent ≠ some j) :
    (s.replaceChild parent old new).nodes j = s.nodes j := by
  cases parent with
  | none => rfl
  | some q =>
    have hj : j ≠ q := fun heq => h (heq ▸ rfl)
    rw [replaceChild]
    split_ifs
    · exact setNode_of_ne _ hj
    · exact setNode_of_ne _ hj

theorem replaceChild_view (q : ℕ) :
    (s.replaceChild (some q) old new).view q =
      (s.view q).map fun n => if n.left = some old then { n with left := some new }
        else { n with right := some new } := by
  rw [view, view, replaceChild]
  split_ifs with hleft
  · rw [setNode_self, TreeNode.view, TreeNode.view, Option.map_map]
    refine congrArg (Option.map · _) (funext fun parent => ?_)
    exact (if_pos hleft).symm
  · rw [setNode_self, TreeNode.view, TreeNode.view, Option.map_map]
    refine congrArg (Option.map · _) (funext fun parent => ?_)
    exact (if_neg hleft).symm

theorem replaceChild_winOf : (s.replaceChild parent old new).winOf = s.winOf := by
  funext j
  cases parent with
  | none => rfl
  | some q =>
    rw [replaceChild]
    by_cases hj : j = q
    · subst hj
      split_ifs
      · rw [winOf, setNode_self, winOf]
      · rw [winOf, setNode_self, winOf]
    · split_ifs
      · rw [winOf, setNode_of_ne _ hj, winOf]
      · rw [winOf, setNode_of_ne _ hj, winOf]

/-- Only nodes and the root change. -/
theorem replaceChild_rest : s.replaceChild parent old new =
    { s with
      nodes := (s.replaceChild parent old new).nodes
      root := if parent = none then some new else s.root } := by
  cases parent with
  | none => rfl
  | some q =>
    rw [if_neg (Option.some_ne_none q), replaceChild]
    split_ifs
    · rfl
    · rfl

/-- The child of the node above the hole is replaced. -/
theorem replaceChild_ctx (h : RepresentsCtx s.view none c old) (hnodup : c.nodes.Nodup)
    (hold : old ∉ c.nodes) :
    RepresentsCtx (s.replaceChild (c.parent none) old new).view none c new := by
  refine h.retarget hnodup hold (fun i hi hne => ?_) fun i hi heq n hn => ?_
  · rw [view, replaceChild_of_ne hne.symm, view]
  · rw [← heq, replaceChild_view, hn]
    rfl

end ReplaceChild

/-- The leaf in the hole is split. -/
theorem splitLeaf_spec {k n : ℕ} (hctx : RepresentsCtx s.view none c i)
    (hleaf : Represents s.view (c.parent none) (.leaf i)) (hnodup : c.nodes.Nodup)
    (hi : i ∉ c.nodes) (hk : k ∉ c.nodes) (hn : n ∉ c.nodes) (hik : i ≠ k) (hin : i ≠ n)
    (hkn : k ≠ n) (hnew : (s.nodes n).isLeaf = true) :
    ∃ s', s.splitLeaf i k n = some s' ∧
      Represents s'.view none (c.plug (.split k (.leaf i) (.leaf n))) ∧
      (∀ j, j ≠ k → s'.winOf j = s.winOf j) ∧
      s' = { s with
        nodes := s'.nodes
        root := if c.parent none = none then some k else s.root } := by
  obtain ⟨l, r, hview⟩ := hleaf
  obtain ⟨hparent, hisLeaf, -, -⟩ := nodes_of_view hview
  have hout : ∀ j, j ∉ c.nodes → c.parent none ≠ some j := fun j hj heq => by
    refine hj (TreeCtx.parent_mem heq fun hhole => ?_)
    exact Option.some_ne_none j (heq.symm.trans (c.parent_eq_none_iff.mpr hhole))
  -- the writes of the source in order: the container is linked before its children are
  let s₁ := s.setNode k
    { s.nodes k with
      isLeaf := false
      splitDir := s.nextSplitMode
      parent := (s.nodes i).parent }
  let s₂ := s₁.replaceChild (c.parent none) i k
  let s₃ := s₂.setNode k { s₂.nodes k with left := some i }
  let s₄ := s₃.setNode i { s₃.nodes i with parent := .node k }
  let s₅ := s₄.setNode k { s₄.nodes k with right := some n }
  -- what they leave at the container, at the old leaf, at the new leaf, and elsewhere
  have hkept : ∀ j, j ≠ k → j ≠ i → j ≠ n →
      (s₅.setNode n { s₅.nodes n with parent := .node k }).nodes j = s₂.nodes j :=
    fun j hjk hji hjn => by
      rw [setNode_of_ne _ hjn, setNode_of_ne _ hjk, setNode_of_ne _ hji, setNode_of_ne _ hjk]
  have hcontainer : (s₅.setNode n { s₅.nodes n with parent := .node k }).nodes k =
      { s.nodes k with
        isLeaf := false
        splitDir := s.nextSplitMode
        parent := (s.nodes i).parent
        left := some i
        right := some n } := by
    rw [setNode_of_ne _ hkn, setNode_self, setNode_of_ne _ hik.symm, setNode_self,
      replaceChild_of_ne (hout k hk), setNode_self]
  have htarget : (s₅.setNode n { s₅.nodes n with parent := .node k }).nodes i =
      { s.nodes i with parent := .node k } := by
    rw [setNode_of_ne _ hin, setNode_of_ne _ hik, setNode_self, setNode_of_ne _ hik,
      replaceChild_of_ne (hout i hi), setNode_of_ne _ hik]
  have hleaf : (s₅.setNode n { s₅.nodes n with parent := .node k }).nodes n =
      { s.nodes n with parent := .node k } := by
    rw [setNode_self, setNode_of_ne _ hkn.symm, setNode_of_ne _ hin.symm,
      setNode_of_ne _ hkn.symm, replaceChild_of_ne (hout n hn), setNode_of_ne _ hkn.symm]
  -- the context stays, and the container is in its hole now
  have hctx₁ : RepresentsCtx s₁.view none c i := hctx.congr fun j hj => by
    have hjk : j ≠ k := fun heq => hk (heq ▸ hj)
    rw [view, setNode_of_ne _ hjk, view]
  have hctx₂ : RepresentsCtx s₂.view none c k := replaceChild_ctx hctx₁ hnodup hi
  refine ⟨_, by rw [splitLeaf, hparent]; rfl, ?_, fun j hj => ?_, ?_⟩
  · refine represents_plug.mpr ⟨hctx₂.congr fun j hj => ?_, ?_, ⟨l, r, ?_⟩,
      (s.nodes n).left, (s.nodes n).right, ?_⟩
    · have hjk : j ≠ k := fun heq => hk (heq ▸ hj)
      have hji : j ≠ i := fun heq => hi (heq ▸ hj)
      have hjn : j ≠ n := fun heq => hn (heq ▸ hj)
      rw [view, hkept j hjk hji hjn, view]
    · rw [view, hcontainer, TreeNode.view, hparent]
      rfl
    · obtain ⟨-, -, hl, hr⟩ := nodes_of_view hview
      rw [view, htarget, TreeNode.view, hisLeaf, hl, hr]
      rfl
    · rw [view, hleaf, TreeNode.view, hnew]
      rfl
  · by_cases hji : j = i
    · rw [winOf, hji, htarget, winOf]
    · by_cases hjn : j = n
      · rw [winOf, hjn, hleaf, winOf]
      · have hwin : s₂.winOf j = s₁.winOf j := congrFun replaceChild_winOf j
        rw [winOf, hkept j hj hji hjn]
        refine hwin.trans ?_
        rw [winOf, setNode_of_ne _ hj, winOf]
  · have hrest := @replaceChild_rest s₁ (c.parent none) i k
    exact congrArg (fun u : Wm => { u with
      nodes := (s₅.setNode n { s₅.nodes n with parent := .node k }).nodes }) hrest

/-! ## The tree -/

/-- The leaves of a tree, if there is one. -/
def leavesOf (t : Option BinTree) : List ℕ := t.elim [] BinTree.leaves

/-- The nodes of a tree, if there is one. -/
def nodesOf (t : Option BinTree) : List ℕ := t.elim [] BinTree.nodes

/-- The nodes hold a tree, one of whose leaves has the focus. The other nodes are free, and nothing
has gone wrong. -/
structure Holds (s : Wm) (t : Option BinTree) : Prop where
  root : s.root = t.map BinTree.index
  represents : ∀ b ∈ t, Represents s.view none b
  focused : ∀ b ∈ t, ∃ i ∈ b.leaves, s.focusedNode = some i
  unfocused : t = none → s.focusedNode = none
  pool : s.Pool (nodesOf t)
  faults : s.faults = []

variable {tree : Option BinTree} {b : BinTree}

theorem Holds.isLeaf (h : s.Holds (some b)) (hi : i ∈ b.leaves) : (s.nodes i).isLeaf = true := by
  obtain ⟨c, rfl⟩ := TreeCtx.exists_plug hi
  obtain ⟨-, l, r, hview⟩ := represents_plug.mp (h.represents _ rfl)
  exact (nodes_of_view hview).2.1

theorem length_nodesOf_le (tree : Option BinTree) :
    (nodesOf tree).length ≤ 2 * (leavesOf tree).length := by
  cases tree with
  | none => exact le_rfl
  | some b =>
    have hlength := b.length_nodes
    rw [nodesOf, leavesOf, Option.elim, Option.elim]
    omega

/-- A new leaf, before it is put into the tree. -/
structure NewLeaf (s s' : Wm) (used : List ℕ) (n slot : ℕ) : Prop where
  fresh : n ∉ used
  node : s'.nodes n = { TreeNode.zero with isLeaf := true, win := some slot }
  others : ∀ j, j ≠ n → s'.nodes j = s.nodes j
  pool : s'.Pool (n :: used)
  rest : ∃ nodes idx size, s' =
    { s with nodes := nodes, nodePoolIdx := idx, freeStackSize := size }

theorem Pool.newLeaf {used : List ℕ} (h : s.Pool used) (hroom : used.length < maxNodes) (slot : ℕ) :
    ∃ n s₁ s₂, s.treeAlloc = (some n, s₁) ∧
      s₂ = s₁.setNode n { s₁.nodes n with isLeaf := true, win := some slot, parent := .null } ∧
      s.NewLeaf s₂ used n slot := by
  obtain ⟨n, idx, size, hn, halloc, hpool⟩ := h.treeAlloc hroom
  refine ⟨n, _, _, halloc, rfl, hn, ?_, fun j hj => ?_, hpool.congr rfl rfl rfl, _, _, _, rfl⟩
  · rw [setNode_self]
    exact congrArg
      (fun m : TreeNode => { m with isLeaf := true, win := some slot, parent := .null })
      (setNode_self s n TreeNode.zero)
  · exact (setNode_of_ne _ hj).trans (setNode_of_ne _ hj)

/-- The focused leaf is split. -/
theorem Holds.split {s₂ : Wm} {n : ℕ} (h : s.Holds (some b)) (hnew : s.NewLeaf s₂ b.nodes n slot)
    (hroom : b.nodes.length + 1 < maxNodes) (hi : i ∈ b.leaves) :
    ∃ k s₃ s₄ b', s₂.treeAlloc = (some k, s₃) ∧ s₃.splitLeaf i k n = some s₄ ∧
      Wm.Holds { s₄ with focusedNode := some n } (some b') ∧ b'.leaves.Perm (n :: b.leaves) ∧
      s₄.winOf n = some slot ∧ (∀ j ∈ b.leaves, s₄.winOf j = s.winOf j) ∧
      s₄.windows = s.windows := by
  -- the leaf to be split is in the hole of a context that does not have it
  obtain ⟨c, rfl⟩ := TreeCtx.exists_plug hi
  have hperm := c.nodes_plug (.leaf i)
  have hnodup : (c.nodes ++ [i]).Nodup := hperm.nodup_iff.mp h.pool.nodup
  obtain ⟨hcnodup, -, hdisjoint⟩ := List.nodup_append'.mp hnodup
  have hi' : i ∉ c.nodes := fun hmem => hdisjoint hmem List.mem_cons_self
  have hmemC : ∀ j ∈ c.nodes, j ∈ (c.plug (.leaf i)).nodes := fun j hj =>
    hperm.symm.subset (List.mem_append_left _ hj)
  have hmemI : i ∈ (c.plug (.leaf i)).nodes :=
    hperm.symm.subset (List.mem_append_right _ List.mem_cons_self)
  -- the container was not in use, so the tree does not see that it is cleared
  obtain ⟨k, idx, size, hk, halloc, hpool⟩ := hnew.pool.treeAlloc hroom
  have hkn : k ≠ n := List.ne_of_not_mem_cons hk
  replace hk := List.not_mem_of_not_mem_cons hk
  have hsame : ∀ j ∈ (c.plug (.leaf i)).nodes, (s₂.setNode k TreeNode.zero).nodes j = s.nodes j :=
    fun j hj => by
      have hjk : j ≠ k := fun heq => hk (heq ▸ hj)
      have hjn : j ≠ n := fun heq => hnew.fresh (heq ▸ hj)
      rw [setNode_of_ne _ hjk, hnew.others j hjn]
  have hrep : Represents (s₂.setNode k TreeNode.zero).view none (c.plug (.leaf i)) :=
    (h.represents _ rfl).congr fun j hj => congrArg TreeNode.view (hsame j hj)
  obtain ⟨hctx, hleaf⟩ := represents_plug.mp hrep
  have hnode : (s₂.setNode k TreeNode.zero).nodes n =
      { TreeNode.zero with isLeaf := true, win := some slot } := by
    rw [setNode_of_ne _ (Ne.symm hkn), hnew.node]
  obtain ⟨s₄, hsplit, hrep', hwin, hrest⟩ := splitLeaf_spec
    (s := { s₂.setNode k TreeNode.zero with nodePoolIdx := idx, freeStackSize := size }) hctx hleaf
    hcnodup hi' (fun hmem => hk (hmemC k hmem)) (fun hmem => hnew.fresh (hmemC n hmem))
    (fun heq => hk (heq ▸ hmemI)) (fun heq => hnew.fresh (heq ▸ hmemI)) hkn
    (congrArg TreeNode.isLeaf hnode)
  obtain ⟨nodes, idx₂, size₂, hs₂⟩ := hnew.rest
  refine ⟨k, _, s₄, c.plug (.split k (.leaf i) (.leaf n)), halloc, hsplit, ⟨?_, ?_, ?_, ?_, ?_, ?_⟩,
    ?_, ?_, fun j hj => ?_, ?_⟩
  · have hroot : s₄.root = if c.parent none = none then some k else s.root := by
      rw [hrest, hs₂]
      rfl
    refine hroot.trans ?_
    rw [Option.map_some, TreeCtx.index_plug, BinTree.index]
    -- the root changes only when the leaf was the whole tree
    split_ifs with hhole
    · rw [(c.parent_eq_none_iff).mp hhole]
      rfl
    · rw [h.root, Option.map_some, TreeCtx.index_plug,
        TreeCtx.index_eq (fun hc => hhole (c.parent_eq_none_iff.mpr hc)) k]
  · rintro b hb
    obtain rfl := Option.some_inj.mp hb
    exact hrep'
  · rintro b hb
    obtain rfl := Option.some_inj.mp hb
    refine ⟨n, (c.leaves_plug _).symm.subset (List.mem_append_right _ ?_), rfl⟩
    exact List.mem_cons_of_mem _ List.mem_cons_self
  · exact fun hnone => absurd hnone (Option.some_ne_none _)
  · have hpool₄ : Wm.Pool { s₄ with focusedNode := some n } _ :=
      hpool.congr (by rw [hrest]) (by rw [hrest]) (by rw [hrest])
    have hnodes : (c.plug (.split k (.leaf i) (.leaf n))).nodes.Perm
        ([k, n] ++ (c.plug (.leaf i)).nodes) :=
      c.nodes_plug_append ((List.Perm.swap n i []).cons k)
    exact hpool₄.congr_used hnodes
  · rw [hrest, hs₂]
    exact h.faults
  · exact c.leaves_plug_append (l := [n]) (List.Perm.swap n i [])
  · rw [hwin n (Ne.symm hkn)]
    exact congrArg TreeNode.win hnode
  · have hmem := (c.plug (.leaf i)).leaves_subset j hj
    rw [hwin j fun heq => hk (heq ▸ hmem)]
    exact congrArg TreeNode.win (hsame j hmem)
  · rw [hrest, hs₂]
    rfl

/-- A window is put into the tree. -/
theorem Holds.insertWindowIntoTree (h : s.Holds tree) (hroom : (leavesOf tree).length < maxWindows)
    (slot : ℕ) :
    ∃ s' b n, s.insertWindowIntoTree slot = some s' ∧ s'.Holds (some b) ∧
      b.leaves.Perm (n :: leavesOf tree) ∧ s'.winOf n = some slot ∧
      (∀ j ∈ leavesOf tree, s'.winOf j = s.winOf j) ∧ s'.windows = s.windows := by
  have hlength := length_nodesOf_le tree
  have hmax : maxNodes = maxWindows * 2 := rfl
  obtain ⟨n, s₁, s₂, halloc, hs₂, hnew⟩ := h.pool.newLeaf (by omega) slot
  obtain ⟨nodes, idx, size, hrest⟩ := hnew.rest
  have hroot : s₂.root = s.root := by rw [hrest]
  rw [Wm.insertWindowIntoTree, halloc]
  simp only
  rw [← hs₂, hroot]
  cases tree with
  | none =>
    -- the first window is the root
    have hnone : s.root = none := h.root
    rw [hnone]
    refine ⟨_, .leaf n, n, rfl, ⟨rfl, ?_, ?_, fun hnone => absurd hnone (Option.some_ne_none _),
      hnew.pool.congr rfl rfl rfl, ?_⟩, .refl _, congrArg TreeNode.win hnew.node,
      fun j hj => absurd hj List.not_mem_nil, ?_⟩
    · rintro b hb
      obtain rfl := Option.some_inj.mp hb
      exact ⟨none, none, congrArg TreeNode.view hnew.node⟩
    · rintro b hb
      obtain rfl := Option.some_inj.mp hb
      exact ⟨n, List.mem_cons_self, rfl⟩
    · rw [hrest]
      exact h.faults
    · rw [hrest]
  | some b =>
    -- the focus is on a leaf, and this is the one that is split
    obtain ⟨i, hi, hfocused⟩ := h.focused b rfl
    have hnodes : b.nodes.length + 1 < maxNodes := by
      have hb := b.length_nodes
      have hroom : b.leaves.length < maxWindows := hroom
      omega
    obtain ⟨k, s₃, s₄, b', halloc', hsplit, hholds, hperm, hwinN, hwin, hwindows⟩ :=
      h.split hnew hnodes hi
    have hfocused₂ : s₂.focusedNode = some i := by
      rw [hrest]
      exact hfocused
    have htarget : s₂.leftmostLeaf (maxNodes + 1) i = some i := by
      have hne : i ≠ n := fun heq => hnew.fresh (heq ▸ BinTree.leaves_subset _ i hi)
      have hleaf : (s₂.nodes i).isLeaf = true := by
        rw [hnew.others i hne]
        exact h.isLeaf hi
      exact if_pos hleaf
    have hsome : s.root = some b.index := h.root
    rw [hsome]
    simp only
    rw [hfocused₂, Option.getD_some, htarget]
    simp only [Option.bind_eq_bind, Option.bind_some]
    rw [halloc']
    simp only
    rw [hsplit]
    exact ⟨_, b', n, rfl, hholds, hperm, hwinN, hwin, hwindows⟩

/-! ## Windows go -/

/-- The sibling takes the place of the parent. -/
theorem promote_spec {q : ℕ} {sib : BinTree} (hctx : RepresentsCtx s.view none c q)
    (hq : (s.nodes q).parent.follow = some (c.parent none)) (hsib : Represents s.view (some q) sib)
    (hnodup : (c.nodes ++ sib.nodes).Nodup) (hqc : q ∉ c.nodes) :
    ∃ s', s.promote q (some sib.index) = some s' ∧ Represents s'.view none (c.plug sib) ∧
      s'.winOf = s.winOf ∧ (∀ j, j ∉ c.nodes → j ∉ sib.nodes → s'.nodes j = s.nodes j) ∧
      s' = { s with
        nodes := s'.nodes
        root := if c.parent none = none then some sib.index else s.root } := by
  obtain ⟨hcnodup, hsnodup, hdisjoint⟩ := List.nodup_append'.mp hnodup
  let s₁ := s.setNode sib.index { s.nodes sib.index with parent := (s.nodes q).parent }
  have hout : ∀ j, j ∉ c.nodes → c.parent none ≠ some j := fun j hj heq => by
    refine hj (TreeCtx.parent_mem heq fun hhole => ?_)
    exact Option.some_ne_none j (heq.symm.trans (c.parent_eq_none_iff.mpr hhole))
  have hctx₁ : RepresentsCtx s₁.view none c q := hctx.congr fun j hj => by
    have hne : j ≠ sib.index := fun heq => hdisjoint hj (heq ▸ sib.index_mem_nodes)
    rw [view, setNode_of_ne _ hne, view]
  have hsib₁ : Represents s₁.view (c.parent none) sib := by
    refine hsib.reparent hsnodup (fun j _ hne => ?_) fun n hn => ?_
    · rw [view, setNode_of_ne _ hne, view]
    · obtain ⟨-, hleaf, hleft, hright⟩ := nodes_of_view hn
      rw [view, setNode_self, TreeNode.view, hq, hleaf, hleft, hright]
      rfl
  have hwin : s₁.winOf = s.winOf := by
    funext j
    by_cases hj : j = sib.index
    · rw [hj, winOf, setNode_self, winOf]
    · rw [winOf, setNode_of_ne _ hj, winOf]
  refine ⟨s₁.replaceChild (c.parent none) q sib.index, by rw [promote, hq]; rfl, ?_,
    replaceChild_winOf.trans hwin, fun j hjc hjs => ?_, ?_⟩
  · refine represents_plug.mpr ⟨replaceChild_ctx hctx₁ hcnodup hqc, hsib₁.congr fun j hj => ?_⟩
    rw [view, replaceChild_of_ne (hout j fun hjc => hdisjoint hjc hj), view]
  · have hne : j ≠ sib.index := fun heq => hjs (heq ▸ sib.index_mem_nodes)
    rw [replaceChild_of_ne (hout j hjc), setNode_of_ne _ hne]
  · exact replaceChild_rest

theorem dropBuffer_rest (s : Wm) (i : ℕ) :
    s.dropBuffer i = { s with windows := (s.dropBuffer i).windows } := by
  rw [dropBuffer]
  split
  · split_ifs
    · rfl
    · rfl
  · rfl

theorem follow_eq_node {parent : NodePtr} {q : ℕ} (h : parent.follow = some (some q)) :
    parent = .node q := by
  cases parent with
  | null => exact nomatch Option.some_inj.mp h
  | node index => exact congrArg NodePtr.node (Option.some_inj.mp (Option.some_inj.mp h))
  | deadDead => exact nomatch h

theorem follow_ne_dead {parent : NodePtr} {q : Option ℕ} (h : parent.follow = some q) :
    parent ≠ .deadDead := by
  rintro rfl
  exact nomatch h

/-- The only window is taken out of the tree. -/
theorem Holds.deleteRoot (h : s.Holds (some (.leaf i))) :
    ∃ s', s.deleteNode i = some s' ∧ s'.Holds none ∧ s'.windows = (s.dropBuffer i).windows := by
  obtain ⟨l, r, hview⟩ := h.represents _ rfl
  have hparent := (nodes_of_view hview).1
  have hdrop := s.dropBuffer_rest i
  obtain ⟨u, hu⟩ : ∃ u, u = s.dropBuffer i := ⟨_, rfl⟩
  rw [← hu] at hdrop ⊢
  have hparent' : (u.nodes i).parent.follow = some none := by
    rw [hdrop]
    exact hparent
  have hroot : u.root = some i := by
    rw [hdrop]
    exact h.root
  have hpool : u.Pool [i] := h.pool.congr (by rw [hdrop]) (by rw [hdrop]) (by rw [hdrop])
  let s₂ : Wm := { u with root := none, focusedNode := none }
  obtain ⟨stack, hfree, hpool'⟩ :=
    (hpool.congr rfl rfl rfl : s₂.Pool [i]).treeFree (follow_ne_dead hparent')
  refine ⟨s₂.treeFree i, ?_, ⟨?_, (fun b hb => nomatch hb), (fun b hb => nomatch hb), fun _ => ?_,
    hpool', ?_⟩, ?_⟩
  · rw [Wm.deleteNode, ← hu]
    simp only
    rw [hparent', hroot, if_pos rfl]
    rfl
  · rw [hfree]
    rfl
  · rw [hfree]
    rfl
  · rw [hfree]
    exact (congrArg Wm.faults hdrop).trans h.faults
  · rw [hfree]
    rfl

/-- The focused window has a sibling, which takes the place of both and of their container. -/
theorem Holds.deleteChild {q : ℕ} {sib : BinTree} (h : s.Holds (some b))
    (hfocused : s.focusedNode = some i) (hi : (s.nodes i).parent = .node q)
    (hq : (s.nodes q).parent.follow = some (c.parent none))
    (hctx : RepresentsCtx s.view none c q) (hsib : Represents s.view (some q) sib)
    (hsibling : s.getSibling i = some sib.index) (hindex : b.index = c.index q)
    (hperm : b.nodes.Perm (i :: q :: (c.plug sib).nodes)) :
    ∃ s', s.deleteNode i = some s' ∧ s'.Holds (some (c.plug sib)) ∧
      (∀ j ∈ (c.plug sib).nodes, s'.winOf j = s.winOf j) ∧
      s'.windows = (s.dropBuffer i).windows := by
  have hnodup := hperm.nodup_iff.mp h.pool.nodup
  obtain ⟨hi', hnodup⟩ := List.nodup_cons.mp hnodup
  obtain ⟨hq', hnodup⟩ := List.nodup_cons.mp hnodup
  have hiq : i ≠ q := List.ne_of_not_mem_cons hi'
  replace hi' := List.not_mem_of_not_mem_cons hi'
  have hparts := c.nodes_plug sib
  have hmemC : ∀ {j}, j ∈ c.nodes → j ∈ (c.plug sib).nodes := fun hj =>
    hparts.symm.subset (List.mem_append_left _ hj)
  have hmemS : ∀ {j}, j ∈ sib.nodes → j ∈ (c.plug sib).nodes := fun hj =>
    hparts.symm.subset (List.mem_append_right _ hj)
  have hdrop := s.dropBuffer_rest i
  obtain ⟨u, hu⟩ : ∃ u, u = s.dropBuffer i := ⟨_, rfl⟩
  rw [← hu] at hdrop ⊢
  have hnodes : u.nodes = s.nodes := by rw [hdrop]
  have hview : u.view = s.view := by rw [hdrop]; rfl
  obtain ⟨s₂, hpromote, hrep, hwin, hkept, hrest⟩ := promote_spec (s := u) (hview ▸ hctx)
    (hnodes ▸ hq) (hview ▸ hsib) (hparts.nodup_iff.mp hnodup) fun hj => hq' (hmemC hj)
  -- the leftmost leaf of the sibling gets the focus
  have hsib₂ := (represents_plug.mp hrep).2
  have hfuel : sib.nodes.length ≤ maxNodes + 1 := by
    have hlength := h.pool.length_eq
    have hbound := h.pool.bound
    have hnodes := hperm.length_eq
    rw [List.length_cons, List.length_cons, hparts.length_eq, List.length_append] at hnodes
    rw [nodesOf, Option.elim] at hlength
    omega
  have hfocused₂ : s₂.focusedNode = some i := by
    rw [hrest, hdrop]
    exact hfocused
  have hrefocus : s₂.refocus i (some sib.index) =
      some { s₂ with focusedNode := some sib.leftmost } := by
    rw [refocus, if_pos hfocused₂]
    exact congrArg (Option.bind · _) (leftmostLeaf_eq hsib₂ hfuel)
  -- the leaf and the container go out of use
  have hpool₂ : s₂.Pool (i :: q :: (c.plug sib).nodes) :=
    (h.pool.congr_used hperm.symm).congr (by rw [hrest, hdrop]) (by rw [hrest, hdrop])
      (by rw [hrest, hdrop])
  let s₃ : Wm := { s₂ with focusedNode := some sib.leftmost }
  have hkept' : ∀ j, j ∉ (c.plug sib).nodes → s₃.nodes j = s.nodes j := fun j hj =>
    (hkept j (fun hc => hj (hmemC hc)) fun hs => hj (hmemS hs)).trans (congrFun hnodes j)
  have hdead : (s₃.nodes i).parent ≠ .deadDead := by
    rw [hkept' i hi', hi]
    exact fun heq => nomatch heq
  obtain ⟨stack₄, hfree₄, hpool₄⟩ :=
    (hpool₂.congr rfl rfl rfl : s₃.Pool (i :: q :: (c.plug sib).nodes)).treeFree hdead
  have hnodes₄ : ∀ j, j ≠ i → (s₃.treeFree i).nodes j = s₃.nodes j := fun j hj => by
    rw [hfree₄]
    exact setNode_of_ne _ hj
  have hdead₄ : ((s₃.treeFree i).nodes q).parent ≠ .deadDead := by
    rw [hnodes₄ q hiq.symm, hkept' q hq']
    exact follow_ne_dead hq
  obtain ⟨stack₅, hfree₅, hpool₅⟩ := hpool₄.treeFree hdead₄
  have hnodes₅ : ∀ j ∈ (c.plug sib).nodes,
      ((s₃.treeFree i).treeFree q).nodes j = s₂.nodes j := fun j hj => by
    have hjq : j ≠ q := fun heq => hq' (heq ▸ hj)
    have hji : j ≠ i := fun heq => hi' (heq ▸ hj)
    rw [hfree₅]
    exact (setNode_of_ne _ hjq).trans (hnodes₄ j hji)
  -- `tree_free` writes the nodes and the stack, and nothing else
  have hrest₅ : ∃ nodes stack size, (s₃.treeFree i).treeFree q =
      { s₃ with nodes := nodes, freeStack := stack, freeStackSize := size } := by
    rw [hfree₅, hfree₄]
    exact ⟨_, _, _, rfl⟩
  obtain ⟨nodes₅, stack, size, hrest₅⟩ := hrest₅
  refine ⟨(s₃.treeFree i).treeFree q, ?_, ⟨?_, ?_, ?_,
    fun hnone => absurd hnone (Option.some_ne_none _), hpool₅, ?_⟩, fun j hj => ?_, ?_⟩
  · have hgetSibling : u.getSibling i = some sib.index := by
      rw [getSibling, hnodes]
      exact hsibling
    have hparent : (u.nodes i).parent.follow = some (some q) := by
      rw [hnodes, hi]
      rfl
    rw [Wm.deleteNode, ← hu]
    simp only
    rw [hparent, hgetSibling]
    simp only [Option.bind_eq_bind, Option.bind_some]
    rw [hpromote]
    simp only [Option.bind_some]
    rw [hrefocus]
    rfl
  · have hroot : s₂.root = if c.parent none = none then some sib.index else s.root := by
      rw [hrest, hdrop]
    rw [hrest₅]
    refine hroot.trans ?_
    rw [Option.map_some, TreeCtx.index_plug]
    split_ifs with hhole
    · rw [(c.parent_eq_none_iff).mp hhole]
      rfl
    · rw [h.root, Option.map_some, hindex,
        TreeCtx.index_eq (fun hc => hhole (c.parent_eq_none_iff.mpr hc)) q]
  · rintro t ht
    obtain rfl := Option.some_inj.mp ht
    exact hrep.congr fun j hj => congrArg TreeNode.view (hnodes₅ j hj)
  · rintro t ht
    obtain rfl := Option.some_inj.mp ht
    refine ⟨sib.leftmost, ?_, ?_⟩
    · exact (c.leaves_plug sib).symm.subset (List.mem_append_right _ sib.leftmost_mem)
    · rw [hrest₅]
  · rw [hrest₅]
    have hfaults : s₂.faults = s.faults := by rw [hrest, hdrop]
    exact hfaults.trans h.faults
  · have hwin₅ : ((s₃.treeFree i).treeFree q).winOf j = s₂.winOf j :=
      congrArg TreeNode.win (hnodes₅ j hj)
    rw [hwin₅, hwin, hdrop]
    rfl
  · rw [hrest₅]
    have hwindows : s₂.windows = u.windows := by rw [hrest]
    exact hwindows

/-- The focused window is taken out of the tree. -/
theorem Holds.deleteNode (h : s.Holds (some b)) (hi : i ∈ b.leaves)
    (hfocused : s.focusedNode = some i) :
    ∃ s' tree, s.deleteNode i = some s' ∧ s'.Holds tree ∧ b.leaves.Perm (i :: leavesOf tree) ∧
      (∀ j ∈ leavesOf tree, s'.winOf j = s.winOf j) ∧ s'.windows = (s.dropBuffer i).windows := by
  obtain ⟨c, rfl⟩ := TreeCtx.exists_plug hi
  by_cases hhole : c = .hole
  · subst hhole
    obtain ⟨s', hdelete, hholds, hwindows⟩ := Holds.deleteRoot h
    exact ⟨s', none, hdelete, hholds, .refl _, fun j hj => absurd hj List.not_mem_nil, hwindows⟩
  · obtain ⟨c', q, sib, hsib⟩ := TreeCtx.exists_sibling hhole
    have hrep := h.represents _ rfl
    rcases hsib with hsib | hsib
    -- the sibling on the right
    · rw [hsib] at h hrep ⊢
      obtain ⟨hctx, hview, ⟨l, r, hleaf⟩, hother⟩ := represents_plug.mp hrep
      obtain ⟨hq, -, hleft, hright⟩ := nodes_of_view hview
      have hparent := follow_eq_node (nodes_of_view hleaf).1
      obtain ⟨s', hdelete, hholds, hwin, hwindows⟩ := h.deleteChild hfocused hparent hq hctx hother
        (by rw [getSibling, hparent]; exact (if_pos hleft).trans hright) (c'.index_plug _)
        (c'.nodes_plug_append (l := [i, q]) (List.Perm.swap i q _))
      exact ⟨s', _, hdelete, hholds, c'.leaves_plug_append (l := [i]) (.refl _),
        fun j hj => hwin j (BinTree.leaves_subset _ j hj), hwindows⟩
    -- the sibling on the left
    · rw [hsib] at h hrep ⊢
      obtain ⟨hctx, hview, hother, ⟨l, r, hleaf⟩⟩ := represents_plug.mp hrep
      obtain ⟨hq, -, hleft, hright⟩ := nodes_of_view hview
      have hparent := follow_eq_node (nodes_of_view hleaf).1
      have hne : (s.nodes q).left ≠ some i := by
        intro heq
        have hindex : sib.index = i := Option.some_inj.mp (hleft.symm.trans heq)
        have hnodup := (c'.nodes_plug _).nodup_iff.mp h.pool.nodup
        have hpart := (List.nodup_append'.mp hnodup).2.1
        have hdisjoint := (List.nodup_append'.mp (List.nodup_cons.mp hpart).2).2.2
        exact hdisjoint (hindex ▸ sib.index_mem_nodes) List.mem_cons_self
      obtain ⟨s', hdelete, hholds, hwin, hwindows⟩ := h.deleteChild hfocused hparent hq hctx hother
        (by rw [getSibling, hparent]; exact (if_neg hne).trans hleft) (c'.index_plug _)
        (c'.nodes_plug_append (l := [i, q])
          (((List.perm_append_singleton i _).cons q).trans (List.Perm.swap i q _)))
      exact ⟨s', _, hdelete, hholds,
        c'.leaves_plug_append (l := [i]) (List.perm_append_singleton i _),
        fun j hj => hwin j (BinTree.leaves_subset _ j hj), hwindows⟩

/-! ## The windows of the leaves -/

/-- Each leaf has a window that is alive, different leaves have different windows, and each window
that is alive has a leaf. -/
structure Shows (s : Wm) (leaves : List ℕ) : Prop where
  windows : ∀ i ∈ leaves, ∃ slot < maxWindows,
    s.winOf i = some slot ∧ (s.windows slot).alive = true
  nodup : (leaves.map s.winOf).Nodup
  alive : ∀ slot < maxWindows, (s.windows slot).alive = true → ∃ i ∈ leaves, s.winOf i = some slot

namespace Shows

variable {leaves leaves' : List ℕ}

theorem perm (h : s.Shows leaves) (hperm : leaves'.Perm leaves) : s.Shows leaves' where
  windows i hi := h.windows i (hperm.subset hi)
  nodup := (hperm.map s.winOf).nodup_iff.mpr h.nodup
  alive slot hslot halive := by
    obtain ⟨i, hi, hwin⟩ := h.alive slot hslot halive
    exact ⟨i, hperm.symm.subset hi, hwin⟩

theorem congr (h : s.Shows leaves) (hwin : ∀ i ∈ leaves, s'.winOf i = s.winOf i)
    (halive : ∀ slot, (s'.windows slot).alive = (s.windows slot).alive) : s'.Shows leaves where
  windows i hi := by
    obtain ⟨slot, hslot, hwini, hali⟩ := h.windows i hi
    exact ⟨slot, hslot, (hwin i hi).trans hwini, (halive slot).trans hali⟩
  nodup := by
    rw [List.map_congr_left hwin]
    exact h.nodup
  alive slot hslot hali := by
    obtain ⟨i, hi, hwini⟩ := h.alive slot hslot ((halive slot).symm.trans hali)
    exact ⟨i, hi, (hwin i hi).trans hwini⟩

theorem subset_range (h : s.Shows leaves) :
    leaves.map s.winOf ⊆ (List.range maxWindows).map some := fun win hwin => by
  obtain ⟨i, hi, rfl⟩ := List.mem_map.mp hwin
  obtain ⟨slot, hslot, hwini, -⟩ := h.windows i hi
  exact List.mem_map.mpr ⟨slot, List.mem_range.mpr hslot, hwini.symm⟩

/-- The windows of the leaves are among the sixteen, so there are no more leaves. -/
theorem length_le (h : s.Shows leaves) : leaves.length ≤ maxWindows := by
  have hlength := (h.nodup.subperm h.subset_range).length_le
  rwa [List.length_map, List.length_map, List.length_range] at hlength

/-- When a window is dead, there are fewer leaves. -/
theorem length_lt (h : s.Shows leaves) (hslot : slot < maxWindows)
    (hdead : (s.windows slot).alive = false) : leaves.length < maxWindows := by
  have hfresh : some slot ∉ leaves.map s.winOf := fun hmem => by
    obtain ⟨i, hi, hwini⟩ := List.mem_map.mp hmem
    obtain ⟨slot', -, hwini', hali⟩ := h.windows i hi
    obtain rfl := Option.some_inj.mp (hwini.symm.trans hwini')
    exact Bool.false_ne_true (hdead.symm.trans hali)
  have hsubset : some slot :: leaves.map s.winOf ⊆ (List.range maxWindows).map some :=
    List.cons_subset.mpr
      ⟨List.mem_map.mpr ⟨slot, List.mem_range.mpr hslot, rfl⟩, h.subset_range⟩
  have hlength := ((List.nodup_cons.mpr ⟨hfresh, h.nodup⟩).subperm hsubset).length_le
  rwa [List.length_cons, List.length_map, List.length_map, List.length_range] at hlength

/-- A window comes to life. -/
theorem cons {n : ℕ} (h : s.Shows leaves) (hslot : slot < maxWindows)
    (hdead : (s.windows slot).alive = false) (hnew : s'.winOf n = some slot)
    (hwin : ∀ i ∈ leaves, s'.winOf i = s.winOf i) (halive : (s'.windows slot).alive = true)
    (hothers : ∀ slot', slot' ≠ slot → (s'.windows slot').alive = (s.windows slot').alive) :
    s'.Shows (n :: leaves) where
  windows i hi := by
    rcases List.mem_cons.mp hi with rfl | hi
    · exact ⟨slot, hslot, hnew, halive⟩
    · obtain ⟨slot', hslot', hwini, hali⟩ := h.windows i hi
      have hne : slot' ≠ slot := fun heq =>
        Bool.false_ne_true (hdead.symm.trans (heq ▸ hali))
      exact ⟨slot', hslot', (hwin i hi).trans hwini, (hothers slot' hne).trans hali⟩
  nodup := by
    rw [List.map_cons, List.map_congr_left hwin, hnew]
    refine List.nodup_cons.mpr ⟨fun hmem => ?_, h.nodup⟩
    obtain ⟨i, hi, hwini⟩ := List.mem_map.mp hmem
    obtain ⟨slot', -, hwini', hali⟩ := h.windows i hi
    obtain rfl := Option.some_inj.mp (hwini.symm.trans hwini')
    exact Bool.false_ne_true (hdead.symm.trans hali)
  alive slot' hslot' hali := by
    by_cases hne : slot' = slot
    · exact ⟨n, List.mem_cons_self, hne ▸ hnew⟩
    · obtain ⟨i, hi, hwini⟩ := h.alive slot' hslot' ((hothers slot' hne).symm.trans hali)
      exact ⟨i, List.mem_cons_of_mem _ hi, (hwin i hi).trans hwini⟩

/-- A window dies. -/
theorem of_cons (h : s.Shows (i :: leaves)) (hi : s.winOf i = some slot)
    (hwin : ∀ j ∈ leaves, s'.winOf j = s.winOf j) (hdead : (s'.windows slot).alive = false)
    (hothers : ∀ slot', slot' ≠ slot → (s'.windows slot').alive = (s.windows slot').alive) :
    s'.Shows leaves where
  windows j hj := by
    obtain ⟨slot', hslot', hwinj, hali⟩ := h.windows j (List.mem_cons_of_mem _ hj)
    have hne : slot' ≠ slot := fun heq => by
      refine (List.nodup_cons.mp h.nodup).1 ?_
      rw [hi, ← heq, ← hwinj]
      exact List.mem_map_of_mem hj
    exact ⟨slot', hslot', (hwin j hj).trans hwinj, (hothers slot' hne).trans hali⟩
  nodup := by
    rw [List.map_congr_left hwin]
    exact (List.nodup_cons.mp h.nodup).2
  alive slot' hslot' hali := by
    have hne : slot' ≠ slot := fun heq => Bool.false_ne_true (hdead.symm.trans (heq ▸ hali))
    obtain ⟨j, hj, hwinj⟩ := h.alive slot' hslot' ((hothers slot' hne).symm.trans hali)
    rcases List.mem_cons.mp hj with rfl | hj
    · exact absurd (Option.some_inj.mp (hwinj.symm.trans hi)) hne
    · exact ⟨j, hj, (hwin j hj).trans hwinj⟩

end Shows

/-- The nodes hold a tree, and its leaves are the windows that are alive. -/
structure WindowTree (s : Wm) (tree : Option BinTree) : Prop where
  holds : s.Holds tree
  shows : s.Shows (leavesOf tree)

/-- Moving nodes and windows keeps the tree. -/
theorem WindowTree.moved (h : s.WindowTree tree) (hmoved : s.Moved s') : s'.WindowTree tree where
  holds :=
    { root := by
        rw [hmoved.rest]
        exact h.holds.root
      represents := fun b hb => hmoved.view.symm ▸ h.holds.represents b hb
      focused := by
        rw [hmoved.rest]
        exact h.holds.focused
      unfocused := by
        rw [hmoved.rest]
        exact h.holds.unfocused
      pool := h.holds.pool.congr (by rw [hmoved.rest]) (by rw [hmoved.rest]) (by rw [hmoved.rest])
      faults := by
        rw [hmoved.rest]
        exact h.holds.faults }
  shows := h.shows.congr (fun i _ => congrFun hmoved.winOf i) fun slot => by
    rw [hmoved.windows slot]
    rfl

/-- A new window is put into the tree. -/
theorem WindowTree.insert (h : s.WindowTree tree) (hslot : slot < maxWindows)
    (hdead : (s.windows slot).alive = false) (win : Window) (halive : win.alive = true) :
    ∃ s' b, (s.setWindow slot win).insertWindowIntoTree slot = some s' ∧ s'.WindowTree (some b) ∧
      s'.windows = Function.update s.windows slot win := by
  have hnew : (s.setWindow slot win).Holds tree := by
    obtain ⟨hroot, hrep, hfocused, hunfocused, hpool, hfaults⟩ := h.holds
    exact ⟨hroot, hrep, hfocused, hunfocused, hpool.congr rfl rfl rfl, hfaults⟩
  have hroom : (leavesOf tree).length < maxWindows := h.shows.length_lt hslot hdead
  obtain ⟨s', b, n, hinsert, hholds, hperm, hwinN, hwin, hwindows⟩ :=
    hnew.insertWindowIntoTree hroom slot
  refine ⟨s', b, hinsert, ⟨hholds, Shows.perm ?_ hperm⟩, hwindows⟩
  refine h.shows.cons hslot hdead hwinN hwin ?_ fun slot' hne => ?_
  · rw [hwindows, setWindow_self]
    exact halive
  · rw [hwindows, setWindow_of_ne _ hne]

theorem windows_dropBuffer {u : Wm} (hleaf : (u.nodes i).isLeaf = true)
    (hwin : u.winOf i = some slot) :
    (u.dropBuffer i).windows =
      Function.update u.windows slot { u.windows slot with bufferWmPtr := 0 } := by
  rw [winOf] at hwin
  rw [dropBuffer, hleaf, hwin]
  simp only
  split_ifs with hptr
  · rfl
  · have hsame : { u.windows slot with bufferWmPtr := 0 } = u.windows slot := by
      rw [← not_not.mp hptr]
    rw [hsame, Function.update_eq_self]

/-- The window of the focused leaf is taken out of the tree. -/
theorem WindowTree.removeFocused (h : s.WindowTree (some b)) :
    ∃ i slot s' tree, slot < maxWindows ∧ s.focusedNode = some i ∧ s.winOf i = some slot ∧
      (s.windows slot).alive = true ∧
      s.removeFocused = some (some (s.windows slot).pid, s') ∧ s'.WindowTree tree ∧
      s'.windows = Function.update s.windows slot
        { s.windows slot with alive := false, bufferWmPtr := 0 } := by
  obtain ⟨i, hi, hfocused⟩ := h.holds.focused b rfl
  obtain ⟨slot, hslot, hwin, halive⟩ := h.shows.windows i hi
  let win := { s.windows slot with alive := false }
  have hdead : (s.setWindow slot win).Holds (some b) := by
    obtain ⟨hroot, hrep, hfocus, hunfocused, hpool, hfaults⟩ := h.holds
    exact ⟨hroot, hrep, hfocus, hunfocused, hpool.congr rfl rfl rfl, hfaults⟩
  have hleaf : (s.nodes i).isLeaf = true := h.holds.isLeaf hi
  obtain ⟨s', tree, hdelete, hholds, hperm, hwins, hwindows⟩ := hdead.deleteNode hi hfocused
  have hwindows' : s'.windows = Function.update s.windows slot
      { s.windows slot with alive := false, bufferWmPtr := 0 } := by
    rw [hwindows, windows_dropBuffer (u := s.setWindow slot win) hleaf hwin, setWindow_self]
    exact Function.update_idem _ _ _
  refine ⟨i, slot, s', tree, hslot, hfocused, hwin, halive, ?_, ⟨hholds, ?_⟩, hwindows'⟩
  · have hwin' : (s.nodes i).win = some slot := hwin
    rw [Wm.removeFocused, hfocused]
    simp only
    rw [hwin']
    simp only
    rw [hdelete, Option.map_some]
  · refine (h.shows.perm hperm.symm).of_cons hwin hwins ?_ fun slot' hne => ?_
    · rw [hwindows', Function.update_self]
    · rw [hwindows', Function.update_of_ne hne]

/-! ## Focus -/

theorem collectLeaves_eq (h : Represents s.view p t) (hfuel : t.nodes.length ≤ fuel) :
    s.collectLeaves fuel (some t.index) = some t.leaves := by
  induction t generalizing p fuel with
  | leaf i =>
    obtain ⟨fuel, rfl⟩ := Nat.exists_eq_add_of_lt hfuel
    obtain ⟨l, r, hview⟩ := h
    rw [collectLeaves, BinTree.index, if_pos (nodes_of_view hview).2.1, BinTree.leaves]
  | split i a b iha ihb =>
    obtain ⟨fuel, rfl⟩ := Nat.exists_eq_add_of_lt (Nat.lt_of_lt_of_le (Nat.succ_pos _) hfuel)
    obtain ⟨hview, ha, hb⟩ := h
    obtain ⟨-, hsplit, hleft, hright⟩ := nodes_of_view hview
    rw [BinTree.nodes, List.length_cons, List.length_append] at hfuel
    rw [collectLeaves, BinTree.index, hsplit, if_neg Bool.false_ne_true, hleft, hright,
      iha ha (by omega), ihb hb (by omega)]
    rfl

/-- The focus moves to a leaf of the tree, and `collect_leaves` stays within its array. -/
theorem WindowTree.focusNext (h : s.WindowTree tree) :
    ∃ s', s.focusNext = some s' ∧ s'.WindowTree tree ∧
      s' = { s with focusedNode := s'.focusedNode } := by
  cases tree with
  | none =>
    have hroot : s.root = none := h.holds.root
    refine ⟨s, ?_, h, rfl⟩
    rw [Wm.focusNext, hroot]
  | some b =>
    have hroot : s.root = some b.index := h.holds.root
    have hlength : b.leaves.length ≤ maxWindows := h.shows.length_le
    have hpos := b.length_leaves_pos
    have hnodes := b.length_nodes
    have hmax : maxNodes = maxWindows * 2 := rfl
    have hfuel : b.nodes.length ≤ maxNodes + 1 := by omega
    have hcollect := collectLeaves_eq (h.holds.represents _ rfl) hfuel
    have hlt : s.nextIndex b.leaves % b.leaves.length < b.leaves.length := Nat.mod_lt _ hpos
    refine ⟨{ s with focusedNode := b.leaves[s.nextIndex b.leaves % b.leaves.length]? }, ?_,
      ⟨?_, ?_⟩, rfl⟩
    · rw [Wm.focusNext, hroot]
      simp only
      rw [hcollect]
      simp only [Option.bind_eq_bind, Option.bind_some]
      rw [if_neg (Nat.not_lt.mpr hlength), if_neg hpos.ne', List.append_nil]
    · obtain ⟨hroot, hrep, hfocus, hunfocused, hpool, hfaults⟩ := h.holds
      refine ⟨hroot, hrep, fun t ht => ?_, fun hnone => absurd hnone (Option.some_ne_none _),
        hpool.congr rfl rfl rfl, hfaults⟩
      obtain rfl := Option.some_inj.mp ht
      exact ⟨b.leaves[s.nextIndex b.leaves % b.leaves.length], List.getElem_mem hlt,
        List.getElem?_eq_getElem hlt⟩
    · exact h.shows.congr (fun _ _ => rfl) fun _ => rfl

/-! ## Events -/

/-- The tree is laid out on the screen. -/
theorem WindowTree.updateLayout (h : s.WindowTree (some b)) (screen : Screen) :
    ∃ s', s.updateLayout screen =
        some (s', (tileRects s.dirs b screen.rect).flatMap s.leafPosts) ∧
      s.LaidOut s' b screen.rect ∧ s'.WindowTree (some b) := by
  have hroot : s.root = some b.index := h.holds.root
  have hlength : b.leaves.length ≤ maxWindows := h.shows.length_le
  have hnodes := b.length_nodes
  have hmax : maxNodes = maxWindows * 2 := rfl
  have hfuel : b.nodes.length ≤ maxNodes + 1 := by omega
  obtain ⟨s', hlayout, hlaid⟩ := layoutRecursive_eq (r := screen.rect) (h.holds.represents b rfl)
    (fun i hi => (h.shows.windows i hi).imp fun slot hslot => hslot.2.1) h.shows.nodup hfuel
  refine ⟨s', ?_, hlaid, h.moved hlaid.moved⟩
  rw [Wm.updateLayout, hroot]
  exact hlayout

theorem updateLayout_none {screen : Screen} (h : s.root = none) :
    s.updateLayout screen = some (s, []) := by
  rw [Wm.updateLayout, h]

theorem freeSlot_eq (h : s.freeSlot = some slot) :
    slot < maxWindows ∧ (s.windows slot).alive = false := by
  have hmem := List.mem_of_find?_eq_some h
  have hdead := List.find?_some h
  exact ⟨List.mem_range.mp hmem, Bool.not_eq_true' _ ▸ hdead⟩

/-- A client asks for a window: nothing happens, or a window is put into the tree and the tree is
laid out. -/
theorem WindowTree.handleNewClient (h : s.WindowTree tree) (screen : Screen) (pid : ℤ)
    (shared : ℕ × ℕ) :
    s.handleNewClient screen pid shared = some (s, []) ∨
      ∃ (slot : ℕ) (s₁ s₂ : Wm) (b : BinTree), slot < maxWindows ∧
        (s.windows slot).alive = false ∧ s₁.WindowTree (some b) ∧
        s₁.windows = Function.update s.windows slot ((s.windows slot).setup slot pid shared) ∧
        shared.1 ≠ 0 ∧
        s₁.LaidOut s₂ b screen.rect ∧ s₂.WindowTree (some b) ∧
        s.handleNewClient screen pid shared =
          some (s₂, (tileRects s₁.dirs b screen.rect).flatMap s₁.leafPosts ++
            [⟨pid, msgWindowCreated, toU64 (s₂.windows slot).width,
              toU64 (s₂.windows slot).height, (s₂.windows slot).bufferClientPtr⟩]) := by
  rw [Wm.handleNewClient, addClient]
  cases hfree : s.freeSlot with
  | none => exact Or.inl rfl
  | some slot =>
    simp only
    by_cases hshared : shared.1 = 0
    · rw [if_pos hshared]
      exact Or.inl rfl
    · obtain ⟨hslot, hdead⟩ := freeSlot_eq hfree
      obtain ⟨s₁, b, hinsert, htree, hwindows⟩ := h.insert hslot hdead
        ((s.windows slot).setup slot pid shared) rfl
      obtain ⟨s₂, hlayout, hlaid, htree'⟩ := htree.updateLayout screen
      rw [if_neg hshared, hinsert]
      refine Or.inr ⟨slot, s₁, s₂, b, hslot, hdead, htree, hwindows, hshared, hlaid, htree', ?_⟩
      simp only [Option.map_some, Option.bind_eq_bind, Option.bind_some]
      rw [hlayout]
      rfl

/-- The focused window is killed: nothing happens when there is none, or else it is taken out of
the tree and the tree is laid out. -/
theorem WindowTree.killFocused (h : s.WindowTree tree) (screen : Screen) :
    tree = none ∧ s.killFocused screen = some (s, []) ∨
      ∃ (slot : ℕ) (s₁ s₂ : Wm) (tree' : Option BinTree) (posts : List Post),
        slot < maxWindows ∧ (s.windows slot).alive = true ∧
        s₁.WindowTree tree' ∧ s₁.windows = Function.update s.windows slot
          { s.windows slot with alive := false, bufferWmPtr := 0 } ∧
        (tree' = none ∧ s₂ = s₁ ∧ posts = [] ∨
          ∃ b, tree' = some b ∧ s₁.LaidOut s₂ b screen.rect ∧
            posts = (tileRects s₁.dirs b screen.rect).flatMap s₁.leafPosts) ∧
        s₂.WindowTree tree' ∧
        s.killFocused screen =
          some (s₂, ⟨(s.windows slot).pid, msgQuitRequest, 0, 0, 0⟩ :: posts) := by
  cases tree with
  | none =>
    have hfocused := h.holds.unfocused rfl
    refine Or.inl ⟨rfl, ?_⟩
    rw [Wm.killFocused, Wm.removeFocused, hfocused]
    rfl
  | some b =>
    obtain ⟨i, slot, s₁, tree', hslot, -, -, halive, hremove, htree, hwindows⟩ := h.removeFocused
    refine Or.inr ?_
    rw [Wm.killFocused, hremove]
    simp only [Option.bind_eq_bind, Option.bind_some]
    cases tree' with
    | none =>
      refine ⟨slot, s₁, s₁, none, [], hslot, halive, htree, hwindows, Or.inl ⟨rfl, rfl, rfl⟩, htree,
        ?_⟩
      rw [updateLayout_none htree.holds.root]
      rfl
    | some b' =>
      obtain ⟨s₂, hlayout, hlaid, htree'⟩ := htree.updateLayout screen
      refine ⟨slot, s₁, s₂, some b', _, hslot, halive, htree, hwindows,
        Or.inr ⟨b', rfl, hlaid, rfl⟩, htree', ?_⟩
      rw [hlayout]
      rfl

/-- The step of the window tree: every event is handled, and the tree stays well formed. -/
theorem WindowTree.handle (h : s.WindowTree tree) (screen : Screen) (e : Event) :
    ∃ s' posts tree', s.handle screen e = some (s', posts) ∧ s'.WindowTree tree' := by
  cases e with
  | newClient pid shared =>
    rcases h.handleNewClient screen pid shared with heq | ⟨_, _, s₂, b, _, _, _, _, _, _, h₂, heq⟩
    · exact ⟨s, [], tree, heq, h⟩
    · exact ⟨s₂, _, some b, heq, h₂⟩
  | kill =>
    rcases h.killFocused screen with ⟨-, heq⟩ | ⟨_, _, s₂, tree', _, _, _, _, _, _, h₂, heq⟩
    · exact ⟨s, [], tree, heq, h⟩
    · exact ⟨s₂, _, tree', heq, h₂⟩
  | focusNext =>
    obtain ⟨s', heq, h', -⟩ := h.focusNext
    refine ⟨s', [], tree, ?_, h'⟩
    rw [Wm.handle, heq]
    rfl
  | splitMode mode =>
    refine ⟨{ s with nextSplitMode := mode }, [], tree, rfl, ?_, ?_⟩
    · obtain ⟨hroot, hrep, hfocus, hunfocused, hpool, hfaults⟩ := h.holds
      exact ⟨hroot, hrep, hfocus, hunfocused, hpool.congr rfl rfl rfl, hfaults⟩
    · exact h.shows.congr (fun _ _ => rfl) fun _ => rfl

theorem windowTree_start : start.WindowTree none where
  holds :=
    { root := rfl
      represents := fun _ hb => nomatch hb
      focused := fun _ hb => nomatch hb
      unfocused := fun _ => rfl
      pool := ⟨Nat.zero_le _, .refl _⟩
      faults := rfl }
  shows :=
    { windows := fun _ hi => absurd hi List.not_mem_nil
      nodup := List.nodup_nil
      alive := fun _ _ halive => absurd halive Bool.false_ne_true }

/-- The window manager handles an event. -/
def Handles (screen : Screen) (s : Wm) (e : Event) (s' : Wm) : Prop :=
  ∃ posts, s.handle screen e = some (s', posts)

/-- After every run the nodes hold a tree whose leaves are the windows that are alive, the nodes of
the tree and the free nodes make up the pool, and the next event is handled. Nothing has gone
wrong: `tree_alloc` has found a node whenever it was called, `tree_free` has found room and no node
that was free already, and `collect_leaves` has stayed within its array. -/
theorem tree_wellFormed (screen : Screen) {history : List Event}
    (run : Reaches (Handles screen) start history s) :
    ∃ tree : Option BinTree,
      s.root = tree.map BinTree.index ∧ (∀ b ∈ tree, Represents s.view none b) ∧
      s.Shows (leavesOf tree) ∧
      (∀ b ∈ tree, ∃ i ∈ b.leaves, s.focusedNode = some i) ∧
      (tree = none → s.focusedNode = none) ∧
      (nodesOf tree ++ s.free ++
        List.range' s.nodePoolIdx (maxNodes - s.nodePoolIdx)).Perm (List.range maxNodes) ∧
      s.faults = [] ∧ ∀ e, ∃ s', Handles screen s e s' := by
  obtain ⟨tree, h⟩ : ∃ tree, s.WindowTree tree := by
    refine run.invariant_state (I := fun s : Wm => ∃ tree, s.WindowTree tree)
      ⟨none, windowTree_start⟩ ?_
    rintro s e s' ⟨tree, h⟩ ⟨posts, hstep⟩
    obtain ⟨s₂, posts₂, tree', heq, h'⟩ := h.handle screen e
    obtain ⟨rfl, -⟩ := Prod.mk.inj (Option.some_inj.mp (heq.symm.trans hstep))
    exact ⟨tree', h'⟩
  obtain ⟨hroot, hrep, hfocus, hunfocused, hpool, hfaults⟩ := h.holds
  refine ⟨tree, hroot, hrep, h.shows, hfocus, hunfocused, hpool.partition, hfaults, fun e => ?_⟩
  obtain ⟨s', posts, -, heq, -⟩ := h.handle screen e
  exact ⟨s', posts, heq⟩

/-- Two clients come, the focus moves, and a window is killed. -/
def sampleEvents : List Event :=
  [.kill, .focusNext, .newClient 8 (0x20000, 0x800000000), .newClient 7 (0x10000, 0x800000000)]

/-- The events as a run, from the last to the first. -/
def replay (screen : Screen) : List Event → Option Wm
  | [] => some start
  | e :: history => (replay screen history).bind fun s => (s.handle screen e).map Prod.fst

theorem reaches_replay (screen : Screen) {history : List Event}
    (h : replay screen history = some s) :
    Reaches (Handles screen) start history s := by
  induction history generalizing s with
  | nil =>
    obtain rfl := Option.some_inj.mp h
    exact .start
  | cons e history ih =>
    obtain ⟨s₁, hreplay, hlast⟩ := Option.bind_eq_some_iff.mp h
    obtain ⟨⟨s₂, posts⟩, hhandle, rfl⟩ := Option.map_eq_some_iff.mp hlast
    exact (ih hreplay).snoc ⟨posts, hhandle⟩

theorem tree_wellFormed_sampleEvents : ∃ s, Reaches (Handles ⟨640, 480⟩) start sampleEvents s ∧
    s.faults = [] ∧ s.root = some 1 ∧ s.focusedNode = some 1 ∧ s.freeStackSize = 2 := by
  have hsome : ((replay ⟨640, 480⟩ sampleEvents).map fun s =>
      (s.root, s.focusedNode, s.freeStackSize)) = some (some 1, some 1, 2) := by decide +kernel
  obtain ⟨s, hreplay, hs⟩ := Option.map_eq_some_iff.mp hsome
  have run := reaches_replay ⟨640, 480⟩ hreplay
  obtain ⟨tree, -, -, -, -, -, -, hfaults, -⟩ := tree_wellFormed ⟨640, 480⟩ run
  exact ⟨s, run, hfaults, congrArg Prod.fst hs, congrArg (fun q => q.2.1) hs,
    congrArg (fun q => q.2.2) hs⟩

end Wm

end OpenIDP.Userspace
