import Mathlib.Data.List.Rotate
import OpenIDP.Userspace.WmTiling
import OpenIDP.Userspace.WmTree

/-!
# Going around the windows

`wm_focus_next` collects the leaves anew each time and looks for the focused one among them. As the
leaves are distinct it finds the place of the focus, and so goes around them.

## Main definitions

* `Wm.focusTimes` — the focus moves a number of times

## Main results

* `Wm.focusNext_cycle` — after as many moves as there are leaves each was focused once
-/

namespace OpenIDP.Userspace

open OpenIDP.Math OpenIDP.Process

namespace Wm

variable {s : Wm} {t : BinTree} {i : ℕ}

/-- Calls `wm_focus_next` a number of times. -/
def focusTimes (s : Wm) : ℕ → Option Wm
  | 0 => some s
  | k + 1 => (s.focusTimes k).bind focusNext

/-- The tree of the window manager, with nodes from the pool. -/
structure HasTree (s : Wm) (t : BinTree) : Prop where
  root : s.root = some t.index
  represents : Represents s.view none t
  nodup : t.nodes.Nodup
  pool : ∀ j ∈ t.nodes, j < maxNodes

/-- The trees that the window manager builds are such trees. -/
theorem WindowTree.hasTree (h : s.WindowTree (some t)) : s.HasTree t :=
  ⟨h.holds.root, h.holds.represents t rfl, h.holds.pool.nodup, fun _ hj => h.holds.pool.lt hj⟩

/-- The focus is no part of the tree. -/
theorem HasTree.setFocus (h : s.HasTree t) (focus : Option ℕ) :
    HasTree { s with focusedNode := focus } t := ⟨h.root, h.represents, h.nodup, h.pool⟩

theorem HasTree.length_le (h : s.HasTree t) : t.nodes.length ≤ maxNodes := by
  have hsubset : t.nodes ⊆ List.range maxNodes := fun j hj => List.mem_range.mpr (h.pool j hj)
  have hlength := (h.nodup.subperm hsubset).length_le
  rwa [List.length_range] at hlength

/-- The focused leaf is found at its place. -/
theorem nextIndex_eq {leaves : List ℕ} (hnodup : leaves.Nodup) (hi : i < leaves.length)
    (hfocus : s.focusedNode = leaves[i]?) : s.nextIndex leaves = i + 1 := by
  rw [List.getElem?_eq_getElem hi] at hfocus
  have hfind : leaves.findIdx? (fun leaf => s.focusedNode = some leaf) = some i := by
    refine List.findIdx?_eq_some_iff_getElem.mpr ⟨hi, ?_, fun j hj => ?_⟩
    · exact decide_eq_true hfocus
    · have hne : leaves[i] ≠ leaves[j] := fun heq =>
        hj.ne' ((hnodup.getElem_inj_iff).mp heq)
      rw [hfocus, decide_eq_true_eq, Option.some_inj]
      exact hne
  rw [nextIndex, hfind]

/-- One call moves the focus to the next leaf, and does nothing else. -/
theorem HasTree.focusNext (h : s.HasTree t) (hi : i < t.leaves.length)
    (hfocus : s.focusedNode = t.leaves[i]?) :
    s.focusNext = some { s with focusedNode := t.leaves[(i + 1) % t.leaves.length]? } := by
  have hlength := h.length_le
  have hleaves := t.length_nodes
  have hmax : maxNodes = maxWindows * 2 := rfl
  have hfits : t.leaves.length ≤ maxWindows := by omega
  have hpos : t.leaves.length ≠ 0 := t.length_leaves_pos.ne'
  rw [Wm.focusNext, h.root]
  simp only
  rw [collectLeaves_eq h.represents (Nat.le_succ_of_le hlength)]
  simp only [Option.bind_eq_bind, Option.bind_some]
  rw [if_neg (Nat.not_lt.mpr hfits), if_neg hpos, List.append_nil,
    nextIndex_eq (BinTree.nodup_leaves h.nodup) hi hfocus]

/-- Some calls move the focus as many leaves on. -/
theorem HasTree.focusTimes (h : s.HasTree t) (hi : i < t.leaves.length)
    (hfocus : s.focusedNode = t.leaves[i]?) (k : ℕ) :
    s.focusTimes k = some { s with focusedNode := t.leaves[(i + k) % t.leaves.length]? } := by
  induction k with
  | zero =>
    rw [Nat.add_zero, Nat.mod_eq_of_lt hi, ← hfocus]
    rfl
  | succ k ih =>
    have hlt : (i + k) % t.leaves.length < t.leaves.length := Nat.mod_lt _ t.length_leaves_pos
    have hnext : ((i + k) % t.leaves.length + 1) % t.leaves.length =
        (i + (k + 1)) % t.leaves.length := Nat.mod_add_mod _ _ _
    have hstep := (h.setFocus t.leaves[(i + k) % t.leaves.length]?).focusNext hlt rfl
    rw [Wm.focusTimes, ih, Option.bind_some, hstep, hnext]

/-- With `n` leaves, `n` calls focus each leaf once, from left to right and then from the left
again, and come back to the first. Only the focus changes. -/
theorem focusNext_cycle (h : s.HasTree t) (hi : i < t.leaves.length)
    (hfocus : s.focusedNode = t.leaves[i]?) :
    (∀ k, s.focusTimes k = some { s with focusedNode := t.leaves[(i + k) % t.leaves.length]? }) ∧
      (List.range t.leaves.length).map (fun k => (s.focusTimes (k + 1)).bind focusedNode) =
        (t.leaves.rotate (i + 1)).map some ∧
      (t.leaves.rotate (i + 1)).Perm t.leaves ∧ (t.leaves.rotate (i + 1)).Nodup ∧
      s.focusTimes t.leaves.length = some s := by
  have htimes := h.focusTimes hi hfocus
  refine ⟨htimes, ?_, List.rotate_perm _ _, List.nodup_rotate.mpr (BinTree.nodup_leaves h.nodup),
    ?_⟩
  · refine List.ext_getElem (by simp) fun k hk hk' => ?_
    rw [List.length_map, List.length_range] at hk
    rw [List.getElem_map, List.getElem_range, List.getElem_map, htimes, Option.bind_some]
    change t.leaves[(i + (k + 1)) % t.leaves.length]? = _
    rw [← List.getElem?_eq_getElem, List.getElem?_rotate hk]
    exact congrArg (fun m => t.leaves[m % t.leaves.length]?) (by omega)
  · rw [htimes, Nat.add_mod_right, Nat.mod_eq_of_lt hi, ← hfocus]

theorem focusNext_cycle_twoLeaves : twoLeaves.focusTimes 2 = some twoLeaves ∧
    (List.range 2).map (fun k => (twoLeaves.focusTimes (k + 1)).bind focusedNode) =
      [some 1, some 0] := by
  have htree : twoLeaves.HasTree (.split 2 (.leaf 0) (.leaf 1)) :=
    ⟨rfl, ⟨rfl, ⟨_, _, rfl⟩, _, _, rfl⟩, by decide, by decide⟩
  obtain ⟨-, hvisited, -, -, hback⟩ := @focusNext_cycle _ _ 0 htree (by decide) rfl
  exact ⟨hback, hvisited⟩

end Wm

end OpenIDP.Userspace
