import Mathlib.Data.List.Induction
import Mathlib.Data.Option.Basic
import Mathlib.Order.Nat

/-!
# Trees of nodes with indexed children

The nodes of a tree live in a store: `child node i` is the node behind entry `i` of a node,
if there is one. A path of indices leads from the root to a node, and the store is a tree,
down to some depth, when no node is reached on two paths. Then a change to one entry of one
node changes what a single path leads to, and leaves every other path alone.

## Main definitions

* `descend` — the node a path leads to
* `IsTree` — no node is reached on two paths

## Main results

* `IsTree.descend_link` — a new node behind an empty entry
* `IsTree.link` — the store remains a tree
-/

namespace OpenIDP.Math

variable {ν ι : Type*} {child child' : ν → ι → Option ν} {root f g t : ν} {p q : List ι} {i j : ι}
variable {depth depth' : ℕ}

/-- The node a path leads to. -/
def descend (child : ν → ι → Option ν) : ν → List ι → Option ν
  | node, [] => some node
  | node, i :: path => (child node i).bind fun next => descend child next path

@[simp] theorem descend_nil : descend child f [] = some f := rfl

theorem descend_cons :
    descend child f (i :: q) = (child f i).bind fun next => descend child next q := rfl

theorem descend_append :
    descend child f (p ++ q) = (descend child f p).bind fun next => descend child next q := by
  induction p generalizing f with
  | nil => rfl
  | cons i p ih =>
    rw [List.cons_append, descend_cons, descend_cons, Option.bind_assoc]
    congr 1
    funext next
    exact ih

theorem descend_concat :
    descend child f (p ++ [i]) = (descend child f p).bind fun next => child next i := by
  rw [descend_append]
  congr 1
  funext next
  rw [descend_cons]
  exact Option.bind_fun_some _

/-- A node is reached only through nodes that are reached. -/
theorem exists_of_descend_concat (h : descend child root (p ++ [i]) = some g) :
    ∃ f, descend child root p = some f ∧ child f i = some g := by
  rw [descend_concat] at h
  exact Option.bind_eq_some_iff.mp h

/-- No node is reached on two paths of at most `depth` indices. -/
def IsTree (child : ν → ι → Option ν) (depth : ℕ) (root : ν) : Prop :=
  ∀ ⦃p q f⦄, p.length ≤ depth → q.length ≤ depth → descend child root p = some f →
    descend child root q = some f → p = q

/-- Descending looks only at entries of nodes that are reached. -/
theorem descend_congr
    (h : ∀ p f i, p.length < q.length → descend child root p = some f →
      child' f i = child f i) :
    descend child' root q = descend child root q := by
  induction q using List.reverseRecOn with
  | nil => rfl
  | append_singleton q i ih =>
    rw [List.length_append, List.length_singleton] at h
    have hq := ih fun p f j hp => h p f j (by omega)
    rw [descend_concat, descend_concat, hq]
    cases hf : descend child root q with
    | none => rfl
    | some f => exact h q f i (Nat.lt_succ_self _) hf

namespace IsTree

theorem mono (h : IsTree child depth root) (hle : depth' ≤ depth) : IsTree child depth' root :=
  fun _ _ _ hp hq => h (hp.trans hle) (hq.trans hle)

/-- A tree without entries in its root. -/
theorem of_empty (hempty : ∀ i, child root i = none) : IsTree child depth root := by
  have hnil : ∀ {p f}, descend child root p = some f → p = [] := by
    intro p f hp
    cases p with
    | nil => rfl
    | cons i p =>
      rw [descend_cons, hempty] at hp
      cases hp
  intro p q f _ _ hp hq
  rw [hnil hp, hnil hq]

theorem congr (h : IsTree child depth root)
    (hsame : ∀ p f i, p.length < depth → descend child root p = some f →
      child' f i = child f i) : IsTree child' depth root := by
  have hdescend : ∀ {p}, p.length ≤ depth → descend child' root p = descend child root p :=
    fun hp => descend_congr fun q f i hq => hsame q f i (hq.trans_le hp)
  intro p q f hp hq hpf hqf
  rw [hdescend hp] at hpf
  rw [hdescend hq] at hqf
  exact h hp hq hpf hqf

/-- Two entries of nodes of the tree that lead to the same node are the same entry. -/
theorem entry_inj (h : IsTree child depth root) (hp : p.length < depth) (hq : q.length < depth)
    (hf : descend child root p = some f) (hg : descend child root q = some g)
    (hfi : child f i = some t) (hgj : child g j = some t) : f = g ∧ i = j := by
  have hpi : descend child root (p ++ [i]) = some t := by
    rw [descend_concat, hf]
    exact hfi
  have hqj : descend child root (q ++ [j]) = some t := by
    rw [descend_concat, hg]
    exact hgj
  have heq := h (by rw [List.length_append, List.length_singleton]; omega)
    (by rw [List.length_append, List.length_singleton]; omega) hpi hqj
  obtain ⟨rfl, hij⟩ := List.append_inj' heq rfl
  exact ⟨Option.some_inj.mp (hf.symm.trans hg), List.singleton_inj.mp hij⟩

/-- A new node behind an empty entry of the node at `p`. -/
theorem descend_link [DecidableEq ι] (h : IsTree child depth root) (hp : p.length < depth)
    (ht : descend child root p = some t) (hempty : child t i = none) (hlink : child' t i = some f)
    (hleaf : p.length + 1 < depth → ∀ j, child' f j = none)
    (hkept : ∀ q g j, q.length < depth → descend child root q = some g → (g = t → j ≠ i) →
      child' g j = child g j) (hq : q.length ≤ depth) :
    descend child' root q = if q = p ++ [i] then some f else descend child root q := by
  have hconcat : ∀ {q : List ι} {j}, q ++ [j] = p ++ [i] → q = p ∧ j = i := by
    intro q j heq
    obtain ⟨hqp, hji⟩ := List.append_inj' heq rfl
    exact ⟨hqp, List.singleton_inj.mp hji⟩
  have hnone : descend child root (p ++ [i]) = none := by
    rw [descend_concat, ht]
    exact hempty
  induction q using List.reverseRecOn with
  | nil => simp
  | append_singleton q j ih =>
    rw [List.length_append, List.length_singleton] at hq
    rw [descend_concat, descend_concat, ih (by omega)]
    by_cases hnew : q = p ++ [i]
    · -- below the new node there is nothing, now or before
      have hlen : q.length = p.length + 1 := by rw [hnew, List.length_append]; rfl
      have hne : q ++ [j] ≠ p ++ [i] := fun heq => by
        have hqp := congrArg List.length (hconcat heq).1
        omega
      rw [if_pos hnew, if_neg hne, hnew, hnone]
      exact hleaf (by omega) j
    · rw [if_neg hnew]
      cases hg : descend child root q with
      | none =>
        have hne : q ++ [j] ≠ p ++ [i] := fun heq => by
          rw [(hconcat heq).1, ht] at hg
          cases hg
        rw [if_neg hne]
        rfl
      | some g =>
        rw [Option.bind_some, Option.bind_some]
        split_ifs with heq
        · obtain ⟨rfl, rfl⟩ := hconcat heq
          obtain rfl := Option.some_inj.mp (hg.symm.trans ht)
          exact hlink
        · refine hkept q g j (by omega) hg ?_
          rintro rfl rfl
          exact heq (by rw [h (by omega) hp.le hg ht])

/-- The store with a new node remains a tree. -/
theorem link [DecidableEq ι] (h : IsTree child depth root) (hp : p.length < depth)
    (ht : descend child root p = some t) (hempty : child t i = none) (hlink : child' t i = some f)
    (hleaf : p.length + 1 < depth → ∀ j, child' f j = none)
    (hkept : ∀ q g j, q.length < depth → descend child root q = some g → (g = t → j ≠ i) →
      child' g j = child g j)
    (hnew : ∀ q, q.length ≤ depth → descend child root q ≠ some f) :
    IsTree child' depth root := by
  intro q q' g hq hq' hg hg'
  rw [h.descend_link hp ht hempty hlink hleaf hkept hq] at hg
  rw [h.descend_link hp ht hempty hlink hleaf hkept hq'] at hg'
  split_ifs at hg hg' with hqp hqp' hqp'
  · rw [hqp, hqp']
  · exact absurd (hg'.trans hg.symm) (hnew q' hq')
  · exact absurd (hg.trans hg'.symm) (hnew q hq)
  · exact h hq hq' hg hg'

end IsTree

end OpenIDP.Math
