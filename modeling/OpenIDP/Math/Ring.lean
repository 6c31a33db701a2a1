import Mathlib.Data.List.Nodup
import Mathlib.Logic.Function.Iterate
import Mathlib.Data.List.Range
import Mathlib.Order.Interval.Finset.Nat

/-!
# Circular lists

Nodes are addresses and `next` is what memory holds for each of them. `Ring next nodes`
says that following `next` from the first node visits the nodes of the list in order, each
once, and comes back to the first.

## Main definitions

* `Follows` — a segment of nodes linked in order
* `Ring` — a segment that closes on itself
* `ringSearch` — the `do … while` loop around the ring

## Main results

* `Ring.rotate` — a ring can be read from any of its nodes
* `Ring.insert`, `Ring.remove` — the two edits
* `Ring.iterate`, `Ring.mem_iff` — as many steps as there are nodes visit every node once
* `Ring.search_eq` — the loop ends, at the first node that passes the test
-/

namespace OpenIDP.Math

variable {next next' : ℕ → ℕ} {after a b : ℕ} {xs ys nodes rest : List ℕ}

/-- The nodes are linked in order, and the last one to `after`. -/
def Follows (next : ℕ → ℕ) : List ℕ → ℕ → Prop
  | [], _ => True
  | a :: rest, after => next a = rest.headD after ∧ Follows next rest after

theorem follows_append :
    Follows next (xs ++ ys) after ↔
      Follows next xs (ys.headD after) ∧ Follows next ys after := by
  induction xs with
  | nil => exact ⟨fun h => ⟨trivial, h⟩, And.right⟩
  | cons x xs ih =>
    have hhead : (xs ++ ys).headD after = xs.headD (ys.headD after) := by cases xs <;> rfl
    rw [List.cons_append, Follows, Follows, ih, hhead, and_assoc]

theorem Follows.congr (h : Follows next nodes after) (hnext : ∀ c ∈ nodes, next' c = next c) :
    Follows next' nodes after := by
  induction nodes with
  | nil => trivial
  | cons c rest ih =>
    exact ⟨(hnext c List.mem_cons_self).trans h.1,
      ih h.2 fun d hd => hnext d (List.mem_cons_of_mem _ hd)⟩

theorem Follows.next_mem (h : Follows next nodes after) (ha : a ∈ nodes) :
    next a ∈ nodes ∨ next a = after := by
  induction nodes with
  | nil => cases ha
  | cons c rest ih =>
    rcases List.mem_cons.mp ha with rfl | ha
    · cases rest with
      | nil => exact Or.inr h.1
      | cons d rest =>
        have hd : next a = d := h.1
        exact Or.inl (by simp [hd])
    · exact (ih h.2 ha).imp_left (List.mem_cons_of_mem _)

/-- The nodes form a circular list, read from its first node. -/
structure Ring (next : ℕ → ℕ) (nodes : List ℕ) : Prop where
  nodup : nodes.Nodup
  follows : Follows next nodes (nodes.headD 0)

theorem ring_singleton (ha : next a = a) : Ring next [a] := ⟨List.nodup_singleton a, ha, trivial⟩

theorem Ring.congr (h : Ring next nodes) (hnext : ∀ c ∈ nodes, next' c = next c) :
    Ring next' nodes :=
  ⟨h.nodup, h.follows.congr hnext⟩

theorem Ring.next_mem (h : Ring next nodes) (ha : a ∈ nodes) : next a ∈ nodes := by
  rcases h.follows.next_mem ha with hnext | hnext
  · exact hnext
  · rw [hnext]
    cases nodes with
    | nil => cases ha
    | cons c rest => exact List.mem_cons_self

/-- There are fewer nodes than addresses. -/
theorem Ring.length_lt {bound : ℕ} (h : Ring next nodes)
    (hbound : ∀ c ∈ nodes, 0 < c ∧ c < bound) (hpos : 0 < bound) : nodes.length < bound := by
  have hsubset : nodes.toFinset ⊆ Finset.Ioo 0 bound := fun c hc =>
    Finset.mem_Ioo.mpr (hbound c (List.mem_toFinset.mp hc))
  have hcard := Finset.card_le_card hsubset
  rw [List.toFinset_card_of_nodup h.nodup, Nat.card_Ioo] at hcard
  omega

/-- A ring read from another of its nodes. -/
theorem Ring.rotate (h : Ring next (xs ++ ys)) : Ring next (ys ++ xs) := by
  refine ⟨List.nodup_append_comm.mp h.nodup, ?_⟩
  have hfollows := follows_append.mp h.follows
  cases xs with
  | nil => simpa using h.follows
  | cons x xs =>
    cases ys with
    | nil => simpa using h.follows
    | cons y ys => exact follows_append.mpr ⟨hfollows.2, hfollows.1⟩

/-- A new node behind the first one. -/
theorem Ring.insert (h : Ring next (a :: rest)) (hb : b ∉ a :: rest) (hnexta : next' a = b)
    (hnextb : next' b = next a) (hnext : ∀ c ∈ rest, next' c = next c) :
    Ring next' (a :: b :: rest) := by
  obtain ⟨hba, hbrest⟩ := List.ne_and_not_mem_of_not_mem_cons hb
  obtain ⟨harest, hrest⟩ := List.nodup_cons.mp h.nodup
  refine ⟨?_, hnexta, hnextb.trans h.follows.1, h.follows.2.congr hnext⟩
  refine List.nodup_cons.mpr ⟨?_, List.nodup_cons.mpr ⟨hbrest, hrest⟩⟩
  exact List.not_mem_cons_of_ne_of_not_mem (Ne.symm hba) harest

/-- Unlinking the node behind the first one. -/
theorem Ring.remove (h : Ring next (a :: b :: rest)) (hnexta : next' a = next b)
    (hnext : ∀ c ∈ rest, next' c = next c) : Ring next' (a :: rest) := by
  obtain ⟨hab, hbrest⟩ := List.nodup_cons.mp h.nodup
  have harest : a ∉ rest := List.not_mem_of_not_mem_cons hab
  exact ⟨List.nodup_cons.mpr ⟨harest, (List.nodup_cons.mp hbrest).2⟩,
    hnexta.trans h.follows.2.1, h.follows.2.2.congr hnext⟩

/-- Unlinking a node anywhere behind the first one. -/
theorem Ring.remove_mid (h : Ring next (xs ++ a :: b :: ys)) (hnexta : next' a = next b)
    (hnext : ∀ c ∈ xs ++ ys, next' c = next c) : Ring next' (xs ++ a :: ys) := by
  have hrest : ∀ c ∈ ys ++ xs, next' c = next c := fun c hc =>
    hnext c (List.mem_append.mpr (List.mem_append.mp hc).symm)
  have hring : Ring next' (a :: (ys ++ xs)) := by
    refine Ring.remove (b := b) ?_ hnexta hrest
    simpa using h.rotate
  have hback : Ring next' ((a :: ys) ++ xs) := by simpa using hring
  exact hback.rotate

/-! ## Going round -/

/-- The nodes visited by following `next` from the first node of a segment. -/
theorem Follows.iterate (h : Follows next (a :: rest) after) :
    (List.range (rest.length + 1)).map (fun k => next^[k + 1] a) = rest ++ [after] := by
  induction rest generalizing a with
  | nil => simp [show next a = after from h.1]
  | cons b rest ih =>
    have hb : next a = b := h.1
    rw [List.length_cons, List.range_succ_eq_map, List.map_cons, List.map_map]
    have htail := ih h.2
    rw [← hb] at htail
    simp only [Function.iterate_zero, id_eq, Function.iterate_succ_apply, Nat.zero_add,
      List.cons_append] at htail ⊢
    rw [← htail, hb]
    rfl

/-- From any node of a ring, as many steps as there are nodes visit each node exactly
once. -/
theorem Ring.iterate (h : Ring next nodes) (ha : a ∈ nodes) :
    ((List.range nodes.length).map fun k => next^[k + 1] a).Perm nodes := by
  obtain ⟨xs, ys, rfl⟩ := List.append_of_mem ha
  have hring : Ring next (a :: (ys ++ xs)) := by simpa using h.rotate
  have hvisit := hring.follows.iterate
  have hlength : (xs ++ a :: ys).length = (ys ++ xs).length + 1 := by
    simp only [List.length_append, List.length_cons]
    omega
  rw [hlength, hvisit, List.headD_cons]
  have hfront : ((ys ++ xs) ++ [a]).Perm (a :: (ys ++ xs)) := List.perm_append_singleton _ _
  refine hfront.trans ?_
  exact (List.Perm.cons a List.perm_append_comm).trans List.perm_middle.symm

/-- The nodes that can be reached from a node of the ring are those of the ring. -/
theorem Ring.mem_iff (h : Ring next nodes) (ha : a ∈ nodes) :
    b ∈ nodes ↔ ∃ k, next^[k] a = b := by
  constructor
  · intro hb
    obtain ⟨k, -, hk⟩ := List.mem_map.mp ((h.iterate ha).mem_iff.mpr hb)
    exact ⟨k + 1, hk⟩
  · rintro ⟨k, rfl⟩
    induction k with
    | zero => exact ha
    | succ k ih =>
      rw [Function.iterate_succ_apply']
      exact h.next_mem ih

/-- `do { if (test(curr)) return curr; curr = curr->next; } while (curr != head)`, with `0`
when the loop comes back to `head`. There is no result if it has not ended after `rounds`
rounds. -/
def ringSearch (next : ℕ → ℕ) (head : ℕ) (test : ℕ → Bool) : ℕ → ℕ → Option ℕ
  | 0, _ => none
  | rounds + 1, curr =>
    if test curr then some curr
    else if next curr = head then some 0
    else ringSearch next head test rounds (next curr)

theorem Follows.search_eq {head : ℕ} {test : ℕ → Bool} {rounds : ℕ}
    (h : Follows next (a :: rest) head) (hhead : head ∉ rest)
    (hrounds : rest.length < rounds) :
    ringSearch next head test rounds a = some (((a :: rest).find? test).getD 0) := by
  induction rest generalizing a rounds with
  | nil =>
    cases rounds with
    | zero => exact absurd hrounds (Nat.not_lt_zero _)
    | succ rounds =>
      rw [ringSearch, List.find?_cons]
      cases test a with
      | true => rfl
      | false =>
        have hback : next a = head := h.1
        rw [if_neg Bool.false_ne_true, if_pos hback]
        rfl
  | cons b rest ih =>
    cases rounds with
    | zero => exact absurd hrounds (Nat.not_lt_zero _)
    | succ rounds =>
      have hb : next a = b := h.1
      obtain ⟨hne, hrest⟩ := List.ne_and_not_mem_of_not_mem_cons hhead
      rw [ringSearch, List.find?_cons]
      cases test a with
      | true => rfl
      | false =>
        rw [if_neg Bool.false_ne_true, hb, if_neg (Ne.symm hne)]
        exact ih h.2 hrest (by simpa using hrounds)

/-- Around a ring the loop ends, at the first node that passes the test. -/
theorem Ring.search_eq {test : ℕ → Bool} {rounds : ℕ} (h : Ring next (a :: rest))
    (hrounds : rest.length < rounds) :
    ringSearch next a test rounds a = some (((a :: rest).find? test).getD 0) :=
  h.follows.search_eq (List.nodup_cons.mp h.nodup).1 hrounds

end OpenIDP.Math
