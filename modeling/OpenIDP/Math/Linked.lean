import Mathlib.Data.List.Nodup

/-!
# Doubly linked nodes

Nodes are addresses; `next` and `prev` are what memory holds for each of them, and the
address `0` is the null pointer. `Linked next prev before nodes after` says that the
nodes of a list are linked in that order, where `before` and `after` are the pointers
that leave the list at its two ends. Segments compose, so an edit in the middle of a
list only concerns the nodes around it.

## Main definitions

* `Linked` — a segment of doubly linked nodes
* `search` — the `while` loop that follows `next` until a test succeeds

## Main results

* `linked_append` — a list of nodes is linked when its two halves are, to one another
* `Linked.insert_after`, `Linked.unlink_after` — the two edits of the links
* `search_eq` — the loop ends, at the first node that passes the test
-/

namespace OpenIDP.Math

variable {next prev next' prev' : ℕ → ℕ} {before after a b : ℕ} {xs ys nodes : List ℕ}

/-- The nodes are linked in order, from the pointer `before` to the pointer `after`. -/
def Linked (next prev : ℕ → ℕ) : ℕ → List ℕ → ℕ → Prop
  | _, [], _ => True
  | before, a :: rest, after =>
    prev a = before ∧ next a = rest.headD after ∧ Linked next prev a rest after

theorem headD_append (xs ys : List ℕ) (after : ℕ) :
    (xs ++ ys).headD after = xs.headD (ys.headD after) := by
  cases xs <;> rfl

theorem linked_append :
    Linked next prev before (xs ++ ys) after ↔
      Linked next prev before xs (ys.headD after) ∧
        Linked next prev (xs.getLastD before) ys after := by
  induction xs generalizing before with
  | nil => exact ⟨fun h => ⟨trivial, h⟩, And.right⟩
  | cons x xs ih =>
    rw [List.cons_append, Linked, Linked, ih, headD_append, List.getLastD_cons]
    simp only [and_assoc]

/-- A segment only depends on the links of its own nodes. -/
theorem Linked.congr (h : Linked next prev before nodes after)
    (hnext : ∀ c ∈ nodes, next' c = next c) (hprev : ∀ c ∈ nodes, prev' c = prev c) :
    Linked next' prev' before nodes after := by
  induction nodes generalizing before with
  | nil => trivial
  | cons c rest ih =>
    obtain ⟨hc, hn, hrest⟩ := h
    exact ⟨(hprev c List.mem_cons_self).trans hc, (hnext c List.mem_cons_self).trans hn,
      ih hrest (fun d hd => hnext d (List.mem_cons_of_mem _ hd))
        fun d hd => hprev d (List.mem_cons_of_mem _ hd)⟩

/-- Redirecting the pointer back from the first node. -/
theorem Linked.retarget {before' : ℕ} (h : Linked next prev before nodes after)
    (hhead : ∀ c ∈ nodes.head?, prev' c = before') (hnext : ∀ c ∈ nodes, next' c = next c)
    (hprev : ∀ c ∈ nodes.tail, prev' c = prev c) : Linked next' prev' before' nodes after := by
  cases nodes with
  | nil => trivial
  | cons c rest =>
    exact ⟨hhead c rfl, (hnext c List.mem_cons_self).trans h.2.1,
      h.2.2.congr (fun d hd => hnext d (List.mem_cons_of_mem _ hd)) hprev⟩

/-- Linking a new node behind the node `a`. -/
theorem Linked.insert (h : Linked next prev before (xs ++ a :: ys) after)
    (hnexta : next' a = b) (hprevb : prev' b = a)
    (hnextb : next' b = next a)
    (hnext : ∀ c ∈ xs ++ ys, next' c = next c)
    (hhead : ∀ c ∈ ys.head?, prev' c = b)
    (hprev : ∀ c ∈ xs ++ a :: ys.tail, prev' c = prev c) :
    Linked next' prev' before (xs ++ a :: b :: ys) after := by
  obtain ⟨hfirst, hprev_a, hnext_a, hlast⟩ := linked_append.mp h
  refine linked_append.mpr ⟨hfirst.congr ?_ ?_, ?_, hnexta, hprevb, ?_, ?_⟩
  · exact fun c hc => hnext c (List.mem_append_left _ hc)
  · exact fun c hc => hprev c (List.mem_append_left _ hc)
  · exact (hprev a (List.mem_append_right _ List.mem_cons_self)).trans hprev_a
  · rw [hnextb, hnext_a]
  · refine hlast.retarget hhead (fun c hc => hnext c (List.mem_append_right _ hc)) ?_
    exact fun c hc => hprev c (List.mem_append_right _ (List.mem_cons_of_mem _ hc))

/-- Unlinking the node `b` behind the node `a`. -/
theorem Linked.unlink (h : Linked next prev before (xs ++ a :: b :: ys) after)
    (hnexta : next' a = next b) (hnext : ∀ c ∈ xs ++ ys, next' c = next c)
    (hhead : ∀ c ∈ ys.head?, prev' c = a)
    (hprev : ∀ c ∈ xs ++ a :: ys.tail, prev' c = prev c) :
    Linked next' prev' before (xs ++ a :: ys) after := by
  obtain ⟨hfirst, hprev_a, -, -, hnext_b, hlast⟩ := linked_append.mp h
  refine linked_append.mpr ⟨hfirst.congr ?_ ?_, ?_, ?_, ?_⟩
  · exact fun c hc => hnext c (List.mem_append_left _ hc)
  · exact fun c hc => hprev c (List.mem_append_left _ hc)
  · exact (hprev a (List.mem_append_right _ List.mem_cons_self)).trans hprev_a
  · rw [hnexta, hnext_b]
  · refine hlast.retarget hhead (fun c hc => hnext c (List.mem_append_right _ hc)) ?_
    exact fun c hc => hprev c (List.mem_append_right _ (List.mem_cons_of_mem _ hc))

/-! ## The edits as code writes them

`next` and `prev` are functions of all addresses here, and the pointer back from the
following node is only written when there is one. -/

theorem Linked.next_eq (h : Linked next prev before (xs ++ a :: ys) after) :
    next a = ys.headD after :=
  (linked_append.mp h).2.2.1

theorem Linked.prev_eq (h : Linked next prev before (xs ++ a :: ys) after) :
    prev a = xs.getLastD before :=
  (linked_append.mp h).2.1

/-- The node that a nonempty rest begins with. -/
private theorem headD_ne_zero_iff (hys : ∀ c ∈ ys, c ≠ 0) :
    ys.headD 0 ≠ 0 ∧ b = ys.headD 0 ↔ b ∈ ys.head? := by
  cases ys with
  | nil => simp
  | cons y ys =>
    have hy := hys y List.mem_cons_self
    rw [List.headD_cons, List.head?_cons, Option.mem_some, and_iff_right hy, eq_comm]

/-- `new->next = a->next; new->prev = a; if (a->next) a->next->prev = new; a->next = new` -/
theorem Linked.insert_after (h : Linked next prev before (xs ++ a :: ys) 0)
    (hnodup : (xs ++ a :: ys).Nodup) (hys : ∀ c ∈ ys, c ≠ 0) (hb : b ∉ xs ++ a :: ys)
    (hnext : ∀ c, next' c = if c = a then b else if c = b then next a else next c)
    (hprev : ∀ c, prev' c =
      if next a ≠ 0 ∧ c = next a then b else if c = b then a else prev c) :
    Linked next' prev' before (xs ++ a :: b :: ys) 0 := by
  simp only [h.next_eq, headD_ne_zero_iff hys] at hprev
  obtain ⟨-, hays, hdisjoint⟩ := List.nodup_append'.mp hnodup
  have hne : ∀ c ∈ xs ++ a :: ys, c ≠ b := fun c hc hcb => hb (hcb ▸ hc)
  refine h.insert ?_ ?_ ?_ ?_ ?_ ?_
  · rw [hnext, if_pos rfl]
  · rw [hprev, if_neg ?_, if_pos rfl]
    intro hhead
    exact hb (List.mem_append_right _ (List.mem_cons_of_mem _ (List.mem_of_mem_head? hhead)))
  · rw [hnext, if_neg (Ne.symm (hne a (by simp))), if_pos rfl]
  · intro c hc
    have hca : c ≠ a := by
      rintro rfl
      rcases List.mem_append.mp hc with hcx | hcy
      · exact hdisjoint hcx List.mem_cons_self
      · exact (List.nodup_cons.mp hays).1 hcy
    have hcb : c ≠ b := hne c (by
      rcases List.mem_append.mp hc with hcx | hcy
      · exact List.mem_append_left _ hcx
      · exact List.mem_append_right _ (List.mem_cons_of_mem _ hcy))
    rw [hnext, if_neg hca, if_neg hcb]
  · intro c hc
    rw [hprev, if_pos hc]
  · intro c hc
    have hmem : c ∈ xs ++ a :: ys := by
      rcases List.mem_append.mp hc with hcx | hcy
      · exact List.mem_append_left _ hcx
      · refine List.mem_append_right _ (List.mem_cons.mpr ?_)
        exact (List.mem_cons.mp hcy).imp_right List.mem_of_mem_tail
    have hhead : c ∉ ys.head? := by
      cases ys with
      | nil => simp
      | cons y ys =>
        intro hcy
        obtain rfl : y = c := by simpa using hcy
        rcases List.mem_append.mp hc with hcx | hcy'
        · exact hdisjoint hcx (by simp)
        · have hnot := List.nodup_cons.mp hays
          rcases List.mem_cons.mp hcy' with hca | htail
          · exact hnot.1 (hca ▸ List.mem_cons_self)
          · exact (List.nodup_cons.mp hnot.2).1 htail
    rw [hprev, if_neg hhead, if_neg (hne c hmem)]

/-- `a->next = a->next->next; if (a->next) a->next->prev = a` -/
theorem Linked.unlink_after (h : Linked next prev before (xs ++ a :: b :: ys) 0)
    (hnodup : (xs ++ a :: b :: ys).Nodup) (hys : ∀ c ∈ ys, c ≠ 0)
    (hnext : ∀ c, next' c = if c = a then next b else next c)
    (hprev : ∀ c, prev' c = if next b ≠ 0 ∧ c = next b then a else prev c) :
    Linked next' prev' before (xs ++ a :: ys) 0 := by
  have hb : next b = ys.headD 0 := (linked_append.mp h).2.2.2.2.1
  simp only [hb, headD_ne_zero_iff hys] at hprev
  obtain ⟨-, habys, hdisjoint⟩ := List.nodup_append'.mp hnodup
  obtain ⟨habys', hbys⟩ := List.nodup_cons.mp habys
  refine h.unlink ?_ ?_ ?_ ?_
  · rw [hnext, if_pos rfl]
  · intro c hc
    have hca : c ≠ a := by
      rintro rfl
      rcases List.mem_append.mp hc with hcx | hcy
      · exact hdisjoint hcx List.mem_cons_self
      · exact habys' (List.mem_cons_of_mem _ hcy)
    rw [hnext, if_neg hca]
  · intro c hc
    rw [hprev, if_pos hc]
  · intro c hc
    have hhead : c ∉ ys.head? := by
      cases ys with
      | nil => simp
      | cons y ys =>
        intro hcy
        obtain rfl : y = c := by simpa using hcy
        rcases List.mem_append.mp hc with hcx | hcy'
        · exact hdisjoint hcx (by simp)
        · rcases List.mem_cons.mp hcy' with hca | htail
          · exact habys' (hca ▸ by simp)
          · exact (List.nodup_cons.mp (List.nodup_cons.mp hbys).2).1 htail
    rw [hprev, if_neg hhead]

/-! ## Following the links -/

/-- `while (curr) { if (test(curr)) return curr; curr = curr->next; }`, with `0` when
the list ends first. There is no result if the loop has not ended after `rounds`
rounds. -/
def search (next : ℕ → ℕ) (test : ℕ → Bool) : ℕ → ℕ → Option ℕ
  | 0, _ => none
  | rounds + 1, curr =>
    if curr = 0 then some 0
    else if test curr then some curr
    else search next test rounds (next curr)

/-- On linked nodes the loop ends at the first node that passes the test. -/
theorem search_eq {test : ℕ → Bool} {rounds : ℕ} (h : Linked next prev before nodes 0)
    (hne : ∀ c ∈ nodes, c ≠ 0) (hrounds : nodes.length < rounds) :
    search next test rounds (nodes.headD 0) = some ((nodes.find? test).getD 0) := by
  induction nodes generalizing before rounds with
  | nil =>
    cases rounds with
    | zero => exact absurd hrounds (Nat.lt_irrefl 0)
    | succ rounds => rfl
  | cons c rest ih =>
    cases rounds with
    | zero => exact absurd hrounds (Nat.not_lt_zero _)
    | succ rounds =>
      rw [List.headD_cons, search, if_neg (hne c List.mem_cons_self), List.find?_cons]
      cases hc : test c with
      | true => rfl
      | false =>
        rw [if_neg Bool.false_ne_true, h.2.1]
        exact ih h.2.2 (fun d hd => hne d (List.mem_cons_of_mem _ hd)) (by simpa using hrounds)

/-- The only node whose link leaves the list is the last. -/
theorem Linked.find_last (h : Linked next prev before nodes 0) (hne : ∀ c ∈ nodes, c ≠ 0) :
    (nodes.find? fun c => next c == 0).getD 0 = nodes.getLastD 0 := by
  induction nodes generalizing before with
  | nil => rfl
  | cons c rest ih =>
    obtain ⟨-, hnext, hrest⟩ := h
    rw [List.find?_cons]
    cases rest with
    | nil => simp [show next c = 0 from hnext]
    | cons d rest =>
      have hd : next c ≠ 0 := by
        rw [hnext]
        exact hne d (by simp)
      have htest : (next c == 0) = false := by simpa using hd
      rw [htest, List.getLastD_cons, List.getLastD_cons]
      rw [List.getLastD_cons] at ih
      exact ih hrest fun e he => hne e (List.mem_cons_of_mem _ he)

end OpenIDP.Math
