import Mathlib.Data.List.Basic

/-!
# The rounds of a loop

A loop runs through the elements of a list and changes a state. A round that does not come to an
end is the last one. What the loop has done by then is described by the rounds that were begun,
each with the state that it found.

## Main definitions

* `begun` — the rounds that are begun

## Main results

* `mem_begun_iff` — a round is begun when all rounds before it come to an end
* `mem_begun_range'_iff` — the same for a loop that counts
-/

namespace OpenIDP.Math

variable {σ α : Type*} {step : σ → α → Option σ} {xs : List α} {a : α} {s t : σ}

/-- The rounds of a loop that are begun, each with the state that it finds. -/
def begun (step : σ → α → Option σ) : List α → σ → List (α × σ)
  | [], _ => []
  | a :: rest, s => (a, s) :: (step s a).elim [] (begun step rest)

theorem mem_begun_iff : (a, t) ∈ begun step xs s ↔
    ∃ before after, xs = before ++ a :: after ∧ before.foldlM step s = some t := by
  induction xs generalizing s with
  | nil => simp [begun]
  | cons b rest ih =>
    rw [begun, List.mem_cons]
    constructor
    · rintro (hfirst | hlater)
      · obtain ⟨rfl, rfl⟩ := Prod.mk.inj hfirst
        exact ⟨[], rest, rfl, rfl⟩
      · cases hstep : step s b with
        | none =>
          rw [hstep] at hlater
          exact absurd hlater List.not_mem_nil
        | some s' =>
          rw [hstep] at hlater
          obtain ⟨before, after, rfl, hrun⟩ := ih.mp hlater
          refine ⟨b :: before, after, rfl, ?_⟩
          rw [List.foldlM_cons, hstep]
          exact hrun
    · rintro ⟨before, after, hsplit, hrun⟩
      cases before with
      | nil =>
        obtain ⟨rfl, -⟩ := List.cons.inj hsplit
        obtain rfl : s = t := Option.some_inj.mp hrun
        exact Or.inl rfl
      | cons c before =>
        obtain ⟨rfl, hrest⟩ := List.cons.inj hsplit
        obtain ⟨s', hstep, hrun⟩ := Option.bind_eq_some_iff.mp hrun
        rw [hstep]
        exact Or.inr (ih.mpr ⟨before, after, hrest, hrun⟩)

/-- The numbers of a loop, in front of the one of a round and behind it. -/
theorem range'_split (i : ℕ) {m n : ℕ} (hm : m < n) :
    List.range' i n = List.range' i m ++ (i + m) :: List.range' (i + m + 1) (n - m - 1) := by
  apply List.range'_eq_append_iff.mpr
  refine ⟨m, Nat.le_of_lt hm, rfl, ?_⟩
  rw [Nat.mul_one]
  exact (List.range'_eq_cons_iff.mpr ⟨rfl, Nat.sub_pos_of_lt hm, rfl⟩).symm

/-- The rounds of a loop that counts from `i` on. -/
theorem mem_begun_range'_iff {step : σ → ℕ → Option σ} {i j n : ℕ} :
    (j, t) ∈ begun step (List.range' i n) s ↔
      ∃ m < n, j = i + m ∧ (List.range' i m).foldlM step s = some t := by
  rw [mem_begun_iff]
  constructor
  · rintro ⟨before, after, hsplit, hrun⟩
    obtain ⟨m, -, rfl, hrest⟩ := List.range'_eq_append_iff.mp hsplit
    rw [Nat.mul_one] at hrest
    obtain ⟨rfl, hpos, -⟩ := List.range'_eq_cons_iff.mp hrest.symm
    exact ⟨m, by omega, rfl, hrun⟩
  · rintro ⟨m, hm, rfl, hrun⟩
    exact ⟨List.range' i m, List.range' (i + m + 1) (n - m - 1), range'_split i hm, hrun⟩

end OpenIDP.Math
