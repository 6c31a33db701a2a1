import Mathlib.Data.Nat.Count

/-!
# Counting below a bound after a change of one element

`Nat.count p n` is the number of `k < n` with `p k`. A bit array together with a
counter of its set bits needs to know how that number moves when one position, or a
run of positions, changes.
-/

namespace OpenIDP.Math

variable {p q : ℕ → Prop} [DecidablePred p] [DecidablePred q]

/-- Adding one new element below the bound raises the count by one. -/
theorem count_insert {i n : ℕ} (hi : i < n) (hfresh : ¬ p i)
    (hq : ∀ j, q j ↔ j = i ∨ p j) : Nat.count q n = Nat.count p n + 1 := by
  rw [Nat.count_eq_card_filter_range, Nat.count_eq_card_filter_range]
  have hfilter : (Finset.range n).filter q = insert i ((Finset.range n).filter p) := by
    ext j
    simp only [Finset.mem_filter, Finset.mem_range, Finset.mem_insert, hq]
    constructor
    · rintro ⟨hj, rfl | hp⟩
      · exact Or.inl rfl
      · exact Or.inr ⟨hj, hp⟩
    · rintro (rfl | ⟨hj, hp⟩)
      · exact ⟨hi, Or.inl rfl⟩
      · exact ⟨hj, Or.inr hp⟩
  rw [hfilter, Finset.card_insert_of_notMem (by simp [hfresh])]

/-- Predicates that agree below the bound have the same count. -/
theorem count_congr {n : ℕ} (h : ∀ j < n, q j ↔ p j) : Nat.count q n = Nat.count p n := by
  rw [Nat.count_eq_card_filter_range, Nat.count_eq_card_filter_range]
  congr 1
  exact Finset.filter_congr fun j hj => h j (Finset.mem_range.mp hj)

/-- The count stops growing behind the last element. -/
theorem count_eq_of_lt {a n : ℕ} (han : a ≤ n) (h : ∀ i < n, p i → i < a) :
    Nat.count p n = Nat.count p a := by
  rw [Nat.count_eq_card_filter_range, Nat.count_eq_card_filter_range]
  congr 1
  ext i
  simp only [Finset.mem_filter, Finset.mem_range]
  exact ⟨fun ⟨hi, hp⟩ => ⟨h i hi hp, hp⟩, fun ⟨hi, hp⟩ => ⟨hi.trans_le han, hp⟩⟩

/-- Some element is missing exactly when the count is below the bound. -/
theorem count_lt_iff {n : ℕ} : Nat.count p n < n ↔ ∃ i < n, ¬ p i := by
  rw [lt_iff_le_and_ne, and_iff_right (Nat.count_le p), ne_eq, Nat.count_iff_forall]
  push Not
  rfl

end OpenIDP.Math
