import Mathlib.Data.Int.Notation
import Mathlib.Data.List.Basic
import Mathlib.Logic.Function.Basic
import Mathlib.Tactic.SplitIfs

/-!
# Sequences of writes

A loop that fills memory is a list of writes, carried out in order. Where all writes to a place
agree, the place has that value afterwards; where there is none, it is unchanged.

## Main definitions

* `writeAll` — carries out writes

## Main results

* `writeAll_of_mem`, `writeAll_of_forall_ne` — what is in memory afterwards
* `foldl_update_of_mem`, `foldl_update_of_forall_ne` — writes that depend on what is there
* `mem_takeWhile_range` — the indices of a loop that ends early
* `mem_nested_range` — what two loops, one in the other, go through
-/

namespace OpenIDP.Math

variable {ι α : Type*} [DecidableEq ι]

/-- Carries out writes in order. -/
def writeAll (memory : ι → α) (writes : List (ι × α)) : ι → α :=
  writes.foldl (fun memory w => Function.update memory w.1 w.2) memory

variable {memory : ι → α} {writes : List (ι × α)} {i : ι} {v : α}

@[simp] theorem writeAll_nil : writeAll memory [] = memory := rfl

theorem writeAll_cons (w : ι × α) :
    writeAll memory (w :: writes) = writeAll (Function.update memory w.1 w.2) writes := rfl

/-- Nothing is written to a place. -/
theorem writeAll_of_forall_ne (h : ∀ w ∈ writes, w.1 ≠ i) :
    writeAll memory writes i = memory i := by
  induction writes generalizing memory with
  | nil => rfl
  | cons w writes ih =>
    rw [writeAll_cons, ih fun w' hw' => h w' (List.mem_cons_of_mem _ hw')]
    exact Function.update_of_ne (h w List.mem_cons_self).symm _ _

/-- All writes to a place agree with what is there. -/
theorem writeAll_of_forall_eq (hmemory : memory i = v) (h : ∀ w ∈ writes, w.1 = i → w.2 = v) :
    writeAll memory writes i = v := by
  induction writes generalizing memory with
  | nil => exact hmemory
  | cons w writes ih =>
    rw [writeAll_cons]
    apply ih
    · by_cases hw : w.1 = i
      · rw [← hw, Function.update_self]
        exact h w List.mem_cons_self hw
      · rw [Function.update_of_ne (Ne.symm hw)]
        exact hmemory
    · exact fun w' hw' => h w' (List.mem_cons_of_mem _ hw')

/-- All writes to a place agree, and there is one. -/
theorem writeAll_of_mem (hmem : (i, v) ∈ writes) (h : ∀ w ∈ writes, w.1 = i → w.2 = v) :
    writeAll memory writes i = v := by
  induction writes generalizing memory with
  | nil => exact absurd hmem List.not_mem_nil
  | cons w writes ih =>
    have htail : ∀ w' ∈ writes, w'.1 = i → w'.2 = v := fun w' hw' =>
      h w' (List.mem_cons_of_mem _ hw')
    rw [writeAll_cons]
    rcases List.mem_cons.mp hmem with rfl | hmem
    · exact writeAll_of_forall_eq (Function.update_self _ _ _) htail
    · exact ih hmem htail

/-- What holds of all memory and of all values that are written holds of memory afterwards. -/
theorem writeAll_forall {P : α → Prop} (hmemory : ∀ i, P (memory i)) (h : ∀ w ∈ writes, P w.2) :
    ∀ i, P (writeAll memory writes i) := by
  induction writes generalizing memory with
  | nil => exact hmemory
  | cons w writes ih =>
    obtain ⟨hw, hwrites⟩ := List.forall_mem_cons.mp h
    rw [writeAll_cons]
    refine ih (fun i => ?_) hwrites
    by_cases hi : i = w.1
    · rw [hi, Function.update_self]
      exact hw
    · rw [Function.update_of_ne hi]
      exact hmemory i

section Update

variable {β : Type*} {f : β → α → α} {ops : List (ι × β)}

/-- No operation is on a place. -/
theorem foldl_update_of_forall_ne (h : ∀ w ∈ ops, w.1 ≠ i) :
    ops.foldl (fun memory w => Function.update memory w.1 (f w.2 (memory w.1))) memory i =
      memory i := by
  induction ops generalizing memory with
  | nil => rfl
  | cons w ops ih =>
    obtain ⟨hw, hops⟩ := List.forall_mem_cons.mp h
    rw [List.foldl_cons, ih hops]
    exact Function.update_of_ne hw.symm _ _

/-- The operations are on different places, and one of them is on this place. -/
theorem foldl_update_of_mem {b : β} (hnodup : (ops.map Prod.fst).Nodup) (hmem : (i, b) ∈ ops) :
    ops.foldl (fun memory w => Function.update memory w.1 (f w.2 (memory w.1))) memory i =
      f b (memory i) := by
  induction ops generalizing memory with
  | nil => exact absurd hmem List.not_mem_nil
  | cons w ops ih =>
    obtain ⟨hw, hnodup⟩ := List.nodup_cons.mp hnodup
    rw [List.foldl_cons]
    rcases List.mem_cons.mp hmem with rfl | hmem
    · have hrest : ∀ w ∈ ops, w.1 ≠ i := fun w hmem heq =>
        hw (List.mem_map.mpr ⟨w, hmem, heq⟩)
      rw [foldl_update_of_forall_ne hrest]
      exact Function.update_self _ _ _
    · -- the first operation is on another place
      have hne : i ≠ w.1 := fun heq => hw (List.mem_map.mpr ⟨(i, b), hmem, heq⟩)
      rw [ih hnodup hmem, Function.update_of_ne hne]

end Update

/-- The indices of a loop that ends at a condition which then stays true. -/
theorem mem_takeWhile_range {p : ℕ → Bool} {n i : ℕ} (hmono : ∀ i j, i ≤ j → p j → p i) :
    i ∈ (List.range n).takeWhile p ↔ i < n ∧ p i := by
  have hfrom : ∀ n a, i ∈ (List.range' a n).takeWhile p ↔ a ≤ i ∧ i < a + n ∧ p i := by
    intro n
    induction n with
    | zero => exact fun a => iff_of_false List.not_mem_nil fun h => by omega
    | succ n ih =>
      intro a
      rw [List.range'_succ, List.takeWhile_cons]
      split_ifs with ha
      · rw [List.mem_cons, ih]
        constructor
        · rintro (rfl | ⟨hle, hlt, hi⟩)
          · exact ⟨Nat.le_refl _, by omega, ha⟩
          · exact ⟨by omega, by omega, hi⟩
        · rintro ⟨hle, hlt, hi⟩
          rcases Nat.eq_or_lt_of_le hle with rfl | hlt'
          · exact Or.inl rfl
          · exact Or.inr ⟨hlt', by omega, hi⟩
      · exact iff_of_false List.not_mem_nil fun h => ha (hmono a i h.1 h.2.2)
  rw [List.range_eq_range', hfrom, Nat.zero_add]
  exact and_iff_right (Nat.zero_le i)

/-- Two loops over rows and columns, which are left out when one of them is empty. -/
theorem mem_nested_range {f : ℕ → ℕ → α} {width height : ℤ} {a : α} :
    (a ∈ if width ≤ 0 ∨ height ≤ 0 then [] else
      (List.range height.toNat).flatMap fun row => (List.range width.toNat).map fun col =>
        f row col) ↔
      ∃ row col : ℕ, row < height ∧ col < width ∧ a = f row col := by
  constructor
  · intro ha
    by_cases hempty : width ≤ 0 ∨ height ≤ 0
    · rw [if_pos hempty] at ha
      exact absurd ha List.not_mem_nil
    · rw [if_neg hempty] at ha
      obtain ⟨row, hrow, ha⟩ := List.mem_flatMap.mp ha
      obtain ⟨col, hcol, rfl⟩ := List.mem_map.mp ha
      exact ⟨row, col, Int.lt_toNat.mp (List.mem_range.mp hrow),
        Int.lt_toNat.mp (List.mem_range.mp hcol), rfl⟩
  · rintro ⟨row, col, hrow, hcol, rfl⟩
    have hfull : ¬(width ≤ 0 ∨ height ≤ 0) := by omega
    rw [if_neg hfull]
    exact List.mem_flatMap.mpr ⟨row, List.mem_range.mpr (Int.lt_toNat.mpr hrow),
      List.mem_map.mpr ⟨col, List.mem_range.mpr (Int.lt_toNat.mpr hcol), rfl⟩⟩

end OpenIDP.Math
