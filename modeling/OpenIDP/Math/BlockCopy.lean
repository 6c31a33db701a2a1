import Mathlib.Data.Nat.Notation
import Mathlib.Logic.Function.Basic

/-!
# Copying in blocks

A block is read as a whole before it is written. Blocks are copied one after the other, from the
lowest addresses upwards, so that the ranges may overlap as long as the destination is not behind
the source. If it is, single places are copied from the highest addresses downwards.

## Main definitions

* `moved` — all of a range is read before any of it is written
* `copyBlocks` — copies one block after the other
* `copyBackwards` — copies one place after the other, the last one first

## Main results

* `copyBlocks_eq_moved` — copying blocks downwards in memory moves the range
* `copyBackwards_eq_moved` — copying backwards upwards in memory moves the range
* `moved_moved` — moving a range in two parts
* `moved_self` — moving a range to where it is
-/

namespace OpenIDP.Math

variable {α : Type*} {k q n dst src : ℕ} {mem : ℕ → α}

/-- The memory after `n` places from `src` on were read and then written from `dst` on. -/
def moved (n dst src : ℕ) (mem : ℕ → α) (i : ℕ) : α :=
  if dst ≤ i ∧ i < dst + n then mem (i - dst + src) else mem i

/-- Copies `q` blocks of `k` places. -/
def copyBlocks (k : ℕ) : ℕ → ℕ → ℕ → (ℕ → α) → ℕ → α
  | 0, _, _, mem => mem
  | q + 1, dst, src, mem => copyBlocks k q (dst + k) (src + k) (moved k dst src mem)

/-- Copies `n` places, from the last one to the first. -/
def copyBackwards : ℕ → ℕ → ℕ → (ℕ → α) → ℕ → α
  | 0, _, _, mem => mem
  | n + 1, dst, src, mem => copyBackwards n dst src (Function.update mem (dst + n) (mem (src + n)))

theorem moved_zero (dst src : ℕ) (mem : ℕ → α) : moved 0 dst src mem = mem := by
  funext i
  exact if_neg fun h => by omega

/-- A range is moved in two parts, the second of which is behind what the first has written. -/
theorem moved_moved (hle : dst + k ≤ src + k) :
    moved n (dst + k) (src + k) (moved k dst src mem) = moved (k + n) dst src mem := by
  funext i
  simp only [moved]
  by_cases hfirst : i < dst + k
  · rw [if_neg (by omega)]
    refine if_congr (by omega) rfl rfl
  · by_cases hin : i < dst + k + n
    · rw [if_pos (by omega), if_neg (by omega), if_pos (by omega)]
      exact congrArg mem (by omega)
    · rw [if_neg (by omega), if_neg (by omega), if_neg (by omega)]

/-- Blocks that are copied downwards in memory are moved. -/
theorem copyBlocks_eq_moved (hle : dst ≤ src) :
    copyBlocks k q dst src mem = moved (k * q) dst src mem := by
  induction q generalizing dst src mem with
  | zero => rw [copyBlocks, Nat.mul_zero, moved_zero]
  | succ q ih =>
    rw [copyBlocks, ih (by omega), moved_moved (by omega), Nat.mul_succ, Nat.add_comm]

/-- A place that is copied later is not written before. -/
theorem moved_update (hle : src ≤ dst) :
    moved n dst src (Function.update mem (dst + n) (mem (src + n))) =
      moved (n + 1) dst src mem := by
  funext i
  simp only [moved]
  by_cases hin : dst ≤ i ∧ i < dst + n
  · have hread : i - dst + src ≠ dst + n := by omega
    rw [if_pos hin, if_pos (by omega), Function.update_of_ne hread]
  · rw [if_neg hin]
    by_cases hlast : i = dst + n
    · have hread : i - dst + src = src + n := by omega
      rw [if_pos (by omega), hread, hlast, Function.update_self]
    · rw [if_neg (by omega), Function.update_of_ne hlast]

/-- What is copied backwards upwards in memory is moved. -/
theorem copyBackwards_eq_moved (hle : src ≤ dst) :
    copyBackwards n dst src mem = moved n dst src mem := by
  induction n generalizing mem with
  | zero => rw [copyBackwards, moved_zero]
  | succ n ih => rw [copyBackwards, ih, moved_update hle]

/-- Nothing happens to a range that is moved to where it is. -/
theorem moved_self (n dst : ℕ) (mem : ℕ → α) : moved n dst dst mem = mem := by
  funext i
  rw [moved]
  by_cases hin : dst ≤ i ∧ i < dst + n
  · rw [if_pos hin, Nat.sub_add_cancel hin.1]
  · rw [if_neg hin]

end OpenIDP.Math
