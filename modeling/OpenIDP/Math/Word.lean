import Mathlib.Data.Nat.Bitwise
import Mathlib.Tactic.Ring

/-!
# Unsigned 64-bit words as natural numbers

A machine word is a natural number below `2 ^ 64`. Arithmetic that can wrap goes
through `wrap` and `sub64`; bit masks that round to a power of two are turned into
divisions, so that goals about addresses end in linear arithmetic.

## Main results

* `and_complMask` — clearing the low `k` bits is rounding down to a multiple of `2 ^ k`
* `alignUp_eq`, `alignDown_eq` — the usual rounding macros as divisions
* `toU64_eq_iff` — sign extension of an `int` that is compared with a small word
-/

namespace OpenIDP.Math

/-- The value a 64-bit register holds after a computation that yields `n`. -/
def wrap (n : ℕ) : ℕ := n % 2 ^ 64

/-- 64-bit subtraction, wrapping below zero. -/
def sub64 (a b : ℕ) : ℕ := wrap (a + (2 ^ 64 - b))

/-- The bitwise complement of a 64-bit word. -/
def not64 (n : ℕ) : ℕ := 2 ^ 64 - 1 - n

/-- A signed value as an unsigned 64-bit word. -/
def toU64 (x : ℤ) : ℕ := (x % 2 ^ 64).toNat

/-- An unsigned word as a 32-bit `int`. -/
def toInt32 (n : ℕ) : ℤ :=
  if n % 2 ^ 32 < 2 ^ 31 then (n % 2 ^ 32 : ℕ) else (n % 2 ^ 32 : ℕ) - 2 ^ 32

/-- An unsigned word as a 64-bit signed one. -/
def toInt64 (n : ℕ) : ℤ := if n < 2 ^ 63 then n else n - 2 ^ 64

theorem wrap_lt (n : ℕ) : wrap n < 2 ^ 64 := Nat.mod_lt _ (by decide)

theorem wrap_of_lt {n : ℕ} (h : n < 2 ^ 64) : wrap n = n := Nat.mod_eq_of_lt h

theorem toInt64_of_lt {n : ℕ} (h : n < 2 ^ 63) : toInt64 n = n := if_pos h

theorem toInt32_of_lt {n : ℕ} (h : n < 2 ^ 31) : toInt32 n = n := by
  have hmod : n % 2 ^ 32 = n := Nat.mod_eq_of_lt (h.trans (by decide))
  rw [toInt32, hmod, if_pos h]

theorem toInt32_bounds (n : ℕ) : -2 ^ 31 ≤ toInt32 n ∧ toInt32 n < 2 ^ 31 := by
  unfold toInt32
  split_ifs
  all_goals omega

/-- A word below `2 ^ 31` is the image of an `int` only if they are equal. -/
theorem toU64_eq_iff {x : ℤ} {n : ℕ} (hlow : -2 ^ 31 ≤ x) (hhigh : x < 2 ^ 31)
    (hn : n < 2 ^ 31) : n = toU64 x ↔ (n : ℤ) = x := by
  unfold toU64
  omega

theorem sub64_lt (a b : ℕ) : sub64 a b < 2 ^ 64 := wrap_lt _

theorem sub64_of_le {a b : ℕ} (h : b ≤ a) (ha : a < 2 ^ 64) : sub64 a b = a - b := by
  unfold sub64 wrap
  omega

/-- Adding a base and taking it off again is the identity on words. -/
theorem sub64_wrap_add {n base : ℕ} (hn : n < 2 ^ 64) (hbase : base < 2 ^ 64) :
    sub64 (wrap (n + base)) base = n := by
  unfold sub64 wrap
  omega

section Masks

/-- Clearing the low `k` bits of an `m`-bit word rounds it down to a multiple of `2 ^ k`. -/
theorem and_complMask {n k m : ℕ} (hk : k ≤ m) (hn : n < 2 ^ m) :
    n &&& (2 ^ m - 2 ^ k) = n / 2 ^ k * 2 ^ k := by
  have hmask : 2 ^ m - 2 ^ k = (2 ^ (m - k) - 1) <<< k := by
    rw [Nat.shiftLeft_eq, Nat.sub_mul, one_mul, ← pow_add, Nat.sub_add_cancel hk]
  have hhigh : n / 2 ^ k < 2 ^ (m - k) := by
    apply Nat.div_lt_of_lt_mul
    rwa [← pow_add, Nat.add_sub_cancel' hk]
  have hfield : (n / 2 ^ k) &&& (2 ^ (m - k) - 1) = n / 2 ^ k := by
    rw [Nat.and_two_pow_sub_one_eq_mod, Nat.mod_eq_of_lt hhigh]
  rw [hmask, ← Nat.shiftLeft_eq]
  apply Nat.eq_of_testBit_eq
  intro i
  rw [Nat.testBit_and, Nat.testBit_shiftLeft, Nat.testBit_shiftLeft]
  by_cases hi : k ≤ i
  · have hbit := congrArg (fun m => m.testBit (i - k)) hfield
    simp only [Nat.testBit_and, Nat.testBit_div_two_pow, Nat.sub_add_cancel hi] at hbit
    simpa [hi, Nat.testBit_div_two_pow] using hbit
  · simp [hi]

end Masks

section Alignment

/-- `(value + alignment - 1) & ~(alignment - 1)` on 64-bit words. -/
def alignUp (value alignment : ℕ) : ℕ :=
  wrap (value + alignment - 1) &&& not64 (alignment - 1)

/-- `value & ~(alignment - 1)` on 64-bit words. -/
def alignDown (value alignment : ℕ) : ℕ :=
  value &&& not64 (alignment - 1)

private theorem not64_pow_sub_one {k : ℕ} (hk : k ≤ 64) :
    not64 (2 ^ k - 1) = 2 ^ 64 - 2 ^ k := by
  have hle : 2 ^ k ≤ 2 ^ 64 := Nat.pow_le_pow_right (by decide) hk
  have hpos : 0 < 2 ^ k := Nat.two_pow_pos k
  unfold not64
  omega

theorem alignUp_eq {k : ℕ} (hk : k ≤ 64) (value : ℕ) :
    alignUp value (2 ^ k) = wrap (value + 2 ^ k - 1) / 2 ^ k * 2 ^ k := by
  rw [alignUp, not64_pow_sub_one hk, and_complMask hk (wrap_lt _)]

theorem alignDown_eq {k : ℕ} (hk : k ≤ 64) {value : ℕ} (hvalue : value < 2 ^ 64) :
    alignDown value (2 ^ k) = value / 2 ^ k * 2 ^ k := by
  rw [alignDown, not64_pow_sub_one hk, and_complMask hk hvalue]

end Alignment

end OpenIDP.Math
