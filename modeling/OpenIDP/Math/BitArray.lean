import Mathlib.Data.Nat.Bitwise
import Mathlib.Logic.Function.Basic

/-!
# Bit arrays packed into bytes

An array of bits stored eight to a byte, as C code keeps it: bit `i` is bit `i & 7`
of byte `i >> 3`. The three operations on single bits are given as the C code writes
them, with their effect on every bit.

## Main results

* `testBit_eq` — a bit test reads one bit of one byte
* `testBit_setBit`, `testBit_clearBit` — an update changes the one bit it names
-/

namespace OpenIDP.Math

/-- Memory as an unbounded array of bytes. -/
abbrev Bytes := ℕ → BitVec 8

namespace Bytes

variable {bytes : Bytes} {i j : ℕ}

/-- `bytes[i >> 3] |= 1 << (i & 7)` -/
def setBit (bytes : Bytes) (i : ℕ) : Bytes :=
  Function.update bytes (i >>> 3) (bytes (i >>> 3) ||| (1#8 <<< (i &&& 7)))

/-- `bytes[i >> 3] &= ~(1 << (i & 7))` -/
def clearBit (bytes : Bytes) (i : ℕ) : Bytes :=
  Function.update bytes (i >>> 3) (bytes (i >>> 3) &&& ~~~(1#8 <<< (i &&& 7)))

/-- `bytes[i >> 3] & (1 << (i & 7))`, as a truth value. -/
def testBit (bytes : Bytes) (i : ℕ) : Bool :=
  bytes (i >>> 3) &&& (1#8 <<< (i &&& 7)) != 0#8

private theorem and_one_shiftLeft_bne (b : BitVec 8) {k : ℕ} (hk : k < 8) :
    (b &&& (1#8 <<< k) != 0#8) = b.getLsbD k := by
  have hmask : (1#8 <<< k) = BitVec.twoPow 8 k := rfl
  rw [hmask, BitVec.and_twoPow]
  cases hb : b.getLsbD k with
  | false => simp
  | true =>
    rw [if_pos rfl, bne_iff_ne]
    intro hzero
    have hbit := congrArg (fun c => c.getLsbD k) hzero
    simp [hk] at hbit

private theorem byte_index (i : ℕ) : i >>> 3 = i / 8 := Nat.shiftRight_eq_div_pow i 3

private theorem bit_index (i : ℕ) : i &&& 7 = i % 8 := Nat.and_two_pow_sub_one_eq_mod i 3

theorem testBit_eq (bytes : Bytes) (i : ℕ) :
    bytes.testBit i = (bytes (i / 8)).getLsbD (i % 8) := by
  rw [testBit, byte_index, bit_index, and_one_shiftLeft_bne _ (Nat.mod_lt _ (by decide))]

/-- The bit a one-bit mask selects inside a byte. -/
private theorem getLsbD_mask (hbyte : j / 8 = i / 8) :
    (1#8 <<< (i % 8)).getLsbD (j % 8) = decide (j = i) := by
  rw [show (1#8 <<< (i % 8)) = BitVec.twoPow 8 (i % 8) from rfl, BitVec.getLsbD_twoPow]
  have hmod : i % 8 < 8 := Nat.mod_lt _ (by decide)
  rw [decide_eq_true hmod, Bool.true_and, decide_eq_decide]
  omega

@[simp] theorem testBit_setBit :
    (bytes.setBit i).testBit j = (decide (j = i) || bytes.testBit j) := by
  rw [testBit_eq, testBit_eq, setBit, byte_index, bit_index]
  by_cases hbyte : j / 8 = i / 8
  · rw [hbyte, Function.update_self, BitVec.getLsbD_or, getLsbD_mask hbyte, Bool.or_comm]
  · have hne : j ≠ i := fun h => hbyte (by rw [h])
    rw [Function.update_of_ne hbyte, decide_eq_false hne, Bool.false_or]

@[simp] theorem testBit_clearBit :
    (bytes.clearBit i).testBit j = (!decide (j = i) && bytes.testBit j) := by
  rw [testBit_eq, testBit_eq, clearBit, byte_index, bit_index]
  by_cases hbyte : j / 8 = i / 8
  · have hmod : j % 8 < 8 := Nat.mod_lt _ (by decide)
    rw [hbyte, Function.update_self, BitVec.getLsbD_and, BitVec.getLsbD_not,
      getLsbD_mask hbyte, decide_eq_true hmod, Bool.true_and, Bool.and_comm]
  · have hne : j ≠ i := fun h => hbyte (by rw [h])
    rw [Function.update_of_ne hbyte, decide_eq_false hne, Bool.not_false, Bool.true_and]

/-- Setting a bit that was clear and clearing it again gives every bit back. -/
theorem testBit_clearBit_setBit (hclear : bytes.testBit i = false) :
    ((bytes.setBit i).clearBit i).testBit j = bytes.testBit j := by
  by_cases h : j = i <;> simp [h, hclear]

/-- Arrays of bytes with the same bits are equal. -/
theorem ext_testBit {other : Bytes} (h : ∀ i, bytes.testBit i = other.testBit i) :
    bytes = other := by
  funext index
  apply BitVec.eq_of_getLsbD_eq
  intro k hk
  have hbit := h (8 * index + k)
  rw [testBit_eq, testBit_eq] at hbit
  rwa [show (8 * index + k) / 8 = index by omega, show (8 * index + k) % 8 = k by omega]
    at hbit

end Bytes

end OpenIDP.Math
