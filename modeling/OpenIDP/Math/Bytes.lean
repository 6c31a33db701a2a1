import Mathlib.Data.Nat.Bitwise
import Mathlib.Tactic.Ring

/-!
# The bytes of words

A word is read and written byte by byte, and numbers are read from files in little-endian
order.

## Main definitions

* `byteOf`, `setByte` — reading and writing one byte of a word
* `littleEndian` — the number a list of bytes stands for
* `wordToBytes` — the bytes of a word

## Main results

* `byteOf_setByte` — the byte written is read, and the others stay
* `wordToBytes_littleEndian` — packing eight bytes into a word and unpacking them
-/

namespace OpenIDP.Math

/-- Byte `r` of a word, the lowest byte first. -/
def byteOf (w r : ℕ) : ℕ := w / 2 ^ (8 * r) % 256

@[simp] theorem byteOf_zero (r : ℕ) : byteOf 0 r = 0 := by rw [byteOf, Nat.zero_div, Nat.zero_mod]

/-- The word with byte `r` replaced by `b`. -/
def setByte (w r b : ℕ) : ℕ :=
  w % 2 ^ (8 * r) + 2 ^ (8 * r) * (b + 256 * (w / 2 ^ (8 * r) / 256))

theorem byteOf_setByte {w r r' b : ℕ} (hb : b < 256) :
    byteOf (setByte w r b) r' = if r' = r then b else byteOf w r' := by
  have hlow : w % 2 ^ (8 * r) < 2 ^ (8 * r) := Nat.mod_lt _ (Nat.two_pow_pos _)
  have htop : setByte w r b / 2 ^ (8 * r) = b + 256 * (w / 2 ^ (8 * r) / 256) := by
    rw [setByte, Nat.add_mul_div_left _ _ (Nat.two_pow_pos _), Nat.div_eq_of_lt hlow, Nat.zero_add]
  have hbottom : setByte w r b % 2 ^ (8 * r) = w % 2 ^ (8 * r) := by
    rw [setByte, Nat.add_mul_mod_self_left, Nat.mod_mod]
  rcases Nat.lt_trichotomy r' r with hlt | rfl | hlt
  · -- a lower byte is part of what the word is modulo `2 ^ (8 * r)`
    have hpart : ∀ x, byteOf x r' = byteOf (x % 2 ^ (8 * r)) r' := by
      intro x
      have hpow : 2 ^ (8 * r) = 2 ^ (8 * r') * 2 ^ (8 * (r - r')) := by
        rw [← pow_add]
        congr 1
        omega
      have hdvd : 256 ∣ 2 ^ (8 * (r - r')) := by
        rw [show 256 = 2 ^ 8 from rfl]
        exact pow_dvd_pow 2 (by omega)
      rw [byteOf, byteOf, hpow, Nat.mod_mul_right_div_self, Nat.mod_mod_of_dvd _ hdvd]
    rw [if_neg hlt.ne, hpart, hbottom, ← hpart]
  · rw [if_pos rfl, byteOf, htop, Nat.add_mul_mod_self_left, Nat.mod_eq_of_lt hb]
  · -- a higher byte is part of what is left above byte `r`
    have hpart : ∀ x, byteOf x r' = byteOf (x / 2 ^ (8 * r) / 256) (r' - r - 1) := by
      intro x
      have hpow : 2 ^ (8 * r') = 2 ^ (8 * r) * 256 * 2 ^ (8 * (r' - r - 1)) := by
        rw [show 256 = 2 ^ 8 from rfl, ← pow_add, ← pow_add]
        congr 1
        omega
      rw [byteOf, byteOf, hpow, ← Nat.div_div_eq_div_mul, ← Nat.div_div_eq_div_mul]
    have hsame : setByte w r b / 2 ^ (8 * r) / 256 = w / 2 ^ (8 * r) / 256 := by
      rw [htop]
      omega
    rw [if_neg hlt.ne', hpart, hsame, ← hpart]

/-- The number that bytes stand for, the lowest byte first. -/
def littleEndian : List (BitVec 8) → ℕ
  | [] => 0
  | b :: bytes => b.toNat + 256 * littleEndian bytes

theorem byteOf_littleEndian (bytes : List (BitVec 8)) (r : ℕ) :
    byteOf (littleEndian bytes) r = (bytes[r]?.map BitVec.toNat).getD 0 := by
  induction bytes generalizing r with
  | nil => exact byteOf_zero r
  | cons b bytes ih =>
    have hb : b.toNat < 256 := b.isLt
    cases r with
    | zero =>
      rw [byteOf, littleEndian, Nat.mul_zero, Nat.pow_zero, Nat.div_one, Nat.add_mul_mod_self_left,
        Nat.mod_eq_of_lt hb]
      rfl
    | succ r =>
      have hpow : 2 ^ (8 * (r + 1)) = 256 * 2 ^ (8 * r) := by
        rw [Nat.mul_succ, pow_add, Nat.mul_comm]
        rfl
      have htail : (b.toNat + 256 * littleEndian bytes) / 256 = littleEndian bytes := by omega
      rw [byteOf, littleEndian, hpow, ← Nat.div_div_eq_div_mul, htail]
      exact ih r

/-- The bytes of a word of eight bytes, the lowest first. -/
def wordToBytes (w : ℕ) : List (BitVec 8) := (List.range 8).map fun r => BitVec.ofNat 8 (byteOf w r)

theorem wordToBytes_littleEndian {bytes : List (BitVec 8)} (h : bytes.length = 8) :
    wordToBytes (littleEndian bytes) = bytes := by
  apply List.ext_getElem
  · rw [wordToBytes, List.length_map, List.length_range, h]
  · intro r hr hr'
    simp only [wordToBytes, List.getElem_map, List.getElem_range, byteOf_littleEndian,
      List.getElem?_eq_getElem hr', Option.map_some, Option.getD_some]
    rw [BitVec.ofNat_toNat, BitVec.setWidth_eq]

end OpenIDP.Math
