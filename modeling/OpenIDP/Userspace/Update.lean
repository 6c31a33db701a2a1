import OpenIDP.Math.Word
import OpenIDP.Userspace.Rect

/-!
# Update messages

A client tells the window manager which part of its window has changed in `MSG_BUFFER_UPDATE`: the
first word of data holds the position and the second one the size, with the horizontal part in the
upper half of the word.

## Main definitions

* `packInts` — how `process_term_update` makes a word of two integers
* `unpackRect` — how the window manager reads the words

## Main results

* `unpackRect_packInts` — the window manager reads what was sent
-/

namespace OpenIDP.Userspace

open OpenIDP.Math

/-- `MSG_BUFFER_UPDATE` -/
def msgBufferUpdate : ℤ := 300

/-- `((uint64_t)a << 32) | (uint32_t)b` -/
def packInts (a b : ℤ) : ℕ := wrap (toU64 a <<< 32) ||| toU64 b % 2 ^ 32

/-- `(int)(data1 >> 32)`, `(int)(data1 & 0xFFFFFFFF)` and the same for `data2`. -/
def unpackRect (data1 data2 : ℕ) : Rect :=
  ⟨toInt32 (data1 >>> 32), toInt32 (data1 &&& 0xFFFFFFFF), toInt32 (data2 >>> 32),
    toInt32 (data2 &&& 0xFFFFFFFF)⟩

/-- The halves of a word are read as they were written. -/
theorem packInts_halves {a b : ℤ} (ha : 0 ≤ a) (ha' : a < 2 ^ 31) (hb : 0 ≤ b) (hb' : b < 2 ^ 31) :
    toInt32 (packInts a b >>> 32) = a ∧ toInt32 (packInts a b &&& 0xFFFFFFFF) = b := by
  have ha64 : toU64 a = a.toNat := by
    unfold toU64
    omega
  have hb64 : toU64 b % 2 ^ 32 = b.toNat := by
    unfold toU64
    omega
  have hshift : a.toNat <<< 32 < 2 ^ 64 := by
    rw [Nat.shiftLeft_eq]
    omega
  have hpack : packInts a b = a.toNat * 2 ^ 32 + b.toNat := by
    rw [packInts, ha64, hb64, wrap_of_lt hshift,
      ← Nat.shiftLeft_add_eq_or_of_lt (by omega : b.toNat < 2 ^ 32), Nat.shiftLeft_eq]
  have hhigh : packInts a b >>> 32 = a.toNat := by
    rw [hpack, Nat.shiftRight_eq_div_pow]
    omega
  have hlow : packInts a b &&& 0xFFFFFFFF = b.toNat := by
    rw [hpack, show 0xFFFFFFFF = 2 ^ 32 - 1 from rfl, Nat.and_two_pow_sub_one_eq_mod]
    omega
  rw [hhigh, hlow, toInt32_of_lt (by omega), toInt32_of_lt (by omega)]
  exact ⟨Int.toNat_of_nonneg ha, Int.toNat_of_nonneg hb⟩

/-- The window manager reads the rectangle that was sent, when it is in a window. -/
theorem unpackRect_packInts {r : Rect} {width height : ℤ} (h : r.Inside ⟨0, 0, width, height⟩)
    (hwidth : width < 2 ^ 31) (hheight : height < 2 ^ 31) :
    unpackRect (packInts r.x r.y) (packInts r.w r.h) = r := by
  obtain ⟨hleft, hright, htop, hbottom, hw, hh⟩ := h
  simp only at hleft hright htop hbottom
  obtain ⟨hx, hy⟩ := packInts_halves hleft (by omega : r.x < 2 ^ 31) htop (by omega : r.y < 2 ^ 31)
  obtain ⟨hw, hh⟩ := packInts_halves hw (by omega : r.w < 2 ^ 31) hh (by omega : r.h < 2 ^ 31)
  rw [unpackRect, hx, hy, hw, hh]

end OpenIDP.Userspace
