import OpenIDP.Userspace.TermText

/-!
# Moving memory

`memmove` of `src/utility/kstring.c` copies single bytes, from the front or from the back.
`memmove` of `src/userspace/libc/string.h` leaves a move to lower addresses to `memcpy`, which
copies eight bytes at a time, also where the ranges overlap. A range of memory does not go on behind
the last address, so addresses are numbers.

## Main definitions

* `Kstring.memmove`, `memmove` — the two functions
* `Moves` — a range has the bytes that another one had, and no other byte has changed

## Main results

* `memmove_moves` — both functions move, and so does `memcpy` to lower addresses
-/

namespace OpenIDP.Kstring

open OpenIDP.Math

/-- `memmove` of the kernel. -/
def memmove (dest src n : ℕ) (mem : ℕ → BitVec 8) : ℕ → BitVec 8 :=
  if src > dest then copyBlocks 1 n dest src mem
  else if src < dest then copyBackwards n dest src mem
  else mem

variable {dest src n : ℕ} {mem : ℕ → BitVec 8}

theorem memmove_eq_moved : memmove dest src n mem = moved n dest src mem := by
  rw [memmove]
  rcases Nat.lt_trichotomy dest src with hlt | rfl | hgt
  · rw [if_pos hlt, copyBlocks_eq_moved hlt.le, Nat.one_mul]
  · rw [if_neg (Nat.lt_irrefl dest), if_neg (Nat.lt_irrefl dest), moved_self]
  · rw [if_neg hgt.not_gt, if_pos hgt, copyBackwards_eq_moved hgt.le]

end OpenIDP.Kstring

namespace OpenIDP.Userspace

open OpenIDP.Math

/-- `memmove` of the library. -/
def memmove (dest src n : ℕ) (mem : ℕ → BitVec 8) : ℕ → BitVec 8 :=
  if dest < src then memcpy dest src n mem
  else if dest > src then copyBackwards n dest src mem
  else mem

/-- The `n` bytes at `dest` are those that were at `src`, and the others are as they were. -/
def Moves (dest src n : ℕ) (mem mem' : ℕ → BitVec 8) : Prop :=
  (∀ i < n, mem' (dest + i) = mem (src + i)) ∧
    ∀ a, (∀ i < n, a ≠ dest + i) → mem' a = mem a

section Results

variable {dest src n : ℕ} {mem : ℕ → BitVec 8}

theorem memmove_eq_moved : memmove dest src n mem = moved n dest src mem := by
  rw [memmove]
  rcases Nat.lt_trichotomy dest src with hlt | rfl | hgt
  · rw [if_pos hlt, memcpy_eq_moved hlt.le]
  · rw [if_neg (Nat.lt_irrefl dest), if_neg (Nat.lt_irrefl dest), moved_self]
  · rw [if_neg hgt.not_gt, if_pos hgt, copyBackwards_eq_moved hgt.le]

theorem moves_moved (dest src n : ℕ) (mem : ℕ → BitVec 8) :
    Moves dest src n mem (moved n dest src mem) := by
  refine ⟨fun i hi => ?_, fun a ha => ?_⟩
  · rw [moved, if_pos ⟨Nat.le_add_right _ _, Nat.add_lt_add_left hi dest⟩,
      Nat.add_sub_cancel_left, Nat.add_comm]
  · refine if_neg fun hin => ha (a - dest) (by omega) (by omega)

/-- **Moving memory.** For all memories, addresses and lengths both functions leave what was at the
source at the destination, and nothing else is changed. A `memcpy` to lower addresses moves, too. -/
theorem memmove_moves (dest src n : ℕ) (mem : ℕ → BitVec 8) :
    Moves dest src n mem (Kstring.memmove dest src n mem) ∧
      Moves dest src n mem (memmove dest src n mem) ∧
      (dest < src → Moves dest src n mem (memcpy dest src n mem)) := by
  rw [Kstring.memmove_eq_moved, memmove_eq_moved]
  refine ⟨moves_moved dest src n mem, moves_moved dest src n mem, fun hlt => ?_⟩
  rw [memcpy_eq_moved hlt.le]
  exact moves_moved dest src n mem

/-- Twenty bytes are moved down by three, over themselves. -/
theorem memmove_moves_overlap :
    Moves 0x1000 0x1003 20 (fun a => BitVec.ofNat 8 a)
      (memcpy 0x1000 0x1003 20 fun a => BitVec.ofNat 8 a) :=
  (memmove_moves 0x1000 0x1003 20 _).2.2 (by decide)

end Results

end OpenIDP.Userspace
