import Mathlib.Data.List.Range
import Mathlib.Data.Nat.ModEq
import Mathlib.Logic.Function.Basic

/-!
# Bounded ring buffers

The cells of a buffer of `size` slots are a function, and the `count` messages in it start
at slot `head` and wrap around. What the buffer holds is a list; storing behind its end
and taking from its front are the two operations of a queue.

## Main results

* `contents_push` — a message stored in the slot behind the last one
* `contents_pop` — the message in the first slot, and the rest
-/

namespace OpenIDP.Math

variable {α : Type*} {cells : ℕ → α} {size head count : ℕ}

/-- The messages in the buffer, oldest first. -/
def contents (cells : ℕ → α) (size head count : ℕ) : List α :=
  (List.range count).map fun k => cells ((head + k) % size)

/-- Distinct messages lie in distinct slots. -/
theorem slot_ne {k l : ℕ} (hkl : k < l) (hl : l < size) :
    (head + k) % size ≠ (head + l) % size := by
  intro heq
  have hdvd : size ∣ head + l - (head + k) := (Nat.modEq_iff_dvd' (by omega)).mp heq
  have hle := Nat.le_of_dvd (by omega) hdvd
  omega

theorem contents_push (hroom : count < size) (x : α) :
    contents (Function.update cells ((head + count) % size) x) size head (count + 1) =
      contents cells size head count ++ [x] := by
  rw [contents, List.range_succ, List.map_append, List.map_singleton, Function.update_self]
  congr 1
  refine List.map_congr_left fun k hk => ?_
  exact Function.update_of_ne (slot_ne (List.mem_range.mp hk) hroom) _ _

theorem contents_pop (hhead : head < size) :
    contents cells size head (count + 1) =
      cells head :: contents cells size ((head + 1) % size) count := by
  rw [contents, List.range_succ_eq_map, List.map_cons, List.map_map, Nat.add_zero,
    Nat.mod_eq_of_lt hhead]
  congr 1
  refine List.map_congr_left fun k _ => ?_
  rw [Function.comp_apply, Nat.mod_add_mod]
  congr 2
  omega

end OpenIDP.Math
