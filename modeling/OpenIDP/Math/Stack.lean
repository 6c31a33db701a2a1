import Mathlib.Logic.Function.Basic
import OpenIDP.Math.Word

/-!
# A stack in memory

Words of eight bytes are pushed below a stack pointer, which goes down, and popped into places that
have names, such as registers. Only the addresses of the words are looked at.

## Main results

* `pushAll_spec` — where the words are that were pushed, and what is as it was
* `popInto_eq` — what is popped is what is there
-/

namespace OpenIDP.Math

variable {α ρ : Type*}

/-- Pushes words: memory, and the stack pointer. -/
def pushAll (mem : ℕ → α) (sp : ℕ) : List α → (ℕ → α) × ℕ
  | [] => (mem, sp)
  | w :: ws => pushAll (Function.update mem (sub64 sp 8) w) (sub64 sp 8) ws

/-- Pops words into places. -/
def popInto [DecidableEq ρ] (mem : ℕ → α) : ℕ → List ρ → (ρ → α) → ρ → α
  | _, [], places => places
  | sp, r :: rs, places => popInto mem (wrap (sp + 8)) rs (Function.update places r (mem sp))

/-- The words are in memory, from an address on. -/
def Stacked (mem : ℕ → α) : ℕ → List α → Prop
  | _, [] => True
  | sp, w :: ws => mem sp = w ∧ Stacked mem (sp + 8) ws

variable {mem mem' : ℕ → α} {sp : ℕ} {us ws : List α}

theorem stacked_append :
    Stacked mem sp (us ++ ws) ↔ Stacked mem sp us ∧ Stacked mem (sp + 8 * us.length) ws := by
  induction us generalizing sp with
  | nil => simp [Stacked]
  | cons u us ih =>
    have haddr : sp + 8 + 8 * us.length = sp + 8 * (u :: us).length := by
      rw [List.length_cons]
      omega
    rw [List.cons_append, Stacked, Stacked, ih, haddr, and_assoc]

/-- Only the words themselves matter. -/
theorem Stacked.congr (h : Stacked mem sp ws)
    (hmem : ∀ x, sp ≤ x → x < sp + 8 * ws.length → mem' x = mem x) : Stacked mem' sp ws := by
  induction ws generalizing sp with
  | nil => trivial
  | cons w ws ih =>
    rw [List.length_cons] at hmem
    refine ⟨(hmem sp (Nat.le_refl sp) (by omega)).trans h.1, ih h.2 fun x hx hx' => ?_⟩
    exact hmem x (by omega) (by omega)

/-- One of the words is replaced. -/
theorem Stacked.set (h : Stacked mem sp ws) (i : ℕ) (w : α) :
    Stacked (Function.update mem (sp + 8 * i) w) sp (ws.set i w) := by
  induction ws generalizing sp i with
  | nil => trivial
  | cons w' ws ih =>
    cases i with
    | zero =>
      refine ⟨Function.update_self _ _ _, h.2.congr fun x hx _ => ?_⟩
      exact Function.update_of_ne (by omega) _ _
    | succ i =>
      have haddr : sp + 8 * (i + 1) = sp + 8 + 8 * i := by omega
      rw [haddr]
      refine ⟨(Function.update_of_ne (by omega) _ _).trans h.1, ih h.2 i⟩

/-- What is pushed is below the stack pointer, the last word first. -/
theorem pushAll_spec (mem : ℕ → α) (ws : List α) (hsp : sp < 2 ^ 64)
    (hroom : 8 * ws.length ≤ sp) :
    (pushAll mem sp ws).2 = sp - 8 * ws.length ∧
      Stacked (pushAll mem sp ws).1 (sp - 8 * ws.length) ws.reverse ∧
      ∀ x, x < sp - 8 * ws.length ∨ sp ≤ x → (pushAll mem sp ws).1 x = mem x := by
  induction ws generalizing mem sp with
  | nil => exact ⟨rfl, trivial, fun _ _ => rfl⟩
  | cons w ws ih =>
    rw [List.length_cons] at hroom
    have hsub : sub64 sp 8 = sp - 8 := sub64_of_le (by omega) hsp
    have hend : sp - 8 - 8 * ws.length = sp - 8 * (ws.length + 1) := by omega
    have hsp' : sp - 8 < 2 ^ 64 := by omega
    obtain ⟨hptr, hwords, hframe⟩ := ih (Function.update mem (sp - 8) w) hsp' (by omega)
    rw [hend] at hptr hwords hframe
    rw [pushAll, hsub, List.length_cons, List.reverse_cons]
    refine ⟨hptr, stacked_append.mpr ⟨hwords, ?_, trivial⟩, fun x hx => ?_⟩
    · -- the first word is behind the others
      have hfirst : sp - 8 * (ws.length + 1) + 8 * ws.reverse.length = sp - 8 := by
        rw [List.length_reverse]
        omega
      rw [hfirst, hframe _ (Or.inr (Nat.le_refl _)), Function.update_self]
    · rw [hframe x (by omega)]
      exact Function.update_of_ne (by omega) _ _

/-- What is popped is what the words say. -/
theorem popInto_eq [DecidableEq ρ] {rs : List ρ} {f places : ρ → α}
    (h : Stacked mem sp (rs.map f)) (hend : sp + 8 * rs.length < 2 ^ 64) (r : ρ) :
    popInto mem sp rs places r = if r ∈ rs then f r else places r := by
  induction rs generalizing sp places with
  | nil => simp [popInto]
  | cons r' rs ih =>
    rw [List.length_cons] at hend
    have hwrap : wrap (sp + 8) = sp + 8 := wrap_of_lt (by omega)
    have hword : mem sp = f r' := h.1
    rw [popInto, hwrap, ih h.2 (by omega), hword]
    by_cases hr : r = r'
    · simp [hr]
    · simp [hr]

end OpenIDP.Math
