import Mathlib.Algebra.Order.Ring.Int

/-!
# Rectangles of pixels

## Main definitions

* `Rect` — a part of a screen
* `Rect.Mem` — the pixels of a rectangle
* `Rect.Inside`, `Rect.Apart` — rectangles in a rectangle, and rectangles that do not overlap
-/

namespace OpenIDP.Userspace

/-- A part of the screen. -/
structure Rect where
  x : ℤ
  y : ℤ
  w : ℤ
  h : ℤ

namespace Rect

/-- The pixels of a rectangle. -/
def Mem (r : Rect) (px py : ℤ) : Prop := r.x ≤ px ∧ px < r.x + r.w ∧ r.y ≤ py ∧ py < r.y + r.h

instance (r : Rect) (px py : ℤ) : Decidable (r.Mem px py) :=
  inferInstanceAs (Decidable (_ ∧ _ ∧ _ ∧ _))

/-- A rectangle of some size in another. -/
structure Inside (r outer : Rect) : Prop where
  left : outer.x ≤ r.x
  right : r.x + r.w ≤ outer.x + outer.w
  top : outer.y ≤ r.y
  bottom : r.y + r.h ≤ outer.y + outer.h
  width : 0 ≤ r.w
  height : 0 ≤ r.h

/-- Rectangles without a common pixel. -/
def Apart (r r' : Rect) : Prop := ∀ px py, ¬(r.Mem px py ∧ r'.Mem px py)

variable {r r' outer : Rect}

theorem Inside.refl (hw : 0 ≤ r.w) (hh : 0 ≤ r.h) : r.Inside r :=
  ⟨le_rfl, le_rfl, le_rfl, le_rfl, hw, hh⟩

theorem Inside.trans (h : r.Inside r') (h' : r'.Inside outer) : r.Inside outer where
  left := h'.left.trans h.left
  right := h.right.trans h'.right
  top := h'.top.trans h.top
  bottom := h.bottom.trans h'.bottom
  width := h.width
  height := h.height

theorem Inside.mem {px py : ℤ} (h : r.Inside outer) (hmem : r.Mem px py) : outer.Mem px py :=
  ⟨h.left.trans hmem.1, hmem.2.1.trans_le h.right, h.top.trans hmem.2.2.1,
    hmem.2.2.2.trans_le h.bottom⟩

end Rect

end OpenIDP.Userspace
