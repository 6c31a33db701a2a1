import OpenIDP.Math.Reaches
import OpenIDP.Userspace.Term

/-!
# The grid of the terminal

As long as the window has room for at least one cell, the buffer has a cell for each place of the
grid, the cursor is on one of them, and only cells of the buffer are accessed. A smaller window
leaves the grid empty and the cursor before its first column or row, where it stays when the window
grows again.

## Main definitions

* `Term.Grid` — the invariant
* `Term.Drawn` — only pixels have changed
* `Term.Op` — what a program does to its terminal

## Main results

* `Term.grid_iff` — the invariant holds in all states of a run just if all sizes have room for a
  cell
-/

namespace OpenIDP.Userspace

open OpenIDP.Math

namespace Term

variable {t t' t'' : Term} {x y : ℤ} {files : List (BitVec 8) → Option Image}

/-- The buffer is that of the grid, the cursor is in the grid, and nothing else was accessed. -/
structure Grid (t : Term) : Prop where
  buffer : t.textBuffer = some (t.cols * t.rows)
  left : 0 ≤ t.cursorX
  right : t.cursorX < t.cols
  top : 0 ≤ t.cursorY
  bottom : t.cursorY < t.rows
  strays : t.strays = []

/-- Only pixels and the part of the window to be repainted have changed. -/
def Drawn (t t' : Term) : Prop :=
  t' = { t with
    gfx := { t.gfx with fb := t'.gfx.fb }
    lastUpdate := t'.lastUpdate
    dirty := t'.dirty }

theorem Drawn.refl (t : Term) : t.Drawn t := rfl

theorem Drawn.trans (h : t.Drawn t') (h' : t'.Drawn t'') : t.Drawn t'' := by
  rw [Drawn] at h h' ⊢
  rw [h', h]

theorem Grid.drawn (h : t.Grid) (hdrawn : t.Drawn t') : t'.Grid := by
  obtain ⟨hbuffer, hleft, hright, htop, hbottom, hstrays⟩ := h
  rw [Drawn] at hdrawn
  rw [hdrawn]
  exact ⟨hbuffer, hleft, hright, htop, hbottom, hstrays⟩

/-- All places of the grid have their cell. -/
structure Sized (t : Term) : Prop where
  buffer : t.textBuffer = some (t.cols * t.rows)
  strays : t.strays = []

theorem Grid.sized (h : t.Grid) : t.Sized := ⟨h.buffer, h.strays⟩

theorem Sized.drawn (h : t.Sized) (hdrawn : t.Drawn t') : t'.Sized := by
  obtain ⟨hbuffer, hstrays⟩ := h
  rw [Drawn] at hdrawn
  rw [hdrawn]
  exact ⟨hbuffer, hstrays⟩

/-- Accesses to cells that are there leave no trace. -/
theorem touch_eq {indices : List ℤ} (h : ∀ i ∈ indices, t.HasCell i) : t.touch indices = t := by
  have hnone : (indices.filter fun i => ¬t.HasCell i) = [] :=
    List.filter_eq_nil_iff.mpr fun i hi => by simpa using h i hi
  rw [touch, hnone, List.append_nil]

theorem Sized.hasCell_index (h : t.Sized) {i : ℤ} (hlow : 0 ≤ i) (hhigh : i < t.cols * t.rows) :
    t.HasCell i := ⟨_, h.buffer, hlow, hhigh⟩

theorem Sized.hasCell (h : t.Sized) (hx : 0 ≤ x) (hcols : x < t.cols) (hy : 0 ≤ y)
    (hrows : y < t.rows) : t.HasCell (y * t.cols + x) := by
  have hrow := Int.mul_le_mul_of_nonneg_right (Int.add_one_le_iff.mpr hrows) (hx.trans hcols.le)
  rw [add_mul, one_mul, mul_comm t.rows] at hrow
  have hlow : 0 ≤ y * t.cols := Int.mul_nonneg hy (hx.trans hcols.le)
  exact h.hasCell_index (by omega) (by omega)

theorem addDirtyCell_drawn (t : Term) (col row : ℤ) : t.Drawn (t.addDirtyCell col row) := by
  rw [addDirtyCell]
  by_cases hdirty : t.dirty = false
  · rw [if_pos hdirty]
    rfl
  · rw [if_neg hdirty]
    rfl

theorem drawChar_fb (g : Gfx) (x y : ℤ) (c : BitVec 8) (fg bg : BitVec 32) :
    g.drawChar x y c fg bg = { g with fb := (g.drawChar x y c fg bg).fb } := by
  rw [Gfx.drawChar]
  split_ifs
  · rfl
  · rfl

theorem drawCell_eq (h : t.Sized) (hcell : t.HasCell (y * t.cols + x)) :
    t.drawCell x y = ({ t with
      gfx := t.gfx.drawChar (x * t.fontWidth) (y * t.fontHeight) (t.look x y).c (t.look x y).fg
        (t.look x y).bg } : Term).addDirtyCell x y := by
  have hbuffer : t.textBuffer ≠ none := by
    rw [h.buffer]
    exact Option.some_ne_none _
  have htouch : t.touch [y * t.cols + x] = t :=
    touch_eq fun i hi => List.mem_singleton.mp hi ▸ hcell
  rw [drawCell, if_neg hbuffer]
  simp only [htouch]

/-- Drawing a cell only changes pixels. -/
theorem drawCell_drawn (h : t.Sized) (hcell : t.HasCell (y * t.cols + x)) :
    t.Drawn (t.drawCell x y) := by
  rw [drawCell_eq h hcell]
  refine Drawn.trans ?_ (addDirtyCell_drawn _ x y)
  rw [Drawn]
  exact congrArg (fun g : Gfx => { t with gfx := g }) (drawChar_fb _ _ _ _ _ _)

theorem redrawCell_drawn (h : t.Sized) (hcell : t.HasCell (y * t.cols + x)) :
    t.Drawn (t.redrawCell x y) := by
  have htouch : t.touch [y * t.cols + x] = t :=
    touch_eq fun i hi => List.mem_singleton.mp hi ▸ hcell
  have hdraw := drawCell_drawn h hcell
  have hcell' : (t.drawCell x y).HasCell (y * (t.drawCell x y).cols + x) := by
    rw [hdraw]
    exact hcell
  rw [redrawCell]
  simp only [htouch]
  split_ifs
  · exact hdraw.trans (drawCell_drawn (h.drawn hdraw) hcell')
  · exact hdraw
  · exact hdraw
  · exact .refl t

theorem mem_grid {q : ℤ × ℤ} :
    q ∈ t.grid ↔ (0 ≤ q.1 ∧ q.1 < t.cols) ∧ 0 ≤ q.2 ∧ q.2 < t.rows := by
  rw [grid, List.mem_flatMap]
  constructor
  · rintro ⟨y, hy, hq⟩
    obtain ⟨x, hx, rfl⟩ := List.mem_map.mp hq
    have hy := List.mem_range.mp hy
    have hx := List.mem_range.mp hx
    exact ⟨⟨by simp only; omega, by simp only; omega⟩, by simp only; omega, by simp only; omega⟩
  · rintro ⟨⟨hx, hcols⟩, hy, hrows⟩
    refine ⟨q.2.toNat, List.mem_range.mpr (by omega), List.mem_map.mpr ⟨q.1.toNat, ?_, ?_⟩⟩
    · exact List.mem_range.mpr (by omega)
    · exact Prod.ext (Int.toNat_of_nonneg hx) (Int.toNat_of_nonneg hy)

/-- Redrawing only changes pixels. -/
theorem redrawFull_drawn (h : t.Sized) : t.Drawn t.redrawFull := by
  let t₁ : Term := { t with gfx := t.gfx.clear defaultBg }
  have hclear : t.Drawn t₁ := rfl
  have hcells : t.Drawn (t.grid.foldl (fun t q => t.redrawCell q.1 q.2) t₁) := by
    refine List.foldlRecOn (motive := fun u : Term => t.Drawn u) _ _ hclear fun u hu q hq => ?_
    obtain ⟨⟨hx, hcols⟩, hy, hrows⟩ := mem_grid.mp hq
    refine hu.trans (redrawCell_drawn (h.drawn hu) ?_)
    have hcell := h.hasCell hx hcols hy hrows
    rw [Drawn] at hu
    rw [hu]
    exact hcell
  rw [redrawFull]
  exact hcells.trans rfl

/-! ## The functions -/

/-- Neither the size of the grid nor that of the window have changed. -/
def Kept (t t' : Term) : Prop :=
  t'.gfx = { t.gfx with fb := t'.gfx.fb } ∧ t'.cols = t.cols ∧ t'.rows = t.rows

theorem Kept.trans (h : t.Kept t') (h' : t'.Kept t'') : t.Kept t'' := by
  obtain ⟨hgfx, hcols, hrows⟩ := h
  obtain ⟨hgfx', hcols', hrows'⟩ := h'
  exact ⟨by rw [hgfx', hgfx], hcols'.trans hcols, hrows'.trans hrows⟩

theorem Drawn.kept (h : t.Drawn t') : t.Kept t' := by
  rw [Drawn] at h
  rw [h]
  exact ⟨rfl, rfl, rfl⟩

theorem mem_indices {start count i : ℤ} :
    i ∈ indices start count ↔ start ≤ i ∧ i < start + count := by
  rw [indices, List.mem_map]
  constructor
  · rintro ⟨n, hn, rfl⟩
    have hn := List.mem_range.mp hn
    omega
  · rintro ⟨hlow, hhigh⟩
    exact ⟨(i - start).toNat, List.mem_range.mpr (by omega), by omega⟩

/-- The size of the grid does not change when it is drawn, whatever it is. -/
theorem redrawFull_size (t : Term) : t.redrawFull.cols = t.cols ∧ t.redrawFull.rows = t.rows := by
  have hdirty : ∀ (u : Term) (x y : ℤ),
      (u.addDirtyCell x y).cols = u.cols ∧ (u.addDirtyCell x y).rows = u.rows := fun u x y => by
    rw [addDirtyCell_drawn u x y]
    exact ⟨rfl, rfl⟩
  have hdraw : ∀ (u : Term) (x y : ℤ),
      (u.drawCell x y).cols = u.cols ∧ (u.drawCell x y).rows = u.rows := fun u x y => by
    rw [drawCell]
    split_ifs
    · exact ⟨rfl, rfl⟩
    · exact hdirty _ x y
  have hredraw : ∀ (u : Term) (x y : ℤ),
      (u.redrawCell x y).cols = u.cols ∧ (u.redrawCell x y).rows = u.rows := fun u x y => by
    rw [redrawCell]
    split_ifs
    · exact ⟨(hdraw _ x y).1.trans (hdraw _ x y).1, (hdraw _ x y).2.trans (hdraw _ x y).2⟩
    · exact hdraw _ x y
    · exact hdraw _ x y
    · exact ⟨rfl, rfl⟩
  rw [redrawFull]
  refine List.foldlRecOn (motive := fun u : Term => u.cols = t.cols ∧ u.rows = t.rows) _ _
    ⟨rfl, rfl⟩ fun u hu q _ => ?_
  exact ⟨(hredraw u q.1 q.2).1.trans hu.1, (hredraw u q.1 q.2).2.trans hu.2⟩

/-- There is room for at least one cell. -/
def Fits (font : Font) (width height : ℤ) : Prop := font.width ≤ width ∧ font.height ≤ height

theorem tdiv_pos_iff {n d : ℤ} (hd : 0 < d) : 0 < n.tdiv d ↔ d ≤ n := by
  constructor
  · intro h
    by_contra hlt
    have hle : n.tdiv d ≤ 0 := by
      rcases le_or_gt 0 n with hn | hn
      · rw [Int.tdiv_eq_zero_of_lt hn (not_le.mp hlt)]
      · have := Int.tdiv_nonneg (a := -n) (b := d) (by omega) hd.le
        rw [Int.neg_tdiv] at this
        omega
    omega
  · intro h
    rw [Int.tdiv_eq_ediv_of_nonneg (hd.le.trans h)]
    exact Int.le_ediv_of_mul_le hd ((one_mul d).symm ▸ h)

section Font

variable {width height : ℤ}

/-- The size of the grid after it was resized. -/
theorem resize_size (t : Term) (width height : ℤ) :
    (t.resize width height).cols = width.tdiv t.fontWidth ∧
      (t.resize width height).rows = height.tdiv t.fontHeight := by
  rw [resize]
  exact redrawFull_size _

/-- A window that has room for a cell gets a grid. -/
theorem resize_eq (hfont : 0 < t.fontWidth ∧ 0 < t.fontHeight)
    (hfits : t.fontWidth ≤ width ∧ t.fontHeight ≤ height) (hstrays : t.strays = [])
    (hleft : 0 ≤ t.cursorX) (htop : 0 ≤ t.cursorY) :
    ∃ u : Term, t.resize width height = u.redrawFull ∧ u.Grid ∧ u.gfx = t.gfx ∧
      u.cols = width.tdiv t.fontWidth ∧ u.rows = height.tdiv t.fontHeight := by
  have hcols : 0 < width.tdiv t.fontWidth := (tdiv_pos_iff hfont.1).mpr hfits.1
  have hrows : 0 < height.tdiv t.fontHeight := (tdiv_pos_iff hfont.2).mpr hfits.2
  have hsize := Int.mul_pos hcols hrows
  refine ⟨_, rfl, ⟨if_pos hsize, ?_, ?_, ?_, ?_, hstrays⟩, rfl, rfl, rfl⟩
  all_goals
    simp only [regrid, clampCursor]
    split_ifs
    all_goals omega

end Font

/-- Only cells have changed. -/
def Filled (t t' : Term) : Prop := t' = { t with cells := t'.cells }

theorem Filled.trans (h : t.Filled t') (h' : t'.Filled t'') : t.Filled t'' := by
  rw [Filled] at h h' ⊢
  rw [h', h]

theorem Filled.kept (h : t.Filled t') : t.Kept t' := by
  rw [Filled] at h
  rw [h]
  exact ⟨rfl, rfl, rfl⟩

theorem Sized.touch_indices (h : t.Sized) {start count : ℤ} (hstart : 0 ≤ start)
    (hend : start + count ≤ t.cols * t.rows) : t.touch (indices start count) = t :=
  touch_eq fun i hi => by
    obtain ⟨hlow, hhigh⟩ := mem_indices.mp hi
    exact h.hasCell_index (by omega) (by omega)

theorem Sized.filled (h : t.Sized) (hfilled : t.Filled t') : t'.Sized := by
  obtain ⟨hbuffer, hstrays⟩ := h
  rw [Filled] at hfilled
  rw [hfilled]
  exact ⟨hbuffer, hstrays⟩

theorem Filled.gfx_eq (hfilled : t.Filled t') : t'.gfx = t.gfx := by
  rw [Filled] at hfilled
  rw [hfilled]

theorem clearCells_filled (h : t.Sized) : t.Filled t.clearCells := by
  have hbuffer : t.textBuffer ≠ none := by
    rw [h.buffer]
    exact Option.some_ne_none _
  have htouch : t.touch (indices 0 (t.cols * t.rows)) = t :=
    h.touch_indices le_rfl (zero_add (t.cols * t.rows)).le
  rw [clearCells, if_neg hbuffer]
  simp only [htouch]
  rfl

/-- The grid is cleared. -/
theorem Grid.clear_eq (h : t.Grid) :
    ∃ u : Term, t.clear = u.redrawFull ∧ u.Grid ∧ t.Kept u ∧ u.gfx = t.gfx := by
  have hfilled := clearCells_filled h.sized
  have hsized := h.sized.filled hfilled
  refine ⟨_, rfl, ⟨hsized.buffer, le_rfl, ?_, le_rfl, ?_, hsized.strays⟩, hfilled.kept,
    hfilled.gfx_eq⟩
  · rw [hfilled]
    exact h.left.trans_lt h.right
  · rw [hfilled]
    exact h.top.trans_lt h.bottom

/-- The cursor is shown or hidden. -/
theorem Grid.setCursorVisible (h : t.Grid) (visible : ℤ) :
    (t.setCursorVisible visible).Grid ∧ t.Kept (t.setCursorVisible visible) := by
  rw [Term.setCursorVisible]
  split_ifs
  · have hdrawn := drawCell_drawn h.sized (h.sized.hasCell h.left h.right h.top h.bottom)
    have h₁ := h.drawn hdrawn
    have h₂ : Grid { t.drawCell t.cursorX t.cursorY with showCursor := visible } :=
      ⟨h₁.buffer, h₁.left, h₁.right, h₁.top, h₁.bottom, h₁.strays⟩
    have hshown : t.Kept { t.drawCell t.cursorX t.cursorY with showCursor := visible } :=
      hdrawn.kept
    have hlast := drawCell_drawn h₂.sized (h₂.sized.hasCell h₂.left h₂.right h₂.top h₂.bottom)
    exact ⟨h₂.drawn hlast, hshown.trans hlast.kept⟩
  · exact ⟨h, (Drawn.refl t).kept⟩

/-- The grid while the cursor may be below its last row. -/
structure Below (t : Term) : Prop where
  buffer : t.textBuffer = some (t.cols * t.rows)
  left : 0 ≤ t.cursorX
  right : t.cursorX < t.cols
  top : 0 ≤ t.cursorY
  bottom : t.cursorY ≤ t.rows
  pos : 0 < t.rows
  strays : t.strays = []

theorem Below.sized (h : t.Below) : t.Sized := ⟨h.buffer, h.strays⟩

theorem Below.filled (h : t.Below) (hfilled : t.Filled t') : t'.Below := by
  obtain ⟨hbuffer, hleft, hright, htop, hbottom, hpos, hstrays⟩ := h
  rw [Filled] at hfilled
  rw [hfilled]
  exact ⟨hbuffer, hleft, hright, htop, hbottom, hpos, hstrays⟩

/-- The number of cells before and in the last row. -/
theorem lastRow_bounds (hcols : 0 < t.cols) (hrows : 0 < t.rows) :
    0 ≤ (t.rows - 1) * t.cols ∧ (t.rows - 1) * t.cols + t.cols = t.cols * t.rows := by
  refine ⟨Int.mul_nonneg (by omega) hcols.le, ?_⟩
  rw [sub_mul, one_mul, sub_add_cancel, mul_comm]

theorem moveRows_filled (h : t.Sized) (hcols : 0 < t.cols) (hrows : 0 < t.rows) :
    t.Filled t.moveRows := by
  obtain ⟨hmoved, hsize⟩ := lastRow_bounds hcols hrows
  have hfrom : t.touch (indices t.cols ((t.rows - 1) * t.cols)) = t :=
    h.touch_indices hcols.le (by omega)
  have hto : t.touch (indices 0 ((t.rows - 1) * t.cols)) = t := h.touch_indices le_rfl (by omega)
  rw [moveRows]
  simp only [hfrom, hto]
  rfl

theorem clearLastRow_filled (h : t.Sized) (hcols : 0 < t.cols) (hrows : 0 < t.rows) :
    t.Filled t.clearLastRow := by
  obtain ⟨hmoved, hsize⟩ := lastRow_bounds hcols hrows
  rw [clearLastRow]
  simp only [h.touch_indices hmoved hsize.le]
  rfl

/-- Below the last row, the grid is scrolled. -/
theorem Below.scroll_eq (h : t.Below) :
    ∃ u : Term, t.scroll = u.redrawFull ∧ u.Grid ∧ t.Kept u ∧ u.gfx = t.gfx := by
  have hbuffer : t.textBuffer ≠ none := by
    rw [h.buffer]
    exact Option.some_ne_none _
  have hcols := h.left.trans_lt h.right
  have hmoved := moveRows_filled h.sized hcols h.pos
  have hfilled : t.Filled t.moveRows.clearLastRow := by
    refine hmoved.trans (clearLastRow_filled (h.sized.filled hmoved) ?_ ?_)
    · rw [hmoved]
      exact hcols
    · rw [hmoved]
      exact h.pos
  have hu := h.filled hfilled
  have hbottom := hu.bottom
  have htop := hu.top
  have hpos := hu.pos
  let u := t.moveRows.clearLastRow
  refine ⟨{ u with cursorY := if 0 < u.cursorY then u.cursorY - 1 else u.cursorY },
    if_neg hbuffer, ⟨hu.buffer, hu.left, hu.right, ?_, ?_, hu.strays⟩, hfilled.kept,
    hfilled.gfx_eq⟩
  all_goals
    simp only [u]
    split_ifs
    all_goals omega

theorem setCell_filled {i : ℤ} (cell : Cell) (hcell : t.HasCell i) :
    t.Filled (t.setCell i cell) := by
  have htouch : t.touch [i] = t := touch_eq fun j hj => List.mem_singleton.mp hj ▸ hcell
  rw [Term.setCell, htouch]
  rfl

/-- Going back leaves the cursor in the grid. -/
theorem Grid.erase (h : t.Grid) : t.erase.Grid := by
  have hgrid : ∀ u : Term, u.Grid →
      (u.setCell (u.cursorY * u.cols + u.cursorX) ⟨0#8, u.fgColor, u.bgColor⟩).Grid := by
    intro u hu
    have hfilled := setCell_filled ⟨0#8, u.fgColor, u.bgColor⟩
      (hu.sized.hasCell hu.left hu.right hu.top hu.bottom)
    rw [Filled] at hfilled
    rw [hfilled]
    exact ⟨hu.buffer, hu.left, hu.right, hu.top, hu.bottom, hu.strays⟩
  have hright := h.right
  have hbottom := h.bottom
  have hleft := h.left
  rw [Term.erase]
  apply hgrid
  split_ifs
  · exact ⟨h.buffer, by simp only; omega, by simp only; omega, h.top, h.bottom, h.strays⟩
  · exact ⟨h.buffer, by simp only; omega, by simp only; omega, by simp only; omega,
      by simp only; omega, h.strays⟩
  · exact h

/-- The cursor goes on in the grid, or below its last row. -/
theorem Grid.put (h : t.Grid) (c : BitVec 8) : (t.put c).Below := by
  have hfilled := setCell_filled ⟨c, t.fgColor, t.bgColor⟩
    (h.sized.hasCell h.left h.right h.top h.bottom)
  have hright := h.right
  have hbottom := h.bottom
  have hleft := h.left
  have htop := h.top
  rw [Filled] at hfilled
  rw [Term.put]
  rw [hfilled]
  simp only
  split_ifs
  · exact ⟨h.buffer, le_rfl, by simp only; omega, by simp only; omega, by simp only; omega,
      by simp only; omega, h.strays⟩
  · exact ⟨h.buffer, by simp only; omega, by simp only; omega, h.top, hbottom.le,
      by simp only; omega, h.strays⟩

theorem Grid.below (h : t.Grid) : t.Below :=
  ⟨h.buffer, h.left, h.right, h.top, h.bottom.le, h.top.trans_lt h.bottom, h.strays⟩

theorem Grid.advance (h : t.Grid) (c : BitVec 8) : (t.advance c).Below := by
  have hbottom := h.bottom
  have htop := h.top
  rw [Term.advance]
  split_ifs
  · exact ⟨h.buffer, le_rfl, h.left.trans_lt h.right, by simp only; omega, by simp only; omega,
      htop.trans_lt hbottom, h.strays⟩
  · exact h.erase.below
  · exact h.put c

/-- The size of the grid stays, and pixels are not drawn yet. -/
theorem advance_size (t : Term) (c : BitVec 8) :
    (t.advance c).cols = t.cols ∧ (t.advance c).rows = t.rows ∧ (t.advance c).gfx = t.gfx := by
  rw [Term.advance]
  split_ifs
  · exact ⟨rfl, rfl, rfl⟩
  · rw [Term.erase]
    split_ifs
    all_goals exact ⟨rfl, rfl, rfl⟩
  · rw [Term.put]
    split_ifs
    all_goals exact ⟨rfl, rfl, rfl⟩

/-- A grid that is drawn is still one. -/
theorem Grid.redrawFull (h : t'.Grid) (hkept : t.Kept t') :
    t'.redrawFull.Grid ∧ t.Kept t'.redrawFull :=
  ⟨h.drawn (redrawFull_drawn h.sized), hkept.trans (redrawFull_drawn h.sized).kept⟩

/-- A character is written: the grid is scrolled and drawn, or the old and the new place of the
cursor are drawn. -/
theorem Grid.putChar_eq (h : t.Grid) (c : BitVec 8) :
    (∃ u : Term, t.putChar c = u.redrawFull ∧ u.Grid ∧ t.Kept u ∧ u.gfx = t.gfx) ∨
      (t.advance c).Grid ∧ t.putChar c =
        ((t.advance c).drawCell t.cursorX t.cursorY).drawCell (t.advance c).cursorX
          (t.advance c).cursorY := by
  have hbelow := h.advance c
  obtain ⟨hcols, hrows, hgfx⟩ := advance_size t c
  have hkept : t.Kept (t.advance c) := ⟨by rw [hgfx], hcols, hrows⟩
  rw [Term.putChar]
  by_cases hscroll : (t.advance c).rows ≤ (t.advance c).cursorY
  · obtain ⟨u, hscrolled, hgrid, hkept', hgfx'⟩ := hbelow.scroll_eq
    refine Or.inl ⟨u, ?_, hgrid, hkept.trans hkept', hgfx'.trans hgfx⟩
    rw [if_pos hscroll, hscrolled]
  · have hgrid : (t.advance c).Grid :=
      ⟨hbelow.buffer, hbelow.left, hbelow.right, hbelow.top, not_le.mp hscroll, hbelow.strays⟩
    refine Or.inr ⟨hgrid, ?_⟩
    have hold := hgrid.sized.hasCell h.left (hcols ▸ h.right) h.top (hrows ▸ h.bottom)
    have hdrawn := drawCell_drawn hgrid.sized hold
    rw [if_neg hscroll]
    simp only
    rw [Drawn] at hdrawn
    rw [hdrawn]

/-- A character is written. -/
theorem Grid.putChar (h : t.Grid) (c : BitVec 8) : (t.putChar c).Grid ∧ t.Kept (t.putChar c) := by
  obtain ⟨hcols, hrows, hgfx⟩ := advance_size t c
  have hkept : t.Kept (t.advance c) := ⟨by rw [hgfx], hcols, hrows⟩
  rcases h.putChar_eq c with ⟨u, heq, hgrid, hkept, -⟩ | ⟨hgrid, heq⟩
  · rw [heq]
    exact hgrid.redrawFull hkept
  · have hold := hgrid.sized.hasCell h.left (hcols ▸ h.right) h.top (hrows ▸ h.bottom)
    have hdrawn := drawCell_drawn hgrid.sized hold
    have hgrid' := hgrid.drawn hdrawn
    have hnew := hgrid.sized.hasCell hgrid.left hgrid.right hgrid.top hgrid.bottom
    have hdrawn' := drawCell_drawn hgrid'.sized
      (t := (t.advance c).drawCell t.cursorX t.cursorY) (x := (t.advance c).cursorX)
      (y := (t.advance c).cursorY) (by rw [hdrawn]; exact hnew)
    rw [heq]
    exact ⟨hgrid'.drawn hdrawn', (hkept.trans hdrawn.kept).trans hdrawn'.kept⟩

/-! ## Runs -/

/-- The grid is that of the window, and its rows follow each other in the buffer. -/
structure Ready (font : Font) (t : Term) : Prop where
  grid : t.Grid
  gfx_font : t.gfx.font = font
  pitch : t.gfx.pitch = t.gfx.width
  cols : t.cols = t.gfx.width.tdiv font.width
  rows : t.rows = t.gfx.height.tdiv font.height

theorem Ready.kept {font : Font} (h : Ready font t) (hgrid : t'.Grid) (hkept : t.Kept t') :
    Ready font t' := by
  obtain ⟨hgfx, hcols, hrows⟩ := hkept
  refine ⟨hgrid, ?_, ?_, ?_, ?_⟩
  · rw [hgfx]
    exact h.gfx_font
  · rw [hgfx]
    exact h.pitch
  · rw [hcols, hgfx]
    exact h.cols
  · rw [hrows, hgfx]
    exact h.rows

/-- Only colours and the state of the parser have changed. -/
def Parsed (t t' : Term) : Prop :=
  t' = { t with
    fgColor := t'.fgColor
    bgColor := t'.bgColor
    ansiState := t'.ansiState
    ansiParams := t'.ansiParams
    ansiParamCount := t'.ansiParamCount
    oscBuffer := t'.oscBuffer }

theorem Parsed.trans (h : t.Parsed t') (h' : t'.Parsed t'') : t.Parsed t'' := by
  rw [Parsed] at h h' ⊢
  rw [h', h]

theorem Parsed.kept (h : t.Parsed t') : t.Kept t' := by
  rw [Parsed] at h
  rw [h]
  exact ⟨rfl, rfl, rfl⟩

theorem Grid.parsed (h : t.Grid) (hparsed : t.Parsed t') : t'.Grid := by
  obtain ⟨hbuffer, hleft, hright, htop, hbottom, hstrays⟩ := h
  rw [Parsed] at hparsed
  rw [hparsed]
  exact ⟨hbuffer, hleft, hright, htop, hbottom, hstrays⟩

theorem applyAnsiCode_parsed (t : Term) (code : ℤ) : t.Parsed (t.applyAnsiCode code) := by
  rw [applyAnsiCode]
  split_ifs
  all_goals rfl

theorem processAnsiEnd_parsed (t : Term) (terminator : BitVec 8) :
    t.Parsed (t.processAnsiEnd terminator) := by
  have hcodes : ∀ codes : List ℕ,
      t.Parsed (codes.foldl (fun t i => t.applyAnsiCode (t.ansiParams i)) t) := fun codes => by
    refine List.foldlRecOn (motive := fun u : Term => t.Parsed u) _ _ rfl fun u hu i _ => ?_
    exact hu.trans (applyAnsiCode_parsed u _)
  have hcode := applyAnsiCode_parsed t 0
  rw [processAnsiEnd]
  split_ifs
  · exact hcode.trans rfl
  · exact (hcodes _).trans rfl
  · rfl

/-- The byte is none of the parser's: it is passed on to `term_put_char`. -/
def PassesOn (t : Term) (c : BitVec 8) : Prop :=
  t.ansiState = .normal ∧ c ≠ 0x1b#8 ∨ t.ansiState = .esc ∧ c ≠ 0x5b#8 ∧ c ≠ 0x5d#8

instance (t : Term) (c : BitVec 8) : Decidable (t.PassesOn c) :=
  inferInstanceAs (Decidable (_ ∨ _))

/-- A byte changes the state of the parser, is written as a character, or ends an image command. -/
theorem writeByte_cases (t : Term) (files : List (BitVec 8) → Option Image) (c : BitVec 8) :
    t.Parsed (t.writeByte files c) ∨
      (∃ u, t.Parsed u ∧ t.PassesOn c ∧ t.writeByte files c = u.putChar c) ∨
      (t.ansiState = .osc ∧ c = 0x07#8) ∧
        t.writeByte files c = { t.drawOsc files with ansiState := .normal } := by
  rw [writeByte]
  cases hstate : t.ansiState with
  | normal =>
    simp only
    split_ifs with hesc
    · exact Or.inl rfl
    · exact Or.inr (Or.inl ⟨t, rfl, Or.inl ⟨hstate, hesc⟩, rfl⟩)
  | esc =>
    simp only
    split_ifs with hcsi hosc
    · exact Or.inl rfl
    · exact Or.inl rfl
    · exact Or.inr (Or.inl ⟨{ t with ansiState := .normal }, rfl, Or.inr ⟨hstate, hcsi, hosc⟩, rfl⟩)
  | csi =>
    simp only
    split_ifs
    · exact Or.inl rfl
    · exact Or.inl rfl
    · exact Or.inl rfl
    · exact Or.inl (processAnsiEnd_parsed t c)
    · have hcount : t.Parsed { t with ansiParamCount := t.ansiParamCount + 1 } := rfl
      exact Or.inl (hcount.trans (processAnsiEnd_parsed _ c))
  | osc =>
    simp only
    split_ifs with hend
    · exact Or.inr (Or.inr ⟨⟨trivial, hend⟩, rfl⟩)
    · exact Or.inl rfl
    · exact Or.inl rfl

theorem drawImage_fb (g : Gfx) (x y : ℤ) (img : Image) :
    g.drawImage x y img = { g with fb := (g.drawImage x y img).fb } := by
  rw [Gfx.drawImage]
  split_ifs
  · rfl
  · rfl

/-- An image only changes pixels. -/
theorem drawOsc_drawn (t : Term) (files : List (BitVec 8) → Option Image) :
    t.Drawn (t.drawOsc files) := by
  rw [drawOsc]
  split_ifs
  · cases files (t.oscBuffer.drop 3) with
    | none => exact .refl t
    | some img =>
      rw [Drawn]
      exact congrArg (fun g : Gfx => { t with
        gfx := g
        lastUpdate := ⟨0, 0, t.gfx.width, t.gfx.height⟩
        dirty := true }) (drawImage_fb _ _ _ _)
  · exact .refl t

theorem Grid.writeByte (h : t.Grid) (files : List (BitVec 8) → Option Image) (c : BitVec 8) :
    (t.writeByte files c).Grid ∧ t.Kept (t.writeByte files c) := by
  rcases writeByte_cases t files c with hparsed | ⟨u, hparsed, -, heq⟩ | ⟨-, heq⟩
  · exact ⟨h.parsed hparsed, hparsed.kept⟩
  · obtain ⟨hgrid, hkept⟩ := (h.parsed hparsed).putChar c
    rw [heq]
    exact ⟨hgrid, hparsed.kept.trans hkept⟩
  · have hdrawn := drawOsc_drawn t files
    have hparsed : (t.drawOsc files).Parsed { t.drawOsc files with ansiState := .normal } := rfl
    rw [heq]
    exact ⟨(h.drawn hdrawn).parsed hparsed, hdrawn.kept.trans hparsed.kept⟩

theorem Grid.write (h : t.Grid) (files : List (BitVec 8) → Option Image)
    (str : List (BitVec 8)) : (t.write files str).Grid ∧ t.Kept (t.write files str) := by
  rw [Term.write]
  refine List.foldlRecOn (motive := fun u : Term => u.Grid ∧ t.Kept u) _ _
    ⟨h, (Drawn.refl t).kept⟩ fun u hu c _ => ?_
  obtain ⟨hgrid, hkept⟩ := hu.1.writeByte files c
  exact ⟨hgrid, hu.2.trans hkept⟩

/-- The terminal of a new window of some size. -/
def started (font : Font) (fb : ℤ → BitVec 32) (width height : ℤ) : Term :=
  let gfx : Gfx := ⟨fb, width, height, width, font⟩
  (zero gfx).init gfx

/-- What a program does to its terminal. -/
inductive Op
  | init (width height : ℤ)
  | resize (width height : ℤ)
  | write (str : List (BitVec 8))
  | clear
  | setCursorVisible (visible : ℤ)

/-- Carries out an operation. -/
def apply (files : List (BitVec 8) → Option Image) (t : Term) : Op → Term
  | .init width height => t.init (t.gfx.withSize width height)
  | .resize width height => t.resizeWindow width height
  | .write str => t.write files str
  | .clear => t.clear
  | .setCursorVisible visible => t.setCursorVisible visible

/-- One operation. -/
def Step (files : List (BitVec 8) → Option Image) (t : Term) (op : Op) (t' : Term) : Prop :=
  t' = t.apply files op

/-- The sizes in an operation have room for a cell. -/
def Op.Fits (font : Font) : Op → Prop
  | .init width height => Term.Fits font width height
  | .resize width height => Term.Fits font width height
  | _ => True

section Runs

variable {font : Font} {fb : ℤ → BitVec 32} {width height : ℤ}

/-- A terminal that gets another size is redrawn. -/
theorem resize_ready (hfont : 0 < font.width ∧ 0 < font.height) (hfits : Fits font width height)
    (hgfx : t.gfx.font = font) (hpitch : t.gfx.pitch = t.gfx.width) (hwidth : t.gfx.width = width)
    (hheight : t.gfx.height = height) (hstrays : t.strays = []) (hleft : 0 ≤ t.cursorX)
    (htop : 0 ≤ t.cursorY) :
    ∃ u : Term, t.resize width height = u.redrawFull ∧ Ready font u ∧ u.gfx = t.gfx := by
  have hfw : t.fontWidth = font.width := by rw [fontWidth, hgfx]
  have hfh : t.fontHeight = font.height := by rw [fontHeight, hgfx]
  have hpos : 0 < t.fontWidth ∧ 0 < t.fontHeight := by
    rw [hfw, hfh]
    exact ⟨Int.natCast_pos.mpr hfont.1, Int.natCast_pos.mpr hfont.2⟩
  have hroom : t.fontWidth ≤ width ∧ t.fontHeight ≤ height := by
    rw [hfw, hfh]
    exact hfits
  obtain ⟨u, heq, hgrid, hg, hcols, hrows⟩ := resize_eq hpos hroom hstrays hleft htop
  refine ⟨u, heq, ⟨hgrid, ?_, ?_, ?_, ?_⟩, hg⟩
  · rw [hg]
    exact hgfx
  · rw [hg]
    exact hpitch
  · rw [hcols, hg, hwidth, hfw]
  · rw [hrows, hg, hheight, hfh]

theorem Ready.redrawFull (h : Ready font t) : Ready font t.redrawFull :=
  h.kept (h.grid.drawn (redrawFull_drawn h.grid.sized)) (redrawFull_drawn h.grid.sized).kept

/-- The operations keep the grid, when there is room for a cell. -/
theorem Ready.apply (hfont : 0 < font.width ∧ 0 < font.height) (h : Ready font t) (op : Op)
    (hop : op.Fits font) : Ready font (t.apply files op) := by
  cases op with
  | init width height =>
    obtain ⟨u, heq, hready, -⟩ := resize_ready
      (t := t.reset (t.gfx.withSize width height)) hfont hop h.gfx_font rfl rfl rfl
      h.grid.strays le_rfl le_rfl
    have hinit : t.apply files (.init width height) = u.redrawFull := heq
    rw [hinit]
    exact hready.redrawFull
  | resize width height =>
    obtain ⟨u, heq, hready, -⟩ := resize_ready
      (t := { t with gfx := t.gfx.withSize width height }) hfont hop h.gfx_font rfl rfl rfl
      h.grid.strays h.grid.left h.grid.top
    have hresize : t.apply files (.resize width height) = u.redrawFull := heq
    rw [hresize]
    exact hready.redrawFull
  | write str =>
    obtain ⟨hgrid, hkept⟩ := h.grid.write files str
    exact h.kept hgrid hkept
  | clear =>
    obtain ⟨u, heq, hgrid, hkept, -⟩ := h.grid.clear_eq
    obtain ⟨hgrid', hkept'⟩ := hgrid.redrawFull hkept
    have hclear : t.apply files .clear = u.redrawFull := heq
    rw [hclear]
    exact h.kept hgrid' hkept'
  | setCursorVisible visible =>
    obtain ⟨hgrid, hkept⟩ := h.grid.setCursorVisible visible
    exact h.kept hgrid hkept

theorem started_ready (hfont : 0 < font.width ∧ 0 < font.height) (hfits : Fits font width height) :
    Ready font (started font fb width height) := by
  obtain ⟨u, heq, hready, -⟩ := resize_ready
    (t := (zero ⟨fb, width, height, width, font⟩).reset ⟨fb, width, height, width, font⟩) hfont
    hfits rfl rfl rfl rfl rfl le_rfl le_rfl
  have hstarted : started font fb width height = u.redrawFull := heq
  rw [hstarted]
  exact hready.redrawFull

/-- A grid with a cell has the room for it. -/
theorem fits_of_grid (hfont : 0 < font.width ∧ 0 < font.height) (hgfx : t.gfx.font = font)
    (h : (t.resize width height).Grid) : Fits font width height := by
  obtain ⟨hcols, hrows⟩ := resize_size t width height
  rw [fontWidth, hgfx] at hcols
  rw [fontHeight, hgfx] at hrows
  have hx := h.left.trans_lt h.right
  have hy := h.top.trans_lt h.bottom
  rw [hcols] at hx
  rw [hrows] at hy
  exact ⟨(tdiv_pos_iff (by omega)).mp hx, (tdiv_pos_iff (by omega)).mp hy⟩

/-- While the windows have room for a cell, the terminal has its grid. -/
theorem ready_of_fits (hfont : 0 < font.width ∧ 0 < font.height) (hfits : Fits font width height)
    {trace : List (Transition Term Op)}
    (run : Reaches (Traced (Step files)) (started font fb width height) trace t)
    (hops : ∀ u ∈ trace, u.label.Fits font) : Ready font t := by
  induction run with
  | start => exact started_ready hfont hfits
  | snoc _ hlast ih =>
    obtain ⟨hops, hop⟩ := List.forall_mem_cons.mp hops |>.symm
    obtain ⟨-, -, hstep⟩ := hlast
    exact hstep ▸ (ih hops).apply hfont _ hop

/-- In a run of the terminal the cursor is in the grid, the buffer is that of the grid and only
cells of the buffer are accessed, after every operation, just if every size has room for a cell. -/
theorem grid_iff (hfont : 0 < font.width ∧ 0 < font.height) {trace : List (Transition Term Op)}
    (run : Reaches (Traced (Step files)) (started font fb width height) trace t) :
    ((started font fb width height).Grid ∧ ∀ u ∈ trace, u.after.Grid) ↔
      Fits font width height ∧ ∀ u ∈ trace, u.label.Fits font := by
  have hstart : (started font fb width height).Grid ↔ Fits font width height :=
    ⟨fun h => fits_of_grid
      (t := (zero ⟨fb, width, height, width, font⟩).reset ⟨fb, width, height, width, font⟩) hfont
      rfl h, fun h => (started_ready hfont h).grid⟩
  rw [hstart]
  refine and_congr_right fun hfits => run.forall_iff fun trace s u s' hrun hops hstep => ?_
  have hready := ready_of_fits hfont hfits hrun hops
  obtain ⟨hbefore, hafter, hstep⟩ := hstep
  have hreadyAfter : u.label.Fits font → s'.Grid := fun hop =>
    hstep ▸ (hready.apply hfont u.label hop).grid
  rw [hafter]
  refine ⟨fun hgrid => ?_, hreadyAfter⟩
  cases hlabel : u.label with
  | init width height =>
    rw [hlabel] at hstep
    have hinit : s' = (s.reset (s.gfx.withSize width height)).resize width height := hstep
    have hsame : (s.reset (s.gfx.withSize width height)).gfx.font = font := hready.gfx_font
    rw [hinit] at hgrid
    exact fits_of_grid hfont hsame hgrid
  | resize width height =>
    rw [hlabel] at hstep
    have hresize : s' =
      { s with gfx := s.gfx.withSize width height }.resize width height := hstep
    have hsame : Gfx.font (s.gfx.withSize width height) = font := hready.gfx_font
    rw [hresize] at hgrid
    exact fits_of_grid (t := { s with gfx := s.gfx.withSize width height }) hfont hsame hgrid
  | write str => trivial
  | clear => trivial
  | setCursorVisible visible => trivial

end Runs

/-- A font of eight by eight pixels, without glyphs. -/
def sampleFont : Font := ⟨8, 8, 8, fun _ => 0⟩

theorem grid_iff_sampleFont : ∃ t, Reaches (Traced (Step fun _ => none))
    (started sampleFont (fun _ => 0) 16 16) [⟨started sampleFont (fun _ => 0) 16 16, .clear, t⟩] t ∧
    t.Grid := by
  have run : Reaches (Traced (Step fun _ => none)) (started sampleFont (fun _ => 0) 16 16)
      [⟨_, .clear, _⟩] (started sampleFont (fun _ => 0) 16 16).clear := Reaches.start.next rfl
  have hfits : Fits sampleFont 16 16 := ⟨by decide, by decide⟩
  have hall := (grid_iff ⟨by decide, by decide⟩ run).mpr
    ⟨hfits, fun u hu => (List.mem_singleton.mp hu).symm ▸ trivial⟩
  exact ⟨_, run, hall.2 _ List.mem_cons_self⟩

/-- A window of two by two cells becomes narrower than a cell and grows again. The cursor is before
the first column, and a character is written before the buffer. -/
theorem grid_lost : ∃ t, Reaches (Step fun _ => none) (started sampleFont (fun _ => 0) 16 16)
    [.write [0x41#8], .resize 16 16, .resize 4 16] t ∧ t.strays.head? = some (-1) ∧ ¬t.Grid := by
  have hstray : ((((started sampleFont (fun _ => 0) 16 16).resizeWindow 4 16).resizeWindow 16
      16).write (fun _ => none) [0x41#8]).strays.head? = some (-1) := by decide +kernel
  refine ⟨_, ((Reaches.start.snoc rfl).snoc rfl).snoc rfl, hstray, fun hgrid => ?_⟩
  have hnone := hstray.symm.trans (congrArg List.head? hgrid.strays)
  exact absurd hnone (Option.some_ne_none _)

end Term

end OpenIDP.Userspace
