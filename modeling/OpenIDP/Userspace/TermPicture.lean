import OpenIDP.Userspace.TermGrid

/-!
# The picture of the terminal

What the window shows is determined by the grid: each cell shows its character in its colours, the
cell of the cursor has its colours exchanged, and the rest of the window has the default colour.
Drawing all of the grid gives this picture, and so does drawing only the cells that change.

## Main definitions

* `Term.picture` — the picture of a grid
* `Term.Painted` — the window shows the picture

## Main results

* `Term.redrawFull_painted` — drawing everything gives the picture
* `Term.redraw_unchanged` — after every operation, drawing everything changes nothing
-/

namespace OpenIDP.Userspace

open OpenIDP.Math

namespace Term

variable {font : Font} {t t' u : Term} {x y px py : ℤ}
  {files : List (BitVec 8) → Option Image}

/-- The colour of a pixel of a cell. -/
def cellPixel (t : Term) (x y px py : ℤ) : BitVec 32 :=
  let cell := t.look x y
  if t.gfx.font.isSet cell.c (py % t.fontHeight).toNat (px % t.fontWidth).toNat then cell.fg
  else cell.bg

/-- The picture of a grid. -/
def picture (t : Term) (px py : ℤ) : BitVec 32 :=
  let x := px / t.fontWidth
  let y := py / t.fontHeight
  if x < t.cols ∧ y < t.rows then t.cellPixel x y px py else defaultBg

/-- The window shows the picture. -/
def Painted (t : Term) : Prop :=
  ∀ px py, t.gfx.OnScreen px py → t.gfx.fb (t.gfx.pixel px py) = t.picture px py

/-- The cell of a pixel. -/
def InCell (t : Term) (x y px py : ℤ) : Prop := px / t.fontWidth = x ∧ py / t.fontHeight = y

instance : Decidable (t.InCell x y px py) := inferInstanceAs (Decidable (_ ∧ _))

theorem addDirtyCell_gfx (t : Term) (col row : ℤ) : (t.addDirtyCell col row).gfx = t.gfx := by
  rw [addDirtyCell_drawn t col row, addDirtyCell]
  by_cases hdirty : t.dirty = false
  · rw [if_pos hdirty]
  · rw [if_neg hdirty]

/-- The box of a cell consists of its pixels. -/
theorem mem_box_iff {n m : ℤ} (hn : 0 < n) (hm : 0 < m) :
    (⟨x * n, y * m, n, m⟩ : Rect).Mem px py ↔ px / n = x ∧ py / m = y := by
  have hdiv : ∀ {a b d : ℤ}, 0 < d → (a / d = b ↔ b * d ≤ a ∧ a < b * d + d) := by
    intro a b d hd
    have hnext : b * d + d = (b + 1) * d := by rw [add_mul, one_mul]
    rw [hnext, ← Int.le_ediv_iff_mul_le hd, ← Int.ediv_lt_iff_lt_mul hd]
    omega
  rw [hdiv hn, hdiv hm, Rect.Mem]
  tauto

/-- Drawing a cell of the grid paints its pixels. -/
theorem drawCell_pixel (hfont : 0 < t.fontWidth ∧ 0 < t.fontHeight) (h : t.Sized)
    (hpitch : t.gfx.pitch = t.gfx.width) (hx : 0 ≤ x) (hcell : t.HasCell (y * t.cols + x))
    (hon : t.gfx.OnScreen px py) :
    (t.drawCell x y).gfx.fb (t.gfx.pixel px py) =
      if t.InCell x y px py then t.cellPixel x y px py else t.gfx.fb (t.gfx.pixel px py) := by
  have hbox : (⟨x * t.fontWidth, y * t.fontHeight, t.gfx.font.width, t.gfx.font.height⟩ :
      Rect).Mem px py ↔ t.InCell x y px py := mem_box_iff hfont.1 hfont.2
  rw [drawCell_eq h hcell, addDirtyCell_gfx]
  simp only
  rw [Gfx.drawChar_pixel hpitch (Int.mul_nonneg hx hfont.1.le) hon]
  by_cases hin : t.InCell x y px py
  · rw [if_pos hin, if_pos (hbox.mpr hin), cellPixel]
    obtain ⟨hpx, hpy⟩ := hin
    have hcol : px - x * t.fontWidth = px % t.fontWidth := by
      rw [← hpx, Int.emod_def, mul_comm]
    have hrow : py - y * t.fontHeight = py % t.fontHeight := by
      rw [← hpy, Int.emod_def, mul_comm]
    rw [hcol, hrow]
  · rw [if_neg hin, if_neg fun hmem => hin (hbox.mp hmem)]

/-! ## States that differ in pixels -/

theorem Drawn.gfx_eq (h : t.Drawn u) : u.gfx = { t.gfx with fb := u.gfx.fb } :=
  congrArg Term.gfx (show u = _ from h)

theorem look_drawn (h : t.Drawn u) : u.look = t.look := by
  funext x y
  rw [h]
  rfl

theorem cellPixel_drawn (h : t.Drawn u) : u.cellPixel = t.cellPixel := by
  funext x y px py
  rw [cellPixel, look_drawn h, h]
  rfl

theorem picture_drawn (h : t.Drawn u) : u.picture = t.picture := by
  funext px py
  rw [picture, cellPixel_drawn h, h]
  rfl

/-! ## Drawing everything -/

/-- A cell that is not drawn, without a visible character and in the default background, would be
drawn in the default colour. -/
theorem cellPixel_blank (hfont : 0 < t.fontWidth ∧ 0 < t.fontHeight)
    (hblank : t.gfx.font.Blank 0x20#8)
    (hskip : ¬((t.cells (y * t.cols + x)).c ≠ 0#8 ∧ (t.cells (y * t.cols + x)).c ≠ 0x20#8 ∨
      (t.cells (y * t.cols + x)).bg ≠ defaultBg))
    (hcursor : t.isCursor x y = false) : t.cellPixel x y px py = defaultBg := by
  obtain ⟨hchar, hbg⟩ := not_or.mp hskip
  have hrow : (py % t.fontHeight).toNat < t.gfx.font.height := by
    have hlt := Int.emod_lt_of_pos py hfont.2
    have hnonneg := Int.emod_nonneg py hfont.2.ne'
    have hheight : t.fontHeight = t.gfx.font.height := rfl
    omega
  have hcol : (px % t.fontWidth).toNat < t.gfx.font.width := by
    have hlt := Int.emod_lt_of_pos px hfont.1
    have hnonneg := Int.emod_nonneg px hfont.1.ne'
    have hwidth : t.fontWidth = t.gfx.font.width := rfl
    omega
  have hspace : (t.look x y).c = 0x20#8 := by
    rw [look, hcursor]
    simp only [Bool.false_eq_true, if_false]
    split_ifs with hzero
    · rfl
    · exact not_not.mp fun hne => hchar ⟨hzero, hne⟩
  have hback : (t.look x y).bg = defaultBg := by
    rw [look, hcursor]
    exact not_not.mp hbg
  rw [cellPixel, hspace, hblank _ hrow _ hcol, if_neg Bool.false_ne_true, hback]

section Redraw

/-- What was drawn on the way from one state to another does not matter for the next cell. -/
theorem drawCell_pixel_drawn (hfont : 0 < t.fontWidth ∧ 0 < t.fontHeight) (h : t.Sized)
    (hpitch : t.gfx.pitch = t.gfx.width) (hdrawn : t.Drawn u) (hq : (x, y) ∈ t.grid)
    (hon : t.gfx.OnScreen px py) :
    (u.drawCell x y).gfx.fb (t.gfx.pixel px py) =
      if t.InCell x y px py then t.cellPixel x y px py else u.gfx.fb (t.gfx.pixel px py) := by
  obtain ⟨⟨hx, hcols⟩, hy, hrows⟩ := mem_grid.mp hq
  have hwidth : u.gfx.width = t.gfx.width := by rw [hdrawn.gfx_eq]
  have hheight : u.gfx.height = t.gfx.height := by rw [hdrawn.gfx_eq]
  have hgfx : u.gfx.font = t.gfx.font := by rw [hdrawn.gfx_eq]
  have hpitch' : u.gfx.pitch = t.gfx.pitch := by rw [hdrawn.gfx_eq]
  have hcell : u.HasCell (y * u.cols + x) := by
    have hcell := h.hasCell hx hcols hy hrows
    rw [Drawn] at hdrawn
    rw [hdrawn]
    exact hcell
  have hfont' : 0 < u.fontWidth ∧ 0 < u.fontHeight := by
    rw [fontWidth, fontHeight, hgfx]
    exact hfont
  have hon' : u.gfx.OnScreen px py := by
    rw [Gfx.OnScreen, hwidth, hheight]
    exact hon
  have hpixel : u.gfx.pixel px py = t.gfx.pixel px py := by
    rw [Gfx.pixel, hwidth, Gfx.pixel]
  have hin : u.InCell x y px py ↔ t.InCell x y px py := by
    rw [InCell, fontWidth, fontHeight, hgfx]
    exact Iff.rfl
  have hdraw := drawCell_pixel hfont' (h.drawn hdrawn)
    (hpitch'.trans (hpitch.trans hwidth.symm)) hx hcell hon'
  rw [hpixel, cellPixel_drawn hdrawn] at hdraw
  rw [hdraw, if_congr hin rfl rfl]

variable (hfont : 0 < t.fontWidth ∧ 0 < t.fontHeight) (hblank : t.gfx.font.Blank 0x20#8)
  (h : t.Sized) (hpitch : t.gfx.pitch = t.gfx.width)
include hfont hblank h hpitch

/-- Looking at a cell paints its pixels, which were cleared before or have been painted. -/
theorem redrawCell_pixel (hdrawn : t.Drawn u) (hq : (x, y) ∈ t.grid) (hon : t.gfx.OnScreen px py)
    (hbefore : u.gfx.fb (t.gfx.pixel px py) = defaultBg ∨
      u.gfx.fb (t.gfx.pixel px py) = t.picture px py) :
    (u.redrawCell x y).gfx.fb (t.gfx.pixel px py) =
      if t.InCell x y px py then t.picture px py else u.gfx.fb (t.gfx.pixel px py) := by
  obtain ⟨⟨hx, hcols⟩, hy, hrows⟩ := mem_grid.mp hq
  have hpicture : t.InCell x y px py → t.cellPixel x y px py = t.picture px py := by
    rintro ⟨rfl, rfl⟩
    exact (if_pos ⟨hcols, hrows⟩).symm
  have hcell : u.HasCell (y * u.cols + x) := by
    have hcell := h.hasCell hx hcols hy hrows
    rw [Drawn] at hdrawn
    rw [hdrawn]
    exact hcell
  have htouch : u.touch [y * u.cols + x] = u :=
    touch_eq fun i hi => List.mem_singleton.mp hi ▸ hcell
  have hdrawn' := hdrawn.trans (drawCell_drawn (h.drawn hdrawn) hcell)
  have hcells : u.cells (y * u.cols + x) = t.cells (y * t.cols + x) := by
    rw [Drawn] at hdrawn
    rw [hdrawn]
  have hcursor : u.isCursor x y = t.isCursor x y := by
    rw [Drawn] at hdrawn
    rw [hdrawn]
    rfl
  have hcursor' : (u.drawCell x y).isCursor x y = t.isCursor x y := by
    rw [Drawn] at hdrawn'
    rw [hdrawn']
    rfl
  -- drawn once or twice, a cell is painted
  have honce : (u.drawCell x y).gfx.fb (t.gfx.pixel px py) =
      if t.InCell x y px py then t.picture px py else u.gfx.fb (t.gfx.pixel px py) := by
    rw [drawCell_pixel_drawn hfont h hpitch hdrawn hq hon]
    exact ite_congr rfl hpicture fun _ => rfl
  have htwice : ((u.drawCell x y).drawCell x y).gfx.fb (t.gfx.pixel px py) =
      if t.InCell x y px py then t.picture px py else u.gfx.fb (t.gfx.pixel px py) := by
    rw [drawCell_pixel_drawn hfont h hpitch hdrawn' hq hon, honce]
    by_cases hin : t.InCell x y px py
    · rw [if_pos hin, if_pos hin, hpicture hin]
    · rw [if_neg hin, if_neg hin]
  generalize hresult : (if t.InCell x y px py then t.picture px py
    else u.gfx.fb (t.gfx.pixel px py)) = result at honce htwice ⊢
  rw [redrawCell]
  simp only [htouch, hcells]
  split_ifs with hvisible hat hat
  · exact htwice
  · exact honce
  · exact honce
  · -- the cell is not drawn: it has no visible character
    rw [← hresult]
    by_cases hin : t.InCell x y px py
    · have hhidden : t.isCursor x y = false := by
        rw [← hcursor]
        exact Bool.eq_false_of_not_eq_true hat
      have hdefault : t.cellPixel x y px py = defaultBg :=
        cellPixel_blank hfont hblank hvisible hhidden
      rw [if_pos hin, ← hpicture hin, hdefault]
      rw [← hpicture hin, hdefault] at hbefore
      exact or_self_iff.mp hbefore
    · rw [if_neg hin]

/-- Looking at cells paints their pixels. -/
theorem redrawCells_pixel (hon : t.gfx.OnScreen px py) (cells : List (ℤ × ℤ))
    (hcells : ∀ q ∈ cells, q ∈ t.grid) (hdrawn : t.Drawn u)
    (hbefore : u.gfx.fb (t.gfx.pixel px py) = defaultBg ∨
      u.gfx.fb (t.gfx.pixel px py) = t.picture px py) :
    (cells.foldl (fun t q => t.redrawCell q.1 q.2) u).gfx.fb (t.gfx.pixel px py) =
      if ∃ q ∈ cells, t.InCell q.1 q.2 px py then t.picture px py
      else u.gfx.fb (t.gfx.pixel px py) := by
  induction cells generalizing u with
  | nil => exact (if_neg fun ⟨_, hq, _⟩ => absurd hq List.not_mem_nil).symm
  | cons q cells ih =>
    have hq := hcells q List.mem_cons_self
    obtain ⟨⟨hx, hcols⟩, hy, hrows⟩ := mem_grid.mp hq
    have hstep := redrawCell_pixel hfont hblank h hpitch hdrawn hq hon hbefore
    have hcell : u.HasCell (q.2 * u.cols + q.1) := by
      have hcell := h.hasCell hx hcols hy hrows
      rw [Drawn] at hdrawn
      rw [hdrawn]
      exact hcell
    have hdrawn' := hdrawn.trans (redrawCell_drawn (h.drawn hdrawn) hcell)
    have hnext : (u.redrawCell q.1 q.2).gfx.fb (t.gfx.pixel px py) = defaultBg ∨
        (u.redrawCell q.1 q.2).gfx.fb (t.gfx.pixel px py) = t.picture px py := by
      rw [hstep]
      split_ifs
      · exact Or.inr rfl
      · exact hbefore
    rw [List.foldl_cons, ih (fun q' hq' => hcells q' (List.mem_cons_of_mem _ hq')) hdrawn' hnext,
      hstep]
    by_cases hin : t.InCell q.1 q.2 px py
    · rw [if_pos hin, ite_self, if_pos ⟨q, List.mem_cons_self, hin⟩]
    · rw [if_neg hin]
      refine if_congr ⟨?_, ?_⟩ rfl rfl
      · rintro ⟨q', hq', hin'⟩
        exact ⟨q', List.mem_cons_of_mem _ hq', hin'⟩
      · rintro ⟨q', hq', hin'⟩
        rcases List.mem_cons.mp hq' with rfl | hq'
        · exact absurd hin' hin
        · exact ⟨q', hq', hin'⟩

/-- Drawing everything gives the picture. -/
theorem redrawFull_pixel (hon : t.gfx.OnScreen px py) :
    t.redrawFull.gfx.fb (t.gfx.pixel px py) = t.picture px py := by
  obtain ⟨hlow, hhigh⟩ := Gfx.pixel_bounds hon
  have hclear : (t.gfx.clear defaultBg).fb (t.gfx.pixel px py) = defaultBg :=
    Gfx.clear_fb_of_bounds hlow hhigh
  have hcells := redrawCells_pixel hfont hblank h hpitch hon t.grid (fun _ hq => hq)
    (u := { t with gfx := t.gfx.clear defaultBg }) rfl (Or.inl hclear)
  rw [redrawFull]
  refine hcells.trans ?_
  split_ifs with hin
  · rfl
  · -- a pixel outside of the grid
    obtain ⟨hpx, -, hpy, -⟩ := hon
    refine hclear.trans (if_neg fun hgrid => hin ?_).symm
    exact ⟨(px / t.fontWidth, py / t.fontHeight), mem_grid.mpr
      ⟨⟨Int.ediv_nonneg hpx hfont.1.le, hgrid.1⟩, Int.ediv_nonneg hpy hfont.2.le, hgrid.2⟩,
      rfl, rfl⟩

end Redraw

/-! ## Painted windows -/

theorem Ready.fontWidth (h : Ready font t) : t.fontWidth = font.width := by
  rw [Term.fontWidth, h.gfx_font]

theorem Ready.fontHeight (h : Ready font t) : t.fontHeight = font.height := by
  rw [Term.fontHeight, h.gfx_font]

theorem Ready.font_pos (h : Ready font t) (hfont : 0 < font.width ∧ 0 < font.height) :
    0 < t.fontWidth ∧ 0 < t.fontHeight := by
  rw [h.fontWidth, h.fontHeight]
  exact ⟨Int.natCast_pos.mpr hfont.1, Int.natCast_pos.mpr hfont.2⟩

/-- Where the pictures agree with each other and with what is shown, a window is painted. -/
theorem Painted.congr (h : t.Painted) (hfb : t'.gfx = t.gfx)
    (hpicture : ∀ px py, t.gfx.OnScreen px py → t'.picture px py = t.picture px py) :
    t'.Painted := by
  intro px py hon
  rw [hfb] at hon ⊢
  rw [hpicture px py hon]
  exact h px py hon

section Ops

variable (hfont : 0 < font.width ∧ 0 < font.height) (hblank : font.Blank 0x20#8)
include hfont hblank

/-- Drawing everything gives the picture. -/
theorem redrawFull_painted (h : Ready font u) : u.redrawFull.Painted := by
  have hdrawn := redrawFull_drawn h.grid.sized
  intro px py hon
  rw [picture_drawn hdrawn]
  rw [hdrawn.gfx_eq] at hon ⊢
  exact redrawFull_pixel (h.font_pos hfont) (h.gfx_font ▸ hblank) h.grid.sized h.pitch hon

omit hblank in
/-- Drawing does not reach beyond the window. -/
theorem redrawFull_outside (h : Ready font t) {k : ℤ}
    (hk : k < 0 ∨ t.gfx.width * t.gfx.height ≤ k) : t.redrawFull.gfx.fb k = t.gfx.fb k := by
  have hpos := h.font_pos hfont
  -- drawing keeps the cells, so all of the grid is there until the end
  have hcell : ∀ u : Term, t.Drawn u → ∀ q ∈ t.grid, u.HasCell (q.2 * u.cols + q.1) := by
    intro u hu q hq
    obtain ⟨⟨hx, hcols⟩, hy, hrows⟩ := mem_grid.mp hq
    have hcell := h.grid.sized.hasCell hx hcols hy hrows
    rw [Drawn] at hu
    rw [hu]
    exact hcell
  have hdraw : ∀ u : Term, t.Drawn u → ∀ q ∈ t.grid,
      t.Drawn (u.drawCell q.1 q.2) ∧ (u.drawCell q.1 q.2).gfx.fb k = u.gfx.fb k := by
    intro u hu q hq
    obtain ⟨⟨hx, -⟩, hy, -⟩ := mem_grid.mp hq
    have hsized := h.grid.sized.drawn hu
    refine ⟨hu.trans (drawCell_drawn hsized (hcell u hu q hq)), ?_⟩
    have hwidth : u.fontWidth = t.fontWidth := by rw [Term.fontWidth, hu.gfx_eq, Term.fontWidth]
    have hheight : u.fontHeight = t.fontHeight := by
      rw [Term.fontHeight, hu.gfx_eq, Term.fontHeight]
    rw [drawCell_eq hsized (hcell u hu q hq), addDirtyCell_gfx]
    apply Gfx.drawChar_outside
    · rw [hu.gfx_eq]
      exact h.pitch
    · rw [hwidth]
      exact Int.mul_nonneg hx hpos.1.le
    · rw [hheight]
      exact Int.mul_nonneg hy hpos.2.le
    · rw [hu.gfx_eq]
      exact hk
  -- a cell is drawn at most twice, the second time for the cursor
  have hcells : ∀ u : Term, t.Drawn u → ∀ q ∈ t.grid,
      t.Drawn (u.redrawCell q.1 q.2) ∧ (u.redrawCell q.1 q.2).gfx.fb k = u.gfx.fb k := by
    intro u hu q hq
    have htouch : u.touch [q.2 * u.cols + q.1] = u :=
      touch_eq fun i hi => List.mem_singleton.mp hi ▸ hcell u hu q hq
    obtain ⟨hdrawn, hfb⟩ := hdraw u hu q hq
    obtain ⟨hdrawn', hfb'⟩ := hdraw _ hdrawn q hq
    rw [redrawCell]
    simp only [htouch]
    split_ifs
    · exact ⟨hdrawn', hfb'.trans hfb⟩
    · exact ⟨hdrawn, hfb⟩
    · exact ⟨hdrawn, hfb⟩
    · exact ⟨hu, rfl⟩
  have hclear : t.Drawn { t with gfx := t.gfx.clear defaultBg } := rfl
  rw [redrawFull]
  refine (List.foldlRecOn (motive := fun u : Term => t.Drawn u ∧ u.gfx.fb k = t.gfx.fb k) _ _
    ⟨hclear, Gfx.clear_fb_outside hk⟩ fun u hu q hq => ?_).2
  obtain ⟨hdrawn, hfb⟩ := hcells u hu.1 q hq
  exact ⟨hdrawn, hfb.trans hu.2⟩

/-- When the window shows the picture, drawing everything changes nothing. -/
theorem Painted.redrawFull_fb (h : t.Painted) (hready : Ready font t) :
    t.redrawFull.gfx.fb = t.gfx.fb := by
  have hdrawn := redrawFull_drawn hready.grid.sized
  have hwidth : 0 < t.gfx.width := by
    have hcols := hready.grid.left.trans_lt hready.grid.right
    rw [hready.cols] at hcols
    have hle := (tdiv_pos_iff (Int.natCast_pos.mpr hfont.1)).mp hcols
    omega
  funext k
  by_cases hk : 0 ≤ k ∧ k < t.gfx.width * t.gfx.height
  · obtain ⟨px, py, hon, rfl⟩ := Gfx.exists_pixel hwidth hk.1 hk.2
    rw [h px py hon]
    exact redrawFull_pixel (hready.font_pos hfont) (hready.gfx_font ▸ hblank) hready.grid.sized
      hready.pitch hon
  · exact redrawFull_outside hfont hready (by omega)

end Ops

/-! ## Characters -/

theorem erase_cells (t : Term) : ∃ cell, t.erase.cells =
    Function.update t.cells (t.erase.cursorY * t.cols + t.erase.cursorX) cell := by
  rw [Term.erase]
  split_ifs
  all_goals exact ⟨_, rfl⟩

theorem put_cells (t : Term) (c : BitVec 8) : ∃ cell, (t.put c).cells =
    Function.update t.cells (t.cursorY * t.cols + t.cursorX) cell := by
  rw [Term.put]
  split_ifs
  all_goals exact ⟨_, rfl⟩

/-- A character changes the cell at the old place of the cursor or at the new one. -/
theorem advance_cells (h : t.Grid) (c : BitVec 8) (hx : 0 ≤ x) (hcols : x < t.cols)
    (hold : ¬(x = t.cursorX ∧ y = t.cursorY))
    (hnew : ¬(x = (t.advance c).cursorX ∧ y = (t.advance c).cursorY)) :
    (t.advance c).cells (y * t.cols + x) = t.cells (y * t.cols + x) := by
  rw [Term.advance] at hnew ⊢
  split_ifs at hnew ⊢
  · rfl
  · obtain ⟨cell, hcells⟩ := erase_cells t
    have hsize : t.erase.cols = t.cols := by
      rw [Term.erase]
      split_ifs
      all_goals rfl
    rw [hcells]
    refine Function.update_of_ne (fun heq => hnew ?_) _ _
    exact Gfx.index_inj hx hcols h.erase.left (hsize ▸ h.erase.right) heq
  · obtain ⟨cell, hcells⟩ := put_cells t c
    rw [hcells]
    exact Function.update_of_ne
      (fun heq => hold (Gfx.index_inj hx hcols h.left h.right heq)) _ _

/-- After a character only the old and the new place of the cursor look different. -/
theorem advance_look (h : t.Grid) (c : BitVec 8) (hx : 0 ≤ x) (hcols : x < t.cols)
    (hold : ¬(x = t.cursorX ∧ y = t.cursorY))
    (hnew : ¬(x = (t.advance c).cursorX ∧ y = (t.advance c).cursorY)) :
    (t.advance c).look x y = t.look x y := by
  have hcursor : ∀ u : Term, ¬(x = u.cursorX ∧ y = u.cursorY) → u.isCursor x y = false :=
    fun u hu => decide_eq_false fun hat => hu hat.2
  rw [look, look, hcursor t hold, hcursor _ hnew, (advance_size t c).1,
    advance_cells h c hx hcols hold hnew]

section Ops

variable (hfont : 0 < font.width ∧ 0 < font.height) (hblank : font.Blank 0x20#8)
include hfont

omit hfont in
/-- A cell of the grid is where its pixels are. -/
theorem cellPixel_eq_picture (hq : (x, y) ∈ t.grid) (hin : t.InCell x y px py) :
    t.cellPixel x y px py = t.picture px py := by
  obtain ⟨⟨-, hcols⟩, -, hrows⟩ := mem_grid.mp hq
  obtain ⟨hx, hy⟩ := hin
  rw [picture, hx, hy, if_pos ⟨hcols, hrows⟩]

/-- Drawing a cell of the grid gives the picture, when the other cells are painted. -/
theorem drawCell_painted (h : Ready font t) (hq : (x, y) ∈ t.grid)
    (hothers : ∀ px py, t.gfx.OnScreen px py → ¬t.InCell x y px py →
      t.gfx.fb (t.gfx.pixel px py) = t.picture px py) : (t.drawCell x y).Painted := by
  obtain ⟨⟨hx, hcols⟩, hy, hrows⟩ := mem_grid.mp hq
  have hdrawn := drawCell_drawn h.grid.sized (h.grid.sized.hasCell hx hcols hy hrows)
  intro px py hon
  have hpixel : (t.drawCell x y).gfx.pixel px py = t.gfx.pixel px py := by
    rw [Gfx.pixel, hdrawn.gfx_eq, Gfx.pixel]
  have hon' : t.gfx.OnScreen px py := by
    rw [hdrawn.gfx_eq] at hon
    exact hon
  rw [picture_drawn hdrawn, hpixel,
    drawCell_pixel_drawn (h.font_pos hfont) h.grid.sized h.pitch (.refl t) hq hon']
  split_ifs with hin
  · exact cellPixel_eq_picture hq hin
  · exact hothers px py hon' hin

/-- Drawing two cells of the grid gives the picture, when the other cells are painted. -/
theorem drawCells_painted {x' y' : ℤ} (h : Ready font t) (hq : (x, y) ∈ t.grid)
    (hq' : (x', y') ∈ t.grid)
    (hothers : ∀ px py, t.gfx.OnScreen px py → ¬t.InCell x y px py → ¬t.InCell x' y' px py →
      t.gfx.fb (t.gfx.pixel px py) = t.picture px py) :
    ((t.drawCell x y).drawCell x' y').Painted := by
  obtain ⟨⟨hx, hcols⟩, hy, hrows⟩ := mem_grid.mp hq
  have hdrawn := drawCell_drawn h.grid.sized (h.grid.sized.hasCell hx hcols hy hrows)
  have hsize : (t.drawCell x y).grid = t.grid := by
    rw [Drawn] at hdrawn
    rw [hdrawn]
    rfl
  refine drawCell_painted hfont (h.kept (h.grid.drawn hdrawn) hdrawn.kept) (hsize ▸ hq') ?_
  intro px py hon hnew
  have hpixel : (t.drawCell x y).gfx.pixel px py = t.gfx.pixel px py := by
    rw [Gfx.pixel, hdrawn.gfx_eq, Gfx.pixel]
  have hon' : t.gfx.OnScreen px py := by
    rw [hdrawn.gfx_eq] at hon
    exact hon
  have hnew' : ¬t.InCell x' y' px py := by
    rw [InCell, fontWidth, fontHeight, hdrawn.gfx_eq] at hnew
    exact hnew
  rw [picture_drawn hdrawn, hpixel,
    drawCell_pixel_drawn (h.font_pos hfont) h.grid.sized h.pitch (.refl t) hq hon']
  split_ifs with hin
  · exact cellPixel_eq_picture hq hin
  · exact hothers px py hon' hin hnew'

include hblank

/-- A character is drawn. -/
theorem Painted.putChar (h : t.Painted) (hready : Ready font t) (c : BitVec 8) :
    (t.putChar c).Painted := by
  rcases hready.grid.putChar_eq c with ⟨u, heq, hgrid, hkept, -⟩ | ⟨hgrid, heq⟩
  · rw [heq]
    exact redrawFull_painted hfont hblank (hready.kept hgrid hkept)
  · obtain ⟨hcols, hrows, hgfx⟩ := advance_size t c
    have hready' : Ready font (t.advance c) := hready.kept hgrid ⟨by rw [hgfx], hcols, hrows⟩
    rw [heq]
    apply drawCells_painted hfont hready'
    · exact mem_grid.mpr ⟨⟨hready.grid.left, hcols ▸ hready.grid.right⟩, hready.grid.top,
        hrows ▸ hready.grid.bottom⟩
    · exact mem_grid.mpr ⟨⟨hgrid.left, hgrid.right⟩, hgrid.top, hgrid.bottom⟩
    · -- no other cell looks different
      intro px py hon hold hnew
      have hfw : (t.advance c).fontWidth = t.fontWidth := by
        rw [Term.fontWidth, hgfx, Term.fontWidth]
      have hfh : (t.advance c).fontHeight = t.fontHeight := by
        rw [Term.fontHeight, hgfx, Term.fontHeight]
      have hpos := hready.font_pos hfont
      rw [InCell, hfw, hfh] at hold hnew
      rw [hgfx] at hon ⊢
      rw [h px py hon, picture, picture, hcols, hrows, hfw, hfh]
      by_cases hin : px / t.fontWidth < t.cols ∧ py / t.fontHeight < t.rows
      · rw [if_pos hin, if_pos hin, cellPixel, cellPixel, hgfx, hfw, hfh,
          advance_look hready.grid c (Int.ediv_nonneg hon.1 hpos.1.le) hin.1 hold hnew]
      · rw [if_neg hin, if_neg hin]

omit hblank in
/-- The cursor is shown or hidden. -/
theorem Painted.setCursorVisible (h : t.Painted) (hready : Ready font t) (visible : ℤ) :
    (t.setCursorVisible visible).Painted := by
  obtain ⟨hbuffer, hleft, hright, htop, hbottom, hstrays⟩ := hready.grid
  have hq : (t.cursorX, t.cursorY) ∈ t.grid := mem_grid.mpr ⟨⟨hleft, hright⟩, htop, hbottom⟩
  have hcell := hready.grid.sized.hasCell hleft hright htop hbottom
  have hdrawn := drawCell_drawn hready.grid.sized hcell
  have hpainted := drawCell_painted hfont hready hq fun px py hon _ => h px py hon
  have hready₁ := hready.kept (hready.grid.drawn hdrawn) hdrawn.kept
  rw [Term.setCursorVisible]
  split_ifs
  · obtain ⟨u, hu⟩ : ∃ u, u = t.drawCell t.cursorX t.cursorY := ⟨_, rfl⟩
    rw [← hu] at hpainted hready₁ ⊢
    obtain ⟨hbuffer, hleft, hright, htop, hbottom, hstrays⟩ := hready₁.grid
    have hready₂ : Ready font { u with showCursor := visible } :=
      ⟨⟨hbuffer, hleft, hright, htop, hbottom, hstrays⟩, hready₁.gfx_font, hready₁.pitch,
        hready₁.cols, hready₁.rows⟩
    refine drawCell_painted hfont hready₂ (mem_grid.mpr ⟨⟨hleft, hright⟩, htop, hbottom⟩) ?_
    -- the other cells do not show the cursor
    intro px py hon hother
    have hlook : Term.look { u with showCursor := visible } (px / u.fontWidth)
        (py / u.fontHeight) = u.look (px / u.fontWidth) (py / u.fontHeight) := by
      have hcursor : ∀ v : Term, v.cursorX = u.cursorX → v.cursorY = u.cursorY →
          v.isCursor (px / u.fontWidth) (py / u.fontHeight) = false := fun v hx hy => by
        refine decide_eq_false fun hat => hother ?_
        exact ⟨hat.2.1.trans hx, hat.2.2.trans hy⟩
      rw [look, look, hcursor u rfl rfl, hcursor { u with showCursor := visible } rfl rfl]
    have hcell : Term.cellPixel { u with showCursor := visible } (px / u.fontWidth)
        (py / u.fontHeight) px py = u.cellPixel (px / u.fontWidth) (py / u.fontHeight) px py := by
      rw [cellPixel, hlook, cellPixel]
      rfl
    refine (hpainted px py hon).trans ?_
    exact congrArg (fun v => if px / u.fontWidth < u.cols ∧ py / u.fontHeight < u.rows then v
      else defaultBg) hcell.symm
  · exact h

end Ops

/-! ## Runs -/

/-- A string has no image command: no string for the file system that starts with `69;` ends. -/
def NoImage (files : List (BitVec 8) → Option Image) : Term → List (BitVec 8) → Prop
  | _, [] => True
  | t, c :: str =>
    ¬(t.ansiState = .osc ∧ c = 0x07#8 ∧ t.oscBuffer.take 3 = [0x36#8, 0x39#8, 0x3b#8]) ∧
      NoImage files (t.writeByte files c) str

/-- An operation whose sizes have room for a cell, and which draws no image. -/
def Op.Plain (files : List (BitVec 8) → Option Image) (font : Font) (t : Term) : Op → Prop
  | .write str => NoImage files t (str.takeWhile fun c => c ≠ 0#8)
  | op => op.Fits font

theorem Op.Plain.fits {op : Op} (h : op.Plain files font t) : op.Fits font := by
  cases op with
  | write str => trivial
  | init width height => exact h
  | resize width height => exact h
  | clear => trivial
  | setCursorVisible visible => trivial

section Runs

variable {fb : ℤ → BitVec 32} {width height : ℤ}
variable (hfont : 0 < font.width ∧ 0 < font.height) (hblank : font.Blank 0x20#8)
include hfont hblank

omit hfont hblank in
theorem Painted.parsed (h : t.Painted) (hparsed : t.Parsed t') : t'.Painted := by
  rw [Parsed] at hparsed
  refine h.congr (by rw [hparsed]) fun px py _ => ?_
  rw [hparsed]
  rfl

/-- A byte that does not end an image command is drawn. -/
theorem Painted.writeByte (h : t.Painted) (hready : Ready font t) (c : BitVec 8)
    (hplain : ¬(t.ansiState = .osc ∧ c = 0x07#8 ∧
      t.oscBuffer.take 3 = [0x36#8, 0x39#8, 0x3b#8])) :
    (t.writeByte files c).Painted := by
  rcases writeByte_cases t files c with hparsed | ⟨u, hparsed, -, heq⟩ | ⟨hend, heq⟩
  · exact h.parsed hparsed
  · have hready' := hready.kept (hready.grid.parsed hparsed) hparsed.kept
    rw [heq]
    exact (h.parsed hparsed).putChar hfont hblank hready' c
  · have hnone : t.drawOsc files = t := if_neg fun htake => hplain ⟨hend.1, hend.2, htake⟩
    rw [heq, hnone]
    exact h.parsed rfl

/-- A string without image commands is drawn. -/
theorem Painted.writeBytes (h : t.Painted) (hready : Ready font t) (str : List (BitVec 8))
    (hplain : NoImage files t str) :
    (str.foldl (fun t c => t.writeByte files c) t).Painted := by
  induction str generalizing t with
  | nil => exact h
  | cons c str ih =>
    obtain ⟨hgrid, hkept⟩ := hready.grid.writeByte files c
    exact ih (h.writeByte hfont hblank hready c hplain.1) (hready.kept hgrid hkept) hplain.2

/-- The operations keep the window painted. -/
theorem Painted.apply (h : t.Painted) (hready : Ready font t) (op : Op)
    (hop : op.Plain files font t) : (t.apply files op).Painted := by
  cases op with
  | init width height =>
    obtain ⟨u, heq, hready', -⟩ := resize_ready
      (t := t.reset (t.gfx.withSize width height)) hfont hop hready.gfx_font rfl rfl rfl
      hready.grid.strays le_rfl le_rfl
    have hinit : t.apply files (.init width height) = u.redrawFull := heq
    rw [hinit]
    exact redrawFull_painted hfont hblank hready'
  | resize width height =>
    obtain ⟨u, heq, hready', -⟩ := resize_ready
      (t := { t with gfx := t.gfx.withSize width height }) hfont hop hready.gfx_font rfl rfl rfl
      hready.grid.strays hready.grid.left hready.grid.top
    have hresize : t.apply files (.resize width height) = u.redrawFull := heq
    rw [hresize]
    exact redrawFull_painted hfont hblank hready'
  | write str => exact h.writeBytes hfont hblank hready _ hop
  | clear =>
    obtain ⟨u, heq, hgrid, hkept, -⟩ := hready.grid.clear_eq
    have hclear : t.apply files .clear = u.redrawFull := heq
    rw [hclear]
    exact redrawFull_painted hfont hblank (hready.kept hgrid hkept)
  | setCursorVisible visible => exact h.setCursorVisible hfont hready visible

theorem started_painted (hfits : Fits font width height) :
    (started font fb width height).Painted := by
  obtain ⟨u, heq, hready, -⟩ := resize_ready
    (t := (zero ⟨fb, width, height, width, font⟩).reset ⟨fb, width, height, width, font⟩) hfont
    hfits rfl rfl rfl rfl rfl le_rfl le_rfl
  have hstarted : started font fb width height = u.redrawFull := heq
  rw [hstarted]
  exact redrawFull_painted hfont hblank hready

theorem painted_of_plain (hfits : Fits font width height) {trace : List (Transition Term Op)}
    (run : Reaches (Traced (Step files)) (started font fb width height) trace t)
    (hops : ∀ u ∈ trace, u.label.Plain files font u.before) : t.Painted := by
  induction run with
  | start => exact started_painted hfont hblank hfits
  | snoc hrun hlast ih =>
    obtain ⟨hop, hops⟩ := List.forall_mem_cons.mp hops
    have hready := ready_of_fits hfont hfits hrun fun u hu => (hops u hu).fits
    obtain ⟨hbefore, -, hstep⟩ := hlast
    have hpainted := (ih hops).apply hfont hblank hready _ (hbefore ▸ hop)
    exact hstep ▸ hpainted

/-- After every operation of a run, drawing everything from the grid, the cursor and its visibility
would change no pixel: the window shows the picture. -/
theorem redraw_unchanged (hfits : Fits font width height) {trace : List (Transition Term Op)}
    (run : Reaches (Traced (Step files)) (started font fb width height) trace t)
    (hops : ∀ u ∈ trace, u.label.Plain files font u.before) :
    t.redrawFull.gfx.fb = t.gfx.fb ∧
      ∀ px py, t.gfx.OnScreen px py → t.gfx.fb (t.gfx.pixel px py) = t.picture px py := by
  have hready := ready_of_fits hfont hfits run fun u hu => (hops u hu).fits
  have hpainted := painted_of_plain hfont hblank hfits run hops
  exact ⟨hpainted.redrawFull_fb hfont hblank hready, hpainted⟩

end Runs

theorem redraw_unchanged_sampleFont : ∃ t, Reaches (Traced (Step fun _ => none))
    (started sampleFont (fun _ => 0) 16 16)
    [⟨started sampleFont (fun _ => 0) 16 16, .write [0x41#8], t⟩] t ∧
    t.redrawFull.gfx.fb = t.gfx.fb := by
  have run : Reaches (Traced (Step fun _ => none)) (started sampleFont (fun _ => 0) 16 16)
      [⟨_, .write [0x41#8], _⟩] ((started sampleFont (fun _ => 0) 16 16).write (fun _ => none)
        [0x41#8]) := Reaches.start.next rfl
  have hblank : sampleFont.Blank 0x20#8 := fun _ _ _ _ => BitVec.getLsbD_zero
  have hplain : NoImage (fun _ => none) (started sampleFont (fun _ => 0) 16 16) [0x41#8] :=
    ⟨fun hend => absurd hend.2.1 (by decide), trivial⟩
  exact ⟨_, run, (redraw_unchanged ⟨by decide, by decide⟩ hblank ⟨by decide, by decide⟩ run
    fun u hu => (List.mem_singleton.mp hu).symm ▸ hplain).1⟩

end Term

end OpenIDP.Userspace
