import OpenIDP.Userspace.Mailbox
import OpenIDP.Userspace.TermPicture
import OpenIDP.Userspace.Update

/-!
# Repainting the terminal

The terminal collects the part of its window that it has drawn into, and sends it to the window
manager after output. A pixel that has changed waits until the window manager has got a rectangle
with it. While a change waits, its pixel is in the part that is still to be sent, except when the
queue of the window manager was full: the part is forgotten although the message was refused.

## Main definitions

* `Repaint` — the terminal, the queue of the window manager, and the pixels that wait
* `Term.Pending` — a pixel is in the part that is still to be sent

## Main results

* `Covers.drawCell`, `Covers.redrawFull` — what is drawn is to be sent
* `Repaint.waiting_pending` — no repaint is lost while updates find room in the queue
-/

namespace OpenIDP.Userspace

open OpenIDP.Math OpenIDP.Process

namespace Term

variable {font : Font} {t t' t'' : Term} {x y k : ℤ} {files : List (BitVec 8) → Option Image}

/-- A pixel, given by its index, is in a rectangle of the window. -/
def InRect (t : Term) (r : Rect) (k : ℤ) : Prop :=
  ∃ px py, t.gfx.OnScreen px py ∧ k = t.gfx.pixel px py ∧ r.Mem px py

/-- A pixel is in the part of the window that is still to be sent. -/
def Pending (t : Term) (k : ℤ) : Prop := t.dirty = true ∧ t.InRect t.lastUpdate k

/-- The part that is to be sent is in the window. -/
def UpdateInside (t : Term) : Prop :=
  t.dirty = true → t.lastUpdate.Inside ⟨0, 0, t.gfx.width, t.gfx.height⟩

/-- What has changed is to be sent, as well as what was to be sent before. -/
structure Covers (t t' : Term) : Prop where
  width : t'.gfx.width = t.gfx.width
  height : t'.gfx.height = t.gfx.height
  changed : ∀ k, t'.gfx.fb k ≠ t.gfx.fb k → t'.Pending k
  pending : ∀ k, t.Pending k → t'.Pending k
  inside : t.UpdateInside → t'.UpdateInside

namespace Covers

theorem refl (t : Term) : t.Covers t :=
  ⟨rfl, rfl, fun _ hk => absurd rfl hk, fun _ hk => hk, fun h => h⟩

theorem trans (h : t.Covers t') (h' : t'.Covers t'') : t.Covers t'' where
  width := h'.width.trans h.width
  height := h'.height.trans h.height
  changed k hk := by
    by_cases hfirst : t'.gfx.fb k = t.gfx.fb k
    · exact h'.changed k (hfirst ▸ hk)
    · exact h'.pending k (h.changed k hfirst)
  pending k hk := h'.pending k (h.pending k hk)
  inside hinside := h'.inside (h.inside hinside)

/-- Nothing is drawn. -/
theorem of_eq (hgfx : t'.gfx = t.gfx) (hupdate : t'.lastUpdate = t.lastUpdate)
    (hdirty : t'.dirty = t.dirty) : t.Covers t' := by
  refine ⟨by rw [hgfx], by rw [hgfx], fun k hk => absurd (by rw [hgfx]) hk, fun k hk => ?_,
    fun h => ?_⟩
  · rw [Pending, InRect, hdirty, hupdate, hgfx]
    exact hk
  · rw [UpdateInside, hdirty, hupdate, hgfx]
    exact h

end Covers

/-- The box of a cell. -/
def box (t : Term) (x y : ℤ) : Rect :=
  ⟨x * t.fontWidth, y * t.fontHeight, t.fontWidth, t.fontHeight⟩

theorem box_gfx {g : Gfx} (h : g.font = t.gfx.font) : box { t with gfx := g } x y = t.box x y := by
  simp only [box, fontWidth, fontHeight, h]

theorem addDirtyCell_dirty (t : Term) (x y : ℤ) : (t.addDirtyCell x y).dirty = true := by
  rw [addDirtyCell]
  by_cases hdirty : t.dirty = false
  · rw [if_pos hdirty]
  · rw [if_neg hdirty]
    exact Bool.eq_true_of_not_eq_false hdirty

/-- The part that is to be sent grows by the box of the cell. -/
theorem addDirtyCell_mem {px py : ℤ}
    (h : (t.box x y).Mem px py ∨ t.dirty = true ∧ t.lastUpdate.Mem px py) :
    (t.addDirtyCell x y).lastUpdate.Mem px py := by
  rw [addDirtyCell]
  by_cases hdirty : t.dirty = false
  · rw [if_pos hdirty]
    exact h.resolve_right fun hupdate => by
      rw [hdirty] at hupdate
      exact Bool.false_ne_true hupdate.1
  · rw [if_neg hdirty]
    have h := h.imp_right And.right
    simp only [Rect.Mem, box] at h ⊢
    split_ifs
    all_goals omega

/-- The part that is to be sent stays in the window. -/
theorem addDirtyCell_inside {outer : Rect} (hbox : (t.box x y).Inside outer)
    (h : t.dirty = true → t.lastUpdate.Inside outer) :
    (t.addDirtyCell x y).lastUpdate.Inside outer := by
  rw [addDirtyCell]
  by_cases hdirty : t.dirty = false
  · rw [if_pos hdirty]
    exact hbox
  · rw [if_neg hdirty]
    obtain ⟨hl, hr, ht, hb, hw, hh⟩ := hbox
    obtain ⟨hl', hr', ht', hb', hw', hh'⟩ := h (Bool.eq_true_of_not_eq_false hdirty)
    simp only [box] at hl hr ht hb hw hh
    constructor
    all_goals
      simp only
      split_ifs
      all_goals omega

/-- Moving the cursor draws nothing. -/
theorem advance_update (t : Term) (c : BitVec 8) :
    (t.advance c).lastUpdate = t.lastUpdate ∧ (t.advance c).dirty = t.dirty := by
  rw [Term.advance]
  split_ifs
  · exact ⟨rfl, rfl⟩
  · rw [Term.erase]
    split_ifs
    all_goals exact ⟨rfl, rfl⟩
  · rw [Term.put]
    split_ifs
    all_goals exact ⟨rfl, rfl⟩

section Draw

variable (hfont : 0 < font.width ∧ 0 < font.height)
include hfont

/-- The cells of the grid are in the window. -/
theorem Ready.box_inside (h : Ready font t) (hq : (x, y) ∈ t.grid) :
    (t.box x y).Inside ⟨0, 0, t.gfx.width, t.gfx.height⟩ := by
  obtain ⟨⟨hx, hcols⟩, hy, hrows⟩ := mem_grid.mp hq
  obtain ⟨hfw, hfh⟩ := h.font_pos hfont
  have hbound : ∀ {n size d : ℤ}, 0 < d → 0 ≤ n → n < size.tdiv d → n * d + d ≤ size := by
    intro n size d hd hn hlt
    have hsize : d ≤ size := (tdiv_pos_iff hd).mp (hn.trans_lt hlt)
    rw [Int.tdiv_eq_ediv_of_nonneg (hd.le.trans hsize)] at hlt
    have hmul := Int.mul_le_of_le_ediv hd (Int.add_one_le_iff.mpr hlt)
    rwa [add_mul, one_mul] at hmul
  simp only at hx hcols hy hrows
  rw [h.cols, ← h.fontWidth] at hcols
  rw [h.rows, ← h.fontHeight] at hrows
  have hright := hbound hfw hx hcols
  have hbottom := hbound hfh hy hrows
  refine ⟨Int.mul_nonneg hx hfw.le, ?_, Int.mul_nonneg hy hfh.le, ?_, hfw.le, hfh.le⟩
  · rw [box, zero_add]
    exact hright
  · rw [box, zero_add]
    exact hbottom

/-- A window with a grid has a width. -/
theorem Ready.width_pos (h : Ready font t) : 0 < t.gfx.width := by
  have hcols := h.grid.left.trans_lt h.grid.right
  rw [h.cols] at hcols
  have hle := (tdiv_pos_iff (Int.natCast_pos.mpr hfont.1)).mp hcols
  omega

/-- A pixel that was drawn with a cell is in its box. -/
theorem Ready.drawCell_changed (h : Ready font t) (hq : (x, y) ∈ t.grid)
    (hk : (t.drawCell x y).gfx.fb k ≠ t.gfx.fb k) : t.InRect (t.box x y) k := by
  obtain ⟨⟨hx, hcols⟩, hy, hrows⟩ := mem_grid.mp hq
  obtain ⟨hfw, hfh⟩ := h.font_pos hfont
  have hcell := h.grid.sized.hasCell hx hcols hy hrows
  by_cases hin : 0 ≤ k ∧ k < t.gfx.width * t.gfx.height
  · obtain ⟨px, py, hon, rfl⟩ := Gfx.exists_pixel (h.width_pos hfont) hin.1 hin.2
    refine ⟨px, py, hon, rfl, ?_⟩
    by_contra hmem
    refine hk ?_
    have hnot : ¬t.InCell x y px py := fun hin => hmem ((mem_box_iff hfw hfh).mpr hin)
    rw [drawCell_pixel ⟨hfw, hfh⟩ h.grid.sized h.pitch hx hcell hon, if_neg hnot]
  · refine absurd ?_ hk
    rw [drawCell_eq h.grid.sized hcell, addDirtyCell_gfx]
    exact Gfx.drawChar_outside h.pitch (Int.mul_nonneg hx hfw.le) (Int.mul_nonneg hy hfh.le)
      (by omega)

/-- A cell that is drawn is to be sent. -/
theorem Covers.drawCell (h : Ready font t) (hq : (x, y) ∈ t.grid) :
    t.Covers (t.drawCell x y) := by
  obtain ⟨⟨hx, hcols⟩, hy, hrows⟩ := mem_grid.mp hq
  have hcell := h.grid.sized.hasCell hx hcols hy hrows
  have hdrawn := drawCell_drawn h.grid.sized hcell
  have hwidth : (t.drawCell x y).gfx.width = t.gfx.width := by rw [hdrawn.gfx_eq]
  have hheight : (t.drawCell x y).gfx.height = t.gfx.height := by rw [hdrawn.gfx_eq]
  have hdirty : (t.drawCell x y).dirty = true := by
    rw [drawCell_eq h.grid.sized hcell]
    exact addDirtyCell_dirty _ x y
  have hmem : ∀ {px py}, ((t.box x y).Mem px py ∨ t.dirty = true ∧ t.lastUpdate.Mem px py) →
      (t.drawCell x y).lastUpdate.Mem px py := by
    intro px py hmem
    rw [drawCell_eq h.grid.sized hcell]
    refine addDirtyCell_mem (hmem.imp_left fun hbox => ?_)
    have hsame : Gfx.font (t.gfx.drawChar (x * t.fontWidth) (y * t.fontHeight) (t.look x y).c
        (t.look x y).fg (t.look x y).bg) = t.gfx.font := by rw [drawChar_fb]
    rw [box_gfx hsame]
    exact hbox
  have hlift : ∀ {px py}, t.gfx.OnScreen px py → (t.drawCell x y).gfx.OnScreen px py ∧
      t.gfx.pixel px py = (t.drawCell x y).gfx.pixel px py := by
    intro px py hon
    rw [Gfx.OnScreen, Gfx.pixel, Gfx.pixel, hwidth, hheight]
    exact ⟨hon, rfl⟩
  refine ⟨hwidth, hheight, fun k hk => ?_, fun k hk => ?_, fun hinside _ => ?_⟩
  · obtain ⟨px, py, hon, rfl, hbox⟩ := h.drawCell_changed hfont hq hk
    exact ⟨hdirty, px, py, (hlift hon).1, (hlift hon).2, hmem (Or.inl hbox)⟩
  · obtain ⟨hbefore, px, py, hon, rfl, hupdate⟩ := hk
    exact ⟨hdirty, px, py, (hlift hon).1, (hlift hon).2, hmem (Or.inr ⟨hbefore, hupdate⟩)⟩
  · rw [hwidth, hheight, drawCell_eq h.grid.sized hcell]
    refine addDirtyCell_inside ?_ hinside
    have hsame : Gfx.font (t.gfx.drawChar (x * t.fontWidth) (y * t.fontHeight) (t.look x y).c
        (t.look x y).fg (t.look x y).bg) = t.gfx.font := by rw [drawChar_fb]
    rw [box_gfx hsame]
    exact h.box_inside hfont hq

/-- Everything is drawn, and everything is to be sent. -/
theorem Ready.redrawFull_pending (h : Ready font t) (hlow : 0 ≤ k)
    (hhigh : k < t.gfx.width * t.gfx.height) : t.redrawFull.Pending k := by
  have hdrawn := redrawFull_drawn h.grid.sized
  have hwidth : t.redrawFull.gfx.width = t.gfx.width := by rw [hdrawn.gfx_eq]
  have hheight : t.redrawFull.gfx.height = t.gfx.height := by rw [hdrawn.gfx_eq]
  have hupdate : t.redrawFull.lastUpdate =
      ⟨0, 0, t.redrawFull.gfx.width, t.redrawFull.gfx.height⟩ := rfl
  rw [← hwidth, ← hheight] at hhigh
  obtain ⟨px, py, hon, rfl⟩ := Gfx.exists_pixel (hwidth ▸ h.width_pos hfont) hlow hhigh
  refine ⟨rfl, px, py, hon, rfl, ?_⟩
  obtain ⟨hx, hw, hy, hh⟩ := hon
  rw [hupdate]
  exact ⟨hx, by simp only [zero_add]; exact hw, hy, by simp only [zero_add]; exact hh⟩

/-- The whole window is in the window. -/
theorem Ready.screen_inside (h : Ready font t) :
    (⟨0, 0, t.gfx.width, t.gfx.height⟩ : Rect).Inside ⟨0, 0, t.gfx.width, t.gfx.height⟩ := by
  have hrows := h.grid.top.trans_lt h.grid.bottom
  rw [h.rows] at hrows
  have hle := (tdiv_pos_iff (Int.natCast_pos.mpr hfont.2)).mp hrows
  exact .refl (h.width_pos hfont).le (by simp only; omega)

/-- A window that is drawn anew is to be sent. -/
theorem Ready.redrawFull_inside (h : Ready font t) : t.redrawFull.UpdateInside := by
  have hinside := h.screen_inside hfont
  have hgfx := (redrawFull_drawn h.grid.sized).gfx_eq
  have hwidth : t.redrawFull.gfx.width = t.gfx.width := by rw [hgfx]
  have hheight : t.redrawFull.gfx.height = t.gfx.height := by rw [hgfx]
  have hupdate : t.redrawFull.lastUpdate =
      ⟨0, 0, t.redrawFull.gfx.width, t.redrawFull.gfx.height⟩ := rfl
  intro
  rw [hupdate, hwidth, hheight]
  exact hinside

/-- A window of the same size is drawn anew. -/
theorem Covers.redrawFull {u : Term} (h : Ready font u) (hgfx : u.gfx = t.gfx) :
    t.Covers u.redrawFull := by
  have hdrawn := redrawFull_drawn h.grid.sized
  have hwidth : u.redrawFull.gfx.width = t.gfx.width := by rw [hdrawn.gfx_eq, hgfx]
  have hheight : u.redrawFull.gfx.height = t.gfx.height := by rw [hdrawn.gfx_eq, hgfx]
  refine ⟨hwidth, hheight, fun k hk => ?_, fun k hk => ?_, fun _ => ?_⟩
  · by_cases hin : 0 ≤ k ∧ k < u.gfx.width * u.gfx.height
    · exact h.redrawFull_pending hfont hin.1 hin.2
    · rw [← hgfx] at hk
      exact absurd (redrawFull_outside hfont h (by omega)) hk
  · obtain ⟨-, px, py, hon, rfl, -⟩ := hk
    obtain ⟨hlow, hhigh⟩ := Gfx.pixel_bounds hon
    rw [← hgfx] at hlow hhigh ⊢
    exact h.redrawFull_pending hfont hlow hhigh
  · exact h.redrawFull_inside hfont

/-- Two cells that are drawn are to be sent. -/
theorem Covers.drawCells {x' y' : ℤ} (h : Ready font t) (hq : (x, y) ∈ t.grid)
    (hq' : (x', y') ∈ t.grid) : t.Covers ((t.drawCell x y).drawCell x' y') := by
  obtain ⟨⟨hx, hcols⟩, hy, hrows⟩ := mem_grid.mp hq
  have hdrawn := drawCell_drawn h.grid.sized (h.grid.sized.hasCell hx hcols hy hrows)
  have hgrid : (t.drawCell x y).grid = t.grid := by
    rw [Drawn] at hdrawn
    rw [hdrawn]
    rfl
  exact (Covers.drawCell hfont h hq).trans
    (Covers.drawCell hfont (h.kept (h.grid.drawn hdrawn) hdrawn.kept) (hgrid ▸ hq'))

/-- A character that is written is to be sent. -/
theorem Covers.putChar (h : Ready font t) (c : BitVec 8) : t.Covers (t.putChar c) := by
  rcases h.grid.putChar_eq c with ⟨u, heq, hgrid, hkept, hgfx⟩ | ⟨hgrid, heq⟩
  · rw [heq]
    exact Covers.redrawFull hfont (h.kept hgrid hkept) hgfx
  · obtain ⟨hcols, hrows, hgfx⟩ := advance_size t c
    have hready : Ready font (t.advance c) := h.kept hgrid ⟨by rw [hgfx], hcols, hrows⟩
    have hold : (t.cursorX, t.cursorY) ∈ (t.advance c).grid := mem_grid.mpr
      ⟨⟨h.grid.left, hcols ▸ h.grid.right⟩, h.grid.top, hrows ▸ h.grid.bottom⟩
    have hnew : ((t.advance c).cursorX, (t.advance c).cursorY) ∈ (t.advance c).grid :=
      mem_grid.mpr ⟨⟨hgrid.left, hgrid.right⟩, hgrid.top, hgrid.bottom⟩
    obtain ⟨hupdate, hdirty⟩ := advance_update t c
    rw [heq]
    exact (Covers.of_eq hgfx hupdate hdirty).trans (Covers.drawCells hfont hready hold hnew)

/-- An image that is drawn is to be sent. -/
theorem Covers.drawOsc (h : Ready font t) : t.Covers (t.drawOsc files) := by
  rw [Term.drawOsc]
  split_ifs
  · cases files (t.oscBuffer.drop 3) with
    | none => exact .refl t
    | some img =>
      obtain ⟨hfw, hfh⟩ := h.font_pos hfont
      have hdraw := drawImage_fb t.gfx (t.cursorX * t.fontWidth) (t.cursorY * t.fontHeight) img
      have hall : ∀ {k}, 0 ≤ k → k < t.gfx.width * t.gfx.height → Pending { t with
          gfx := t.gfx.drawImage (t.cursorX * t.fontWidth) (t.cursorY * t.fontHeight) img
          lastUpdate := ⟨0, 0, t.gfx.width, t.gfx.height⟩
          dirty := true } k := by
        intro k hlow hhigh
        obtain ⟨px, py, hon, rfl⟩ := Gfx.exists_pixel (h.width_pos hfont) hlow hhigh
        refine ⟨rfl, px, py, ?_, ?_, ?_⟩
        · rw [hdraw]
          exact hon
        · rw [hdraw]
          rfl
        · obtain ⟨hx, hw, hy, hh⟩ := hon
          exact ⟨hx, by simp only [zero_add]; exact hw, hy, by simp only [zero_add]; exact hh⟩
      refine ⟨?_, ?_, fun k hk => ?_, fun k hk => ?_, fun _ _ => ?_⟩
      · simp only
        rw [hdraw]
      · simp only
        rw [hdraw]
      · by_cases hin : 0 ≤ k ∧ k < t.gfx.width * t.gfx.height
        · exact hall hin.1 hin.2
        · exact absurd (Gfx.drawImage_outside h.pitch (Int.mul_nonneg h.grid.left hfw.le)
            (Int.mul_nonneg h.grid.top hfh.le) (by omega)) hk
      · obtain ⟨-, px, py, hon, rfl, -⟩ := hk
        obtain ⟨hlow, hhigh⟩ := Gfx.pixel_bounds hon
        exact hall hlow hhigh
      · simp only
        rw [hdraw]
        exact h.screen_inside hfont
  · exact .refl t

theorem Covers.writeByte (h : Ready font t) (c : BitVec 8) :
    t.Covers (t.writeByte files c) := by
  have hparse : ∀ {u : Term}, t.Parsed u → t.Covers u := by
    intro u hparsed
    rw [Parsed] at hparsed
    rw [hparsed]
    exact .of_eq rfl rfl rfl
  rcases writeByte_cases t files c with hparsed | ⟨u, hparsed, -, heq⟩ | ⟨-, heq⟩
  · exact hparse hparsed
  · rw [heq]
    exact (hparse hparsed).trans
      (Covers.putChar hfont (h.kept (h.grid.parsed hparsed) hparsed.kept) c)
  · rw [heq]
    exact (Covers.drawOsc hfont h).trans (.of_eq rfl rfl rfl)

/-- What is written is to be sent. -/
theorem Covers.write (h : Ready font t) (str : List (BitVec 8)) : t.Covers (t.write files str) := by
  rw [Term.write]
  refine (List.foldlRecOn (motive := fun u : Term => Ready font u ∧ t.Covers u) _ _
    ⟨h, .refl t⟩ fun u hu c _ => ?_).2
  obtain ⟨hgrid, hkept⟩ := hu.1.grid.writeByte files c
  exact ⟨hu.1.kept hgrid hkept, hu.2.trans (Covers.writeByte hfont hu.1 c)⟩

theorem Covers.clear (h : Ready font t) : t.Covers t.clear := by
  obtain ⟨u, heq, hgrid, hkept, hgfx⟩ := h.grid.clear_eq
  rw [heq]
  exact Covers.redrawFull hfont (h.kept hgrid hkept) hgfx

theorem Covers.setCursorVisible (h : Ready font t) (visible : ℤ) :
    t.Covers (t.setCursorVisible visible) := by
  obtain ⟨hbuffer, hleft, hright, htop, hbottom, hstrays⟩ := h.grid
  have hq : (t.cursorX, t.cursorY) ∈ t.grid := mem_grid.mpr ⟨⟨hleft, hright⟩, htop, hbottom⟩
  have hdrawn := drawCell_drawn h.grid.sized (h.grid.sized.hasCell hleft hright htop hbottom)
  have hready := h.kept (h.grid.drawn hdrawn) hdrawn.kept
  rw [Term.setCursorVisible]
  split_ifs
  · obtain ⟨hbuffer, hleft, hright, htop, hbottom, hstrays⟩ := hready.grid
    have hshown : Ready font { t.drawCell t.cursorX t.cursorY with showCursor := visible } :=
      ⟨⟨hbuffer, hleft, hright, htop, hbottom, hstrays⟩, hready.gfx_font, hready.pitch,
        hready.cols, hready.rows⟩
    have hfirst : t.Covers { t.drawCell t.cursorX t.cursorY with showCursor := visible } :=
      (Covers.drawCell hfont h hq).trans (.of_eq rfl rfl rfl)
    exact hfirst.trans (Covers.drawCell hfont hshown
      (mem_grid.mpr ⟨⟨hleft, hright⟩, htop, hbottom⟩))
  · exact .refl t

end Draw

end Term

/-- The terminal, the messages for the window manager, and the pixels that have changed since the
window manager last got a rectangle with them. -/
structure Repaint where
  term : Term
  queue : Mailbox
  waiting : ℤ → Prop

namespace Repaint

/-- `sys_ipc_send(1, MSG_BUFFER_UPDATE, data1, data2, 0)`. The pixels of the rectangle wait no
longer when the message is accepted. -/
def sendUpdate (pid : ℤ) (s : Repaint) (data1 data2 : ℕ) : Repaint :=
  let sent := s.queue.send ⟨pid, msgBufferUpdate, data1, data2, 0⟩
  { s with
    queue := sent.2
    waiting := fun k =>
      s.waiting k ∧ ¬(sent.1 = 0 ∧ s.term.InRect (unpackRect data1 data2) k) }

/-- `process_term_update` -/
def processTermUpdate (pid : ℤ) (s : Repaint) : Repaint :=
  if s.term.dirty = true then
    let update := s.term.lastUpdate
    let s := s.sendUpdate pid (packInts update.x update.y) (packInts update.w update.h)
    -- The result of `sys_ipc_send` is not looked at.
    { s with term := { s.term with dirty := false } }
  else s

/-- The terminal has drawn something. -/
def draw (s : Repaint) (t : Term) : Repaint :=
  { s with term := t, waiting := fun k => s.waiting k ∨ t.gfx.fb k ≠ s.term.gfx.fb k }

/-- The case of `MSG_WINDOW_RESIZE`. Every pixel has a new place in the buffer, and counts as
changed. -/
def windowResize (pid : ℤ) (s : Repaint) (data1 data2 : ℕ) : Repaint :=
  let w := toInt32 data1
  let h := toInt32 data2
  let s := { s with
    term := s.term.resizeWindow w h
    waiting := fun k => 0 ≤ k ∧ k < w * h }
  s.sendUpdate pid 0 (wrap (toU64 w <<< 32) ||| toU64 h)

/-- What happens to the terminal and to the queue of the window manager. -/
inductive Event
  | windowResize (data1 data2 : ℕ)
  | write (str : List (BitVec 8))
  | clear
  | setCursorVisible (visible : ℤ)
  | processTermUpdate
  | elsewhere (queue : Mailbox)

/-- Carries out an event. Elsewhere, the window manager receives and other processes send. -/
def apply (files : List (BitVec 8) → Option Image) (pid : ℤ) (s : Repaint) : Event → Repaint
  | .windowResize data1 data2 => s.windowResize pid data1 data2
  | .write str => s.draw (s.term.write files str)
  | .clear => s.draw s.term.clear
  | .setCursorVisible visible => s.draw (s.term.setCursorVisible visible)
  | .processTermUpdate => s.processTermUpdate pid
  | .elsewhere queue => { s with queue := queue }

/-- One event. -/
def Step (files : List (BitVec 8) → Option Image) (pid : ℤ) (s : Repaint) (e : Event)
    (s' : Repaint) : Prop :=
  s' = s.apply files pid e

/-- The terminal has got its window. -/
def start (font : Font) (fb : ℤ → BitVec 32) (data1 data2 : ℕ) (queue : Mailbox) : Repaint :=
  ⟨Term.started font fb (toInt32 data1) (toInt32 data2), queue, fun _ => False⟩

/-- A new size has room for a cell, and an update finds room in the queue. -/
def Event.Safe (font : Font) (s : Repaint) : Event → Prop
  | .windowResize data1 data2 => Term.Fits font (toInt32 data1) (toInt32 data2)
  | .processTermUpdate => s.term.dirty = true → s.queue.length < msgQueueSize
  | _ => True

/-- While changes wait, they are to be sent. -/
structure Kept (font : Font) (s : Repaint) : Prop where
  ready : s.term.Ready font
  width : s.term.gfx.width < 2 ^ 31
  height : s.term.gfx.height < 2 ^ 31
  inside : s.term.UpdateInside
  pending : ∀ k, s.waiting k → s.term.Pending k

variable {font : Font} {s s' : Repaint} {files : List (BitVec 8) → Option Image}
  {fb : ℤ → BitVec 32} {pid : ℤ} {data1 data2 : ℕ} {queue : Mailbox}

theorem Kept.sendUpdate (h : Kept font s) (data1 data2 : ℕ) :
    Kept font (s.sendUpdate pid data1 data2) :=
  ⟨h.ready, h.width, h.height, h.inside, fun k hk => h.pending k hk.1⟩

/-- What is drawn waits, and is to be sent. -/
theorem Kept.draw {t : Term} (h : Kept font s) (hready : t.Ready font) (hcovers : s.term.Covers t) :
    Kept font (s.draw t) := by
  refine ⟨hready, hcovers.width.symm ▸ h.width, hcovers.height.symm ▸ h.height,
    hcovers.inside h.inside, fun k hk => ?_⟩
  rcases hk with hk | hk
  · exact hcovers.pending k (h.pending k hk)
  · exact hcovers.changed k hk

/-- A message that is accepted has the rectangle that was to be sent. -/
theorem Kept.update_waiting (h : Kept font s) (pid : ℤ) (hdirty : s.term.dirty = true)
    (hroom : s.queue.length < msgQueueSize) (k : ℤ) :
    ¬(s.processTermUpdate pid).waiting k := by
  obtain ⟨update, hupdate⟩ : ∃ update, update = s.term.lastUpdate := ⟨_, rfl⟩
  have hread : unpackRect (packInts update.x update.y) (packInts update.w update.h) = update :=
    unpackRect_packInts (hupdate ▸ h.inside hdirty) h.width h.height
  rw [processTermUpdate, if_pos hdirty]
  intro hk
  obtain ⟨hwaiting, hnot⟩ := hk
  refine hnot ⟨?_, ?_⟩
  · rw [Mailbox.send, if_neg (not_le.mpr hroom)]
  · rw [← hupdate, hread, hupdate]
    exact (h.pending k hwaiting).2

theorem Kept.processTermUpdate (h : Kept font s)
    (hroom : s.term.dirty = true → s.queue.length < msgQueueSize) :
    Kept font (s.processTermUpdate pid) := by
  by_cases hdirty : s.term.dirty = true
  · have hnone := h.update_waiting pid hdirty (hroom hdirty)
    obtain ⟨⟨⟨hbuffer, hleft, hright, htop, hbottom, hstrays⟩, hfont, hpitch, hcols, hrows⟩,
      hwidth, hheight, -, -⟩ := h
    rw [Repaint.processTermUpdate, if_pos hdirty] at hnone ⊢
    exact ⟨⟨⟨hbuffer, hleft, hright, htop, hbottom, hstrays⟩, hfont, hpitch, hcols, hrows⟩,
      hwidth, hheight, fun hdirty => absurd hdirty Bool.false_ne_true,
      fun k hk => absurd hk (hnone k)⟩
  · rw [Repaint.processTermUpdate, if_neg hdirty]
    exact h

/-- When the queue is full, a pixel that waits is lost. -/
theorem lost_of_full {k : ℤ} (hdirty : s.term.dirty = true) (hfull : msgQueueSize ≤ s.queue.length)
    (hk : s.waiting k) :
    (s.processTermUpdate pid).waiting k ∧ ¬(s.processTermUpdate pid).term.Pending k := by
  rw [processTermUpdate, if_pos hdirty]
  refine ⟨⟨hk, fun hsent => ?_⟩, fun hpending => Bool.false_ne_true hpending.1⟩
  have hresult := hsent.1
  rw [Mailbox.send, if_pos hfull] at hresult
  exact absurd hresult (by norm_num)

section Runs

variable (hfont : 0 < font.width ∧ 0 < font.height)
include hfont

/-- In a new size everything is drawn. -/
theorem Kept.windowResize (h : Kept font s)
    (hfits : Term.Fits font (toInt32 data1) (toInt32 data2)) :
    Kept font (s.windowResize pid data1 data2) := by
  obtain ⟨u, heq, hready, hgfx⟩ := Term.resize_ready
    (t := { s.term with gfx := s.term.gfx.withSize (toInt32 data1) (toInt32 data2) }) hfont hfits
    h.ready.gfx_font rfl rfl rfl h.ready.grid.strays h.ready.grid.left h.ready.grid.top
  have hresize : s.term.resizeWindow (toInt32 data1) (toInt32 data2) = u.redrawFull := heq
  have hcovers : u.Covers u.redrawFull := .redrawFull hfont hready rfl
  have hwidth : u.gfx.width = toInt32 data1 := by rw [hgfx]; rfl
  have hheight : u.gfx.height = toInt32 data2 := by rw [hgfx]; rfl
  have hkept : Kept font
      ⟨u.redrawFull, s.queue, fun k => 0 ≤ k ∧ k < toInt32 data1 * toInt32 data2⟩ := by
    refine ⟨hready.redrawFull, ?_, ?_, ?_, fun k hk => ?_⟩
    · exact lt_of_eq_of_lt (hcovers.width.trans hwidth) (toInt32_bounds data1).2
    · exact lt_of_eq_of_lt (hcovers.height.trans hheight) (toInt32_bounds data2).2
    · exact hready.redrawFull_inside hfont
    · rw [← hwidth, ← hheight] at hk
      exact hready.redrawFull_pending hfont hk.1 hk.2
  rw [Repaint.windowResize, hresize]
  exact hkept.sendUpdate _ _

theorem start_kept (hfits : Term.Fits font (toInt32 data1) (toInt32 data2)) :
    Kept font (start font fb data1 data2 queue) := by
  obtain ⟨u, heq, hready, hgfx⟩ := Term.resize_ready
    (t := (Term.zero ⟨fb, toInt32 data1, toInt32 data2, toInt32 data1, font⟩).reset
      ⟨fb, toInt32 data1, toInt32 data2, toInt32 data1, font⟩) hfont
    hfits rfl rfl rfl rfl rfl le_rfl le_rfl
  have hstarted : Term.started font fb (toInt32 data1) (toInt32 data2) = u.redrawFull := heq
  have hcovers : u.Covers u.redrawFull := .redrawFull hfont hready rfl
  have hwidth : u.gfx.width = toInt32 data1 := by rw [hgfx]; rfl
  have hheight : u.gfx.height = toInt32 data2 := by rw [hgfx]; rfl
  rw [start, hstarted]
  exact ⟨hready.redrawFull, lt_of_eq_of_lt (hcovers.width.trans hwidth) (toInt32_bounds data1).2,
    lt_of_eq_of_lt (hcovers.height.trans hheight) (toInt32_bounds data2).2,
    hready.redrawFull_inside hfont, fun k hk => hk.elim⟩

/-- One event keeps the changes that wait. -/
theorem Kept.apply (h : Kept font s) (e : Event) (hsafe : e.Safe font s) :
    Kept font (s.apply files pid e) := by
  cases e with
  | windowResize data1 data2 => exact h.windowResize hfont hsafe
  | write str =>
    obtain ⟨hgrid, hkept⟩ := h.ready.grid.write files str
    exact h.draw (h.ready.kept hgrid hkept) (.write hfont h.ready str)
  | clear =>
    obtain ⟨u, heq, hgrid, hkept, -⟩ := h.ready.grid.clear_eq
    obtain ⟨hgrid, hkept⟩ := hgrid.redrawFull hkept
    exact h.draw (heq ▸ h.ready.kept hgrid hkept) (.clear hfont h.ready)
  | setCursorVisible visible =>
    obtain ⟨hgrid, hkept⟩ := h.ready.grid.setCursorVisible visible
    exact h.draw (h.ready.kept hgrid hkept) (.setCursorVisible hfont h.ready visible)
  | processTermUpdate => exact h.processTermUpdate hsafe
  | elsewhere queue => exact ⟨h.ready, h.width, h.height, h.inside, h.pending⟩

/-- In a run in which the windows have room for a cell, and the updates find room in the queue of
the window manager, every pixel that waits is in the part that is still to be sent. -/
theorem waiting_pending (hfits : Term.Fits font (toInt32 data1) (toInt32 data2))
    {trace : List (Transition Repaint Event)}
    (run : Reaches (Traced (Step files pid)) (start font fb data1 data2 queue) trace s)
    (hsafe : ∀ u ∈ trace, u.label.Safe font u.before) (k : ℤ) (hk : s.waiting k) :
    s.term.Pending k := by
  suffices hkept : Kept font s from hkept.pending k hk
  clear hk
  induction run with
  | start => exact start_kept hfont hfits
  | snoc _ hlast ih =>
    obtain ⟨hbefore, hlabel⟩ := List.forall_mem_cons.mp hsafe |>.symm
    obtain ⟨hsame, -, hstep⟩ := hlast
    rw [hstep]
    exact (ih hbefore).apply hfont _ (hsame ▸ hlabel)

end Runs

theorem waiting_pending_sampleFont : ∃ s, Reaches (Traced (Step (fun _ => none) 2))
    (start Term.sampleFont (fun _ => 0) 16 16 []) [⟨start Term.sampleFont (fun _ => 0) 16 16 [],
      .write [0x41#8], s⟩] s ∧ s.waiting 0 ∧ s.term.Pending 0 := by
  have run : Reaches (Traced (Step (fun _ => none) 2))
      (start Term.sampleFont (fun _ => 0) 16 16 []) [⟨_, .write [0x41#8], _⟩]
      ((start Term.sampleFont (fun _ => 0) 16 16 []).apply (fun _ => none) 2 (.write [0x41#8])) :=
    Reaches.start.next rfl
  have hchanged : ((Term.started Term.sampleFont (fun _ => 0) 16 16).write (fun _ => none)
      [0x41#8]).gfx.fb 0 ≠ (Term.started Term.sampleFont (fun _ => 0) 16 16).gfx.fb 0 := by
    decide +kernel
  have hall := waiting_pending ⟨by decide, by decide⟩ ⟨by decide, by decide⟩ run
    fun u hu => (List.mem_singleton.mp hu).symm ▸ trivial
  exact ⟨_, run, Or.inr hchanged, hall 0 (Or.inr hchanged)⟩

/-- The queue of the window manager is full when a character is written. The first pixel of the
window has changed, and is not sent any more. -/
theorem update_lost : ∃ s, Reaches (Step (fun _ => none) 2)
    (start Term.sampleFont (fun _ => 0) 16 16 (List.replicate 16 ⟨3, msgBufferUpdate, 0, 0, 0⟩))
    [.processTermUpdate, .write [0x41#8]] s ∧ s.waiting 0 ∧ ¬s.term.Pending 0 := by
  have hchanged : ((Term.started Term.sampleFont (fun _ => 0) 16 16).write (fun _ => none)
      [0x41#8]).gfx.fb 0 ≠ (Term.started Term.sampleFont (fun _ => 0) 16 16).gfx.fb 0 := by
    decide +kernel
  have hdirty : ((Term.started Term.sampleFont (fun _ => 0) 16 16).write (fun _ => none)
      [0x41#8]).dirty = true := by decide +kernel
  obtain ⟨written, hwritten⟩ : ∃ s', Step (fun _ => none) 2 (start Term.sampleFont (fun _ => 0) 16
    16 (List.replicate 16 ⟨3, msgBufferUpdate, 0, 0, 0⟩)) (.write [0x41#8]) s' := ⟨_, rfl⟩
  have hfull : msgQueueSize ≤ written.queue.length := by
    rw [hwritten]
    exact (List.length_replicate).ge
  refine ⟨written.processTermUpdate 2, (Reaches.start.snoc hwritten).snoc rfl,
    lost_of_full ?_ hfull ?_⟩
  · rw [hwritten]
    exact hdirty
  · rw [hwritten]
    exact Or.inr hchanged

end Repaint

end OpenIDP.Userspace
