import Mathlib.Data.List.TakeWhile
import OpenIDP.Math.BlockCopy
import OpenIDP.Userspace.TermResize

/-!
# The text of the terminal

The reference is a list of lines with a cursor: a character is stored and the cursor goes on, and a
cursor below the last line drops the first line and brings a blank one. The grid of the terminal
reads as such a list, and each character does to it what it does to the reference.

`term_scroll` moves the lines with `memcpy`, in blocks of eight bytes within one buffer, although a
cell has twelve.

## Main definitions

* `TextGrid` — the reference terminal
* `Term.text` — the grid as lines
* `memcpy`, `HoldsCells` — the bytes of the buffer

## Main results

* `Term.putChar_text` — one character
* `Term.moveRows_memcpy` — the block copy moves each line up
* `Term.write_text` — whole strings
-/

namespace OpenIDP.Userspace

open OpenIDP.Math

/-! ## The reference -/

/-- Lines of some length, a cursor, and the current colours. -/
structure TextGrid where
  cols : ℕ
  lines : List (List Cell)
  x : ℕ
  y : ℕ
  fg : BitVec 32
  bg : BitVec 32

namespace TextGrid

variable (g : TextGrid)

/-- Stores a character in the current colours at the cursor. -/
def store (c : BitVec 8) : TextGrid :=
  { g with lines := g.lines.modify g.y fun line => line.set g.x ⟨c, g.fg, g.bg⟩ }

/-- If the cursor is below the last line, the first line is dropped and a blank one appended. -/
def scroll : TextGrid :=
  if g.lines.length ≤ g.y then
    { g with
      lines := g.lines.tail ++ [List.replicate g.cols ⟨0#8, g.fg, g.bg⟩]
      y := g.y - 1 }
  else g

/-- The cursor goes to the next line. -/
def newline : TextGrid := { g with x := 0, y := g.y + 1 }.scroll

/-- The cursor goes to the next cell. -/
def forward : TextGrid := if g.x + 1 < g.cols then { g with x := g.x + 1 } else g.newline

/-- The cursor goes to the cell before, if there is one. -/
def back : TextGrid :=
  if 0 < g.x then { g with x := g.x - 1 }
  else if 0 < g.y then { g with x := g.cols - 1, y := g.y - 1 }
  else g

/-- What a character does. -/
def step (c : BitVec 8) : TextGrid :=
  if c = 0x0a#8 then g.newline
  else if c = 0x08#8 then g.back.store 0#8
  else (g.store c).forward

end TextGrid

/-! ## Lists of lines -/

section Lines

variable {α : Type*} {m n i : ℕ}

/-- A list of values at the numbers below a bound, with one of them replaced. -/
theorem set_map_range {f : ℕ → α} {v : α} :
    ((List.range n).map f).set i v = (List.range n).map (Function.update f i v) := by
  refine List.ext_getElem (by simp) fun k hk hk' => ?_
  rw [List.getElem_set, List.getElem_map, List.getElem_map, List.getElem_range,
    Function.update_apply]
  exact if_congr eq_comm rfl rfl

theorem modify_map_range {f : ℕ → α} {h : α → α} :
    ((List.range n).map f).modify i h = (List.range n).map (Function.update f i (h (f i))) := by
  refine List.ext_getElem (by simp) fun k hk hk' => ?_
  rw [List.getElem_modify, List.getElem_map, List.getElem_map, List.getElem_range,
    Function.update_apply]
  by_cases hki : k = i
  · rw [if_pos hki.symm, if_pos hki, hki]
  · rw [if_neg (Ne.symm hki), if_neg hki]

/-- Values below a bound, without the first and with one more. -/
theorem tail_map_range {f : ℕ → α} {v : α} (hn : 0 < n) :
    ((List.range n).map f).tail ++ [v] =
      (List.range n).map fun k => if k + 1 < n then f (k + 1) else v := by
  obtain ⟨n, rfl⟩ := Nat.exists_eq_succ_of_ne_zero hn.ne'
  rw [List.range_succ_eq_map, List.map_cons, List.tail_cons, List.map_map, ← List.range_succ_eq_map,
    List.range_succ, List.map_append, List.map_singleton, if_neg (lt_irrefl _)]
  congr 1
  refine List.map_congr_left fun k hk => ?_
  have hk := List.mem_range.mp hk
  rw [if_pos (by omega)]
  rfl

end Lines

namespace Term

variable {t t' : Term} {x y : ℤ} {files : List (BitVec 8) → Option Image}

/-! ## The grid as lines -/

/-- The cell in a column and a line. -/
def cell (t : Term) (y x : ℕ) : Cell := t.cells (y * t.cols + x)

/-- The grid as lines. -/
def text (t : Term) : TextGrid where
  cols := t.cols.toNat
  lines := (List.range t.rows.toNat).map fun y => (List.range t.cols.toNat).map (t.cell y)
  x := t.cursorX.toNat
  y := t.cursorY.toNat
  fg := t.fgColor
  bg := t.bgColor

theorem Redrawn.text_eq (h : t.Redrawn t') : t'.text = t.text := by
  rw [Redrawn] at h
  rw [h]
  rfl

/-- A cell is written at the cursor, and the others stay. -/
theorem cell_setCell (hleft : 0 ≤ t.cursorX) (hright : t.cursorX < t.cols) (htop : 0 ≤ t.cursorY)
    (v : Cell) {y x : ℕ} (hx : x < t.cols.toNat) :
    (t.setCell (t.cursorY * t.cols + t.cursorX) v).cell y x =
      if y = t.cursorY.toNat ∧ x = t.cursorX.toNat then v else t.cell y x := by
  change Function.update t.cells (t.cursorY * t.cols + t.cursorX) v (y * t.cols + x) = _
  rw [Function.update_apply]
  refine if_congr ⟨fun heq => ?_, fun ⟨hy, hx⟩ => ?_⟩ rfl rfl
  · obtain ⟨hx, hy⟩ := Gfx.index_inj (by omega) (by omega) hleft hright heq
    omega
  · rw [hy, hx, Int.toNat_of_nonneg hleft, Int.toNat_of_nonneg htop]

theorem setCell_text (hleft : 0 ≤ t.cursorX) (hright : t.cursorX < t.cols) (htop : 0 ≤ t.cursorY)
    (c : BitVec 8) :
    (t.setCell (t.cursorY * t.cols + t.cursorX) ⟨c, t.fgColor, t.bgColor⟩).text =
      t.text.store c := by
  obtain ⟨v, hv⟩ : ∃ v : Cell, v = ⟨c, t.fgColor, t.bgColor⟩ := ⟨_, rfl⟩
  have hlines : (List.range t.rows.toNat).map (fun y => (List.range t.cols.toNat).map
        ((t.setCell (t.cursorY * t.cols + t.cursorX) v).cell y)) =
      ((List.range t.rows.toNat).map fun y => (List.range t.cols.toNat).map (t.cell y)).modify
        t.cursorY.toNat fun line => line.set t.cursorX.toNat v := by
    rw [modify_map_range]
    refine List.map_congr_left fun y _ => ?_
    rw [Function.update_apply, set_map_range]
    by_cases hy : y = t.cursorY.toNat
    · rw [if_pos hy, ← hy]
      refine List.map_congr_left fun x hx => ?_
      rw [cell_setCell hleft hright htop v (List.mem_range.mp hx), Function.update_apply]
      exact if_congr (and_iff_right hy) rfl rfl
    · rw [if_neg hy]
      refine List.map_congr_left fun x hx => ?_
      rw [cell_setCell hleft hright htop v (List.mem_range.mp hx), if_neg fun h => hy h.1]
  rw [← hv, TextGrid.store]
  change TextGrid.mk _ _ _ _ _ _ = TextGrid.mk _ _ _ _ _ _
  exact congrArg (fun lines => TextGrid.mk t.cols.toNat lines t.cursorX.toNat t.cursorY.toNat
    t.fgColor t.bgColor) (hv ▸ hlines)

/-! ## Scrolling -/

theorem moveRows_cells (t : Term) (i : ℤ) : t.moveRows.cells i =
    if 0 ≤ i ∧ i < (t.rows - 1) * t.cols then t.cells (i + t.cols) else t.cells i := by
  change writeAll t.cells _ i = _
  have hwrites : ∀ w ∈ (indices 0 ((t.rows - 1) * t.cols)).map fun i => (i, t.cells (i + t.cols)),
      (0 ≤ w.1 ∧ w.1 < (t.rows - 1) * t.cols) ∧ w.2 = t.cells (w.1 + t.cols) := by
    intro w hw
    obtain ⟨i, hi, rfl⟩ := List.mem_map.mp hw
    obtain ⟨hlow, hhigh⟩ := mem_indices.mp hi
    exact ⟨⟨hlow, by rwa [zero_add] at hhigh⟩, rfl⟩
  by_cases hi : 0 ≤ i ∧ i < (t.rows - 1) * t.cols
  · rw [if_pos hi]
    refine writeAll_of_mem (List.mem_map.mpr ⟨i, mem_indices.mpr ⟨hi.1, ?_⟩, rfl⟩) ?_
    · rw [zero_add]
      exact hi.2
    · exact fun w hw heq => heq ▸ (hwrites w hw).2
  · rw [if_neg hi]
    exact writeAll_of_forall_ne fun w hw heq => hi (heq ▸ (hwrites w hw).1)

/-- The lines are moved up. -/
theorem cell_moveRows {y x : ℕ} (hx : x < t.cols.toNat) (hy : y < t.rows.toNat) :
    t.moveRows.cell y x = if y + 1 < t.rows.toNat then t.cell (y + 1) x else t.cell y x := by
  have hnext : ((y + 1 : ℕ) : ℤ) * t.cols + x = y * t.cols + x + t.cols := by
    push_cast
    ring
  change t.moveRows.cells (y * t.cols + x) = _
  rw [moveRows_cells, cell, cell, hnext]
  refine if_congr ⟨fun h => ?_, fun h => ?_⟩ rfl rfl
  · by_contra hlast
    have hrow : (y : ℤ) = t.rows - 1 := by omega
    rw [hrow] at h
    omega
  · obtain ⟨hlow, hhigh⟩ := @cell_bounds x y t.cols (t.rows - 1) (by omega) (by omega) (by omega)
      (by omega)
    exact ⟨hlow, by rwa [mul_comm (t.rows - 1)]⟩

/-- The last line is blank. -/
theorem cell_clearLastRow {y x : ℕ} (hx : x < t.cols.toNat) (hy : y < t.rows.toNat) :
    t.clearLastRow.cell y x =
      if y + 1 < t.rows.toNat then t.cell y x else ⟨0#8, t.fgColor, t.bgColor⟩ := by
  change writeAll t.cells _ (y * t.cols + x) = _
  by_cases hlast : y + 1 < t.rows.toNat
  · rw [if_pos hlast, cell]
    refine writeAll_of_forall_ne fun w hw heq => ?_
    obtain ⟨i, hi, rfl⟩ := List.mem_map.mp hw
    obtain ⟨hlow, -⟩ := mem_indices.mp hi
    obtain ⟨-, hhigh⟩ := @cell_bounds x y t.cols (t.rows - 1) (by omega) (by omega) (by omega)
      (by omega)
    simp only at heq
    rw [heq, mul_comm] at hlow
    omega
  · rw [if_neg hlast]
    have hrow : (y : ℤ) = t.rows - 1 := by omega
    refine writeAll_of_mem (List.mem_map.mpr ⟨_, mem_indices.mpr ⟨?_, ?_⟩, rfl⟩) ?_
    · rw [hrow]
      omega
    · rw [hrow]
      omega
    · rintro w hw -
      obtain ⟨i, -, rfl⟩ := List.mem_map.mp hw
      rfl

/-- A grid whose cursor is below it is scrolled. -/
theorem scroll_text (hbuffer : t.textBuffer ≠ none) (hrows : 0 < t.rows)
    (hbelow : t.cursorY = t.rows) : t.scroll.text = t.text.scroll := by
  have hscroll : t.scroll = { t.moveRows.clearLastRow with
      cursorY := if 0 < t.cursorY then t.cursorY - 1 else t.cursorY }.redrawFull := if_neg hbuffer
  have hlength : t.text.lines.length ≤ t.text.y := by
    rw [text]
    simp only [List.length_map, List.length_range]
    omega
  have hlines : (List.range t.rows.toNat).map (fun y => (List.range t.cols.toNat).map
        (t.moveRows.clearLastRow.cell y)) =
      t.text.lines.tail ++ [List.replicate t.cols.toNat ⟨0#8, t.fgColor, t.bgColor⟩] := by
    rw [text, tail_map_range (by omega)]
    refine List.map_congr_left fun y hy => ?_
    have hy := List.mem_range.mp hy
    by_cases hlast : y + 1 < t.rows.toNat
    · rw [if_pos hlast]
      refine List.map_congr_left fun x hx => ?_
      have hx := List.mem_range.mp hx
      rw [cell_clearLastRow (t := t.moveRows) hx hy, cell_moveRows hx hy]
      exact (if_pos hlast).trans (if_pos hlast)
    · rw [if_neg hlast]
      refine List.eq_replicate_iff.mpr ⟨by simp, fun v hv => ?_⟩
      obtain ⟨x, hx, rfl⟩ := List.mem_map.mp hv
      rw [cell_clearLastRow (t := t.moveRows) (List.mem_range.mp hx) hy]
      exact if_neg hlast
  have hy : (t.cursorY - 1).toNat = t.cursorY.toNat - 1 := by omega
  rw [hscroll, (redrawFull_redrawn _).text_eq, TextGrid.scroll, if_pos hlength,
    if_pos (by omega : 0 < t.cursorY)]
  calc
    _ = TextGrid.mk t.cols.toNat ((List.range t.rows.toNat).map fun y =>
          (List.range t.cols.toNat).map (t.moveRows.clearLastRow.cell y)) t.cursorX.toNat
          (t.cursorY - 1).toNat t.fgColor t.bgColor := rfl
    _ = TextGrid.mk t.cols.toNat
          (t.text.lines.tail ++ [List.replicate t.cols.toNat ⟨0#8, t.fgColor, t.bgColor⟩])
          t.cursorX.toNat (t.cursorY.toNat - 1) t.fgColor t.bgColor := by rw [hlines, hy]

/-! ## Characters -/

/-- The cursor is in the grid. -/
structure CursorIn (t : Term) : Prop where
  buffer : t.textBuffer ≠ none
  left : 0 ≤ t.cursorX
  right : t.cursorX < t.cols
  top : 0 ≤ t.cursorY
  bottom : t.cursorY < t.rows

theorem text_length (t : Term) : t.text.lines.length = t.rows.toNat := by
  rw [text, List.length_map, List.length_range]

/-- A cursor in the grid stays where it is. -/
theorem CursorIn.scroll_text (h : t.CursorIn) : t.text.scroll = t.text := by
  have htop := h.top
  have hbottom := h.bottom
  refine if_neg ?_
  rw [text_length]
  change ¬t.rows.toNat ≤ t.cursorY.toNat
  omega

/-- The part of `term_put_char` after the grid has got the character, with the old place of the
cursor: the grid is scrolled, or both places are drawn. -/
def settle (t : Term) (x y : ℤ) : Term :=
  if t.rows ≤ t.cursorY then t.scroll
  else (t.drawCell x y).drawCell (t.drawCell x y).cursorX (t.drawCell x y).cursorY

theorem putChar_eq_settle (t : Term) (c : BitVec 8) :
    t.putChar c = (t.advance c).settle t.cursorX t.cursorY := rfl

/-- There is a buffer, and the cursor is in the grid or at the start of the line below. -/
structure CursorNear (t : Term) : Prop where
  buffer : t.textBuffer ≠ none
  left : 0 ≤ t.cursorX
  right : t.cursorX < t.cols
  top : 0 ≤ t.cursorY
  bottom : t.cursorY ≤ t.rows
  pos : 0 < t.rows

theorem CursorIn.near (h : t.CursorIn) : t.CursorNear :=
  ⟨h.buffer, h.left, h.right, h.top, h.bottom.le, h.top.trans_lt h.bottom⟩

theorem CursorIn.redrawn (h : t.CursorIn) (hredrawn : t.Redrawn t') : t'.CursorIn := by
  obtain ⟨hbuffer, hleft, hright, htop, hbottom⟩ := h
  rw [Redrawn] at hredrawn
  rw [hredrawn]
  exact ⟨hbuffer, hleft, hright, htop, hbottom⟩

/-- The text is that of the grid, scrolled if need be, and the cursor is in the grid. -/
theorem CursorNear.settle (h : t.CursorNear) (x y : ℤ) :
    (t.settle x y).text = t.text.scroll ∧ (t.settle x y).CursorIn ∧
      (t.settle x y).ansiState = t.ansiState := by
  obtain ⟨hbuffer, hleft, hright, htop, hbottom, hpos⟩ := h
  rw [Term.settle]
  by_cases hbelow : t.rows ≤ t.cursorY
  · rw [if_pos hbelow]
    obtain ⟨u, hu⟩ : ∃ u : Term, u = { t.moveRows.clearLastRow with
        cursorY := if 0 < t.cursorY then t.cursorY - 1 else t.cursorY } := ⟨_, rfl⟩
    have hscroll : t.scroll = u.redrawFull := by
      rw [hu]
      exact if_neg hbuffer
    have hcursor : u.cursorY = if 0 < t.cursorY then t.cursorY - 1 else t.cursorY := hu ▸ rfl
    have hrows : u.rows = t.rows := hu ▸ rfl
    have hin : u.CursorIn := by
      refine ⟨hu ▸ hbuffer, hu ▸ hleft, hu ▸ hright, ?_, ?_⟩
      · rw [hcursor]
        split_ifs <;> omega
      · rw [hcursor, hrows]
        split_ifs <;> omega
    have hredrawn := redrawFull_redrawn u
    refine ⟨scroll_text hbuffer hpos (by omega), ?_, ?_⟩
    · rw [hscroll]
      exact hin.redrawn hredrawn
    · rw [hscroll, hredrawn, hu]
      rfl
  · rw [if_neg hbelow]
    have hin : t.CursorIn := ⟨hbuffer, hleft, hright, htop, not_le.mp hbelow⟩
    have hredrawn := (drawCell_redrawn t x y).trans
      (drawCell_redrawn _ (t.drawCell x y).cursorX (t.drawCell x y).cursorY)
    refine ⟨hredrawn.text_eq.trans hin.scroll_text.symm, hin.redrawn hredrawn, ?_⟩
    rw [hredrawn]

/-- The cursor goes back. -/
theorem CursorIn.back (h : t.CursorIn) : ∃ u : Term, u.CursorIn ∧ u.text = t.text.back ∧
    u.ansiState = t.ansiState ∧ t.erase =
      u.setCell (u.cursorY * u.cols + u.cursorX) ⟨0#8, u.fgColor, u.bgColor⟩ := by
  obtain ⟨hbuffer, hleft, hright, htop, hbottom⟩ := h
  refine ⟨_, ?_, ?_, ?_, rfl⟩
  · split_ifs
    · exact ⟨hbuffer, by simp only; omega, by simp only; omega, htop, hbottom⟩
    · exact ⟨hbuffer, by simp only; omega, by simp only; omega, by simp only; omega,
        by simp only; omega⟩
    · exact ⟨hbuffer, hleft, hright, htop, hbottom⟩
  · have hx : 0 < t.text.x ↔ 0 < t.cursorX := Int.lt_toNat
    have hy : 0 < t.text.y ↔ 0 < t.cursorY := Int.lt_toNat
    have hleftX : (t.cursorX - 1).toNat = t.text.x - 1 := by
      change _ = t.cursorX.toNat - 1
      omega
    have hupY : (t.cursorY - 1).toNat = t.text.y - 1 := by
      change _ = t.cursorY.toNat - 1
      omega
    have hlastX : (t.cols - 1).toNat = t.text.cols - 1 := by
      change _ = t.cols.toNat - 1
      omega
    rw [TextGrid.back]
    simp only [hx, hy]
    split_ifs
    · exact congrArg (fun x => { t.text with x := x }) hleftX
    · rw [← hlastX, ← hupY]
      rfl
    · rfl
  · split_ifs
    all_goals rfl

/-- A character is stored, and the cursor goes to the next cell. -/
theorem CursorIn.put (h : t.CursorIn) (c : BitVec 8) :
    (t.put c).CursorNear ∧ (t.put c).text.scroll = (t.text.store c).forward ∧
      (t.put c).ansiState = t.ansiState := by
  obtain ⟨hbuffer, hleft, hright, htop, hbottom⟩ := h
  have htext := setCell_text hleft hright htop c
  obtain ⟨u, hu⟩ : ∃ u, u = t.setCell (t.cursorY * t.cols + t.cursorX) ⟨c, t.fgColor, t.bgColor⟩ :=
    ⟨_, rfl⟩
  have hcols : u.cols = t.cols := hu ▸ rfl
  have hrows : u.rows = t.rows := hu ▸ rfl
  have hx : u.cursorX = t.cursorX := hu ▸ rfl
  have hy : u.cursorY = t.cursorY := hu ▸ rfl
  have hstate : u.ansiState = t.ansiState := hu ▸ rfl
  have hbuffer' : u.textBuffer ≠ none := hu ▸ hbuffer
  have hlast : u.text.x + 1 < u.text.cols ↔ ¬u.cols ≤ u.cursorX + 1 := by
    change u.cursorX.toNat + 1 < u.cols.toNat ↔ _
    omega
  rw [Term.put, ← hu, ← htext, ← hu, TextGrid.forward]
  simp only [hlast, ite_not]
  split_ifs with hend
  · refine ⟨⟨hbuffer', le_rfl, by simp only; omega, by simp only; omega, by simp only; omega,
      by simp only; omega⟩, ?_, hstate⟩
    have hdown : (u.cursorY + 1).toNat = u.text.y + 1 := by
      change _ = u.cursorY.toNat + 1
      omega
    rw [TextGrid.newline, ← hdown]
    rfl
  · have hin : CursorIn { u with cursorX := u.cursorX + 1 } :=
      ⟨hbuffer', by simp only; omega, by simp only; omega, by simp only; omega,
        by simp only; omega⟩
    have hforward : (u.cursorX + 1).toNat = u.text.x + 1 := by
      change _ = u.cursorX.toNat + 1
      omega
    refine ⟨hin.near, ?_, hstate⟩
    rw [← hforward]
    exact hin.scroll_text

/-- A character does to the text what it does to the reference. -/
theorem CursorIn.putChar (h : t.CursorIn) (c : BitVec 8) :
    (t.putChar c).text = t.text.step c ∧ (t.putChar c).CursorIn ∧
      (t.putChar c).ansiState = t.ansiState := by
  rw [putChar_eq_settle, Term.advance, TextGrid.step]
  split_ifs
  · have hnear : CursorNear { t with cursorX := 0, cursorY := t.cursorY + 1 } :=
      ⟨h.buffer, le_rfl, h.left.trans_lt h.right, Int.add_nonneg h.top zero_le_one,
        Int.add_one_le_iff.mpr h.bottom, h.top.trans_lt h.bottom⟩
    obtain ⟨htext, hin, hstate⟩ := hnear.settle t.cursorX t.cursorY
    refine ⟨htext.trans ?_, hin, hstate⟩
    have htop := h.top
    have hdown : (t.cursorY + 1).toNat = t.text.y + 1 := by
      change _ = t.cursorY.toNat + 1
      omega
    rw [TextGrid.newline, ← hdown]
    rfl
  · obtain ⟨u, hin, htext, hstate, herase⟩ := h.back
    have hin' : t.erase.CursorIn := by
      rw [herase]
      exact ⟨hin.buffer, hin.left, hin.right, hin.top, hin.bottom⟩
    obtain ⟨htext', hsettled, hstate'⟩ := hin'.near.settle t.cursorX t.cursorY
    refine ⟨?_, hsettled, hstate'.trans ?_⟩
    · rw [htext', hin'.scroll_text, herase, setCell_text hin.left hin.right hin.top, htext]
    · rw [herase]
      exact hstate
  · obtain ⟨hnear, htext, hstate⟩ := h.put c
    obtain ⟨htext', hin, hstate'⟩ := hnear.settle t.cursorX t.cursorY
    exact ⟨htext'.trans htext, hin, hstate'.trans hstate⟩

end Term

/-! ## The bytes of the buffer -/

section Bytes

variable {mem : ℕ → BitVec 8} {dest src n base : ℕ}

/-- `memcpy`: blocks of eight bytes, and then single bytes. -/
def memcpy (dest src n : ℕ) (mem : ℕ → BitVec 8) : ℕ → BitVec 8 :=
  copyBlocks 1 (n % 8) (dest + 8 * (n / 8)) (src + 8 * (n / 8))
    (copyBlocks 8 (n / 8) dest src mem)

/-- Bytes that are copied downwards in memory are moved, also when the ranges overlap. -/
theorem memcpy_eq_moved (hle : dest ≤ src) : memcpy dest src n mem = moved n dest src mem := by
  rw [memcpy, copyBlocks_eq_moved hle, copyBlocks_eq_moved (by omega), moved_moved (by omega),
    Nat.one_mul, Nat.div_add_mod]

/-- `sizeof(term_cell_t)` -/
def cellSize : ℕ := 12

/-- The bytes of a cell. Three bytes behind the first are not used. -/
def Cell.byte (cell : Cell) (j : ℕ) : BitVec 8 :=
  if j < 4 then cell.c
  else if j < 8 then cell.fg.extractLsb' (8 * (j - 4)) 8
  else cell.bg.extractLsb' (8 * (j - 8)) 8

/-- The bytes from an address on are those of the cells of the grid. -/
def Term.HoldsCells (t : Term) (base : ℕ) (mem : ℕ → BitVec 8) : Prop :=
  ∀ i j : ℕ, (i : ℤ) < t.cols * t.rows → j < cellSize → j = 0 ∨ 4 ≤ j →
    mem (base + cellSize * i + j) = (t.cells i).byte j

/-- What `memcpy` is called with in `term_scroll` moves all lines but the first up. -/
theorem Term.moveRows_memcpy {t : Term} (hcols : 0 < t.cols) (hrows : 0 < t.rows)
    (h : t.HoldsCells base mem) :
    t.moveRows.HoldsCells base (memcpy base (base + cellSize * t.cols.toNat)
      ((t.rows - 1) * (t.cols * cellSize)).toNat mem) := by
  intro i j hi hj hused
  have hcount : ((t.rows - 1) * (t.cols * cellSize)).toNat =
      cellSize * ((t.rows - 1) * t.cols).toNat := by
    rw [← mul_assoc, mul_comm, Int.toNat_mul (by decide) (Int.mul_nonneg (by omega) hcols.le)]
    rfl
  obtain ⟨hmoved, hsize⟩ := lastRow_bounds hcols hrows
  rw [memcpy_eq_moved (by omega), moved, hcount, moveRows_cells]
  rw [cellSize] at hj ⊢
  by_cases hlow : (i : ℤ) < (t.rows - 1) * t.cols
  · have hnext := h (i + t.cols.toNat) j (by push_cast; omega) hj hused
    have hindex : ((i + t.cols.toNat : ℕ) : ℤ) = i + t.cols := by push_cast; omega
    rw [hindex] at hnext
    rw [if_pos (by omega), if_pos ⟨Int.natCast_nonneg i, hlow⟩, ← hnext, cellSize]
    exact congrArg mem (by omega)
  · rw [if_neg (by omega), if_neg (by omega)]
    exact h i j hi hj hused

end Bytes

namespace Term

variable {t : Term} {files : List (BitVec 8) → Option Image} {str : List (BitVec 8)}

/-- In the normal state, strings without escapes are characters. -/
theorem CursorIn.writeBytes (h : t.CursorIn) (hnormal : t.ansiState = .normal)
    (hstr : ∀ c ∈ str, c ≠ 0x1b#8) :
    (str.foldl (fun t c => t.writeByte files c) t).text = str.foldl TextGrid.step t.text ∧
      (str.foldl (fun t c => t.writeByte files c) t).CursorIn := by
  induction str generalizing t with
  | nil => exact ⟨rfl, h⟩
  | cons c str ih =>
    obtain ⟨hc, hstr⟩ := List.forall_mem_cons.mp hstr
    obtain ⟨htext, hin, hstate⟩ := h.putChar c
    have hbyte : t.writeByte files c = t.putChar c := by
      rw [writeByte, hnormal]
      exact if_neg hc
    rw [List.foldl_cons, List.foldl_cons, hbyte, ← htext]
    exact ih hin (hstate.trans hnormal) hstr

/-- A string without escapes does to the grid what its characters do to the reference, and the
block copy of `term_scroll` within the buffer moves the lines up. -/
theorem write_text (h : t.CursorIn) (hnormal : t.ansiState = .normal)
    (hstr : ∀ c ∈ str, c ≠ 0x1b#8 ∧ c ≠ 0#8) :
    (t.write files str).text = str.foldl TextGrid.step t.text ∧ (t.write files str).CursorIn ∧
      ∀ (u : Term) (mem : ℕ → BitVec 8) (base : ℕ), 0 < u.cols → 0 < u.rows →
        u.HoldsCells base mem →
        u.moveRows.HoldsCells base (memcpy base (base + cellSize * u.cols.toNat)
          ((u.rows - 1) * (u.cols * cellSize)).toNat mem) := by
  have hwhole : (str.takeWhile fun c => c ≠ 0#8) = str :=
    List.takeWhile_eq_self_iff.mpr fun c hc => decide_eq_true (hstr c hc).2
  obtain ⟨htext, hin⟩ := h.writeBytes hnormal fun c hc => (hstr c hc).1
  rw [write, hwhole]
  exact ⟨htext, hin, fun u mem base hcols hrows hholds => moveRows_memcpy hcols hrows hholds⟩

/-- A character, a backspace, another character and a newline in a window of one cell. -/
theorem write_text_sampleFont : ∃ t : Term, t = started sampleFont (fun _ => 0) 8 8 ∧
    (t.write (fun _ => none) [0x41#8, 0x08#8, 0x42#8, 0x0a#8]).text =
      [0x41#8, 0x08#8, 0x42#8, 0x0a#8].foldl TextGrid.step t.text := by
  have hready : Ready sampleFont (started sampleFont (fun _ => 0) 8 8) :=
    started_ready ⟨by decide, by decide⟩ ⟨by decide, by decide⟩
  have hgrid := hready.grid
  have hin : (started sampleFont (fun _ => 0) 8 8).CursorIn :=
    ⟨by rw [hgrid.buffer]; exact Option.some_ne_none _, hgrid.left, hgrid.right, hgrid.top,
      hgrid.bottom⟩
  have hnormal : (started sampleFont (fun _ => 0) 8 8).ansiState = .normal := by decide +kernel
  exact ⟨_, rfl, (write_text hin hnormal (by decide)).1⟩

end Term

end OpenIDP.Userspace
