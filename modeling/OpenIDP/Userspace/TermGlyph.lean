import OpenIDP.Userspace.TermPicture
import OpenIDP.Userspace.TermText

/-!
# The glyphs that are read

`gfx_draw_char` multiplies a signed character by an unsigned 32-bit size. Here the calls of
`gfx_draw_char` that the terminal makes are collected, with the bytes that they read.

## Main definitions

* `Font.byteIndex`, `Font.glyphByte` — the byte that is read for a pixel, and the byte of the glyph
* `CharCall` — a call of `gfx_draw_char`
* `Term.calls` — the calls that an operation makes
* `Term.Shown`, `Term.Finds` — the bytes that are drawn, and that their glyphs are found

## Main results

* `CharCall.inGlyph_iff` — the characters whose glyph is found
* `Term.glyphs_read` — what is read while the terminal is written to
* `Term.glyph_missed` — a byte with its high bit set
-/

namespace OpenIDP.Userspace

open OpenIDP.Math

variable {font : Font} {glyphs : ℕ} {c : BitVec 8}

/-- The byte of `glyph_data` that is read for a pixel of a character. -/
def Font.byteIndex (font : Font) (c : BitVec 8) (row col : ℕ) : ℕ :=
  (c.toInt * font.charsize % 2 ^ 32).toNat + (row * ((font.width + 7) / 8) + col / 8)

/-- The byte for a pixel in the glyph of a byte value. -/
def Font.glyphByte (font : Font) (c : BitVec 8) (row col : ℕ) : ℕ :=
  c.toNat * font.charsize + (row * ((font.width + 7) / 8) + col / 8)

/-- The rows of a glyph are whole bytes, and there is a glyph for each byte value. -/
structure Font.WellFormed (font : Font) (glyphs : ℕ) : Prop where
  charsize : font.charsize = font.height * ((font.width + 7) / 8)
  charsize_lt : font.charsize < 2 ^ 32
  glyphs : 256 ≤ glyphs

/-- The product with the size of a glyph is the offset of the glyph: it is a 32-bit word, and the
character has no sign or the sign is lost in the product. -/
def Font.Finds (font : Font) (c : BitVec 8) : Prop :=
  c.toNat * font.charsize < 2 ^ 32 ∧ (c.toNat < 0x80 ∨ font.charsize = 2 ^ 24)

instance (font : Font) (c : BitVec 8) : Decidable (font.Finds c) :=
  inferInstanceAs (Decidable (_ ∧ (_ ∨ _)))

theorem Font.isSet_eq (font : Font) (c : BitVec 8) (row col : ℕ) :
    font.isSet c row col =
      (font.glyphData (font.byteIndex c row col)).getLsbD (7 - col % 8) := rfl

theorem Font.WellFormed.finds_iff (hwf : font.WellFormed glyphs) (hpos : 0 < font.charsize) :
    (c.toInt * font.charsize % 2 ^ 32).toNat = c.toNat * font.charsize ↔ font.Finds c := by
  obtain ⟨-, hlt, -⟩ := hwf
  have hbyte := c.isLt
  unfold Font.Finds
  rw [BitVec.toInt_eq_toNat_cond]
  by_cases hsign : 2 * c.toNat < 2 ^ 8
  · rw [if_pos hsign, ← Nat.cast_mul]
    omega
  · rw [if_neg hsign, sub_mul, ← Nat.cast_mul]
    have hlow : 0x80 * font.charsize ≤ c.toNat * font.charsize :=
      Nat.mul_le_mul_right _ (by omega)
    push_cast
    omega

/-- A byte of a row of a glyph is in the glyph. -/
theorem Font.WellFormed.row_lt (hwf : font.WellFormed glyphs) {row col : ℕ}
    (hrow : row < font.height) (hcol : col < font.width) :
    row * ((font.width + 7) / 8) + col / 8 < font.charsize := by
  have hbyte : col / 8 < (font.width + 7) / 8 := by omega
  calc row * ((font.width + 7) / 8) + col / 8
      < (row + 1) * ((font.width + 7) / 8) := by
        rw [add_mul, one_mul]
        exact Nat.add_lt_add_left hbyte _
    _ ≤ font.height * ((font.width + 7) / 8) := Nat.mul_le_mul_right _ hrow
    _ = font.charsize := hwf.charsize.symm

/-- The glyphs of all bytes are in the table. -/
theorem Font.WellFormed.glyphByte_lt (hwf : font.WellFormed glyphs) {row col : ℕ}
    (hrow : row < font.height) (hcol : col < font.width) :
    font.glyphByte c row col < glyphs * font.charsize := by
  have hbyte : c.toNat + 1 ≤ glyphs := le_trans c.isLt hwf.glyphs
  calc font.glyphByte c row col
      < (c.toNat + 1) * font.charsize := by
        rw [add_mul, one_mul]
        exact Nat.add_lt_add_left (hwf.row_lt hrow hcol) _
    _ ≤ glyphs * font.charsize := Nat.mul_le_mul_right _ hbyte

/-- A call of `gfx_draw_char`. -/
structure CharCall where
  gfx : Gfx
  x : ℤ
  y : ℤ
  c : BitVec 8

namespace CharCall

/-- The pixels of the character for which a byte is read, by row and column. -/
def pixels (call : CharCall) : List (ℕ × ℕ) :=
  if call.gfx.width ≤ call.x ∨ call.gfx.height ≤ call.y then []
  else
    let rows := (List.range call.gfx.font.height).takeWhile
      fun row : ℕ => call.y + row < call.gfx.height
    let cols := (List.range call.gfx.font.width).takeWhile
      fun col : ℕ => call.x + col < call.gfx.width
    rows.flatMap fun row => cols.map fun col => (row, col)

/-- All bytes that are read are in the table, and they are those of the glyph of the byte value. -/
def InGlyph (glyphs : ℕ) (call : CharCall) : Prop :=
  ∀ q ∈ call.pixels,
    call.gfx.font.byteIndex call.c q.1 q.2 < glyphs * call.gfx.font.charsize ∧
      call.gfx.font.byteIndex call.c q.1 q.2 = call.gfx.font.glyphByte call.c q.1 q.2

instance (glyphs : ℕ) (call : CharCall) : Decidable (call.InGlyph glyphs) :=
  inferInstanceAs (Decidable (∀ q ∈ call.pixels, _))

/-- What `gfx_draw_char` writes for the bytes that it reads. -/
theorem drawChar_eq (call : CharCall) (fg bg : BitVec 32) :
    call.gfx.drawChar call.x call.y call.c fg bg = { call.gfx with
      fb := writeAll call.gfx.fb (call.pixels.map fun q =>
        ((call.y + q.1) * call.gfx.pitch + call.x + q.2,
          if (call.gfx.font.glyphData (call.gfx.font.byteIndex call.c q.1 q.2)).getLsbD
            (7 - q.2 % 8) then fg else bg)) } := by
  rw [Gfx.drawChar, pixels]
  split_ifs
  · rfl
  · simp only [Gfx.charWrites, List.map_flatMap, List.map_map]
    rfl

theorem mem_pixels {call : CharCall} {q : ℕ × ℕ} (hq : q ∈ call.pixels) :
    q.1 < call.gfx.font.height ∧ q.2 < call.gfx.font.width := by
  rw [pixels] at hq
  split_ifs at hq
  · exact absurd hq List.not_mem_nil
  · obtain ⟨row, hrow, hq⟩ := List.mem_flatMap.mp hq
    obtain ⟨col, hcol, rfl⟩ := List.mem_map.mp hq
    exact ⟨List.mem_range.mp (List.takeWhile_subset _ hrow),
      List.mem_range.mp (List.takeWhile_subset _ hcol)⟩

/-- The first byte of the glyph is read when the character starts in the window. -/
theorem first_pixel {call : CharCall} (hfont : 0 < call.gfx.font.width ∧ 0 < call.gfx.font.height)
    (hx : call.x < call.gfx.width) (hy : call.y < call.gfx.height) :
    (0, 0) ∈ call.pixels := by
  have hmono : ∀ n m : ℤ, ∀ i j : ℕ, i ≤ j → decide (n + j < m) = true →
      decide (n + i < m) = true := by
    intro n m i j hij hj
    have hj := of_decide_eq_true hj
    exact decide_eq_true (by omega)
  rw [pixels, if_neg (by omega)]
  apply List.mem_flatMap.mpr
  refine ⟨0, (mem_takeWhile_range (hmono _ _)).mpr ⟨hfont.2, decide_eq_true (by omega)⟩, ?_⟩
  apply List.mem_map.mpr
  exact ⟨0, (mem_takeWhile_range (hmono _ _)).mpr ⟨hfont.1, decide_eq_true (by omega)⟩, rfl⟩

theorem inGlyph_of_finds {call : CharCall} (hwf : call.gfx.font.WellFormed glyphs)
    (h : call.gfx.font.Finds call.c) : call.InGlyph glyphs := by
  intro q hq
  obtain ⟨hrow, hcol⟩ := mem_pixels hq
  have hpos : 0 < call.gfx.font.charsize := (Nat.zero_le _).trans_lt (hwf.row_lt hrow hcol)
  have heq : call.gfx.font.byteIndex call.c q.1 q.2 = call.gfx.font.glyphByte call.c q.1 q.2 :=
    congrArg (· + _) ((hwf.finds_iff hpos).mpr h)
  exact ⟨heq ▸ hwf.glyphByte_lt hrow hcol, heq⟩

/-- A character that starts in the window reads its glyph when the product is the offset of the
glyph, and only then. -/
theorem inGlyph_iff {call : CharCall} (hwf : call.gfx.font.WellFormed glyphs)
    (hfont : 0 < call.gfx.font.width ∧ 0 < call.gfx.font.height) (hx : call.x < call.gfx.width)
    (hy : call.y < call.gfx.height) : call.InGlyph glyphs ↔ call.gfx.font.Finds call.c := by
  refine ⟨fun h => ?_, inGlyph_of_finds hwf⟩
  have hpos : 0 < call.gfx.font.charsize :=
    (Nat.zero_le _).trans_lt (hwf.row_lt hfont.2 hfont.1)
  exact (hwf.finds_iff hpos).mp (Nat.add_right_cancel (h _ (first_pixel hfont hx hy)).2)

end CharCall

namespace Term

variable {t t' : Term} {files : List (BitVec 8) → Option Image}

/-! ## The calls -/

section Calls

variable (t : Term)

/-- The call in `draw_cell`. -/
def cellCalls (x y : ℤ) : List CharCall :=
  if t.textBuffer = none then []
  else
    let t₁ := t.touch [y * t.cols + x]
    [⟨t₁.gfx, x * t.fontWidth, y * t.fontHeight, (t₁.look x y).c⟩]

/-- The calls for a cell in `term_redraw_full`. -/
def redrawCellCalls (x y : ℤ) : List CharCall :=
  let t₁ := t.touch [y * t.cols + x]
  let cell := t₁.cells (y * t.cols + x)
  if (cell.c ≠ 0#8 ∧ cell.c ≠ 0x20#8) ∨ cell.bg ≠ defaultBg then
    t₁.cellCalls x y ++
      if (t₁.drawCell x y).isCursor x y then (t₁.drawCell x y).cellCalls x y else []
  else if t₁.isCursor x y then t₁.cellCalls x y
  else []

/-- The calls for cells, one after the other. -/
def redrawCalls (t : Term) : List (ℤ × ℤ) → List CharCall
  | [] => []
  | q :: cells => t.redrawCellCalls q.1 q.2 ++ (t.redrawCell q.1 q.2).redrawCalls cells

/-- The calls in `term_redraw_full`. -/
def redrawFullCalls : List CharCall :=
  { t with gfx := t.gfx.clear defaultBg }.redrawCalls t.grid

/-- The calls in `term_scroll`. -/
def scrollCalls : List CharCall :=
  if t.textBuffer = none then [] else t.scrolled.redrawFullCalls

/-- The calls in `term_put_char`. -/
def putCharCalls (c : BitVec 8) : List CharCall :=
  let t₁ := t.advance c
  if t₁.rows ≤ t₁.cursorY then t₁.scrollCalls
  else
    let t₂ := t₁.drawCell t.cursorX t.cursorY
    t₁.cellCalls t.cursorX t.cursorY ++ t₂.cellCalls t₂.cursorX t₂.cursorY

/-- The calls in the body of the loop of `term_write`. -/
def writeByteCalls (c : BitVec 8) : List CharCall :=
  match t.ansiState with
  | .esc =>
    if c = 0x5b#8 then []
    else if c = 0x5d#8 then []
    else { t with ansiState := .normal }.putCharCalls c
  | .osc => []
  | .csi => []
  | .normal => if c = 0x1b#8 then [] else t.putCharCalls c

/-- The calls in the loop of `term_write`. -/
def writeCalls (files : List (BitVec 8) → Option Image) (t : Term) : List (BitVec 8) → List CharCall
  | [] => []
  | c :: str => t.writeByteCalls c ++ (t.writeByte files c).writeCalls files str

/-- The calls in `term_set_cursor_visible`. -/
def setCursorVisibleCalls (visible : ℤ) : List CharCall :=
  if t.showCursor ≠ visible then
    let t₁ := t.drawCell t.cursorX t.cursorY
    let t₂ := { t₁ with showCursor := visible }
    t.cellCalls t.cursorX t.cursorY ++ t₂.cellCalls t₂.cursorX t₂.cursorY
  else []

/-- The calls of `gfx_draw_char` in an operation, in their order. -/
def calls (files : List (BitVec 8) → Option Image) : Op → List CharCall
  | .init width height =>
    let gfx := t.gfx.withSize width height
    ((t.reset gfx).regrid gfx.width gfx.height).redrawFullCalls
  | .resize width height =>
    ({ t with gfx := t.gfx.withSize width height }.regrid width height).redrawFullCalls
  | .write str => t.writeCalls files (str.takeWhile fun c => c ≠ 0#8)
  | .clear => { t.clearCells with cursorX := 0, cursorY := 0 }.redrawFullCalls
  | .setCursorVisible visible => t.setCursorVisibleCalls visible

end Calls

/-- `draw_cell` draws with its call. -/
theorem drawCell_calls (t : Term) (x y : ℤ) : (t.drawCell x y).gfx =
    (t.cellCalls x y).foldl
      (fun _ call => call.gfx.drawChar call.x call.y call.c (t.look x y).fg (t.look x y).bg)
      t.gfx := by
  rw [drawCell, cellCalls]
  by_cases hbuffer : t.textBuffer = none
  · rw [if_pos hbuffer, if_pos hbuffer]
    rfl
  · rw [if_neg hbuffer, if_neg hbuffer]
    exact addDirtyCell_gfx _ x y

/-! ## The characters in the cells -/

/-- The character goes into a cell: it is no line feed and no backspace. -/
def FillsCell (c : BitVec 8) : Prop := c ≠ 0x0a#8 ∧ c ≠ 0x08#8

/-- The byte is passed on by the parser, and goes into a cell. -/
def Shown (t : Term) (c : BitVec 8) : Prop := t.PassesOn c ∧ FillsCell c

instance (t : Term) (c : BitVec 8) : Decidable (t.Shown c) :=
  inferInstanceAs (Decidable (t.PassesOn c ∧ c ≠ 0x0a#8 ∧ c ≠ 0x08#8))

/-- The glyphs of the bytes of a string that are shown are found. -/
def ShownFound (font : Font) (files : List (BitVec 8) → Option Image) :
    Term → List (BitVec 8) → Prop
  | _, [] => True
  | t, c :: str => (t.Shown c → font.Finds c) ∧ ShownFound font files (t.writeByte files c) str

/-- A cell is empty, or has a character whose glyph is found. -/
def Shows (font : Font) (cell : Cell) : Prop := cell.c = 0#8 ∨ font.Finds cell.c

/-- The terminal has its font, and the glyphs of its cells are found. -/
structure Findable (font : Font) (t : Term) : Prop where
  gfx_font : t.gfx.font = font
  cells : ∀ i, Shows font (t.cells i)

/-- The calls are made with the font, for characters whose glyphs are found. -/
def AllFound (font : Font) (calls : List CharCall) : Prop :=
  ∀ call ∈ calls, call.gfx.font = font ∧ font.Finds call.c

theorem shows_zero {fg bg : BitVec 32} : Shows font ⟨0#8, fg, bg⟩ := Or.inl rfl

theorem AllFound.nil : AllFound font [] := fun _ hcall => absurd hcall List.not_mem_nil

theorem AllFound.append {calls calls' : List CharCall} (h : AllFound font calls)
    (h' : AllFound font calls') : AllFound font (calls ++ calls') := fun call hcall =>
  (List.mem_append.mp hcall).elim (h call) (h' call)

namespace Findable

theorem redrawn (h : Findable font t) (hredrawn : t.Redrawn t') : Findable font t' := by
  rw [Redrawn] at hredrawn
  rw [hredrawn]
  exact ⟨h.gfx_font, h.cells⟩

theorem parsed (h : Findable font t) (hparsed : t.Parsed t') : Findable font t' := by
  rw [Parsed] at hparsed
  rw [hparsed]
  exact ⟨h.gfx_font, h.cells⟩

theorem setCell (h : Findable font t) {i : ℤ} {cell : Cell} (hcell : Shows font cell) :
    Findable font (t.setCell i cell) :=
  ⟨h.gfx_font, @writeAll_forall _ _ _ _ [(i, cell)] _ h.cells fun _ hw =>
    (List.mem_singleton.mp hw).symm ▸ hcell⟩

theorem scrolled (h : Findable font t) : Findable font t.scrolled := by
  have hmoved : ∀ i, Shows font (t.moveRows.cells i) := writeAll_forall h.cells fun w hw => by
    obtain ⟨i, -, rfl⟩ := List.mem_map.mp hw
    exact h.cells (i + t.cols)
  refine ⟨h.gfx_font, writeAll_forall hmoved fun w hw => ?_⟩
  obtain ⟨i, -, rfl⟩ := List.mem_map.mp hw
  exact shows_zero

theorem regrid (h : Findable font t) (width height : ℤ) :
    Findable font (t.regrid width height) := by
  refine ⟨h.gfx_font, ?_⟩
  have hcleared : ∀ size i, Shows font (writeAll t.cells
      ((indices 0 size).map fun i => (i, ⟨0#8, defaultFg, defaultBg⟩)) i) := fun size =>
    writeAll_forall h.cells fun w hw => by
      obtain ⟨i, -, rfl⟩ := List.mem_map.mp hw
      exact shows_zero
  change ∀ i, Shows font ((if t.textBuffer = none then _ else _ : ℤ → Cell) i)
  by_cases hbuffer : t.textBuffer = none
  · rw [if_pos hbuffer]
    exact hcleared _
  · rw [if_neg hbuffer]
    refine writeAll_forall (hcleared _) fun w hw => ?_
    obtain ⟨y, -, hw⟩ := List.mem_flatMap.mp hw
    obtain ⟨x, -, rfl⟩ := List.mem_map.mp hw
    exact h.cells _

theorem clearCells (h : Findable font t) : Findable font t.clearCells := by
  rw [Term.clearCells]
  split_ifs
  · exact h
  · refine ⟨h.gfx_font, writeAll_forall h.cells fun w hw => ?_⟩
    obtain ⟨i, -, rfl⟩ := List.mem_map.mp hw
    exact shows_zero

/-- A character whose glyph is found is written, or a line feed or a backspace. -/
theorem advance (h : Findable font t) {c : BitVec 8} (hc : FillsCell c → font.Finds c) :
    Findable font (t.advance c) := by
  have hmoved : ∀ x y, Findable font { t with cursorX := x, cursorY := y } := fun x y =>
    ⟨h.gfx_font, h.cells⟩
  rw [Term.advance]
  split_ifs with hfeed hback
  · exact hmoved 0 (t.cursorY + 1)
  · rw [erase]
    split_ifs
    · exact (hmoved (t.cursorX - 1) t.cursorY).setCell shows_zero
    · exact (hmoved (t.cols - 1) (t.cursorY - 1)).setCell shows_zero
    · exact h.setCell shows_zero
  · have hput : Findable font (t.setCell (t.cursorY * t.cols + t.cursorX)
        ⟨c, t.fgColor, t.bgColor⟩) := h.setCell (Or.inr (hc ⟨hfeed, hback⟩))
    rw [put]
    split_ifs
    all_goals exact ⟨hput.gfx_font, hput.cells⟩

end Findable

section Found

variable (hspace : font.Finds 0x20#8)
include hspace

theorem Findable.cellCalls (h : Findable font t) (x y : ℤ) : AllFound font (t.cellCalls x y) := by
  have hchar : font.Finds (if (t.cells (y * t.cols + x)).c = 0#8 then 0x20#8
      else (t.cells (y * t.cols + x)).c) := by
    split_ifs with hzero
    · exact hspace
    · exact (h.cells (y * t.cols + x)).resolve_left hzero
  have hlook : font.Finds (t.look x y).c := by
    rw [look]
    by_cases hcursor : t.isCursor x y = true
    · rw [if_pos hcursor]
      exact hchar
    · rw [if_neg hcursor]
      exact hchar
  rw [Term.cellCalls]
  split_ifs
  · exact .nil
  · intro call hcall
    rw [List.mem_singleton.mp hcall]
    exact ⟨h.gfx_font, hlook⟩

theorem Findable.redrawCellCalls (h : Findable font t) (x y : ℤ) :
    AllFound font (t.redrawCellCalls x y) := by
  have htouch : Findable font (t.touch [y * t.cols + x]) := ⟨h.gfx_font, h.cells⟩
  have hdrawn := htouch.redrawn (drawCell_redrawn _ x y)
  have hcalls := htouch.cellCalls hspace x y
  rw [Term.redrawCellCalls]
  split_ifs
  · exact hcalls.append (hdrawn.cellCalls hspace x y)
  · exact hcalls.append .nil
  · exact hcalls
  · exact .nil

theorem Findable.redrawCalls (h : Findable font t) (cells : List (ℤ × ℤ)) :
    AllFound font (t.redrawCalls cells) := by
  induction cells generalizing t with
  | nil => exact .nil
  | cons q cells ih =>
    exact (h.redrawCellCalls hspace q.1 q.2).append (ih (h.redrawn (redrawCell_redrawn t q.1 q.2)))

theorem Findable.redrawFullCalls (h : Findable font t) : AllFound font t.redrawFullCalls := by
  have hclear : Findable font { t with gfx := t.gfx.clear defaultBg } := ⟨h.gfx_font, h.cells⟩
  exact hclear.redrawCalls hspace t.grid

theorem Findable.putCharCalls (h : Findable font t) {c : BitVec 8}
    (hc : FillsCell c → font.Finds c) :
    AllFound font (t.putCharCalls c) := by
  have hadvance := h.advance hc
  rw [Term.putCharCalls]
  by_cases hbelow : (t.advance c).rows ≤ (t.advance c).cursorY
  · rw [if_pos hbelow, scrollCalls]
    split_ifs
    · exact .nil
    · exact hadvance.scrolled.redrawFullCalls hspace
  · rw [if_neg hbelow]
    have hdrawn := hadvance.redrawn (drawCell_redrawn _ t.cursorX t.cursorY)
    exact (hadvance.cellCalls hspace _ _).append (hdrawn.cellCalls hspace _ _)

omit hspace in
theorem Findable.putChar (h : Findable font t) {c : BitVec 8} (hc : FillsCell c → font.Finds c) :
    Findable font (t.putChar c) := by
  have hadvance := h.advance hc
  rw [Term.putChar]
  by_cases hbelow : (t.advance c).rows ≤ (t.advance c).cursorY
  · rw [if_pos hbelow, Term.scroll]
    split_ifs
    · exact hadvance
    · exact hadvance.scrolled.redrawn (redrawFull_redrawn _)
  · rw [if_neg hbelow]
    exact (hadvance.redrawn (drawCell_redrawn _ _ _)).redrawn (drawCell_redrawn _ _ _)

omit hspace in
theorem Findable.writeByte (h : Findable font t) {c : BitVec 8} (hc : t.Shown c → font.Finds c) :
    Findable font (t.writeByte files c) := by
  obtain hparsed | ⟨u, hparsed, hpasses, hput⟩ | ⟨-, hosc⟩ := writeByte_cases t files c
  · exact h.parsed hparsed
  · rw [hput]
    exact (h.parsed hparsed).putChar fun hcell => hc ⟨hpasses, hcell⟩
  · rw [hosc]
    have hdrawn := h.redrawn (drawOsc_drawn t files).redrawn
    exact ⟨hdrawn.gfx_font, hdrawn.cells⟩

theorem Findable.writeByteCalls (h : Findable font t) {c : BitVec 8}
    (hc : t.Shown c → font.Finds c) : AllFound font (t.writeByteCalls c) := by
  rw [Term.writeByteCalls]
  cases hstate : t.ansiState with
  | normal =>
    simp only
    split_ifs with hesc
    · exact .nil
    · exact h.putCharCalls hspace fun hcell => hc ⟨Or.inl ⟨hstate, hesc⟩, hcell⟩
  | esc =>
    simp only
    split_ifs with hcsi hosc
    · exact .nil
    · exact .nil
    · have hnormal : Findable font { t with ansiState := .normal } := ⟨h.gfx_font, h.cells⟩
      exact hnormal.putCharCalls hspace fun hcell => hc ⟨Or.inr ⟨hstate, hcsi, hosc⟩, hcell⟩
  | csi => exact .nil
  | osc => exact .nil

/-- A string is written, and the glyphs of what is shown of it are found. -/
theorem Findable.writeCalls (h : Findable font t) {str : List (BitVec 8)}
    (hstr : ShownFound font files t str) :
    AllFound font (t.writeCalls files str) ∧
      Findable font (str.foldl (fun t c => t.writeByte files c) t) := by
  induction str generalizing t with
  | nil => exact ⟨.nil, h⟩
  | cons c str ih =>
    obtain ⟨hc, hstr⟩ := hstr
    obtain ⟨hcalls, hfindable⟩ := ih (h.writeByte hc) hstr
    exact ⟨(h.writeByteCalls hspace hc).append hcalls, hfindable⟩

end Found

/-- The glyphs of the characters that an operation shows are found. -/
def Finds (font : Font) (files : List (BitVec 8) → Option Image) (t : Term) : Op → Prop
  | .write str => ShownFound font files t (str.takeWhile fun c => c ≠ 0#8)
  | _ => True

/-- One operation: its calls find their glyphs, and what it leaves in the cells is found. -/
theorem Findable.apply (files : List (BitVec 8) → Option Image) (hspace : font.Finds 0x20#8)
    (h : Findable font t) {op : Op} (hop : t.Finds font files op) :
    AllFound font (t.calls files op) ∧ Findable font (t.apply files op) := by
  cases op with
  | init width height =>
    have hreset : Findable font (t.reset (t.gfx.withSize width height)) := ⟨h.gfx_font, h.cells⟩
    have hregrid := hreset.regrid width height
    exact ⟨hregrid.redrawFullCalls hspace, hregrid.redrawn (redrawFull_redrawn _)⟩
  | resize width height =>
    have hsized : Findable font { t with gfx := t.gfx.withSize width height } :=
      ⟨h.gfx_font, h.cells⟩
    have hregrid := hsized.regrid width height
    exact ⟨hregrid.redrawFullCalls hspace, hregrid.redrawn (redrawFull_redrawn _)⟩
  | write str =>
    exact h.writeCalls hspace hop
  | clear =>
    have hclear : Findable font { t.clearCells with cursorX := 0, cursorY := 0 } :=
      ⟨h.clearCells.gfx_font, h.clearCells.cells⟩
    exact ⟨hclear.redrawFullCalls hspace, hclear.redrawn (redrawFull_redrawn _)⟩
  | setCursorVisible visible =>
    have hdrawn := h.redrawn (drawCell_redrawn t t.cursorX t.cursorY)
    have hshown : Findable font { t.drawCell t.cursorX t.cursorY with showCursor := visible } :=
      ⟨hdrawn.gfx_font, hdrawn.cells⟩
    simp only [Term.calls, Term.apply, Term.setCursorVisibleCalls, Term.setCursorVisible]
    split_ifs
    · exact ⟨(h.cellCalls hspace _ _).append (hshown.cellCalls hspace _ _),
        hshown.redrawn (drawCell_redrawn _ _ _)⟩
    · exact ⟨.nil, h⟩

/-- Whatever is done to a terminal, as long as the glyphs of the characters that it shows are found:
each call of `gfx_draw_char` reads the glyphs of its characters. -/
theorem glyphs_read (hwf : font.WellFormed glyphs) (hspace : font.Finds 0x20#8) {gfx : Gfx}
    (hgfx : gfx.font = font) {trace : List (Transition Term Op)}
    (run : Reaches (Traced (Step files)) (zero gfx) trace t)
    (hbytes : ∀ u ∈ trace, u.before.Finds font files u.label) :
    ∀ u ∈ trace, ∀ call ∈ u.before.calls files u.label, call.InGlyph glyphs := by
  suffices hall : (∀ u ∈ trace, AllFound font (u.before.calls files u.label)) ∧
      Findable font t by
    intro u hu call hcall
    obtain ⟨hfont, hfinds⟩ := hall.1 u hu call hcall
    subst hfont
    exact CharCall.inGlyph_of_finds hwf hfinds
  induction run with
  | start =>
    exact ⟨fun u hu => absurd hu List.not_mem_nil, hgfx, fun _ => Or.inl rfl⟩
  | @snoc trace t t' u _ hlast ih =>
    obtain ⟨hlabel, hbefore⟩ := List.forall_mem_cons.mp hbytes
    obtain ⟨hcalls, hfindable⟩ := ih hbefore
    obtain ⟨hsame, -, hstep⟩ := hlast
    obtain ⟨hfound, hafter⟩ := hfindable.apply files hspace (hsame ▸ hlabel)
    rw [hstep]
    exact ⟨List.forall_mem_cons.mpr ⟨hsame ▸ hfound, hcalls⟩, hafter⟩

/-- A window of two by two cells. -/
def sampleGfx : Gfx := ⟨fun _ => 0, 16, 16, 16, sampleFont⟩

/-- The terminal of the window. -/
def sampleTerm : Term := (zero sampleGfx).apply (fun _ => none) (.init 16 16)

/-- An escape sequence with a byte that has its high bit set, and a letter. -/
def sampleText : List (BitVec 8) := [0x1b#8, 0x5b#8, 0x80#8, 0x41#8]

/-- Of the escape sequence nothing is drawn. Of the letter a glyph is read, and of the empty cell
behind it. -/
theorem glyphs_read_sampleFont : ∃ t, Reaches (Traced (Step fun _ => none)) (zero sampleGfx)
    [⟨sampleTerm, .write sampleText, t⟩, ⟨zero sampleGfx, .init 16 16, sampleTerm⟩] t ∧
    (sampleTerm.calls (fun _ => none) (.write sampleText)).map CharCall.c = [0x41#8, 0x20#8] ∧
    ∀ call ∈ sampleTerm.calls (fun _ => none) (.write sampleText), call.InGlyph 256 := by
  have hwf : sampleFont.WellFormed 256 := ⟨by decide, by decide, by decide⟩
  have run : Reaches (Traced (Step fun _ => none)) (zero sampleGfx)
      [⟨sampleTerm, .write sampleText, _⟩, ⟨zero sampleGfx, .init 16 16, sampleTerm⟩]
      (sampleTerm.apply (fun _ => none) (.write sampleText)) :=
    (Reaches.start.next rfl).next rfl
  have hshown : sampleTerm.Finds sampleFont (fun _ => none) (.write sampleText) :=
    ⟨fun _ => by decide, fun _ => by decide,
      fun hshown => absurd hshown (by decide +kernel), fun _ => by decide, trivial⟩
  have hall := glyphs_read hwf (by decide) rfl run (List.forall_mem_cons.mpr
    ⟨hshown, List.forall_mem_cons.mpr ⟨trivial, List.forall_mem_nil _⟩⟩)
  exact ⟨_, run, by decide +kernel, hall _ List.mem_cons_self⟩

/-- A byte with its high bit set is written. The offset of its glyph is almost 4 GiB. -/
theorem glyph_missed : sampleFont.WellFormed 256 ∧
    ∃ t, Reaches (Step fun _ => none) (zero sampleGfx) [.init 16 16] t ∧
      ∃ call ∈ t.calls (fun _ => none) (.write [0x80#8]), ¬call.InGlyph 256 := by
  refine ⟨⟨by decide, by decide, by decide⟩, _, Reaches.start.snoc rfl, ?_⟩
  decide +kernel

end Term

end OpenIDP.Userspace
