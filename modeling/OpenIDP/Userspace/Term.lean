import OpenIDP.Userspace.Gfx

/-!
# The terminal

`src/userspace/terminal/term.c` keeps a grid of cells, draws them, and collects the part of the
window that it has drawn into in `last_update`. Strings are lists of bytes that end at the first
zero.

The arithmetic of `int` is that of the integers, as it is in windows and grids of fewer than
`2 ^ 31` pixels and cells. `malloc(0)` is `NULL`, and other allocations succeed. The indices of
cells that are accessed although the buffer does not have them are recorded in `strays`.

## Main definitions

* `Cell`, `AnsiState`, `Term` — the data
* `Term.putChar`, `Term.scroll`, `Term.redrawFull`, `Term.drawCell` — the grid
* `Term.init`, `Term.resize`, `Term.clear`, `Term.setCursorVisible`, `Term.write` — the functions
  that programs call
-/

namespace OpenIDP.Userspace

open OpenIDP.Math

/-- `DEFAULT_BG` -/
def defaultBg : BitVec 32 := 0x00181825#32

/-- `DEFAULT_FG` -/
def defaultFg : BitVec 32 := 0x00bac2de#32

/-- `ANSI_COLORS` -/
def ansiColors : List (BitVec 32) :=
  [0x00181825#32, 0x00f38ba8#32, 0x00a6e3a1#32, 0x00f9e2af#32, 0x0089b4fa#32, 0x00cba6f7#32,
    0x006c7086#32, 0x00bac2de#32]

/-- `term_cell_t` -/
structure Cell where
  c : BitVec 8
  fg : BitVec 32
  bg : BitVec 32

/-- `ansi_state_t` -/
inductive AnsiState
  | normal
  | esc
  | csi
  | osc
  deriving DecidableEq

/-- `term_t`, with the drawing context it points to. `textBuffer` is the number of cells that were
allocated, if any. -/
structure Term where
  gfx : Gfx
  textBuffer : Option ℤ
  cells : ℤ → Cell
  strays : List ℤ
  cols : ℤ
  rows : ℤ
  cursorX : ℤ
  cursorY : ℤ
  showCursor : ℤ
  fgColor : BitVec 32
  bgColor : BitVec 32
  lastUpdate : Rect
  dirty : Bool
  ansiState : AnsiState
  ansiParams : ℕ → ℤ
  ansiParamCount : ℕ
  oscBuffer : List (BitVec 8)

/-- An `int` that has overflowed. -/
def wrapInt (n : ℤ) : ℤ := toInt32 (n % 2 ^ 32).toNat

theorem wrapInt_of_bounds {n : ℤ} (hlow : -2 ^ 31 ≤ n) (hhigh : n < 2 ^ 31) : wrapInt n = n := by
  rw [wrapInt, toInt32]
  split_ifs
  all_goals omega

namespace Term

variable (t : Term)

/-- The buffer has a cell with this index. -/
def HasCell (i : ℤ) : Prop := ∃ size ∈ t.textBuffer, 0 ≤ i ∧ i < size

instance (i : ℤ) : Decidable (t.HasCell i) := inferInstanceAs (Decidable (∃ size ∈ t.textBuffer, _))

/-- Cells are accessed. -/
def touch (indices : List ℤ) : Term :=
  { t with strays := t.strays ++ indices.filter fun i => ¬t.HasCell i }

/-- Writes a cell. -/
def setCell (i : ℤ) (cell : Cell) : Term :=
  { t.touch [i] with cells := Function.update t.cells i cell }

/-- `gfx_font_width` -/
def fontWidth : ℤ := t.gfx.font.width

/-- `gfx_font_height` -/
def fontHeight : ℤ := t.gfx.font.height

/-- `add_dirty_cell` -/
def addDirtyCell (col row : ℤ) : Term :=
  let x := col * t.fontWidth
  let y := row * t.fontHeight
  let r := t.lastUpdate
  if t.dirty = false then
    { t with lastUpdate := ⟨x, y, t.fontWidth, t.fontHeight⟩, dirty := true }
  else
    let minX := if x < r.x then x else r.x
    let minY := if y < r.y then y else r.y
    let maxX := if r.x + r.w < x + t.fontWidth then x + t.fontWidth else r.x + r.w
    let maxY := if r.y + r.h < y + t.fontHeight then y + t.fontHeight else r.y + r.h
    { t with lastUpdate := ⟨minX, minY, maxX - minX, maxY - minY⟩ }

/-- The cell has the cursor, which is shown. -/
def isCursor (x y : ℤ) : Bool := t.showCursor ≠ 0 ∧ x = t.cursorX ∧ y = t.cursorY

/-- The character and the colours with which `draw_cell` draws a cell. -/
def look (x y : ℤ) : Cell :=
  let cell := t.cells (y * t.cols + x)
  let c := if cell.c = 0#8 then 0x20#8 else cell.c
  if t.isCursor x y then ⟨c, cell.bg, cell.fg⟩ else ⟨c, cell.fg, cell.bg⟩

/-- `draw_cell` -/
def drawCell (x y : ℤ) : Term :=
  if t.textBuffer = none then t
  else
    let t₁ := t.touch [y * t.cols + x]
    let cell := t₁.look x y
    let gfx := t₁.gfx.drawChar (x * t.fontWidth) (y * t.fontHeight) cell.c cell.fg cell.bg
    { t₁ with gfx := gfx }.addDirtyCell x y

/-- The cells of the grid, row after row. -/
def grid : List (ℤ × ℤ) :=
  (List.range t.rows.toNat).flatMap fun y : ℕ => (List.range t.cols.toNat).map fun x : ℕ =>
    ((x : ℤ), (y : ℤ))

/-- The part of `term_redraw_full` that looks at a cell. -/
def redrawCell (x y : ℤ) : Term :=
  let t₁ := t.touch [y * t.cols + x]
  let cell := t₁.cells (y * t.cols + x)
  let t₂ := if (cell.c ≠ 0#8 ∧ cell.c ≠ 0x20#8) ∨ cell.bg ≠ defaultBg then t₁.drawCell x y else t₁
  if t₂.isCursor x y then t₂.drawCell x y else t₂

/-- `term_redraw_full` -/
def redrawFull : Term :=
  let t₁ := { t with gfx := t.gfx.clear defaultBg }
  let t₂ := t.grid.foldl (fun t q => t.redrawCell q.1 q.2) t₁
  { t₂ with lastUpdate := ⟨0, 0, t₂.gfx.width, t₂.gfx.height⟩, dirty := true }

/-- The indices from `start`. -/
def indices (start count : ℤ) : List ℤ := (List.range count.toNat).map fun i : ℕ => start + i

/-- The part of `term_scroll` that moves the rows up. -/
def moveRows : Term :=
  let moved := (t.rows - 1) * t.cols
  { (t.touch (indices t.cols moved)).touch (indices 0 moved) with
    cells := writeAll t.cells ((indices 0 moved).map fun i => (i, t.cells (i + t.cols))) }

/-- The part of `term_scroll` that clears the last row. -/
def clearLastRow : Term :=
  let lastRow := indices ((t.rows - 1) * t.cols) t.cols
  { t.touch lastRow with
    cells := writeAll t.cells (lastRow.map fun i => (i, ⟨0#8, t.fgColor, t.bgColor⟩)) }

/-- The part of `term_scroll` before the redraw. -/
def scrolled : Term :=
  let t₁ := t.moveRows.clearLastRow
  { t₁ with cursorY := if 0 < t₁.cursorY then t₁.cursorY - 1 else t₁.cursorY }

/-- `term_scroll` -/
def scroll : Term := if t.textBuffer = none then t else t.scrolled.redrawFull

/-- `apply_ansi_code` -/
def applyAnsiCode (code : ℤ) : Term :=
  if code = 0 then { t with fgColor := defaultFg, bgColor := defaultBg }
  else if 30 ≤ code ∧ code ≤ 37 then
    { t with fgColor := ansiColors.getD (code - 30).toNat 0 }
  else if 40 ≤ code ∧ code ≤ 47 then
    { t with bgColor := ansiColors.getD (code - 40).toNat 0 }
  else t

/-- `term_process_ansi_end` -/
def processAnsiEnd (terminator : BitVec 8) : Term :=
  let t₁ :=
    if terminator = 0x6d#8 then
      if t.ansiParamCount = 0 then t.applyAnsiCode 0
      else (List.range t.ansiParamCount).foldl (fun t i => t.applyAnsiCode (t.ansiParams i)) t
    else t
  { t₁ with
    ansiState := .normal
    ansiParamCount := 0
    ansiParams := Function.update t₁.ansiParams 0 0 }

/-- The part of `term_resize` that moves the cursor into the grid. -/
def clampCursor : Term :=
  { t with
    cursorX := if t.cols ≤ t.cursorX then t.cols - 1 else t.cursorX
    cursorY := if t.rows ≤ t.cursorY then t.rows - 1 else t.cursorY }

/-- The part of `term_resize` before the redraw. -/
def regrid (width height : ℤ) : Term :=
  let newCols := width.tdiv t.fontWidth
  let newRows := height.tdiv t.fontHeight
  let size := newCols * newRows
  let newBuf : Option ℤ := if 0 < size then some size else none
  let cleared := writeAll t.cells ((indices 0 size).map fun i => (i, ⟨0#8, defaultFg, defaultBg⟩))
  let cells :=
    if t.textBuffer = none then cleared
    else
      let copyRows := if t.rows < newRows then t.rows else newRows
      let copyCols := if t.cols < newCols then t.cols else newCols
      writeAll cleared ((List.range copyRows.toNat).flatMap fun y : ℕ =>
        (List.range copyCols.toNat).map fun x : ℕ =>
          ((y * newCols + x : ℤ), t.cells (y * t.cols + x)))
  let t₁ := { t with textBuffer := newBuf, cells := cells, cols := newCols, rows := newRows }
  t₁.clampCursor

/-- `term_resize` -/
def resize (width height : ℤ) : Term := (t.regrid width height).redrawFull

/-- The part of `term_init` before the grid gets its size. -/
def reset (gfx : Gfx) : Term :=
  { t with
    gfx := gfx
    fgColor := defaultFg
    bgColor := defaultBg
    cursorX := 0
    cursorY := 0
    showCursor := 1
    textBuffer := none
    ansiState := .normal
    ansiParamCount := 0 }

/-- `term_init` -/
def init (gfx : Gfx) : Term := (t.reset gfx).resize gfx.width gfx.height

/-- What `MSG_WINDOW_RESIZE` does to the terminal. -/
def resizeWindow (width height : ℤ) : Term :=
  { t with gfx := t.gfx.withSize width height }.resize width height

/-- The part of `term_clear` that clears the cells. -/
def clearCells : Term :=
  if t.textBuffer = none then t
  else
    let all := indices 0 (t.cols * t.rows)
    { t.touch all with
      cells := writeAll t.cells (all.map fun i => (i, ⟨0#8, t.fgColor, t.bgColor⟩)) }

/-- `term_clear` -/
def clear : Term := { t.clearCells with cursorX := 0, cursorY := 0 }.redrawFull

/-- `term_set_cursor_visible` -/
def setCursorVisible (visible : ℤ) : Term :=
  if t.showCursor ≠ visible then
    let t₁ := t.drawCell t.cursorX t.cursorY
    let t₂ := { t₁ with showCursor := visible }
    t₂.drawCell t₂.cursorX t₂.cursorY
  else t

/-- The part of `term_put_char` that goes back a cell and erases it. -/
def erase : Term :=
  let t₁ :=
    if 0 < t.cursorX then { t with cursorX := t.cursorX - 1 }
    else if 0 < t.cursorY then { t with cursorX := t.cols - 1, cursorY := t.cursorY - 1 }
    else t
  t₁.setCell (t₁.cursorY * t₁.cols + t₁.cursorX) ⟨0#8, t₁.fgColor, t₁.bgColor⟩

/-- The part of `term_put_char` that writes a cell and goes on to the next. -/
def put (c : BitVec 8) : Term :=
  let t₁ := t.setCell (t.cursorY * t.cols + t.cursorX) ⟨c, t.fgColor, t.bgColor⟩
  if t₁.cols ≤ t₁.cursorX + 1 then { t₁ with cursorX := 0, cursorY := t₁.cursorY + 1 }
  else { t₁ with cursorX := t₁.cursorX + 1 }

/-- The part of `term_put_char` that changes the grid and moves the cursor. -/
def advance (c : BitVec 8) : Term :=
  if c = 0x0a#8 then { t with cursorX := 0, cursorY := t.cursorY + 1 }
  else if c = 0x08#8 then t.erase
  else t.put c

/-- `term_put_char` -/
def putChar (c : BitVec 8) : Term :=
  let t₁ := t.advance c
  if t₁.rows ≤ t₁.cursorY then t₁.scroll
  else
    let t₂ := t₁.drawCell t.cursorX t.cursorY
    t₂.drawCell t₂.cursorX t₂.cursorY

/-- The part of `term_write` that draws an image. `files` is what `load_file_to_memory` gives. -/
def drawOsc (files : List (BitVec 8) → Option Image) : Term :=
  if t.oscBuffer.take 3 = [0x36#8, 0x39#8, 0x3b#8] then
    match files (t.oscBuffer.drop 3) with
    | some img =>
      { t with
        gfx := t.gfx.drawImage (t.cursorX * t.fontWidth) (t.cursorY * t.fontHeight) img
        lastUpdate := ⟨0, 0, t.gfx.width, t.gfx.height⟩
        dirty := true }
    | none => t
  else t

/-- The body of the loop of `term_write`. -/
def writeByte (files : List (BitVec 8) → Option Image) (c : BitVec 8) : Term :=
  match t.ansiState with
  | .esc =>
    if c = 0x5b#8 then
      { t with
        ansiState := .csi
        ansiParamCount := 0
        ansiParams := Function.update t.ansiParams 0 0 }
    else if c = 0x5d#8 then { t with ansiState := .osc, oscBuffer := [] }
    else { t with ansiState := .normal }.putChar c
  | .osc =>
    if c = 0x07#8 then { t.drawOsc files with ansiState := .normal }
    else if t.oscBuffer.length < 127 then { t with oscBuffer := t.oscBuffer ++ [c] }
    else t
  | .csi =>
    if 0x30 ≤ c.toInt ∧ c.toInt ≤ 0x39 then
      { t with
        ansiParams := Function.update t.ansiParams t.ansiParamCount
          (wrapInt (t.ansiParams t.ansiParamCount * 10 + (c.toInt - 0x30))) }
    else if c = 0x3b#8 then
      if t.ansiParamCount < 3 then
        { t with
          ansiParamCount := t.ansiParamCount + 1
          ansiParams := Function.update t.ansiParams (t.ansiParamCount + 1) 0 }
      else t
    else
      let t₁ :=
        if t.ansiParamCount = 0 ∧ t.ansiParams 0 = 0 then t
        else { t with ansiParamCount := t.ansiParamCount + 1 }
      t₁.processAnsiEnd c
  | .normal =>
    if c = 0x1b#8 then { t with ansiState := .esc } else t.putChar c

/-- `term_write` -/
def write (files : List (BitVec 8) → Option Image) (str : List (BitVec 8)) : Term :=
  (str.takeWhile fun c => c ≠ 0#8).foldl (fun t c => t.writeByte files c) t

/-- The static variable before it is initialised. -/
def zero (gfx : Gfx) : Term where
  gfx := gfx
  textBuffer := none
  cells _ := ⟨0, 0, 0⟩
  strays := []
  cols := 0
  rows := 0
  cursorX := 0
  cursorY := 0
  showCursor := 0
  fgColor := 0
  bgColor := 0
  lastUpdate := ⟨0, 0, 0, 0⟩
  dirty := false
  ansiState := .normal
  ansiParams _ := 0
  ansiParamCount := 0
  oscBuffer := []

end Term

end OpenIDP.Userspace
