import OpenIDP.Userspace.Desktop
import OpenIDP.Userspace.WmDraw

/-!
# Drawing all windows

A model of `wm_draw` and `wm_present` in `src/userspace/idpwm.c`. The back buffer is cleared, each
window is drawn with its border and the contents of its buffer, and everything is copied to the
framebuffer. Refreshing what clients have announced gives the same bytes.

## Main definitions

* `Wm.repaint` — `wm_draw`, then `wm_present`
* `Display.refresh` — the deferred rendering

## Main results

* `Wm.repaint_deferred` — refreshing is as good as drawing everything
-/

namespace OpenIDP.Userspace

open OpenIDP.Math OpenIDP.Process

/-- A buffer of bytes. -/
abbrev Buffer := ℤ → BitVec 8

/-- `memcpy` from one buffer to another. -/
def copyBytes (src : Buffer) (dst : Buffer) (row : RowCopy) : Buffer := fun o =>
  if row.dst ≤ o ∧ o < row.dst + row.n then src (row.src + (o - row.dst)) else dst o

/-- Several rows are copied, one after the other. -/
def copyAll (src dst : Buffer) (rows : List RowCopy) : Buffer := rows.foldl (copyBytes src) dst

/-- A pixel is stored, least significant byte first. -/
def storePixel (color : BitVec 32) (dst : Buffer) (offset : ℤ) : Buffer := fun o =>
  if offset ≤ o ∧ o < offset + 4 then color.extractLsb' (8 * (o - offset).toNat) 8 else dst o

/-- `fb_fill_rect` -/
def fillRect (frame : Frame) (color : BitVec 32) (r : Rect) (fb : Buffer) : Buffer :=
  if r.w ≤ 0 ∨ r.h ≤ 0 then fb
  else
    let w := if r.x < 0 then int32 (r.w + r.x) else r.w
    let x := if r.x < 0 then 0 else r.x
    let h := if r.y < 0 then int32 (r.h + r.y) else r.h
    let y := if r.y < 0 then 0 else r.y
    let w :=
      if frame.fbWidth < toU64 (int32 (x + w)) then toInt32 (toU64 (frame.fbWidth - x)) else w
    let h :=
      if frame.fbHeight < toU64 (int32 (y + h)) then toInt32 (toU64 (frame.fbHeight - y)) else h
    let stridePixels := frame.pitchBytes.tdiv 4
    (List.range h.toNat).foldl (fun fb (yy : ℕ) =>
      (List.range w.toNat).foldl (fun fb (xx : ℕ) =>
        storePixel color fb ((int32 (int32 (y + yy) * stridePixels) + x + xx) * 4)) fb) fb

/-- `fb_draw_border` with a border of four pixels. -/
def drawBorder (frame : Frame) (color : BitVec 32) (r : Rect) (fb : Buffer) : Buffer :=
  if r.w < 8 ∨ r.h < 8 then fb
  else
    fillRect frame color ⟨int32 (r.x + r.w - 4), int32 (r.y + 4), 4, int32 (r.h - 8)⟩
      (fillRect frame color ⟨r.x, int32 (r.y + 4), 4, int32 (r.h - 8)⟩
        (fillRect frame color ⟨r.x, int32 (r.y + r.h - 4), r.w, 4⟩
          (fillRect frame color ⟨r.x, r.y, r.w, 4⟩ fb)))

/-- The part of `render_recursive` that draws a window. -/
def Window.draw (frame : Frame) (win : Window) (borderCol : BitVec 32) (buffers : ℕ → Buffer)
    (fb : Buffer) : Buffer :=
  let fb := drawBorder frame borderCol win.rect fb
  let cw := int32 (win.width - 8)
  let ch := int32 (win.height - 8)
  if 0 < cw ∧ 0 < ch ∧ win.bufferWmPtr ≠ 0 then
    copyAll (buffers win.bufferWmPtr) fb
      (copyRows ch (int32 (int32 (win.y + 4) * frame.pitchBytes) + int32 (int32 (win.x + 4) * 4))
        frame.pitchBytes 0 (int32 (win.width * 4)) (toU64 (int32 (cw * 4))))
  else fb

/-- `back_buffer_size` -/
def Frame.backBufferSize (frame : Frame) : ℤ := int32 (frame.pitchBytes * frame.fbHeight)

/-- The back buffer and the framebuffer. -/
structure Display where
  back : Buffer
  fb : Buffer

namespace Wm

variable (s : Wm) (frame : Frame) (buffers : ℕ → Buffer)

/-- The window of a leaf, if it is alive. -/
def leafWindow (index : ℕ) : Option ℕ :=
  if (s.nodes index).isLeaf then (s.nodes index).win.filter fun slot => (s.windows slot).alive
  else none

/-- The border of the focused leaf has another color. -/
def borderCol (index : ℕ) : BitVec 32 :=
  if s.focusedNode = some index then 0xff585b70#32 else 0xff313244#32

/-- `render_recursive` -/
def renderRecursive : ℕ → Option ℕ → Buffer → Option Buffer
  | 0, _, _ => none
  | _, none, fb => some fb
  | fuel + 1, some index, fb =>
    match s.leafWindow index with
    | some slot => some ((s.windows slot).draw frame (s.borderCol index) buffers fb)
    | none => do
      let fb ← renderRecursive fuel (s.nodes index).left fb
      renderRecursive fuel (s.nodes index).right fb

/-- `wm_draw` and `wm_present` -/
def repaint (d : Display) : Option Display := do
  let size := toU64 frame.backBufferSize
  let back ← s.renderRecursive frame buffers (maxNodes + 1) s.root fun o =>
    if 0 ≤ o ∧ o < size then 0x20#8 else d.back o
  some ⟨back, fun o => if 0 ≤ o ∧ o < size then back o else d.fb o⟩

/-- What is copied for a window. -/
def refresh (d : Display) (r : Refresh) : Display :=
  let back := copyAll (buffers (s.windows r.slot).bufferWmPtr) d.back r.rows
  ⟨back, copyAll back d.fb r.present⟩

/-- The deferred rendering. -/
def render (dirtyMap : ℕ → DirtyState) (d : Display) : Display :=
  (s.deferred frame dirtyMap).foldl (s.refresh buffers) d

end Wm

/-- A byte of a buffer with a pitch is in a rectangle of pixels. -/
def Rect.HasByte (r : Rect) (pitch o : ℤ) : Prop :=
  r.y ≤ o / pitch ∧ o / pitch < r.y + r.h ∧ r.x * 4 ≤ o % pitch ∧ o % pitch < (r.x + r.w) * 4

instance (r : Rect) (pitch o : ℤ) : Decidable (r.HasByte pitch o) :=
  inferInstanceAs (Decidable (_ ∧ _ ∧ _ ∧ _))

section Bytes

variable {r r' outer : Rect} {pitch o : ℤ}

theorem Rect.HasByte.mem (h : r.HasByte pitch o) : r.Mem (o % pitch / 4) (o / pitch) := by
  obtain ⟨htop, hbottom, hleft, hright⟩ := h
  exact ⟨by omega, by omega, htop, hbottom⟩

theorem Rect.HasByte.inside (h : r.HasByte pitch o) (hin : r.Inside outer) :
    outer.HasByte pitch o := by
  obtain ⟨htop, hbottom, hleft, hright⟩ := h
  obtain ⟨hl, hr, ht, hb, -, -⟩ := hin
  exact ⟨by omega, by omega, by omega, by omega⟩

/-- A byte has one place in its row. -/
theorem row_byte {y b : ℤ} (hlow : 0 ≤ b) (hhigh : b < pitch) :
    (y * pitch + b) / pitch = y ∧ (y * pitch + b) % pitch = b := by
  have hpos : 0 < pitch := hlow.trans_lt hhigh
  rw [add_comm, Int.add_mul_ediv_right _ _ hpos.ne', Int.add_mul_emod_self_right,
    Int.ediv_eq_zero_of_lt hlow hhigh, Int.emod_eq_of_lt hlow hhigh]
  exact ⟨zero_add y, rfl⟩

theorem byte_row (hpos : 0 < pitch) (o : ℤ) :
    o / pitch * pitch + o % pitch = o ∧ 0 ≤ o % pitch ∧ o % pitch < pitch :=
  ⟨Int.ediv_mul_add_emod o pitch, Int.emod_nonneg o hpos.ne', Int.emod_lt_of_pos o hpos⟩

variable {src dst : Buffer} {rows : List RowCopy}

theorem copyAll_of_not (h : ∀ row ∈ rows, ¬(row.dst ≤ o ∧ o < row.dst + row.n)) :
    copyAll src dst rows o = dst o := by
  induction rows generalizing dst with
  | nil => rfl
  | cons row rows ih =>
    obtain ⟨hrow, hrows⟩ := List.forall_mem_cons.mp h
    exact (ih hrows).trans (if_neg hrow)

/-- A byte that is copied, by whichever row. -/
theorem copyAll_of_mem {v : BitVec 8} (hmem : ∃ row ∈ rows, row.dst ≤ o ∧ o < row.dst + row.n)
    (hall : ∀ row ∈ rows, row.dst ≤ o ∧ o < row.dst + row.n →
      src (row.src + (o - row.dst)) = v) : copyAll src dst rows o = v := by
  induction rows generalizing dst with
  | nil =>
    obtain ⟨row, hrow, -⟩ := hmem
    exact absurd hrow List.not_mem_nil
  | cons row rows ih =>
    obtain ⟨hrow, hrows⟩ := List.forall_mem_cons.mp hall
    by_cases hrest : ∃ row ∈ rows, row.dst ≤ o ∧ o < row.dst + row.n
    · exact ih hrest hrows
    · have hnot : ∀ row ∈ rows, ¬(row.dst ≤ o ∧ o < row.dst + row.n) := fun row hrow hcover =>
        hrest ⟨row, hrow, hcover⟩
      have hcover : row.dst ≤ o ∧ o < row.dst + row.n := by
        obtain ⟨row', hrow', hcover⟩ := hmem
        rcases List.mem_cons.mp hrow' with rfl | hrow'
        · exact hcover
        · exact absurd hcover (hnot row' hrow')
      exact (copyAll_of_not hnot).trans ((if_pos hcover).trans (hrow hcover))

/-- The bytes of a rectangle are copied. -/
theorem copyRows_eq {x y w h start stride : ℤ} (hx : 0 ≤ x) (hw : 0 ≤ w)
    (hright : (x + w) * 4 ≤ pitch) (hpos : 0 < pitch) (o : ℤ) :
    copyAll src dst (copyRows h (y * pitch + x * 4) pitch start stride (w * 4).toNat) o =
      if Rect.HasByte ⟨x, y, w, h⟩ pitch o then
        src (start + (o / pitch - y) * stride + (o % pitch - x * 4))
      else dst o := by
  obtain ⟨ho, hlow, hhigh⟩ := byte_row hpos o
  -- the row of a byte, counted from the first row that is copied
  have hrow : ∀ i : ℕ, (y * pitch + x * 4 + i * pitch ≤ o ∧
      o < y * pitch + x * 4 + i * pitch + (w * 4).toNat) →
        o / pitch = y + i ∧ x * 4 ≤ o % pitch ∧ o % pitch < (x + w) * 4 := by
    intro i hi
    have hsum : o = (y + i) * pitch + (o - (y + i) * pitch) := by ring
    rw [add_mul] at hsum
    have hplace := row_byte (y := y + i) (b := o - (y + i) * pitch)
      (by rw [add_mul]; omega) (by rw [add_mul]; omega : o - (y + i) * pitch < pitch)
    rw [add_sub_cancel] at hplace
    rw [hplace.1, hplace.2, add_mul y]
    omega
  by_cases hin : Rect.HasByte ⟨x, y, w, h⟩ pitch o
  · rw [if_pos hin]
    obtain ⟨htop, hbottom, hleft, hrightO⟩ := hin
    simp only at htop hbottom hleft hrightO
    have hcast : ((o / pitch - y).toNat : ℤ) = o / pitch - y := Int.toNat_of_nonneg (by omega)
    refine copyAll_of_mem ⟨_, List.mem_map.mpr ⟨(o / pitch - y).toNat,
      List.mem_range.mpr (by omega), rfl⟩, ?_⟩ fun row hmem hcover => ?_
    · simp only [hcast, sub_mul]
      omega
    · obtain ⟨i, -, rfl⟩ := List.mem_map.mp hmem
      obtain ⟨hi, -, -⟩ := hrow i hcover
      refine congrArg src ?_
      have hi' : (i : ℤ) = o / pitch - y := by omega
      simp only [hi', sub_mul]
      omega
  · rw [if_neg hin]
    refine copyAll_of_not fun row hmem hcover => hin ?_
    obtain ⟨i, hi, rfl⟩ := List.mem_map.mp hmem
    have hi := List.mem_range.mp hi
    obtain ⟨hline, hleft, hrightO⟩ := hrow i hcover
    exact ⟨by simp only; omega, by simp only; omega, hleft, hrightO⟩

/-- Drawing that does not look at the buffer it draws into, and stays in a rectangle. -/
def Paints (pitch : ℤ) (r : Rect) (f : Buffer → Buffer) : Prop :=
  ∃ paint : ℤ → Option (BitVec 8), (∀ o, paint o ≠ none → r.HasByte pitch o) ∧
    ∀ fb o, f fb o = (paint o).getD (fb o)

namespace Paints

variable {f g : Buffer → Buffer}

theorem id : Paints pitch r fun fb => fb :=
  ⟨fun _ => none, fun _ h => absurd rfl h, fun _ _ => rfl⟩

theorem comp (hg : Paints pitch r g) (hf : Paints pitch r f) :
    Paints pitch r fun fb => g (f fb) := by
  obtain ⟨paint, hin, heq⟩ := hf
  obtain ⟨paint', hin', heq'⟩ := hg
  refine ⟨fun o => (paint' o).or (paint o), fun o ho => ?_, fun fb o => ?_⟩
  · cases hpaint : paint' o with
    | none =>
      simp only [hpaint, Option.none_or] at ho
      exact hin o ho
    | some v => exact hin' o (hpaint ▸ Option.some_ne_none v)
  · simp only [heq', heq]
    cases paint' o
    · rfl
    · rfl

theorem mono (hf : Paints pitch r f) (hr : ∀ o, r.HasByte pitch o → r'.HasByte pitch o) :
    Paints pitch r' f := by
  obtain ⟨paint, hin, heq⟩ := hf
  exact ⟨paint, fun o ho => hr o (hin o ho), heq⟩

theorem foldl {α : Type} {l : List α} {step : Buffer → α → Buffer}
    (h : ∀ a ∈ l, Paints pitch r fun fb => step fb a) :
    Paints pitch r fun fb => l.foldl step fb := by
  induction l with
  | nil => exact id
  | cons a l ih =>
    obtain ⟨ha, hl⟩ := List.forall_mem_cons.mp h
    exact (ih hl).comp ha

theorem storePixel {color : BitVec 32} {offset : ℤ}
    (h : ∀ o, offset ≤ o ∧ o < offset + 4 → r.HasByte pitch o) :
    Paints pitch r fun fb => storePixel color fb offset := by
  refine ⟨fun o => if offset ≤ o ∧ o < offset + 4 then
    some (color.extractLsb' (8 * (o - offset).toNat) 8) else none, fun o ho => ?_, fun fb o => ?_⟩
  · by_contra hnot
    exact ho (if_neg fun hin => hnot (h o hin))
  · simp only [Userspace.storePixel]
    split_ifs
    · rfl
    · rfl

end Paints

end Bytes

/-- Pixels are words of four bytes, and the frame has small offsets. -/
structure Frame.Aligned (frame : Frame) : Prop extends frame.Small where
  words : frame.fbPitch % 4 = 0
  width : frame.fbWidth < 2 ^ 31
  height : frame.fbHeight < 2 ^ 31

section Draw

variable {frame : Frame} {r : Rect} {color : BitVec 32}

/-- With pixels in a row, the height is an `int`. -/
theorem Frame.Small.height_lt (hsmall : frame.Small) (hw : 0 < frame.fbWidth) :
    frame.fbHeight < 2 ^ 31 := by
  obtain ⟨hpitch, hsize⟩ := hsmall
  exact (Nat.le_mul_of_pos_left _ (by omega)).trans_lt hsize

/-- What is known of the numbers of a rectangle on the screen. -/
theorem Frame.Small.rect (hsmall : frame.Small) (hin : r.Inside frame.visible) (hw : 0 < r.w)
    (hh : 0 < r.h) : frame.pitchBytes = frame.fbPitch ∧ 0 ≤ r.x ∧ 0 ≤ r.y ∧
      r.x + r.w ≤ frame.fbWidth ∧ r.y + r.h ≤ frame.fbHeight ∧
      (frame.fbWidth : ℤ) * 4 ≤ frame.fbPitch ∧ (frame.fbPitch : ℤ) < 2 ^ 31 ∧
      (frame.fbHeight : ℤ) < 2 ^ 31 := by
  obtain ⟨hleft, hright, htop, hbottom, -, -⟩ := hin
  simp only [Frame.visible, zero_add] at hleft hright htop hbottom
  have hheight : 0 < frame.fbHeight := by omega
  have hpitch := hsmall.pitch_lt hheight
  have hheight' := hsmall.height_lt (by omega)
  exact ⟨hsmall.pitchBytes hheight, hleft, htop, hright, hbottom, hsmall.int.1, by omega, by omega⟩

/-- A rectangle on the screen is filled. -/
theorem fillRect_paints (haligned : frame.Aligned) (hin : r.Inside frame.visible) :
    Paints frame.fbPitch r (fillRect frame color r) := by
  by_cases hempty : r.w ≤ 0 ∨ r.h ≤ 0
  · have hsame : fillRect frame color r = fun fb => fb := funext fun fb => if_pos hempty
    rw [hsame]
    exact .id
  rw [not_or, not_le, not_le] at hempty
  obtain ⟨hw, hh⟩ := hempty
  obtain ⟨hpitch, hx, hy, hright, hbottom, hpixels, hpitch32, hheight32⟩ :=
    haligned.toSmall.rect hin hw hh
  have hwords := haligned.words
  have hsumX : int32 (r.x + r.w) = r.x + r.w := int32_of_bounds (by omega) (by omega)
  have hsumY : int32 (r.y + r.h) = r.y + r.h := int32_of_bounds (by omega) (by omega)
  have hnotX : ¬frame.fbWidth < toU64 (r.x + r.w) := by
    have := toU64_of_nonneg (n := r.x + r.w) (by omega) (by omega)
    omega
  have hnotY : ¬frame.fbHeight < toU64 (r.y + r.h) := by
    have := toU64_of_nonneg (n := r.y + r.h) (by omega) (by omega)
    omega
  have hfill : fillRect frame color r = fun fb => (List.range r.h.toNat).foldl (fun fb (yy : ℕ) =>
      (List.range r.w.toNat).foldl (fun fb (xx : ℕ) => storePixel color fb
        ((int32 (int32 (r.y + yy) * frame.pitchBytes.tdiv 4) + r.x + xx) * 4)) fb) fb := by
    funext fb
    rw [fillRect, if_neg (by omega)]
    simp only [if_neg (not_lt.mpr hx), if_neg (not_lt.mpr hy), hsumX, hsumY, if_neg hnotX,
      if_neg hnotY]
  rw [hfill]
  refine .foldl fun yy hyy => .foldl fun xx hxx => .storePixel fun o ho => ?_
  have hyy := List.mem_range.mp hyy
  have hxx := List.mem_range.mp hxx
  -- the words of a row are the bytes of a row
  obtain ⟨stride, hstride⟩ : ∃ stride : ℤ, (frame.fbPitch : ℤ) = stride * 4 :=
    ⟨frame.fbPitch / 4, by omega⟩
  have hdiv : frame.pitchBytes.tdiv 4 = stride := by
    rw [hpitch, hstride]
    exact Int.mul_tdiv_cancel stride (by decide)
  have hlast := mul_row_le (y := r.y + yy) (h := frame.fbHeight) (p := frame.fbPitch) (by omega)
    (by omega)
  have hsize := haligned.toSmall.int.2
  have hrow : 0 ≤ (r.y + yy) * stride := Int.mul_nonneg (by omega) (by omega)
  have hbytes : (r.y + yy) * (frame.fbPitch : ℤ) = (r.y + yy) * stride * 4 := by
    rw [hstride, mul_assoc]
  rw [int32_of_bounds (n := r.y + yy) (by omega) (by omega), hdiv,
    int32_of_bounds (n := (r.y + yy) * stride) (by omega) (by omega)] at ho
  have hplace := row_byte (y := r.y + yy) (b := o - (r.y + yy) * frame.fbPitch) (by omega)
    (by omega : _ < (frame.fbPitch : ℤ))
  rw [add_sub_cancel] at hplace
  rw [Rect.HasByte, hplace.1, hplace.2]
  omega

/-- The border of a window on the screen is in the window. -/
theorem drawBorder_paints (haligned : frame.Aligned) (hin : r.Inside frame.visible) :
    Paints frame.fbPitch r (drawBorder frame color r) := by
  by_cases hsmall : r.w < 8 ∨ r.h < 8
  · have hsame : drawBorder frame color r = fun fb => fb := funext fun fb => if_pos hsmall
    rw [hsame]
    exact .id
  rw [not_or, not_lt, not_lt] at hsmall
  obtain ⟨-, hx, hy, hright, hbottom, hpixels, hpitch32, hheight32⟩ :=
    haligned.toSmall.rect hin (by omega) (by omega)
  have hpart : ∀ part : Rect, part.Inside r →
      Paints frame.fbPitch r (fillRect frame color part) := fun part hpart =>
    (fillRect_paints haligned (hpart.trans hin)).mono fun o ho => ho.inside hpart
  have hborder : drawBorder frame color r = fun fb =>
      fillRect frame color ⟨r.x + r.w - 4, r.y + 4, 4, r.h - 8⟩
        (fillRect frame color ⟨r.x, r.y + 4, 4, r.h - 8⟩
          (fillRect frame color ⟨r.x, r.y + r.h - 4, r.w, 4⟩
            (fillRect frame color ⟨r.x, r.y, r.w, 4⟩ fb))) := by
    funext fb
    rw [drawBorder, if_neg (by omega), int32_of_bounds (n := r.x + r.w - 4) (by omega) (by omega),
      int32_of_bounds (n := r.y + 4) (by omega) (by omega),
      int32_of_bounds (n := r.h - 8) (by omega) (by omega),
      int32_of_bounds (n := r.y + r.h - 4) (by omega) (by omega)]
  rw [hborder]
  refine .comp (hpart _ ?_) (.comp (hpart _ ?_) (.comp (hpart _ ?_) (hpart _ ?_)))
  all_goals
    constructor
    all_goals
      simp only
      omega

/-- Where the buffer of a window has a byte of the back buffer. -/
def Window.source (frame : Frame) (win : Window) (o : ℤ) : ℤ :=
  (o / frame.fbPitch - win.inner.y) * (win.width * 4) + (o % frame.fbPitch - win.inner.x * 4)

/-- A window on the screen is drawn: its contents are those of its buffer, and its border stays in
the window. -/
theorem Window.draw_eq {win : Window} (haligned : frame.Aligned)
    (hin : win.rect.Inside frame.visible) (borderCol : BitVec 32) :
    ∃ border : ℤ → Option (BitVec 8),
      (∀ o, border o ≠ none → win.rect.HasByte frame.fbPitch o) ∧
      ∀ buffers fb o, win.draw frame borderCol buffers fb o =
        if win.bufferWmPtr ≠ 0 ∧ win.inner.HasByte frame.fbPitch o then
          buffers win.bufferWmPtr (win.source frame o)
        else (border o).getD (fb o) := by
  have hpaints : Paints frame.fbPitch win.rect (drawBorder frame borderCol win.rect) :=
    drawBorder_paints haligned hin
  obtain ⟨border, hborder, hdraw⟩ := hpaints
  refine ⟨border, hborder, fun buffers fb o => ?_⟩
  by_cases hshown : 0 < win.width - 8 ∧ 0 < win.height - 8 ∧ win.bufferWmPtr ≠ 0
  · obtain ⟨hpitch, hx, hy, hright, hbottom, hpixels, hpitch32, hheight32⟩ :=
      haligned.toSmall.rect hin (by simp only [Window.rect]; omega)
        (by simp only [Window.rect]; omega)
    simp only [Window.rect] at hx hy hright hbottom
    have hlast := mul_row_le (y := win.y + 4) (h := frame.fbHeight) (p := frame.fbPitch) (by omega)
      (by omega)
    have hrow : 0 ≤ (win.y + 4) * (frame.fbPitch : ℤ) := Int.mul_nonneg (by omega) (by omega)
    have hsize := haligned.toSmall.int.2
    -- No product of the copy loop wraps for a window inside the screen.
    have hbytes : toU64 ((win.width - 8) * 4) = ((win.width - 8) * 4).toNat := by
      have := toU64_of_nonneg (n := (win.width - 8) * 4) (by omega) (by omega)
      omega
    rw [Window.draw]
    simp only [hpitch]
    rw [int32_of_bounds (n := win.width - 8) (by omega) (by omega),
      int32_of_bounds (n := win.height - 8) (by omega) (by omega), if_pos hshown,
      int32_of_bounds (n := win.y + 4) (by omega) (by omega),
      int32_of_bounds (n := win.x + 4) (by omega) (by omega),
      int32_of_bounds (n := (win.y + 4) * frame.fbPitch) (by omega) (by omega),
      int32_of_bounds (n := (win.x + 4) * 4) (by omega) (by omega),
      int32_of_bounds (n := win.width * 4) (by omega) (by omega),
      int32_of_bounds (n := (win.width - 8) * 4) (by omega) (by omega), hbytes,
      copyRows_eq (by omega) (by omega) (by omega) (by omega), hdraw, zero_add]
    by_cases hinner : win.inner.HasByte frame.fbPitch o
    · have hinner' : Rect.HasByte ⟨win.x + 4, win.y + 4, win.width - 8, win.height - 8⟩
        frame.fbPitch o := hinner
      rw [if_pos hinner', if_pos ⟨hshown.2.2, hinner⟩]
      rfl
    · have hinner' : ¬Rect.HasByte ⟨win.x + 4, win.y + 4, win.width - 8, win.height - 8⟩
        frame.fbPitch o := hinner
      rw [if_neg hinner', if_neg fun h => hinner h.2]
  -- A window without an inside, or without a buffer, shows its border alone.
  · have hnone : ¬(win.bufferWmPtr ≠ 0 ∧ win.inner.HasByte frame.fbPitch o) := by
      rintro ⟨hptr, htop, hbottom, hleft, hright⟩
      simp only [Window.inner] at htop hbottom hleft hright
      exact hshown ⟨by omega, by omega, hptr⟩
    have hhidden : ¬(0 < int32 (win.width - 8) ∧ 0 < int32 (win.height - 8) ∧
        win.bufferWmPtr ≠ 0) := by
      rintro ⟨hw, hh, hptr⟩
      obtain ⟨hleft, hright, htop, hbottom, hwidth, hheight⟩ := hin
      simp only [Window.rect, Frame.visible, zero_add] at hleft hright htop hbottom hwidth hheight
      have hw' : 0 < win.width := by
        unfold int32 at hw
        omega
      have hfbHeight := haligned.toSmall.height_lt (by omega)
      rw [int32_of_bounds (by omega) (by omega)] at hh
      have hpitch := haligned.toSmall.pitch_lt (by omega)
      have hpixels := haligned.toSmall.int.1
      rw [int32_of_bounds (by omega) (by omega)] at hw
      exact hshown ⟨hw, hh, hptr⟩
    rw [if_neg hnone, Window.draw, if_neg hhidden, hdraw]

end Draw

namespace Wm

variable {s : Wm} {frame : Frame} {buffers buffers' : ℕ → Buffer} {fb fb' : Buffer} {o : ℤ}
  {leaves : List ℕ} {i slot : ℕ}

/-- The window of a leaf is drawn. -/
def drawLeaf (s : Wm) (frame : Frame) (buffers : ℕ → Buffer) (fb : Buffer) (i : ℕ) : Buffer :=
  match s.winOf i with
  | some slot => (s.windows slot).draw frame (s.borderCol i) buffers fb
  | none => fb

/-- `render_recursive` draws the windows of the leaves in order. -/
theorem renderRecursive_eq {t : BinTree} {p : Option ℕ} {fuel : ℕ} (h : Represents s.view p t)
    (hshow : ∀ i ∈ t.leaves, ∃ slot < maxWindows, s.winOf i = some slot ∧
      (s.windows slot).alive = true) (hfuel : t.nodes.length ≤ fuel) :
    s.renderRecursive frame buffers fuel (some t.index) fb =
      some (t.leaves.foldl (s.drawLeaf frame buffers) fb) := by
  induction t generalizing p fuel fb with
  | leaf i =>
    obtain ⟨fuel, rfl⟩ := Nat.exists_eq_add_of_lt hfuel
    obtain ⟨l, r, hview⟩ := h
    obtain ⟨slot, -, hwin, halive⟩ := hshow i List.mem_cons_self
    have hleaf : s.leafWindow i = some slot := by
      have hwin' : (s.nodes i).win = some slot := hwin
      rw [leafWindow, if_pos (nodes_of_view hview).2.1, hwin', Option.filter_some, halive,
        if_pos rfl]
    rw [renderRecursive, BinTree.index, hleaf, BinTree.leaves, List.foldl_cons, List.foldl_nil,
      drawLeaf, hwin]
  | split i a b iha ihb =>
    obtain ⟨fuel, rfl⟩ := Nat.exists_eq_add_of_lt (Nat.lt_of_lt_of_le (Nat.succ_pos _) hfuel)
    obtain ⟨hview, ha, hb⟩ := h
    obtain ⟨-, hsplit, hleft, hright⟩ := nodes_of_view hview
    have hleaf : s.leafWindow i = none := by
      rw [leafWindow, hsplit, if_neg Bool.false_ne_true]
    rw [BinTree.nodes, List.length_cons, List.length_append] at hfuel
    rw [renderRecursive, BinTree.index, hleaf]
    simp only
    rw [hleft, hright, iha ha (fun j hj => hshow j (List.mem_append_left _ hj)) (by omega)]
    simp only [Option.bind_eq_bind, Option.bind_some]
    rw [ihb hb (fun j hj => hshow j (List.mem_append_right _ hj)) (by omega), BinTree.leaves,
      List.foldl_append]

/-- The windows of leaves are on the screen and do not overlap. -/
structure Tiled (s : Wm) (frame : Frame) (leaves : List ℕ) : Prop where
  inside : ∀ i ∈ leaves, ∀ slot, s.winOf i = some slot →
    (s.windows slot).rect.Inside frame.visible
  apart : ∀ i ∈ leaves, ∀ j ∈ leaves, i ≠ j → ∀ slot slot', s.winOf i = some slot →
    s.winOf j = some slot' → (s.windows slot).rect.Apart (s.windows slot').rect

theorem Tiled.tail (h : s.Tiled frame (i :: leaves)) : s.Tiled frame leaves where
  inside j hj := h.inside j (List.mem_cons_of_mem _ hj)
  apart j hj k hk := h.apart j (List.mem_cons_of_mem _ hj) k (List.mem_cons_of_mem _ hk)

/-- A byte of the inside of a window is one of the window. -/
theorem inner_hasByte {win : Window} (h : win.inner.HasByte frame.fbPitch o) :
    win.rect.HasByte frame.fbPitch o := by
  obtain ⟨htop, hbottom, hleft, hright⟩ := h
  simp only [Window.inner] at htop hbottom hleft hright
  exact ⟨by simp only [Window.rect]; omega, by simp only [Window.rect]; omega,
    by simp only [Window.rect]; omega, by simp only [Window.rect]; omega⟩

/-- What a leaf draws depends on its buffer only inside its window. -/
theorem drawLeaf_congr (haligned : frame.Aligned) (h : s.Tiled frame (i :: leaves))
    (hsame : ∀ slot, s.winOf i = some slot → (s.windows slot).bufferWmPtr ≠ 0 →
      (s.windows slot).inner.HasByte frame.fbPitch o →
      buffers (s.windows slot).bufferWmPtr ((s.windows slot).source frame o) =
        buffers' (s.windows slot).bufferWmPtr ((s.windows slot).source frame o))
    (hfb : fb o = fb' o) :
    s.drawLeaf frame buffers fb i o = s.drawLeaf frame buffers' fb' i o := by
  rw [drawLeaf, drawLeaf]
  cases hwin : s.winOf i with
  | none => exact hfb
  | some slot =>
    obtain ⟨border, -, hdraw⟩ := Window.draw_eq haligned
      (h.inside i List.mem_cons_self slot hwin) (s.borderCol i)
    simp only
    rw [hdraw, hdraw]
    by_cases hin : (s.windows slot).bufferWmPtr ≠ 0 ∧
        (s.windows slot).inner.HasByte frame.fbPitch o
    · rw [if_pos hin, if_pos hin]
      exact hsame slot hwin hin.1 hin.2
    · rw [if_neg hin, if_neg hin, hfb]

/-- Drawing depends on the buffers only inside the windows. -/
theorem draw_congr (haligned : frame.Aligned) (h : s.Tiled frame leaves)
    (hsame : ∀ i ∈ leaves, ∀ slot, s.winOf i = some slot → (s.windows slot).bufferWmPtr ≠ 0 →
      (s.windows slot).inner.HasByte frame.fbPitch o →
      buffers (s.windows slot).bufferWmPtr ((s.windows slot).source frame o) =
        buffers' (s.windows slot).bufferWmPtr ((s.windows slot).source frame o))
    (hfb : fb o = fb' o) :
    leaves.foldl (s.drawLeaf frame buffers) fb o =
      leaves.foldl (s.drawLeaf frame buffers') fb' o := by
  induction leaves generalizing fb fb' with
  | nil => exact hfb
  | cons i leaves ih =>
    obtain ⟨hi, hrest⟩ := List.forall_mem_cons.mp hsame
    exact ih h.tail hrest (drawLeaf_congr haligned h hi hfb)

/-- Drawing changes only bytes of windows. -/
theorem draw_outside (haligned : frame.Aligned) (h : s.Tiled frame leaves)
    (hout : ∀ i ∈ leaves, ∀ slot, s.winOf i = some slot →
      ¬(s.windows slot).rect.HasByte frame.fbPitch o) :
    leaves.foldl (s.drawLeaf frame buffers) fb o = fb o := by
  induction leaves generalizing fb with
  | nil => rfl
  | cons i leaves ih =>
    obtain ⟨hi, hrest⟩ := List.forall_mem_cons.mp hout
    refine (ih h.tail hrest).trans ?_
    rw [drawLeaf]
    cases hwin : s.winOf i with
    | none => rfl
    | some slot =>
      obtain ⟨border, hborder, hdraw⟩ := Window.draw_eq haligned
        (h.inside i List.mem_cons_self slot hwin) (s.borderCol i)
      have hnone : border o = none := by
        by_contra hne
        exact hi slot hwin (hborder o hne)
      simp only
      rw [hdraw, if_neg fun hin => hi slot hwin (inner_hasByte hin.2), hnone]
      rfl

/-- Inside a window, its buffer is drawn. -/
theorem draw_inner (haligned : frame.Aligned) (h : s.Tiled frame leaves) (hnodup : leaves.Nodup)
    (hi : i ∈ leaves) (hwin : s.winOf i = some slot) (hptr : (s.windows slot).bufferWmPtr ≠ 0)
    (hin : (s.windows slot).inner.HasByte frame.fbPitch o) :
    leaves.foldl (s.drawLeaf frame buffers) fb o =
      buffers (s.windows slot).bufferWmPtr ((s.windows slot).source frame o) := by
  induction leaves generalizing fb with
  | nil => exact absurd hi List.not_mem_nil
  | cons j leaves ih =>
    obtain ⟨hj, hnodup⟩ := List.nodup_cons.mp hnodup
    rcases List.mem_cons.mp hi with rfl | hmem
    · -- the windows that are drawn later are elsewhere
      refine (draw_outside haligned h.tail fun k hk slot' hwin' hin' => ?_).trans ?_
      · have hne : i ≠ k := fun heq => hj (heq ▸ hk)
        exact h.apart i hi k (List.mem_cons_of_mem _ hk) hne slot slot' hwin hwin' _ _
          ⟨(inner_hasByte hin).mem, hin'.mem⟩
      · obtain ⟨border, -, hdraw⟩ := Window.draw_eq haligned (h.inside i hi slot hwin)
          (s.borderCol i)
        rw [drawLeaf, hwin]
        simp only
        rw [hdraw, if_pos ⟨hptr, hin⟩]
    · exact ih h.tail hnodup hmem

/-- Refreshing a window copies a part of its inside: from its buffer, and to the framebuffer. -/
structure Refreshes (s : Wm) (frame : Frame) (buffers : ℕ → Buffer) (r : Refresh) (part : Rect) :
    Prop where
  inside : part.Inside (s.windows r.slot).inner
  back : ∀ d o, (s.refresh buffers d r).back o =
    if part.HasByte frame.fbPitch o then
      buffers (s.windows r.slot).bufferWmPtr ((s.windows r.slot).source frame o)
    else d.back o
  fb : ∀ d o, (s.refresh buffers d r).fb o =
    if part.HasByte frame.fbPitch o then (s.refresh buffers d r).back o else d.fb o

/-- The part of a window that is left of a box. -/
theorem refreshRows_refreshes {rx ry rw rh lo hi lo' hi' : ℤ} (hsmall : frame.Small)
    (hin : (s.windows slot).rect.Inside frame.visible)
    (hcx : Clipped ((s.windows slot).width - 8) lo hi rx rw)
    (hcy : Clipped ((s.windows slot).height - 8) lo' hi' ry rh) :
    s.Refreshes frame buffers (refreshRows frame (s.windows slot) slot rx ry rw rh)
      ⟨(s.windows slot).x + 4 + rx, (s.windows slot).y + 4 + ry, rw, rh⟩ := by
  obtain ⟨-, hrx, hrw, hright⟩ := hcx
  obtain ⟨-, hry, hrh, hbottom⟩ := hcy
  obtain ⟨hleft, hrightWin, htop, hbottomWin, -, -⟩ := hin
  simp only [Window.rect, Frame.visible, zero_add] at hleft hrightWin htop hbottomWin
  have hpixels := hsmall.int.1
  obtain ⟨win, hwin⟩ : ∃ win, win = s.windows slot := ⟨_, rfl⟩
  rw [← hwin] at hright hbottom hleft hrightWin htop hbottomWin ⊢
  have hslot : (refreshRows frame win slot rx ry rw rh).slot = slot := rfl
  refine ⟨?_, fun d o => ?_, fun d o => ?_⟩
  · rw [hslot, ← hwin]
    simp only [Window.inner]
    exact ⟨by simp only; omega, by simp only; omega, by simp only; omega, by simp only; omega,
      by simp only; omega, by simp only; omega⟩
  · rw [refresh, hslot, ← hwin, refreshRows]
    simp only
    rw [copyRows_eq (by omega) (by omega) (by omega) (by omega)]
    have hsource : ry * (win.width * 4) + rx * 4 +
        (o / frame.fbPitch - (win.y + 4 + ry)) * (win.width * 4) +
          (o % frame.fbPitch - (win.x + 4 + rx) * 4) = win.source frame o := by
      rw [Window.source, Window.inner]
      ring
    rw [hsource]
  · rw [refresh, refreshRows]
    simp only
    rw [copyRows_eq (by omega) (by omega) (by omega) (by omega)]
    have hsame : (win.y + 4 + ry) * (frame.fbPitch : ℤ) + (win.x + 4 + rx) * 4 +
        (o / frame.fbPitch - (win.y + 4 + ry)) * frame.fbPitch +
          (o % frame.fbPitch - (win.x + 4 + rx) * 4) = o := by
      have hrow := Int.ediv_mul_add_emod o frame.fbPitch
      have hring : (win.y + 4 + ry) * (frame.fbPitch : ℤ) + (win.x + 4 + rx) * 4 +
          (o / frame.fbPitch - (win.y + 4 + ry)) * frame.fbPitch +
            (o % frame.fbPitch - (win.x + 4 + rx) * 4) =
          o / frame.fbPitch * frame.fbPitch + o % frame.fbPitch := by ring
      rw [hring, hrow]
    rw [hsame]

section Fold

variable {d : Display} {l : List Refresh}

/-- Bytes that no refresh copies stay. -/
theorem foldl_refresh_of_not (hall : ∀ r ∈ l, ∃ part, s.Refreshes frame buffers r part)
    (hnot : ∀ r ∈ l, ∀ part, s.Refreshes frame buffers r part → ¬part.HasByte frame.fbPitch o) :
    (l.foldl (s.refresh buffers) d).back o = d.back o ∧
      (l.foldl (s.refresh buffers) d).fb o = d.fb o := by
  induction l generalizing d with
  | nil => exact ⟨rfl, rfl⟩
  | cons r l ih =>
    obtain ⟨⟨part, hpart⟩, hrest⟩ := List.forall_mem_cons.mp hall
    obtain ⟨hnotR, hnotL⟩ := List.forall_mem_cons.mp hnot
    obtain ⟨hback, hfb⟩ := ih (d := s.refresh buffers d r) hrest hnotL
    have hout := hnotR part hpart
    rw [List.foldl_cons, hback, hfb, hpart.fb, hpart.back, if_neg hout, if_neg hout]
    exact ⟨rfl, rfl⟩

/-- Bytes that are copied, by whichever refresh, are on the screen. -/
theorem foldl_refresh_of_mem {v : BitVec 8}
    (hall : ∀ r ∈ l, ∃ part, s.Refreshes frame buffers r part)
    (hmem : ∃ r ∈ l, ∃ part, s.Refreshes frame buffers r part ∧ part.HasByte frame.fbPitch o)
    (hv : ∀ r ∈ l, ∀ part, s.Refreshes frame buffers r part → part.HasByte frame.fbPitch o →
      buffers (s.windows r.slot).bufferWmPtr ((s.windows r.slot).source frame o) = v) :
    (l.foldl (s.refresh buffers) d).back o = v ∧ (l.foldl (s.refresh buffers) d).fb o = v := by
  induction l generalizing d with
  | nil =>
    obtain ⟨r, hr, -⟩ := hmem
    exact absurd hr List.not_mem_nil
  | cons r l ih =>
    obtain ⟨-, hallL⟩ := List.forall_mem_cons.mp hall
    obtain ⟨hvR, hvL⟩ := List.forall_mem_cons.mp hv
    by_cases hrest : ∃ r ∈ l, ∃ part, s.Refreshes frame buffers r part ∧
        part.HasByte frame.fbPitch o
    · exact ih hallL hrest hvL
    · have hnot : ∀ r ∈ l, ∀ part, s.Refreshes frame buffers r part →
          ¬part.HasByte frame.fbPitch o := fun r hr part hpart hbyte =>
        hrest ⟨r, hr, part, hpart, hbyte⟩
      obtain ⟨part, hpart, hbyte⟩ : ∃ part, s.Refreshes frame buffers r part ∧
          part.HasByte frame.fbPitch o := by
        obtain ⟨r', hr', part, hpart, hbyte⟩ := hmem
        rcases List.mem_cons.mp hr' with rfl | hr'
        · exact ⟨part, hpart, hbyte⟩
        · exact absurd hbyte (hnot r' hr' part hpart)
      obtain ⟨hback, hfb⟩ := foldl_refresh_of_not (d := s.refresh buffers d r) hallL hnot
      have hvalue := hvR part hpart hbyte
      rw [List.foldl_cons, hback, hfb, hpart.fb, if_pos hbyte, hpart.back, if_pos hbyte]
      exact ⟨hvalue, hvalue⟩

end Fold

end Wm

/-- A box that has grown over a pixel. -/
structure DirtyState.Covers (d : DirtyState) (px py : ℤ) : Prop where
  isDirty : d.isDirty = true
  left : d.minX ≤ px
  right : px < d.maxX
  top : d.minY ≤ py
  bottom : py < d.maxY

namespace DirtyState

variable {d : DirtyState} {r : Rect} {px py : ℤ}

theorem Covers.markDirty (h : d.Covers px py) (r : Rect) : (d.markDirty r).Covers px py := by
  obtain ⟨hdirty, hleft, hright, htop, hbottom⟩ := h
  rw [DirtyState.markDirty]
  by_cases hempty : r.w ≤ 0 ∨ r.h ≤ 0
  · rw [if_pos hempty]
    exact ⟨hdirty, hleft, hright, htop, hbottom⟩
  · rw [if_neg hempty]
    constructor
    · rfl
    all_goals
      simp only
      split_ifs
      all_goals omega

/-- What is announced is covered. -/
theorem covers_markDirty (hmem : r.Mem px py) (hx : -2 ^ 31 ≤ r.x + r.w ∧ r.x + r.w < 2 ^ 31)
    (hy : -2 ^ 31 ≤ r.y + r.h ∧ r.y + r.h < 2 ^ 31) : (d.markDirty r).Covers px py := by
  obtain ⟨hleft, hright, htop, hbottom⟩ := hmem
  rw [DirtyState.markDirty, if_neg (by omega), int32_of_bounds hx.1 hx.2,
    int32_of_bounds hy.1 hy.2]
  constructor
  · rfl
  all_goals
    simp only
    split_ifs
    all_goals omega

end DirtyState

namespace Wm

variable {s : Wm} {frame : Frame} {buffers : ℕ → Buffer} {o px py : ℤ} {slot : ℕ}
  {tree : Option BinTree} {dirtyMap : ℕ → DirtyState} {messages : List Message} {m : Message}

/-- A window that is alive is found by its pid. -/
theorem findWindow_self (hdistinct : s.Distinct) (hslot : slot < maxWindows)
    (halive : (s.windows slot).alive = true) :
    s.findWindow (s.windows slot).pid = some slot := by
  cases hfind : s.findWindow (s.windows slot).pid with
  | none =>
    have hnone := List.find?_eq_none.mp hfind slot (List.mem_range.mpr hslot)
    rw [halive, Bool.and_true, decide_eq_true rfl] at hnone
    exact absurd rfl hnone
  | some i =>
    obtain ⟨hi, hpid, halive'⟩ := findWindow_eq hfind
    exact congrArg some (hdistinct i hi slot hslot halive' halive hpid)

theorem covers_bufferUpdate (h : (dirtyMap slot).Covers px py) (m : Message) :
    (s.bufferUpdate dirtyMap m slot).Covers px py := by
  rw [bufferUpdate]
  cases s.findWindow m.senderPid with
  | none => exact h
  | some i =>
    by_cases hi : slot = i
    · subst hi
      simp only [Function.update_self]
      exact h.markDirty _
    · simp only [Function.update_of_ne hi]
      exact h

theorem covers_foldl (h : (dirtyMap slot).Covers px py) :
    (messages.foldl s.bufferUpdate dirtyMap slot).Covers px py := by
  induction messages generalizing dirtyMap with
  | nil => exact h
  | cons m messages ih => exact ih (covers_bufferUpdate h m)

/-- The edges of a rectangle that is announced are `int`s. -/
def Announces (m : Message) : Prop :=
  let r := unpackRect m.data1 m.data2
  (-2 ^ 31 ≤ r.x + r.w ∧ r.x + r.w < 2 ^ 31) ∧ -2 ^ 31 ≤ r.y + r.h ∧ r.y + r.h < 2 ^ 31

/-- After the messages, the box of a window covers what was announced. -/
theorem covers_of_mem (hfind : s.findWindow m.senderPid = some slot) (hm : m ∈ messages)
    (hannounces : Announces m) (hmem : (unpackRect m.data1 m.data2).Mem px py) :
    (messages.foldl s.bufferUpdate dirtyMap slot).Covers px py := by
  induction messages generalizing dirtyMap with
  | nil => exact absurd hm List.not_mem_nil
  | cons m' messages ih =>
    rcases List.mem_cons.mp hm with rfl | hm
    · rw [List.foldl_cons]
      refine covers_foldl ?_
      rw [bufferUpdate, hfind]
      simp only [Function.update_self]
      exact DirtyState.covers_markDirty hmem hannounces.1 hannounces.2
    · exact ih hm

theorem collected_foldl (h : Collected dirtyMap) :
    Collected (messages.foldl s.bufferUpdate dirtyMap) := by
  induction messages generalizing dirtyMap with
  | nil => exact h
  | cons m messages ih => exact ih (h.update s m)

section Deferred

variable (haligned : frame.Aligned)
  (hwindows : ∀ slot < maxWindows, (s.windows slot).alive = true →
    (s.windows slot).rect.Inside frame.visible)
include haligned hwindows

/-- Everything in the deferred rendering refreshes a part of a window. -/
theorem deferred_refreshes (hcollected : Collected dirtyMap) :
    ∀ r ∈ s.deferred frame dirtyMap, ∃ part, s.Refreshes frame buffers r part := by
  intro r hr
  obtain ⟨slot, hlt, halive, -, i, rx, ry, rw, rh, hcx, hcy, rfl⟩ :=
    deferred_eq haligned.toSmall hcollected hwindows r hr
  exact ⟨_, refreshRows_refreshes haligned.toSmall (hwindows slot hlt halive) hcx hcy⟩

/-- The window of a refresh is alive and has a buffer. -/
theorem deferred_window (hcollected : Collected dirtyMap) :
    ∀ r ∈ s.deferred frame dirtyMap, r.slot < maxWindows ∧ (s.windows r.slot).alive = true ∧
      (s.windows r.slot).bufferWmPtr ≠ 0 := by
  intro r hr
  obtain ⟨slot, hlt, halive, hptr, i, rx, ry, rw, rh, -, -, rfl⟩ :=
    deferred_eq haligned.toSmall hcollected hwindows r hr
  exact ⟨hlt, halive, hptr⟩

/-- What a box covers of the inside of a window is refreshed. -/
theorem deferred_covers (hcollected : Collected dirtyMap) (hdistinct : s.Distinct)
    (hslot : slot < maxWindows) (halive : (s.windows slot).alive = true)
    (hptr : (s.windows slot).bufferWmPtr ≠ 0)
    (hin : (s.windows slot).inner.HasByte frame.fbPitch o)
    (hcovers : (dirtyMap slot).Covers (o % frame.fbPitch / 4 - (s.windows slot).inner.x)
      (o / frame.fbPitch - (s.windows slot).inner.y)) :
    ∃ r ∈ s.deferred frame dirtyMap, ∃ part, s.Refreshes frame buffers r part ∧
      part.HasByte frame.fbPitch o := by
  have hinside := hwindows slot hslot halive
  have hbox := hcollected.isBox slot
  obtain ⟨hdirty, hleftBox, hrightBox, htopBox, hbottomBox⟩ := hcovers
  obtain ⟨htop, hbottom, hleft, hright⟩ := hin
  have hinside' := hinside
  obtain ⟨hleftWin, hrightWin, htopWin, hbottomWin, -, -⟩ := hinside'
  simp only [Window.rect, Frame.visible, zero_add] at hleftWin hrightWin htopWin hbottomWin
  simp only [Window.inner] at htop hbottom hleft hright hleftBox hrightBox htopBox hbottomBox
  have hwidth := haligned.width
  have hheight := haligned.height
  have hx := clip_covers (p := o % frame.fbPitch / 4 - ((s.windows slot).x + 4))
    (by omega : (s.windows slot).width - 8 < 2 ^ 31) hbox.x (by omega) ⟨hleftBox, hrightBox⟩
  have hy := clip_covers (p := o / frame.fbPitch - ((s.windows slot).y + 4))
    (by omega : (s.windows slot).height - 8 < 2 ^ 31) hbox.y (by omega) ⟨htopBox, hbottomBox⟩
  obtain ⟨r, hr⟩ : ∃ r, s.refreshSlot frame slot (dirtyMap slot).minX (dirtyMap slot).minY
      (int32 ((dirtyMap slot).maxX - (dirtyMap slot).minX))
      (int32 ((dirtyMap slot).maxY - (dirtyMap slot).minY)) = some r := by
    rw [refreshSlot]
    simp only
    rw [if_neg (by omega), int32_of_bounds (n := (s.windows slot).width - 8) (by omega) (by omega),
      int32_of_bounds (n := (s.windows slot).height - 8) (by omega) (by omega), if_neg (by omega)]
    exact ⟨_, rfl⟩
  obtain ⟨-, rx, ry, rw, rh, hcx, hcy, rfl⟩ :=
    refreshSlot_eq haligned.toSmall hinside hbox.x hbox.y hr
  refine ⟨_, List.mem_filterMap.mpr ⟨slot, List.mem_range.mpr hslot, ?_⟩, _,
    refreshRows_refreshes haligned.toSmall hinside hcx hcy, ?_⟩
  · simp only
    rw [if_pos ⟨hdirty, halive⟩, refreshWindow, findWindow_self hdistinct hslot halive,
      Option.bind_some]
    exact hr
  · rw [hcx.eq] at hx
    rw [hcy.eq] at hy
    simp only at hx hy
    refine ⟨?_, ?_, ?_, ?_⟩
    all_goals
      simp only
      omega

/-- A byte of a window that no refresh copies has not changed. -/
theorem unchanged_of_not_copied (hcollected : Collected dirtyMap) (hdistinct : s.Distinct)
    {old new : ℕ → Buffer} (hannounces : ∀ m ∈ messages, Announces m)
    (hchanged : ∀ px py k, 0 ≤ px ∧ px < (s.windows slot).width →
      0 ≤ py ∧ py < (s.windows slot).height → 0 ≤ k ∧ k < 4 →
      new (s.windows slot).bufferWmPtr (py * ((s.windows slot).width * 4) + (px * 4 + k)) ≠
        old (s.windows slot).bufferWmPtr (py * ((s.windows slot).width * 4) + (px * 4 + k)) →
      ∃ m ∈ messages, m.senderPid = (s.windows slot).pid ∧
        (unpackRect m.data1 m.data2).Mem px py)
    (hslot : slot < maxWindows) (halive : (s.windows slot).alive = true)
    (hptr : (s.windows slot).bufferWmPtr ≠ 0)
    (hin : (s.windows slot).inner.HasByte frame.fbPitch o)
    (hcopied : ¬∃ r ∈ s.deferred frame (messages.foldl s.bufferUpdate dirtyMap),
      ∃ part, s.Refreshes frame new r part ∧ part.HasByte frame.fbPitch o) :
    new (s.windows slot).bufferWmPtr ((s.windows slot).source frame o) =
      old (s.windows slot).bufferWmPtr ((s.windows slot).source frame o) := by
  by_contra hne
  -- the byte is a byte of a pixel, and the pixel was announced
  have hsource : (s.windows slot).source frame o =
      (o / frame.fbPitch - (s.windows slot).inner.y) * ((s.windows slot).width * 4) +
        ((o % frame.fbPitch / 4 - (s.windows slot).inner.x) * 4 + o % frame.fbPitch % 4) := by
    rw [Window.source]
    omega
  rw [hsource] at hne
  obtain ⟨htop, hbottom, hleft, hright⟩ := id hin
  simp only [Window.inner] at htop hbottom hleft hright hne
  obtain ⟨m, hm, hpid, hmem⟩ := hchanged _ _ _ (by omega) (by omega) (by omega) hne
  have hfind : s.findWindow m.senderPid = some slot := hpid ▸ findWindow_self hdistinct hslot halive
  apply hcopied
  have hboxes : Collected (messages.foldl s.bufferUpdate dirtyMap) := collected_foldl hcollected
  apply deferred_covers haligned hwindows hboxes hdistinct hslot halive hptr hin
  exact covers_of_mem hfind hm (hannounces m hm) hmem

end Deferred

/-- The windows of a tree that was laid out are on the screen and do not overlap. -/
theorem LaidOut.tiled {s₀ : Wm} {b : BinTree} (haligned : frame.Aligned)
    (h : s₀.LaidOut s b frame.rect) : s.Tiled frame b.leaves := by
  have hrect : frame.rect = frame.visible := by
    rw [Screen.rect, toInt32_of_lt haligned.width, toInt32_of_lt haligned.height]
    rfl
  have hwhole : frame.rect.Inside frame.rect := by
    rw [hrect]
    exact .refl (Int.natCast_nonneg _) (Int.natCast_nonneg _)
  have hfst : (tileRects s₀.dirs b frame.rect).map Prod.fst = b.leaves := tileRects_fst b _
  have hplaced : ∀ q ∈ tileRects s₀.dirs b frame.rect, ∀ slot, s.winOf q.1 = some slot →
      (s.windows slot).rect = q.2 := fun q hq slot hwin => by
    rw [h.placed q hq slot (h.moved.winOf ▸ hwin)]
    rfl
  refine ⟨fun i hi slot hwin => ?_, fun i hi j hj hne slot slot' hwin hwin' => ?_⟩
  · obtain ⟨q, hq, rfl⟩ := List.mem_map.mp (hfst.symm ▸ hi)
    rw [hplaced q hq slot hwin]
    exact hrect ▸ tileRects_inside hwhole q hq
  · obtain ⟨q, hq, rfl⟩ := List.mem_map.mp (hfst.symm ▸ hi)
    obtain ⟨q', hq', rfl⟩ := List.mem_map.mp (hfst.symm ▸ hj)
    rw [hplaced q hq slot hwin, hplaced q' hq' slot' hwin']
    have hsymm : Std.Symm fun a c : ℕ × Rect => a.2.Apart c.2 :=
      ⟨fun a c hac x y hxy => hac x y hxy.symm⟩
    exact (tileRects_disjoint hwhole).forall hq hq' fun heq => hne (heq ▸ rfl)

/-- The back buffer when everything is drawn. -/
def drawn (s : Wm) (frame : Frame) (buffers : ℕ → Buffer) (tree : Option BinTree) (back : Buffer) :
    Buffer :=
  (leavesOf tree).foldl (s.drawLeaf frame buffers) fun o =>
    if 0 ≤ o ∧ o < toU64 frame.backBufferSize then 0x20#8 else back o

/-- Drawing everything succeeds. -/
theorem repaint_eq (htree : s.WindowTree tree) (d : Display) :
    s.repaint frame buffers d = some ⟨s.drawn frame buffers tree d.back, fun o =>
      if 0 ≤ o ∧ o < toU64 frame.backBufferSize then s.drawn frame buffers tree d.back o
      else d.fb o⟩ := by
  rw [repaint]
  cases tree with
  | none =>
    have hroot : s.root = none := htree.holds.root
    rw [hroot]
    rfl
  | some b =>
    have hroot : s.root = some b.index := htree.holds.root
    have hlength : b.leaves.length ≤ maxWindows := htree.shows.length_le
    have hnodes := b.length_nodes
    have hmax : maxNodes = maxWindows * 2 := rfl
    rw [hroot, renderRecursive_eq (htree.holds.represents b rfl) htree.shows.windows (by omega)]
    rfl

/-- The bytes of visible pixels are in the back buffer. -/
theorem size_of_visible (haligned : frame.Aligned)
    (h : frame.visible.HasByte frame.fbPitch o) : 0 ≤ o ∧ o < toU64 frame.backBufferSize := by
  obtain ⟨htop, hbottom, hleft, hright⟩ := h
  simp only [Frame.visible, zero_add, zero_mul] at htop hbottom hleft hright
  obtain ⟨hpixels, hsize⟩ := haligned.toSmall.int
  have hheight : 0 < frame.fbHeight := by omega
  have hpos : (0 : ℤ) < frame.fbPitch := by omega
  obtain ⟨hrow, -, hlt⟩ := byte_row hpos o
  have hlast := mul_row_le hbottom hpos.le
  have hfirst : 0 ≤ o / frame.fbPitch * frame.fbPitch := Int.mul_nonneg htop hpos.le
  have hbytes : frame.backBufferSize = frame.fbHeight * frame.fbPitch := by
    rw [Frame.backBufferSize, haligned.toSmall.pitchBytes hheight, mul_comm,
      int32_of_bounds (by omega) (by omega)]
  have hU64 := toU64_of_nonneg (n := frame.backBufferSize) (by omega) (by omega)
  omega

/-- Outside the back buffer nothing is drawn. -/
theorem drawn_of_not_size {buffers : ℕ → Buffer} {back : Buffer} (haligned : frame.Aligned)
    (htiled : s.Tiled frame (leavesOf tree))
    (hout : ¬(0 ≤ o ∧ o < toU64 frame.backBufferSize)) :
    s.drawn frame buffers tree back o = back o := by
  refine (draw_outside haligned htiled fun i hi slot hwin hbyte => hout ?_).trans (if_neg hout)
  exact size_of_visible haligned (hbyte.inside (htiled.inside i hi slot hwin))

/-- Refreshing what clients have announced is as good as drawing everything: what is left on the
back buffer and the framebuffer is what `wm_draw` and `wm_present` leave there for the new contents
of the buffers. -/
theorem repaint_deferred (haligned : frame.Aligned) (htree : s.WindowTree tree)
    (hlaid : ∀ b ∈ tree, ∃ s₀ : Wm, s₀.LaidOut s b frame.rect) (hdistinct : s.Distinct)
    (hcollected : Collected dirtyMap) {old new : ℕ → Buffer} {d₀ d : Display}
    (hpainted : s.repaint frame old d₀ = some d) (hannounces : ∀ m ∈ messages, Announces m)
    (hchanged : ∀ slot < maxWindows, (s.windows slot).alive = true → ∀ px py k,
      0 ≤ px ∧ px < (s.windows slot).width → 0 ≤ py ∧ py < (s.windows slot).height →
      0 ≤ k ∧ k < 4 →
      new (s.windows slot).bufferWmPtr (py * ((s.windows slot).width * 4) + (px * 4 + k)) ≠
        old (s.windows slot).bufferWmPtr (py * ((s.windows slot).width * 4) + (px * 4 + k)) →
      ∃ m ∈ messages, m.senderPid = (s.windows slot).pid ∧
        (unpackRect m.data1 m.data2).Mem px py) :
    s.repaint frame new d =
      some (s.render frame new (messages.foldl s.bufferUpdate dirtyMap) d) := by
  have htiled : s.Tiled frame (leavesOf tree) := by
    cases tree with
    | none => exact ⟨fun _ hi => absurd hi List.not_mem_nil, fun _ hi => absurd hi List.not_mem_nil⟩
    | some b =>
      obtain ⟨s₀, hlaid⟩ := hlaid b rfl
      exact hlaid.tiled haligned
  have hleafOf : ∀ slot < maxWindows, (s.windows slot).alive = true →
      ∃ i ∈ leavesOf tree, s.winOf i = some slot := htree.shows.alive
  have hwindows : ∀ slot < maxWindows, (s.windows slot).alive = true →
      (s.windows slot).rect.Inside frame.visible := fun slot hslot halive => by
    obtain ⟨i, hi, hwin⟩ := hleafOf slot hslot halive
    exact htiled.inside i hi slot hwin
  have hnodup : (leavesOf tree).Nodup := htree.shows.nodup.of_map _
  have hboxes : Collected (messages.foldl s.bufferUpdate dirtyMap) := collected_foldl hcollected
  rw [repaint_eq htree] at hpainted
  obtain rfl := Option.some_inj.mp hpainted
  rw [repaint_eq htree]
  simp only
  have hall : ∀ r ∈ s.deferred frame (messages.foldl s.bufferUpdate dirtyMap),
      ∃ part, s.Refreshes frame new r part :=
    deferred_refreshes haligned hwindows hboxes
  -- each byte of the back buffer and of the framebuffer
  suffices hbyte : ∀ o, (s.render frame new (messages.foldl s.bufferUpdate dirtyMap)
      ⟨s.drawn frame old tree d₀.back, fun o =>
        if 0 ≤ o ∧ o < toU64 frame.backBufferSize then s.drawn frame old tree d₀.back o
        else d₀.fb o⟩).back o = s.drawn frame new tree (s.drawn frame old tree d₀.back) o ∧
      (s.render frame new (messages.foldl s.bufferUpdate dirtyMap)
        ⟨s.drawn frame old tree d₀.back, fun o =>
          if 0 ≤ o ∧ o < toU64 frame.backBufferSize then s.drawn frame old tree d₀.back o
          else d₀.fb o⟩).fb o =
        if 0 ≤ o ∧ o < toU64 frame.backBufferSize then
          s.drawn frame new tree (s.drawn frame old tree d₀.back) o
        else if 0 ≤ o ∧ o < toU64 frame.backBufferSize then s.drawn frame old tree d₀.back o
        else d₀.fb o by
    refine congrArg some ?_
    rw [Display.mk.injEq]
    exact ⟨funext fun o => (hbyte o).1.symm, funext fun o => (hbyte o).2.symm⟩
  intro o
  by_cases hcopied : ∃ r ∈ s.deferred frame (messages.foldl s.bufferUpdate dirtyMap),
      ∃ part, s.Refreshes frame new r part ∧ part.HasByte frame.fbPitch o
  · obtain ⟨r, hr, part, hpart, hbyte⟩ := hcopied
    obtain ⟨hslot, halive, hptr⟩ := deferred_window haligned hwindows hboxes r hr
    obtain ⟨i, hi, hwin⟩ := hleafOf r.slot hslot halive
    have hin : (s.windows r.slot).inner.HasByte frame.fbPitch o := hbyte.inside hpart.inside
    have hsize := size_of_visible haligned
      ((inner_hasByte hin).inside (hwindows r.slot hslot halive))
    have hdrawn : s.drawn frame new tree (s.drawn frame old tree d₀.back) o =
        new (s.windows r.slot).bufferWmPtr ((s.windows r.slot).source frame o) :=
      draw_inner haligned htiled hnodup hi hwin hptr hin
    -- other windows do not have this byte
    have hrender := foldl_refresh_of_mem (d := ⟨s.drawn frame old tree d₀.back, fun o =>
        if 0 ≤ o ∧ o < toU64 frame.backBufferSize then s.drawn frame old tree d₀.back o
        else d₀.fb o⟩) hall ⟨r, hr, part, hpart, hbyte⟩ fun r' hr' part' hpart' hbyte' => by
      obtain ⟨hslot', halive', -⟩ := deferred_window haligned hwindows hboxes r' hr'
      obtain ⟨i', hi', hwin'⟩ := hleafOf r'.slot hslot' halive'
      have hin' : (s.windows r'.slot).inner.HasByte frame.fbPitch o :=
        hbyte'.inside hpart'.inside
      by_cases hleaf : i' = i
      · rw [← hleaf] at hwin
        rw [Option.some_inj.mp (hwin'.symm.trans hwin)]
      · exact absurd ⟨(inner_hasByte hin').mem, (inner_hasByte hin).mem⟩
          (htiled.apart i' hi' i hi hleaf _ _ hwin' hwin _ _)
    rw [if_pos hsize, hdrawn]
    exact hrender
  · have hnot : ∀ r ∈ s.deferred frame (messages.foldl s.bufferUpdate dirtyMap), ∀ part,
        s.Refreshes frame new r part → ¬part.HasByte frame.fbPitch o :=
      fun r hr part hpart hbyte => hcopied ⟨r, hr, part, hpart, hbyte⟩
    -- where nothing is copied, nothing has changed
    have hsame : ∀ i ∈ leavesOf tree, ∀ slot, s.winOf i = some slot →
        (s.windows slot).bufferWmPtr ≠ 0 → (s.windows slot).inner.HasByte frame.fbPitch o →
        new (s.windows slot).bufferWmPtr ((s.windows slot).source frame o) =
          old (s.windows slot).bufferWmPtr ((s.windows slot).source frame o) := by
      intro i hi slot hwin hptr hin
      obtain ⟨slot', hslot, hwin', halive⟩ := htree.shows.windows i hi
      obtain rfl := Option.some_inj.mp (hwin.symm.trans hwin')
      exact unchanged_of_not_copied haligned hwindows hcollected hdistinct hannounces
        (hchanged slot hslot halive) hslot halive hptr hin hcopied
    have hdrawn : s.drawn frame new tree (s.drawn frame old tree d₀.back) o =
        s.drawn frame old tree d₀.back o := by
      refine draw_congr haligned htiled hsame ?_
      by_cases hsize : 0 ≤ o ∧ o < toU64 frame.backBufferSize
      · rw [if_pos hsize, if_pos hsize]
      · rw [if_neg hsize, if_neg hsize, drawn_of_not_size haligned htiled hsize]
    obtain ⟨hback, hfb⟩ := foldl_refresh_of_not (d := ⟨s.drawn frame old tree d₀.back, fun o =>
        if 0 ≤ o ∧ o < toU64 frame.backBufferSize then s.drawn frame old tree d₀.back o
        else d₀.fb o⟩) hall hnot
    refine ⟨hback.trans hdrawn.symm, hfb.trans ?_⟩
    rw [hdrawn]
    simp only
    by_cases hsize : 0 ≤ o ∧ o < toU64 frame.backBufferSize
    · rw [if_pos hsize, if_pos hsize]
    · rw [if_neg hsize, if_neg hsize]

instance (s : Wm) : Decidable s.Distinct :=
  inferInstanceAs (Decidable (∀ slot < maxWindows, ∀ slot' < maxWindows, _ → _ → _ → _))

/-- A client with one window changes a pixel and announces it. -/
theorem repaint_deferred_pixel : ∃ (s : Wm) (d : Display), Handles ⟨64, 48⟩ start
    (.newClient 7 (0x10000, 0x800000000)) s ∧
    s.repaint ⟨⟨64, 48⟩, 256⟩ (fun _ o => if o = 0 then 1#8 else 0#8) d =
      some (s.render ⟨⟨64, 48⟩, 256⟩ (fun _ o => if o = 0 then 1#8 else 0#8)
        ([⟨7, msgBufferUpdate, 0, 0x100000001, 0⟩].foldl s.bufferUpdate fun _ => .reset) d) := by
  rcases windowTree_start.handleNewClient ⟨64, 48⟩ 7 (0x10000, 0x800000000) with heq |
    ⟨slot, s₁, s, b, hslot, -, -, hwindows, -, hlaid, htree, heq⟩
  · have hroot : ((start.handleNewClient ⟨64, 48⟩ 7 (0x10000, 0x800000000)).any fun q =>
        q.2.isEmpty) = false := by decide +kernel
    rw [heq] at hroot
    exact absurd hroot (by decide)
  have halive : ∀ slot', (s.windows slot').alive = true → slot' = slot := fun slot' halive => by
    rw [hlaid.moved.alive, hwindows] at halive
    by_contra hne
    rw [Function.update_of_ne hne] at halive
    exact absurd halive Bool.false_ne_true
  have hpid : (s.windows slot).pid = 7 := by
    rw [hlaid.moved.pid, hwindows, Function.update_self]
    rfl
  have haligned : Frame.Aligned ⟨⟨64, 48⟩, 256⟩ :=
    ⟨⟨by decide, by decide⟩, by decide, by decide, by decide⟩
  have hpainted : s.repaint ⟨⟨64, 48⟩, 256⟩ (fun _ _ => 0#8) ⟨fun _ => 0, fun _ => 0⟩ = some _ :=
    repaint_eq htree _
  refine ⟨s, _, ⟨_, heq⟩, repaint_deferred haligned htree
    (fun b' hb' => ⟨s₁, Option.some_inj.mp hb' ▸ hlaid⟩)
    (fun a _ c _ ha hc _ => (halive a ha).trans (halive c hc).symm) .start
    hpainted ?_ ?_⟩
  · intro m hm
    rw [List.mem_singleton.mp hm, Announces]
    decide
  · intro slot' _ hali px py k hpx hpy hk hne
    obtain rfl := halive slot' hali
    refine ⟨_, List.mem_cons_self, hpid.symm, ?_⟩
    have hrow : 0 ≤ py * ((s.windows slot').width * 4) := Int.mul_nonneg hpy.1 (by omega)
    by_cases hzero : py * ((s.windows slot').width * 4) + (px * 4 + k) = 0
    · have hpyZero : py = 0 := by
        by_contra hpos
        have hle := mul_row_le (y := 0) (h := py) (p := (s.windows slot').width * 4) (by omega)
          (by omega)
        omega
      have hpxZero : px = 0 := by omega
      rw [hpyZero, hpxZero]
      decide
    · exact absurd (if_neg hzero) hne

/-- The pitch is not a multiple of four. The border of the second window is drawn over the inside of
the first, and refreshing the first window draws over that. -/
theorem repaint_unaligned : ∃ s, Reaches (Handles ⟨20, 16⟩) start
    [.newClient 8 (0x20000, 0x800000000), .newClient 7 (0x10000, 0x800000000)] s ∧ s.Distinct ∧
    ∃ d d', s.repaint ⟨⟨20, 16⟩, 82⟩ (fun _ _ => 0#8) ⟨fun _ => 0, fun _ => 0⟩ = some d ∧
      s.repaint ⟨⟨20, 16⟩, 82⟩ (fun ptr o => if ptr = 0x10000 ∧ o = 244 then 1#8 else 0#8) d =
        some d' ∧
      (s.render ⟨⟨20, 16⟩, 82⟩ (fun ptr o => if ptr = 0x10000 ∧ o = 244 then 1#8 else 0#8)
        ([⟨7, msgBufferUpdate, 0x100000006, 0x100000001, 0⟩].foldl s.bufferUpdate
          fun _ => .reset) d).back 840 = 1#8 ∧ d'.back 840 = 0x70#8 := by
  have hsome : ((replay ⟨20, 16⟩
      [.newClient 8 (0x20000, 0x800000000), .newClient 7 (0x10000, 0x800000000)]).any fun s =>
      decide s.Distinct && (s.repaint ⟨⟨20, 16⟩, 82⟩ (fun _ _ => 0#8)
        ⟨fun _ => 0, fun _ => 0⟩).any fun d =>
      (s.repaint ⟨⟨20, 16⟩, 82⟩ (fun ptr o => if ptr = 0x10000 ∧ o = 244 then 1#8 else 0#8) d).any
        fun d' => decide ((s.render ⟨⟨20, 16⟩, 82⟩
          (fun ptr o => if ptr = 0x10000 ∧ o = 244 then 1#8 else 0#8)
          ([⟨7, msgBufferUpdate, 0x100000006, 0x100000001, 0⟩].foldl s.bufferUpdate
            fun _ => .reset) d).back 840 = 1#8 ∧ d'.back 840 = 0x70#8)) = true := by
    decide +kernel
  obtain ⟨s, hreplay, hs⟩ := (Option.any_eq_true _ _).mp hsome
  obtain ⟨hdistinct, hs⟩ := Bool.and_eq_true _ _ ▸ hs
  obtain ⟨d, hd, hs⟩ := (Option.any_eq_true _ _).mp hs
  obtain ⟨d', hd', hs⟩ := (Option.any_eq_true _ _).mp hs
  exact ⟨s, reaches_replay _ hreplay, of_decide_eq_true hdistinct, d, d', hd, hd',
    of_decide_eq_true hs⟩

end Wm

end OpenIDP.Userspace
