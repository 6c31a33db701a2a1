import OpenIDP.Math.Bytes
import OpenIDP.Userspace.Term

/-!
# Images from files

When the sequence for an image ends, `term_write` loads a file with `load_file_to_memory` and gives
the bytes to `gfx_draw_image`, which takes the width and the height from them and never learns how
many there are. What it reads and what it writes are listed here, for any bytes and with the
arithmetic of `int` as the machine does it.

The bytes are drawn at the cursor. A read behind the buffer gives what is in memory there.

## Main definitions

* `FileLoad`, `loadFileToMemory` — a file, and the buffer for it
* `FileBuffer.image` — the header and the pixels
* `Gfx.blits`, `Gfx.imageReads`, `Gfx.drawFile` — the accesses of `gfx_draw_image`
* `ImageSafe`, `BlendsImage` — only the buffers are accessed, and the image is drawn
* `ImageFits` — the sizes in the header are those of the file

## Main results

* `imageSafe_iff` — the accesses stay in the buffers
* `drawFile_eq_drawImage` — then the arithmetic is that of the integers
* `draws_file_safely_iff` — the images that are drawn safely
-/

namespace OpenIDP.Userspace

open OpenIDP.Math

/-! ## Files -/

/-- What the calls of `load_file_to_memory` give: `sys_stat`, `malloc` and `sys_file_read`, and the
memory from the buffer on. -/
structure FileLoad where
  statErr : ℤ
  size : ℕ
  flags : ℕ
  allocated : Bool
  bytesRead : ℤ
  mem : ℕ → BitVec 8

/-- A buffer, and the memory from it on. -/
structure FileBuffer where
  size : ℕ
  mem : ℕ → BitVec 8

/-- `load_file_to_memory`. The number of bytes read is compared as an unsigned one. -/
def loadFileToMemory (f : FileLoad) : Option FileBuffer :=
  if f.statErr ≠ 0 ∨ f.flags = 1 ∨ f.size = 0 then none
  else if ¬f.allocated then none
  else if toU64 f.bytesRead ≠ f.size then none
  else some ⟨f.size, f.mem⟩

namespace FileBuffer

variable (b : FileBuffer)

/-- The word at an offset. -/
def word (offset : ℕ) : ℕ :=
  littleEndian [b.mem offset, b.mem (offset + 1), b.mem (offset + 2), b.mem (offset + 3)]

/-- The fields of `idpimg_header_t`, and the words behind it. -/
def image : Image :=
  ⟨b.word 0, b.word 4, b.word 8, fun i => BitVec.ofNat 32 (b.word (16 + 4 * i))⟩

/-- The buffer has an image with all of its pixels. -/
def WellFormed : Prop :=
  b.image.magic = idpimgMagic ∧ 16 + 4 * (b.image.width * b.image.height) ≤ b.size

end FileBuffer

/-! ## Drawing -/

/-- The width or the height that is drawn, from a coordinate on. -/
def drawSize (n size : ℤ) (field : ℕ) : ℤ :=
  if size < wrapInt (n + toInt32 field) then wrapInt (size - n) else toInt32 field

namespace Gfx

variable (g : Gfx) (x y : ℤ)

/-- The pixels of an image that `gfx_draw_image` reads, with the pixels of the framebuffer that it
blends them into. -/
def blits (img : Image) : List (ℕ × ℤ) :=
  let drawW := drawSize x g.width img.width
  let drawH := drawSize y g.height img.height
  if drawW ≤ 0 ∨ drawH ≤ 0 then []
  else
    (List.range drawH.toNat).flatMap fun row : ℕ => (List.range drawW.toNat).map fun col : ℕ =>
      (row * img.width % 2 ^ 32 + col, wrapInt (wrapInt (y + row) * g.pitch) + x + col)

/-- The offsets of the words that are read from the buffer. -/
def imageReads (b : FileBuffer) : List ℕ :=
  if b.image.magic ≠ idpimgMagic then [0]
  else 0 :: 4 :: 8 :: (g.blits x y b.image).map fun p => 16 + 4 * p.1

/-- The pixels of the framebuffer that are read and written. -/
def imageStores (b : FileBuffer) : List ℤ :=
  if b.image.magic ≠ idpimgMagic then [] else (g.blits x y b.image).map Prod.snd

/-- `gfx_draw_image` -/
def drawFile (b : FileBuffer) : Gfx :=
  if b.image.magic ≠ idpimgMagic then g
  else
    { g with
      fb := ((g.blits x y b.image).map fun p => (p.2, b.image.pixels p.1)).foldl
        (fun fb w => Function.update fb w.1 (blendPixel w.2 (fb w.1))) g.fb }

end Gfx

namespace Term

variable (t : Term) (files : List (BitVec 8) → FileLoad)

/-- The buffer that is drawn when a sequence ends. -/
def oscFile : Option FileBuffer :=
  if t.oscBuffer.take 3 = [0x36#8, 0x39#8, 0x3b#8] then
    loadFileToMemory (files (t.oscBuffer.drop 3))
  else none

/-- The part of `term_write` that draws an image. -/
def drawOscFile : Term :=
  match t.oscFile files with
  | some b =>
    { t with
      gfx := t.gfx.drawFile (t.cursorX * t.fontWidth) (t.cursorY * t.fontHeight) b
      lastUpdate := ⟨0, 0, t.gfx.width, t.gfx.height⟩
      dirty := true }
  | none => t

end Term

/-- Only the buffer is read, and only the framebuffer is written. -/
structure ImageSafe (g : Gfx) (x y : ℤ) (b : FileBuffer) : Prop where
  reads : ∀ offset ∈ g.imageReads x y b, offset + 4 ≤ b.size
  stores : ∀ k ∈ g.imageStores x y b, 0 ≤ k ∧ k < g.width * g.height

/-- The part of an image that fits to the right of a pixel and below it is blended, and nothing
else is changed. -/
def BlendsImage (g g' : Gfx) (x y : ℤ) (img : Image) : Prop :=
  ∀ px py, g.OnScreen px py →
    g'.fb (g.pixel px py) =
      if (⟨x, y, img.width, img.height⟩ : Rect).Mem px py then
        blendPixel (img.pixels ((py - y).toNat * img.width + (px - x).toNat))
          (g.fb (g.pixel px py))
      else g.fb (g.pixel px py)

/-- Only the buffers are accessed, and an image with all of its pixels is drawn. -/
def Term.DrawsFileSafely (t : Term) (files : List (BitVec 8) → FileLoad) : Prop :=
  ∀ b ∈ t.oscFile files,
    ImageSafe t.gfx (t.cursorX * t.fontWidth) (t.cursorY * t.fontHeight) b ∧
      (b.WellFormed → BlendsImage t.gfx (t.drawOscFile files).gfx (t.cursorX * t.fontWidth)
        (t.cursorY * t.fontHeight) b.image)

/-- The file has the fields of the header that are read. If there is something to draw, its right
and its lower end are `int`s, and the file has every row that is drawn. -/
def ImageFits (g : Gfx) (x y : ℤ) (b : FileBuffer) : Prop :=
  let width := toInt32 b.image.width
  let height := toInt32 b.image.height
  4 ≤ b.size ∧ (b.image.magic = idpimgMagic → 12 ≤ b.size ∧ (0 < width → 0 < height →
    x + width < 2 ^ 31 ∧ y + height < 2 ^ 31 ∧ ∀ row : ℕ, row < min height (g.height - y) →
      16 + 4 * ((row * b.image.width % 2 ^ 32 : ℕ) + min width (g.width - x)) ≤ b.size))

/-! ## Sizes -/

section Axis

variable {n size : ℤ} {field : ℕ}

/-- Without an overflow, what is drawn is what there is and what fits. -/
theorem drawSize_of_lt (hn : 0 ≤ n) (hlt : n < size) (hsize : size < 2 ^ 31)
    (h : n + toInt32 field < 2 ^ 31) : drawSize n size field = min (toInt32 field) (size - n) := by
  have hfield := toInt32_bounds field
  rw [drawSize, wrapInt_of_bounds (by omega) h, wrapInt_of_bounds (by omega) (by omega)]
  split_ifs
  all_goals omega

/-- Then the comparisons are those of integers. -/
theorem drawSize_eq_ite (hn : 0 ≤ n) (hlt : n < size) (hsize : size < 2 ^ 31)
    (h : n + toInt32 field < 2 ^ 31) :
    drawSize n size field =
      if size < n + toInt32 field then size - n else toInt32 field := by
  rw [drawSize_of_lt hn hlt hsize h]
  split_ifs
  all_goals omega

/-- An end that overflows is in front of every other number. -/
theorem drawSize_of_le (hn : 0 ≤ n) (hlt : n < size) (hsize : size < 2 ^ 31)
    (h : 2 ^ 31 ≤ n + toInt32 field) : drawSize n size field = toInt32 field := by
  have hfield := toInt32_bounds field
  have hwrap : wrapInt (n + toInt32 field) = n + toInt32 field - 2 ^ 32 := by
    unfold wrapInt
    generalize toInt32 field = w at *
    unfold toInt32
    omega
  rw [drawSize, hwrap]
  exact if_neg (by omega)

theorem drawSize_pos_iff (hn : 0 ≤ n) (hlt : n < size) (hsize : size < 2 ^ 31) :
    0 < drawSize n size field ↔ 0 < toInt32 field := by
  rcases lt_or_ge (n + toInt32 field) (2 ^ 31) with h | h
  · rw [drawSize_of_lt hn hlt hsize h]
    omega
  · rw [drawSize_of_le hn hlt hsize h]

end Axis

/-! ## Accesses -/

section Accesses

variable {g : Gfx} {x y : ℤ} {b : FileBuffer}

theorem Gfx.mem_blits {img : Image} {p : ℕ × ℤ} : p ∈ g.blits x y img ↔
    ∃ row col : ℕ, row < drawSize y g.height img.height ∧ col < drawSize x g.width img.width ∧
      p = (row * img.width % 2 ^ 32 + col, wrapInt (wrapInt (y + row) * g.pitch) + x + col) :=
  mem_nested_range

variable (hpitch : g.pitch = g.width) (hsize : g.width * g.height < 2 ^ 31)
  (hcursor : g.OnScreen x y)

include hsize hcursor

/-- The sides of the framebuffer are `int`s. -/
theorem Gfx.side_lt : g.width < 2 ^ 31 ∧ g.height < 2 ^ 31 := by
  obtain ⟨hx, hw, hy, hh⟩ := hcursor
  constructor
  · apply lt_of_le_of_lt ?_ hsize
    exact le_mul_of_one_le_right (by omega) (by omega)
  · apply lt_of_le_of_lt ?_ hsize
    exact le_mul_of_one_le_left (by omega) (by omega)

theorem drawSize_width_pos_iff {field : ℕ} :
    0 < drawSize x g.width field ↔ 0 < toInt32 field :=
  drawSize_pos_iff hcursor.1 hcursor.2.1 (Gfx.side_lt hsize hcursor).1

theorem drawSize_height_pos_iff {field : ℕ} :
    0 < drawSize y g.height field ↔ 0 < toInt32 field :=
  drawSize_pos_iff hcursor.2.2.1 hcursor.2.2.2 (Gfx.side_lt hsize hcursor).2

include hpitch

/-- The start of a row of the framebuffer, or of the row behind its end. -/
theorem wrapInt_row {py : ℤ} (hlow : 0 ≤ py) (hhigh : py ≤ g.height) :
    wrapInt (wrapInt py * g.pitch) = py * g.width := by
  have hside := Gfx.side_lt hsize hcursor
  have hwidth : 0 ≤ g.width := hcursor.1.trans hcursor.2.1.le
  have hrow : py * g.width ≤ g.width * g.height := by
    rw [mul_comm g.width]
    exact Int.mul_le_mul_of_nonneg_right hhigh hwidth
  have hzero : 0 ≤ py * g.width := Int.mul_nonneg hlow hwidth
  have hpy : wrapInt py = py := wrapInt_of_bounds (by omega) (by omega)
  rw [hpitch, hpy, wrapInt_of_bounds (by omega) (by omega)]

/-- The pixels of the framebuffer that are written are in it if the ends do not overflow. -/
theorem stores_iff {img : Image} (hwidth : 0 < toInt32 img.width)
    (hheight : 0 < toInt32 img.height) :
    (∀ p ∈ g.blits x y img, 0 ≤ p.2 ∧ p.2 < g.width * g.height) ↔
      x + toInt32 img.width < 2 ^ 31 ∧ y + toInt32 img.height < 2 ^ 31 := by
  obtain ⟨hx, hxw, hy, hyh⟩ := id hcursor
  obtain ⟨hw, hh⟩ := Gfx.side_lt hsize hcursor
  have hdrawW := (drawSize_width_pos_iff hsize hcursor).mpr hwidth
  have hdrawH := (drawSize_height_pos_iff hsize hcursor).mpr hheight
  constructor
  · intro h
    constructor
    · -- otherwise the first row runs through the whole framebuffer
      apply lt_of_not_ge
      intro hover
      rw [drawSize_of_le hx hxw hw hover] at hdrawW
      have hend := (h _ (Gfx.mem_blits.mpr ⟨0, (toInt32 img.width - 1).toNat, hdrawH, by
        rw [drawSize_of_le hx hxw hw hover]
        omega, rfl⟩)).2
      simp only [Nat.cast_zero, add_zero] at hend
      rw [wrapInt_row hpitch hsize hcursor hy hyh.le] at hend
      have hzero : 0 ≤ y * g.width := Int.mul_nonneg hy (hx.trans hxw.le)
      omega
    · -- otherwise there is a row below the framebuffer
      apply lt_of_not_ge
      intro hover
      have hend := (h _ (Gfx.mem_blits.mpr ⟨(g.height - y).toNat, 0, by
        rw [drawSize_of_le hy hyh hh hover]
        omega, hdrawW, rfl⟩)).2
      simp only [Nat.cast_zero, add_zero] at hend
      rw [Int.toNat_of_nonneg (by omega), add_sub_cancel,
        wrapInt_row hpitch hsize hcursor (hy.trans hyh.le) le_rfl, mul_comm g.height] at hend
      omega
  · rintro ⟨hright, hbottom⟩ p hp
    obtain ⟨row, col, hrow, hcol, rfl⟩ := Gfx.mem_blits.mp hp
    rw [drawSize_of_lt hy hyh hh hbottom] at hrow
    rw [drawSize_of_lt hx hxw hw hright] at hcol
    have hon : g.OnScreen (x + col) (y + row) := ⟨by omega, by omega, by omega, by omega⟩
    have hbounds := Gfx.pixel_bounds hon
    rw [Gfx.pixel] at hbounds
    simp only
    rwa [wrapInt_row hpitch hsize hcursor (by omega) (by omega), add_assoc]

omit hpitch in
/-- The words that are read are in the buffer if the rows are. -/
theorem reads_iff {img : Image} {size : ℕ} (hwidth : 0 < toInt32 img.width)
    (hright : x + toInt32 img.width < 2 ^ 31) (hbottom : y + toInt32 img.height < 2 ^ 31) :
    (∀ p ∈ g.blits x y img, 16 + 4 * p.1 + 4 ≤ size) ↔
      ∀ row : ℕ, row < min (toInt32 img.height) (g.height - y) →
        16 + 4 * ((row * img.width % 2 ^ 32 : ℕ) + min (toInt32 img.width) (g.width - x)) ≤
          size := by
  obtain ⟨hx, hxw, hy, hyh⟩ := id hcursor
  obtain ⟨hw, hh⟩ := Gfx.side_lt hsize hcursor
  have hdrawW := drawSize_of_lt hx hxw hw hright
  have hdrawH := drawSize_of_lt hy hyh hh hbottom
  constructor
  · intro h row hrow
    have hlast := h _ (Gfx.mem_blits.mpr
      ⟨row, (min (toInt32 img.width) (g.width - x) - 1).toNat, by rwa [hdrawH], by
        rw [hdrawW]
        omega, rfl⟩)
    simp only at hlast
    omega
  · intro h p hp
    obtain ⟨row, col, hrow, hcol, rfl⟩ := Gfx.mem_blits.mp hp
    rw [hdrawH] at hrow
    rw [hdrawW] at hcol
    have hrow := h row hrow
    simp only
    omega

omit hpitch in
/-- Nothing is drawn of an image without a width or a height. -/
theorem blits_eq_nil {img : Image} (h : ¬(0 < toInt32 img.width ∧ 0 < toInt32 img.height)) :
    g.blits x y img = [] := by
  rw [← drawSize_width_pos_iff hsize hcursor, ← drawSize_height_pos_iff hsize hcursor] at h
  exact if_pos (by omega)

/-- The accesses are to the buffers. -/
theorem imageSafe_iff : ImageSafe g x y b ↔ ImageFits g x y b := by
  by_cases hmagic : b.image.magic = idpimgMagic
  · have hreads : (∀ offset ∈ g.imageReads x y b, offset + 4 ≤ b.size) ↔
        12 ≤ b.size ∧ ∀ p ∈ g.blits x y b.image, 16 + 4 * p.1 + 4 ≤ b.size := by
      rw [Gfx.imageReads, if_neg (not_not_intro hmagic)]
      simp only [List.forall_mem_cons, List.forall_mem_map]
      constructor
      · rintro ⟨-, -, hheader, hpixels⟩
        exact ⟨hheader, hpixels⟩
      · rintro ⟨hheader, hpixels⟩
        exact ⟨by omega, by omega, hheader, hpixels⟩
    have hstores : (∀ k ∈ g.imageStores x y b, 0 ≤ k ∧ k < g.width * g.height) ↔
        ∀ p ∈ g.blits x y b.image, 0 ≤ p.2 ∧ p.2 < g.width * g.height := by
      rw [Gfx.imageStores, if_neg (not_not_intro hmagic), List.forall_mem_map]
    have hsafe : ImageSafe g x y b ↔ 12 ≤ b.size ∧
        (∀ p ∈ g.blits x y b.image, 16 + 4 * p.1 + 4 ≤ b.size) ∧
          ∀ p ∈ g.blits x y b.image, 0 ≤ p.2 ∧ p.2 < g.width * g.height := by
      rw [← and_assoc, ← hreads, ← hstores]
      exact ⟨fun h => ⟨h.reads, h.stores⟩, fun h => ⟨h.1, h.2⟩⟩
    rw [hsafe, ImageFits]
    by_cases hdrawn : 0 < toInt32 b.image.width ∧ 0 < toInt32 b.image.height
    · obtain ⟨hwidth, hheight⟩ := hdrawn
      rw [stores_iff hpitch hsize hcursor hwidth hheight]
      constructor
      · rintro ⟨hheader, hreads, hright, hbottom⟩
        exact ⟨by omega, fun _ => ⟨hheader, fun _ _ => ⟨hright, hbottom,
          (reads_iff hsize hcursor hwidth hright hbottom).mp hreads⟩⟩⟩
      · rintro ⟨-, h⟩
        obtain ⟨hheader, h⟩ := h hmagic
        obtain ⟨hright, hbottom, hrows⟩ := h hwidth hheight
        exact ⟨hheader, (reads_iff hsize hcursor hwidth hright hbottom).mpr hrows, hright, hbottom⟩
    · rw [blits_eq_nil hsize hcursor hdrawn]
      constructor
      · rintro ⟨hheader, -⟩
        exact ⟨by omega, fun _ => ⟨hheader, fun hwidth hheight =>
          absurd ⟨hwidth, hheight⟩ hdrawn⟩⟩
      · rintro ⟨-, h⟩
        exact ⟨(h hmagic).1, List.forall_mem_nil _, List.forall_mem_nil _⟩
  · -- only the magic number is read
    have hreads : g.imageReads x y b = [0] := if_pos hmagic
    have hstores : g.imageStores x y b = [] := if_pos hmagic
    constructor
    · intro h
      have hfirst := h.reads 0 (by rw [hreads]; exact List.mem_singleton_self 0)
      exact ⟨by omega, fun heq => absurd heq hmagic⟩
    · rintro ⟨hfour, -⟩
      constructor
      · rw [hreads, List.forall_mem_singleton]
        omega
      · rw [hstores]
        exact List.forall_mem_nil _

/-! ## The picture -/

/-- The pixels of an image that fits are blended where integers say. -/
theorem map_blits {img : Image} (hright : x + toInt32 img.width < 2 ^ 31)
    (hbottom : y + toInt32 img.height < 2 ^ 31) :
    (g.blits x y img).map (fun p => (p.2, img.pixels p.1)) = g.imageWrites x y img := by
  obtain ⟨hx, hxw, hy, hyh⟩ := id hcursor
  obtain ⟨hw, hh⟩ := Gfx.side_lt hsize hcursor
  have hdrawH := drawSize_of_lt hy hyh hh hbottom
  rw [drawSize_eq_ite hy hyh hh hbottom] at hdrawH
  rw [Gfx.blits, drawSize_eq_ite hx hxw hw hright, drawSize_eq_ite hy hyh hh hbottom,
    Gfx.imageWrites]
  generalize (if g.height < y + toInt32 img.height then g.height - y else toInt32 img.height) =
    drawH at hdrawH ⊢
  generalize (if g.width < x + toInt32 img.width then g.width - x else toInt32 img.width) = drawW
  by_cases hempty : drawW ≤ 0 ∨ drawH ≤ 0
  · rw [if_pos hempty, if_pos hempty]
    rfl
  · rw [if_neg hempty, if_neg hempty, List.map_flatMap]
    apply List.flatMap_congr
    intro row hrow
    have hrow := Int.lt_toNat.mp (List.mem_range.mp hrow)
    rw [List.map_map, wrapInt_row hpitch hsize hcursor (by omega) (by omega), ← hpitch]
    rfl

/-- A file whose image fits is drawn as `Gfx.drawImage` draws its image. -/
theorem drawFile_eq_drawImage (h : ImageFits g x y b) :
    g.drawFile x y b = g.drawImage x y b.image := by
  rw [Gfx.drawFile, Gfx.drawImage]
  by_cases hmagic : b.image.magic = idpimgMagic
  · rw [if_neg (not_not_intro hmagic), if_neg (not_not_intro hmagic)]
    by_cases hdrawn : 0 < toInt32 b.image.width ∧ 0 < toInt32 b.image.height
    · obtain ⟨hright, hbottom, -⟩ := (h.2 hmagic).2 hdrawn.1 hdrawn.2
      rw [map_blits hpitch hsize hcursor hright hbottom]
    · -- nothing is drawn
      have hnil : g.imageWrites x y b.image = [] := by
        apply List.eq_nil_iff_forall_not_mem.mpr
        intro w hw
        obtain ⟨row, col, hrow, hcol, -⟩ := Gfx.mem_imageWrites.mp hw
        omega
      rw [blits_eq_nil hsize hcursor hdrawn, hnil]
      rfl
  · rw [if_pos hmagic, if_pos hmagic]

/-- An image with all of its pixels is drawn. -/
theorem FileBuffer.WellFormed.blendsImage (hwf : b.WellFormed) (hfile : b.size < 2 ^ 32)
    (hfits : ImageFits g x y b) : BlendsImage g (g.drawFile x y b) x y b.image := by
  intro px py hon
  obtain ⟨hmagic, hcount⟩ := hwf
  rw [drawFile_eq_drawImage hpitch hsize hcursor hfits]
  rcases Nat.eq_zero_or_pos (b.image.width * b.image.height) with hzero | hpos
  · -- there is no pixel
    have hmem : ¬(⟨x, y, b.image.width, b.image.height⟩ : Rect).Mem px py := by
      rintro ⟨hleft, hright, htop, hbottom⟩
      simp only at hleft hright htop hbottom
      rcases Nat.mul_eq_zero.mp hzero with hzero | hzero
      · omega
      · omega
    rw [if_neg hmem, Gfx.drawImage, if_neg (not_not_intro hmagic)]
    refine foldl_update_of_forall_ne fun w hw => ?_
    obtain ⟨row, col, hrow, hcol, -⟩ := Gfx.mem_imageWrites.mp hw
    rcases Nat.mul_eq_zero.mp hzero with hzero | hzero
    · rw [hzero, toInt32_of_lt (by decide)] at hcol
      omega
    · rw [hzero, toInt32_of_lt (by decide)] at hrow
      omega
  · have hwidth := Nat.le_mul_of_pos_right b.image.width (Nat.pos_of_mul_pos_left hpos)
    have hheight := Nat.le_mul_of_pos_left b.image.height (Nat.pos_of_mul_pos_right hpos)
    exact Gfx.drawImage_pixel hpitch hcursor.1 hmagic (toInt32_of_lt (by omega))
      (toInt32_of_lt (by omega)) (by omega) hon

end Accesses

/-! ## The sequence -/

namespace Term

variable {t : Term} {files : List (BitVec 8) → FileLoad}

/-- The buffer has the size of the file. -/
theorem size_of_oscFile {b : FileBuffer} (h : b ∈ t.oscFile files) :
    ∃ path, b.size = (files path).size := by
  rw [oscFile] at h
  split_ifs at h with hosc
  · rw [loadFileToMemory] at h
    split_ifs at h
    all_goals try exact absurd h (Option.not_mem_none b)
    exact ⟨_, (congrArg FileBuffer.size (Option.some.inj h)).symm⟩
  · exact absurd h (Option.not_mem_none b)

/-- The files that fit are drawn as `Term.drawOsc` draws their images. -/
theorem drawOscFile_eq_drawOsc (hpitch : t.gfx.pitch = t.gfx.width)
    (hsize : t.gfx.width * t.gfx.height < 2 ^ 31)
    (hcursor : t.gfx.OnScreen (t.cursorX * t.fontWidth) (t.cursorY * t.fontHeight))
    (hfits : ∀ b ∈ t.oscFile files,
      ImageFits t.gfx (t.cursorX * t.fontWidth) (t.cursorY * t.fontHeight) b) :
    t.drawOscFile files =
      t.drawOsc fun path => (loadFileToMemory (files path)).map FileBuffer.image := by
  rw [drawOscFile, drawOsc]
  by_cases hosc : t.oscBuffer.take 3 = [0x36#8, 0x39#8, 0x3b#8]
  · have hfile : t.oscFile files = loadFileToMemory (files (t.oscBuffer.drop 3)) := if_pos hosc
    rw [if_pos hosc, ← hfile]
    cases hb : t.oscFile files with
    | none => rfl
    | some b =>
      simp only [Option.map_some]
      rw [drawFile_eq_drawImage hpitch hsize hcursor (hfits b hb)]
  · have hfile : t.oscFile files = none := if_neg hosc
    rw [if_neg hosc, hfile]

/-- When a sequence ends with the cursor in the window, files are drawn safely if they fit. The
framebuffer is small enough for its rows to have numbers, and a size of the file system has 32
bits. -/
theorem draws_file_safely_iff (hpitch : t.gfx.pitch = t.gfx.width)
    (hsize : t.gfx.width * t.gfx.height < 2 ^ 31)
    (hcursor : t.gfx.OnScreen (t.cursorX * t.fontWidth) (t.cursorY * t.fontHeight))
    (hfiles : ∀ path, (files path).size < 2 ^ 32) :
    t.DrawsFileSafely files ↔ ∀ b ∈ t.oscFile files,
      ImageFits t.gfx (t.cursorX * t.fontWidth) (t.cursorY * t.fontHeight) b := by
  constructor
  · exact fun h b hb => (imageSafe_iff hpitch hsize hcursor).mp (h b hb).1
  · intro h b hb
    refine ⟨(imageSafe_iff hpitch hsize hcursor).mpr (h b hb), fun hwf => ?_⟩
    obtain ⟨path, hpath⟩ := size_of_oscFile hb
    rw [drawOscFile, Option.mem_def.mp hb]
    exact hwf.blendsImage hpitch hsize hcursor (hpath ▸ hfiles path) (h b hb)

/-! ## A header without pixels -/

/-- A terminal in a window of one pixel, at the end of a sequence for an image. -/
def imageSample : Term :=
  { zero ⟨fun _ => 0, 1, 1, 1, ⟨8, 16, 16, fun _ => 0⟩⟩ with
    oscBuffer := [0x36#8, 0x39#8, 0x3b#8, 0x61#8] }

/-- A file of some size. Its header is that of an image of one pixel. -/
def fileSample (size : ℕ) : FileLoad where
  statErr := 0
  size := size
  flags := 0
  allocated := true
  bytesRead := size
  mem offset :=
    if offset = 0 then 0x49#8 else if offset = 1 then 0x4D#8 else if offset = 2 then 0x47#8
    else if offset = 4 ∨ offset = 8 then 1#8 else 0#8

theorem draws_file_safely_sample : imageSample.DrawsFileSafely fun _ => fileSample 20 := by
  apply (draws_file_safely_iff rfl (by decide) ⟨by decide, by decide, by decide, by decide⟩
    fun _ => by decide).mpr
  intro b hb
  obtain rfl : ⟨20, (fileSample 20).mem⟩ = b := Option.some.inj hb
  constructor
  · decide
  · refine fun _ => ⟨by decide, fun _ _ => ⟨by decide, by decide, fun row hrow => ?_⟩⟩
    have hone : (row : ℤ) < 1 := hrow.trans_le (by decide)
    obtain rfl : row = 0 := by omega
    decide

/-- A file that ends behind its header is read behind its end. -/
theorem not_draws_file_safely_header :
    imageSample.gfx.OnScreen (imageSample.cursorX * imageSample.fontWidth)
      (imageSample.cursorY * imageSample.fontHeight) ∧
    ¬imageSample.DrawsFileSafely fun _ => fileSample 16 := by
  constructor
  · exact ⟨by decide, by decide, by decide, by decide⟩
  · intro h
    have hread := (h ⟨16, (fileSample 16).mem⟩ rfl).1.reads 16 (by decide)
    exact absurd hread (by decide)

end Term

end OpenIDP.Userspace
