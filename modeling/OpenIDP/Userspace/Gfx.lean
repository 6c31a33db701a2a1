import Mathlib.Data.List.Nodup
import OpenIDP.Math.Word
import OpenIDP.Math.Writes
import OpenIDP.Userspace.Rect

/-!
# Drawing

`src/userspace/libgfx/gfx.c` draws into the buffer that a client shares with the window manager.
The buffer is indexed by pixels, row after row. The arithmetic of `int` is that of the integers: its
overflow is not defined, and does not occur while a context has fewer than `2 ^ 31` pixels and the
ends of what is drawn are `int`s.

`gfx_init` refuses a context without a font, so every context has one.

## Main definitions

* `Font`, `Image`, `Gfx` — the data
* `Gfx.clear`, `Gfx.rect`, `Gfx.drawChar`, `Gfx.drawImage` — the functions

## Main results

* `Gfx.clear_fb_of_bounds`, `Gfx.rect_pixel`, `Gfx.drawChar_pixel` — the pixels afterwards
* `Gfx.clear_fb_outside`, `Gfx.rect_outside`, `Gfx.drawChar_outside`, `Gfx.drawImage_outside` —
  nothing is written outside of the buffer
-/

namespace OpenIDP.Userspace

open OpenIDP.Math

/-- `psf2_header_t`, with the bytes that follow it. -/
structure Font where
  width : ℕ
  height : ℕ
  charsize : ℕ
  glyphData : ℕ → BitVec 8

/-- The bit of a glyph for a pixel. The character is signed, and is multiplied as a 32-bit word. -/
def Font.isSet (font : Font) (c : BitVec 8) (row col : ℕ) : Bool :=
  let glyph := (c.toInt * font.charsize % 2 ^ 32).toNat
  let bytesPerRow := (font.width + 7) / 8
  (font.glyphData (glyph + (row * bytesPerRow + col / 8))).getLsbD (7 - col % 8)

/-- The glyph of a character has no bit set. -/
def Font.Blank (font : Font) (c : BitVec 8) : Prop :=
  ∀ row < font.height, ∀ col < font.width, font.isSet c row col = false

/-- `idpimg_header_t`, with the pixels that follow it. -/
structure Image where
  magic : ℕ
  width : ℕ
  height : ℕ
  pixels : ℕ → BitVec 32

/-- `IDPIMG_MAGIC` -/
def idpimgMagic : ℕ := 0x474D49

/-- `gfx_context_t` -/
structure Gfx where
  fb : ℤ → BitVec 32
  width : ℤ
  height : ℤ
  pitch : ℤ
  font : Font

/-- `blend_pixel` -/
def blendPixel (fg bg : BitVec 32) : BitVec 32 :=
  let alpha := (fg >>> 24) &&& 0xFF#32
  if alpha = 0#32 then bg
  else if alpha = 255#32 then fg
  else
    let invAlpha := 255#32 - alpha
    let blend (shift : ℕ) : BitVec 32 :=
      (((fg >>> shift) &&& 0xFF#32) * alpha + ((bg >>> shift) &&& 0xFF#32) * invAlpha) / 255#32
    0xFF000000#32 ||| (blend 16 <<< 16) ||| (blend 8 <<< 8) ||| blend 0

namespace Gfx

variable (g : Gfx)

/-- The window has another size, and its rows follow each other. -/
def withSize (width height : ℤ) : Gfx := { g with width := width, height := height, pitch := width }

/-- `gfx_clear` -/
def clear (color : BitVec 32) : Gfx :=
  let size := g.width * g.height
  { g with fb := writeAll g.fb ((List.range size.toNat).map fun i : ℕ => ((i : ℤ), color)) }

/-- `gfx_rect` -/
def rect (r : Rect) (color : BitVec 32) : Gfx :=
  let w := if r.x < 0 then r.w + r.x else r.w
  let x := if r.x < 0 then 0 else r.x
  let h := if r.y < 0 then r.h + r.y else r.h
  let y := if r.y < 0 then 0 else r.y
  let w := if g.width < x + w then g.width - x else w
  let h := if g.height < y + h then g.height - y else h
  if w ≤ 0 ∨ h ≤ 0 then g
  else
    { g with
      fb := writeAll g.fb ((List.range h.toNat).flatMap fun row : ℕ =>
        (List.range w.toNat).map fun col : ℕ => ((y + row) * g.pitch + x + col, color)) }

/-- The pixels that `gfx_draw_char` writes. -/
def charWrites (x y : ℤ) (c : BitVec 8) (fg bg : BitVec 32) : List (ℤ × BitVec 32) :=
  let rows := (List.range g.font.height).takeWhile fun row : ℕ => y + row < g.height
  let cols := (List.range g.font.width).takeWhile fun col : ℕ => x + col < g.width
  rows.flatMap fun row : ℕ => cols.map fun col : ℕ =>
    ((y + row) * g.pitch + x + col, if g.font.isSet c row col then fg else bg)

/-- `gfx_draw_char` -/
def drawChar (x y : ℤ) (c : BitVec 8) (fg bg : BitVec 32) : Gfx :=
  if g.width ≤ x ∨ g.height ≤ y then g
  else { g with fb := writeAll g.fb (g.charWrites x y c fg bg) }

/-- The pixels that `gfx_draw_image` blends. -/
def imageWrites (x y : ℤ) (img : Image) : List (ℤ × BitVec 32) :=
  let drawW := if g.width < x + toInt32 img.width then g.width - x else toInt32 img.width
  let drawH := if g.height < y + toInt32 img.height then g.height - y else toInt32 img.height
  if drawW ≤ 0 ∨ drawH ≤ 0 then []
  else
    (List.range drawH.toNat).flatMap fun row : ℕ => (List.range drawW.toNat).map fun col : ℕ =>
      ((y + row) * g.pitch + x + col, img.pixels (row * img.width % 2 ^ 32 + col))

/-- `gfx_draw_image` -/
def drawImage (x y : ℤ) (img : Image) : Gfx :=
  if img.magic ≠ idpimgMagic then g
  else
    { g with
      fb := (g.imageWrites x y img).foldl
        (fun fb w => Function.update fb w.1 (blendPixel w.2 (fb w.1))) g.fb }

/-! ## Pixels -/

variable {g}

/-- The index of a pixel. -/
def pixel (g : Gfx) (px py : ℤ) : ℤ := py * g.width + px

/-- A pixel of the buffer. -/
def OnScreen (g : Gfx) (px py : ℤ) : Prop := 0 ≤ px ∧ px < g.width ∧ 0 ≤ py ∧ py < g.height

/-- Numbers with the same index in rows of some length are in the same row and column. -/
theorem index_inj {n a b a' b' : ℤ} (ha : 0 ≤ a) (hn : a < n) (ha' : 0 ≤ a') (hn' : a' < n)
    (h : b * n + a = b' * n + a') : a = a' ∧ b = b' := by
  have hpos : 0 < n := ha.trans_lt hn
  have hdiv : ∀ a b : ℤ, 0 ≤ a → a < n → (b * n + a) / n = b := by
    intro a b ha hlt
    rw [add_comm, Int.add_mul_ediv_right _ _ hpos.ne', Int.ediv_eq_zero_of_lt ha hlt, zero_add]
  have hrow : b = b' := by
    rw [← hdiv a b ha hn, h, hdiv a' b' ha' hn']
  subst hrow
  exact ⟨by omega, rfl⟩

theorem pixel_bounds {px py : ℤ} (h : g.OnScreen px py) :
    0 ≤ g.pixel px py ∧ g.pixel px py < g.width * g.height := by
  obtain ⟨hx, hw, hy, hh⟩ := h
  have hrow := Int.mul_le_mul_of_nonneg_right (Int.add_one_le_iff.mpr hh) (hx.trans hw.le)
  rw [add_mul, one_mul, mul_comm g.height] at hrow
  have hlow : 0 ≤ py * g.width := Int.mul_nonneg hy (hx.trans hw.le)
  unfold pixel
  omega

/-- Every index within the size belongs to a pixel. -/
theorem exists_pixel {k : ℤ} (hw : 0 < g.width) (hlow : 0 ≤ k) (hhigh : k < g.width * g.height) :
    ∃ px py, g.OnScreen px py ∧ k = g.pixel px py := by
  refine ⟨k % g.width, k / g.width, ⟨Int.emod_nonneg _ hw.ne', Int.emod_lt_of_pos _ hw,
    Int.ediv_nonneg hlow hw.le, Int.ediv_lt_of_lt_mul hw (by rwa [mul_comm])⟩, ?_⟩
  exact (Int.ediv_mul_add_emod k g.width).symm

/-! ## Clearing -/

theorem clear_fb_of_bounds {k : ℤ} {color : BitVec 32} (hlow : 0 ≤ k)
    (hhigh : k < g.width * g.height) : (g.clear color).fb k = color := by
  refine writeAll_of_mem (List.mem_map.mpr ⟨k.toNat, ?_, ?_⟩) fun w hw _ => ?_
  · exact List.mem_range.mpr (by omega)
  · rw [Int.toNat_of_nonneg hlow]
  · obtain ⟨i, -, rfl⟩ := List.mem_map.mp hw
    rfl

theorem clear_fb_outside {k : ℤ} {color : BitVec 32} (h : k < 0 ∨ g.width * g.height ≤ k) :
    (g.clear color).fb k = g.fb k := by
  refine writeAll_of_forall_ne fun w hw => ?_
  obtain ⟨i, hi, rfl⟩ := List.mem_map.mp hw
  have hi := List.mem_range.mp hi
  rcases h with h | h
  · exact fun heq => by simp only at heq; omega
  · exact fun heq => by simp only at heq; omega

/-! ## Rectangles -/

section Rectangle

variable {r : Rect} {color : BitVec 32}

theorem clip_start {n : ℤ} : (if n < 0 then 0 else n) = max n 0 := by
  split_ifs
  all_goals omega

/-- The comparisons of `gfx_rect` on an axis leave what is on the screen. -/
theorem clip_size {n len size : ℤ} :
    (if size < max n 0 + (if n < 0 then len + n else len) then size - max n 0
      else if n < 0 then len + n else len) = min (n + len) size - max n 0 := by
  split_ifs
  all_goals omega

/-- The pixels that are written, row after row, are those on the screen. -/
theorem mem_rect {color : BitVec 32} {w : ℤ × BitVec 32} (hpitch : g.pitch = g.width) :
    (w ∈ (List.range (min (r.y + r.h) g.height - max r.y 0).toNat).flatMap fun row : ℕ =>
      (List.range (min (r.x + r.w) g.width - max r.x 0).toNat).map fun col : ℕ =>
        ((max r.y 0 + row) * g.pitch + max r.x 0 + col, color)) ↔
      ∃ px py, g.OnScreen px py ∧ r.Mem px py ∧ w = (g.pixel px py, color) := by
  simp only [List.mem_flatMap, List.mem_map, List.mem_range, hpitch, pixel, OnScreen, Rect.Mem]
  constructor
  · rintro ⟨row, hrow, col, hcol, rfl⟩
    refine ⟨max r.x 0 + col, max r.y 0 + row, by omega, by omega, ?_⟩
    rw [add_assoc]
  · rintro ⟨px, py, hscreen, hmem, rfl⟩
    refine ⟨(py - max r.y 0).toNat, by omega, (px - max r.x 0).toNat, by omega, ?_⟩
    rw [Int.toNat_of_nonneg (by omega), Int.toNat_of_nonneg (by omega), add_sub_cancel, add_assoc,
      add_sub_cancel]

/-- `gfx_rect` writes the pixels of a rectangle that are on the screen. -/
theorem exists_rect_writes (hpitch : g.pitch = g.width) (r : Rect) (color : BitVec 32) :
    ∃ writes : List (ℤ × BitVec 32), (g.rect r color).fb = writeAll g.fb writes ∧
      ∀ w, w ∈ writes ↔ ∃ px py, g.OnScreen px py ∧ r.Mem px py ∧ w = (g.pixel px py, color) := by
  simp only [rect, clip_start, clip_size]
  refine ⟨_, ?_, fun w => mem_rect hpitch⟩
  split_ifs with hempty
  · -- one of the loops is empty
    rcases hempty with hw | hh
    · rw [Int.toNat_of_nonpos hw]
      exact (congrArg (writeAll g.fb) (List.flatMap_eq_nil_iff.mpr fun _ _ => rfl)).symm
    · rw [Int.toNat_of_nonpos hh]
      rfl
  · rfl

/-- Its pixels on the screen get the color, and others are unchanged. -/
theorem rect_pixel {px py : ℤ} (hpitch : g.pitch = g.width) (h : g.OnScreen px py) :
    (g.rect r color).fb (g.pixel px py) =
      if r.Mem px py then color else g.fb (g.pixel px py) := by
  obtain ⟨writes, hfb, hwrites⟩ := exists_rect_writes hpitch r color
  rw [hfb]
  by_cases hmem : r.Mem px py
  · rw [if_pos hmem]
    refine writeAll_of_mem ((hwrites _).mpr ⟨px, py, h, hmem, rfl⟩) fun w hw _ => ?_
    obtain ⟨_, _, -, -, rfl⟩ := (hwrites w).mp hw
    rfl
  · rw [if_neg hmem]
    refine writeAll_of_forall_ne fun w hw heq => hmem ?_
    obtain ⟨px', py', hscreen, hmem', rfl⟩ := (hwrites w).mp hw
    obtain ⟨rfl, rfl⟩ := index_inj hscreen.1 hscreen.2.1 h.1 h.2.1 heq
    exact hmem'

/-- A rectangle does not write outside of the buffer. -/
theorem rect_outside {k : ℤ} (hpitch : g.pitch = g.width)
    (h : k < 0 ∨ g.width * g.height ≤ k) : (g.rect r color).fb k = g.fb k := by
  obtain ⟨writes, hfb, hwrites⟩ := exists_rect_writes hpitch r color
  rw [hfb]
  refine writeAll_of_forall_ne fun w hw heq => ?_
  obtain ⟨px, py, hscreen, -, rfl⟩ := (hwrites w).mp hw
  have hbounds := pixel_bounds hscreen
  simp only at heq
  omega

end Rectangle

/-! ## Characters -/

section Char

variable {x y : ℤ} {c : BitVec 8} {fg bg : BitVec 32}

theorem mem_charWrites {w : ℤ × BitVec 32} : w ∈ g.charWrites x y c fg bg ↔
    ∃ row < g.font.height, ∃ col < g.font.width, y + row < g.height ∧ x + col < g.width ∧
      w = ((y + row) * g.pitch + x + col, if g.font.isSet c row col then fg else bg) := by
  have hrows : ∀ row : ℕ, row ∈ (List.range g.font.height).takeWhile
      (fun row : ℕ => decide (y + row < g.height)) ↔ row < g.font.height ∧ y + row < g.height :=
    fun row => (mem_takeWhile_range fun i j hij hj => by
      have := of_decide_eq_true hj
      exact decide_eq_true (by omega)).trans (and_congr_right fun _ => decide_eq_true_iff)
  have hcols : ∀ col : ℕ, col ∈ (List.range g.font.width).takeWhile
      (fun col : ℕ => decide (x + col < g.width)) ↔ col < g.font.width ∧ x + col < g.width :=
    fun col => (mem_takeWhile_range fun i j hij hj => by
      have := of_decide_eq_true hj
      exact decide_eq_true (by omega)).trans (and_congr_right fun _ => decide_eq_true_iff)
  rw [charWrites, List.mem_flatMap]
  constructor
  · rintro ⟨row, hrow, hw⟩
    obtain ⟨col, hcol, rfl⟩ := List.mem_map.mp hw
    obtain ⟨hrow, hy⟩ := (hrows row).mp hrow
    obtain ⟨hcol, hx⟩ := (hcols col).mp hcol
    exact ⟨row, hrow, col, hcol, hy, hx, rfl⟩
  · rintro ⟨row, hrow, col, hcol, hy, hx, rfl⟩
    exact ⟨row, (hrows row).mpr ⟨hrow, hy⟩,
      List.mem_map.mpr ⟨col, (hcols col).mpr ⟨hcol, hx⟩, rfl⟩⟩

/-- The pixels of the box of a character get the colours of the glyph, and others are unchanged. -/
theorem drawChar_pixel {px py : ℤ} (hpitch : g.pitch = g.width) (hx : 0 ≤ x)
    (h : g.OnScreen px py) :
    (g.drawChar x y c fg bg).fb (g.pixel px py) =
      if (⟨x, y, g.font.width, g.font.height⟩ : Rect).Mem px py then
        if g.font.isSet c (py - y).toNat (px - x).toNat then fg else bg
      else g.fb (g.pixel px py) := by
  obtain ⟨hpx, hpw, hpy, hph⟩ := h
  -- a write to the pixel comes from its row and its column in the box
  have hfrom : ∀ w ∈ g.charWrites x y c fg bg, w.1 = g.pixel px py →
      (⟨x, y, g.font.width, g.font.height⟩ : Rect).Mem px py ∧
        w.2 = if g.font.isSet c (py - y).toNat (px - x).toNat then fg else bg := by
    intro w hw heq
    obtain ⟨row, hrow, col, hcol, -, hxw, rfl⟩ := mem_charWrites.mp hw
    rw [hpitch, add_assoc] at heq
    obtain ⟨rfl, rfl⟩ := index_inj (by omega) hxw hpx hpw heq
    refine ⟨⟨by simp only; omega, by simp only; omega, by simp only; omega,
      by simp only; omega⟩, ?_⟩
    rw [show (y + row - y).toNat = row by omega, show (x + col - x).toNat = col by omega]
  rw [drawChar]
  by_cases hmem : (⟨x, y, g.font.width, g.font.height⟩ : Rect).Mem px py
  · rw [if_pos hmem]
    obtain ⟨hleft, hright, htop, hbottom⟩ := hmem
    simp only at hleft hright htop hbottom
    have hon : ¬(g.width ≤ x ∨ g.height ≤ y) := by omega
    rw [if_neg hon]
    refine writeAll_of_mem (mem_charWrites.mpr ⟨(py - y).toNat, by omega, (px - x).toNat, by omega,
      by omega, by omega, Prod.ext ?_ rfl⟩) fun w hw heq => (hfrom w hw heq).2
    rw [hpitch, add_assoc, Int.toNat_of_nonneg (by omega), Int.toNat_of_nonneg (by omega)]
    simp only [pixel, add_sub_cancel]
  · rw [if_neg hmem]
    split_ifs
    · rfl
    · exact writeAll_of_forall_ne fun w hw heq => hmem (hfrom w hw heq).1

/-- A character does not write outside of the buffer. -/
theorem drawChar_outside {k : ℤ} (hpitch : g.pitch = g.width) (hx : 0 ≤ x) (hy : 0 ≤ y)
    (h : k < 0 ∨ g.width * g.height ≤ k) : (g.drawChar x y c fg bg).fb k = g.fb k := by
  rw [drawChar]
  split_ifs
  · rfl
  · refine writeAll_of_forall_ne fun w hw heq => ?_
    obtain ⟨row, -, col, -, hyh, hxw, rfl⟩ := mem_charWrites.mp hw
    have hon : g.OnScreen (x + col) (y + row) := ⟨by omega, hxw, by omega, hyh⟩
    have hbounds := pixel_bounds hon
    rw [pixel] at hbounds
    simp only [hpitch] at heq
    omega

end Char

/-! ## Images -/

section Image

variable {x y : ℤ} {img : Image}

/-- What is left of an image on an axis has the numbers that are on the screen. -/
theorem lt_clip_iff {n len size : ℤ} {i : ℕ} :
    i < (if size < n + len then size - n else len) ↔ (i : ℤ) < len ∧ n + i < size := by
  split_ifs
  all_goals omega

theorem mem_imageWrites {w : ℤ × BitVec 32} : w ∈ g.imageWrites x y img ↔
    ∃ row col : ℕ, row < toInt32 img.height ∧ col < toInt32 img.width ∧ y + row < g.height ∧
      x + col < g.width ∧
      w = ((y + row) * g.pitch + x + col, img.pixels (row * img.width % 2 ^ 32 + col)) := by
  refine mem_nested_range.trans (exists_congr fun row => exists_congr fun col => ?_)
  rw [lt_clip_iff, lt_clip_iff]
  constructor
  · rintro ⟨⟨hrow, hyh⟩, ⟨hcol, hxw⟩, hw⟩
    exact ⟨hrow, hcol, hyh, hxw, hw⟩
  · rintro ⟨hrow, hcol, hyh, hxw, hw⟩
    exact ⟨⟨hrow, hyh⟩, ⟨hcol, hxw⟩, hw⟩

/-- Different pixels of an image are blended into different pixels of the buffer. -/
theorem imageWrites_nodup (hpitch : g.pitch = g.width) (hx : 0 ≤ x) :
    ((g.imageWrites x y img).map Prod.fst).Nodup := by
  have hcols := fun i => @lt_clip_iff x (toInt32 img.width) g.width i
  rw [imageWrites]
  generalize (if g.width < x + toInt32 img.width then g.width - x else toInt32 img.width) =
    drawW at hcols ⊢
  generalize (if g.height < y + toInt32 img.height then g.height - y else toInt32 img.height) =
    drawH
  by_cases hempty : drawW ≤ 0 ∨ drawH ≤ 0
  · rw [if_pos hempty]
    exact List.nodup_nil
  · rw [if_neg hempty, List.map_flatMap]
    simp only [List.map_map, hpitch]
    -- columns of a row are within it
    have hinj : ∀ row row' col col' : ℕ, col ∈ List.range drawW.toNat →
        col' ∈ List.range drawW.toNat →
        (y + row) * g.width + x + col = (y + row') * g.width + x + col' →
        row = row' ∧ col = col' := by
      intro row row' col col' hcol hcol' heq
      have hcol := (hcols col).mp (Int.lt_toNat.mp (List.mem_range.mp hcol))
      have hcol' := (hcols col').mp (Int.lt_toNat.mp (List.mem_range.mp hcol'))
      rw [add_assoc, add_assoc _ x] at heq
      have := index_inj (by omega) hcol.2 (by omega) hcol'.2 heq
      omega
    refine List.nodup_flatMap.mpr ⟨fun row _ => ?_, ?_⟩
    · exact List.Nodup.map_on (fun col hcol col' hcol' heq => (hinj _ _ _ _ hcol hcol' heq).2)
        List.nodup_range
    · refine List.nodup_range.imp fun {row row'} hne w hw hw' => ?_
      obtain ⟨col, hcol, rfl⟩ := List.mem_map.mp hw
      obtain ⟨col', hcol', heq⟩ := List.mem_map.mp hw'
      exact hne (hinj _ _ _ _ hcol' hcol heq).1.symm

/-- The pixels that an image covers are blended with it, and others are unchanged. -/
theorem drawImage_pixel {px py : ℤ} (hpitch : g.pitch = g.width) (hx : 0 ≤ x)
    (hmagic : img.magic = idpimgMagic) (hwidth : toInt32 img.width = img.width)
    (hheight : toInt32 img.height = img.height) (hcount : img.width * img.height < 2 ^ 32)
    (h : g.OnScreen px py) :
    (g.drawImage x y img).fb (g.pixel px py) =
      if (⟨x, y, img.width, img.height⟩ : Rect).Mem px py then
        blendPixel (img.pixels ((py - y).toNat * img.width + (px - x).toNat))
          (g.fb (g.pixel px py))
      else g.fb (g.pixel px py) := by
  obtain ⟨hpx, hpw, hpy, hph⟩ := h
  rw [drawImage, if_neg (not_not_intro hmagic)]
  by_cases hmem : (⟨x, y, img.width, img.height⟩ : Rect).Mem px py
  · rw [if_pos hmem]
    obtain ⟨hleft, hright, htop, hbottom⟩ := hmem
    simp only at hleft hright htop hbottom
    refine foldl_update_of_mem (imageWrites_nodup hpitch hx) (mem_imageWrites.mpr
      ⟨(py - y).toNat, (px - x).toNat, by omega, by omega, by omega, by omega, Prod.ext ?_ ?_⟩)
    · rw [hpitch, add_assoc, Int.toNat_of_nonneg (by omega), Int.toNat_of_nonneg (by omega)]
      simp only [pixel, add_sub_cancel]
    · have hrow : (py - y).toNat * img.width < 2 ^ 32 := by
        refine (Nat.mul_le_mul_right img.width (by omega : (py - y).toNat ≤ img.height)).trans_lt ?_
        rwa [mul_comm]
      simp only
      rw [Nat.mod_eq_of_lt hrow]
  · rw [if_neg hmem]
    refine foldl_update_of_forall_ne fun w hw heq => hmem ?_
    obtain ⟨row, col, hrow, hcol, -, hxw, rfl⟩ := mem_imageWrites.mp hw
    rw [hpitch, add_assoc] at heq
    obtain ⟨rfl, rfl⟩ := index_inj (by omega) hxw hpx hpw heq
    exact ⟨by simp only; omega, by simp only; omega, by simp only; omega, by simp only; omega⟩

/-- An image does not write outside of the buffer. -/
theorem drawImage_outside {k : ℤ} (hpitch : g.pitch = g.width) (hx : 0 ≤ x)
    (hy : 0 ≤ y) (h : k < 0 ∨ g.width * g.height ≤ k) : (g.drawImage x y img).fb k = g.fb k := by
  rw [drawImage]
  split_ifs
  · rfl
  · refine foldl_update_of_forall_ne fun w hw => ?_
    obtain ⟨row, col, -, -, hyh, hxw, rfl⟩ := mem_imageWrites.mp hw
    have hon : g.OnScreen (x + col) (y + row) := ⟨by omega, hxw, by omega, hyh⟩
    have hbounds := pixel_bounds hon
    rw [pixel] at hbounds
    simp only [hpitch]
    omega

end Image

end Gfx

end OpenIDP.Userspace
