import OpenIDP.Userspace.Gfx
import OpenIDP.Userspace.WmPaint

/-!
# Clipped rectangles

`wm_present_rect` and `fb_fill_rect` compare an `int` with a 64-bit size. An end before the screen
counts as a huge number there, and is taken back to the end of the screen. `gfx_rect` compares
`int`s.

## Main definitions

* `clipEnd` — where the two functions end on an axis
* `Fills`, `Presents`, `Gfx.DrawsRect` — the pixels of a rectangle on the screen, and no others

## Main results

* `fillRect_eq`, `presentRect_copies` — what the functions do
* `clipped_iff` — when they fill and copy what is on the screen
* `fill_left_of_screen` — a rectangle that ends before the screen
-/

namespace OpenIDP.Userspace

open OpenIDP.Math

/-- A screen: rows have their pixels and are words, and sizes are those of an `int`. -/
structure Frame.IsScreen (frame : Frame) : Prop where
  pixels : frame.fbWidth * 4 ≤ frame.fbPitch
  words : frame.fbPitch % 4 = 0
  pitch : frame.fbPitch < 2 ^ 31
  height : frame.fbHeight < 2 ^ 31

/-- The coordinates, sizes and ends of a rectangle are `int`s. -/
structure Rect.IsInt (r : Rect) : Prop where
  x : -2 ^ 31 ≤ r.x ∧ r.x < 2 ^ 31
  y : -2 ^ 31 ≤ r.y ∧ r.y < 2 ^ 31
  w : -2 ^ 31 ≤ r.w ∧ r.w < 2 ^ 31
  h : -2 ^ 31 ≤ r.h ∧ r.h < 2 ^ 31
  right : -2 ^ 31 ≤ r.x + r.w ∧ r.x + r.w < 2 ^ 31
  bottom : -2 ^ 31 ≤ r.y + r.h ∧ r.y + r.h < 2 ^ 31

/-- Where a rectangle ends on an axis of the screen, for the comparison with a 64-bit size. -/
def clipEnd (size : ℕ) (n len : ℤ) : ℤ := if n + len < 0 then size else min (n + len) size

/-- On an axis nothing is drawn: a rectangle starts after the screen, or it ends before it starts
there, and not before the screen. -/
def Misses (size : ℕ) (n len : ℤ) : Prop :=
  size ≤ max n 0 ∨ 0 ≤ n + len ∧ n + len ≤ max n 0

/-- The part of a rectangle that is drawn. -/
def Rect.drawn (frame : Frame) (r : Rect) : Rect where
  x := max r.x 0
  y := max r.y 0
  w := clipEnd frame.fbWidth r.x r.w - max r.x 0
  h := clipEnd frame.fbHeight r.y r.h - max r.y 0

section Axis

variable {size : ℕ} {n len : ℤ}

/-- The two comparisons on an axis, as the functions make them. -/
theorem clip_axis (hsize : size < 2 ^ 31) (hn : -2 ^ 31 ≤ n ∧ n < 2 ^ 31)
    (hlen : -2 ^ 31 ≤ len ∧ len < 2 ^ 31) (hend : -2 ^ 31 ≤ n + len ∧ n + len < 2 ^ 31) :
    (if size < toU64 (int32 (max n 0 + if n < 0 then int32 (len + n) else len)) then
        toInt32 (toU64 (size - max n 0))
      else if n < 0 then int32 (len + n) else len) = clipEnd size n len - max n 0 := by
  unfold clipEnd toU64 int32 toInt32
  split_ifs
  all_goals omega

theorem misses_iff : Misses size n len ↔ clipEnd size n len ≤ max n 0 := by
  unfold Misses clipEnd
  split_ifs
  all_goals omega

theorem clipEnd_le (size : ℕ) (n len : ℤ) : clipEnd size n len ≤ size := by
  unfold clipEnd
  split_ifs
  · exact le_rfl
  · exact min_le_right _ _

end Axis

section Drawn

variable {frame : Frame} {r : Rect} {o : ℤ}

/-- The byte is in the part of a rectangle that is on the screen. -/
def Rect.OnScreen (frame : Frame) (r : Rect) (o : ℤ) : Prop :=
  r.HasByte frame.fbPitch o ∧ frame.visible.HasByte frame.fbPitch o

instance (o : ℤ) : Decidable (r.OnScreen frame o) := inferInstanceAs (Decidable (_ ∧ _))

/-- What is drawn is on the screen, and is not empty when the rectangle misses it on no axis. -/
theorem drawn_bounds (hx : ¬Misses frame.fbWidth r.x r.w) (hy : ¬Misses frame.fbHeight r.y r.h) :
    0 < (r.drawn frame).w ∧ 0 < (r.drawn frame).h ∧ (r.drawn frame).Inside frame.visible := by
  rw [misses_iff, not_le] at hx hy
  have hright := clipEnd_le frame.fbWidth r.x r.w
  have hbottom := clipEnd_le frame.fbHeight r.y r.h
  refine ⟨sub_pos.mpr hx, sub_pos.mpr hy, ?_⟩
  constructor
  all_goals
    simp only [Rect.drawn, Frame.visible]
    omega

theorem drawn_empty (h : Misses frame.fbWidth r.x r.w ∨ Misses frame.fbHeight r.y r.h) :
    ¬(0 < (r.drawn frame).w ∧ 0 < (r.drawn frame).h) := by
  rw [misses_iff, misses_iff] at h
  simp only [Rect.drawn]
  omega

theorem Rect.HasByte.pos {pitch : ℤ} (h : r.HasByte pitch o) : 0 < r.w ∧ 0 < r.h := by
  obtain ⟨htop, hbottom, hleft, hright⟩ := h
  omega

/-- Where a rectangle misses the screen on an axis, or does not end before it, what is drawn is what
is on the screen. -/
theorem drawn_hasByte (h : Misses frame.fbWidth r.x r.w ∨ Misses frame.fbHeight r.y r.h ∨
    0 ≤ r.x + r.w ∧ 0 ≤ r.y + r.h) :
    (r.drawn frame).HasByte frame.fbPitch o ↔ r.OnScreen frame o := by
  unfold Misses at h
  simp only [Rect.OnScreen, Rect.HasByte, Rect.drawn, Frame.visible, clipEnd]
  split_ifs
  all_goals omega

/-- Where a rectangle ends before the screen, nothing of it is on the screen. -/
theorem not_onScreen (h : r.x + r.w < 0 ∨ r.y + r.h < 0) : ¬r.OnScreen frame o := by
  rintro ⟨⟨-, hbottom, -, hright⟩, htop, -, hleft, -⟩
  simp only [Frame.visible] at htop hleft
  omega

end Drawn

section Fill

variable {frame : Frame} {r : Rect} {color : BitVec 32} {fb : Buffer} {o : ℤ}

/-- The words that the loops of `fb_fill_rect` write. -/
def fillWords (stride : ℤ) (r : Rect) : List ℤ :=
  (List.range r.h.toNat).flatMap fun yy : ℕ => (List.range r.w.toNat).map fun xx : ℕ =>
    int32 (int32 (r.y + yy) * stride) + r.x + xx

/-- Words are filled with a color. -/
theorem storePixels_eq (color : BitVec 32) (words : List ℤ) (fb : Buffer) (o : ℤ) :
    words.foldl (fun fb i => storePixel color fb (i * 4)) fb o =
      if o / 4 ∈ words then color.extractLsb' (8 * (o % 4).toNat) 8 else fb o := by
  induction words generalizing fb with
  | nil => rfl
  | cons i words ih =>
    rw [List.foldl_cons, ih]
    by_cases hrest : o / 4 ∈ words
    · rw [if_pos hrest, if_pos (List.mem_cons_of_mem _ hrest)]
    · rw [if_neg hrest, storePixel]
      by_cases hword : o / 4 = i
      · rw [if_pos (by omega), if_pos (List.mem_cons.mpr (Or.inl hword))]
        congr 3
        omega
      · have hnot : o / 4 ∉ i :: words := fun hmem =>
          (List.mem_cons.mp hmem).elim hword hrest
        rw [if_neg (by omega), if_neg hnot]

/-- What `fb_fill_rect` does to a byte. -/
theorem fillRect_eq (hscreen : frame.IsScreen) (hint : r.IsInt) :
    fillRect frame color r fb o =
      if 0 < r.w ∧ 0 < r.h ∧ o / 4 ∈ fillWords (frame.fbPitch / 4) (r.drawn frame) then
        color.extractLsb' (8 * (o % 4).toNat) 8
      else fb o := by
  have hwidth : frame.fbWidth < 2 ^ 31 := by
    have hpixels := hscreen.pixels
    have hpitch := hscreen.pitch
    omega
  have hstride : frame.pitchBytes.tdiv 4 = (frame.fbPitch : ℤ) / 4 := by
    rw [Frame.pitchBytes, toInt32_of_lt hscreen.pitch]
    exact Int.tdiv_eq_ediv_of_nonneg (Int.natCast_nonneg _)
  by_cases hempty : r.w ≤ 0 ∨ r.h ≤ 0
  · rw [fillRect, if_pos hempty, if_neg (by omega)]
  · rw [fillRect, if_neg hempty]
    simp only [Gfx.clip_start, clip_axis hwidth hint.x hint.w hint.right,
      clip_axis hscreen.height hint.y hint.h hint.bottom, hstride]
    have hfold := storePixels_eq color (fillWords (frame.fbPitch / 4) (r.drawn frame)) fb o
    rw [fillWords, List.foldl_flatMap] at hfold
    simp only [List.foldl_map] at hfold
    refine hfold.trans (if_congr ?_ rfl rfl)
    exact ⟨fun hmem => ⟨by omega, by omega, hmem⟩, fun hall => hall.2.2⟩

theorem mem_fillWords {stride i : ℤ} {r : Rect} : i ∈ fillWords stride r ↔
    ∃ yy : ℕ, yy < r.h.toNat ∧ ∃ xx : ℕ, xx < r.w.toNat ∧
      i = int32 (int32 (r.y + yy) * stride) + r.x + xx := by
  simp only [fillWords, List.mem_flatMap, List.mem_map, List.mem_range, eq_comm]

theorem fillWords_pos {stride i : ℤ} {r : Rect} (h : i ∈ fillWords stride r) :
    0 < r.w ∧ 0 < r.h := by
  obtain ⟨yy, hyy, xx, hxx, -⟩ := mem_fillWords.mp h
  omega

/-- With offsets of rows that are `int`s, the words of a rectangle on the screen are its pixels. -/
theorem fillWords_hasByte (hscreen : frame.IsScreen) {d : Rect} (hin : d.Inside frame.visible)
    (hlast : (d.y + d.h - 1) * (frame.fbPitch / 4 : ℤ) < 2 ^ 31) :
    o / 4 ∈ fillWords (frame.fbPitch / 4) d ↔ d.HasByte frame.fbPitch o := by
  obtain ⟨hleft, hright, htop, hbottom, -, -⟩ := hin
  simp only [Frame.visible, zero_add] at hleft hright htop hbottom
  obtain ⟨hpixels, hwords, hpitch, hheight⟩ := hscreen
  obtain ⟨stride, hstride⟩ : ∃ stride : ℤ, (frame.fbPitch : ℤ) = stride * 4 :=
    ⟨frame.fbPitch / 4, by omega⟩
  have hdiv : (frame.fbPitch : ℤ) / 4 = stride := by omega
  rw [hdiv] at hlast ⊢
  -- the offset of each row that is filled is an `int`
  have hrow : ∀ y : ℤ, d.y ≤ y → y < d.y + d.h → int32 (int32 y * stride) = y * stride := by
    intro y hlow hhigh
    have hle : y * stride ≤ (d.y + d.h - 1) * stride :=
      mul_le_mul_of_nonneg_right (by omega) (by omega)
    have hnonneg : 0 ≤ y * stride := Int.mul_nonneg (by omega) (by omega)
    rw [int32_of_bounds (n := y) (by omega) (by omega), int32_of_bounds (by omega) (by omega)]
  have hrowBytes : ∀ y : ℤ, y * (frame.fbPitch : ℤ) = y * stride * 4 := fun y => by
    rw [hstride, mul_assoc]
  rw [mem_fillWords, Rect.HasByte]
  constructor
  · rintro ⟨yy, hyy, xx, hxx, hword⟩
    rw [hrow _ (by omega) (by omega)] at hword
    have hplace := @row_byte frame.fbPitch (d.y + yy) ((d.x + xx) * 4 + o % 4) (by omega)
      (by omega)
    have hbytes := hrowBytes (d.y + yy)
    have ho : (d.y + yy) * (frame.fbPitch : ℤ) + ((d.x + xx) * 4 + o % 4) = o := by omega
    rw [ho] at hplace
    rw [hplace.1, hplace.2]
    omega
  · rintro ⟨hlow, hhigh, hcol, hcol'⟩
    have hpos : (0 : ℤ) < frame.fbPitch := by omega
    obtain ⟨ho, hnonneg, hlt⟩ := byte_row hpos o
    refine ⟨(o / frame.fbPitch - d.y).toNat, by omega,
      (o % frame.fbPitch / 4 - d.x).toNat, by omega, ?_⟩
    rw [Int.toNat_of_nonneg (by omega), Int.toNat_of_nonneg (by omega), add_sub_cancel,
      hrow _ hlow hhigh]
    have hbytes := hrowBytes (o / frame.fbPitch)
    omega

/-- The first pixel of the last row. -/
theorem exists_last_word (hscreen : frame.IsScreen) {d : Rect} (hw : 0 < d.w) (hh : 0 < d.h)
    (hin : d.Inside frame.visible) :
    ∃ o, o / 4 = (d.y + d.h - 1) * (frame.fbPitch / 4 : ℤ) + d.x ∧ d.HasByte frame.fbPitch o := by
  obtain ⟨hleft, hright, htop, hbottom, -, -⟩ := hin
  simp only [Frame.visible, zero_add] at hleft hright htop hbottom
  obtain ⟨hpixels, hwords, hpitch, hheight⟩ := hscreen
  obtain ⟨stride, hstride⟩ : ∃ stride : ℤ, (frame.fbPitch : ℤ) / 4 = stride := ⟨_, rfl⟩
  have hbytes : (d.y + d.h - 1) * (frame.fbPitch : ℤ) = (d.y + d.h - 1) * stride * 4 := by
    rw [mul_assoc]
    exact congrArg _ (by omega)
  have hplace := @row_byte frame.fbPitch (d.y + d.h - 1) (d.x * 4) (by omega) (by omega)
  refine ⟨(d.y + d.h - 1) * frame.fbPitch + d.x * 4, ?_, ?_⟩
  · rw [hstride]
    omega
  · rw [Rect.HasByte, hplace.1, hplace.2]
    omega

/-- Where the offset of the last row is not an `int`, this row is not filled. -/
theorem last_not_mem_fillWords (hscreen : frame.IsScreen) {d : Rect}
    (hin : d.Inside frame.visible) (hw : 0 < d.w)
    (hlast : 2 ^ 31 ≤ (d.y + d.h - 1) * (frame.fbPitch / 4 : ℤ)) :
    (d.y + d.h - 1) * (frame.fbPitch / 4 : ℤ) + d.x ∉ fillWords (frame.fbPitch / 4) d := by
  obtain ⟨hleft, hright, htop, hbottom, -, -⟩ := hin
  simp only [Frame.visible, zero_add] at hleft hright htop hbottom
  obtain ⟨hpixels, hwords, hpitch, hheight⟩ := hscreen
  obtain ⟨stride, hstride⟩ : ∃ stride : ℤ, (frame.fbPitch : ℤ) / 4 = stride := ⟨_, rfl⟩
  rw [hstride] at hlast ⊢
  intro hmem
  obtain ⟨yy, hyy, xx, hxx, hword⟩ := mem_fillWords.mp hmem
  have hnonneg : 0 ≤ (d.y + yy) * stride := Int.mul_nonneg (by omega) (by omega)
  rw [int32_of_bounds (n := d.y + yy) (by omega) (by omega)] at hword
  have hbounds := int32_bounds ((d.y + yy) * stride)
  have hwrapped : int32 ((d.y + yy) * stride) ≤ (d.y + yy) * stride := by
    unfold int32 at hbounds ⊢
    omega
  -- an offset that wraps around is before those of the rows above
  by_cases hrow : d.y + yy = d.y + d.h - 1
  · rw [hrow] at hword hwrapped hbounds
    unfold int32 at hword hbounds
    omega
  · have hle : (d.y + yy) * stride ≤ (d.y + d.h - 1 - 1) * stride :=
      mul_le_mul_of_nonneg_right (by omega) (by omega)
    rw [sub_mul _ 1, one_mul] at hle
    omega

/-- The pixels of a rectangle on the screen get a color, and nothing else changes. -/
def Fills (frame : Frame) (r : Rect) : Prop :=
  ∀ (color : BitVec 32) (fb : Buffer) (o : ℤ), fillRect frame color r fb o =
    if r.OnScreen frame o then color.extractLsb' (8 * (o % 4).toNat) 8 else fb o

/-- A rectangle is empty, or misses the screen on an axis, or does not end before the screen and
needs no offset that is not an `int`. -/
def FillFits (frame : Frame) (r : Rect) : Prop :=
  r.w ≤ 0 ∨ r.h ≤ 0 ∨ Misses frame.fbWidth r.x r.w ∨ Misses frame.fbHeight r.y r.h ∨
    (0 ≤ r.x + r.w ∧ 0 ≤ r.y + r.h) ∧
      (min (r.y + r.h) frame.fbHeight - 1) * (frame.fbPitch / 4 : ℤ) < 2 ^ 31

/-- The last row of what is drawn. -/
theorem drawn_last (h : 0 ≤ r.y + r.h) :
    (r.drawn frame).y + (r.drawn frame).h - 1 = min (r.y + r.h) frame.fbHeight - 1 := by
  simp only [Rect.drawn, clipEnd, if_neg (not_lt.mpr h)]
  omega

/-- What is drawn is filled exactly when its words are those of the rectangle on the screen. -/
theorem fills_iff_words (hscreen : frame.IsScreen) (hint : r.IsInt) :
    Fills frame r ↔ ∀ o, (0 < r.w ∧ 0 < r.h ∧
      o / 4 ∈ fillWords (frame.fbPitch / 4) (r.drawn frame)) ↔ r.OnScreen frame o := by
  constructor
  · intro h o
    have hbyte := h (-1) (fun _ => 0) o
    rw [fillRect_eq hscreen hint] at hbyte
    have hones : (-1 : BitVec 32).extractLsb' (8 * (o % 4).toNat) 8 ≠ 0 := by
      have hall : ∀ n < 4, (-1 : BitVec 32).extractLsb' (8 * n) 8 ≠ 0 := by decide
      exact hall _ (by omega)
    split_ifs at hbyte with hwritten hshown hshown
    · exact iff_of_true hwritten hshown
    · exact absurd hbyte hones
    · exact absurd hbyte.symm hones
    · exact iff_of_false hwritten hshown
  · intro h color fb o
    rw [fillRect_eq hscreen hint]
    exact if_congr (h o) rfl rfl

theorem fills_iff (hscreen : frame.IsScreen) (hint : r.IsInt) :
    Fills frame r ↔ FillFits frame r := by
  rw [fills_iff_words hscreen hint]
  constructor
  · intro h
    by_contra hnot
    simp only [FillFits, not_or, not_le] at hnot
    obtain ⟨hw, hh, hx, hy, hfit⟩ := hnot
    obtain ⟨hdw, hdh, hin⟩ := drawn_bounds hx hy
    by_cases hend : 0 ≤ r.x + r.w ∧ 0 ≤ r.y + r.h
    · -- the last row is on the screen, and is not filled
      have hlast : 2 ^ 31 ≤ ((r.drawn frame).y + (r.drawn frame).h - 1) *
          (frame.fbPitch / 4 : ℤ) := by
        rw [drawn_last hend.2]
        exact not_lt.mp fun hlt => hfit ⟨hend, hlt⟩
      obtain ⟨o, hword, hbyte⟩ := exists_last_word hscreen hdw hdh hin
      have hwords := (h o).mpr ((drawn_hasByte (Or.inr (Or.inr hend))).mp hbyte)
      exact last_not_mem_fillWords hscreen hin hdw hlast (hword ▸ hwords.2.2)
    · -- the first pixel is filled, and is not on the screen
      have hfirst : int32 (int32 (r.drawn frame).y * (frame.fbPitch / 4)) + (r.drawn frame).x ∈
          fillWords (frame.fbPitch / 4) (r.drawn frame) :=
        mem_fillWords.mpr ⟨0, by omega, 0, by omega, by
          rw [Nat.cast_zero, add_zero, add_zero]⟩
      have hshown := (h (_ * 4)).mp ⟨hw, hh, by
        rw [Int.mul_ediv_cancel _ (by decide)]
        exact hfirst⟩
      exact not_onScreen (by omega) hshown
  · intro h o
    by_cases hempty : r.w ≤ 0 ∨ r.h ≤ 0
    · refine iff_of_false (fun hall => by omega) ?_
      rintro ⟨⟨htop, hbottom, hleft, hright⟩, -⟩
      omega
    have hfit := (h.resolve_left (fun hw => hempty (Or.inl hw))).resolve_left
      fun hh => hempty (Or.inr hh)
    rw [← drawn_hasByte (hfit.imp_right (Or.imp_right And.left))]
    have hnonempty : 0 < r.w ∧ 0 < r.h := by omega
    refine (and_iff_right hnonempty.1).trans ((and_iff_right hnonempty.2).trans ?_)
    by_cases hmiss : Misses frame.fbWidth r.x r.w ∨ Misses frame.fbHeight r.y r.h
    · exact iff_of_false (fun hmem => drawn_empty hmiss (fillWords_pos hmem))
        fun hbyte => drawn_empty hmiss hbyte.pos
    · rw [not_or] at hmiss
      obtain ⟨hend, hlast⟩ := (hfit.resolve_left hmiss.1).resolve_left hmiss.2
      exact fillWords_hasByte hscreen (drawn_bounds hmiss.1 hmiss.2).2.2
        ((drawn_last hend.2).symm ▸ hlast)

end Fill

section Present

variable {frame : Frame} {r : Rect} {back fb : Buffer} {o : ℤ}

/-- What `wm_present_rect` does to a byte. The offset of the first row in the back buffer is an
`int`. -/
theorem presentRect_copies (hscreen : frame.IsScreen) (hint : r.IsInt) :
    copyAll back fb (presentRect frame r.x r.y r.w r.h) o =
      if (r.drawn frame).HasByte frame.fbPitch o then
        back (o + (int32 (max r.y 0 * frame.fbPitch) - max r.y 0 * frame.fbPitch))
      else fb o := by
  obtain ⟨hpixels, -, hpitch, hheight⟩ := hscreen
  have hwidth : frame.fbWidth < 2 ^ 31 := by omega
  have hpitchBytes : frame.pitchBytes = frame.fbPitch := toInt32_of_lt hpitch
  rw [presentRect]
  simp only [Gfx.clip_start, clip_axis hwidth hint.x hint.w hint.right,
    clip_axis hheight hint.y hint.h hint.bottom, hpitchBytes]
  by_cases hempty : clipEnd frame.fbWidth r.x r.w - max r.x 0 ≤ 0 ∨
      clipEnd frame.fbHeight r.y r.h - max r.y 0 ≤ 0
  · rw [if_pos hempty, if_neg fun hbyte => ?_]
    · rfl
    · have hpos := hbyte.pos
      simp only [Rect.drawn] at hpos
      omega
  · rw [if_neg hempty]
    rw [not_or, not_le, not_le] at hempty
    have hright := clipEnd_le frame.fbWidth r.x r.w
    have hbottom := clipEnd_le frame.fbHeight r.y r.h
    have hrow : max r.y 0 * (frame.fbPitch : ℤ) ≤ 2 ^ 31 * 2 ^ 31 :=
      mul_le_mul (by omega) (by omega) (by omega) (by omega)
    have hrow' : 0 ≤ max r.y 0 * (frame.fbPitch : ℤ) := Int.mul_nonneg (by omega) (by omega)
    have hdst : ((wrap (toU64 (max r.y 0) * frame.fbPitch) : ℕ) : ℤ) =
        max r.y 0 * frame.fbPitch := by
      have hy64 := toU64_of_nonneg (n := max r.y 0) (by omega) (by omega)
      have hcast : ((toU64 (max r.y 0) * frame.fbPitch : ℕ) : ℤ) = max r.y 0 * frame.fbPitch := by
        rw [Nat.cast_mul, hy64]
      rw [wrap_of_lt (by omega), hcast]
    have hbytes : toU64 ((clipEnd frame.fbWidth r.x r.w - max r.x 0) * 4) =
        ((clipEnd frame.fbWidth r.x r.w - max r.x 0) * 4).toNat := by
      have hnat := toU64_of_nonneg (n := (clipEnd frame.fbWidth r.x r.w - max r.x 0) * 4)
        (by omega) (by omega)
      omega
    have hpos : (0 : ℤ) < frame.fbPitch := by omega
    rw [hdst, int32_of_bounds (n := max r.x 0 * 4) (by omega) (by omega),
      int32_of_bounds (n := (clipEnd frame.fbWidth r.x r.w - max r.x 0) * 4) (by omega)
        (by omega), hbytes, copyRows_eq (by omega) (by omega) (by omega) hpos]
    refine if_congr Iff.rfl (congrArg back ?_) rfl
    have hplace := (byte_row hpos o).1
    rw [sub_mul]
    omega

/-- The pixels of a rectangle on the screen are copied from the back buffer, and nothing else
changes. -/
def Presents (frame : Frame) (r : Rect) : Prop :=
  ∀ (back fb : Buffer) (o : ℤ), copyAll back fb (presentRect frame r.x r.y r.w r.h) o =
    if r.OnScreen frame o then back o else fb o

/-- A rectangle misses the screen on an axis, or it does not end before the screen and the offset of
its first row is an `int`. -/
def PresentFits (frame : Frame) (r : Rect) : Prop :=
  Misses frame.fbWidth r.x r.w ∨ Misses frame.fbHeight r.y r.h ∨
    (0 ≤ r.x + r.w ∧ 0 ≤ r.y + r.h) ∧ max r.y 0 * (frame.fbPitch : ℤ) < 2 ^ 31

/-- The first pixel of what is drawn. -/
theorem drawn_first (hscreen : frame.IsScreen) (hx : ¬Misses frame.fbWidth r.x r.w)
    (hy : ¬Misses frame.fbHeight r.y r.h) :
    ∃ o, (r.drawn frame).HasByte frame.fbPitch o := by
  obtain ⟨hw, hh, hleft, hright, htop, hbottom, -, -⟩ := drawn_bounds hx hy
  simp only [Frame.visible, zero_add] at hleft hright htop hbottom
  have hpixels := hscreen.pixels
  have hplace := @row_byte frame.fbPitch (r.drawn frame).y ((r.drawn frame).x * 4) (by omega)
    (by omega)
  refine ⟨(r.drawn frame).y * frame.fbPitch + (r.drawn frame).x * 4, ?_⟩
  rw [Rect.HasByte, hplace.1, hplace.2]
  omega

theorem presents_iff (hscreen : frame.IsScreen) (hint : r.IsInt) :
    Presents frame r ↔ PresentFits frame r := by
  constructor
  · intro h
    by_contra hnot
    simp only [PresentFits, not_or] at hnot
    obtain ⟨hx, hy, hfit⟩ := hnot
    obtain ⟨o, ho⟩ := drawn_first hscreen hx hy
    have hcopied := fun back => h back (fun _ => 0) o
    simp only [presentRect_copies hscreen hint, if_pos ho] at hcopied
    by_cases hend : 0 ≤ r.x + r.w ∧ 0 ≤ r.y + r.h
    · -- the byte comes from another place of the back buffer
      have hshown := (drawn_hasByte (Or.inr (Or.inr hend))).mp ho
      have hlarge : 2 ^ 31 ≤ max r.y 0 * (frame.fbPitch : ℤ) :=
        not_lt.mp fun hlt => hfit ⟨hend, hlt⟩
      have hother := hcopied fun k => if k = o then 1 else 0
      have hbounds := int32_bounds (max r.y 0 * frame.fbPitch)
      rw [if_pos hshown, if_pos rfl, if_neg (by omega)] at hother
      exact absurd hother (by decide)
    · -- the byte is not on the screen
      have hother := hcopied fun _ => 1
      rw [if_neg (not_onScreen (by omega))] at hother
      exact absurd hother (by decide)
  · intro h back fb o
    have hshown := drawn_hasByte (o := o) (h.imp_right (Or.imp_right And.left))
    rw [presentRect_copies hscreen hint]
    by_cases ho : (r.drawn frame).HasByte frame.fbPitch o
    · have hempty : ¬(Misses frame.fbWidth r.x r.w ∨ Misses frame.fbHeight r.y r.h) :=
        fun hmiss => drawn_empty hmiss ho.pos
      rw [not_or] at hempty
      obtain ⟨-, hlast⟩ := (h.resolve_left hempty.1).resolve_left hempty.2
      have hrow : 0 ≤ max r.y 0 * (frame.fbPitch : ℤ) := Int.mul_nonneg (by omega) (by omega)
      rw [if_pos ho, if_pos (hshown.mp ho), int32_of_bounds (by omega) hlast, sub_self, add_zero]
    · rw [if_neg ho, if_neg fun hmem => ho (hshown.mpr hmem)]

end Present

/-- The pixels of a rectangle on the screen get a color, and nothing else changes. -/
def Gfx.DrawsRect (g : Gfx) (r : Rect) : Prop :=
  ∀ color : BitVec 32,
    (∀ px py, g.OnScreen px py → (g.rect r color).fb (g.pixel px py) =
      if r.Mem px py then color else g.fb (g.pixel px py)) ∧
    ∀ k, k < 0 ∨ g.width * g.height ≤ k → (g.rect r color).fb k = g.fb k

/-- `gfx_rect` draws what is on the screen. `fb_fill_rect` and `wm_present_rect` do so as well,
exactly for the rectangles that miss the screen on an axis, or do not end before it and need no
offset that is not an `int`. -/
theorem clipped_iff {frame : Frame} {r : Rect} {g : Gfx} (hscreen : frame.IsScreen)
    (hint : r.IsInt) (hpitch : g.pitch = g.width) :
    (Fills frame r ↔ FillFits frame r) ∧ (Presents frame r ↔ PresentFits frame r) ∧
      g.DrawsRect r :=
  ⟨fills_iff hscreen hint, presents_iff hscreen hint, fun _ =>
    ⟨fun _ _ hon => Gfx.rect_pixel hpitch hon, fun _ hk => Gfx.rect_outside hpitch hk⟩⟩

/-- A screen of 64 by 48 pixels. -/
def sampleFrame : Frame := ⟨⟨64, 48⟩, 256⟩

theorem clipped_iff_sampleFrame : Fills sampleFrame ⟨-5, 40, 10, 20⟩ ∧
    Presents sampleFrame ⟨-5, 40, 10, 20⟩ ∧
    (⟨fun _ => 0, 64, 48, 64, ⟨8, 8, 8, fun _ => 0⟩⟩ : Gfx).DrawsRect ⟨-5, 40, 10, 20⟩ := by
  have hscreen : sampleFrame.IsScreen := ⟨by decide, by decide, by decide, by decide⟩
  have hint : (⟨-5, 40, 10, 20⟩ : Rect).IsInt :=
    ⟨by decide, by decide, by decide, by decide, by decide, by decide⟩
  obtain ⟨hfill, hpresent, hrect⟩ := clipped_iff
    (g := ⟨fun _ => 0, 64, 48, 64, ⟨8, 8, 8, fun _ => 0⟩⟩) hscreen hint rfl
  refine ⟨hfill.mpr ?_, hpresent.mpr ?_, hrect⟩
  · exact Or.inr (Or.inr (Or.inr (Or.inr ⟨by decide, by decide⟩)))
  · exact Or.inr (Or.inr ⟨by decide, by decide⟩)

/-- A rectangle on the left of the screen is filled from the left to the right. -/
theorem fill_left_of_screen : sampleFrame.IsScreen ∧ (⟨-10, 0, 5, 5⟩ : Rect).IsInt ∧
    ¬Fills sampleFrame ⟨-10, 0, 5, 5⟩ ∧ ¬Presents sampleFrame ⟨-10, 0, 5, 5⟩ := by
  refine ⟨⟨by decide, by decide, by decide, by decide⟩,
    ⟨by decide, by decide, by decide, by decide, by decide, by decide⟩, fun h => ?_, fun h => ?_⟩
  · exact absurd (h (-1) (fun _ => 0) 0) (by decide +kernel)
  · exact absurd (h (fun _ => 1) (fun _ => 0) 0) (by decide +kernel)

end OpenIDP.Userspace
