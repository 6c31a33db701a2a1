import OpenIDP.Userspace.Update
import OpenIDP.Userspace.WmTree

/-!
# Refreshing windows

A model of the part of `src/userspace/idpwm.c` that draws the updates of clients. What clients
announce is collected in a box for each window, and after the messages each box is copied from the
buffer of the window to the back buffer, and from there to the screen.

## Main definitions

* `DirtyState` — the box of a window, and `markDirty`
* `Wm.refreshWindow`, `presentRect` — the rows of bytes that are copied
* `Wm.deferred` — what is copied after the messages

## Main results

* `clip_bounds`, `clip_covers` — what is left of a box in the window
* `Wm.deferred_inside` — only the buffer of the window is read, and only its inside is written
-/

namespace OpenIDP.Userspace

open OpenIDP.Math OpenIDP.Process

/-- The `int` with the low bits of a number. -/
def int32 (n : ℤ) : ℤ := (n + 2 ^ 31) % 2 ^ 32 - 2 ^ 31

theorem int32_of_bounds {n : ℤ} (hlow : -2 ^ 31 ≤ n) (hhigh : n < 2 ^ 31) : int32 n = n := by
  unfold int32
  omega

theorem int32_bounds (n : ℤ) : -2 ^ 31 ≤ int32 n ∧ int32 n < 2 ^ 31 := by
  unfold int32
  omega

/-- What is known of the framebuffer. -/
structure Frame extends Screen where
  fbPitch : ℕ

/-- `screen_pitch_bytes` -/
def Frame.pitchBytes (frame : Frame) : ℤ := toInt32 frame.fbPitch

/-- The visible pixels. -/
def Frame.visible (frame : Frame) : Rect := ⟨0, 0, frame.fbWidth, frame.fbHeight⟩

/-- A `memcpy` of some bytes, from an offset in a buffer to an offset in another. -/
structure RowCopy where
  dst : ℤ
  src : ℤ
  n : ℕ

/-- `memcpy` for each row, where the offsets grow by a stride. -/
def copyRows (h dst dstStride src srcStride : ℤ) (n : ℕ) : List RowCopy :=
  (List.range h.toNat).map fun i : ℕ => ⟨dst + i * dstStride, src + i * srcStride, n⟩

/-- `dirty_state_t` -/
structure DirtyState where
  minX : ℤ
  minY : ℤ
  maxX : ℤ
  maxY : ℤ
  isDirty : Bool

namespace DirtyState

/-- `reset_dirty` -/
def reset : DirtyState := ⟨100000, 100000, -1, -1, false⟩

/-- `mark_dirty` -/
def markDirty (d : DirtyState) (r : Rect) : DirtyState :=
  if r.w ≤ 0 ∨ r.h ≤ 0 then d
  else {
    minX := if r.x < d.minX then r.x else d.minX
    minY := if r.y < d.minY then r.y else d.minY
    maxX := if d.maxX < int32 (r.x + r.w) then int32 (r.x + r.w) else d.maxX
    maxY := if d.maxY < int32 (r.y + r.h) then int32 (r.y + r.h) else d.maxY
    isDirty := true }

/-- The bounds of a box on one axis: it starts between all `int`s and the mark of an empty box, and
ends at its mark or after. -/
def Bounds (lo hi : ℤ) : Prop := (-2 ^ 31 ≤ lo ∧ lo ≤ 100000) ∧ -1 ≤ hi ∧ hi < 2 ^ 31

/-- The bounds of a box. -/
structure IsBox (d : DirtyState) : Prop where
  x : Bounds d.minX d.maxX
  y : Bounds d.minY d.maxY

theorem isBox_reset : reset.IsBox := by
  constructor
  all_goals
    rw [Bounds]
    decide

theorem Bounds.grow {lo hi n m : ℤ} (h : Bounds lo hi) (hn : -2 ^ 31 ≤ n) :
    Bounds (if n < lo then n else lo) (if hi < int32 m then int32 m else hi) := by
  have hbounds := int32_bounds m
  unfold Bounds at h ⊢
  split_ifs
  all_goals omega

theorem IsBox.markDirty {d : DirtyState} (h : d.IsBox) {r : Rect} (hx : -2 ^ 31 ≤ r.x)
    (hy : -2 ^ 31 ≤ r.y) : (d.markDirty r).IsBox := by
  rw [DirtyState.markDirty]
  by_cases hempty : r.w ≤ 0 ∨ r.h ≤ 0
  · rw [if_pos hempty]
    exact h
  · rw [if_neg hempty]
    exact ⟨h.x.grow hx, h.y.grow hy⟩

end DirtyState

/-- The position and the length of what is left of a request on one axis: all of it when the size is
not positive, and else what is in the window. -/
def clip (inner req size : ℤ) : ℤ × ℤ :=
  let r := if size ≤ 0 then 0 else req
  let n := if size ≤ 0 then inner else size
  let n := if r < 0 then int32 (n + r) else n
  let r := if r < 0 then 0 else r
  (r, if inner < int32 (r + n) then int32 (inner - r) else n)

/-- What is left of a box is in the window. -/
theorem clip_bounds {inner lo hi : ℤ} (hinner : -8 ≤ inner ∧ inner < 2 ^ 31)
    (h : DirtyState.Bounds lo hi) (hpos : 0 < (clip inner lo (int32 (hi - lo))).2) :
    0 ≤ (clip inner lo (int32 (hi - lo))).1 ∧
      (clip inner lo (int32 (hi - lo))).1 + (clip inner lo (int32 (hi - lo))).2 ≤ inner := by
  unfold clip int32 DirtyState.Bounds at *
  simp only at *
  split_ifs at *
  all_goals omega

/-- Nothing in the window is left out. -/
theorem clip_covers {inner lo hi p : ℤ} (hinner : inner < 2 ^ 31) (h : DirtyState.Bounds lo hi)
    (hp : 0 ≤ p ∧ p < inner) (hbox : lo ≤ p ∧ p < hi) :
    (clip inner lo (int32 (hi - lo))).1 ≤ p ∧
      p < (clip inner lo (int32 (hi - lo))).1 + (clip inner lo (int32 (hi - lo))).2 := by
  unfold clip int32 DirtyState.Bounds at *
  simp only
  split_ifs
  all_goals omega

/-- `wm_present_rect`: the rows that are copied from the back buffer to the framebuffer. -/
def presentRect (frame : Frame) (x y w h : ℤ) : List RowCopy :=
  let w := if x < 0 then int32 (w + x) else w
  let x := if x < 0 then 0 else x
  let h := if y < 0 then int32 (h + y) else h
  let y := if y < 0 then 0 else y
  let w := if frame.fbWidth < toU64 (int32 (x + w)) then toInt32 (toU64 (frame.fbWidth - x)) else w
  let h :=
    if frame.fbHeight < toU64 (int32 (y + h)) then toInt32 (toU64 (frame.fbHeight - y)) else h
  if w ≤ 0 ∨ h ≤ 0 then []
  else copyRows h (wrap (toU64 y * frame.fbPitch) + int32 (x * 4)) frame.fbPitch
    (int32 (y * frame.pitchBytes) + int32 (x * 4)) frame.pitchBytes (toU64 (int32 (w * 4)))

/-- What `wm_refresh_window` copies: from the buffer of a window to the back buffer, and from there
to the framebuffer. -/
structure Refresh where
  slot : ℕ
  rows : List RowCopy
  present : List RowCopy

/-- The inside of a window, without its border. -/
def Window.inner (win : Window) : Rect :=
  ⟨win.x + 4, win.y + 4, win.width - 8, win.height - 8⟩

namespace Wm

variable (s : Wm)

/-- The search for the window of a process. -/
def findWindow (pid : ℤ) : Option ℕ :=
  (List.range maxWindows).find? fun i => (s.windows i).pid = pid && (s.windows i).alive

/-- The part of `wm_refresh_window` that copies, for the window in a slot. -/
def refreshSlot (frame : Frame) (slot : ℕ) (reqX reqY reqW reqH : ℤ) : Option Refresh :=
  let win := s.windows slot
  let rx := (clip (int32 (win.width - 8)) reqX reqW).1
  let ry := (clip (int32 (win.height - 8)) reqY reqH).1
  let rw := (clip (int32 (win.width - 8)) reqX reqW).2
  let rh := (clip (int32 (win.height - 8)) reqY reqH).2
  if win.width ≤ 0 ∨ win.height ≤ 0 ∨ win.bufferWmPtr = 0 then none
  else if rw ≤ 0 ∨ rh ≤ 0 then none
  else
    let screenX := int32 (win.x + 4 + rx)
    let screenY := int32 (win.y + 4 + ry)
    some {
      slot := slot
      rows := copyRows rh (int32 (screenY * frame.pitchBytes) + int32 (screenX * 4))
        frame.pitchBytes (int32 (int32 (ry * win.width) * 4) + int32 (rx * 4))
        (int32 (win.width * 4)) (toU64 (int32 (rw * 4)))
      present := presentRect frame screenX screenY rw rh }

/-- `wm_refresh_window`: nothing when it returns early. -/
def refreshWindow (frame : Frame) (pid reqX reqY reqW reqH : ℤ) : Option Refresh :=
  (s.findWindow pid).bind fun slot => s.refreshSlot frame slot reqX reqY reqW reqH

/-- The case of `MSG_BUFFER_UPDATE`. -/
def bufferUpdate (dirtyMap : ℕ → DirtyState) (m : Message) : ℕ → DirtyState :=
  match s.findWindow m.senderPid with
  | none => dirtyMap
  | some slot => Function.update dirtyMap slot
      ((dirtyMap slot).markDirty (unpackRect m.data1 m.data2))

/-- The deferred rendering: what is copied for the windows, in order. -/
def deferred (frame : Frame) (dirtyMap : ℕ → DirtyState) : List Refresh :=
  (List.range maxWindows).filterMap fun i =>
    let d := dirtyMap i
    if d.isDirty = true ∧ (s.windows i).alive = true then
      s.refreshWindow frame (s.windows i).pid d.minX d.minY (int32 (d.maxX - d.minX))
        (int32 (d.maxY - d.minY))
    else none

end Wm

/-- The rows of bytes are in 32-bit offsets: the pixels of a row fit into the pitch, and all rows
have less than `2 ^ 31` bytes. -/
structure Frame.Small (frame : Frame) : Prop where
  pitch : frame.fbWidth * 4 ≤ frame.fbPitch
  size : frame.fbPitch * frame.fbHeight < 2 ^ 31

section Offsets

variable {frame : Frame} {x y w h p n : ℤ}

theorem toU64_of_nonneg (hlow : 0 ≤ n) (hhigh : n < 2 ^ 63) : (toU64 n : ℤ) = n := by
  unfold toU64
  omega

/-- The offset of a row before the last. -/
theorem mul_row_le (hy : y < h) (hp : 0 ≤ p) : y * p + p ≤ h * p := by
  have hle := mul_le_mul_of_nonneg_right (Int.add_one_le_iff.mpr hy) hp
  rwa [add_mul, one_mul] at hle

theorem Frame.Small.int (hsmall : frame.Small) :
    (frame.fbWidth : ℤ) * 4 ≤ frame.fbPitch ∧
      (frame.fbHeight : ℤ) * frame.fbPitch < 2 ^ 31 := by
  obtain ⟨hpitch, hsize⟩ := hsmall
  rw [mul_comm] at hsize
  exact ⟨by exact_mod_cast hpitch, by exact_mod_cast hsize⟩

/-- In a frame with a row, the pitch is an `int`. -/
theorem Frame.Small.pitch_lt (hsmall : frame.Small) (hh : 0 < frame.fbHeight) :
    frame.fbPitch < 2 ^ 31 :=
  (Nat.le_mul_of_pos_right _ hh).trans_lt hsmall.size

theorem Frame.Small.pitchBytes (hsmall : frame.Small) (hh : 0 < frame.fbHeight) :
    frame.pitchBytes = frame.fbPitch := toInt32_of_lt (hsmall.pitch_lt hh)

/-- The rows of a part of the screen that are copied to the framebuffer. -/
theorem presentRect_eq (hsmall : frame.Small) (hx : 0 ≤ x) (hw : 0 < w)
    (hright : x + w ≤ frame.fbWidth) (hy : 0 ≤ y) (hh : 0 < h) (hbottom : y + h ≤ frame.fbHeight) :
    presentRect frame x y w h = copyRows h (y * frame.fbPitch + x * 4) frame.fbPitch
      (y * frame.fbPitch + x * 4) frame.fbPitch (w * 4).toNat := by
  have hheight : 0 < frame.fbHeight := by omega
  have hpitch := hsmall.pitch_lt hheight
  obtain ⟨hwidth, hsize⟩ := hsmall.int
  have hrow := mul_row_le (p := frame.fbPitch) (by omega : y < frame.fbHeight) (by omega)
  have hrow' : 0 ≤ y * frame.fbPitch := Int.mul_nonneg hy (by omega)
  have hheightLe := mul_row_le (y := 0) (p := frame.fbPitch) (h := frame.fbHeight) (by omega)
    (by omega)
  have hheight32 : (frame.fbHeight : ℤ) ≤ frame.fbHeight * frame.fbPitch :=
    le_mul_of_one_le_right (by omega) (by omega)
  have hsum : int32 (x + w) = x + w := int32_of_bounds (by omega) (by omega)
  have hsum' : int32 (y + h) = y + h := int32_of_bounds (by omega) (by omega)
  have hnotX : ¬frame.fbWidth < toU64 (x + w) := by
    have := toU64_of_nonneg (n := x + w) (by omega) (by omega)
    omega
  have hnotY : ¬frame.fbHeight < toU64 (y + h) := by
    have := toU64_of_nonneg (n := y + h) (by omega) (by omega)
    omega
  have hoffset : ((wrap (toU64 y * frame.fbPitch) : ℕ) : ℤ) = y * frame.fbPitch := by
    have hy64 := toU64_of_nonneg hy (by omega)
    have hcast : ((toU64 y * frame.fbPitch : ℕ) : ℤ) = y * frame.fbPitch := by
      rw [Nat.cast_mul, hy64]
    rw [wrap_of_lt (by omega), hcast]
  have hbytes : toU64 (int32 (w * 4)) = (w * 4).toNat := by
    rw [int32_of_bounds (by omega) (by omega)]
    have := toU64_of_nonneg (n := w * 4) (by omega) (by omega)
    omega
  rw [presentRect]
  simp only [if_neg (not_lt.mpr hx), if_neg (not_lt.mpr hy), hsum, hsum', if_neg hnotX,
    if_neg hnotY]
  rw [if_neg (by omega), hsmall.pitchBytes hheight, hoffset, hbytes,
    int32_of_bounds (n := x * 4) (by omega) (by omega),
    int32_of_bounds (n := y * frame.fbPitch) (by omega) (by omega)]

end Offsets

/-- What is left of a box on one axis of a window. -/
structure Clipped (inner lo hi r n : ℤ) : Prop where
  eq : clip inner lo (int32 (hi - lo)) = (r, n)
  low : 0 ≤ r
  pos : 0 < n
  high : r + n ≤ inner

/-- The rows that are copied for a part of a window. -/
def refreshRows (frame : Frame) (win : Window) (slot : ℕ) (rx ry rw rh : ℤ) : Refresh where
  slot := slot
  rows := copyRows rh ((win.y + 4 + ry) * frame.fbPitch + (win.x + 4 + rx) * 4) frame.fbPitch
    (ry * (win.width * 4) + rx * 4) (win.width * 4) (rw * 4).toNat
  present := copyRows rh ((win.y + 4 + ry) * frame.fbPitch + (win.x + 4 + rx) * 4) frame.fbPitch
    ((win.y + 4 + ry) * frame.fbPitch + (win.x + 4 + rx) * 4) frame.fbPitch (rw * 4).toNat

namespace Wm

variable {s : Wm} {frame : Frame} {slot : ℕ} {lo hi lo' hi' : ℤ} {r : Refresh}

/-- The box of a window on the screen is copied. -/
theorem refreshSlot_eq (hsmall : frame.Small) (hin : (s.windows slot).rect.Inside frame.visible)
    (hx : DirtyState.Bounds lo hi) (hy : DirtyState.Bounds lo' hi')
    (h : s.refreshSlot frame slot lo lo' (int32 (hi - lo)) (int32 (hi' - lo')) = some r) :
    (s.windows slot).bufferWmPtr ≠ 0 ∧ ∃ rx ry rw rh,
      Clipped ((s.windows slot).width - 8) lo hi rx rw ∧
      Clipped ((s.windows slot).height - 8) lo' hi' ry rh ∧
      r = refreshRows frame (s.windows slot) slot rx ry rw rh := by
  obtain ⟨win, hwin⟩ : ∃ win, win = s.windows slot := ⟨_, rfl⟩
  rw [refreshSlot] at h
  rw [← hwin] at hin h ⊢
  simp only at h
  obtain ⟨hleft, hright, htop, hbottom, -, -⟩ := hin
  simp only [Window.rect, Frame.visible, zero_add] at hleft hright htop hbottom
  split_ifs at h with hempty hnone
  obtain rfl := Option.some_inj.mp h
  obtain ⟨hwidth, hheight, hbuffer⟩ : 0 < win.width ∧ 0 < win.height ∧ win.bufferWmPtr ≠ 0 := by
    rw [not_or, not_or, not_le, not_le] at hempty
    exact hempty
  have hframe : 0 < frame.fbHeight := by omega
  have hpitch := hsmall.pitch_lt hframe
  obtain ⟨hpixels, hsize⟩ := hsmall.int
  have hheight32 : (frame.fbHeight : ℤ) ≤ frame.fbHeight * frame.fbPitch :=
    le_mul_of_one_le_right (by omega) (by omega)
  rw [int32_of_bounds (n := win.width - 8) (by omega) (by omega),
    int32_of_bounds (n := win.height - 8) (by omega) (by omega)] at hnone ⊢
  obtain ⟨⟨rx, rw'⟩, hcx⟩ : ∃ q, q = clip (win.width - 8) lo (int32 (hi - lo)) := ⟨_, rfl⟩
  obtain ⟨⟨ry, rh⟩, hcy⟩ : ∃ q, q = clip (win.height - 8) lo' (int32 (hi' - lo')) := ⟨_, rfl⟩
  have hboundX := clip_bounds (by omega : -8 ≤ win.width - 8 ∧ win.width - 8 < 2 ^ 31) hx
  have hboundY := clip_bounds (by omega : -8 ≤ win.height - 8 ∧ win.height - 8 < 2 ^ 31) hy
  rw [← hcx] at hboundX hnone ⊢
  rw [← hcy] at hboundY hnone ⊢
  simp only [not_or, not_le] at hboundX hboundY hnone ⊢
  obtain ⟨hrx, hrw⟩ := hboundX hnone.1
  obtain ⟨hry, hrh⟩ := hboundY hnone.2
  refine ⟨hbuffer, rx, ry, rw', rh, ⟨hcx.symm, hrx, hnone.1, hrw⟩,
    ⟨hcy.symm, hry, hnone.2, hrh⟩, ?_⟩
  -- no offset needs more than an `int`
  have hscreenY := mul_row_le (y := win.y + 4 + ry) (h := frame.fbHeight) (p := frame.fbPitch)
    (by omega) (by omega)
  have hscreenY' : 0 ≤ (win.y + 4 + ry) * frame.fbPitch := Int.mul_nonneg (by omega) (by omega)
  have hrow : ry * win.width ≤ ry * frame.fbPitch :=
    mul_le_mul_of_nonneg_left (by omega) hry
  have hrow4 : ry * win.width * 4 ≤ ry * frame.fbPitch := by
    have := mul_le_mul_of_nonneg_left (by omega : win.width * 4 ≤ frame.fbPitch) hry
    rwa [← mul_assoc] at this
  have hrow' : 0 ≤ ry * win.width := Int.mul_nonneg hry hwidth.le
  have hlast := mul_row_le (y := ry) (h := frame.fbHeight) (p := frame.fbPitch) (by omega)
    (by omega)
  have hbytes : toU64 (rw' * 4) = (rw' * 4).toNat := by
    have := toU64_of_nonneg (n := rw' * 4) (by omega) (by omega)
    omega
  rw [refreshRows, int32_of_bounds (n := win.x + 4 + rx) (by omega) (by omega),
    int32_of_bounds (n := win.y + 4 + ry) (by omega) (by omega), hsmall.pitchBytes hframe,
    int32_of_bounds (n := (win.y + 4 + ry) * frame.fbPitch) (by omega) (by omega),
    int32_of_bounds (n := (win.x + 4 + rx) * 4) (by omega) (by omega),
    int32_of_bounds (n := ry * win.width) (by omega) (by omega),
    int32_of_bounds (n := ry * win.width * 4) (by omega) (by omega),
    int32_of_bounds (n := rx * 4) (by omega) (by omega),
    int32_of_bounds (n := win.width * 4) (by omega) (by omega),
    int32_of_bounds (n := rw' * 4) (by omega) (by omega), hbytes, mul_assoc ry,
    presentRect_eq hsmall (by omega) hnone.1 (by omega) (by omega) hnone.2 (by omega)]

end Wm

/-- Some bytes are in a row of a rectangle, in a buffer with a pitch. -/
def Rect.HoldsRow (r : Rect) (pitch dst : ℤ) (n : ℕ) : Prop :=
  ∃ py, r.y ≤ py ∧ py < r.y + r.h ∧ py * pitch + r.x * 4 ≤ dst ∧
    dst + n ≤ py * pitch + (r.x + r.w) * 4

/-- What is copied for a window: its buffer is read, its inside is written in the back buffer, and
from there its inside is copied to the visible part of the framebuffer. -/
structure Refresh.Inside (frame : Frame) (win : Window) (r : Refresh) : Prop where
  reads : ∀ row ∈ r.rows, 0 ≤ row.src ∧ row.src + row.n ≤ frame.fbWidth * frame.fbHeight * 4
  writes : ∀ row ∈ r.rows, win.inner.HoldsRow frame.fbPitch row.dst row.n
  presentReads : ∀ row ∈ r.present, win.inner.HoldsRow frame.fbPitch row.src row.n
  presentWrites : ∀ row ∈ r.present, win.inner.HoldsRow frame.fbPitch row.dst row.n ∧
    frame.visible.HoldsRow frame.fbPitch row.dst row.n

section Inside

variable {frame : Frame} {win : Window} {slot : ℕ} {rx ry rw rh lo hi lo' hi' : ℤ}

/-- The rows of a part of a window are in its inside. -/
theorem holdsRow_inner (hcx : Clipped (win.width - 8) lo hi rx rw)
    (hcy : Clipped (win.height - 8) lo' hi' ry rh) {i : ℤ} (hi : 0 ≤ i ∧ i < rh) :
    win.inner.HoldsRow frame.fbPitch
      ((win.y + 4 + ry) * frame.fbPitch + (win.x + 4 + rx) * 4 + i * frame.fbPitch)
      (rw * 4).toNat := by
  obtain ⟨-, hrx, hrw, hright⟩ := hcx
  obtain ⟨-, hry, hrh, hbottom⟩ := hcy
  refine ⟨win.y + 4 + ry + i, ?_, ?_, ?_, ?_⟩
  · simp only [Window.inner]
    omega
  · simp only [Window.inner]
    omega
  · simp only [Window.inner]
    rw [add_mul _ i]
    omega
  · simp only [Window.inner]
    rw [add_mul _ i]
    omega

theorem Rect.HoldsRow.mono {r outer : Rect} {pitch dst : ℤ} {n : ℕ} (h : r.HoldsRow pitch dst n)
    (hin : r.Inside outer) : outer.HoldsRow pitch dst n := by
  obtain ⟨py, hlow, hhigh, hleft, hright⟩ := h
  obtain ⟨hinl, hinr, hint, hinb, -, -⟩ := hin
  exact ⟨py, by omega, by omega, by omega, by omega⟩

/-- A part of a window is copied within the window. -/
theorem refreshRows_inside (hin : win.rect.Inside frame.visible)
    (hcx : Clipped (win.width - 8) lo hi rx rw) (hcy : Clipped (win.height - 8) lo' hi' ry rh) :
    (refreshRows frame win slot rx ry rw rh).Inside frame win := by
  have hinner : ∀ i < rh.toNat, win.inner.HoldsRow frame.fbPitch
      ((win.y + 4 + ry) * frame.fbPitch + (win.x + 4 + rx) * 4 + (i : ℕ) * frame.fbPitch)
      (rw * 4).toNat := fun i hi => holdsRow_inner hcx hcy (by omega)
  obtain ⟨-, hrx, hrw, hwidth⟩ := hcx
  obtain ⟨-, hry, hrh, hheight⟩ := hcy
  have hvisible : win.inner.Inside frame.visible := by
    obtain ⟨hleft, hright, htop, hbottom, -, -⟩ := hin
    simp only [Window.rect] at hleft hright htop hbottom
    constructor
    all_goals
      simp only [Window.inner]
      omega
  refine ⟨fun row hrow => ?_, fun row hrow => ?_, fun row hrow => ?_, fun row hrow => ?_⟩
  · obtain ⟨i, hi, rfl⟩ := List.mem_map.mp hrow
    have hi := List.mem_range.mp hi
    obtain ⟨hleft, hright, htop, hbottom, -, -⟩ := hin
    simp only [Window.rect, Frame.visible, zero_add] at hleft hright htop hbottom
    -- the row is one of the window, and the window is no larger than the screen
    have hlast := mul_row_le (y := ry + i) (h := win.height) (p := win.width * 4) (by omega)
      (by omega)
    have harea : win.height * win.width ≤ frame.fbHeight * frame.fbWidth :=
      mul_le_mul (by omega) (by omega) (by omega) (by omega)
    have hrows : 0 ≤ ry * (win.width * 4) := Int.mul_nonneg hry (by omega)
    have hrows' : (0 : ℤ) ≤ i * (win.width * 4) := Int.mul_nonneg (by omega) (by omega)
    rw [add_mul, ← mul_assoc win.height] at hlast
    rw [mul_comm (frame.fbHeight : ℤ)] at harea
    exact ⟨by simp only; omega, by simp only; omega⟩
  · obtain ⟨i, hi, rfl⟩ := List.mem_map.mp hrow
    exact hinner i (List.mem_range.mp hi)
  · obtain ⟨i, hi, rfl⟩ := List.mem_map.mp hrow
    exact hinner i (List.mem_range.mp hi)
  · obtain ⟨i, hi, rfl⟩ := List.mem_map.mp hrow
    have hrow := hinner i (List.mem_range.mp hi)
    exact ⟨hrow, hrow.mono hvisible⟩

end Inside

/-- The boxes that can be reached: they start empty, a message grows one, and the deferred rendering
makes one empty again. -/
inductive Collected : (ℕ → DirtyState) → Prop
  | start : Collected fun _ => .reset
  | update {dirtyMap : ℕ → DirtyState} (s : Wm) (m : Message) :
      Collected dirtyMap → Collected (s.bufferUpdate dirtyMap m)
  | reset {dirtyMap : ℕ → DirtyState} (i : ℕ) :
      Collected dirtyMap → Collected (Function.update dirtyMap i .reset)

theorem unpackRect_low (data1 data2 : ℕ) :
    -2 ^ 31 ≤ (unpackRect data1 data2).x ∧ -2 ^ 31 ≤ (unpackRect data1 data2).y :=
  ⟨(toInt32_bounds _).1, (toInt32_bounds _).1⟩

theorem Wm.isBox_bufferUpdate {s : Wm} {dirtyMap : ℕ → DirtyState} (h : ∀ i, (dirtyMap i).IsBox)
    (m : Message) (i : ℕ) : (s.bufferUpdate dirtyMap m i).IsBox := by
  rw [bufferUpdate]
  cases s.findWindow m.senderPid with
  | none => exact h i
  | some slot =>
    by_cases hi : i = slot
    · subst hi
      simp only [Function.update_self]
      obtain ⟨hx, hy⟩ := unpackRect_low m.data1 m.data2
      exact (h i).markDirty hx hy
    · simp only [Function.update_of_ne hi]
      exact h i

/-- The bounds of the boxes stay between their marks. -/
theorem Collected.isBox {dirtyMap : ℕ → DirtyState} (h : Collected dirtyMap) :
    ∀ i, (dirtyMap i).IsBox := by
  induction h with
  | start => exact fun _ => DirtyState.isBox_reset
  | update s m _ ih => exact s.isBox_bufferUpdate ih m
  | reset j _ ih =>
    intro i
    by_cases hi : i = j
    · subst hi
      rw [Function.update_self]
      exact DirtyState.isBox_reset
    · rw [Function.update_of_ne hi]
      exact ih i

namespace Wm

variable {s : Wm} {frame : Frame} {slot : ℕ} {dirtyMap : ℕ → DirtyState} {pid : ℤ}

theorem findWindow_eq (h : s.findWindow pid = some slot) :
    slot < maxWindows ∧ (s.windows slot).pid = pid ∧ (s.windows slot).alive = true := by
  have hmem := List.mem_of_find?_eq_some h
  have hfound := List.find?_some h
  rw [Bool.and_eq_true, decide_eq_true_eq] at hfound
  exact ⟨List.mem_range.mp hmem, hfound⟩

/-- Everything in the deferred rendering is a part of a window. -/
theorem deferred_eq (hsmall : frame.Small) (hcollected : Collected dirtyMap)
    (hwindows : ∀ slot < maxWindows, (s.windows slot).alive = true →
      (s.windows slot).rect.Inside frame.visible) :
    ∀ r ∈ s.deferred frame dirtyMap, ∃ slot < maxWindows, (s.windows slot).alive = true ∧
      (s.windows slot).bufferWmPtr ≠ 0 ∧ ∃ i rx ry rw rh,
        Clipped ((s.windows slot).width - 8) (dirtyMap i).minX (dirtyMap i).maxX rx rw ∧
        Clipped ((s.windows slot).height - 8) (dirtyMap i).minY (dirtyMap i).maxY ry rh ∧
        r = refreshRows frame (s.windows slot) slot rx ry rw rh := by
  intro r hr
  obtain ⟨i, -, hi⟩ := List.mem_filterMap.mp hr
  simp only at hi
  split_ifs at hi
  obtain ⟨slot, hfind, hslot⟩ := Option.bind_eq_some_iff.mp hi
  obtain ⟨hlt, -, halive⟩ := findWindow_eq hfind
  have hbox := hcollected.isBox i
  obtain ⟨hptr, rx, ry, rw, rh, hcx, hcy, rfl⟩ :=
    refreshSlot_eq hsmall (hwindows slot hlt halive) hbox.x hbox.y hslot
  exact ⟨slot, hlt, halive, hptr, i, rx, ry, rw, rh, hcx, hcy, rfl⟩

/-- Whatever clients announce, the deferred rendering reads only the buffers of windows, and writes
only the insides of these windows, when they are on the screen. -/
theorem deferred_inside (hsmall : frame.Small) (hcollected : Collected dirtyMap)
    (hwindows : ∀ slot < maxWindows, (s.windows slot).alive = true →
      (s.windows slot).rect.Inside frame.visible) :
    ∀ r ∈ s.deferred frame dirtyMap, r.slot < maxWindows ∧
      (s.windows r.slot).alive = true ∧ r.Inside frame (s.windows r.slot) := by
  intro r hr
  obtain ⟨slot, hlt, halive, -, i, rx, ry, rw, rh, hcx, hcy, rfl⟩ :=
    deferred_eq hsmall hcollected hwindows r hr
  exact ⟨hlt, halive, refreshRows_inside (hwindows slot hlt halive) hcx hcy⟩

/-- There is one window, and it has the whole screen. -/
def OneWindow (s : Wm) (width height : ℤ) : Prop :=
  (∀ slot < maxWindows, (s.windows slot).alive = true → slot = 0) ∧
    (s.windows 0).x = 0 ∧ (s.windows 0).y = 0 ∧ (s.windows 0).width = width ∧
    (s.windows 0).height = height

instance (s : Wm) (width height : ℤ) : Decidable (s.OneWindow width height) :=
  inferInstanceAs (Decidable (_ ∧ _ ∧ _ ∧ _ ∧ _))

theorem OneWindow.inside (h : s.OneWindow frame.fbWidth frame.fbHeight) :
    ∀ slot < maxWindows, (s.windows slot).alive = true →
      (s.windows slot).rect.Inside frame.visible := by
  obtain ⟨hone, hx, hy, hw, hh⟩ := h
  intro slot hslot halive
  obtain rfl := hone slot hslot halive
  rw [Window.rect, hx, hy, hw, hh]
  exact .refl (Int.natCast_nonneg _) (Int.natCast_nonneg _)

/-- An update that announces much more than the window. -/
def hugeUpdate : Message := ⟨7, msgBufferUpdate, 0xfffffffb00000005, 0x7fffffff7fffffff, 0⟩

theorem deferred_inside_hugeUpdate : ∃ s, Reaches (Handles ⟨64, 48⟩) start
    [.newClient 7 (0x10000, 0x800000000)] s ∧
    ∃ r ∈ s.deferred ⟨⟨64, 48⟩, 256⟩ (s.bufferUpdate (fun _ => .reset) hugeUpdate),
      r.Inside ⟨⟨64, 48⟩, 256⟩ (s.windows r.slot) := by
  have hsome : ((replay ⟨64, 48⟩ [.newClient 7 (0x10000, 0x800000000)]).any fun s => decide
      (s.OneWindow 64 48 ∧ s.deferred ⟨⟨64, 48⟩, 256⟩
        (s.bufferUpdate (fun _ => .reset) hugeUpdate) ≠ [])) = true := by decide +kernel
  obtain ⟨s, hreplay, hs⟩ := (Option.any_eq_true _ _).mp hsome
  obtain ⟨hone, hne⟩ := of_decide_eq_true hs
  obtain ⟨r, hr⟩ := List.exists_mem_of_ne_nil _ hne
  have hsmall : Frame.Small ⟨⟨64, 48⟩, 256⟩ := ⟨by decide, by decide⟩
  have hall := deferred_inside hsmall (.update s hugeUpdate .start) (OneWindow.inside hone) r hr
  exact ⟨s, reaches_replay _ hreplay, r, hr, hall.2.2⟩

/-- With rows of `2 ^ 28` bytes, the offset of the ninth row of the screen is not an `int`. What is
written is before the back buffer. -/
theorem deferred_outside : ∃ s, Reaches (Handles ⟨16, 20⟩) start
    [.newClient 7 (0x10000, 0x800000000)] s ∧ s.OneWindow 16 20 ∧
    ∃ r ∈ s.deferred ⟨⟨16, 20⟩, 2 ^ 28⟩
      (s.bufferUpdate (fun _ => .reset) ⟨7, msgBufferUpdate, 4, 0x800000001, 0⟩),
      ∃ row ∈ r.rows, row.dst < 0 := by
  have hsome : ((replay ⟨16, 20⟩ [.newClient 7 (0x10000, 0x800000000)]).any fun s => decide
      (s.OneWindow 16 20 ∧ ∃ r ∈ s.deferred ⟨⟨16, 20⟩, 2 ^ 28⟩
        (s.bufferUpdate (fun _ => .reset) ⟨7, msgBufferUpdate, 4, 0x800000001, 0⟩),
        ∃ row ∈ r.rows, row.dst < 0)) = true := by decide +kernel
  obtain ⟨s, hreplay, hs⟩ := (Option.any_eq_true _ _).mp hsome
  exact ⟨s, reaches_replay _ hreplay, of_decide_eq_true hs⟩

end Wm

end OpenIDP.Userspace
