import Mathlib.Data.BitVec
import Mathlib.Data.List.Basic
import Mathlib.Logic.Function.Basic

/-!
# The disk access window

The file system of `src/drivers/fatfs/ff.c` sees the disk through a buffer of one sector. A sector
that was changed in the buffer is written when the buffer is needed for another one, and a sector of
the first FAT is then written to the second FAT too.

The functions are described for any disk, which may fail. What the file system sees is the disk with
the sector in the buffer in place of the one that is not yet written.

## Main definitions

* `DiskIo`, `DiskIo.Lawful` — a disk, and what is promised of one that may fail
* `FatFs` — a file system object
* `syncWindow`, `moveWindow` — the functions of `ff.c`
* `FatFs.view` — what the file system sees
* `FatFs.Coherent`, `FatFs.Mirrored` — the buffer has what the disk has; the second FAT is a copy

## Main results

* `moveWindow_spec` — moving the buffer does not change what is seen, even when the disk fails
* `moveWindow_mirrored` — the second FAT stays a copy of the first
-/

namespace OpenIDP.Fat

/-- Sectors have 512 bytes, as `FF_MIN_SS` and `FF_MAX_SS` are equal. -/
abbrev Sector := Fin 512 → BitVec 8

/-- There is a byte in a sector. -/
scoped instance neZeroSector : NeZero 512 := ⟨by decide⟩

/-- `disk_read` and `disk_write` of a sector: whether the result is `RES_OK`, and what is read. -/
structure DiskIo (σ : Type) where
  read : σ → ℕ → Bool × Sector × σ
  write : σ → ℕ → Sector → Bool × σ

/-- Arithmetic on `DWORD`. -/
def wrap32 (n : ℕ) : ℕ := n % 2 ^ 32

/-- Subtraction on `DWORD`. -/
def sub32 (a b : ℕ) : ℕ := (a + (2 ^ 32 - b)) % 2 ^ 32

/-- `FRESULT`, as far as the functions of this file return it. -/
inductive FResult
  | ok
  | diskErr
  | intErr
deriving DecidableEq

theorem FResult.diskErr_ne_ok : FResult.diskErr ≠ .ok := by decide

theorem FResult.intErr_ne_ok : FResult.intErr ≠ .ok := by decide

/-- `fs_type`. -/
inductive FsType
  | unmounted
  | fat12
  | fat16
  | fat32
deriving DecidableEq

/-- The fields of `FATFS` that do not change after mounting. -/
structure Volume where
  fsType : FsType
  nFats : ℕ
  csize : ℕ
  nRootdir : ℕ
  nFatent : ℕ
  fsize : ℕ
  volbase : ℕ
  fatbase : ℕ
  dirbase : ℕ
  database : ℕ
deriving DecidableEq

/-- `FATFS`, together with the disk. -/
structure FatFs (σ : Type) extends Volume where
  disk : σ
  win : Sector
  winsect : ℕ
  wflag : Bool
  lastClst : ℕ
  freeClst : ℕ
  fsiFlag : BitVec 8

section Code

variable {σ : Type} (io : DiskIo σ)

/-- `sync_window` -/
def syncWindow (fs : FatFs σ) : FResult × FatFs σ :=
  if fs.wflag then
    let r := io.write fs.disk fs.winsect fs.win
    if r.1 then
      if sub32 fs.winsect fs.fatbase < fs.fsize ∧ fs.nFats = 2 then
        -- the result of the second write is not looked at
        (.ok, { fs with
          disk := (io.write r.2 (wrap32 (fs.winsect + fs.fsize)) fs.win).2
          wflag := false })
      else (.ok, { fs with disk := r.2, wflag := false })
    else (.diskErr, { fs with disk := r.2 })
  else (.ok, fs)

/-- `move_window` -/
def moveWindow (sect : ℕ) (fs : FatFs σ) : FResult × FatFs σ :=
  if sect ≠ fs.winsect then
    match syncWindow io fs with
    | (.ok, fs₁) =>
      let r := io.read fs₁.disk sect
      if r.1 then (.ok, { fs₁ with disk := r.2.2, win := r.2.1, winsect := sect })
      else (.diskErr, { fs₁ with disk := r.2.2, win := r.2.1, winsect := sub32 0 1 })
    | failed => failed
  else (.ok, fs)

end Code

/-- What is promised of a disk with some sectors: what is read without an error is what the sector
has, and a write without an error changes the sector. A write that fails leaves other sectors. -/
structure DiskIo.Lawful {σ : Type} (io : DiskIo σ) (content : σ → ℕ → Sector) (size : ℕ) :
    Prop where
  size_lt : size < 2 ^ 32
  content_read : ∀ d s, content (io.read d s).2.2 = content d
  read_eq : ∀ d s, s < size → (io.read d s).1 → (io.read d s).2.1 = content d s
  write_self : ∀ d s w, s < size → (io.write d s w).1 → content (io.write d s w).2 s = w
  write_ne : ∀ d s w s', s < size → s' < size → s' ≠ s →
    content (io.write d s w).2 s' = content d s'

/-- A disk that does not fail. -/
def DiskIo.Reliable {σ : Type} (io : DiskIo σ) (size : ℕ) : Prop :=
  ∀ d s, s < size → (io.read d s).1 ∧ ∀ w, (io.write d s w).1

/-- A disk that has the last sector written at each place. -/
def memoryDisk : DiskIo (ℕ → Sector) where
  read d s := (true, d s, d)
  write d s w := (true, Function.update d s w)

theorem memoryDisk_lawful {size : ℕ} (h : size < 2 ^ 32) : memoryDisk.Lawful id size where
  size_lt := h
  content_read _ _ := rfl
  read_eq _ _ _ _ := rfl
  write_self _ _ _ _ _ := Function.update_self _ _ _
  write_ne _ _ _ _ _ _ hne := Function.update_of_ne hne _ _

theorem memoryDisk_reliable (size : ℕ) : memoryDisk.Reliable size :=
  fun _ _ _ => ⟨rfl, fun _ => rfl⟩

namespace FatFs

variable {σ : Type} (content : σ → ℕ → Sector) (size : ℕ) (fs : FatFs σ)

/-- What the file system sees in a sector. -/
def view (s : ℕ) : Sector :=
  if fs.wflag ∧ s = fs.winsect then fs.win else content fs.disk s

/-- A sector of the second FAT. -/
def Second (s : ℕ) : Prop :=
  fs.nFats = 2 ∧ fs.fatbase + fs.fsize ≤ s ∧ s < fs.fatbase + 2 * fs.fsize

/-- The FATs are on the disk, and the window has a sector of the disk or is invalid. Sectors of the
second FAT are not changed through the window. -/
structure Coherent : Prop where
  fats : fs.fatbase + fs.nFats * fs.fsize ≤ size
  clean : fs.wflag = false → fs.winsect < size → fs.win = content fs.disk fs.winsect
  dirty : fs.wflag → fs.winsect < size ∧ ¬fs.Second fs.winsect

/-- The second FAT is a copy of the first one, up to a sector that is not yet written. -/
def Mirrored : Prop :=
  fs.nFats = 2 → ∀ k < fs.fsize, (fs.wflag → fs.winsect ≠ fs.fatbase + k) →
    content fs.disk (fs.fatbase + fs.fsize + k) = content fs.disk (fs.fatbase + k)

/-- Only the window and the disk differ. -/
structure Frame (fs fs' : FatFs σ) : Prop where
  volume : fs'.toVolume = fs.toVolume
  lastClst : fs'.lastClst = fs.lastClst
  freeClst : fs'.freeClst = fs.freeClst
  fsiFlag : fs'.fsiFlag = fs.fsiFlag

variable {content size fs} {fs₁ fs₂ fs₃ : FatFs σ}

theorem Frame.refl (fs : FatFs σ) : Frame fs fs := ⟨rfl, rfl, rfl, rfl⟩

theorem Frame.trans (h : Frame fs₁ fs₂) (h' : Frame fs₂ fs₃) : Frame fs₁ fs₃ :=
  ⟨h'.volume.trans h.volume, h'.lastClst.trans h.lastClst, h'.freeClst.trans h.freeClst,
    h'.fsiFlag.trans h.fsiFlag⟩

theorem Frame.second (h : Frame fs₁ fs₂) (s : ℕ) : fs₂.Second s ↔ fs₁.Second s := by
  rw [Second, Second, h.volume]

/-- The window has what is seen. -/
theorem Coherent.win_eq (h : fs.Coherent content size) (hs : fs.winsect < size) :
    fs.win = fs.view content fs.winsect := by
  cases hw : fs.wflag with
  | true => rw [view, if_pos ⟨hw, rfl⟩]
  | false =>
    rw [view, if_neg fun hd => Bool.false_ne_true (hw.symm.trans hd.1)]
    exact h.clean hw hs

theorem view_of_clean (h : fs.wflag = false) (s : ℕ) : fs.view content s = content fs.disk s :=
  if_neg fun hd => Bool.false_ne_true (h.symm.trans hd.1)

end FatFs

open FatFs

section Spec

variable {σ : Type} {io : DiskIo σ} {content : σ → ℕ → Sector} {size : ℕ} {fs : FatFs σ} {sect : ℕ}

theorem sub32_lt_iff {a b n : ℕ} (ha : a < 2 ^ 32) (hb : b + n < 2 ^ 32) :
    sub32 a b < n ↔ b ≤ a ∧ a < b + n := by
  unfold sub32
  omega

/-- What `sync_window` promises. -/
theorem syncWindow_spec (hlaw : io.Lawful content size) (h : fs.Coherent content size) :
    Frame fs (syncWindow io fs).2 ∧
      (∀ s < size, ¬fs.Second s → (syncWindow io fs).2.view content s = fs.view content s) ∧
      (syncWindow io fs).2.Coherent content size ∧
      (syncWindow io fs).2.winsect = fs.winsect ∧ (syncWindow io fs).2.win = fs.win ∧
      ((syncWindow io fs).1 = .ok → (syncWindow io fs).2.wflag = false) := by
  cases hw : fs.wflag with
  | false =>
    rw [syncWindow, hw]
    exact ⟨.refl fs, fun _ _ _ => rfl, h, rfl, rfl, fun _ => hw⟩
  | true =>
    obtain ⟨hsect, hsecond⟩ := h.dirty hw
    have hsize := hlaw.size_lt
    have hfats := h.fats
    have hself := hlaw.write_self fs.disk fs.winsect fs.win hsect
    have hne := fun s => hlaw.write_ne fs.disk fs.winsect fs.win s hsect
    rw [syncWindow, if_pos hw]
    generalize io.write fs.disk fs.winsect fs.win = r at hself hne
    obtain ⟨ok, disk⟩ := r
    dsimp only at hself hne ⊢
    cases ok with
    | false =>
      rw [if_neg Bool.false_ne_true]
      -- the window stays dirty, and is what is seen of its sector
      refine ⟨⟨rfl, rfl, rfl, rfl⟩, fun s hs _ => ?_, ⟨hfats, ?_, fun _ => h.dirty hw⟩, rfl, rfl,
        ?_⟩
      · by_cases hse : s = fs.winsect
        · simp only [view, hse, and_true]
          exact (if_pos hw).trans (if_pos hw).symm
        · simp only [view, hse, and_false, if_false]
          exact hne s hs hse
      · exact fun hclean => absurd (hw.symm.trans hclean) (by decide)
      · exact fun hres => absurd hres FResult.diskErr_ne_ok
    | true =>
      have hseen : ∀ s < size, content disk s = fs.view content s := by
        intro s hs
        by_cases hse : s = fs.winsect
        · rw [hse, hself rfl, h.win_eq hsect]
        · rw [view, if_neg fun hd => hse hd.2]
          exact hne s hs hse
      have hwin : fs.win = content disk fs.winsect := by
        rw [hseen _ hsect]
        exact h.win_eq hsect
      rw [if_pos rfl]
      split_ifs with hfirst
      · -- the copy goes to the second FAT
        have hn2 : fs.fatbase + 2 * fs.fsize ≤ size := by rw [← hfirst.2]; exact hfats
        have hin := (sub32_lt_iff (hsect.trans hsize) (by omega)).mp hfirst.1
        have hcopy : wrap32 (fs.winsect + fs.fsize) = fs.winsect + fs.fsize :=
          Nat.mod_eq_of_lt (by omega)
        have hne' := fun s => hlaw.write_ne disk (fs.winsect + fs.fsize) fs.win s (by omega)
        have hout : ∀ s < size, ¬fs.Second s →
            content (io.write disk (fs.winsect + fs.fsize) fs.win).2 s = content disk s := by
          intro s hs hnot
          apply hne' s hs
          exact fun hse => hnot ⟨hfirst.2, by omega, by omega⟩
        rw [hcopy]
        refine ⟨⟨rfl, rfl, rfl, rfl⟩, fun s hs hnot => ?_, ⟨hfats, fun _ _ => ?_, ?_⟩, rfl, rfl, ?_⟩
        · rw [view_of_clean rfl]
          exact (hout s hs hnot).trans (hseen s hs)
        · exact hwin.trans (hout _ hsect hsecond).symm
        · exact fun hd => absurd hd Bool.false_ne_true
        · exact fun _ => rfl
      · refine ⟨⟨rfl, rfl, rfl, rfl⟩, fun s hs _ => ?_, ⟨hfats, fun _ _ => hwin, ?_⟩, rfl, rfl, ?_⟩
        · rw [view_of_clean rfl]
          exact hseen s hs
        · exact fun hd => absurd hd Bool.false_ne_true
        · exact fun _ => rfl

/-- Moving the window does not change what is seen outside the second FAT, even when the disk fails.
Without an error the window then has what is seen. -/
theorem moveWindow_spec (hlaw : io.Lawful content size) (h : fs.Coherent content size)
    (hsect : sect < size) :
    Frame fs (moveWindow io sect fs).2 ∧
      (∀ s < size, ¬fs.Second s → (moveWindow io sect fs).2.view content s = fs.view content s) ∧
      (moveWindow io sect fs).2.Coherent content size ∧
      ((moveWindow io sect fs).1 = .ok → (moveWindow io sect fs).2.winsect = sect) := by
  by_cases hsame : sect = fs.winsect
  · rw [moveWindow, if_neg (not_not.mpr hsame)]
    exact ⟨.refl fs, fun _ _ _ => rfl, h, fun _ => hsame.symm⟩
  · have hsync := syncWindow_spec hlaw h
    rw [moveWindow, if_pos hsame]
    generalize syncWindow io fs = r at hsync
    obtain ⟨res, fs₁⟩ := r
    dsimp only at hsync
    obtain ⟨hframe, hview, hcoh, -, -, hclean⟩ := hsync
    cases res with
    | diskErr => exact ⟨hframe, hview, hcoh, fun hres => absurd hres FResult.diskErr_ne_ok⟩
    | intErr => exact ⟨hframe, hview, hcoh, fun hres => absurd hres FResult.intErr_ne_ok⟩
    | ok =>
      have hclean₁ := hclean rfl
      have hcontent := hlaw.content_read fs₁.disk sect
      have hread := hlaw.read_eq fs₁.disk sect hsect
      have hview' : ∀ s < size, ¬fs.Second s →
          content (io.read fs₁.disk sect).2.2 s = fs.view content s := by
        intro s hs hnot
        rw [hcontent, ← hview s hs hnot]
        exact (view_of_clean hclean₁ s).symm
      dsimp only
      split_ifs with hok
      · refine ⟨hframe.trans ⟨rfl, rfl, rfl, rfl⟩, fun s hs hnot => ?_, ⟨hcoh.fats, ?_, ?_⟩, ?_⟩
        · refine (view_of_clean ?_ s).trans (hview' s hs hnot)
          exact hclean₁
        · intro _ _
          exact (hread hok).trans (congrFun hcontent sect).symm
        · exact fun hd => absurd (hclean₁.symm.trans hd) Bool.false_ne_true
        · exact fun _ => rfl
      · refine ⟨hframe.trans ⟨rfl, rfl, rfl, rfl⟩, fun s hs hnot => ?_, ⟨hcoh.fats, ?_, ?_⟩, ?_⟩
        · refine (view_of_clean ?_ s).trans (hview' s hs hnot)
          exact hclean₁
        · -- the number of the sector is now that of none
          intro _ hs
          have hinvalid : 2 ^ 32 - 1 < size := hs
          have hsize := hlaw.size_lt
          omega
        · exact fun hd => absurd (hclean₁.symm.trans hd) Bool.false_ne_true
        · exact False.elim

theorem syncWindow_ok (hrel : io.Reliable size) (h : fs.Coherent content size) :
    (syncWindow io fs).1 = .ok := by
  cases hw : fs.wflag with
  | false => rw [syncWindow, hw]; rfl
  | true =>
    have hok := (hrel fs.disk fs.winsect (h.dirty hw).1).2 fs.win
    rw [syncWindow, if_pos hw]
    dsimp only
    rw [if_pos hok]
    split_ifs <;> rfl

theorem moveWindow_ok (hrel : io.Reliable size)
    (h : fs.Coherent content size) (hsect : sect < size) : (moveWindow io sect fs).1 = .ok := by
  have hok := syncWindow_ok hrel h
  rw [moveWindow]
  split_ifs with hsame
  · generalize syncWindow io fs = r at hok
    obtain ⟨res, fs₁⟩ := r
    obtain rfl : res = .ok := hok
    dsimp only
    rw [if_pos (hrel fs₁.disk sect hsect).1]
  · rfl

theorem syncWindow_mirrored (hlaw : io.Lawful content size) (hrel : io.Reliable size)
    (h : fs.Coherent content size) (hm : fs.Mirrored content) :
    (syncWindow io fs).2.Mirrored content := by
  intro htwo k hk _
  have hframe := (syncWindow_spec hlaw h).1.volume
  have htwo' : fs.nFats = 2 := (congrArg Volume.nFats hframe).symm.trans htwo
  have hk' : k < fs.fsize := hk.trans_eq (congrArg Volume.fsize hframe)
  have hbase : (syncWindow io fs).2.fatbase = fs.fatbase := congrArg Volume.fatbase hframe
  have hsz : (syncWindow io fs).2.fsize = fs.fsize := congrArg Volume.fsize hframe
  have hn2 : fs.fatbase + 2 * fs.fsize ≤ size := by rw [← htwo']; exact h.fats
  have hsize := hlaw.size_lt
  rw [hbase, hsz]
  cases hw : fs.wflag with
  | false =>
    rw [syncWindow, hw]
    exact hm htwo' k hk' fun hd => absurd (hw.symm.trans hd) Bool.false_ne_true
  | true =>
    obtain ⟨hsect, hsecond⟩ := h.dirty hw
    have hok := (hrel fs.disk fs.winsect hsect).2 fs.win
    have hself := hlaw.write_self fs.disk fs.winsect fs.win hsect hok
    have hne := fun s => hlaw.write_ne fs.disk fs.winsect fs.win s hsect
    rw [syncWindow, if_pos hw]
    dsimp only
    rw [if_pos hok]
    split_ifs with hfirst
    · -- a sector of the first FAT: both copies are written
      have hin := (sub32_lt_iff (hsect.trans hsize) (by omega)).mp hfirst.1
      have hcopy : wrap32 (fs.winsect + fs.fsize) = fs.winsect + fs.fsize :=
        Nat.mod_eq_of_lt (by omega)
      have hok' := (hrel (io.write fs.disk fs.winsect fs.win).2 (fs.winsect + fs.fsize)
        (by omega)).2 fs.win
      have hself' := hlaw.write_self _ _ _ (by omega) hok'
      have hne' := fun s => hlaw.write_ne (io.write fs.disk fs.winsect fs.win).2
        (fs.winsect + fs.fsize) fs.win s (by omega)
      rw [hcopy]
      dsimp only
      by_cases hat : fs.winsect = fs.fatbase + k
      · have hsecond' : fs.fatbase + fs.fsize + k = fs.winsect + fs.fsize := by omega
        rw [hsecond', hself', ← hat, hne' _ hsect (by omega), hself]
      · rw [hne' _ (by omega) (by omega), hne' _ (by omega) (by omega), hne _ (by omega) (by omega),
          hne _ (by omega) (Ne.symm hat)]
        exact hm htwo' k hk' fun _ => hat
    · have hout : ¬(fs.fatbase ≤ fs.winsect ∧ fs.winsect < fs.fatbase + fs.fsize) := by
        rw [← sub32_lt_iff (hsect.trans hsize) (by omega)]
        exact fun hin => hfirst ⟨hin, htwo'⟩
      have hnot : ¬(fs.fatbase + fs.fsize ≤ fs.winsect ∧ fs.winsect < fs.fatbase + 2 * fs.fsize) :=
        fun hin => hsecond ⟨htwo', hin⟩
      dsimp only
      rw [hne _ (by omega) (by omega), hne _ (by omega) (by omega)]
      exact hm htwo' k hk' fun _ => by omega

/-- On a disk that does not fail the second FAT stays a copy. -/
theorem moveWindow_mirrored (hlaw : io.Lawful content size) (hrel : io.Reliable size)
    (h : fs.Coherent content size) (hsect : sect < size) (hm : fs.Mirrored content) :
    (moveWindow io sect fs).2.Mirrored content := by
  have hok := syncWindow_ok hrel h
  have hclean := (syncWindow_spec hlaw h).2.2.2.2.2
  have hm' := syncWindow_mirrored hlaw hrel h hm
  rw [moveWindow]
  split_ifs with hsame
  · generalize syncWindow io fs = r at hok hclean hm'
    obtain ⟨res, fs₁⟩ := r
    obtain rfl : res = .ok := hok
    have hclean₁ : fs₁.wflag = false := hclean rfl
    have hcontent := hlaw.content_read fs₁.disk sect
    dsimp only
    rw [if_pos (hrel fs₁.disk sect hsect).1]
    intro htwo k hk _
    change content (io.read fs₁.disk sect).2.2 _ = content (io.read fs₁.disk sect).2.2 _
    rw [hcontent]
    exact hm' htwo k hk fun hd => absurd (hclean₁.symm.trans hd) Bool.false_ne_true
  · exact hm

end Spec

end OpenIDP.Fat
