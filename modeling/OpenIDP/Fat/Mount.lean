import OpenIDP.Fat.Chain

/-!
# Mounting a volume

`mount_volume` of `src/drivers/fatfs/ff.c` looks for a FAT volume on the disk and reads its first
sector. It checks that there is a FAT with an entry for every cluster. That the areas of the volume
are in it is checked with 32 bits.

## Main definitions

* `checkFs`, `findVolume`, `volumeOf`, `mountVolume` — the functions of `ff.c`; `volumeOf` is the
  part of `mount_volume` that checks the first sector
* `clst2sect` — the first sector of a cluster
* `Volume.Layout` — the areas of a volume are behind one another

## Main results

* `volumeOf_sound` — what is accepted has an entry for every cluster
* `layout_iff` — when the areas of what is accepted are behind one another
* `mountVolume_ready` — a mounted volume is ready for the calls of the file system
-/

namespace OpenIDP.Fat

section Code

variable {σ : Type} (io : DiskIo σ)

/-- `memcmp` with a text, at an offset of a sector. -/
def hasText (win : Sector) (o : ℕ) (text : List ℕ) : Prop :=
  ∀ k < text.length, (win (Fin.ofNat 512 (o + k))).toNat = text.getD k 0

instance (win : Sector) (o : ℕ) (text : List ℕ) : Decidable (hasText win o text) :=
  inferInstanceAs (Decidable (∀ k < text.length, _))

/-- `"FAT32   "` -/
def fat32Text : List ℕ := [0x46, 0x41, 0x54, 0x33, 0x32, 0x20, 0x20, 0x20]

/-- What `check_fs` finds of a sector that was read. -/
def vbrStatus (win : Sector) : ℕ :=
  let sign := ldWord win 510
  let b := win 0
  let w := ldWord win 11
  let spc := win 13
  if (b = 0xEB#8 ∨ b = 0xE9#8 ∨ b = 0xE8#8) ∧
      (sign = 0xAA55#16 ∧ hasText win 82 fat32Text ∨
        w &&& (w - 1) = 0 ∧ 512 ≤ w.toNat ∧ w.toNat ≤ 512 ∧
        spc ≠ 0 ∧ spc &&& (spc - 1) = 0 ∧
        ldWord win 14 ≠ 0 ∧
        sub32 (win 16).toNat 1 ≤ 1 ∧
        ldWord win 17 ≠ 0 ∧
        (128 ≤ (ldWord win 19).toNat ∨ 0x10000 ≤ (ldDword win 32).toNat) ∧
        ldWord win 22 ≠ 0) then 0
  else if sign = 0xAA55#16 then 2 else 3

/-- `check_fs` -/
def checkFs (sect : ℕ) (fs : FatFs σ) : ℕ × FatFs σ :=
  match moveWindow io sect { fs with wflag := false, winsect := sub32 0 1 } with
  | (.ok, fs₁) => (vbrStatus fs₁.win, fs₁)
  | (_, fs₁) => (4, fs₁)

/-- The loop of `find_volume` over the partitions. -/
def findPartition (mbrPt : ℕ → ℕ) : List ℕ → FatFs σ → ℕ × FatFs σ
  | [], fs => (3, fs)
  | i :: rest, fs =>
    let (fmt, fs₁) := if mbrPt i ≠ 0 then checkFs io (mbrPt i) fs else (3, fs)
    if 2 ≤ fmt ∧ rest ≠ [] then findPartition mbrPt rest fs₁ else (fmt, fs₁)

/-- `find_volume`, where `LD2PT(vol)` is zero. -/
def findVolume (fs : FatFs σ) : ℕ × FatFs σ :=
  let (fmt, fs₁) := checkFs io 0 fs
  if fmt ≠ 2 then (fmt, fs₁)
  else findPartition io (fun i => (ldDword fs₁.win (446 + i * 16 + 8)).toNat) [0, 1, 2, 3] fs₁

end Code

section Bpb

variable (win : Sector)

/-- `BPB_FATSz16`, or `BPB_FATSz32` where that is zero. -/
def fatSize : ℕ := if ldWord win 22 = 0 then (ldDword win 36).toNat else (ldWord win 22).toNat

/-- `BPB_TotSec16`, or `BPB_TotSec32` where that is zero. -/
def totalSectors : ℕ := if ldWord win 19 = 0 then (ldDword win 32).toNat else (ldWord win 19).toNat

/-- `sysect`, with the bits that it has. -/
def sysectOf : ℕ :=
  wrap32 ((ldWord win 14).toNat + wrap32 (fatSize win * (win 16).toNat) +
    (ldWord win 17).toNat / 16)

/-- The FAT sub-type, from the number of clusters. -/
def fsTypeOf (nclst : ℕ) : FsType :=
  if nclst ≤ 0xFF5 then .fat12
  else if nclst ≤ 0xFFF5 then .fat16
  else if nclst ≤ 0x0FFFFFF5 then .fat32
  else .unmounted

/-- What the first sector of a volume at `bsect` says. -/
def bpbVolume (bsect : ℕ) : Volume :=
  let nclst := (totalSectors win - sysectOf win) / (win 13).toNat
  let fatbase := wrap32 (bsect + (ldWord win 14).toNat)
  let fmt := fsTypeOf nclst
  { fsType := fmt
    nFats := (win 16).toNat
    csize := (win 13).toNat
    nRootdir := (ldWord win 17).toNat
    nFatent := nclst + 2
    fsize := fatSize win
    volbase := bsect
    fatbase := fatbase
    dirbase :=
      if fmt = .fat32 then (ldDword win 44).toNat
      else wrap32 (fatbase + wrap32 (fatSize win * (win 16).toNat))
    database := wrap32 (bsect + sysectOf win) }

/-- The part of `mount_volume` that checks the first sector of a volume at `bsect`. -/
def volumeOf (bsect : ℕ) : Option Volume :=
  let v := bpbVolume win bsect
  if (ldWord win 11).toNat ≠ 512 then none
  else if v.nFats ≠ 1 ∧ v.nFats ≠ 2 then none
  else if v.csize = 0 ∨ v.csize &&& (v.csize - 1) ≠ 0 then none
  else if v.nRootdir % 16 ≠ 0 then none
  else if (ldWord win 14).toNat = 0 then none
  else if totalSectors win < sysectOf win then none
  else if v.nFatent - 2 = 0 then none
  else if v.fsType = .unmounted then none
  else if v.fsType = .fat32 ∧ ((ldWord win 42).toNat ≠ 0 ∨ v.nRootdir ≠ 0) then none
  else if v.fsType ≠ .fat32 ∧ v.nRootdir = 0 then none
  else if v.fsize < (v.fsType.fatBytes v.nFatent + 511) / 512 then none
  else some v

end Bpb

/-- What `mount_volume` returns. -/
inductive MountResult
  | ok
  | diskErr
  | noFilesystem
deriving DecidableEq

section Code

variable {σ : Type} (io : DiskIo σ)

/-- `mount_volume`: the disk is always initialized, and never write protected. -/
def mountVolume (fs : FatFs σ) : MountResult × FatFs σ :=
  if fs.fsType ≠ .unmounted then (.ok, fs)
  else
    let (fmt, fs₁) := findVolume io fs
    if fmt = 4 then (.diskErr, fs₁)
    else if 2 ≤ fmt then (.noFilesystem, fs₁)
    else
      match volumeOf fs₁.win fs₁.winsect with
      | none => (.noFilesystem, fs₁)
      | some v =>
        let fs₂ := { fs₁ with
          toVolume := v, lastClst := 0xFFFFFFFF, freeClst := 0xFFFFFFFF, fsiFlag := 0x80#8 }
        if v.fsType = .fat32 ∧ ldWord fs₁.win 48 = 1 then
          match moveWindow io (wrap32 (fs₁.winsect + 1)) fs₂ with
          | (.ok, fs₃) =>
            if ldDword fs₃.win 0 = 0x41615252#32 ∧ ldDword fs₃.win 484 = 0x61417272#32 ∧
                ldDword fs₃.win 508 = 0xAA550000#32 then
              (.ok, { fs₃ with
                fsiFlag := 0
                freeClst := (ldDword fs₃.win 488).toNat
                lastClst := (ldDword fs₃.win 492).toNat })
            else (.ok, { fs₃ with fsiFlag := 0 })
          | (_, fs₃) => (.ok, fs₃)
        else (.ok, fs₂)

end Code

/-- `clst2sect`, where numbers before the first cluster are large. -/
def clst2sect (v : Volume) (clst : ℕ) : ℕ :=
  if v.nFatent - 2 ≤ sub32 clst 2 then 0 else wrap32 (v.database + v.csize * sub32 clst 2)

/-- The areas of a volume are behind one another: the reserved sectors, the FATs, the root
directory, and the clusters, which end before `last`. -/
structure Volume.Layout (v : Volume) (last : ℕ) : Prop where
  reserved : v.volbase < v.fatbase
  fats : v.fatbase + v.nFats * v.fsize + v.nRootdir / 16 ≤ v.database
  data : v.database + v.csize * (v.nFatent - 2) ≤ last

section Accepted

variable {win : Sector} {bsect : ℕ} {v : Volume}

/-- What was checked when a volume is accepted. -/
theorem volumeOf_eq_some (h : volumeOf win bsect = some v) :
    v = bpbVolume win bsect ∧ (v.nFats = 1 ∨ v.nFats = 2) ∧ (ldWord win 14).toNat ≠ 0 ∧
      sysectOf win ≤ totalSectors win ∧ 2 < v.nFatent ∧ v.fsType ≠ .unmounted ∧
      v.fsType.fatBytes v.nFatent ≤ 512 * v.fsize := by
  simp only [volumeOf, Option.ite_none_left_eq_some] at h
  obtain ⟨-, hn, -, -, hnrsv, hle, hclst, hty, -, -, hsize, h⟩ := h
  obtain rfl := Option.some.inj h
  exact ⟨rfl, by omega, hnrsv, by omega, by omega, hty, by omega⟩

/-- What is accepted has an entry for every cluster, and the type of its FAT has that many. -/
theorem volumeOf_sound (h : volumeOf win bsect = some v) : v.Sound := by
  obtain ⟨rfl, hn, -, -, htwo, hne, hbytes⟩ := volumeOf_eq_some h
  refine ⟨hn, htwo, ?_, hbytes⟩
  dsimp only [bpbVolume] at hne ⊢
  unfold fsTypeOf at hne ⊢
  split_ifs at hne ⊢ <;> simp only [FsType.maxEntries] <;> first | omega | exact absurd rfl hne

/-- **The layout of a volume.** The areas of a volume that is accepted are behind one another in the
volume, if and only if the sectors before the clusters can be counted with 32 bits. -/
theorem layout_iff (h : volumeOf win bsect = some v)
    (hlast : bsect + totalSectors win < 2 ^ 32) :
    v.Layout (bsect + totalSectors win) ↔
      (ldWord win 14).toNat + v.nFats * v.fsize + v.nRootdir / 16 < 2 ^ 32 := by
  obtain ⟨rfl, hn, hnrsv, hle, htwo, -, -⟩ := volumeOf_eq_some h
  have hclusters := Nat.div_mul_le_self (totalSectors win - sysectOf win) (win 13).toNat
  have hroot := (ldWord win 17).isLt
  have hrsv := (ldWord win 14).isLt
  have hsys : sysectOf win = wrap32 ((ldWord win 14).toNat +
      wrap32 (fatSize win * (win 16).toNat) + (ldWord win 17).toNat / 16) := rfl
  have hlayout : (bpbVolume win bsect).Layout (bsect + totalSectors win) ↔
      bsect < wrap32 (bsect + (ldWord win 14).toNat) ∧
      wrap32 (bsect + (ldWord win 14).toNat) + (win 16).toNat * fatSize win +
        (ldWord win 17).toNat / 16 ≤ wrap32 (bsect + sysectOf win) ∧
      wrap32 (bsect + sysectOf win) + (win 13).toNat *
        ((totalSectors win - sysectOf win) / (win 13).toNat) ≤ bsect + totalSectors win :=
    ⟨fun hl => ⟨hl.reserved, hl.fats, hl.data⟩, fun hl => ⟨hl.1, hl.2.1, hl.2.2⟩⟩
  have hright : (ldWord win 14).toNat + (bpbVolume win bsect).nFats * (bpbVolume win bsect).fsize +
      (bpbVolume win bsect).nRootdir / 16 =
      (ldWord win 14).toNat + fatSize win * (win 16).toNat + (ldWord win 17).toNat / 16 := by
    rw [Nat.mul_comm]
    rfl
  rw [hlayout, hright, Nat.mul_comm (win 16).toNat, Nat.mul_comm (win 13).toNat]
  clear hlayout hright htwo hn h
  -- only sums are left
  generalize (totalSectors win - sysectOf win) / (win 13).toNat * (win 13).toNat = data
    at hclusters ⊢
  generalize fatSize win * (win 16).toNat = fats at hsys ⊢
  generalize (ldWord win 14).toNat = nrsv at hnrsv hrsv hsys ⊢
  generalize (ldWord win 17).toNat = root at hroot hsys ⊢
  unfold wrap32 at *
  omega

/-- The first sector of a volume of 128 sectors with one FAT. -/
def smallBpb : Sector := fun k =>
  ([0xEB, 0, 0, 0, 0, 0, 0, 0, 0, 0, 0, 0, 2, 1, 1, 0, 1, 16, 0, 128, 0, 0, 1, 0].getD k 0 :
    BitVec 8)

theorem volumeOf_smallBpb : volumeOf smallBpb 0 = some (bpbVolume smallBpb 0) := by decide

theorem layout_smallBpb : (bpbVolume smallBpb 0).Layout (0 + totalSectors smallBpb) :=
  (layout_iff volumeOf_smallBpb (by decide)).mpr (by decide)

end Accepted

/-- The window has nothing that is not on the disk. -/
structure Loaded {σ : Type} (content : σ → ℕ → Sector) (size : ℕ) (fs : FatFs σ) : Prop where
  wflag : fs.wflag = false
  win : fs.winsect < size → fs.win = content fs.disk fs.winsect

section Mounted

variable {σ : Type} {io : DiskIo σ} {content : σ → ℕ → Sector} {size : ℕ} {fs fs' : FatFs σ}
  {sect : ℕ}

theorem moveWindow_loaded (hlaw : io.Lawful content size) (h : Loaded content size fs) (sect : ℕ) :
    Loaded content size (moveWindow io sect fs).2 ∧
      content (moveWindow io sect fs).2.disk = content fs.disk ∧
      FatFs.Frame fs (moveWindow io sect fs).2 := by
  have hclean : syncWindow io fs = (.ok, fs) := by
    rw [syncWindow, h.wflag]
    rfl
  have hcontent := hlaw.content_read fs.disk sect
  have hsize := hlaw.size_lt
  rw [moveWindow, hclean]
  split_ifs with hsame
  · dsimp only
    split_ifs with hok
    · refine ⟨⟨h.wflag, fun hs => ?_⟩, hcontent, ⟨rfl, rfl, rfl, rfl⟩⟩
      exact (hlaw.read_eq fs.disk sect hs hok).trans (congrFun hcontent sect).symm
    · refine ⟨⟨h.wflag, fun hs => ?_⟩, hcontent, ⟨rfl, rfl, rfl, rfl⟩⟩
      have hinvalid : 2 ^ 32 - 1 < size := hs
      omega
  · exact ⟨h, rfl, .refl fs⟩

theorem checkFs_loaded (hlaw : io.Lawful content size) (sect : ℕ) (fs : FatFs σ) :
    Loaded content size (checkFs io sect fs).2 ∧
      content (checkFs io sect fs).2.disk = content fs.disk := by
  have hinvalid : Loaded content size { fs with wflag := false, winsect := sub32 0 1 } := by
    refine ⟨rfl, fun hs => ?_⟩
    have hsize := hlaw.size_lt
    have hs' : 2 ^ 32 - 1 < size := hs
    omega
  obtain ⟨hload, hcontent, -⟩ := moveWindow_loaded hlaw hinvalid sect
  rw [checkFs]
  generalize moveWindow io sect _ = r at hload hcontent
  obtain ⟨res, fs₁⟩ := r
  cases res <;> exact ⟨hload, hcontent⟩

theorem findPartition_loaded (hlaw : io.Lawful content size) (mbrPt : ℕ → ℕ) (l : List ℕ)
    (h : Loaded content size fs) :
    Loaded content size (findPartition io mbrPt l fs).2 ∧
      content (findPartition io mbrPt l fs).2.disk = content fs.disk := by
  induction l generalizing fs with
  | nil => exact ⟨h, rfl⟩
  | cons i rest ih =>
    have hone : Loaded content size (if mbrPt i ≠ 0 then checkFs io (mbrPt i) fs else (3, fs)).2 ∧
        content (if mbrPt i ≠ 0 then checkFs io (mbrPt i) fs else (3, fs)).2.disk =
          content fs.disk := by
      split_ifs
      · exact checkFs_loaded hlaw (mbrPt i) fs
      · exact ⟨h, rfl⟩
    rw [findPartition]
    dsimp only
    generalize (if mbrPt i ≠ 0 then checkFs io (mbrPt i) fs else (3, fs)) = r at hone
    split_ifs
    · exact ⟨(ih hone.1).1, (ih hone.1).2.trans hone.2⟩
    · exact hone

theorem findVolume_loaded (hlaw : io.Lawful content size) (fs : FatFs σ) :
    Loaded content size (findVolume io fs).2 ∧
      content (findVolume io fs).2.disk = content fs.disk := by
  have hzero := checkFs_loaded hlaw 0 fs
  rw [findVolume]
  dsimp only
  split_ifs
  · exact hzero
  · obtain ⟨hload, hcontent⟩ := findPartition_loaded hlaw
      (fun i => (ldDword (checkFs io 0 fs).2.win (446 + i * 16 + 8)).toNat) [0, 1, 2, 3] hzero.1
    exact ⟨hload, hcontent.trans hzero.2⟩

/-- What `mount_volume` has done when it returns `FR_OK`. -/
theorem mountVolume_ok (hlaw : io.Lawful content size) (hun : fs.fsType = .unmounted)
    (h : mountVolume io fs = (.ok, fs')) :
    volumeOf (findVolume io fs).2.win (findVolume io fs).2.winsect = some fs'.toVolume ∧
      Loaded content size fs' ∧ content fs'.disk = content fs.disk := by
  obtain ⟨hload, hcontent⟩ := findVolume_loaded hlaw fs
  rw [mountVolume, if_neg (not_not.mpr hun)] at h
  dsimp only at h
  generalize findVolume io fs = r at hload hcontent h ⊢
  obtain ⟨fmt, fs₁⟩ := r
  dsimp only at hload hcontent h ⊢
  have herr : MountResult.diskErr ≠ .ok ∧ MountResult.noFilesystem ≠ .ok := by decide
  split_ifs at h with h₁ h₂
  · exact absurd (congrArg Prod.fst h) herr.1
  · exact absurd (congrArg Prod.fst h) herr.2
  · cases hv : volumeOf fs₁.win fs₁.winsect with
    | none =>
      rw [hv] at h
      exact absurd (congrArg Prod.fst h) herr.2
    | some v =>
      rw [hv] at h
      dsimp only at h
      -- the fields are set, and the window may be moved to the sector behind
      generalize hfs : ({ fs₁ with
        toVolume := v, lastClst := 0xFFFFFFFF, freeClst := 0xFFFFFFFF, fsiFlag := 0x80#8 } :
          FatFs σ) = fs₂ at h
      have hload₂ : Loaded content size fs₂ := by
        subst hfs
        exact ⟨hload.wflag, hload.win⟩
      have hcontent₂ : content fs₂.disk = content fs.disk := by
        subst hfs
        exact hcontent
      have hvol₂ : fs₂.toVolume = v := by
        subst hfs
        rfl
      obtain ⟨hload₃, hcontent₃, hframe₃⟩ :=
        moveWindow_loaded hlaw hload₂ (wrap32 (fs₁.winsect + 1))
      split_ifs at h with hinfo
      · generalize moveWindow io (wrap32 (fs₁.winsect + 1)) fs₂ = r
          at hload₃ hcontent₃ hframe₃ h
        obtain ⟨res, fs₃⟩ := r
        have hvol₃ : fs₃.toVolume = v := hframe₃.volume.trans hvol₂
        have hdone : fs'.toVolume = fs₃.toVolume ∧ Loaded content size fs' ∧
            fs'.disk = fs₃.disk := by
          cases res with
          | ok =>
            dsimp only at h
            split_ifs at h
            all_goals
              obtain rfl := (Prod.mk.inj h).2
              exact ⟨rfl, ⟨hload₃.wflag, hload₃.win⟩, rfl⟩
          | diskErr =>
            obtain rfl := (Prod.mk.inj h).2
            exact ⟨rfl, hload₃, rfl⟩
          | intErr =>
            obtain rfl := (Prod.mk.inj h).2
            exact ⟨rfl, hload₃, rfl⟩
        rw [hdone.1, hvol₃, hdone.2.2]
        exact ⟨rfl, hdone.2.1, hcontent₃.trans hcontent₂⟩
      · obtain rfl := (Prod.mk.inj h).2
        rw [hvol₂]
        exact ⟨rfl, hload₂, hcontent₂⟩

/-- **A mounted volume is ready.** When `mount_volume` returns `FR_OK` on a disk that does not fail,
nothing on the disk has changed; every cluster has an entry in the FAT, and when the areas of the
volume are behind one another on the disk, the file system object is as its calls expect it. -/
theorem mountVolume_ready (hlaw : io.Lawful content size) (hrel : io.Reliable size)
    (hun : fs.fsType = .unmounted) (h : mountVolume io fs = (.ok, fs')) :
    content fs'.disk = content fs.disk ∧ fs'.Sound ∧
      (fs'.Layout size → Ready io content size fs') := by
  obtain ⟨hvol, hload, hcontent⟩ := mountVolume_ok hlaw hun h
  have hsound := volumeOf_sound hvol
  refine ⟨hcontent, hsound, fun hlayout => ⟨hlaw, hrel, hsound, ⟨?_, fun _ => hload.win, ?_⟩⟩⟩
  · have hfats := hlayout.fats
    have hdata := hlayout.data
    omega
  · exact fun hd => absurd (hload.wflag.symm.trans hd) Bool.false_ne_true

/-- A disk with a volume that is not yet mounted. -/
def unmountedVolume : FatFs (ℕ → Sector) :=
  freshVolume { smallVolume with fsType := .unmounted } fun _ => smallBpb

theorem mountVolume_ready_small :
    Ready memoryDisk id 128 (mountVolume memoryDisk unmountedVolume).2 := by
  have hok : mountVolume memoryDisk unmountedVolume =
      (.ok, (mountVolume memoryDisk unmountedVolume).2) :=
    Prod.ext (by decide : (mountVolume memoryDisk unmountedVolume).1 = .ok) rfl
  obtain ⟨-, -, hready⟩ := mountVolume_ready (memoryDisk_lawful (by decide : 128 < 2 ^ 32))
    (memoryDisk_reliable 128) rfl hok
  have hvol : (mountVolume memoryDisk unmountedVolume).2.toVolume = bpbVolume smallBpb 0 := by
    decide
  apply hready
  rw [hvol]
  exact ⟨by decide, by decide, by decide⟩

/-- A cluster ends where the clusters of the volume end, or before. -/
theorem cluster_end_le {v : Volume} {c : ℕ} (hge : 2 ≤ c) (hlt : c < v.nFatent) :
    v.database + v.csize * (c - 2) + v.csize ≤ v.database + v.csize * (v.nFatent - 2) := by
  rw [Nat.add_assoc, ← Nat.mul_succ]
  exact Nat.add_le_add_left (Nat.mul_le_mul_left _ (by omega)) _

/-- The first sector of a cluster, on a volume that ends below 2^32. -/
theorem clst2sect_eq {v : Volume} {c : ℕ} (hdata : v.database + v.csize * (v.nFatent - 2) < 2 ^ 32)
    (hcsize : 0 < v.csize) (hge : 2 ≤ c) (hlt : c < v.nFatent) :
    clst2sect v c = v.database + v.csize * (c - 2) := by
  have hend := cluster_end_le hge hlt
  have hsmall : v.nFatent - 2 ≤ v.csize * (v.nFatent - 2) := Nat.le_mul_of_pos_left _ hcsize
  have hsub : sub32 c 2 = c - 2 := by
    unfold sub32
    omega
  rw [clst2sect, hsub, if_neg (by omega), wrap32, Nat.mod_eq_of_lt (by omega)]

/-- **Clusters are areas of their own.** The sectors of a cluster of a volume are behind the FATs
and in the volume, and no two clusters share a sector; other numbers have no sector. -/
theorem clst2sect_spec {v : Volume} {last : ℕ} (hlayout : v.Layout last) (hlast : last < 2 ^ 32)
    (hcsize : 0 < v.csize) (c : ℕ) (hc : c < 2 ^ 32) :
    (clst2sect v c ≠ 0 ↔ 2 ≤ c ∧ c < v.nFatent) ∧
      (2 ≤ c → c < v.nFatent →
        v.fatbase + v.nFats * v.fsize + v.nRootdir / 16 ≤ clst2sect v c ∧
        clst2sect v c + v.csize ≤ last ∧
        ∀ d, 2 ≤ d → d < c → clst2sect v d + v.csize ≤ clst2sect v c) := by
  have hreserved := hlayout.reserved
  have hfats := hlayout.fats
  have hdata := hlayout.data
  have hplace : ∀ d, 2 ≤ d → d < v.nFatent → clst2sect v d = v.database + v.csize * (d - 2) ∧
      v.database + v.csize * (d - 2) + v.csize ≤ last := fun d hd hd' =>
    ⟨clst2sect_eq (by omega) hcsize hd hd', (cluster_end_le hd hd').trans hdata⟩
  constructor
  · constructor
    · intro hne
      by_contra hout
      have hsmall : v.nFatent - 2 ≤ v.csize * (v.nFatent - 2) := Nat.le_mul_of_pos_left _ hcsize
      apply hne
      rw [clst2sect, if_pos]
      unfold sub32
      omega
    · rintro ⟨hge, hlt⟩
      rw [(hplace c hge hlt).1]
      omega
  · intro hge hlt
    obtain ⟨hat, hin⟩ := hplace c hge hlt
    refine ⟨by omega, by omega, fun d hd hdc => ?_⟩
    rw [hat, (hplace d hd (hdc.trans hlt)).1, Nat.add_assoc, ← Nat.mul_succ]
    exact Nat.add_le_add_left (Nat.mul_le_mul_left _ (by omega)) _

theorem clst2sect_smallVolume : clst2sect smallVolume 2 + smallVolume.csize ≤
    clst2sect smallVolume 3 := by
  have hlayout : smallVolume.Layout 5 := ⟨by decide, by decide, by decide⟩
  exact ((clst2sect_spec hlayout (by decide) (by decide) 3 (by decide)).2 (by decide)
    (by decide)).2.2 2 (by decide) (by decide)

end Mounted

end OpenIDP.Fat
