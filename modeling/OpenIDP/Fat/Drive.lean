import OpenIDP.Drivers.AtaSectors
import OpenIDP.Fat.Window

/-!
# The file system on the drive

`disk_read` and `disk_write` of `src/drivers/fatfs/diskio.c` are the disk that the file system sees.
With a drive that decodes its registers this is a disk as the file system expects one, as far as the
drive has sectors.

## Main definitions

* `driveDisk` — one sector through `disk_read` and `disk_write`
* `driveContent` — the bytes of a sector of the drive

## Main results

* `driveDisk_lawful`, `driveDisk_reliable` — the promises of a disk that does not fail
-/

namespace OpenIDP.Fat

open OpenIDP.Drivers

/-- The memory with a sector in a buffer at address zero. -/
def bufferOf (w : Sector) (addr : BitVec 64) : BitVec 8 :=
  if h : addr.toNat < 512 then w ⟨addr.toNat, h⟩ else 0

/-- The sector in a buffer at address zero. -/
def sectorOf (mem : BitVec 64 → BitVec 8) : Sector := fun k => mem (BitVec.ofNat 64 k)

/-- One sector through `disk_read` and `disk_write`. -/
def driveDisk : DiskIo Drive where
  read d s :=
    match diskRead drive 1 0 (BitVec.ofNat 32 s) 1 ⟨fun _ => 0, d⟩ with
    | some (res, m) => (res = .ok, sectorOf m.mem, m.io)
    | none => (false, fun _ => 0, d)
  write d s w :=
    match diskWrite drive 1 0 (BitVec.ofNat 32 s) 1 ⟨bufferOf w, d⟩ with
    | some (res, m) => (res = .ok, m.io)
    | none => (false, d)

/-- Byte `k` of the words of a sector. -/
def byteOfWords (words : BitVec 8 → BitVec 16) (k : Fin 512) : BitVec 8 :=
  (words (BitVec.ofNat 8 (k / 2))).extractLsb' (8 * (k % 2)) 8

/-- The bytes of a sector of the drive. -/
def driveContent (d : Drive) (s : ℕ) : Sector := byteOfWords (d.sectors (BitVec.ofNat 28 s))

theorem extractLsb'_loadWord (mem : BitVec 64 → BitVec 8) (addr : BitVec 64) :
    (loadWord mem addr).extractLsb' 0 8 = mem addr ∧
      (loadWord mem addr).extractLsb' 8 8 = mem (addr + 1) := by
  constructor
  · ext i hi
    rw [BitVec.getElem_extractLsb', loadWord, BitVec.getLsbD_append, Nat.zero_add, if_pos hi,
      BitVec.getLsbD_eq_getElem hi]
  · ext i hi
    rw [BitVec.getElem_extractLsb', loadWord, BitVec.getLsbD_append, if_neg (by omega),
      Nat.add_sub_cancel_left, BitVec.getLsbD_eq_getElem hi]

/-- The bytes of a buffer are those of its words. -/
theorem byteOfWords_loadWord (mem : BitVec 64 → BitVec 8) :
    byteOfWords (fun k => loadWord mem (wordAddr 0 k.toNat)) = sectorOf mem := by
  funext k
  obtain ⟨hlow, hhigh⟩ := extractLsb'_loadWord mem (BitVec.ofNat 64 (2 * (k / 2)))
  have hk := k.isLt
  have hword : (BitVec.ofNat 8 (k / 2)).toNat = (k : ℕ) / 2 := by
    rw [BitVec.toNat_ofNat]
    exact Nat.mod_eq_of_lt (by omega)
  have haddr : wordAddr 0 ((k : ℕ) / 2) = BitVec.ofNat 64 (2 * ((k : ℕ) / 2)) :=
    BitVec.zero_add _
  rw [byteOfWords, sectorOf, hword, haddr]
  rcases Nat.mod_two_eq_zero_or_one k with hmod | hmod
  · rw [hmod]
    refine hlow.trans (congrArg (fun n => mem (BitVec.ofNat 64 n)) ?_)
    omega
  · rw [hmod]
    refine hhigh.trans (congrArg mem ?_)
    have hsum : (k : ℕ) = 2 * (k / 2) + 1 := by omega
    conv_rhs => rw [hsum, BitVec.ofNat_add]
    rfl

theorem sectorOf_bufferOf (w : Sector) : sectorOf (bufferOf w) = w := by
  funext k
  have hk : (BitVec.ofNat 64 k).toNat = k := by
    rw [BitVec.toNat_ofNat]
    exact Nat.mod_eq_of_lt (by omega)
  have hlt : (BitVec.ofNat 64 k).toNat < 512 := by
    rw [hk]
    exact k.isLt
  rw [sectorOf, bufferOf, dif_pos hlt]
  exact congrArg w (Fin.ext hk)

theorem setWidth_ofNat (s : ℕ) : (BitVec.ofNat 32 s).setWidth 28 = BitVec.ofNat 28 s := by
  apply BitVec.eq_of_toNat_eq
  rw [BitVec.toNat_setWidth, BitVec.toNat_ofNat, BitVec.toNat_ofNat]
  omega

/-- Reading a sector does not fail, gives its bytes, and leaves the drive. -/
theorem driveDisk_read (d : Drive) (s : ℕ) :
    (driveDisk.read d s).1 = true ∧ (driveDisk.read d s).2.1 = driveContent d s ∧
      (driveDisk.read d s).2.2.sectors = d.sectors := by
  obtain ⟨m, hone, hsectors, -⟩ := ataReadSector_drive 0 (BitVec.ofNat 32 s + BitVec.ofNat 32 0)
    (sectorAddr 0 0) ⟨fun _ => 0, d⟩
  obtain ⟨m', hrun, hwords⟩ := diskRead_drive
    (by decide : (1 : BitVec 32).toNat ≤ 2 ^ 23) 0 0 (BitVec.ofNat 32 s) ⟨fun _ => 0, d⟩
  have hrun' : diskRead drive 1 0 (BitVec.ofNat 32 s) 1 ⟨fun _ => 0, d⟩ = some (.ok, m) := by
    have hloop : forSectors (ataReadSector drive 1) 0 (BitVec.ofNat 32 s) 0 1 ⟨fun _ => 0, d⟩ =
        some m := by
      rw [forSectors, hone]
      rfl
    exact congrArg (Option.map fun m₁ => (DResult.ok, m₁)) hloop
  obtain rfl : m' = m := (Prod.mk.inj (Option.some.inj (hrun.symm.trans hrun'))).2
  have hread : driveDisk.read d s = (decide (DResult.ok = .ok), sectorOf m'.mem, m'.io) := by
    simp only [driveDisk, hrun']
  rw [hread]
  refine ⟨rfl, ?_, hsectors⟩
  have hsector : driveSector (BitVec.ofNat 32 s) 0 = BitVec.ofNat 28 s := by
    rw [driveSector, BitVec.add_zero, setWidth_ofNat]
  dsimp only
  rw [← byteOfWords_loadWord, driveContent]
  congr 1
  funext k
  have hk : k.toNat < 256 := k.isLt
  rw [hwords k.toNat hk, Nat.div_eq_of_lt hk, hsector, BitVec.ofNat_toNat,
    BitVec.setWidth_eq]

/-- Writing a sector does not fail and changes that sector only. -/
theorem driveDisk_write (d : Drive) {s : ℕ} (hs : s < 2 ^ 28) (w : Sector) :
    (driveDisk.write d s w).1 = true ∧ driveContent (driveDisk.write d s w).2 s = w ∧
      ∀ s' < 2 ^ 28, s' ≠ s → driveContent (driveDisk.write d s w).2 s' = driveContent d s' := by
  have hnat : (BitVec.ofNat 32 s).toNat = s := by
    rw [BitVec.toNat_ofNat]
    exact Nat.mod_eq_of_lt (by omega)
  have hfit : (BitVec.ofNat 32 s).toNat + (1 : BitVec 32).toNat ≤ 2 ^ 28 := by
    rw [hnat]
    exact hs
  obtain ⟨m, hrun, -, hdata, hothers⟩ := diskWrite_drive hfit 0 0 ⟨bufferOf w, d⟩
  have hwrite : driveDisk.write d s w = (decide (DResult.ok = .ok), m.io) := by
    simp only [driveDisk, hrun]
  have hsector : driveSector (BitVec.ofNat 32 s) 0 = BitVec.ofNat 28 s := by
    rw [driveSector, BitVec.add_zero, setWidth_ofNat]
  rw [hwrite]
  refine ⟨rfl, ?_, fun s' hs' hne => ?_⟩
  · have hwords := hdata 0 (by decide)
    rw [hsector] at hwords
    have hzero : sectorAddr 0 0 = 0 := rfl
    dsimp only
    rw [driveContent, hwords, hzero, byteOfWords_loadWord, sectorOf_bufferOf]
  · dsimp only
    rw [driveContent, hothers, driveContent]
    intro i hi
    have hone : i = 0 := Nat.lt_one_iff.mp hi
    rw [hone, hnat, BitVec.toNat_ofNat, Nat.mod_eq_of_lt hs']
    exact hne

/-- The driver keeps what the file system is promised of a disk. -/
theorem driveDisk_lawful : driveDisk.Lawful driveContent (2 ^ 28) where
  size_lt := by decide
  content_read d s := by
    funext s'
    rw [driveContent, (driveDisk_read d s).2.2, driveContent]
  read_eq d s _ _ := (driveDisk_read d s).2.1
  write_self d s w hs _ := (driveDisk_write d hs w).2.1
  write_ne d s w s' hs hs' hne := (driveDisk_write d hs w).2.2 s' hs' hne

theorem driveDisk_reliable : driveDisk.Reliable (2 ^ 28) := fun d s hs =>
  ⟨(driveDisk_read d s).1, fun w => (driveDisk_write d hs w).1⟩

end OpenIDP.Fat
