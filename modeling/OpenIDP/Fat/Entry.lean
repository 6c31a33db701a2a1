import OpenIDP.Fat.Window
import Mathlib.Logic.Function.Basic
import Mathlib.Tactic.IntervalCases

/-!
# The entries of the FAT

`get_fat` and `put_fat` of `src/drivers/fatfs/ff.c` read and change the entry of a cluster. An entry
has 12, 16 or 32 bits; those of 12 bits share bytes, and may be in two sectors.

## Main definitions

* `ldWord`, `ldDword`, `stWord`, `stDword` — the words of the FAT
* `getFat`, `putFat` — the functions of `ff.c`
* `Volume.Sound` — what `mount_volume` checks: the entries are in the FAT
* `FatFs.entry` — the entry that is seen
* `Writes` — from a state to one where the FAT has some bytes

## Main results

* `getFat_spec` — `get_fat` returns the entry that is seen
* `putFat_spec` — `put_fat` changes one entry, and nothing else that is seen
-/

namespace OpenIDP.Fat

/-- `ld_word` -/
def ldWord (p : Sector) (o : ℕ) : BitVec 16 := p (Fin.ofNat 512 (o + 1)) ++ p (Fin.ofNat 512 o)

/-- `ld_dword` -/
def ldDword (p : Sector) (o : ℕ) : BitVec 32 :=
  p (Fin.ofNat 512 (o + 3)) ++ p (Fin.ofNat 512 (o + 2)) ++ p (Fin.ofNat 512 (o + 1)) ++
    p (Fin.ofNat 512 o)

/-- `st_word` -/
def stWord (p : Sector) (o : ℕ) (val : BitVec 16) : Sector :=
  Function.update (Function.update p (Fin.ofNat 512 o) (val.setWidth 8)) (Fin.ofNat 512 (o + 1))
    ((val >>> 8).setWidth 8)

/-- `st_dword` -/
def stDword (p : Sector) (o : ℕ) (val : BitVec 32) : Sector :=
  Function.update
    (Function.update
      (Function.update (Function.update p (Fin.ofNat 512 o) (val.setWidth 8))
        (Fin.ofNat 512 (o + 1)) ((val >>> 8).setWidth 8))
      (Fin.ofNat 512 (o + 2)) ((val >>> 16).setWidth 8))
    (Fin.ofNat 512 (o + 3)) ((val >>> 24).setWidth 8)

section Code

variable {σ : Type} (io : DiskIo σ)

/-- `get_fat` -/
def getFat (clst : ℕ) (fs : FatFs σ) : ℕ × FatFs σ :=
  if clst < 2 ∨ fs.nFatent ≤ clst then (1, fs)
  else
    match fs.fsType with
    | .fat12 =>
      let bc := wrap32 (clst + clst / 2)
      match moveWindow io (wrap32 (fs.fatbase + bc / 512)) fs with
      | (.ok, fs₁) =>
        let wc := fs₁.win (Fin.ofNat 512 bc)
        match moveWindow io (wrap32 (fs₁.fatbase + (bc + 1) / 512)) fs₁ with
        | (.ok, fs₂) =>
          let wc₂ : BitVec 16 := fs₂.win (Fin.ofNat 512 (bc + 1)) ++ wc
          (if clst % 2 = 1 then (wc₂ >>> 4).toNat else (wc₂ &&& 0xFFF#16).toNat, fs₂)
        | (_, fs₂) => (0xFFFFFFFF, fs₂)
      | (_, fs₁) => (0xFFFFFFFF, fs₁)
    | .fat16 =>
      match moveWindow io (wrap32 (fs.fatbase + clst / 256)) fs with
      | (.ok, fs₁) => ((ldWord fs₁.win (clst * 2 % 512)).toNat, fs₁)
      | (_, fs₁) => (0xFFFFFFFF, fs₁)
    | .fat32 =>
      match moveWindow io (wrap32 (fs.fatbase + clst / 128)) fs with
      | (.ok, fs₁) => ((ldDword fs₁.win (clst * 4 % 512) &&& 0x0FFFFFFF#32).toNat, fs₁)
      | (_, fs₁) => (0xFFFFFFFF, fs₁)
    | .unmounted => (1, fs)

/-- The first byte that `put_fat` writes for an entry of 12 bits, in place of `p`. -/
def firstByte (clst : ℕ) (p : BitVec 8) (val : BitVec 32) : BitVec 8 :=
  if clst % 2 = 1 then (p &&& 0x0F#8) ||| (val.setWidth 8 <<< 4) else val.setWidth 8

/-- The second byte that `put_fat` writes for an entry of 12 bits, in place of `p`. -/
def secondByte (clst : ℕ) (p : BitVec 8) (val : BitVec 32) : BitVec 8 :=
  if clst % 2 = 1 then (val >>> 4).setWidth 8
  else (p &&& 0xF0#8) ||| ((val >>> 8).setWidth 8 &&& 0x0F#8)

/-- `put_fat` -/
def putFat (clst : ℕ) (val : BitVec 32) (fs : FatFs σ) : FResult × FatFs σ :=
  if 2 ≤ clst ∧ clst < fs.nFatent then
    match fs.fsType with
    | .fat12 =>
      let bc := wrap32 (clst + clst / 2)
      match moveWindow io (wrap32 (fs.fatbase + bc / 512)) fs with
      | (.ok, fs₁) =>
        let p := Fin.ofNat 512 bc
        let fs₂ := { fs₁ with
          win := Function.update fs₁.win p (firstByte clst (fs₁.win p) val)
          wflag := true }
        match moveWindow io (wrap32 (fs₂.fatbase + (bc + 1) / 512)) fs₂ with
        | (.ok, fs₃) =>
          let p₂ := Fin.ofNat 512 (bc + 1)
          (.ok, { fs₃ with
            win := Function.update fs₃.win p₂ (secondByte clst (fs₃.win p₂) val)
            wflag := true })
        | failed => failed
      | failed => failed
    | .fat16 =>
      match moveWindow io (wrap32 (fs.fatbase + clst / 256)) fs with
      | (.ok, fs₁) =>
        (.ok, { fs₁ with win := stWord fs₁.win (clst * 2 % 512) (val.setWidth 16), wflag := true })
      | failed => failed
    | .fat32 =>
      match moveWindow io (wrap32 (fs.fatbase + clst / 128)) fs with
      | (.ok, fs₁) =>
        let val₁ := (val &&& 0x0FFFFFFF#32) |||
          (ldDword fs₁.win (clst * 4 % 512) &&& 0xF0000000#32)
        (.ok, { fs₁ with win := stDword fs₁.win (clst * 4 % 512) val₁, wflag := true })
      | failed => failed
    | .unmounted => (.intErr, fs)
  else (.intErr, fs)

end Code

/-- The numbers of entries that a FAT of a type has at most: `MAX_FAT12`, `MAX_FAT16` and
`MAX_FAT32` clusters, and two more. -/
def FsType.maxEntries : FsType → ℕ
  | .fat12 => 0xFF5 + 2
  | .fat16 => 0xFFF5 + 2
  | .fat32 => 0x0FFFFFF5 + 2
  | .unmounted => 0

/-- `szbfat`: the size that a FAT needs. -/
def FsType.fatBytes (n : ℕ) : FsType → ℕ
  | .fat12 => n * 3 / 2 + n % 2
  | .fat16 => n * 2
  | .fat32 => n * 4
  | .unmounted => 0

/-- What `mount_volume` checks. -/
structure Volume.Sound (v : Volume) : Prop where
  nFats : v.nFats = 1 ∨ v.nFats = 2
  two_lt : 2 < v.nFatent
  nFatent_le : v.nFatent ≤ v.fsType.maxEntries
  fatBytes_le : v.fsType.fatBytes v.nFatent ≤ 512 * v.fsize

/-- The entry of a cluster in a FAT with some bytes. -/
def entryOf (byte : ℕ → BitVec 8) (c : ℕ) : FsType → ℕ
  | .fat12 =>
    let w : BitVec 16 := byte (c + c / 2 + 1) ++ byte (c + c / 2)
    if c % 2 = 1 then (w >>> 4).toNat else (w &&& 0xFFF#16).toNat
  | .fat16 => (byte (c * 2 + 1) ++ byte (c * 2)).toNat
  | .fat32 =>
    ((byte (c * 4 + 3) ++ byte (c * 4 + 2) ++ byte (c * 4 + 1) ++ byte (c * 4)) &&&
      0x0FFFFFFF#32).toNat
  | .unmounted => 1

/-- The part of a value that an entry has. -/
def FsType.mask (val : BitVec 32) : FsType → ℕ
  | .fat12 => val.toNat % 2 ^ 12
  | .fat16 => val.toNat % 2 ^ 16
  | .fat32 => val.toNat % 2 ^ 28
  | .unmounted => 1

/-- The bytes of the FAT after `put_fat`. -/
def putBytes (byte : ℕ → BitVec 8) (c : ℕ) (val : BitVec 32) : FsType → ℕ → BitVec 8
  | .fat12 =>
    let bc := c + c / 2
    Function.update (Function.update byte bc (firstByte c (byte bc) val)) (bc + 1)
      (secondByte c (byte (bc + 1)) val)
  | .fat16 =>
    Function.update (Function.update byte (c * 2) (val.setWidth 8)) (c * 2 + 1)
      ((val >>> 8).setWidth 8)
  | .fat32 =>
    let old := byte (c * 4 + 3) ++ byte (c * 4 + 2) ++ byte (c * 4 + 1) ++ byte (c * 4)
    let new := (val &&& 0x0FFFFFFF#32) ||| (old &&& 0xF0000000#32)
    Function.update
      (Function.update
        (Function.update (Function.update byte (c * 4) (new.setWidth 8))
          (c * 4 + 1) ((new >>> 8).setWidth 8))
        (c * 4 + 2) ((new >>> 16).setWidth 8))
      (c * 4 + 3) ((new >>> 24).setWidth 8)
  | .unmounted => byte

section Bytes

variable {byte byte' : ℕ → BitVec 8} {c c' : ℕ} {val : BitVec 32}

theorem toNat_setWidth_and_mask (w : BitVec 32) :
    (w &&& 0x0FFFFFFF#32).toNat = w.toNat % 2 ^ 28 := by
  rw [BitVec.toNat_and]
  exact Nat.and_two_pow_sub_one_eq_mod w.toNat 28

/-- The four bytes of a word. -/
theorem append_bytes (w : BitVec 32) :
    ((w >>> 24).setWidth 8 ++ (w >>> 16).setWidth 8 ++ (w >>> 8).setWidth 8 ++ w.setWidth 8 :
      BitVec 32) = w := by
  ext i hi
  simp only [BitVec.getElem_append, BitVec.getElem_setWidth, BitVec.getLsbD_ushiftRight]
  split_ifs with h₁ h₂ h₃
  · exact BitVec.getLsbD_eq_getElem hi
  · rw [← BitVec.getLsbD_eq_getElem hi]
    congr 1
    omega
  · rw [← BitVec.getLsbD_eq_getElem hi]
    congr 1
    omega
  · rw [← BitVec.getLsbD_eq_getElem hi]
    congr 1
    omega

/-- The two bytes of a half word. -/
theorem append_bytes_setWidth (w : BitVec 32) :
    ((w >>> 8).setWidth 8 ++ w.setWidth 8 : BitVec 16) = w.setWidth 16 := by
  ext i hi
  simp only [BitVec.getElem_append, BitVec.getElem_setWidth, BitVec.getLsbD_ushiftRight]
  split_ifs with h₁
  · rfl
  · congr 1
    omega

/-- An entry of 12 bits at an odd place has the upper half of its first byte. -/
theorem oddEntry (p : BitVec 8) (val : BitVec 32) :
    (((val >>> 4).setWidth 8 ++ ((p &&& 0x0F#8) ||| (val.setWidth 8 <<< 4)) : BitVec 16) >>> 4) =
      (val.setWidth 12).setWidth 16 := by
  apply BitVec.eq_of_getLsbD_eq
  intro i hi
  simp only [BitVec.getLsbD_ushiftRight, BitVec.getLsbD_append, BitVec.getLsbD_or,
    BitVec.getLsbD_and, BitVec.getLsbD_setWidth, BitVec.getLsbD_shiftLeft]
  interval_cases i <;> simp

/-- An entry of 12 bits at an even place has the lower half of its second byte. -/
theorem evenEntry (p : BitVec 8) (val : BitVec 32) :
    ((((p &&& 0xF0#8) ||| ((val >>> 8).setWidth 8 &&& 0x0F#8)) ++ val.setWidth 8 : BitVec 16) &&&
      0xFFF#16) = (val.setWidth 12).setWidth 16 := by
  apply BitVec.eq_of_getLsbD_eq
  intro i hi
  simp only [BitVec.getLsbD_ushiftRight, BitVec.getLsbD_append, BitVec.getLsbD_or,
    BitVec.getLsbD_and, BitVec.getLsbD_setWidth]
  interval_cases i <;> simp

/-- What is written for an even place is not part of the entry behind. -/
theorem oddEntry_neighbour (x p q : BitVec 8) :
    ((x ++ ((p &&& 0xF0#8) ||| (q &&& 0x0F#8)) : BitVec 16) >>> 4) =
      (x ++ p : BitVec 16) >>> 4 := by
  apply BitVec.eq_of_getLsbD_eq
  intro i hi
  simp only [BitVec.getLsbD_ushiftRight, BitVec.getLsbD_append, BitVec.getLsbD_or,
    BitVec.getLsbD_and]
  interval_cases i <;> simp

/-- What is written for an odd place is not part of the entry before. -/
theorem evenEntry_neighbour (x p q : BitVec 8) :
    ((((p &&& 0x0F#8) ||| (q <<< 4)) ++ x : BitVec 16) &&& 0xFFF#16) =
      (p ++ x : BitVec 16) &&& 0xFFF#16 := by
  apply BitVec.eq_of_getLsbD_eq
  intro i hi
  simp only [BitVec.getLsbD_append, BitVec.getLsbD_or, BitVec.getLsbD_and,
    BitVec.getLsbD_shiftLeft]
  interval_cases i <;> simp

theorem toNat_setWidth_twelve (val : BitVec 32) :
    ((val.setWidth 12).setWidth 16).toNat = val.toNat % 2 ^ 12 := by
  rw [BitVec.toNat_setWidth, BitVec.toNat_setWidth]
  exact Nat.mod_eq_of_lt ((Nat.mod_lt _ (by decide)).trans (by decide))

/-- The upper four bits of an entry of 32 bits stay, and are not read. -/
theorem and_or_and (val old : BitVec 32) :
    ((val &&& 0x0FFFFFFF#32) ||| (old &&& 0xF0000000#32)) &&& 0x0FFFFFFF#32 =
      val &&& 0x0FFFFFFF#32 := by
  ext i hi
  interval_cases i <;> simp

/-- The entry has the value that was put. -/
theorem entryOf_putBytes_self (byte : ℕ → BitVec 8) (c : ℕ) (val : BitVec 32) (ty : FsType) :
    entryOf (putBytes byte c val ty) c ty = ty.mask val := by
  cases ty with
  | unmounted => rfl
  | fat16 =>
    have hne : c * 2 ≠ c * 2 + 1 := by omega
    simp only [entryOf, putBytes, Function.update_self, Function.update_of_ne hne]
    rw [append_bytes_setWidth, BitVec.toNat_setWidth]
    rfl
  | fat32 =>
    have h₀ : c * 4 ≠ c * 4 + 1 ∧ c * 4 ≠ c * 4 + 2 ∧ c * 4 ≠ c * 4 + 3 := by omega
    have h₁ : c * 4 + 1 ≠ c * 4 + 2 ∧ c * 4 + 1 ≠ c * 4 + 3 := by omega
    have h₂ : c * 4 + 2 ≠ c * 4 + 3 := by omega
    simp only [entryOf, putBytes, Function.update_self, Function.update_of_ne h₀.1,
      Function.update_of_ne h₀.2.1, Function.update_of_ne h₀.2.2, Function.update_of_ne h₁.1,
      Function.update_of_ne h₁.2, Function.update_of_ne h₂]
    rw [append_bytes, and_or_and, toNat_setWidth_and_mask]
    rfl
  | fat12 =>
    have hne : c + c / 2 ≠ c + c / 2 + 1 := by omega
    simp only [entryOf, putBytes, Function.update_self, Function.update_of_ne hne, firstByte,
      secondByte]
    split_ifs with hodd
    · rw [oddEntry, toNat_setWidth_twelve]
      rfl
    · rw [evenEntry, toNat_setWidth_twelve]
      rfl

/-- The first byte that is written is part of the entry before, but not the half of it that
changes. -/
theorem entryOf_firstByte_ne (h : c' ≠ c) :
    entryOf (Function.update byte (c + c / 2) (firstByte c (byte (c + c / 2)) val)) c' .fat12 =
      entryOf byte c' .fat12 := by
  by_cases hbefore : c' + 1 = c ∧ c % 2 = 1
  · obtain ⟨rfl, hodd⟩ := hbefore
    have heven : ¬c' % 2 = 1 := by omega
    have hfirst : c' + 1 + (c' + 1) / 2 = c' + c' / 2 + 1 := by omega
    have hne : c' + c' / 2 ≠ c' + c' / 2 + 1 := by omega
    simp only [entryOf, hfirst, Function.update_self, Function.update_of_ne hne, firstByte,
      if_pos hodd, if_neg heven, evenEntry_neighbour]
  · have hne : c' + c' / 2 ≠ c + c / 2 := by omega
    have hne' : c' + c' / 2 + 1 ≠ c + c / 2 := by omega
    simp only [entryOf, Function.update_of_ne hne, Function.update_of_ne hne']

/-- The second byte that is written is part of the entry behind, but not the half of it that
changes. -/
theorem entryOf_secondByte_ne (h : c' ≠ c) :
    entryOf (Function.update byte (c + c / 2 + 1) (secondByte c (byte (c + c / 2 + 1)) val)) c'
      .fat12 = entryOf byte c' .fat12 := by
  by_cases hbehind : c' = c + 1 ∧ c % 2 = 0
  · obtain ⟨rfl, heven⟩ := hbehind
    have hodd : (c + 1) % 2 = 1 := by omega
    have heven' : ¬c % 2 = 1 := by omega
    have hfirst : c + 1 + (c + 1) / 2 = c + c / 2 + 1 := by omega
    have hne : c + c / 2 + 1 + 1 ≠ c + c / 2 + 1 := by omega
    simp only [entryOf, hfirst, Function.update_self, Function.update_of_ne hne, secondByte,
      if_pos hodd, if_neg heven', oddEntry_neighbour]
  · have hne : c' + c' / 2 ≠ c + c / 2 + 1 := by omega
    have hne' : c' + c' / 2 + 1 ≠ c + c / 2 + 1 := by omega
    simp only [entryOf, Function.update_of_ne hne, Function.update_of_ne hne']

/-- The entries of other clusters stay. -/
theorem entryOf_putBytes_ne (h : c' ≠ c) (ty : FsType) :
    entryOf (putBytes byte c val ty) c' ty = entryOf byte c' ty := by
  cases ty with
  | unmounted => rfl
  | fat16 =>
    have hbyte : ∀ k < 2, putBytes byte c val .fat16 (c' * 2 + k) = byte (c' * 2 + k) := by
      intro k hk
      rw [putBytes, Function.update_of_ne (by omega), Function.update_of_ne (by omega)]
    rw [entryOf, entryOf, hbyte 1 (by decide), ← Nat.add_zero (c' * 2), hbyte 0 (by decide)]
  | fat32 =>
    have hbyte : ∀ k < 4, putBytes byte c val .fat32 (c' * 4 + k) = byte (c' * 4 + k) := by
      intro k hk
      rw [putBytes, Function.update_of_ne (by omega), Function.update_of_ne (by omega),
        Function.update_of_ne (by omega), Function.update_of_ne (by omega)]
    rw [entryOf, entryOf, hbyte 1 (by decide), hbyte 2 (by decide), hbyte 3 (by decide),
      ← Nat.add_zero (c' * 4), hbyte 0 (by decide)]
  | fat12 =>
    have hsecond : byte (c + c / 2 + 1) = Function.update byte (c + c / 2)
        (firstByte c (byte (c + c / 2)) val) (c + c / 2 + 1) :=
      (Function.update_of_ne (Nat.succ_ne_self _) _ _).symm
    rw [putBytes, hsecond, entryOf_secondByte_ne h, entryOf_firstByte_ne h]

end Bytes

namespace FatFs

variable {σ : Type} (content : σ → ℕ → Sector) (fs : FatFs σ)

/-- A byte of the first FAT, as it is seen. -/
def fatByte (b : ℕ) : BitVec 8 := fs.view content (fs.fatbase + b / 512) (Fin.ofNat 512 b)

/-- The entry of a cluster, as it is seen. -/
def entry (c : ℕ) : ℕ := entryOf (fs.fatByte content) c fs.fsType

end FatFs

/-- From a state to one where the FAT has some bytes. Nothing else that is seen changes, and on a
disk that does not fail the second FAT stays a copy. -/
structure Writes {σ : Type} (io : DiskIo σ) (content : σ → ℕ → Sector) (size : ℕ)
    (fs fs' : FatFs σ) (byte : ℕ → BitVec 8) : Prop where
  frame : FatFs.Frame fs fs'
  coherent : fs'.Coherent content size
  outside : ∀ s < size, ¬fs.Second s → ¬(fs.fatbase ≤ s ∧ s < fs.fatbase + fs.fsize) →
    fs'.view content s = fs.view content s
  fatByte : ∀ b < 512 * fs.fsize, fs'.fatByte content b = byte b
  mirrored : io.Reliable size → fs.Mirrored content → fs'.Mirrored content

section Spec

variable {σ : Type} {io : DiskIo σ} {content : σ → ℕ → Sector} {size : ℕ}
  {fs fs₁ fs₂ : FatFs σ} {byte byte₁ byte₂ : ℕ → BitVec 8} {b c : ℕ} {v : BitVec 8}

namespace Writes

theorem refl (h : fs.Coherent content size) :
    Writes io content size fs fs (fs.fatByte content) :=
  ⟨.refl fs, h, fun _ _ _ _ => rfl, fun _ _ => rfl, fun _ hm => hm⟩

theorem trans (h : Writes io content size fs fs₁ byte₁)
    (h' : Writes io content size fs₁ fs₂ byte₂) : Writes io content size fs fs₂ byte₂ := by
  have hbase : fs₁.fatbase = fs.fatbase := congrArg Volume.fatbase h.frame.volume
  have hsz : fs₁.fsize = fs.fsize := congrArg Volume.fsize h.frame.volume
  refine ⟨h.frame.trans h'.frame, h'.coherent, fun s hs hsecond hout => ?_, fun b hb => ?_, ?_⟩
  · rw [h'.outside s hs (fun h₁ => hsecond ((h.frame.second s).mp h₁)) (by rwa [hbase, hsz])]
    exact h.outside s hs hsecond hout
  · exact h'.fatByte b (by rwa [hsz])
  · exact fun hrel hm => h'.mirrored hrel (h.mirrored hrel hm)

/-- The bytes only matter where the FAT is. -/
theorem congr (h : Writes io content size fs fs₁ byte₁)
    (heq : ∀ b < 512 * fs.fsize, byte₁ b = byte₂ b) : Writes io content size fs fs₁ byte₂ :=
  ⟨h.frame, h.coherent, h.outside, fun b hb => (h.fatByte b hb).trans (heq b hb), h.mirrored⟩

end Writes

/-- A byte of the FAT is in a sector of the disk that is not one of the second FAT. -/
theorem fatSector_lt (h : fs.Coherent content size) (hn : fs.nFats = 1 ∨ fs.nFats = 2)
    (hb : b < 512 * fs.fsize) :
    fs.fatbase + b / 512 < size ∧ ¬fs.Second (fs.fatbase + b / 512) := by
  have hfats := h.fats
  have hdiv : b / 512 < fs.fsize := by omega
  constructor
  · rcases hn with hn | hn
    · rw [hn] at hfats
      omega
    · rw [hn] at hfats
      omega
  · rintro ⟨-, hle, -⟩
    omega

/-- The window is moved to a byte of the FAT, and has all bytes of its sector. -/
theorem Writes.move (hlaw : io.Lawful content size) (hn : fs.nFats = 1 ∨ fs.nFats = 2)
    (h : Writes io content size fs fs₁ byte) (hb : b < 512 * fs.fsize) :
    Writes io content size fs (moveWindow io (wrap32 (fs₁.fatbase + b / 512)) fs₁).2 byte ∧
      ((moveWindow io (wrap32 (fs₁.fatbase + b / 512)) fs₁).1 = .ok →
        (moveWindow io (wrap32 (fs₁.fatbase + b / 512)) fs₁).2.winsect = fs.fatbase + b / 512 ∧
        ∀ b' < 512 * fs.fsize, b' / 512 = b / 512 →
          (moveWindow io (wrap32 (fs₁.fatbase + b / 512)) fs₁).2.win (Fin.ofNat 512 b') = byte b') ∧
      (io.Reliable size → (moveWindow io (wrap32 (fs₁.fatbase + b / 512)) fs₁).1 = .ok) := by
  have hbase : fs₁.fatbase = fs.fatbase := congrArg Volume.fatbase h.frame.volume
  have hn₁ : fs₁.nFats = 1 ∨ fs₁.nFats = 2 := by rwa [h.frame.volume]
  have hsz : fs₁.fsize = fs.fsize := congrArg Volume.fsize h.frame.volume
  have hplace : ∀ b' < 512 * fs.fsize, fs₁.fatbase + b' / 512 < size ∧
      ¬fs₁.Second (fs₁.fatbase + b' / 512) :=
    fun b' hb' => fatSector_lt h.coherent hn₁ (hsz ▸ hb')
  obtain ⟨hsect, hsecond⟩ := hplace b hb
  have hwrap : wrap32 (fs₁.fatbase + b / 512) = fs₁.fatbase + b / 512 :=
    Nat.mod_eq_of_lt (hsect.trans hlaw.size_lt)
  obtain ⟨hframe, hview, hcoh, hat⟩ := moveWindow_spec hlaw h.coherent hsect
  have hbase' : (moveWindow io (fs₁.fatbase + b / 512) fs₁).2.fatbase = fs₁.fatbase :=
    congrArg Volume.fatbase hframe.volume
  rw [hwrap]
  refine ⟨h.trans ⟨hframe, hcoh, fun s hs hnot _ => hview s hs hnot, fun b' hb' => ?_, ?_⟩, ?_, ?_⟩
  · rw [hsz] at hb'
    obtain ⟨hsect', hsecond'⟩ := hplace b' hb'
    rw [FatFs.fatByte, hbase', hview _ hsect' hsecond']
    exact h.fatByte b' hb'
  · exact fun hrel hm => moveWindow_mirrored hlaw hrel h.coherent hsect hm
  · intro hok
    have hwinsect := hat hok
    refine ⟨hwinsect.trans (congrArg (· + b / 512) hbase), fun b' hb' hdiv => ?_⟩
    rw [hcoh.win_eq (hwinsect.trans_lt hsect), hwinsect, hview _ hsect hsecond, ← hdiv]
    exact h.fatByte b' hb'
  · exact fun hrel => moveWindow_ok hrel h.coherent hsect

/-- A byte of the FAT is changed in the window. -/
theorem Writes.store (hn : fs.nFats = 1 ∨ fs.nFats = 2) (h : Writes io content size fs fs₁ byte)
    (hb : b < 512 * fs.fsize) (hat : fs₁.winsect = fs.fatbase + b / 512) :
    Writes io content size fs
      { fs₁ with win := Function.update fs₁.win (Fin.ofNat 512 b) v, wflag := true }
      (Function.update byte b v) := by
  have hbase : fs₁.fatbase = fs.fatbase := congrArg Volume.fatbase h.frame.volume
  have hsz : fs₁.fsize = fs.fsize := congrArg Volume.fsize h.frame.volume
  have hn₁ : fs₁.nFats = 1 ∨ fs₁.nFats = 2 := by rwa [h.frame.volume]
  obtain ⟨hsect, hsecond⟩ := fatSector_lt h.coherent hn₁ (hsz ▸ hb)
  rw [← hbase] at hat
  refine h.trans ⟨⟨rfl, rfl, rfl, rfl⟩, ⟨h.coherent.fats, ?_, ?_⟩, fun s hs hnot hout => ?_,
    fun b' hb' => ?_, ?_⟩
  · exact fun hclean => absurd hclean.symm Bool.false_ne_true
  · intro _
    exact ⟨hat.trans_lt hsect, hat ▸ hsecond⟩
  · have hne : s ≠ fs₁.winsect := by
      rw [hat]
      rintro rfl
      exact hout ⟨Nat.le_add_right _ _, by omega⟩
    rw [FatFs.view, if_neg fun hd => hne hd.2, FatFs.view, if_neg fun hd => hne hd.2]
  · rw [hsz] at hb'
    by_cases hsame : b' / 512 = b / 512
    · -- the byte is in the window
      have hin : fs₁.fatbase + b' / 512 = fs₁.winsect := by rw [hsame, hat]
      rw [FatFs.fatByte, FatFs.view, if_pos ⟨rfl, hin⟩]
      by_cases hbb : b' = b
      · rw [hbb, Function.update_self]
        exact Function.update_self _ _ _
      · have hfin : Fin.ofNat 512 b' ≠ Fin.ofNat 512 b := by
          intro heq
          have hmod : b' % 512 = b % 512 := congrArg Fin.val heq
          omega
        rw [Function.update_of_ne hbb, ← h.fatByte b' hb', FatFs.fatByte, hin,
          ← h.coherent.win_eq (hat.trans_lt hsect)]
        exact Function.update_of_ne hfin _ _
    · have hne : fs₁.fatbase + b' / 512 ≠ fs₁.winsect := by omega
      have hbb : b' ≠ b := fun heq => hsame (heq ▸ rfl)
      rw [Function.update_of_ne hbb, ← h.fatByte b' hb', FatFs.fatByte, FatFs.view,
        if_neg fun hd => hne hd.2, FatFs.fatByte, FatFs.view, if_neg fun hd => hne hd.2]
  · intro _ hm htwo k hk hdirty
    exact hm htwo k hk fun _ => hdirty rfl

/-- The bytes of an entry are in the FAT. -/
theorem Volume.Sound.byte_lt {v : Volume} (h : v.Sound) (hc : c < v.nFatent) :
    match v.fsType with
    | .fat12 => c + c / 2 + 1 < 512 * v.fsize
    | .fat16 => c * 2 + 1 < 512 * v.fsize
    | .fat32 => c * 4 + 3 < 512 * v.fsize
    | .unmounted => False := by
  have hbytes := h.fatBytes_le
  have hmax := h.nFatent_le
  cases hty : v.fsType <;> rw [hty] at hbytes hmax <;>
    simp only [FsType.fatBytes, FsType.maxEntries] at hbytes hmax ⊢ <;> omega

theorem ofNat_mod_add (n k : ℕ) : Fin.ofNat 512 (n % 512 + k) = Fin.ofNat 512 (n + k) :=
  Fin.ext (Nat.mod_add_mod n 512 k)

theorem ofNat_mod (n : ℕ) : Fin.ofNat 512 (n % 512) = Fin.ofNat 512 n :=
  Fin.ext (Nat.mod_mod n 512)

theorem ldWord_mod (p : Sector) (o : ℕ) : ldWord p (o % 512) = ldWord p o := by
  rw [ldWord, ldWord, ofNat_mod_add, ofNat_mod]

theorem ldDword_mod (p : Sector) (o : ℕ) : ldDword p (o % 512) = ldDword p o := by
  rw [ldDword, ldDword, ofNat_mod_add, ofNat_mod_add, ofNat_mod_add, ofNat_mod]

theorem stWord_mod (p : Sector) (o : ℕ) (w : BitVec 16) : stWord p (o % 512) w = stWord p o w := by
  rw [stWord, stWord, ofNat_mod_add, ofNat_mod]

theorem stDword_mod (p : Sector) (o : ℕ) (w : BitVec 32) :
    stDword p (o % 512) w = stDword p o w := by
  rw [stDword, stDword, ofNat_mod_add, ofNat_mod_add, ofNat_mod_add, ofNat_mod]

/-- An entry of 16 bits is changed in the window. -/
theorem Writes.stWord (hn : fs.nFats = 1 ∨ fs.nFats = 2) (h : Writes io content size fs fs₁ byte)
    (hb : c * 2 + 1 < 512 * fs.fsize) (hat : fs₁.winsect = fs.fatbase + c * 2 / 512)
    (w : BitVec 16) :
    Writes io content size fs { fs₁ with win := stWord fs₁.win (c * 2) w, wflag := true }
      (Function.update (Function.update byte (c * 2) (w.setWidth 8)) (c * 2 + 1)
        ((w >>> 8).setWidth 8)) := by
  have hfirst := Writes.store (v := w.setWidth 8) hn h (by omega) hat
  exact Writes.store hn hfirst hb (hat.trans (by omega))

/-- An entry of 32 bits is changed in the window. -/
theorem Writes.stDword (hn : fs.nFats = 1 ∨ fs.nFats = 2) (h : Writes io content size fs fs₁ byte)
    (hb : c * 4 + 3 < 512 * fs.fsize) (hat : fs₁.winsect = fs.fatbase + c * 4 / 512)
    (w : BitVec 32) :
    Writes io content size fs { fs₁ with win := stDword fs₁.win (c * 4) w, wflag := true }
      (Function.update
        (Function.update
          (Function.update (Function.update byte (c * 4) (w.setWidth 8))
            (c * 4 + 1) ((w >>> 8).setWidth 8))
          (c * 4 + 2) ((w >>> 16).setWidth 8))
        (c * 4 + 3) ((w >>> 24).setWidth 8)) := by
  have hat₁ : fs₁.winsect = fs.fatbase + (c * 4 + 1) / 512 := hat.trans (by omega)
  have hat₂ : fs₁.winsect = fs.fatbase + (c * 4 + 2) / 512 := hat.trans (by omega)
  have hat₃ : fs₁.winsect = fs.fatbase + (c * 4 + 3) / 512 := hat.trans (by omega)
  have h₀ := Writes.store (v := w.setWidth 8) hn h (by omega) hat
  have h₁ := Writes.store (v := (w >>> 8).setWidth 8) hn h₀ (by omega) hat₁
  have h₂ := Writes.store (v := (w >>> 16).setWidth 8) hn h₁ (by omega) hat₂
  exact Writes.store hn h₂ hb hat₃

/-- What `get_fat` promises of an entry, on any disk. -/
theorem getFat_spec (hlaw : io.Lawful content size) (hsound : fs.Sound)
    (h : fs.Coherent content size) (hc : 2 ≤ c) (hc' : c < fs.nFatent) :
    Writes io content size fs (getFat io c fs).2 (fs.fatByte content) ∧
      ((getFat io c fs).1 = fs.entry content c ∨ (getFat io c fs).1 = 0xFFFFFFFF) ∧
      (io.Reliable size → (getFat io c fs).1 = fs.entry content c) := by
  have hn := hsound.nFats
  have hvalid : ¬(c < 2 ∨ fs.nFatent ≤ c) := by omega
  have hbyte := hsound.byte_lt hc'
  rw [getFat, if_neg hvalid, FatFs.entry]
  cases hty : fs.fsType with
  | unmounted =>
    rw [hty] at hbyte
    exact hbyte.elim
  | fat16 =>
    rw [hty] at hbyte
    obtain ⟨hw, hok, hrel⟩ := Writes.move hlaw hn (.refl h) ((Nat.lt_succ_self _).trans hbyte)
    have hdiv : c / 256 = c * 2 / 512 := by omega
    dsimp only
    rw [hdiv]
    generalize moveWindow io (wrap32 (fs.fatbase + c * 2 / 512)) fs = r at hw hok hrel
    obtain ⟨res, fs₁⟩ := r
    cases res with
    | diskErr => exact ⟨hw, Or.inr rfl, fun hr => absurd (hrel hr) FResult.diskErr_ne_ok⟩
    | intErr => exact ⟨hw, Or.inr rfl, fun hr => absurd (hrel hr) FResult.intErr_ne_ok⟩
    | ok =>
      have hwin := (hok rfl).2
      have hval : (ldWord fs₁.win (c * 2 % 512)).toNat =
          entryOf (fs.fatByte content) c .fat16 := by
        rw [ldWord_mod, ldWord, entryOf, hwin _ hbyte (by omega), hwin _ (by omega) rfl]
      exact ⟨hw, Or.inl hval, fun _ => hval⟩
  | fat32 =>
    rw [hty] at hbyte
    obtain ⟨hw, hok, hrel⟩ := Writes.move hlaw hn (.refl h) (b := c * 4) (by omega)
    have hdiv : c / 128 = c * 4 / 512 := by omega
    dsimp only
    rw [hdiv]
    generalize moveWindow io (wrap32 (fs.fatbase + c * 4 / 512)) fs = r at hw hok hrel
    obtain ⟨res, fs₁⟩ := r
    cases res with
    | diskErr => exact ⟨hw, Or.inr rfl, fun hr => absurd (hrel hr) FResult.diskErr_ne_ok⟩
    | intErr => exact ⟨hw, Or.inr rfl, fun hr => absurd (hrel hr) FResult.intErr_ne_ok⟩
    | ok =>
      have hwin := (hok rfl).2
      have hval : (ldDword fs₁.win (c * 4 % 512) &&& 0x0FFFFFFF#32).toNat =
          entryOf (fs.fatByte content) c .fat32 := by
        rw [ldDword_mod, ldDword, entryOf, hwin _ hbyte (by omega), hwin _ (by omega) (by omega),
          hwin _ (by omega) (by omega), hwin _ (by omega) rfl]
      exact ⟨hw, Or.inl hval, fun _ => hval⟩
  | fat12 =>
    rw [hty] at hbyte
    have hbc : wrap32 (c + c / 2) = c + c / 2 := by
      have hmax := hsound.nFatent_le
      rw [hty, FsType.maxEntries] at hmax
      exact Nat.mod_eq_of_lt (by omega)
    obtain ⟨hw, hok, hrel⟩ := Writes.move hlaw hn (.refl h) (b := c + c / 2) (by omega)
    dsimp only
    rw [hbc]
    generalize moveWindow io (wrap32 (fs.fatbase + (c + c / 2) / 512)) fs = r at hw hok hrel
    obtain ⟨res, fs₁⟩ := r
    cases res with
    | diskErr => exact ⟨hw, Or.inr rfl, fun hr => absurd (hrel hr) FResult.diskErr_ne_ok⟩
    | intErr => exact ⟨hw, Or.inr rfl, fun hr => absurd (hrel hr) FResult.intErr_ne_ok⟩
    | ok =>
      have hwin := (hok rfl).2 _ (by omega) rfl
      -- the second byte may be in the next sector
      obtain ⟨hw₂, hok₂, hrel₂⟩ := Writes.move hlaw hn hw hbyte
      dsimp only at hwin hw₂ hok₂ hrel₂ ⊢
      generalize moveWindow io (wrap32 (fs₁.fatbase + (c + c / 2 + 1) / 512)) fs₁ = r
        at hw₂ hok₂ hrel₂
      obtain ⟨res₂, fs₂⟩ := r
      cases res₂ with
      | diskErr => exact ⟨hw₂, Or.inr rfl, fun hr => absurd (hrel₂ hr) FResult.diskErr_ne_ok⟩
      | intErr => exact ⟨hw₂, Or.inr rfl, fun hr => absurd (hrel₂ hr) FResult.intErr_ne_ok⟩
      | ok =>
        have hwin₂ := (hok₂ rfl).2 _ hbyte rfl
        dsimp only at hwin₂ ⊢
        rw [hwin₂, hwin]
        exact ⟨hw₂, Or.inl rfl, fun _ => rfl⟩

/-- What `put_fat` promises of the bytes of the FAT, on any disk. When it fails, the entries of
other clusters are still there. -/
theorem putFat_writes (hlaw : io.Lawful content size) (hsound : fs.Sound)
    (h : fs.Coherent content size) (hc : 2 ≤ c) (hc' : c < fs.nFatent) (val : BitVec 32) :
    ∃ byte', Writes io content size fs (putFat io c val fs).2 byte' ∧
      (∀ c', c' ≠ c → entryOf byte' c' fs.fsType = fs.entry content c') ∧
      ((putFat io c val fs).1 = .ok → byte' = putBytes (fs.fatByte content) c val fs.fsType) ∧
      (io.Reliable size → (putFat io c val fs).1 = .ok) := by
  have hn := hsound.nFats
  have hbyte := hsound.byte_lt hc'
  rw [putFat, if_pos ⟨hc, hc'⟩]
  unfold FatFs.entry
  cases hty : fs.fsType with
  | unmounted =>
    rw [hty] at hbyte
    exact hbyte.elim
  | fat16 =>
    rw [hty] at hbyte
    obtain ⟨hw, hok, hrel⟩ := Writes.move hlaw hn (.refl h) ((Nat.lt_succ_self _).trans hbyte)
    have hdiv : c / 256 = c * 2 / 512 := by omega
    dsimp only
    rw [hdiv]
    generalize moveWindow io (wrap32 (fs.fatbase + c * 2 / 512)) fs = r at hw hok hrel
    obtain ⟨res, fs₁⟩ := r
    cases res with
    | diskErr =>
      exact ⟨_, hw, fun _ _ => rfl, fun hres => absurd hres FResult.diskErr_ne_ok, hrel⟩
    | intErr =>
      exact ⟨_, hw, fun _ _ => rfl, fun hres => absurd hres FResult.intErr_ne_ok, hrel⟩
    | ok =>
      have hat := (hok rfl).1
      have hlow : (val.setWidth 16).setWidth 8 = val.setWidth 8 :=
        BitVec.setWidth_setWidth_of_le val (by decide)
      have hhigh : ((val.setWidth 16) >>> 8).setWidth 8 = (val >>> 8).setWidth 8 := by
        ext i hi
        simp only [BitVec.getElem_setWidth, BitVec.getLsbD_ushiftRight, BitVec.getLsbD_setWidth]
        exact Bool.and_eq_right_iff_imp.mpr fun _ => decide_eq_true (by omega)
      have hstore := Writes.stWord hn hw hbyte hat (val.setWidth 16)
      rw [hlow, hhigh] at hstore
      refine ⟨putBytes (fs.fatByte content) c val .fat16, ?_, ?_, fun _ => rfl, fun _ => rfl⟩
      · dsimp only
        rw [stWord_mod]
        exact hstore
      · exact fun c' hne => entryOf_putBytes_ne hne .fat16
  | fat32 =>
    rw [hty] at hbyte
    obtain ⟨hw, hok, hrel⟩ := Writes.move hlaw hn (.refl h) (b := c * 4) (by omega)
    have hdiv : c / 128 = c * 4 / 512 := by omega
    dsimp only
    rw [hdiv]
    generalize moveWindow io (wrap32 (fs.fatbase + c * 4 / 512)) fs = r at hw hok hrel
    obtain ⟨res, fs₁⟩ := r
    cases res with
    | diskErr =>
      exact ⟨_, hw, fun _ _ => rfl, fun hres => absurd hres FResult.diskErr_ne_ok, hrel⟩
    | intErr =>
      exact ⟨_, hw, fun _ _ => rfl, fun hres => absurd hres FResult.intErr_ne_ok, hrel⟩
    | ok =>
      obtain ⟨hat, hwin⟩ := hok rfl
      dsimp only at hat hwin ⊢
      -- the upper four bits are those that were there
      have hold : ldDword fs₁.win (c * 4 % 512) =
          fs.fatByte content (c * 4 + 3) ++ fs.fatByte content (c * 4 + 2) ++
            fs.fatByte content (c * 4 + 1) ++ fs.fatByte content (c * 4) := by
        rw [ldDword_mod, ldDword, hwin _ hbyte (by omega), hwin _ (by omega) (by omega),
          hwin _ (by omega) (by omega), hwin _ (by omega) rfl]
      refine ⟨putBytes (fs.fatByte content) c val .fat32, ?_, ?_, fun _ => rfl, fun _ => rfl⟩
      · rw [hold, stDword_mod, putBytes]
        exact Writes.stDword hn hw hbyte hat _
      · exact fun c' hne => entryOf_putBytes_ne hne .fat32
  | fat12 =>
    rw [hty] at hbyte
    have hbc : wrap32 (c + c / 2) = c + c / 2 := by
      have hmax := hsound.nFatent_le
      rw [hty, FsType.maxEntries] at hmax
      exact Nat.mod_eq_of_lt (by omega)
    obtain ⟨hw, hok, hrel⟩ := Writes.move hlaw hn (.refl h) (b := c + c / 2) (by omega)
    dsimp only
    rw [hbc]
    generalize moveWindow io (wrap32 (fs.fatbase + (c + c / 2) / 512)) fs = r at hw hok hrel
    obtain ⟨res, fs₁⟩ := r
    cases res with
    | diskErr =>
      exact ⟨_, hw, fun _ _ => rfl, fun hres => absurd hres FResult.diskErr_ne_ok, hrel⟩
    | intErr =>
      exact ⟨_, hw, fun _ _ => rfl, fun hres => absurd hres FResult.intErr_ne_ok, hrel⟩
    | ok =>
      obtain ⟨hat, hwin⟩ := hok rfl
      have hwin₁ := hwin _ (by omega) rfl
      dsimp only at hat hwin₁ ⊢
      rw [hwin₁]
      have hfirst := Writes.store (v := firstByte c (fs.fatByte content (c + c / 2)) val) hn hw
        (by omega) hat
      obtain ⟨hw₂, hok₂, hrel₂⟩ := Writes.move hlaw hn hfirst hbyte
      have hother : ∀ c', c' ≠ c → entryOf (Function.update (fs.fatByte content) (c + c / 2)
          (firstByte c (fs.fatByte content (c + c / 2)) val)) c' .fat12 =
          entryOf (fs.fatByte content) c' .fat12 := fun c' hne => entryOf_firstByte_ne hne
      dsimp only at hw₂ hok₂ hrel₂ ⊢
      generalize moveWindow io (wrap32 (fs₁.fatbase + (c + c / 2 + 1) / 512)) _ = r
        at hw₂ hok₂ hrel₂
      obtain ⟨res₂, fs₂⟩ := r
      cases res₂ with
      | diskErr =>
        exact ⟨_, hw₂, hother, fun hres => absurd hres FResult.diskErr_ne_ok, hrel₂⟩
      | intErr =>
        exact ⟨_, hw₂, hother, fun hres => absurd hres FResult.intErr_ne_ok, hrel₂⟩
      | ok =>
        obtain ⟨hat₂, hwin₂⟩ := hok₂ rfl
        have hwin₂' := (hwin₂ _ hbyte rfl).trans (Function.update_of_ne (Nat.succ_ne_self _) _ _)
        dsimp only at hat₂ hwin₂' ⊢
        rw [hwin₂']
        have hsecond := Writes.store
          (v := secondByte c (fs.fatByte content (c + c / 2 + 1)) val) hn hw₂ hbyte hat₂
        refine ⟨putBytes (fs.fatByte content) c val .fat12, hsecond, ?_, fun _ => rfl, fun _ => rfl⟩
        exact fun c' hne => entryOf_putBytes_ne hne .fat12

/-- An entry depends on bytes that are in the FAT. -/
theorem entryOf_congr {v : Volume} (h : v.Sound) (hc : c < v.nFatent)
    (heq : ∀ b < 512 * v.fsize, byte₁ b = byte₂ b) :
    entryOf byte₁ c v.fsType = entryOf byte₂ c v.fsType := by
  have hbyte := h.byte_lt hc
  cases hty : v.fsType <;> rw [hty] at hbyte <;> dsimp only at hbyte <;> simp only [entryOf]
  · rw [heq _ hbyte, heq (c + c / 2) (by omega)]
  · rw [heq _ hbyte, heq (c * 2) (by omega)]
  · rw [heq _ hbyte, heq (c * 4 + 2) (by omega), heq (c * 4 + 1) (by omega),
      heq (c * 4) (by omega)]

theorem Writes.entry_eq (hsound : fs.Sound) (h : Writes io content size fs fs₁ byte)
    (hc : c < fs.nFatent) : fs₁.entry content c = entryOf byte c fs.fsType := by
  have hty : fs₁.fsType = fs.fsType := congrArg Volume.fsType h.frame.volume
  rw [FatFs.entry, hty]
  exact entryOf_congr hsound hc h.fatByte

/-- What `put_fat` promises of the entries, on any disk. -/
theorem putFat_spec (hlaw : io.Lawful content size) (hsound : fs.Sound)
    (h : fs.Coherent content size) (hc : 2 ≤ c) (hc' : c < fs.nFatent) (val : BitVec 32) :
    ∃ byte', Writes io content size fs (putFat io c val fs).2 byte' ∧
      (∀ c', c' ≠ c → c' < fs.nFatent →
        (putFat io c val fs).2.entry content c' = fs.entry content c') ∧
      ((putFat io c val fs).1 = .ok →
        (putFat io c val fs).2.entry content c = fs.fsType.mask val) ∧
      (io.Reliable size → (putFat io c val fs).1 = .ok) := by
  obtain ⟨byte', hw, hother, hok, hrel⟩ := putFat_writes hlaw hsound h hc hc' val
  refine ⟨byte', hw, fun c' hne hlt => ?_, fun hres => ?_, hrel⟩
  · rw [hw.entry_eq hsound hlt, hother c' hne]
  · rw [hw.entry_eq hsound hc', hok hres, entryOf_putBytes_self]

/-- What is put is got again, and nothing else that is seen has changed, wherever the window is and
whatever is not yet written. When the disk fails, the entries of other clusters are still there. -/
theorem getFat_putFat (hlaw : io.Lawful content size) (hsound : fs.Sound)
    (h : fs.Coherent content size) (hc : 2 ≤ c) (hc' : c < fs.nFatent) (val : BitVec 32) :
    (∀ c', c' ≠ c → c' < fs.nFatent →
      (putFat io c val fs).2.entry content c' = fs.entry content c') ∧
    (∀ s < size, ¬fs.Second s → ¬(fs.fatbase ≤ s ∧ s < fs.fatbase + fs.fsize) →
      (putFat io c val fs).2.view content s = fs.view content s) ∧
    ((putFat io c val fs).1 = .ok → ∀ c', 2 ≤ c' → c' < fs.nFatent →
      (getFat io c' (putFat io c val fs).2).1 =
          (if c' = c then fs.fsType.mask val else fs.entry content c') ∨
        (getFat io c' (putFat io c val fs).2).1 = 0xFFFFFFFF) ∧
    (io.Reliable size → (putFat io c val fs).1 = .ok ∧ ∀ c', 2 ≤ c' → c' < fs.nFatent →
      (getFat io c' (putFat io c val fs).2).1 =
        if c' = c then fs.fsType.mask val else (getFat io c' fs).1) := by
  obtain ⟨byte', hw, hother, hok, hrel⟩ := putFat_spec hlaw hsound h hc hc' val
  have hsound' : (putFat io c val fs).2.Sound := by
    rw [hw.frame.volume]
    exact hsound
  have hent : (putFat io c val fs).1 = .ok → ∀ c' < fs.nFatent,
      (putFat io c val fs).2.entry content c' =
        if c' = c then fs.fsType.mask val else fs.entry content c' := by
    intro hres c' hlt
    split_ifs with heq
    · rw [heq]
      exact hok hres
    · exact hother c' heq hlt
  have hget : ∀ c', 2 ≤ c' → c' < fs.nFatent → _ := fun c' hge hlt =>
    getFat_spec hlaw hsound' hw.coherent hge (hlt.trans_eq (congrArg Volume.nFatent
      hw.frame.volume).symm)
  refine ⟨hother, hw.outside, fun hres c' hge hlt => ?_, fun hr => ⟨hrel hr, fun c' hge hlt => ?_⟩⟩
  · rw [← hent hres c' hlt]
    exact (hget c' hge hlt).2.1
  · rw [(hget c' hge hlt).2.2 hr, hent (hrel hr) c' hlt,
      (getFat_spec hlaw hsound h hge hlt).2.2 hr]

/-- A file system object for a volume that was just mounted. -/
def freshVolume {σ : Type} (v : Volume) (disk : σ) : FatFs σ :=
  { v with
    disk := disk
    win := fun _ => 0
    winsect := 0xFFFFFFFF
    wflag := false
    lastClst := 0xFFFFFFFF
    freeClst := 0xFFFFFFFF
    fsiFlag := 0x80#8 }

/-- The smallest FAT with entries that share a byte. -/
def smallVolume : Volume :=
  { fsType := .fat12, nFats := 1, csize := 1, nRootdir := 16, nFatent := 4, fsize := 1,
    volbase := 0, fatbase := 1, dirbase := 2, database := 3 }

theorem smallVolume_sound : smallVolume.Sound :=
  ⟨Or.inl rfl, by decide, by decide, by decide⟩

theorem freshVolume_coherent {v : Volume} {disk : σ} (hsize : size < 2 ^ 32)
    (hfats : v.fatbase + v.nFats * v.fsize ≤ size) :
    (freshVolume v disk).Coherent content size := by
  refine ⟨hfats, fun _ hs => ?_, fun hd => absurd hd Bool.false_ne_true⟩
  have hs' : 0xFFFFFFFF < size := hs
  omega

theorem getFat_putFat_small :
    (getFat memoryDisk 3 (putFat memoryDisk 2 0xABC#32
        (freshVolume smallVolume fun _ _ => 0)).2).1 =
      (getFat memoryDisk 3 (freshVolume smallVolume fun _ _ => 0)).1 := by
  have hcoherent : (freshVolume smallVolume fun _ _ => 0).Coherent id 3 :=
    freshVolume_coherent (by decide) (by decide)
  have hkept := getFat_putFat (c := 2) (memoryDisk_lawful (by decide)) smallVolume_sound hcoherent
    (by decide) (by decide) 0xABC#32
  exact (hkept.2.2.2 (memoryDisk_reliable 3)).2 3 (by decide) (by decide)

end Spec

end OpenIDP.Fat
