import OpenIDP.Drivers.Ata
import OpenIDP.Math.Writes

/-!
# The sectors of the disk

`disk_write` and `disk_read` of `src/drivers/fatfs/diskio.c` take the number of a sector with 32
bits. `ata_write_sector` and `ata_read_sector` of `src/drivers/fatfs/ata.c` send 28 of them to the
drive. The offset in the buffer is a product of 32 bits.

The drive decodes the registers, and is always ready.

## Main definitions

* `Drive`, `drive` — a drive that decodes its registers
* `SectorsDistinct` — what is written to some sectors is there, and only there, and is read again

## Main results

* `ataReadSector_drive`, `ataWriteSector_drive` — a sector
* `readSectors_drive`, `writeSectors_drive` — the sectors of a request
* `sectors_distinct_iff` — the requests for which sectors are distinct
-/

namespace OpenIDP.Drivers

open OpenIDP.Math

/-- What a drive does. The number is the number of words transferred since the command. -/
inductive Phase
  | idle
  | reading (k : ℕ)
  | writing (k : ℕ)

/-- A drive: 256 words for each sector, the registers, and what it does. -/
structure Drive where
  sectors : BitVec 28 → BitVec 8 → BitVec 16
  regs : AtaReg → BitVec 8
  phase : Phase

namespace Drive

variable (d : Drive)

/-- The number of words that a command transfers: a count of zero stands for 256 sectors. -/
def size : ℕ := 256 * if d.regs .secCount0 = 0 then 256 else (d.regs .secCount0).toNat

/-- The sector and the word in it that are transferred next. -/
def place (k : ℕ) : BitVec 28 × BitVec 8 :=
  (lbaOf d.regs + BitVec.ofNat 28 (k / 256), BitVec.ofNat 8 k)

/-- The drive is ready, and has `ATA_SR_DRQ` while there is something to transfer. -/
def status : BitVec 8 :=
  match d.phase with
  | .idle => 0x50#8
  | .reading k | .writing k => if k < d.size then 0x58#8 else 0x50#8

/-- A register is written. Commands are obeyed when they are for the first drive, and the registers
have the number of a sector. -/
def outb (reg : AtaReg) (b : BitVec 8) : Drive :=
  let regs := Function.update d.regs reg b
  if reg = .command then
    let phase : Phase :=
      if regs .hddevsel &&& 0x50#8 ≠ 0x40#8 then .idle
      else if b = 0x20#8 then .reading 0
      else if b = 0x30#8 then .writing 0
      else .idle
    { d with regs := regs, phase := phase }
  else { d with regs := regs }

/-- A word is read. -/
def inw : BitVec 16 × Drive :=
  match d.phase with
  | .reading k =>
    if k < d.size then
      (d.sectors (d.place k).1 (d.place k).2, { d with phase := .reading (k + 1) })
    else (0, d)
  | _ => (0, d)

/-- A word is written. -/
def outw (w : BitVec 16) : Drive :=
  match d.phase with
  | .writing k =>
    if k < d.size then
      let (lba, word) := d.place k
      { d with
        sectors := Function.update d.sectors lba (Function.update (d.sectors lba) word w)
        phase := .writing (k + 1) }
    else d
  | _ => d

end Drive

/-- The drive behind the ports. -/
def drive : Ports Drive where
  status d := (d.status, d)
  outb := Drive.outb
  inw := Drive.inw
  outw := Drive.outw
  serialPrintf d _ := d

/-- Every sector of a request that is not refused is one of the drive, which has the data after
`disk_write`, and all other sectors are unchanged; `disk_read` gives the data again. -/
def SectorsDistinct (sector count : BitVec 32) : Prop :=
  ∀ (d : Drive) (mem : BitVec 64 → BitVec 8) (wbuf rbuf : BitVec 64), ∃ fuel result m,
    diskWrite drive fuel wbuf sector count ⟨mem, d⟩ = some (result, m) ∧ (result = .ok →
      (∀ i < count.toNat, ∃ lba : BitVec 28, lba.toNat = sector.toNat + i ∧ ∀ k : BitVec 8,
        m.io.sectors lba k = loadWord mem (wordAddr wbuf (256 * i + k.toNat))) ∧
      (∀ lba : BitVec 28, (∀ i < count.toNat, lba.toNat ≠ sector.toNat + i) →
        m.io.sectors lba = d.sectors lba) ∧
      ∃ m', diskRead drive fuel rbuf sector count m = some (.ok, m') ∧
        ∀ k < 256 * count.toNat,
          loadWord m'.mem (wordAddr rbuf k) = loadWord mem (wordAddr wbuf k))

section Sector

variable {d : Drive} {mem : BitVec 64 → BitVec 8} {buf : BitVec 64} {lba : BitVec 32} {n : ℕ}

/-- The bytes that are written to memory for the first `n` words of a sector. -/
def wordWrites (buf : BitVec 64) (words : BitVec 8 → BitVec 16) (n : ℕ) :
    List (BitVec 64 × BitVec 8) :=
  (List.range n).flatMap fun k =>
    [(wordAddr buf k, (words (BitVec.ofNat 8 k)).extractLsb' 0 8),
      (wordAddr buf k + 1, (words (BitVec.ofNat 8 k)).extractLsb' 8 8)]

theorem sendCommand_drive (d : Drive) (lba : BitVec 32) {command : BitVec 8} {phase : Phase}
    (hphase : (if command = 0x20#8 then Phase.reading 0
      else if command = 0x30#8 then .writing 0 else .idle) = phase) :
    sendCommand drive lba command d =
      { d with regs := selected lba command, phase := phase } := by
  have hregs : (sendCommand drive lba command d).regs = selected lba command := by
    funext reg
    cases reg <;> rfl
  have hselect : (0xE0#8 ||| ((lba >>> 24).setWidth 8 &&& 0x0F#8)) &&& 0x50#8 = 0x40#8 := by
    ext i hi
    interval_cases i <;> simp
  have hcommand : (sendCommand drive lba command d).phase = phase := by
    refine Eq.trans ?_ hphase
    exact if_neg (not_not.mpr hselect)
  rw [← hregs, ← hcommand]
  rfl

/-- A command is for one sector. -/
theorem place_selected {command : BitVec 8} {k : ℕ} (hregs : d.regs = selected lba command)
    (hk : k < 256) : k < d.size ∧ d.place k = (lba.setWidth 28, BitVec.ofNat 8 k) := by
  constructor
  · rw [Drive.size, hregs]
    exact hk
  · rw [Drive.place, hregs, lbaOf_selected, Nat.div_eq_of_lt hk]
    exact congrArg (·, BitVec.ofNat 8 k) (BitVec.add_zero _)

theorem wordWrites_succ (words : BitVec 8 → BitVec 16) (n : ℕ) :
    wordWrites buf words (n + 1) = wordWrites buf words n ++
      [(wordAddr buf n, (words (BitVec.ofNat 8 n)).extractLsb' 0 8),
        (wordAddr buf n + 1, (words (BitVec.ofNat 8 n)).extractLsb' 8 8)] := by
  rw [wordWrites, List.range_succ, List.flatMap_append, List.flatMap_singleton]
  rfl

theorem readWords_drive (hregs : d.regs = selected lba 0x20#8) (hphase : d.phase = .reading 0)
    (hn : n ≤ 256) :
    readWords drive buf n ⟨mem, d⟩ =
      ⟨writeAll mem (wordWrites buf (d.sectors (lba.setWidth 28)) n),
        { d with phase := .reading n }⟩ := by
  induction n with
  | zero => rw [← hphase]; rfl
  | succ n ih =>
    obtain ⟨hsize, hplace⟩ := place_selected hregs hn
    have hplace' : Drive.place { d with phase := .reading n } n = _ := hplace
    have hword : drive.inw { d with phase := .reading n } =
        (d.sectors (lba.setWidth 28) (BitVec.ofNat 8 n), { d with phase := .reading (n + 1) }) := by
      refine (if_pos hsize).trans ?_
      rw [hplace']
    rw [readWords, ih (Nat.le_of_succ_le hn), hword, wordWrites_succ, writeAll, writeAll,
      List.foldl_append]
    rfl

theorem outw_drive (hregs : d.regs = selected lba 0x30#8) (hphase : d.phase = .writing n)
    (hn : n < 256) (w : BitVec 16) :
    d.outw w =
      { d with
        sectors := Function.update d.sectors (lba.setWidth 28)
          (Function.update (d.sectors (lba.setWidth 28)) (BitVec.ofNat 8 n) w)
        phase := .writing (n + 1) } := by
  obtain ⟨hsize, hplace⟩ := place_selected hregs hn
  rw [Drive.outw, hphase]
  dsimp only
  rw [if_pos hsize, hplace]

theorem writeWords_drive (hregs : d.regs = selected lba 0x30#8) (hphase : d.phase = .writing 0)
    (hn : n ≤ 256) :
    writeWords drive mem buf n d =
      { d with
        sectors := Function.update d.sectors (lba.setWidth 28) fun k =>
          if k.toNat < n then loadWord mem (wordAddr buf k.toNat)
          else d.sectors (lba.setWidth 28) k
        phase := .writing n } := by
  induction n with
  | zero =>
    have hsame : (fun k : BitVec 8 => if k.toNat < 0 then loadWord mem (wordAddr buf k.toNat)
        else d.sectors (lba.setWidth 28) k) = d.sectors (lba.setWidth 28) :=
      funext fun k => if_neg (Nat.not_lt_zero _)
    rw [hsame, Function.update_eq_self, ← hphase]
    rfl
  | succ n ih =>
    rw [writeWords, ih (Nat.le_of_succ_le hn)]
    dsimp only [drive]
    rw [outw_drive]
    case hregs => exact hregs
    case hphase => rfl
    case hn => exact hn
    dsimp only
    -- one more word of the sector is new
    rw [Function.update_idem, Function.update_self]
    congr 2
    funext k
    have hword : (BitVec.ofNat 8 n).toNat = n := by
      rw [BitVec.toNat_ofNat]
      exact Nat.mod_eq_of_lt hn
    by_cases hk : k = BitVec.ofNat 8 n
    · rw [hk, Function.update_self, hword, if_pos (Nat.lt_succ_self n)]
    · have hne : k.toNat ≠ n := fun heq => hk (BitVec.eq_of_toNat_eq (heq.trans hword.symm))
      rw [Function.update_of_ne hk]
      exact if_congr (by omega) rfl rfl

/-- The drive is never busy. -/
theorem waitBsy_drive (fuel : ℕ) (d : Drive) :
    waitBsy drive (fuel + 1) d = some (d.status, d) := by
  refine if_neg (not_not.mpr ?_)
  show d.status &&& 0x80#8 = 0#8
  rw [Drive.status]
  split
  · rfl
  all_goals split_ifs <;> rfl

theorem status_selected {command : BitVec 8} (hregs : d.regs = selected lba command)
    (hphase : d.phase = .reading 0 ∨ d.phase = .writing 0) : d.status = 0x58#8 := by
  obtain ⟨hsize, -⟩ := place_selected hregs (by decide : 0 < 256)
  rw [Drive.status]
  rcases hphase with hphase | hphase <;> rw [hphase] <;> exact if_pos hsize

/-- Reading a sector from the drive. -/
theorem ataReadSector_drive (fuel : ℕ) (lba : BitVec 32) (buf : BitVec 64) (m : Machine Drive) :
    ∃ m', ataReadSector drive (fuel + 1) lba buf m = some m' ∧ m'.io.sectors = m.io.sectors ∧
      m'.mem = writeAll m.mem (wordWrites buf (m.io.sectors (lba.setWidth 28)) 256) := by
  have hwait : ataWait drive (fuel + 1) (sendCommand drive lba 0x20#8 m.io) =
      some { m.io with regs := selected lba 0x20#8, phase := .reading 0 } := by
    rw [sendCommand_drive m.io lba (if_pos rfl), ataWait, waitBsy_drive,
      status_selected rfl (Or.inl rfl)]
    rfl
  rw [ataReadSector, hwait, Option.map_some,
    readWords_drive rfl rfl (le_refl 256)]
  refine ⟨_, rfl, rfl, ?_⟩
  dsimp only

/-- Writing a sector to the drive. -/
theorem ataWriteSector_drive (fuel : ℕ) (lba : BitVec 32) (buf : BitVec 64) (m : Machine Drive) :
    ∃ m', ataWriteSector drive (fuel + 1) lba buf m = some m' ∧ m'.mem = m.mem ∧
      m'.io.sectors = Function.update m.io.sectors (lba.setWidth 28) fun k =>
        loadWord m.mem (wordAddr buf k.toNat) := by
  have hwait : waitWrite drive (fuel + 1) (sendCommand drive lba 0x30#8 m.io) =
      some (true, { m.io with regs := selected lba 0x30#8, phase := .writing 0 }) := by
    have hphase : (if 0x30#8 = 0x20#8 then Phase.reading 0
        else if 0x30#8 = 0x30#8 then .writing 0 else .idle) = .writing 0 := rfl
    rw [sendCommand_drive m.io lba hphase, waitWrite]
    dsimp only [drive]
    rw [status_selected rfl (Or.inr rfl)]
    rfl
  rw [ataWriteSector, waitBsy_drive, Option.bind_eq_bind, Option.bind_some]
  dsimp only
  rw [hwait, Option.bind_eq_bind, Option.bind_some]
  dsimp only
  rw [if_pos rfl, waitBsy_drive, writeWords_drive rfl rfl (le_refl 256)]
  refine ⟨_, rfl, rfl, ?_⟩
  show Function.update _ _ _ = _
  congr 1
  funext k
  exact if_pos k.isLt

end Sector

section Request

variable {buff : BitVec 64} {sector count : BitVec 32} {i j k n : ℕ}

/-- The sector of the drive for sector `i` of a request. -/
def driveSector (sector : BitVec 32) (i : ℕ) : BitVec 28 := (sector + BitVec.ofNat 32 i).setWidth 28

theorem readSectors_drive (fuel : ℕ) (buff : BitVec 64) (sector : BitVec 32) (i n : ℕ)
    (m : Machine Drive) :
    ∃ m', forSectors (ataReadSector drive (fuel + 1)) buff sector i n m = some m' ∧
      m'.mem = writeAll m.mem ((List.range' i n).flatMap fun i =>
        wordWrites (sectorAddr buff i) (m.io.sectors (driveSector sector i)) 256) := by
  induction n generalizing i m with
  | zero => exact ⟨m, rfl, rfl⟩
  | succ n ih =>
    obtain ⟨m₁, hone, hsectors, hmem⟩ := ataReadSector_drive fuel (sector + BitVec.ofNat 32 i)
      (sectorAddr buff i) m
    obtain ⟨m', hrest, hall⟩ := ih (i + 1) m₁
    refine ⟨m', ?_, ?_⟩
    · rw [forSectors, hone]
      exact hrest
    · rw [hall, hsectors, hmem, List.range'_succ, List.flatMap_cons, writeAll, writeAll, writeAll,
        List.foldl_append]
      rfl

theorem writeSectors_drive (fuel : ℕ) (buff : BitVec 64) (sector : BitVec 32) (i n : ℕ)
    (m : Machine Drive) :
    ∃ m', forSectors (ataWriteSector drive (fuel + 1)) buff sector i n m = some m' ∧
      m'.mem = m.mem ∧
      m'.io.sectors = writeAll m.io.sectors ((List.range' i n).map fun i =>
        (driveSector sector i, fun k =>
          loadWord m.mem (wordAddr (sectorAddr buff i) k.toNat))) := by
  induction n generalizing i m with
  | zero => exact ⟨m, rfl, rfl, rfl⟩
  | succ n ih =>
    obtain ⟨m₁, hone, hmem, hsectors⟩ := ataWriteSector_drive fuel (sector + BitVec.ofNat 32 i)
      (sectorAddr buff i) m
    obtain ⟨m', hrest, hkept, hall⟩ := ih (i + 1) m₁
    refine ⟨m', ?_, hkept.trans hmem, ?_⟩
    · rw [forSectors, hone]
      exact hrest
    · rw [hall, hsectors, hmem, List.range'_succ, List.map_cons, writeAll_cons]
      rfl

/-- A sector that the drive has is the sector of the request. -/
theorem driveSector_toNat (h : sector.toNat + i < 2 ^ 28) :
    (driveSector sector i).toNat = sector.toNat + i := by
  rw [driveSector, BitVec.toNat_setWidth, BitVec.toNat_add, BitVec.toNat_ofNat]
  omega

-- the drive takes one sector for another
example : driveSector 0x10000000 0 = driveSector 0 0 := by decide

theorem sectorAddr_eq (hi : i < 2 ^ 23) :
    sectorAddr buff i = buff + BitVec.ofNat 64 (512 * i) := by
  rw [sectorAddr]
  congr 1
  apply BitVec.eq_of_toNat_eq
  rw [BitVec.toNat_setWidth, BitVec.toNat_mul, BitVec.toNat_ofNat, BitVec.toNat_ofNat,
    BitVec.toNat_ofNat]
  omega

theorem wordAddr_sectorAddr (hi : i < 2 ^ 23) :
    wordAddr (sectorAddr buff i) k = wordAddr buff (256 * i + k) := by
  rw [sectorAddr_eq hi, wordAddr, wordAddr, BitVec.add_assoc, ← BitVec.ofNat_add]
  congr 2
  omega

/-- The bytes of words of a buffer are at different addresses. -/
theorem wordAddr_inj (hj : j < 2 ^ 62) (hk : k < 2 ^ 62) :
    (wordAddr buff j = wordAddr buff k → j = k) ∧ wordAddr buff j ≠ wordAddr buff k + 1 := by
  rw [wordAddr, wordAddr]
  constructor
  · intro h
    have hnat := congrArg BitVec.toNat ((BitVec.add_right_inj _).mp h)
    rw [BitVec.toNat_ofNat, BitVec.toNat_ofNat] at hnat
    omega
  · intro h
    rw [BitVec.add_assoc] at h
    have hnat := congrArg BitVec.toNat ((BitVec.add_right_inj _).mp h)
    have hone : (1 : BitVec 64).toNat = 1 := rfl
    rw [BitVec.toNat_add, BitVec.toNat_ofNat, BitVec.toNat_ofNat, hone] at hnat
    omega

/-- The bytes that are written for a word. -/
def bytesOfWord (addr : BitVec 64) (w : BitVec 16) : List (BitVec 64 × BitVec 8) :=
  [(addr, w.extractLsb' 0 8), (addr + 1, w.extractLsb' 8 8)]

/-- What a request writes to a buffer, word by word. -/
theorem mem_sectorWrites (words : ℕ → BitVec 8 → BitVec 16) (hn : n ≤ 2 ^ 23)
    {w : BitVec 64 × BitVec 8} :
    w ∈ ((List.range' 0 n).flatMap fun i => wordWrites (sectorAddr buff i) (words i) 256) ↔
      ∃ k < 256 * n, w ∈ bytesOfWord (wordAddr buff k) (words (k / 256) (BitVec.ofNat 8 k)) := by
  rw [← List.range_eq_range', List.mem_flatMap]
  constructor
  · rintro ⟨i, hi, hw⟩
    obtain ⟨k, hk, hw⟩ := List.mem_flatMap.mp hw
    have hi := List.mem_range.mp hi
    have hk := List.mem_range.mp hk
    rw [wordAddr_sectorAddr (hi.trans_le hn)] at hw
    have hsector : (256 * i + k) / 256 = i := by omega
    have hword : BitVec.ofNat 8 (256 * i + k) = BitVec.ofNat 8 k :=
      BitVec.eq_of_toNat_eq (by rw [BitVec.toNat_ofNat, BitVec.toNat_ofNat]; omega)
    refine ⟨256 * i + k, by omega, ?_⟩
    rwa [hsector, hword]
  · rintro ⟨k, hk, hw⟩
    have hi : k / 256 < n := by omega
    refine ⟨k / 256, List.mem_range.mpr hi, List.mem_flatMap.mpr ⟨k % 256, ?_, ?_⟩⟩
    · exact List.mem_range.mpr (Nat.mod_lt k (by decide))
    · have hword : BitVec.ofNat 8 (k % 256) = BitVec.ofNat 8 k :=
        BitVec.eq_of_toNat_eq (by rw [BitVec.toNat_ofNat, BitVec.toNat_ofNat]; omega)
      rw [wordAddr_sectorAddr (hi.trans_le hn), Nat.div_add_mod, hword]
      exact hw

theorem append_extractLsb' (w : BitVec 16) : w.extractLsb' 8 8 ++ w.extractLsb' 0 8 = w := by
  ext i hi
  rw [BitVec.getElem_append]
  interval_cases i <;> simp

/-- The words of a buffer after a request. -/
theorem loadWord_sectorWrites (words : ℕ → BitVec 8 → BitVec 16) (hn : n ≤ 2 ^ 23)
    (mem : BitVec 64 → BitVec 8) (hk : k < 256 * n) :
    loadWord (writeAll mem ((List.range' 0 n).flatMap fun i =>
      wordWrites (sectorAddr buff i) (words i) 256)) (wordAddr buff k) =
        words (k / 256) (BitVec.ofNat 8 k) := by
  have hbytes : ∀ w ∈ bytesOfWord (wordAddr buff k) (words (k / 256) (BitVec.ofNat 8 k)),
      writeAll mem ((List.range' 0 n).flatMap fun i =>
        wordWrites (sectorAddr buff i) (words i) 256) w.1 = w.2 := by
    intro w hw
    refine writeAll_of_mem ((mem_sectorWrites words hn).mpr ⟨k, hk, hw⟩) fun w' hw' haddr => ?_
    -- another byte at the same address is the same byte of the same word
    obtain ⟨j, hj, hw'⟩ := (mem_sectorWrites words hn).mp hw'
    obtain ⟨hsame, hodd⟩ := @wordAddr_inj buff j k (by omega) (by omega)
    obtain ⟨-, hodd'⟩ := @wordAddr_inj buff k j (by omega) (by omega)
    simp only [bytesOfWord, List.mem_cons, List.not_mem_nil, or_false] at hw hw'
    rcases hw with rfl | rfl <;> rcases hw' with rfl | rfl
    · rw [hsame haddr]
    · exact absurd haddr.symm hodd'
    · exact absurd haddr hodd
    · rw [hsame ((BitVec.add_left_inj _).mp haddr)]
  rw [loadWord, hbytes (_, _) (List.mem_cons_self), hbytes (_, _) (List.mem_cons_of_mem _
    List.mem_cons_self)]
  exact append_extractLsb' _

/-- What a request writes to the sectors of the drive, when it has them all. -/
theorem sectors_written (hfit : sector.toNat + n ≤ 2 ^ 28)
    (sectors : BitVec 28 → BitVec 8 → BitVec 16) (data : ℕ → BitVec 8 → BitVec 16) :
    (∀ i < n, writeAll sectors ((List.range' 0 n).map fun i => (driveSector sector i, data i))
      (driveSector sector i) = data i) ∧
    ∀ lba : BitVec 28, (∀ i < n, lba.toNat ≠ sector.toNat + i) →
      writeAll sectors ((List.range' 0 n).map fun i => (driveSector sector i, data i)) lba =
        sectors lba := by
  rw [← List.range_eq_range']
  constructor
  · intro i hi
    refine writeAll_of_mem (List.mem_map_of_mem (List.mem_range.mpr hi)) fun w hw hsame => ?_
    obtain ⟨j, hj, rfl⟩ := List.mem_map.mp hw
    have hj := List.mem_range.mp hj
    have hnat := congrArg BitVec.toNat hsame
    rw [driveSector_toNat (by omega), driveSector_toNat (by omega)] at hnat
    rw [Nat.add_left_cancel hnat]
  · intro lba hother
    refine writeAll_of_forall_ne fun w hw hsame => ?_
    obtain ⟨j, hj, rfl⟩ := List.mem_map.mp hw
    have hj := List.mem_range.mp hj
    refine hother j hj ?_
    rw [← hsame, driveSector_toNat (by omega)]

/-- What `disk_write` does to a drive that has all sectors. -/
theorem diskWrite_drive (hfit : sector.toNat + count.toNat ≤ 2 ^ 28) (fuel : ℕ)
    (buff : BitVec 64) (m : Machine Drive) :
    ∃ m', diskWrite drive (fuel + 1) buff sector count m = some (.ok, m') ∧ m'.mem = m.mem ∧
      (∀ i < count.toNat, m'.io.sectors (driveSector sector i) = fun k =>
        loadWord m.mem (wordAddr (sectorAddr buff i) k.toNat)) ∧
      ∀ lba : BitVec 28, (∀ i < count.toNat, lba.toNat ≠ sector.toNat + i) →
        m'.io.sectors lba = m.io.sectors lba := by
  obtain ⟨m', hloop, hmem, hsectors⟩ := writeSectors_drive fuel buff sector 0 count.toNat m
  obtain ⟨hdata, hothers⟩ := sectors_written hfit m.io.sectors fun i k =>
    loadWord m.mem (wordAddr (sectorAddr buff i) k.toNat)
  refine ⟨m', ?_, hmem, fun i hi => ?_, fun lba hother => ?_⟩
  · rw [diskWrite]
    exact congrArg (Option.map _) hloop
  · rw [hsectors, hdata i hi]
  · rw [hsectors, hothers lba hother]

/-- What `disk_read` reads from a drive into a buffer that has room for all sectors. -/
theorem diskRead_drive (hroom : count.toNat ≤ 2 ^ 23) (fuel : ℕ) (buff : BitVec 64)
    (sector : BitVec 32) (m : Machine Drive) :
    ∃ m', diskRead drive (fuel + 1) buff sector count m = some (.ok, m') ∧
      ∀ k < 256 * count.toNat, loadWord m'.mem (wordAddr buff k) =
        m.io.sectors (driveSector sector (k / 256)) (BitVec.ofNat 8 k) := by
  obtain ⟨m', hloop, hmem⟩ := readSectors_drive fuel buff sector 0 count.toNat m
  refine ⟨m', ?_, fun k hk => ?_⟩
  · rw [diskRead, hloop]
    rfl
  · rw [hmem, loadWord_sectorWrites (fun i => m.io.sectors (driveSector sector i)) hroom m.mem hk]

end Request

theorem diskWrite_zero_fuel {sector count : BitVec 32} (hcount : count.toNat ≠ 0)
    (buff : BitVec 64) (m : Machine Drive) : diskWrite drive 0 buff sector count m = none := by
  obtain ⟨n, hn⟩ := Nat.exists_eq_succ_of_ne_zero hcount
  rw [diskWrite, hn]
  rfl

/-- Requests that are accepted are for sectors that the drive has, and for a buffer whose offsets
are different. -/
theorem SectorsDistinct.bounds {sector count : BitVec 32} (h : SectorsDistinct sector count)
    (hcount : count.toNat ≠ 0) :
    sector.toNat + count.toNat ≤ 2 ^ 28 ∧ count.toNat ≤ 2 ^ 23 := by
  -- the byte at the offset that is too large is not the one at the start
  obtain ⟨fuel, result, m, hwrite, hok⟩ := h ⟨fun _ _ => 0, fun _ => 0, .idle⟩
    (fun addr => if addr = 0x100000000#64 then 1 else 0) 0 0
  cases fuel with
  | zero => exact absurd hwrite (by rw [diskWrite_zero_fuel hcount]; nofun)
  | succ fuel =>
    obtain ⟨m₁, hloop⟩ := Option.map_eq_some_iff.mp hwrite
    obtain ⟨hplaces, -, -⟩ := hok (congrArg Prod.fst hloop.2).symm
    have hfit : sector.toNat + count.toNat ≤ 2 ^ 28 := by
      obtain ⟨lba, hlba, -⟩ := hplaces (count.toNat - 1) (by omega)
      have hlt := lba.isLt
      omega
    refine ⟨hfit, not_lt.mp fun hlarge => ?_⟩
    obtain ⟨m', hwrite', -, hdata, -⟩ := diskWrite_drive hfit fuel 0
      ⟨fun addr => if addr = 0x100000000#64 then 1 else 0, ⟨fun _ _ => 0, fun _ => 0, .idle⟩⟩
    rw [hwrite'] at hwrite
    cases hwrite
    obtain ⟨lba, hlba, hword⟩ := hplaces (2 ^ 23) hlarge
    have hsame : lba = driveSector sector (2 ^ 23) :=
      BitVec.eq_of_toNat_eq (by rw [hlba, driveSector_toNat (by omega)])
    have hboth := (hword 0).symm.trans (congrFun ((congrArg m.io.sectors hsame).trans
      (hdata (2 ^ 23) hlarge)) 0)
    exact absurd hboth (by decide)

/-- **Sectors are distinct.** What is written to some sectors is in these sectors of the drive and
in no others, and is read again, if and only if the drive has all of them and the buffer has at most
4 GiB. -/
theorem sectors_distinct_iff (sector count : BitVec 32) :
    SectorsDistinct sector count ↔
      count = 0 ∨ sector.toNat + count.toNat ≤ 2 ^ 28 ∧ count.toNat ≤ 2 ^ 23 := by
  constructor
  · intro h
    rcases eq_or_ne count.toNat 0 with hzero | hcount
    · exact Or.inl (BitVec.eq_of_toNat_eq hzero)
    · exact Or.inr (h.bounds hcount)
  · rintro (rfl | ⟨hfit, hroom⟩) d mem wbuf rbuf
    · exact ⟨0, .ok, ⟨mem, d⟩, rfl, fun _ => ⟨fun i hi => absurd hi (Nat.not_lt_zero i),
        fun _ _ => rfl, ⟨mem, d⟩, rfl, fun k hk => absurd hk (Nat.not_lt_zero k)⟩⟩
    · obtain ⟨m, hwrite, hmem, hdata, hothers⟩ := diskWrite_drive hfit 0 wbuf ⟨mem, d⟩
      obtain ⟨m', hread, hwords⟩ := diskRead_drive hroom 0 rbuf sector m
      have hplace : ∀ i < count.toNat, ∀ k : BitVec 8, m.io.sectors (driveSector sector i) k =
          loadWord mem (wordAddr wbuf (256 * i + k.toNat)) := by
        intro i hi k
        rw [hdata i hi, ← wordAddr_sectorAddr (hi.trans_le hroom)]
      refine ⟨1, .ok, m, hwrite, fun _ => ⟨fun i hi => ?_, hothers, m', hread, fun k hk => ?_⟩⟩
      · exact ⟨driveSector sector i, driveSector_toNat (by omega), hplace i hi⟩
      · have hword : (BitVec.ofNat 8 k).toNat = k % 256 := BitVec.toNat_ofNat k 8
        rw [hwords k hk, hplace _ (by omega), hword, Nat.div_add_mod]

/-- Sector 2 ^ 28 is not refused, and the drive does not have it. -/
theorem not_sectors_distinct_behind : ¬SectorsDistinct 0x10000000 1 := fun h =>
  absurd (h.bounds (by decide)).1 (by decide)

end OpenIDP.Drivers
