import Mathlib.Data.BitVec
import Mathlib.Data.List.Basic
import Mathlib.Logic.Function.Basic
import Mathlib.Tactic.IntervalCases

/-!
# The disk driver

`src/drivers/fatfs/ata.c` reads and writes a sector of the disk through the ports of its controller,
and `src/drivers/fatfs/diskio.c` reads and writes some sectors for the file system.

The functions are described for everything that may be behind the ports, as what is there decides
what is read. A loop that waits may never end; `fuel` bounds how often it looks at the status.

## Main definitions

* `Ports` — what is behind the ports
* `ataWait`, `ataReadSector`, `ataWriteSector` — the functions of `ata.c`
* `diskRead`, `diskWrite` — the functions of `diskio.c`
* `lbaOf` — the sector that the registers select

## Main results

* `lbaOf_selected` — the registers get the low bits of the number of a sector
-/

namespace OpenIDP.Drivers

/-- The registers at `ATA_PRIMARY_IO` that are written byte by byte. -/
inductive AtaReg
  | secCount0
  | lba0
  | lba1
  | lba2
  | hddevsel
  | command
deriving DecidableEq

/-- `ATA_SR_BSY` is set. -/
abbrev Bsy (status : BitVec 8) : Prop := status &&& 0x80#8 ≠ 0#8

/-- `ATA_SR_DRQ` is set. -/
abbrev Drq (status : BitVec 8) : Prop := status &&& 0x08#8 ≠ 0#8

/-- `ATA_SR_ERR` is set. -/
abbrev Err (status : BitVec 8) : Prop := status &&& 0x01#8 ≠ 0#8

/-- What is behind the ports: `inb` from the status register, `outb` to a register, and `inw` and
`outw` at the data register; and what gets the text of `serial_printf`. -/
structure Ports (σ : Type) where
  status : σ → BitVec 8 × σ
  outb : σ → AtaReg → BitVec 8 → σ
  inw : σ → BitVec 16 × σ
  outw : σ → BitVec 16 → σ
  serialPrintf : σ → String → σ

/-- The memory, and what is behind the ports. -/
structure Machine (σ : Type) where
  mem : BitVec 64 → BitVec 8
  io : σ

/-- Reads a `uint16_t`. -/
def loadWord (mem : BitVec 64 → BitVec 8) (addr : BitVec 64) : BitVec 16 :=
  mem (addr + 1) ++ mem addr

/-- Writes a `uint16_t`. -/
def storeWord (mem : BitVec 64 → BitVec 8) (addr : BitVec 64) (w : BitVec 16) :
    BitVec 64 → BitVec 8 :=
  Function.update (Function.update mem addr (w.extractLsb' 0 8)) (addr + 1) (w.extractLsb' 8 8)

/-- The address of element `i` of an array of `uint16_t`. -/
def wordAddr (buf : BitVec 64) (i : ℕ) : BitVec 64 := buf + BitVec.ofNat 64 (2 * i)

section Code

variable {σ : Type} (ports : Ports σ)

/-- The loops that read the status while `ATA_SR_BSY` is set. -/
def waitBsy : ℕ → σ → Option (BitVec 8 × σ)
  | 0, _ => none
  | fuel + 1, io =>
    let (status, io₁) := ports.status io
    if Bsy status then waitBsy fuel io₁ else some (status, io₁)

/-- The second loop of `ata_wait`, where `timeout` and `status` are the variables. -/
def waitDrq : ℕ → BitVec 8 → σ → σ
  | 0, _, io => io
  | timeout + 1, status, io =>
    if Drq status then io
    else
      let (status₁, io₁) := ports.status io
      if Err status₁ then ports.serialPrintf io₁ "ATA error during wait!\n"
      else waitDrq timeout status₁ io₁

/-- `ata_wait` -/
def ataWait (fuel : ℕ) (io : σ) : Option σ :=
  (waitBsy ports fuel io).map fun (status, io₁) => waitDrq ports 100000 status io₁

/-- The part of `ata_read_sector` and `ata_write_sector` that selects a sector and sends a
command. -/
def sendCommand (lba : BitVec 32) (command : BitVec 8) (io : σ) : σ :=
  let io₁ := ports.outb io .hddevsel (0xE0#8 ||| ((lba >>> 24).setWidth 8 &&& 0x0F#8))
  let io₂ := ports.outb io₁ .secCount0 1#8
  let io₃ := ports.outb io₂ .lba0 (lba.setWidth 8)
  let io₄ := ports.outb io₃ .lba1 ((lba >>> 8).setWidth 8)
  let io₅ := ports.outb io₄ .lba2 ((lba >>> 16).setWidth 8)
  ports.outb io₅ .command command

/-- The loop of `ata_read_sector`, as far as element `n`. -/
def readWords (buf : BitVec 64) : ℕ → Machine σ → Machine σ
  | 0, m => m
  | n + 1, m =>
    let m₁ := readWords buf n m
    let (w, io) := ports.inw m₁.io
    ⟨storeWord m₁.mem (wordAddr buf n) w, io⟩

/-- `ata_read_sector` -/
def ataReadSector (fuel : ℕ) (lba : BitVec 32) (buf : BitVec 64) (m : Machine σ) :
    Option (Machine σ) :=
  (ataWait ports fuel (sendCommand ports lba 0x20#8 m.io)).map fun io =>
    readWords ports buf 256 ⟨m.mem, io⟩

/-- The loop of `ata_write_sector` that waits for the drive. It is left when the drive takes data,
and the function returns when there is an error. -/
def waitWrite : ℕ → σ → Option (Bool × σ)
  | 0, _ => none
  | fuel + 1, io =>
    let (status, io₁) := ports.status io
    if Err status then some (false, ports.serialPrintf io₁ "ATA error: can't write sector\n")
    else if Drq status then some (true, io₁)
    else waitWrite fuel io₁

/-- The loop of `ata_write_sector` that writes, as far as element `n`. -/
def writeWords (mem : BitVec 64 → BitVec 8) (buf : BitVec 64) : ℕ → σ → σ
  | 0, io => io
  | n + 1, io => ports.outw (writeWords mem buf n io) (loadWord mem (wordAddr buf n))

/-- `ata_write_sector` -/
def ataWriteSector (fuel : ℕ) (lba : BitVec 32) (buf : BitVec 64) (m : Machine σ) :
    Option (Machine σ) := do
  let (_, io₁) ← waitBsy ports fuel m.io
  let (accepted, io₂) ← waitWrite ports fuel (sendCommand ports lba 0x30#8 io₁)
  if accepted then
    let io₃ := ports.outb (writeWords ports m.mem buf 256 io₂) .command 0xE7#8
    let (_, io₄) ← waitBsy ports fuel io₃
    some ⟨m.mem, io₄⟩
  else some ⟨m.mem, io₂⟩

/-- `DRESULT` -/
inductive DResult
  | ok
  | error
  | wrprt
  | notrdy
  | parerr
deriving DecidableEq

/-- Where the data of sector `i` of a request is: the product is a `UINT`. -/
def sectorAddr (buff : BitVec 64) (i : ℕ) : BitVec 64 :=
  buff + (BitVec.ofNat 32 i * 512#32).setWidth 64

/-- The loops of `disk_read` and `disk_write`, from sector `i`. -/
def forSectors (one : BitVec 32 → BitVec 64 → Machine σ → Option (Machine σ)) (buff : BitVec 64)
    (sector : BitVec 32) : ℕ → ℕ → Machine σ → Option (Machine σ)
  | _, 0, m => some m
  | i, n + 1, m =>
    (one (sector + BitVec.ofNat 32 i) (sectorAddr buff i) m).bind
      (forSectors one buff sector (i + 1) n)

/-- `disk_read` -/
def diskRead (fuel : ℕ) (buff : BitVec 64) (sector count : BitVec 32) (m : Machine σ) :
    Option (DResult × Machine σ) :=
  (forSectors (ataReadSector ports fuel) buff sector 0 count.toNat m).map fun m₁ => (.ok, m₁)

/-- `disk_write` -/
def diskWrite (fuel : ℕ) (buff : BitVec 64) (sector count : BitVec 32) (m : Machine σ) :
    Option (DResult × Machine σ) :=
  (forSectors (ataWriteSector ports fuel) buff sector 0 count.toNat
    ⟨m.mem, ports.serialPrintf m.io "Sector: 0x%x\nCount: 0x%x\n"⟩).map fun m₁ => (.ok, m₁)

end Code

/-- The sector that the registers select. -/
def lbaOf (regs : AtaReg → BitVec 8) : BitVec 28 :=
  (regs .hddevsel).setWidth 4 ++ regs .lba2 ++ regs .lba1 ++ regs .lba0

/-- The registers after the command was sent. -/
def selected (lba : BitVec 32) (command : BitVec 8) : AtaReg → BitVec 8
  | .hddevsel => 0xE0#8 ||| ((lba >>> 24).setWidth 8 &&& 0x0F#8)
  | .secCount0 => 1#8
  | .lba0 => lba.setWidth 8
  | .lba1 => (lba >>> 8).setWidth 8
  | .lba2 => (lba >>> 16).setWidth 8
  | .command => command

theorem lbaOf_selected (lba : BitVec 32) (command : BitVec 8) :
    lbaOf (selected lba command) = lba.setWidth 28 := by
  rw [lbaOf]
  ext i hi
  simp only [selected, BitVec.getElem_append, BitVec.getElem_setWidth, BitVec.getLsbD_or]
  interval_cases i <;> simp

end OpenIDP.Drivers
