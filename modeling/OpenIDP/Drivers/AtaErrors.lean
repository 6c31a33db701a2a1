import OpenIDP.Drivers.Ata
import Mathlib.Data.Stream.Init

/-!
# Errors of the disk

`disk_read` and `disk_write` of `src/drivers/fatfs/diskio.c` have a result, and the file system
trusts it. `ata_read_sector` and `ata_write_sector` have none: they read the status of the drive and
print a message when it says that there is an error, and `RES_OK` is returned in any case. A drive
that does not answer is waited for.

The drive is described by all answers it will give, and it is watched: with every word that is
transferred goes whether the statuses since the command were those of a drive that is ready.

## Main definitions

* `Watched`, `watched` — a drive with the answers it will give, and what was transferred
* `ReadReported`, `WriteReported` — `RES_OK` is returned only for sectors that were transferred
* `ServesRead`, `ServesWrite` — the drive answers that it transfers a sector
* `Serves` — and some sectors, one after the other

## Main results

* `ataReadSector_watched`, `ataWriteSector_watched` — what happens for a sector
* `disk_reports_iff` — errors are reported by drives that have none
-/

namespace OpenIDP.Drivers

/-- Something that a drive transfers: a word, with whether the drive was ready; and the end of a
sector that was written, with whether there was no error. -/
inductive Transfer
  | read (lba : BitVec 28) (ready : Bool)
  | write (lba : BitVec 28) (ready : Bool)
  | written (fine : Bool)
deriving DecidableEq

/-- The last status has `ATA_SR_DRQ`, and no status that counts has `ATA_SR_ERR`. -/
def Ready (seen : List (BitVec 8)) : Prop :=
  (∃ last ∈ seen.getLast?, Drq last ∧ ¬Err last) ∧ ∀ status ∈ seen, ¬Bsy status → ¬Err status

instance (seen : List (BitVec 8)) : Decidable (Ready seen) :=
  inferInstanceAs (Decidable ((∃ last ∈ seen.getLast?, _) ∧ _))

/-- A drive: the statuses and the words that will be read, the registers, the statuses since the
command, whether it writes a sector to the disk, what was transferred, and the messages. -/
structure Watched where
  status : Stream' (BitVec 8)
  words : Stream' (BitVec 16)
  regs : AtaReg → BitVec 8
  seen : List (BitVec 8)
  flushing : Bool
  transfers : List Transfer
  messages : List String

namespace Watched

variable (d : Watched)

/-- The status is read. -/
def poll : Watched :=
  { d with
    status := d.status.tail
    seen := d.seen ++ [d.status.head]
    flushing := d.flushing && Bsy d.status.head
    transfers :=
      if d.flushing ∧ ¬Bsy d.status.head then d.transfers ++ [.written (¬Err d.status.head)]
      else d.transfers }

/-- A register is written. -/
def setReg (reg : AtaReg) (b : BitVec 8) : Watched :=
  if reg = .command then
    { d with regs := Function.update d.regs reg b, seen := [], flushing := b = 0xE7#8 }
  else { d with regs := Function.update d.regs reg b }

/-- The drive that will give these answers. -/
def answering (status : Stream' (BitVec 8)) (words : Stream' (BitVec 16)) : Watched where
  status := status
  words := words
  regs _ := 0
  seen := []
  flushing := false
  transfers := []
  messages := []

end Watched

/-- A drive that is watched. -/
def watched : Ports Watched where
  status d := (d.status.head, d.poll)
  outb := Watched.setReg
  inw d :=
    (d.words.head, { d with
      words := d.words.tail
      transfers := d.transfers ++ [.read (lbaOf d.regs) (Ready d.seen)] })
  outw d _ := { d with transfers := d.transfers ++ [.write (lbaOf d.regs) (Ready d.seen)] }
  serialPrintf d text := { d with messages := d.messages ++ [text] }

/-- The words of a sector are read from a drive that is ready. -/
def sectorRead (lba : BitVec 32) : List Transfer := .replicate 256 (.read (lba.setWidth 28) true)

/-- The words of a sector are written to a drive that is ready, and then there is no error. -/
def sectorWritten (lba : BitVec 32) : List Transfer :=
  .replicate 256 (.write (lba.setWidth 28) true) ++ [.written true]

/-- The sectors of a request, from sector `i`. -/
def allSectors (one : BitVec 32 → List Transfer) (sector : BitVec 32) : ℕ → ℕ → List Transfer
  | _, 0 => []
  | i, n + 1 => one (sector + BitVec.ofNat 32 i) ++ allSectors one sector (i + 1) n

section Reported

variable (status : Stream' (BitVec 8)) (words : Stream' (BitVec 16)) (mem : BitVec 64 → BitVec 8)
  (buff : BitVec 64) (sector count : BitVec 32)

/-- `disk_read` returns, and it returns `RES_OK` only if every sector was transferred. -/
def ReadReported : Prop :=
  ∃ fuel result m, diskRead watched fuel buff sector count ⟨mem, .answering status words⟩ =
    some (result, m) ∧
      (result = .ok → m.io.transfers = allSectors sectorRead sector 0 count.toNat)

/-- `disk_write` returns, and it returns `RES_OK` only if every sector was written. -/
def WriteReported : Prop :=
  ∃ fuel result m, diskWrite watched fuel buff sector count ⟨mem, .answering status words⟩ =
    some (result, m) ∧
      (result = .ok → m.io.transfers = allSectors sectorWritten sector 0 count.toNat)

end Reported

/-- `ATA_SR_BSY` is clear for the first time in answer `n`. -/
def BusyUntil (status : Stream' (BitVec 8)) (n : ℕ) : Prop :=
  (∀ i < n, Bsy (status.get i)) ∧ ¬Bsy (status.get n)

/-- `ATA_SR_DRQ` is set for the first time in answer `n`, and there is no error until then. -/
def DrqAt (status : Stream' (BitVec 8)) (n : ℕ) : Prop :=
  (∀ i < n, ¬Drq (status.get i) ∧ ¬Err (status.get i)) ∧ Drq (status.get n) ∧ ¬Err (status.get n)

/-- With `k` answers the drive gives a sector: when it is not busy any more it takes at most 100000
further answers until there is data, and it has no error. -/
def ServesRead (status : Stream' (BitVec 8)) (k : ℕ) : Prop :=
  ∃ n m, BusyUntil status n ∧ DrqAt (status.drop n) m ∧ m ≤ 100000 ∧ k = n + m + 1

/-- With `k` answers the drive takes a sector: at some time it is not busy any more, then it takes
data, and then it has written it without an error. -/
def ServesWrite (status : Stream' (BitVec 8)) (k : ℕ) : Prop :=
  ∃ n m l, BusyUntil status n ∧ DrqAt (status.drop (n + 1)) m ∧
    BusyUntil (status.drop (n + 1 + (m + 1))) l ∧
      ¬Err (status.get (n + 1 + (m + 1) + l)) ∧ k = n + 1 + (m + 1) + (l + 1)

/-- The answers are those for some sectors, one after the other. -/
def Serves (one : Stream' (BitVec 8) → ℕ → Prop) : ℕ → Stream' (BitVec 8) → Prop
  | 0, _ => True
  | n + 1, status => ∃ k, one status k ∧ Serves one n (status.drop k)

section Waiting

variable {d d' : Watched} {status : Stream' (BitVec 8)} {b : BitVec 8} {fuel timeout n m k : ℕ}

theorem BusyUntil.cons (hbusy : Bsy status.head) :
    BusyUntil status (n + 1) ↔ BusyUntil status.tail n := by
  refine and_congr_left fun _ => ⟨fun h i hi => h (i + 1) (Nat.succ_lt_succ hi), fun h i hi => ?_⟩
  cases i with
  | zero => exact hbusy
  | succ i => exact h i (Nat.lt_of_succ_lt_succ hi)

/-- A loop that waits for `ATA_SR_BSY` ends when it is clear for the first time. -/
theorem waitBsy_watched : waitBsy watched fuel d = some (b, d') ↔
    ∃ n < fuel, BusyUntil d.status n ∧ b = d.status.get n ∧ d' = Watched.poll^[n + 1] d := by
  induction fuel generalizing d with
  | zero => exact iff_of_false nofun fun ⟨n, hn, _⟩ => Nat.not_lt_zero n hn
  | succ fuel ih =>
    rw [waitBsy]
    dsimp only [watched]
    by_cases hbusy : Bsy d.status.head
    · rw [if_pos hbusy]
      refine ih.trans ⟨?_, ?_⟩
      · rintro ⟨n, hn, huntil, hb, hd⟩
        exact ⟨n + 1, Nat.succ_lt_succ hn, (BusyUntil.cons hbusy).mpr huntil, hb, hd⟩
      · rintro ⟨n, hn, huntil, hb, hd⟩
        cases n with
        | zero => exact absurd hbusy huntil.2
        | succ n =>
          exact ⟨n, Nat.lt_of_succ_lt_succ hn, (BusyUntil.cons hbusy).mp huntil, hb, hd⟩
    · rw [if_neg hbusy]
      constructor
      · intro heq
        cases heq
        exact ⟨0, Nat.succ_pos fuel, ⟨fun i hi => absurd hi (Nat.not_lt_zero i), hbusy⟩, rfl, rfl⟩
      · rintro ⟨n, hn, huntil, rfl, rfl⟩
        cases n with
        | zero => rfl
        | succ n => exact absurd (huntil.1 0 (Nat.succ_pos n)) hbusy

theorem BusyUntil.unique (h : BusyUntil status n) (h' : BusyUntil status m) : n = m := by
  rcases Nat.lt_trichotomy n m with hlt | heq | hgt
  · exact absurd (h'.1 n hlt) h.2
  · exact heq
  · exact absurd (h.1 m hgt) h'.2

theorem poll_eq (h : d.flushing = false ∨ Bsy d.status.head) :
    d.poll = { d with status := d.status.tail, seen := d.seen ++ [d.status.head] } := by
  have hnone : ¬(d.flushing ∧ ¬Bsy d.status.head) := fun hwritten =>
    h.elim (fun hflushing => absurd (hflushing.symm.trans hwritten.1) nofun) hwritten.2
  have hflushing : (d.flushing && decide (Bsy d.status.head)) = d.flushing := by
    rcases h with h | h
    · rw [h, Bool.false_and]
    · rw [decide_eq_true h, Bool.and_true]
  rw [Watched.poll, if_neg hnone, hflushing]

theorem poll_written (hflushing : d.flushing = true) (h : ¬Bsy d.status.head) :
    d.poll = { d with
      status := d.status.tail
      seen := d.seen ++ [d.status.head]
      flushing := false
      transfers := d.transfers ++ [.written (¬Err d.status.head)] } := by
  rw [Watched.poll, if_pos ⟨hflushing, h⟩, decide_eq_false h, Bool.and_false]

/-- Statuses that are read while no sector is finished. -/
theorem polls_eq (h : d.flushing = false ∨ ∀ i < n, Bsy (d.status.get i)) :
    Watched.poll^[n] d =
      { d with status := d.status.drop n, seen := d.seen ++ d.status.take n } := by
  induction n with
  | zero => rw [Stream'.take_zero, List.append_nil]; rfl
  | succ n ih =>
    have hearlier := ih (h.imp_right fun hbusy i hi => hbusy i (Nat.lt_succ_of_lt hi))
    rw [Function.iterate_succ_apply', hearlier]
    refine (poll_eq ?_).trans ?_
    · dsimp only
      rw [Stream'.head_drop]
      exact h.imp_right fun hbusy => hbusy n (Nat.lt_succ_self n)
    · dsimp only
      rw [Stream'.head_drop, Stream'.take_succ', Stream'.tail_drop', List.append_assoc]

/-- Statuses that are read until a sector was written to the disk. -/
theorem polls_written (hflushing : d.flushing = true) (huntil : BusyUntil d.status n) :
    Watched.poll^[n + 1] d =
      { d with
        status := d.status.drop (n + 1)
        seen := d.seen ++ d.status.take (n + 1)
        flushing := false
        transfers := d.transfers ++ [.written (¬Err (d.status.get n))] } := by
  rw [Function.iterate_succ_apply', polls_eq (Or.inr huntil.1)]
  refine Eq.trans (poll_written ?_ ?_) ?_
  · exact hflushing
  · dsimp only
    rw [Stream'.head_drop]
    exact huntil.2
  · dsimp only
    rw [Stream'.head_drop, Stream'.take_succ', Stream'.tail_drop', List.append_assoc]

/-- The second loop of `ata_wait` ends at the first status with `ATA_SR_DRQ` or an error, or when
it has looked long enough. -/
theorem waitDrq_watched (hflushing : d.flushing = false) :
    ∃ m ≤ timeout, ∃ messages, waitDrq watched timeout b d =
        { d with
          status := d.status.drop m
          seen := d.seen ++ d.status.take m
          messages := messages } ∧
      (∀ i < m, ¬Drq ((Stream'.cons b d.status).get i) ∧
        (0 < i → ¬Err ((Stream'.cons b d.status).get i))) ∧
        (m = timeout ∨ Drq ((Stream'.cons b d.status).get m) ∨
          0 < m ∧ Err ((Stream'.cons b d.status).get m)) := by
  induction timeout generalizing b d with
  | zero =>
    refine ⟨0, le_rfl, d.messages, ?_, fun i hi => absurd hi (Nat.not_lt_zero i), Or.inl rfl⟩
    rw [Stream'.take_zero, List.append_nil]
    rfl
  | succ timeout ih =>
    rw [waitDrq]
    by_cases hdrq : Drq b
    · rw [if_pos hdrq]
      refine ⟨0, Nat.zero_le _, d.messages, ?_, fun i hi => absurd hi (Nat.not_lt_zero i), ?_⟩
      · rw [Stream'.take_zero, List.append_nil]
        rfl
      · exact Or.inr (Or.inl hdrq)
    · -- there is no data yet, and the next status is read
      rw [if_neg hdrq]
      dsimp only [watched]
      rw [poll_eq (Or.inl hflushing)]
      by_cases herr : Err d.status.head
      · rw [if_pos herr]
        refine ⟨1, Nat.succ_le_succ (Nat.zero_le _), _, rfl, fun i hi => ?_, ?_⟩
        · rw [Nat.lt_one_iff.mp hi]
          exact ⟨hdrq, fun h => absurd h (Nat.lt_irrefl 0)⟩
        · exact Or.inr (Or.inr ⟨Nat.one_pos, herr⟩)
      · rw [if_neg herr]
        obtain ⟨m, hm, messages, heq, hearlier, hstop⟩ := @ih
          { d with status := d.status.tail, seen := d.seen ++ [d.status.head] } d.status.head
          hflushing
        dsimp only at heq hearlier hstop
        rw [Stream'.eta] at hearlier hstop
        refine ⟨m + 1, Nat.succ_le_succ hm, messages, heq.trans ?_, fun i hi => ?_, ?_⟩
        · rw [Stream'.take_succ, List.append_assoc]
          rfl
        · cases i with
          | zero => exact ⟨hdrq, fun h => absurd h (Nat.lt_irrefl 0)⟩
          | succ i =>
            obtain ⟨hnodata, hnoerr⟩ := hearlier i (Nat.lt_of_succ_lt_succ hi)
            refine ⟨hnodata, fun _ => ?_⟩
            rcases i.eq_zero_or_pos with rfl | hpos
            · exact herr
            · exact hnoerr hpos
        · exact hstop.imp (congrArg (· + 1)) (Or.imp_right fun h => ⟨Nat.succ_pos m, h.2⟩)

end Waiting

section Sector

variable {d d' : Watched} {status : Stream' (BitVec 8)} {fuel n m k : ℕ} {lba : BitVec 32}
  {command : BitVec 8} {buf : BitVec 64} {mem : BitVec 64 → BitVec 8} {m' : Machine Watched}

theorem sendCommand_watched (d : Watched) (lba : BitVec 32) (command : BitVec 8) :
    sendCommand watched lba command d =
      { d with regs := selected lba command, seen := [], flushing := command = 0xE7#8 } := by
  have hregs : (sendCommand watched lba command d).regs = selected lba command := by
    funext reg
    cases reg <;> rfl
  rw [← hregs]
  rfl

theorem readWords_watched (mem : BitVec 64 → BitVec 8) (buf : BitVec 64) (d : Watched) (n : ℕ) :
    ∃ mem', readWords watched buf n ⟨mem, d⟩ =
      ⟨mem', { d with
        words := d.words.drop n
        transfers := d.transfers ++ .replicate n (.read (lbaOf d.regs) (Ready d.seen)) }⟩ := by
  induction n with
  | zero => exact ⟨mem, by rw [List.replicate_zero, List.append_nil]; rfl⟩
  | succ n ih =>
    obtain ⟨mem', heq⟩ := ih
    refine ⟨storeWord mem' (wordAddr buf n) (d.words.get n), ?_⟩
    rw [readWords, heq]
    dsimp only [watched]
    rw [Stream'.head_drop, Stream'.tail_drop', List.append_assoc, List.replicate_succ']

theorem writeWords_watched (mem : BitVec 64 → BitVec 8) (buf : BitVec 64) (d : Watched) (n : ℕ) :
    writeWords watched mem buf n d =
      { d with
        transfers := d.transfers ++ .replicate n (.write (lbaOf d.regs) (Ready d.seen)) } := by
  induction n with
  | zero => rw [List.replicate_zero, List.append_nil]; rfl
  | succ n ih =>
    rw [writeWords, ih]
    dsimp only [watched]
    rw [List.append_assoc, List.replicate_succ']

theorem mem_take {α : Type} {a : α} {s : Stream' α} : a ∈ s.take n ↔ ∃ i < n, s.get i = a := by
  induction n with
  | zero => exact iff_of_false List.not_mem_nil fun ⟨i, hi, _⟩ => Nat.not_lt_zero i hi
  | succ n ih =>
    rw [Stream'.take_succ', List.mem_append, List.mem_singleton, ih, Nat.exists_lt_succ_right]
    exact or_congr_right eq_comm

/-- What the drive said until it was ready. -/
theorem ready_take (huntil : BusyUntil status n)
    (hearlier : ∀ i < m, ¬Drq (status.get (n + i)) ∧ (0 < i → ¬Err (status.get (n + i)))) :
    Ready (status.take (n + m + 1)) ↔ DrqAt (status.drop n) m := by
  have hlast : (status.take (n + m + 1)).getLast? = some (status.get (n + m)) := by
    rw [Stream'.take_succ', List.getLast?_concat]
  rw [Ready, hlast, DrqAt]
  simp only [Option.mem_some_iff, exists_eq_left', Stream'.get_drop, mem_take]
  constructor
  · rintro ⟨⟨hdrq, hnoerr⟩, hfine⟩
    refine ⟨fun i hi => ⟨(hearlier i hi).1, ?_⟩, hdrq, hnoerr⟩
    rcases i.eq_zero_or_pos with rfl | hpos
    · exact hfine _ ⟨n, by omega, rfl⟩ huntil.2
    · exact (hearlier i hi).2 hpos
  · rintro ⟨hbefore, hdrq, hnoerr⟩
    refine ⟨⟨hdrq, hnoerr⟩, ?_⟩
    rintro _ ⟨i, hi, rfl⟩ hidle
    -- answers before `n` were busy
    have hle : n ≤ i := not_lt.mp fun hlt => hidle (huntil.1 i hlt)
    obtain ⟨j, rfl⟩ := Nat.exists_eq_add_of_le hle
    rcases Nat.lt_or_ge j m with hlt | hge
    · exact (hbefore j hlt).2
    · obtain rfl : j = m := by omega
      exact hnoerr

theorem DrqAt.unique (h : DrqAt status n) (h' : DrqAt status m) : n = m := by
  rcases Nat.lt_trichotomy n m with hlt | heq | hgt
  · exact absurd h.2.1 (h'.1 n hlt).1
  · exact heq
  · exact absurd h'.2.1 (h.1 m hgt).1

/-- Waiting for a drive with data. -/
theorem ataWait_watched (hflushing : d.flushing = false) (hseen : d.seen = [])
    (h : ataWait watched fuel d = some d') :
    ∃ k messages, d' =
        { d with
          status := d.status.drop k, seen := d.status.take k, messages := messages } ∧
      ∀ k', ServesRead d.status k' ↔ Ready (d.status.take k) ∧ k' = k := by
  rw [ataWait, Option.map_eq_some_iff] at h
  obtain ⟨⟨b, d₁⟩, hwait, rfl⟩ := h
  obtain ⟨n, -, huntil, rfl, rfl⟩ := waitBsy_watched.mp hwait
  -- the second loop begins with the status that the first has ended with
  have hcons : Stream'.cons (d.status.get n) (d.status.drop (n + 1)) = d.status.drop n := by
    rw [← Stream'.head_drop, ← Stream'.tail_drop', Stream'.eta]
  rw [polls_eq (Or.inl hflushing)]
  obtain ⟨m, hm, messages, heq, hearlier, hstop⟩ := @waitDrq_watched { d with
      status := d.status.drop (n + 1), seen := d.seen ++ d.status.take (n + 1) }
      (d.status.get n) 100000 hflushing
  dsimp only at hearlier hstop
  rw [hcons] at hearlier hstop
  simp only [Stream'.get_drop] at hearlier hstop
  refine ⟨n + m + 1, messages, heq.trans ?_, fun k' => ?_⟩
  · rw [hseen, List.nil_append, Stream'.drop_drop, ← Stream'.take_add, Nat.add_right_comm]
  · rw [ready_take huntil hearlier]
    constructor
    · rintro ⟨n', m', huntil', hdrq, hm', rfl⟩
      obtain rfl := huntil'.unique huntil
      -- the loop did not stop before there was data, and did not go on behind it
      have hge : m' ≤ m := by
        refine not_lt.mp fun hlt => ?_
        have hbefore := hdrq.1 m hlt
        rw [Stream'.get_drop] at hbefore
        rcases hstop with rfl | hdata | ⟨-, herr⟩
        · exact absurd hm' (not_le.mpr hlt)
        · exact hbefore.1 hdata
        · exact hbefore.2 herr
      have hle : m ≤ m' := by
        refine not_lt.mp fun hlt => (hearlier m' hlt).1 ?_
        rw [← Stream'.get_drop]
        exact hdrq.2.1
      obtain rfl := le_antisymm hge hle
      exact ⟨hdrq, rfl⟩
    · rintro ⟨hdrq, rfl⟩
      exact ⟨n, m, huntil, hdrq, hm, rfl⟩

/-- Reading a sector. -/
theorem ataReadSector_watched
    (h : ataReadSector watched fuel lba buf ⟨mem, d⟩ = some m') :
    ∃ k ready, m'.io.status = d.status.drop k ∧ m'.io.flushing = false ∧
      m'.io.transfers = d.transfers ++ .replicate 256 (.read (lba.setWidth 28) ready) ∧
        ∀ k', ServesRead d.status k' ↔ ready = true ∧ k' = k := by
  rw [ataReadSector, sendCommand_watched, Option.map_eq_some_iff] at h
  obtain ⟨d₁, hwait, rfl⟩ := h
  obtain ⟨k, messages, hd₁, hserves⟩ := ataWait_watched rfl rfl hwait
  obtain ⟨mem', hwords⟩ := readWords_watched mem buf d₁ 256
  refine ⟨k, Ready (d.status.take k), ?_⟩
  rw [hwords, hd₁]
  dsimp only
  rw [lbaOf_selected]
  exact ⟨rfl, rfl, rfl, fun k' => (hserves k').trans (by rw [decide_eq_true_iff])⟩

/-- A drive that gives a sector is not waited for without end. -/
theorem ataReadSector_returns (hserves : ServesRead d.status k) (hfuel : k ≤ fuel) :
    ∃ m', ataReadSector watched fuel lba buf ⟨mem, d⟩ = some m' := by
  obtain ⟨n, m, huntil, -, -, rfl⟩ := hserves
  have hwait : waitBsy watched fuel (sendCommand watched lba 0x20#8 d) = some _ :=
    waitBsy_watched.mpr ⟨n, by omega, huntil, rfl, rfl⟩
  rw [ataReadSector, ataWait, hwait]
  exact ⟨_, rfl⟩

/-- The loop of `ata_write_sector` that waits for the drive ends at the first status with an error
or with `ATA_SR_DRQ`. -/
theorem waitWrite_watched {accepted : Bool} (hflushing : d.flushing = false)
    (h : waitWrite watched fuel d = some (accepted, d')) :
    ∃ m messages, d' =
        { d with
          status := d.status.drop (m + 1)
          seen := d.seen ++ d.status.take (m + 1)
          messages := messages } ∧
      (∀ i < m, ¬Drq (d.status.get i) ∧ ¬Err (d.status.get i)) ∧
        (accepted = true ∧ Drq (d.status.get m) ∧ ¬Err (d.status.get m) ∨
          accepted = false ∧ Err (d.status.get m)) := by
  induction fuel generalizing d with
  | zero => exact absurd h nofun
  | succ fuel ih =>
    rw [waitWrite] at h
    dsimp only [watched] at h
    rw [poll_eq (Or.inl hflushing)] at h
    by_cases herr : Err d.status.head
    · rw [if_pos herr] at h
      cases h
      exact ⟨0, _, rfl, fun i hi => absurd hi (Nat.not_lt_zero i), Or.inr ⟨rfl, herr⟩⟩
    · rw [if_neg herr] at h
      by_cases hdrq : Drq d.status.head
      · rw [if_pos hdrq] at h
        cases h
        exact ⟨0, d.messages, rfl, fun i hi => absurd hi (Nat.not_lt_zero i),
          Or.inl ⟨rfl, hdrq, herr⟩⟩
      · rw [if_neg hdrq] at h
        obtain ⟨m, messages, rfl, hearlier, hstop⟩ := @ih
          { d with status := d.status.tail, seen := d.seen ++ [d.status.head] } hflushing h
        refine ⟨m + 1, messages, ?_, fun i hi => ?_, hstop⟩
        · dsimp only
          rw [Stream'.take_succ (m + 1), List.append_assoc]
          rfl
        · cases i with
          | zero => exact ⟨hdrq, herr⟩
          | succ i => exact hearlier i (Nat.lt_of_succ_lt_succ hi)

theorem waitWrite_returns (hdrq : DrqAt d.status m) (hfuel : m < fuel) :
    ∃ d', waitWrite watched fuel d = some (true, d') ∧ d'.status = d.status.drop (m + 1) := by
  induction fuel generalizing d m with
  | zero => exact absurd hfuel (Nat.not_lt_zero m)
  | succ fuel ih =>
    rw [waitWrite]
    dsimp only [watched]
    cases m with
    | zero =>
      rw [if_neg hdrq.2.2, if_pos hdrq.2.1]
      exact ⟨_, rfl, rfl⟩
    | succ m =>
      obtain ⟨hnodata, hnoerr⟩ := hdrq.1 0 (Nat.succ_pos m)
      rw [if_neg hnoerr, if_neg hnodata]
      exact @ih d.poll m ⟨fun i hi => hdrq.1 (i + 1) (Nat.succ_lt_succ hi), hdrq.2⟩
        (Nat.lt_of_succ_lt_succ hfuel)

theorem DrqAt.ready (h : DrqAt status m) : Ready (status.take (m + 1)) := by
  rw [Ready, Stream'.take_succ', List.getLast?_concat, ← Stream'.take_succ']
  refine ⟨⟨_, rfl, h.2⟩, fun b hb _ => ?_⟩
  obtain ⟨i, hi, rfl⟩ := mem_take.mp hb
  rcases (Nat.lt_succ_iff.mp hi).lt_or_eq with hlt | rfl
  · exact (h.1 i hlt).2
  · exact h.2.2

/-- The words of a sector, and the end of it. -/
theorem flush_watched {b : BitVec 8} (hready : Ready d.seen)
    (h : waitBsy watched fuel
      (watched.outb (writeWords watched mem buf 256 d) .command 0xE7#8) = some (b, d')) :
    ∃ l, BusyUntil d.status l ∧ d'.status = d.status.drop (l + 1) ∧ d'.flushing = false ∧
      d'.transfers = d.transfers ++ (.replicate 256 (.write (lbaOf d.regs) true) ++
        [.written (¬Err (d.status.get l))]) := by
  rw [writeWords_watched, decide_eq_true hready] at h
  obtain ⟨l, -, huntil, rfl, rfl⟩ := waitBsy_watched.mp h
  refine ⟨l, huntil, ?_⟩
  rw [polls_written rfl huntil, ← List.append_assoc]
  exact ⟨rfl, rfl, rfl⟩

/-- Writing a sector. -/
theorem ataWriteSector_watched (hflushing : d.flushing = false)
    (h : ataWriteSector watched fuel lba buf ⟨mem, d⟩ = some m') :
    ∃ k transfers, m'.io.status = d.status.drop k ∧ m'.io.flushing = false ∧
      m'.io.transfers = d.transfers ++ transfers ∧
        transfers.length ≤ (sectorWritten lba).length ∧
          ∀ k', ServesWrite d.status k' ↔ transfers = sectorWritten lba ∧ k' = k := by
  rw [ataWriteSector, Option.bind_eq_bind, Option.bind_eq_some_iff] at h
  obtain ⟨⟨b, d₁⟩, hwait, h⟩ := h
  obtain ⟨n, -, huntil, rfl, rfl⟩ := waitBsy_watched.mp hwait
  dsimp only at h
  rw [polls_eq (Or.inl hflushing), sendCommand_watched, Option.bind_eq_bind,
    Option.bind_eq_some_iff] at h
  obtain ⟨⟨accepted, d₂⟩, hdrive, h⟩ := h
  obtain ⟨m, messages, hd₂, hearlier, hstop⟩ := waitWrite_watched rfl hdrive
  dsimp only at hd₂ hearlier hstop h
  have hstatus : d₂.status = d.status.drop (n + 1 + (m + 1)) := by
    rw [hd₂]
    exact Stream'.drop_drop (m + 1) (n + 1) d.status
  have htransfers : d₂.transfers = d.transfers := by rw [hd₂]
  have hregs : lbaOf d₂.regs = lba.setWidth 28 := by rw [hd₂, lbaOf_selected]
  rcases hstop with ⟨rfl, hdata⟩ | ⟨rfl, herr⟩
  · -- the drive takes the words
    have hdrq : DrqAt (d.status.drop (n + 1)) m := ⟨hearlier, hdata⟩
    have hready : Ready d₂.seen := by
      rw [hd₂]
      exact hdrq.ready
    rw [if_pos rfl, Option.bind_eq_some_iff] at h
    obtain ⟨⟨b, d₃⟩, hflush, h⟩ := h
    cases h
    obtain ⟨l, huntil', hd₃, hidle, hwords⟩ := flush_watched hready hflush
    rw [hstatus] at huntil' hd₃ hwords
    rw [htransfers, hregs, Stream'.get_drop] at hwords
    refine ⟨n + 1 + (m + 1) + (l + 1), _, ?_, hidle, hwords, ?_, fun k' => ?_⟩
    · rw [hd₃, Stream'.drop_drop]
    · simp only [sectorWritten, List.length_append, List.length_replicate, List.length_singleton,
        le_refl]
    · constructor
      · rintro ⟨n', m', l', huntil₁, hdrq', huntil₂, hnoerr, rfl⟩
        obtain rfl := huntil₁.unique huntil
        obtain rfl := hdrq'.unique hdrq
        obtain rfl := huntil₂.unique huntil'
        rw [sectorWritten, decide_eq_true hnoerr]
        exact ⟨rfl, rfl⟩
      · rintro ⟨heq, rfl⟩
        have hend := List.singleton_inj.mp (List.append_cancel_left heq)
        have hnoerr := of_decide_eq_true (Transfer.written.inj hend)
        exact ⟨n, m, l, huntil, hdrq, huntil', hnoerr, rfl⟩
  · -- there is an error
    rw [if_neg Bool.false_ne_true] at h
    cases h
    refine ⟨n + 1 + (m + 1), [], hstatus, ?_, ?_, Nat.zero_le _, fun k' => iff_of_false ?_ ?_⟩
    · rw [hd₂]
      rfl
    · rw [htransfers, List.append_nil]
    · rintro ⟨n', m', l, huntil', hdrq, -⟩
      obtain rfl := huntil'.unique huntil
      rcases lt_trichotomy m' m with hlt | rfl | hgt
      · exact (hearlier m' hlt).1 hdrq.2.1
      · exact hdrq.2.2 herr
      · exact (hdrq.1 m hgt).2 herr
    · rintro ⟨hnil, -⟩
      exact absurd hnil.symm (List.append_ne_nil_of_right_ne_nil _ (List.cons_ne_nil _ _))

/-- A drive that takes a sector is not waited for without end. -/
theorem ataWriteSector_returns (hflushing : d.flushing = false) (hserves : ServesWrite d.status k)
    (hfuel : k ≤ fuel) : ∃ m', ataWriteSector watched fuel lba buf ⟨mem, d⟩ = some m' := by
  obtain ⟨n, m, l, huntil, hdrq, huntil', -, rfl⟩ := hserves
  have hwait : waitBsy watched fuel d = some _ :=
    waitBsy_watched.mpr ⟨n, by omega, huntil, rfl, rfl⟩
  have hstatus : (sendCommand watched lba 0x30#8 (Watched.poll^[n + 1] d)).status =
      d.status.drop (n + 1) := by
    rw [polls_eq (Or.inl hflushing)]
    rfl
  have hdrive := waitWrite_returns (hstatus ▸ hdrq) (by omega : m < fuel)
  obtain ⟨d₂, hdrive, hd₂⟩ := hdrive
  rw [hstatus, Stream'.drop_drop] at hd₂
  have hflush : waitBsy watched fuel
      (watched.outb (writeWords watched mem buf 256 d₂) .command 0xE7#8) = some _ :=
    waitBsy_watched.mpr
      ⟨l, by omega, by rw [writeWords_watched]; exact hd₂ ▸ huntil', rfl, rfl⟩
  rw [ataWriteSector, hwait, Option.bind_eq_bind, Option.bind_some]
  dsimp only
  rw [hdrive, Option.bind_eq_bind, Option.bind_some]
  dsimp only
  rw [if_pos rfl, hflush]
  exact ⟨_, rfl⟩

end Sector

/-- What is known of a function for one sector: `serve` are the answers with which it transfers
`block`. -/
structure Transferring
    (one : ℕ → BitVec 32 → BitVec 64 → Machine Watched → Option (Machine Watched))
    (serve : Stream' (BitVec 8) → ℕ → Prop) (block : BitVec 32 → List Transfer) (size : ℕ) :
    Prop where
  length_block : ∀ lba, (block lba).length = size
  step : ∀ {fuel lba buf m m'}, m.io.flushing = false → one fuel lba buf m = some m' →
    ∃ k transfers, m'.io.status = m.io.status.drop k ∧ m'.io.flushing = false ∧
      m'.io.transfers = m.io.transfers ++ transfers ∧ transfers.length ≤ size ∧
        ∀ k', serve m.io.status k' ↔ transfers = block lba ∧ k' = k
  returns : ∀ {fuel k} lba buf {m}, m.io.flushing = false → serve m.io.status k → k ≤ fuel →
    ∃ m', one fuel lba buf m = some m'

theorem transferring_read :
    Transferring (ataReadSector watched) ServesRead sectorRead 256 where
  length_block _ := List.length_replicate
  step {fuel lba buf m m'} _ h := by
    obtain ⟨k, ready, hstatus, hidle, htransfers, hserves⟩ := ataReadSector_watched h
    refine ⟨k, _, hstatus, hidle, htransfers, List.length_replicate.le, fun k' => ?_⟩
    rw [hserves, sectorRead, List.replicate_right_inj (by decide), Transfer.read.injEq,
      eq_self_iff_true, true_and]
  returns _ _ _ _ := ataReadSector_returns

theorem transferring_write :
    Transferring (ataWriteSector watched) ServesWrite sectorWritten 257 where
  length_block _ := by rw [sectorWritten, List.length_append, List.length_replicate]; rfl
  step {fuel lba buf m m'} hidle h := by
    obtain ⟨k, transfers, hstatus, hidle', htransfers, hlength, hserves⟩ :=
      ataWriteSector_watched hidle h
    refine ⟨k, transfers, hstatus, hidle', htransfers, hlength.trans_eq ?_, hserves⟩
    rw [sectorWritten, List.length_append, List.length_replicate]
    rfl
  returns _ _ _ := ataWriteSector_returns

namespace Transferring

variable {one : ℕ → BitVec 32 → BitVec 64 → Machine Watched → Option (Machine Watched)}
  {serve : Stream' (BitVec 8) → ℕ → Prop} {block : BitVec 32 → List Transfer} {size fuel i n : ℕ}
  {buff : BitVec 64} {sector : BitVec 32} {m m' : Machine Watched}

theorem length_allSectors (h : Transferring one serve block size) (sector : BitVec 32) (i n : ℕ) :
    (allSectors block sector i n).length = size * n := by
  induction n generalizing i with
  | zero => rfl
  | succ n ih => rw [allSectors, List.length_append, h.length_block, ih, Nat.mul_succ, Nat.add_comm]

/-- What a request transfers, and what it needs to transfer all sectors. -/
theorem run (h : Transferring one serve block size) (hidle : m.io.flushing = false)
    (hrun : forSectors (one fuel) buff sector i n m = some m') :
    ∃ transfers, m'.io.transfers = m.io.transfers ++ transfers ∧ transfers.length ≤ size * n ∧
      (transfers = allSectors block sector i n → Serves serve n m.io.status) := by
  induction n generalizing i m with
  | zero =>
    cases hrun
    exact ⟨[], (List.append_nil _).symm, Nat.zero_le _, fun _ => trivial⟩
  | succ n ih =>
    rw [forSectors, Option.bind_eq_some_iff] at hrun
    obtain ⟨m₁, hone, hrest⟩ := hrun
    obtain ⟨k, first, hstatus, hidle₁, hfirst, hlength, hserve⟩ := h.step hidle hone
    obtain ⟨rest, hmore, hlengths, hserves⟩ := ih hidle₁ hrest
    refine ⟨first ++ rest, ?_, ?_, fun hall => ?_⟩
    · rw [hmore, hfirst, List.append_assoc]
    · rw [List.length_append, Nat.mul_succ, Nat.add_comm]
      exact Nat.add_le_add hlengths hlength
    · -- a sector that was not transferred is not made up for by the others
      have htotal := congrArg List.length hall
      rw [h.length_allSectors, List.length_append, Nat.mul_succ] at htotal
      rw [allSectors] at hall
      obtain ⟨hblock, hblocks⟩ := List.append_inj hall (by rw [h.length_block]; omega)
      exact ⟨k, (hserve k).mpr ⟨hblock, rfl⟩, hstatus ▸ hserves hblocks⟩

/-- With the right answers all sectors are transferred. -/
theorem complete (h : Transferring one serve block size) (buff : BitVec 64) (sector : BitVec 32)
    {status : Stream' (BitVec 8)}
    (hserves : Serves serve n status) :
    ∃ enough, ∀ fuel, enough ≤ fuel → ∀ i (m : Machine Watched), m.io.flushing = false →
      m.io.status = status → ∃ m', forSectors (one fuel) buff sector i n m = some m' ∧
        m'.io.transfers = m.io.transfers ++ allSectors block sector i n := by
  induction n generalizing status with
  | zero => exact ⟨0, fun fuel _ i m _ _ => ⟨m, rfl, (List.append_nil _).symm⟩⟩
  | succ n ih =>
    obtain ⟨k, hserve, hrest⟩ := hserves
    obtain ⟨enough, hrun⟩ := ih hrest
    refine ⟨max k enough, fun fuel hfuel i m hidle hstatus => ?_⟩
    have hserve₁ : serve m.io.status k := hstatus ▸ hserve
    obtain ⟨m₁, hone⟩ := h.returns (sector + BitVec.ofNat 32 i) (sectorAddr buff i) hidle hserve₁
      (le_of_max_le_left hfuel)
    obtain ⟨k', first, hstatus₁, hidle₁, hfirst, -, hblock⟩ := h.step hidle hone
    obtain ⟨rfl, rfl⟩ := (hblock k).mp hserve₁
    obtain ⟨m', hloop, hmore⟩ := hrun fuel (le_of_max_le_right hfuel) (i + 1) m₁ hidle₁
      (hstatus ▸ hstatus₁)
    refine ⟨m', ?_, ?_⟩
    · rw [forSectors, hone]
      exact hloop
    · rw [hmore, hfirst, List.append_assoc]
      rfl

/-- A request transfers all sectors if and only if the answers are right. -/
theorem transfers_iff (h : Transferring one serve block size) (hidle : m.io.flushing = false)
    (hnone : m.io.transfers = []) :
    (∃ fuel m', forSectors (one fuel) buff sector 0 n m = some m' ∧
      m'.io.transfers = allSectors block sector 0 n) ↔ Serves serve n m.io.status := by
  constructor
  · rintro ⟨fuel, m', hrun, hall⟩
    obtain ⟨transfers, htransfers, -, hserves⟩ := h.run hidle hrun
    rw [hnone, List.nil_append] at htransfers
    exact hserves (htransfers ▸ hall)
  · intro hserves
    obtain ⟨enough, hrun⟩ := h.complete buff sector hserves
    obtain ⟨m', hloop, hall⟩ := hrun enough le_rfl 0 m hidle rfl
    rw [hnone, List.nil_append] at hall
    exact ⟨enough, m', hloop, hall⟩

end Transferring

theorem ok_iff {runs : ℕ → Option (Machine Watched)} {all : Machine Watched → Prop} :
    (∃ fuel result m, (runs fuel).map (fun m₁ => (DResult.ok, m₁)) = some (result, m) ∧
      (result = .ok → all m)) ↔ ∃ fuel m, runs fuel = some m ∧ all m := by
  constructor
  · rintro ⟨fuel, result, m, hrun, hall⟩
    obtain ⟨m₁, hloop, heq⟩ := Option.map_eq_some_iff.mp hrun
    cases heq
    exact ⟨fuel, m, hloop, hall rfl⟩
  · rintro ⟨fuel, m, hloop, hall⟩
    exact ⟨fuel, .ok, m, by rw [hloop]; rfl, fun _ => hall⟩

section Reported

variable (status : Stream' (BitVec 8)) (words : Stream' (BitVec 16)) (mem : BitVec 64 → BitVec 8)
  (buff : BitVec 64) (sector count : BitVec 32)

theorem readReported_iff :
    ReadReported status words mem buff sector count ↔ Serves ServesRead count.toNat status :=
  ok_iff.trans (transferring_read.transfers_iff rfl rfl)

theorem writeReported_iff :
    WriteReported status words mem buff sector count ↔ Serves ServesWrite count.toNat status :=
  ok_iff.trans (transferring_write.transfers_iff rfl rfl)

end Reported

/-- **Errors of the disk.** `disk_read` and `disk_write` report errors, by another result than
`RES_OK`, if and only if the drive has none: if its answers are those that transfer every sector. -/
theorem disk_reports_iff (status : Stream' (BitVec 8)) (words : Stream' (BitVec 16))
    (mem : BitVec 64 → BitVec 8) (buff : BitVec 64) (sector count : BitVec 32) :
    (ReadReported status words mem buff sector count ↔ Serves ServesRead count.toNat status) ∧
      (WriteReported status words mem buff sector count ↔
        Serves ServesWrite count.toNat status) :=
  ⟨readReported_iff status words mem buff sector count,
    writeReported_iff status words mem buff sector count⟩

/-- A drive that only says that there is an error: `disk_read` gives what is at its data port. -/
theorem not_reported_error :
    ¬ReadReported (Stream'.const 0x01#8) (Stream'.const 0#16) (fun _ => 0) 0 0 1 := by
  rw [readReported_iff]
  rintro ⟨k, ⟨n, m, -, hdrq, -⟩, -⟩
  exact hdrq.2.2 (by decide : Err 0x01#8)

end OpenIDP.Drivers
