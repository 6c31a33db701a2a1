import OpenIDP.Math.Reaches
import OpenIDP.Math.RingBuffer
import Mathlib.Data.List.GetD

/-!
# The keyboard driver

The interrupt handler of `src/drivers/keyboard.c` keeps a flag for each kind of modifier, and makes
a packet of each other key that has a character: the character in the low byte, the modifiers
above it. Packets wait in a ring buffer that keeps one slot free, and `sys_read_key` of
`src/syscall/sys_io.c` takes them out. A read of an empty buffer gives 0.

A run consists of interrupts, with whatever the ports say, and of reads. Reading disables
interrupts, so neither happens within the other.

## Main definitions

* `Modifiers.decode` — the interrupt handler up to the packet
* `KeyboardDriver.bufferWrite`, `KeyboardDriver.keyboardReadKey` — the ring buffer
* `KeyboardLog`, `KeyboardStep` — a driver, and what was accepted and read

## Main results

* `Modifiers.decode_packet_ne` — no packet is 0
* `KeyboardDriver.Holds.bufferWrite`, `KeyboardDriver.Holds.keyboardReadKey` — the buffer is a queue
* `keyboard_fifo` — a run reads what was accepted, in order
-/

namespace OpenIDP.Drivers

open OpenIDP.Math

/-- `KEY_MOD_SHIFT` -/
def keyModShift : BitVec 16 := 0x0100

/-- `KEY_MOD_CTRL` -/
def keyModCtrl : BitVec 16 := 0x0200

/-- `KEY_MOD_ALT` -/
def keyModAlt : BitVec 16 := 0x0400

/-- `KEY_MOD_SUPER` -/
def keyModSuper : BitVec 16 := 0x0800

/-- `KEYBOARD_RING_BUFFER_SIZE` -/
def keyboardRingBufferSize : ℕ := 256

/-- `scancode_map`, up to its last entry that is not 0. -/
def scancodeMap : List Char :=
  ['\x00', '\x1b', '1', '2', '3', '4', '5', '6', '7', '8', '9', '0', '-', '=', '\x08',
    '\t', 'q', 'w', 'e', 'r', 't', 'y', 'u', 'i', 'o', 'p', '[', ']', '\n',
    '\x00', 'a', 's', 'd', 'f', 'g', 'h', 'j', 'k', 'l', ';', '\x27', '\x60', '\x00',
    '\x5c', 'z', 'x', 'c', 'v', 'b', 'n', 'm', ',', '.', '/', '\x00', '*', '\x00', ' ']

/-- `scancode_map_shifted`, up to its last entry that is not 0. -/
def scancodeMapShifted : List Char :=
  ['\x00', '\x1b', '!', '@', '#', '$', '%', '^', '&', '*', '(', ')', '_', '+', '\x08',
    '\t', 'Q', 'W', 'E', 'R', 'T', 'Y', 'U', 'I', 'O', 'P', '\x7b', '\x7d', '\n',
    '\x00', 'A', 'S', 'D', 'F', 'G', 'H', 'J', 'K', 'L', ':', '\x22', '~', '\x00',
    '|', 'Z', 'X', 'C', 'V', 'B', 'N', 'M', '<', '>', '?', '\x00', '*', '\x00', ' ']

/-- Reads an entry of one of the maps. -/
def lookup (map : List Char) (scancode : BitVec 8) : BitVec 8 :=
  BitVec.ofNat 8 (map.getD scancode.toNat '\x00').toNat

/-- The flags of the modifiers and of the prefix of extended codes. -/
structure Modifiers where
  modShift : Bool
  modCtrl : Bool
  modAlt : Bool
  modSuper : Bool
  e0Prefix : Bool
deriving DecidableEq

namespace Modifiers

/-- The flags at the start. -/
def init : Modifiers := ⟨false, false, false, false, false⟩

/-- The packet for a key with the characters `plain` and `shifted`. -/
def packet (m : Modifiers) (plain shifted : BitVec 8) : BitVec 16 :=
  let ascii := if m.modShift then shifted else plain
  let packet := ascii.setWidth 16
  let packet := if m.modShift then packet ||| keyModShift else packet
  let packet := if m.modCtrl then packet ||| keyModCtrl else packet
  let packet := if m.modAlt then packet ||| keyModAlt else packet
  if m.modSuper then packet ||| keyModSuper else packet

/-- The flags after a byte at which `keyboard_handler` returns early: the prefix, or a modifier. -/
def modifierKey (m : Modifiers) (scancode : BitVec 8) : Option Modifiers :=
  if scancode = 0xE0 then some { m with e0Prefix := true }
  else if scancode = 0x2A ∨ scancode = 0x36 then
    some { m with modShift := true, e0Prefix := false }
  else if scancode = 0xAA ∨ scancode = 0xB6 then
    some { m with modShift := false, e0Prefix := false }
  else if scancode = 0x1D then some { m with modCtrl := true, e0Prefix := false }
  else if scancode = 0x9D then some { m with modCtrl := false, e0Prefix := false }
  else if scancode = 0x38 then some { m with modAlt := true, e0Prefix := false }
  else if scancode = 0xB8 then some { m with modAlt := false, e0Prefix := false }
  else if m.e0Prefix ∧ scancode = 0x5B then some { m with modSuper := true, e0Prefix := false }
  else if m.e0Prefix ∧ scancode = 0xDB then some { m with modSuper := false, e0Prefix := false }
  else none

/-- The packet of a regular key. Released keys and extended ones have none. -/
def regularKey (m : Modifiers) (scancode : BitVec 8) : Option (BitVec 16) :=
  if scancode &&& 0x80 = 0 then
    if m.e0Prefix then none
    else if lookup scancodeMap scancode ≠ 0 then
      some (m.packet (lookup scancodeMap scancode) (lookup scancodeMapShifted scancode))
    else none
  else none

/-- `keyboard_handler` for a byte, up to the call of `keyboard_buffer_write`. -/
def decode (m : Modifiers) (scancode : BitVec 8) : Modifiers × Option (BitVec 16) :=
  match m.modifierKey scancode with
  | some m' => (m', none)
  | none => ({ m with e0Prefix := false }, m.regularKey scancode)

end Modifiers

/-- The variables of the driver. -/
structure KeyboardDriver where
  mods : Modifiers
  ringBuffer : ℕ → BitVec 16
  kbHead : ℕ
  kbTail : ℕ

namespace KeyboardDriver

/-- The driver at the start. -/
def init : KeyboardDriver := ⟨Modifiers.init, fun _ => 0, 0, 0⟩

/-- The slot behind another. -/
def nextSlot (i : ℕ) : ℕ := (i + 1) % keyboardRingBufferSize

/-- `keyboard_buffer_write` accepts a packet. -/
def Accepts (d : KeyboardDriver) : Prop := nextSlot d.kbHead ≠ d.kbTail

instance (d : KeyboardDriver) : Decidable d.Accepts := inferInstanceAs (Decidable (_ ≠ _))

/-- `keyboard_buffer_write` -/
def bufferWrite (d : KeyboardDriver) (data : BitVec 16) : KeyboardDriver :=
  if d.Accepts then
    { d with
      ringBuffer := Function.update d.ringBuffer d.kbHead data
      kbHead := nextSlot d.kbHead }
  else d

/-- `keyboard_read_key` -/
def keyboardReadKey (d : KeyboardDriver) : BitVec 16 × KeyboardDriver :=
  if d.kbHead = d.kbTail then (0, d)
  else (d.ringBuffer d.kbTail, { d with kbTail := nextSlot d.kbTail })

/-- The packet that `keyboard_handler` makes of what it reads from the two ports. -/
def packetOf (d : KeyboardDriver) (status scancode : BitVec 8) : Option (BitVec 16) :=
  if status &&& 0x01 ≠ 0 then (d.mods.decode scancode).2 else none

/-- `keyboard_handler` -/
def keyboardHandler (d : KeyboardDriver) (status scancode : BitVec 8) : KeyboardDriver :=
  if status &&& 0x01 ≠ 0 then
    let d' := { d with mods := (d.mods.decode scancode).1 }
    match (d.mods.decode scancode).2 with
    | some packet => d'.bufferWrite packet
    | none => d'
  else d

/-- `sys_read_key` of a task with `msgCount` messages. -/
def sysReadKey (d : KeyboardDriver) (msgCount : ℤ) : BitVec 16 × KeyboardDriver :=
  if 0 < msgCount then (0, d) else d.keyboardReadKey

end KeyboardDriver

/-! ## No packet is 0 -/

theorem lookup_shifted_ne :
    ∀ scancode : BitVec 8, lookup scancodeMap scancode ≠ 0 →
      lookup scancodeMapShifted scancode ≠ 0 := by
  decide +kernel

theorem Modifiers.packet_ne {m : Modifiers} {plain shifted : BitVec 8} (hplain : plain ≠ 0)
    (hshifted : shifted ≠ 0) : m.packet plain shifted ≠ 0 := by
  have hor : ∀ (c : Bool) (p flag : BitVec 16), p ≠ 0 → (if c then p ||| flag else p) ≠ 0 := by
    intro c p flag hp
    cases c with
    | false => exact hp
    | true => exact fun h => hp (BitVec.or_eq_zero_iff.mp h).1
  have hwide : ∀ c : BitVec 8, c ≠ 0 → c.setWidth 16 ≠ 0 := by
    decide +kernel
  refine hor _ _ _ (hor _ _ _ (hor _ _ _ (hor _ _ _ (hwide _ ?_))))
  split_ifs
  · exact hshifted
  · exact hplain

theorem Modifiers.regularKey_ne {m : Modifiers} {scancode : BitVec 8} {p : BitVec 16}
    (h : m.regularKey scancode = some p) : p ≠ 0 := by
  rw [regularKey] at h
  by_cases hpressed : scancode &&& 0x80 = 0
  · -- only a key of both maps makes a packet
    rw [if_pos hpressed] at h
    by_cases he0 : m.e0Prefix = true
    · rw [if_pos he0] at h
      exact absurd h (Option.some_ne_none p).symm
    · rw [if_neg he0] at h
      by_cases hmapped : lookup scancodeMap scancode ≠ 0
      · rw [if_pos hmapped] at h
        obtain rfl := Option.some_inj.mp h
        exact packet_ne hmapped (lookup_shifted_ne _ hmapped)
      · rw [if_neg hmapped] at h
        exact absurd h (Option.some_ne_none p).symm
  · rw [if_neg hpressed] at h
    exact absurd h (Option.some_ne_none p).symm

theorem Modifiers.decode_packet_ne {m : Modifiers} {scancode : BitVec 8} {p : BitVec 16}
    (h : (m.decode scancode).2 = some p) : p ≠ 0 := by
  rw [decode] at h
  cases hkey : m.modifierKey scancode with
  | some m' =>
    rw [hkey] at h
    exact absurd h (Option.some_ne_none p).symm
  | none =>
    rw [hkey] at h
    exact regularKey_ne h

/-! ## The buffer is a queue -/

namespace KeyboardDriver

variable {d : KeyboardDriver} {unread : List (BitVec 16)}

/-- The buffer holds the packets `unread`, oldest first, and one slot is free. -/
structure Holds (d : KeyboardDriver) (unread : List (BitVec 16)) : Prop where
  room : unread.length < keyboardRingBufferSize
  tail_lt : d.kbTail < keyboardRingBufferSize
  head_eq : d.kbHead = (d.kbTail + unread.length) % keyboardRingBufferSize
  unread_eq : unread = contents d.ringBuffer keyboardRingBufferSize d.kbTail unread.length

theorem Holds.init : init.Holds [] := ⟨by decide, by decide, rfl, rfl⟩

theorem Holds.head_lt (h : d.Holds unread) : d.kbHead < keyboardRingBufferSize := by
  rw [h.head_eq]
  exact Nat.mod_lt _ (by decide)

/-- The indices meet when the buffer is empty. -/
theorem Holds.empty_iff (h : d.Holds unread) : d.kbHead = d.kbTail ↔ unread = [] := by
  have hroom := h.room
  have htail := h.tail_lt
  have hsize : keyboardRingBufferSize = 256 := rfl
  rw [h.head_eq, ← List.length_eq_zero_iff]
  rw [hsize] at hroom htail ⊢
  omega

/-- A packet is refused when only the free slot is left. -/
theorem Holds.accepts_iff (h : d.Holds unread) :
    d.Accepts ↔ unread.length ≠ keyboardRingBufferSize - 1 := by
  have hroom := h.room
  have htail := h.tail_lt
  have hsize : keyboardRingBufferSize = 256 := rfl
  rw [Accepts, nextSlot, h.head_eq]
  rw [hsize] at hroom htail ⊢
  omega

theorem Holds.bufferWrite (h : d.Holds unread) (data : BitVec 16) :
    (d.bufferWrite data).Holds (if d.Accepts then unread ++ [data] else unread) := by
  rw [KeyboardDriver.bufferWrite]
  split_ifs with haccepts
  · have hnot := h.accepts_iff.mp haccepts
    have hroom := h.room
    have hsize : keyboardRingBufferSize = 256 := rfl
    refine ⟨?_, h.tail_lt, ?_, ?_⟩
    · rw [List.length_append, List.length_singleton]
      omega
    · change nextSlot d.kbHead = _
      rw [nextSlot, h.head_eq, List.length_append, List.length_singleton, Nat.mod_add_mod,
        Nat.add_assoc]
    · rw [List.length_append, List.length_singleton]
      dsimp only
      rw [h.head_eq, contents_push hroom, ← h.unread_eq]
  · exact h

theorem Holds.keyboardReadKey {p : BitVec 16} (h : d.Holds (p :: unread)) :
    d.keyboardReadKey.1 = p ∧ d.keyboardReadKey.2.Holds unread := by
  have hnot : d.kbHead ≠ d.kbTail := fun heq => List.cons_ne_nil p unread (h.empty_iff.mp heq)
  have hroom := h.room
  rw [List.length_cons] at hroom
  have hall := h.unread_eq
  rw [List.length_cons, contents_pop h.tail_lt] at hall
  obtain ⟨hfirst, hrest⟩ := List.cons.inj hall
  rw [KeyboardDriver.keyboardReadKey, if_neg hnot]
  refine ⟨hfirst.symm, (Nat.lt_succ_self _).trans hroom, Nat.mod_lt _ (by decide), ?_, hrest⟩
  rw [h.head_eq, List.length_cons, nextSlot, Nat.mod_add_mod]
  congr 1
  omega

/-- A read of an empty buffer gives 0 and changes nothing. -/
theorem Holds.keyboardReadKey_empty (h : d.Holds []) : d.keyboardReadKey = (0, d) := by
  rw [KeyboardDriver.keyboardReadKey, if_pos (h.empty_iff.mpr rfl)]

end KeyboardDriver

/-! ## Runs -/

/-- A driver, with the packets that were accepted and the values that were read and are not 0. -/
structure KeyboardLog where
  driver : KeyboardDriver
  accepted : List (BitVec 16)
  read : List (BitVec 16)

/-- No key was pressed. -/
def KeyboardLog.start : KeyboardLog := ⟨KeyboardDriver.init, [], []⟩

/-- The packets that an interrupt puts into the buffer. -/
def KeyboardDriver.stored (d : KeyboardDriver) (status scancode : BitVec 8) :
    List (BitVec 16) :=
  if d.Accepts then (d.packetOf status scancode).toList else []

/-- What happened in a step. -/
inductive KeyboardEvent
  | interrupt (status scancode : BitVec 8)
  | readKey (value : BitVec 16)
  | sysReadKey (msgCount : ℤ) (value : BitVec 16)

/-- One step: an interrupt, or a read, by itself or in the system call. -/
inductive KeyboardStep : KeyboardLog → KeyboardEvent → KeyboardLog → Prop
  | interrupt {k : KeyboardLog} (status scancode : BitVec 8) :
      KeyboardStep k (.interrupt status scancode)
        { k with
          driver := k.driver.keyboardHandler status scancode
          accepted := k.accepted ++ k.driver.stored status scancode }
  | readKey {k : KeyboardLog} {value : BitVec 16} {driver : KeyboardDriver}
      (h : k.driver.keyboardReadKey = (value, driver)) :
      KeyboardStep k (.readKey value)
        { k with driver := driver, read := k.read ++ if value = 0 then [] else [value] }
  | sysReadKey {k : KeyboardLog} {msgCount : ℤ} {value : BitVec 16} {driver : KeyboardDriver}
      (h : k.driver.sysReadKey msgCount = (value, driver)) :
      KeyboardStep k (.sysReadKey msgCount value)
        { k with driver := driver, read := k.read ++ if value = 0 then [] else [value] }

/-- The number of packets that were accepted and are not read. -/
def KeyboardLog.pending (k : KeyboardLog) : ℕ := k.accepted.length - k.read.length

/-- What was read is in order a prefix of what was accepted. A packet would be refused when all
slots but one are taken, and a read would give 0 when there is nothing to read. -/
structure KeyboardLog.Lossless (k : KeyboardLog) : Prop where
  in_order : k.read <+: k.accepted
  indices : k.driver.kbHead < keyboardRingBufferSize ∧ k.driver.kbTail < keyboardRingBufferSize
  dropped_iff : ¬ k.driver.Accepts ↔ k.pending = keyboardRingBufferSize - 1
  next : k.driver.keyboardReadKey.1 = (k.accepted.getD k.read.length 0)
  zero_iff : k.driver.keyboardReadKey.1 = 0 ↔ k.pending = 0
  packet_ne : ∀ status scancode, k.driver.packetOf status scancode ≠ some 0

section Runs

variable {k k' : KeyboardLog} {e : KeyboardEvent}

/-- The unread packets are in the buffer, and none of them is 0. -/
structure KeyboardLog.Inv (k : KeyboardLog) (unread : List (BitVec 16)) : Prop where
  holds : k.driver.Holds unread
  unread_ne : ∀ p ∈ unread, p ≠ 0
  accepted_eq : k.accepted = k.read ++ unread

theorem KeyboardDriver.packetOf_ne {d : KeyboardDriver} {status scancode : BitVec 8}
    {p : BitVec 16} (h : d.packetOf status scancode = some p) : p ≠ 0 := by
  rw [packetOf] at h
  split_ifs at h
  exact Modifiers.decode_packet_ne h

/-- An interrupt appends the packet that it stores. -/
theorem KeyboardDriver.Holds.keyboardHandler {d : KeyboardDriver} {unread : List (BitVec 16)}
    (h : d.Holds unread) (status scancode : BitVec 8) :
    (d.keyboardHandler status scancode).Holds (unread ++ d.stored status scancode) := by
  have hmods : ∀ mods : Modifiers, { d with mods := mods }.Holds unread :=
    fun mods => ⟨h.room, h.tail_lt, h.head_eq, h.unread_eq⟩
  rw [KeyboardDriver.keyboardHandler, stored, packetOf]
  by_cases hstatus : status &&& 0x01 ≠ 0
  · rw [if_pos hstatus, if_pos hstatus]
    cases hpacket : (d.mods.decode scancode).2 with
    | none =>
      rw [Option.toList_none, ite_self, List.append_nil]
      exact hmods _
    | some p =>
      have hwrite := (hmods (d.mods.decode scancode).1).bufferWrite p
      change Holds _ (if d.Accepts then unread ++ [p] else unread) at hwrite
      by_cases haccepts : d.Accepts
      · rw [if_pos haccepts, Option.toList_some]
        rwa [if_pos haccepts] at hwrite
      · rw [if_neg haccepts, List.append_nil]
        rwa [if_neg haccepts] at hwrite
  · rw [if_neg hstatus, if_neg hstatus, Option.toList_none, ite_self, List.append_nil]
    exact h

/-- A read takes the oldest packet. -/
theorem KeyboardLog.Inv.read {unread : List (BitVec 16)} {value : BitVec 16}
    {driver : KeyboardDriver} (h : k.Inv unread)
    (hread : k.driver.keyboardReadKey = (value, driver)) :
    ∃ rest, KeyboardLog.Inv
      { k with driver := driver, read := k.read ++ if value = 0 then [] else [value] } rest := by
  cases unread with
  | nil =>
    -- the value is 0, and is not counted as read
    rw [h.holds.keyboardReadKey_empty] at hread
    obtain ⟨rfl, rfl⟩ := Prod.mk.inj hread
    refine ⟨[], h.holds, h.unread_ne, ?_⟩
    rw [if_pos rfl, List.append_nil]
    exact h.accepted_eq
  | cons p rest =>
    obtain ⟨hfirst, hrest⟩ := h.holds.keyboardReadKey
    rw [hread] at hfirst hrest
    obtain rfl : value = p := hfirst
    refine ⟨rest, hrest, fun q hq => h.unread_ne q (List.mem_cons_of_mem _ hq), ?_⟩
    rw [if_neg (h.unread_ne value List.mem_cons_self), List.append_assoc, List.singleton_append]
    exact h.accepted_eq

/-- Every step keeps the invariant. -/
theorem KeyboardLog.Inv.step {unread : List (BitVec 16)} (h : k.Inv unread)
    (hstep : KeyboardStep k e k') : ∃ rest, k'.Inv rest := by
  cases hstep with
  | interrupt status scancode =>
    refine ⟨unread ++ k.driver.stored status scancode, h.holds.keyboardHandler status scancode,
      fun p hp => ?_, ?_⟩
    · rcases List.mem_append.mp hp with hp | hp
      · exact h.unread_ne p hp
      · rw [KeyboardDriver.stored] at hp
        split_ifs at hp
        · exact KeyboardDriver.packetOf_ne (Option.mem_toList.mp hp)
        · exact absurd hp List.not_mem_nil
    · rw [h.accepted_eq, List.append_assoc]
  | readKey hread => exact h.read hread
  | @sysReadKey msgCount value driver hread =>
    rw [KeyboardDriver.sysReadKey] at hread
    split_ifs at hread
    · -- a task with messages does not look at the buffer
      obtain ⟨rfl, rfl⟩ := Prod.mk.inj hread
      refine ⟨unread, h.holds, h.unread_ne, ?_⟩
      rw [if_pos rfl, List.append_nil]
      exact h.accepted_eq
    · exact h.read hread

theorem KeyboardLog.Inv.lossless {unread : List (BitVec 16)} (h : k.Inv unread) :
    k.Lossless := by
  have hpending : k.pending = unread.length := by
    rw [KeyboardLog.pending, h.accepted_eq, List.length_append, Nat.add_sub_cancel_left]
  have hnext : k.driver.keyboardReadKey.1 = unread.headD 0 := by
    cases unread with
    | nil => rw [h.holds.keyboardReadKey_empty, List.headD_nil]
    | cons p rest => rw [h.holds.keyboardReadKey.1, List.headD_cons]
  refine ⟨⟨unread, h.accepted_eq.symm⟩, ⟨h.holds.head_lt, h.holds.tail_lt⟩, ?_, ?_, ?_, ?_⟩
  · rw [hpending, h.holds.accepts_iff, not_not]
  · rw [hnext, h.accepted_eq, List.getD_append_right _ _ _ _ le_rfl, Nat.sub_self]
    cases unread with
    | nil => rfl
    | cons p rest => rfl
  · rw [hnext, hpending]
    cases unread with
    | nil => exact iff_of_true rfl rfl
    | cons p rest =>
      exact iff_of_false (h.unread_ne p List.mem_cons_self) (Nat.succ_ne_zero _)
  · exact fun status scancode hzero => KeyboardDriver.packetOf_ne hzero rfl

/-- In every state of every run, what was read is what was accepted, in order. -/
theorem keyboard_fifo {history : List KeyboardEvent}
    (run : Reaches KeyboardStep KeyboardLog.start history k) : k.Lossless := by
  have hinv : ∃ unread, k.Inv unread :=
    run.invariant_state (I := fun k => ∃ unread, KeyboardLog.Inv k unread)
      ⟨[], KeyboardDriver.Holds.init, fun _ hp => absurd hp List.not_mem_nil, rfl⟩
      fun _ _ _ h hstep => h.elim fun _ h => h.step hstep
  obtain ⟨unread, h⟩ := hinv
  exact h.lossless

/-- The keys `a`, `b` and `c` are pressed, and the first two are read. -/
theorem keyboard_fifo_sample :
    ∃ k : KeyboardLog, k.accepted = [97, 98, 99] ∧ k.read = [97, 98] ∧ k.Lossless := by
  have run : Reaches KeyboardStep KeyboardLog.start
      [.readKey 98, .interrupt 1 0x2E, .readKey 97, .interrupt 1 0x30, .interrupt 1 0x1E] _ :=
    ((((Reaches.start.snoc (.interrupt 1 0x1E)).snoc (.interrupt 1 0x30)).snoc
      (.readKey rfl)).snoc (.interrupt 1 0x2E)).snoc (.readKey rfl)
  exact ⟨_, by decide, by decide, keyboard_fifo run⟩

end Runs

end OpenIDP.Drivers
