import Mathlib.Data.BitVec
import Mathlib.Logic.Function.Basic

/-!
# Segments and interrupt gates

`src/descriptors/gdt.c` and `idt.c` fill in the tables in which the processor looks up segments and
the entries of the kernel, with the addresses of the `TSS` and of the stubs in pieces. The processor
is described by what it reads of an entry, and by the checks that it makes before it enters the
kernel.

## Main definitions

* `gdtInit`, `idtInit` — the tables as the kernel fills them in
* `segmentOf`, `gateOf`, `tssBaseOf` — an entry as the processor reads it
* `Tables.enter`, `Tables.int` — an interrupt, and the instruction `int`

## Main results

* `tssBaseOf_tssEntry`, `gateOf_idtSetDescriptor` — an entry is read as it was written
* `enters_kernel` — what an interrupt enters, and what a program can enter with `int`
-/

namespace OpenIDP.Descriptors

/-! ## Fields of a number -/

section Fields

variable {k j : ℕ}

/-- A field that is shifted down and masked. -/
theorem setWidth_shift_mask (x mask : BitVec 64) (hmask : mask.toNat = 2 ^ j - 1) :
    ((x >>> k) &&& mask).setWidth j = x.extractLsb' k j := by
  apply BitVec.eq_of_toNat_eq
  rw [BitVec.toNat_setWidth, BitVec.toNat_and, hmask, Nat.and_two_pow_sub_one_eq_mod,
    Nat.mod_mod, BitVec.toNat_ushiftRight, BitVec.extractLsb'_toNat]

/-- The lowest field needs no shift. -/
theorem setWidth_mask (x mask : BitVec 64) (hmask : mask.toNat = 2 ^ j - 1) :
    (x &&& mask).setWidth j = x.extractLsb' 0 j := by
  have h := setWidth_shift_mask (k := 0) x mask hmask
  rwa [BitVec.ushiftRight_zero] at h

end Fields

/-! ## Segments -/

/-- `KERNEL_CS` -/
def kernelCs : BitVec 16 := 0x08#16

/-- `GDT_KERNEL_CODE` -/
def gdtKernelCode : BitVec 8 := 0x9A#8

/-- `GDT_KERNEL_DATA` -/
def gdtKernelData : BitVec 8 := 0x92#8

/-- `GDT_USER_CODE` -/
def gdtUserCode : BitVec 8 := 0xFA#8

/-- `GDT_USER_DATA` -/
def gdtUserData : BitVec 8 := 0xF2#8

/-- `GDT_FLAGS_CODE` -/
def gdtFlagsCode : BitVec 8 := 0x20#8

/-- `struct gdt_entry` -/
structure GdtEntry where
  limitLow : BitVec 16
  baseLow : BitVec 16
  baseMiddle : BitVec 8
  access : BitVec 8
  granularity : BitVec 8
  baseHigh : BitVec 8

/-- The entry as a number, its first byte lowest. -/
def GdtEntry.bits (e : GdtEntry) : BitVec 64 :=
  e.baseHigh ++ (e.granularity ++ (e.access ++ (e.baseMiddle ++ (e.baseLow ++ e.limitLow))))

/-- `gdt_set_entry`: what is stored. -/
def gdtSetEntry (access flags : BitVec 8) : GdtEntry where
  limitLow := 0
  baseLow := 0
  baseMiddle := 0
  access := access
  granularity := flags
  baseHigh := 0

/-- `sizeof(tss) - 1` -/
def tssLimit : BitVec 64 := 103#64

/-- The lower half of the entry of the `TSS`. -/
def tssEntry (tss : BitVec 64) : GdtEntry where
  limitLow := (tssLimit &&& 0xFFFF#64).setWidth 16
  baseLow := (tss &&& 0xFFFF#64).setWidth 16
  baseMiddle := ((tss >>> 16) &&& 0xFF#64).setWidth 8
  access := 0x89#8
  granularity := 0
  baseHigh := ((tss >>> 24) &&& 0xFF#64).setWidth 8

/-- `gdt_init`: the table, with the address of the `TSS`. -/
def gdtInit (tss : BitVec 64) : List (BitVec 64) :=
  [(gdtSetEntry 0x00#8 0x00#8).bits,
    (gdtSetEntry gdtKernelCode gdtFlagsCode).bits,
    (gdtSetEntry gdtKernelData 0x00#8).bits,
    (gdtSetEntry gdtUserCode gdtFlagsCode).bits,
    (gdtSetEntry gdtUserData 0x00#8).bits,
    (tssEntry tss).bits,
    tss >>> 32]

/-- What the processor reads of the entry of a segment. -/
structure Segment where
  present : BitVec 1
  dpl : BitVec 2
  type : BitVec 2
  long : BitVec 1
deriving DecidableEq

/-- An entry as the processor reads it. The type of a code segment is 3. -/
def segmentOf (w : BitVec 64) : Segment where
  present := w.extractLsb' 47 1
  dpl := w.extractLsb' 45 2
  type := w.extractLsb' 43 2
  long := w.extractLsb' 53 1

/-- The address in the two entries of a `TSS`. -/
def tssBaseOf (low high : BitVec 64) : BitVec 64 :=
  high.extractLsb' 0 32 ++ (low.extractLsb' 56 8 ++ (low.extractLsb' 32 8 ++ low.extractLsb' 16 16))

/-- The address in an entry, from its fields. -/
theorem tssBaseOf_bits (e : GdtEntry) (high : BitVec 64) :
    tssBaseOf e.bits high =
      high.extractLsb' 0 32 ++ (e.baseHigh ++ (e.baseMiddle ++ e.baseLow)) := by
  simp (disch := decide) only [tssBaseOf, GdtEntry.bits, BitVec.extractLsb'_append_eq_of_add_le,
    BitVec.extractLsb'_append_eq_of_le]
  simp only [BitVec.extractLsb'_eq_self, Nat.reduceAdd, Nat.reduceSub]

/-- The processor finds the `TSS`, wherever it is. -/
theorem tssBaseOf_tssEntry (tss : BitVec 64) :
    tssBaseOf (tssEntry tss).bits (tss >>> 32) = tss := by
  have hhigh : (tss >>> 32).extractLsb' 0 32 = tss.extractLsb' 32 32 := by
    ext i hi
    simp
  -- the pieces are put together from the lowest one on
  have hlow : tss.extractLsb' 16 8 ++ tss.extractLsb' 0 16 = tss.extractLsb' 0 24 :=
    BitVec.extractLsb'_append_extractLsb'_eq_extractLsb' rfl
  have hmid : tss.extractLsb' 24 8 ++ tss.extractLsb' 0 24 = tss.extractLsb' 0 32 :=
    BitVec.extractLsb'_append_extractLsb'_eq_extractLsb' rfl
  have hall : tss.extractLsb' 32 32 ++ tss.extractLsb' 0 32 = tss :=
    (BitVec.extractLsb'_append_extractLsb'_eq_extractLsb' rfl).trans BitVec.extractLsb'_eq_self
  rw [tssBaseOf_bits, hhigh]
  change tss.extractLsb' 32 32 ++ (((tss >>> 24) &&& 0xFF#64).setWidth 8 ++
    (((tss >>> 16) &&& 0xFF#64).setWidth 8 ++ (tss &&& 0xFFFF#64).setWidth 16)) = tss
  rw [setWidth_mask tss 0xFFFF#64 (by decide), setWidth_shift_mask tss 0xFF#64 (by decide),
    setWidth_shift_mask tss 0xFF#64 (by decide)]
  exact (congrArg (tss.extractLsb' 32 32 ++ ·)
    ((congrArg (tss.extractLsb' 24 8 ++ ·) hlow).trans hmid)).trans hall

/-! ## Gates -/

/-- `IDT_INTERRUPT_GATE` -/
def idtInterruptGate : BitVec 8 := 0x8E#8

/-- `IDT_USER_INTERRUPT` -/
def idtUserInterrupt : BitVec 8 := 0xEE#8

/-- `idt_entry_t` -/
structure IdtEntry where
  isrLow : BitVec 16
  kernelCs : BitVec 16
  ist : BitVec 8
  attributes : BitVec 8
  isrMid : BitVec 16
  isrHigh : BitVec 32
  reserved : BitVec 32

/-- The entry as a number, its first byte lowest. -/
def IdtEntry.bits (e : IdtEntry) : BitVec 128 :=
  e.reserved ++ (e.isrHigh ++ (e.isrMid ++ (e.attributes ++ (e.ist ++ (e.kernelCs ++ e.isrLow)))))

/-- An entry that was never set. -/
def idtZero : IdtEntry := ⟨0, 0, 0, 0, 0, 0, 0⟩

/-- `idt_set_descriptor`: what is stored. -/
def idtSetDescriptor (isr : BitVec 64) (flags : BitVec 8) : IdtEntry where
  isrLow := (isr &&& 0xFFFF#64).setWidth 16
  kernelCs := kernelCs
  ist := 0
  attributes := flags
  isrMid := ((isr >>> 16) &&& 0xFFFF#64).setWidth 16
  isrHigh := ((isr >>> 32) &&& 0xFFFFFFFF#64).setWidth 32
  reserved := 0

/-- What the processor reads of a gate. -/
structure Gate where
  offset : BitVec 64
  selector : BitVec 16
  type : BitVec 5
  dpl : BitVec 2
  present : BitVec 1
deriving DecidableEq

/-- An entry as the processor reads it. The type of an interrupt gate is 14. -/
def gateOf (w : BitVec 128) : Gate where
  offset := w.extractLsb' 64 32 ++ (w.extractLsb' 48 16 ++ w.extractLsb' 0 16)
  selector := w.extractLsb' 16 16
  type := w.extractLsb' 40 5
  dpl := w.extractLsb' 45 2
  present := w.extractLsb' 47 1

/-- The fields of an entry, where the processor reads them. -/
theorem gateOf_bits (e : IdtEntry) :
    gateOf e.bits =
      { offset := e.isrHigh ++ (e.isrMid ++ e.isrLow)
        selector := e.kernelCs
        type := e.attributes.extractLsb' 0 5
        dpl := e.attributes.extractLsb' 5 2
        present := e.attributes.extractLsb' 7 1 } := by
  simp (disch := decide) only [gateOf, IdtEntry.bits, BitVec.extractLsb'_append_eq_of_add_le,
    BitVec.extractLsb'_append_eq_of_le]
  simp only [BitVec.extractLsb'_eq_self, Nat.reduceAdd, Nat.reduceSub]

/-- An entry is read as it was written, for every stub. -/
theorem gateOf_idtSetDescriptor (isr : BitVec 64) (flags : BitVec 8) :
    gateOf (idtSetDescriptor isr flags).bits =
      { offset := isr
        selector := kernelCs
        type := flags.extractLsb' 0 5
        dpl := flags.extractLsb' 5 2
        present := flags.extractLsb' 7 1 } := by
  have hlow : isr.extractLsb' 16 16 ++ isr.extractLsb' 0 16 = isr.extractLsb' 0 32 :=
    BitVec.extractLsb'_append_extractLsb'_eq_extractLsb' rfl
  have hall : isr.extractLsb' 32 32 ++ isr.extractLsb' 0 32 = isr :=
    (BitVec.extractLsb'_append_extractLsb'_eq_extractLsb' rfl).trans BitVec.extractLsb'_eq_self
  have hoffset : ((isr >>> 32) &&& 0xFFFFFFFF#64).setWidth 32 ++
      (((isr >>> 16) &&& 0xFFFF#64).setWidth 16 ++ (isr &&& 0xFFFF#64).setWidth 16) = isr := by
    rw [setWidth_mask isr 0xFFFF#64 (by decide), setWidth_shift_mask isr 0xFFFF#64 (by decide),
      setWidth_shift_mask isr 0xFFFFFFFF#64 (by decide)]
    exact (congrArg (isr.extractLsb' 32 32 ++ ·) hlow).trans hall
  rw [gateOf_bits]
  exact congrArg (fun offset => Gate.mk offset _ _ _ _) hoffset

/-! ## The tables of the kernel -/

/-- The entries `first`, ..., `first + n - 1` are set, one after the other. -/
def idtSetAll (idt : ℕ → IdtEntry) (stubs : ℕ → BitVec 64) (flags : BitVec 8) (first n : ℕ) :
    ℕ → IdtEntry :=
  (List.range n).foldl
    (fun t i => Function.update t (first + i) (idtSetDescriptor (stubs (first + i)) flags)) idt

/-- `setup_isrs` -/
def setupIsrs (stubs : ℕ → BitVec 64) (idt : ℕ → IdtEntry) : ℕ → IdtEntry :=
  idtSetAll idt stubs idtInterruptGate 0 32

/-- `setup_irqs` -/
def setupIrqs (stubs : ℕ → BitVec 64) (syscallStub : BitVec 64) (idt : ℕ → IdtEntry) :
    ℕ → IdtEntry :=
  Function.update (idtSetAll idt stubs idtInterruptGate 32 16) 0x80
    (idtSetDescriptor syscallStub idtUserInterrupt)

/-- `idt_init`: the table, with the addresses of the stubs. -/
def idtInit (stubs : ℕ → BitVec 64) (syscallStub : BitVec 64) : ℕ → IdtEntry :=
  setupIrqs stubs syscallStub (setupIsrs stubs fun _ => idtZero)

/-- What a loop over vectors leaves in the table. -/
theorem idtSetAll_apply (idt : ℕ → IdtEntry) (stubs : ℕ → BitVec 64) (flags : BitVec 8)
    (first n v : ℕ) :
    idtSetAll idt stubs flags first n v =
      if first ≤ v ∧ v < first + n then idtSetDescriptor (stubs v) flags else idt v := by
  induction n with
  | zero => exact (if_neg (by omega)).symm
  | succ n ih =>
    have hstep : idtSetAll idt stubs flags first (n + 1) =
        Function.update (idtSetAll idt stubs flags first n) (first + n)
          (idtSetDescriptor (stubs (first + n)) flags) := by
      simp only [idtSetAll, List.range_succ, List.foldl_append, List.foldl_cons, List.foldl_nil]
    rw [hstep]
    by_cases hv : v = first + n
    · subst hv
      rw [Function.update_self, if_pos (by omega)]
    · rw [Function.update_of_ne hv, ih]
      exact if_congr (by omega) rfl rfl

/-- The entry of a vector: a stub, the system call, or nothing. -/
theorem idtInit_apply (stubs : ℕ → BitVec 64) (syscallStub : BitVec 64) (v : ℕ) :
    idtInit stubs syscallStub v =
      if v < 48 then idtSetDescriptor (stubs v) idtInterruptGate
      else if v = 0x80 then idtSetDescriptor syscallStub idtUserInterrupt
      else idtZero := by
  unfold idtInit setupIrqs setupIsrs
  by_cases hv : v = 0x80
  · subst hv
    rw [Function.update_self]
    rfl
  · rw [Function.update_of_ne hv, idtSetAll_apply, idtSetAll_apply]
    split_ifs <;> first | rfl | omega

/-! ## Entering the kernel -/

/-- The tables of the processor. -/
structure Tables where
  gdt : List (BitVec 64)
  idt : ℕ → IdtEntry

/-- Both tables as the kernel fills them in. -/
def kernelTables (stubs : ℕ → BitVec 64) (syscallStub tss : BitVec 64) : Tables where
  gdt := gdtInit tss
  idt := idtInit stubs syscallStub

namespace Tables

/-- The segment that a selector chooses. -/
def segment (t : Tables) (selector : BitVec 16) : Segment :=
  segmentOf (t.gdt.getD (selector.toNat / 8) 0)

/-- An interrupt at a privilege level, raised by a program with `int` or not: the address at which
the processor goes on and its level there, or the number of the exception that is raised in its
place. -/
def enter (t : Tables) (cpl : BitVec 2) (soft : Bool) (v : ℕ) :
    Except ℕ (BitVec 64 × BitVec 2) :=
  let g := gateOf (t.idt v).bits
  if g.type ≠ 14#5 then .error 13
  else if soft ∧ g.dpl < cpl then .error 13
  else if g.present = 0#1 then .error 11
  else
    let s := t.segment g.selector
    if s.type ≠ 3#2 ∨ s.long = 0#1 ∨ cpl < s.dpl then .error 13
    else if s.present = 0#1 then .error 11
    else .ok (g.offset, s.dpl)

/-- The instruction `int`: when it is refused, the exception is raised. -/
def int (t : Tables) (cpl : BitVec 2) (v : ℕ) : Except ℕ (BitVec 64 × BitVec 2) :=
  match t.enter cpl true v with
  | .ok target => .ok target
  | .error fault => t.enter cpl false fault

end Tables

section Kernel

variable (stubs : ℕ → BitVec 64) (syscallStub tss : BitVec 64)

/-- The kernel's code runs at level 0. -/
theorem segment_kernelCs :
    (kernelTables stubs syscallStub tss).segment kernelCs = ⟨1#1, 0#2, 3#2, 1#1⟩ := by
  change segmentOf (gdtSetEntry gdtKernelCode gdtFlagsCode).bits = _
  decide

/-- An interrupt through an entry of the kernel's table: only the level that it is for decides. -/
theorem enter_idtSetDescriptor {v : ℕ} {isr : BitVec 64} {flags : BitVec 8} {soft : Bool}
    {cpl : BitVec 2}
    (hv : idtInit stubs syscallStub v = idtSetDescriptor isr flags)
    (htype : flags.extractLsb' 0 5 = 14#5) (hpresent : flags.extractLsb' 7 1 = 1#1) :
    (kernelTables stubs syscallStub tss).enter cpl soft v =
      if soft ∧ flags.extractLsb' 5 2 < cpl then .error 13 else .ok (isr, 0#2) := by
  have hgate : gateOf ((kernelTables stubs syscallStub tss).idt v).bits =
      ⟨isr, kernelCs, 14#5, flags.extractLsb' 5 2, 1#1⟩ := by
    change gateOf (idtInit stubs syscallStub v).bits = _
    rw [hv, gateOf_idtSetDescriptor, htype, hpresent]
  simp only [Tables.enter, hgate, segment_kernelCs]
  rw [if_neg (by decide)]
  by_cases hlevel : soft ∧ flags.extractLsb' 5 2 < cpl
  · rw [if_pos hlevel, if_pos hlevel]
  · -- the segment is code, and its level is not above that of the program
    have hseg : ¬((3#2 : BitVec 2) ≠ 3#2 ∨ (1#1 : BitVec 1) = 0#1 ∨ cpl < 0#2) := by
      simp
    rw [if_neg hlevel, if_neg hlevel, if_neg (by decide), if_neg hseg, if_neg (by decide)]

/-- The stubs are entered from everywhere. -/
theorem enter_stub {v : ℕ} (hv : v < 48) (cpl : BitVec 2) :
    (kernelTables stubs syscallStub tss).enter cpl false v = .ok (stubs v, 0#2) := by
  have hentry : idtInit stubs syscallStub v = idtSetDescriptor (stubs v) idtInterruptGate := by
    rw [idtInit_apply, if_pos hv]
  rw [enter_idtSetDescriptor stubs syscallStub tss hentry (by decide) (by decide)]
  exact if_neg (by simp)

/-- A program may only raise the system call. -/
theorem enter_int (v : ℕ) :
    (kernelTables stubs syscallStub tss).enter 3#2 true v =
      if v = 0x80 then .ok (syscallStub, 0#2) else .error 13 := by
  have hentry := idtInit_apply stubs syscallStub v
  split_ifs at hentry with h48 h80
  · rw [enter_idtSetDescriptor stubs syscallStub tss hentry (by decide) (by decide),
      if_pos (by decide), if_neg (by omega)]
  · rw [enter_idtSetDescriptor stubs syscallStub tss hentry (by decide) (by decide),
      if_neg (by decide), if_pos h80]
  · -- the type of an entry that was never set is no gate
    have hgate : (gateOf ((kernelTables stubs syscallStub tss).idt v).bits).type ≠ 14#5 := by
      change (gateOf (idtInit stubs syscallStub v).bits).type ≠ 14#5
      rw [hentry]
      decide
    rw [Tables.enter, if_pos hgate, if_neg h80]

/-- Whatever the addresses of the stubs are, the exceptions and the lines enter theirs at level 0,
a program enters the system call with `int 0x80` and the stub of the general protection fault with
every other `int`, and the processor finds the `TSS`. -/
theorem enters_kernel :
    (∀ v < 48, ∀ cpl,
      (kernelTables stubs syscallStub tss).enter cpl false v = .ok (stubs v, 0#2)) ∧
    (∀ v, (kernelTables stubs syscallStub tss).int 3#2 v =
      .ok (if v = 0x80 then syscallStub else stubs 13, 0#2)) ∧
    tssBaseOf ((gdtInit tss).getD 5 0) ((gdtInit tss).getD 6 0) = tss := by
  refine ⟨fun v hv cpl => enter_stub stubs syscallStub tss hv cpl, fun v => ?_,
    tssBaseOf_tssEntry tss⟩
  unfold Tables.int
  rw [enter_int]
  split_ifs with h
  · rfl
  · exact enter_stub stubs syscallStub tss (by decide) _

end Kernel

end OpenIDP.Descriptors
