import OpenIDP.Exec.ArgWrites
import OpenIDP.Exec.Entries

/-!
# What system calls store for their callers

`syscall_dispatcher` of `src/syscall/ksyscall.c` takes the number of the call and its arguments
from the registers of the caller. Six calls have an argument that points to where a result goes.
None of them looks at the pointer before it stores through it; two comments in `sys_file.c` say
that this is still to be done.

What a call returns is described together with what it stores through the pointer of its caller,
which is the last thing each of them does to memory. Whether the pages at the pointer are mapped
is decided only by the stores.

There are two more ways to the kernel's memory. Four calls change page table entries at addresses
of their caller, and `sys_exec` stores the strings of its caller, and their addresses, without a
look at how many there are.

## Main definitions

* `Kernel.syscallDispatcher` — the dispatcher, up to what is stored for the caller
* `SysReturn.store` — the stores
* `Kernel.entriesChanged`, `Kernel.argumentStores` — what else a caller directs
* `Confined` — none of it reaches the kernel's memory
* `PointerFits`, `EntriesFit`, `ArgumentsFit` — when it does not

## Main results

* `Kernel.store_sysShareMem` — the model of `sys_share_mem` that stores is the same
* `confined_iff` — the calls that are confined
* `sysIpcRecv_overwrites` — a message that is received in the upper half
-/

namespace OpenIDP.Exec

open OpenIDP.Math OpenIDP.Memory OpenIDP.Process

/-! ## Arguments and answers -/

/-- The numbers of the system calls. -/
inductive Syscall
  | write
  | exit
  | readKey
  | exec
  | getFbInfo
  | sbrk
  | ipcSend
  | ipcRecv
  | shareMem
  | fileRead
  | unmap
  | stat
  | dirRead
  deriving DecidableEq

/-- The call with a number. -/
def Syscall.ofNumber : ℕ → Option Syscall
  | 0 => some .write
  | 1 => some .exit
  | 2 => some .readKey
  | 7 => some .exec
  | 8 => some .getFbInfo
  | 9 => some .sbrk
  | 10 => some .ipcSend
  | 11 => some .ipcRecv
  | 12 => some .shareMem
  | 13 => some .fileRead
  | 14 => some .unmap
  | 15 => some .stat
  | 16 => some .dirRead
  | _ => none

/-- The registers of the caller that are read. -/
structure Registers where
  rax : BitVec 64
  rdi : BitVec 64
  rsi : BitVec 64
  rdx : BitVec 64
  rcx : BitVec 64
  r8 : BitVec 64

/-- `FILINFO`. The name has no `NUL`. -/
structure FilInfo where
  fsize : ℕ
  fattrib : ℕ
  fname : List (BitVec 8)

/-- `AM_DIR` -/
def amDir : ℕ := 0x10

/-- What a call reads that is not part of the kernel's state: what FatFs answers for the path, the
strings that `argv` leads to when their turn comes, the key, and the fields of the framebuffer. The
padding of a `struct kstat` is what the stack held. -/
structure Inputs where
  file : FatFile
  fSize : ℕ
  stat : Option FilInfo
  opensDir : Bool
  /-- the answers of `f_readdir`; behind the last of them the directory ends -/
  entries : List (Option FilInfo)
  argv : ℕ → List (BitVec 8)
  key : ℕ
  fbWidth : ℕ
  fbHeight : ℕ
  fbPitch : ℕ
  fbBpp : ℕ
  padding : ℕ

/-- What is stored from an address on. -/
structure CopyOut where
  addr : ℕ
  bytes : List (BitVec 8)

/-- The addresses that are written. -/
def CopyOut.addrs (o : CopyOut) : List ℕ :=
  (List.range o.bytes.length).map fun i => wrap (o.addr + i)

/-- What a call returns, what it stores for its caller, and the other changes. -/
structure SysReturn where
  rax : ℕ
  copyOut : Option CopyOut
  kernel : Kernel

/-- The call after its stores, through the page tables in use. -/
def SysReturn.store (r : SysReturn) : Option (ℕ × Kernel) :=
  match r.copyOut with
  | none => some (r.rax, r.kernel)
  | some o => do
    let v ← Vm.storeBytes r.kernel.sched.cr3 o.addr o.bytes r.kernel.vm
    some (r.rax, { r.kernel with vm := v })

/-! ## The results in memory -/

/-- The bytes of a `message_t`. -/
def messageBytes (m : Message) : List (BitVec 8) :=
  leBytes 4 (toU64 m.senderPid) ++ leBytes 4 (toU64 m.type) ++ leBytes 8 m.data1 ++
    leBytes 8 m.data2 ++ leBytes 8 m.data3

/-- The bytes of a `struct kstat`. -/
def FilInfo.kstat (fno : FilInfo) (padding : ℕ) : List (BitVec 8) :=
  leBytes 8 fno.fsize ++ leBytes 4 (if fno.fattrib &&& amDir ≠ 0 then 1 else 0) ++
    leBytes 4 padding

/-- The bytes of a `struct kdirent`, cleared before it is filled in. -/
def FilInfo.kdirent (fno : FilInfo) : List (BitVec 8) :=
  (fno.fname.take 127).rightpad 128 0#8 ++ leBytes 8 fno.fsize ++
    leBytes 8 (if fno.fattrib &&& amDir ≠ 0 then 1 else 0)

/-- The bytes of a `struct fb_info`. -/
def Inputs.fbInfo (inp : Inputs) : List (BitVec 8) :=
  leBytes 8 userFbBase ++ leBytes 8 inp.fbWidth ++ leBytes 8 inp.fbHeight ++
    leBytes 8 inp.fbPitch ++ leBytes 8 inp.fbBpp

/-- The loop of `sys_read_dir_entry`: `n` entries are skipped. -/
def readEntries : ℕ → List (Option FilInfo) → Option FilInfo
  | _, [] => none
  | _, none :: _ => none
  | 0, some fno :: _ => if fno.fname = [] then none else some fno
  | n + 1, some fno :: rest => if fno.fname = [] then none else readEntries n rest

/-! ## The calls -/

namespace Kernel

variable (p : Platform) (inp : Inputs) (k : Kernel)

/-- `sys_read_key`. What the keyboard changes is not part of the state. -/
def sysReadKey : SysReturn :=
  if 0 < (k.sched.task k.sched.currentTask).msgCount then ⟨0, none, k⟩ else ⟨inp.key, none, k⟩

/-- `sys_exec` -/
def sysExec (argc : ℤ) : Option SysReturn := do
  let (result, k₁) ← k.createUserProcessFromFile p inp.file ⟨argc, inp.argv⟩ false
  some ⟨toU64 result, none, k₁⟩

/-- `sys_get_fb_info` -/
def sysGetFbInfo (userOut : ℕ) : SysReturn :=
  if (k.sched.task k.sched.currentTask).isWm then ⟨0, some ⟨userOut, inp.fbInfo⟩, k⟩
  else ⟨toU64 (-1), none, k⟩

/-- `sys_sbrk` of the current task -/
def sysSbrkCall (inc : ℤ) : Option SysReturn := do
  let t := k.sched.task k.sched.currentTask
  let (result, programBreak, v) ← sysSbrk k.vm t.cr3 t.programBreak inc
  some ⟨result, none, { k with
    vm := v
    sched := k.sched.setTask k.sched.currentTask { t with programBreak := programBreak } }⟩

/-- `sys_ipc_recv` -/
def sysIpcRecv (outMsg : ℕ) : SysReturn :=
  match k.sched.sysIpcRecv with
  | (result, msg, sched) =>
    ⟨toU64 result, msg.map fun m => ⟨outMsg, messageBytes m⟩, { k with sched := sched }⟩

/-- The part of `sys_share_mem` that allocates the region and maps it at the breaks of both
tasks: where it is, and the state. -/
def shareRegion (target size : ℕ) : Option (ℕ × ℕ × Kernel) :=
  let (myVaddr, s₁) := k.sched.reserve k.sched.currentTask size
  let (theirVaddr, s₂) := s₁.reserve target size
  (sharePages (s₂.task s₂.currentTask).cr3 myVaddr (s₂.task target).cr3 theirVaddr
    (size / pageSize) 0 k.vm).map fun v => (myVaddr, theirVaddr, { k with vm := v, sched := s₂ })

/-- `sys_share_mem` -/
def sysShareMemCall (targetPid : ℤ) (size out : ℕ) : Option SysReturn := do
  let target ← k.sched.getTaskByPid (toU64 targetPid)
  if target = 0 then
    some ⟨0, none, k⟩
  else do
    let (myVaddr, theirVaddr, k₁) ← k.shareRegion target (alignUp size pageSize)
    some ⟨myVaddr, some ⟨out, wordBytes theirVaddr⟩, k₁⟩

/-- The call of `f_read` in `sys_file_read`. The length is cut to a `UINT`. -/
def fileRead (maxLen : ℕ) : Bool × List (BitVec 8) :=
  let fsize := if maxLen < inp.fSize then maxLen else inp.fSize
  inp.file.read k.reads 0 (fsize % 2 ^ 32)

/-- `sys_file_read` -/
def sysFileRead (userBuf maxLen : ℕ) : SysReturn :=
  if inp.file.opens then
    match k.fileRead inp maxLen with
    | (ok, bytes) =>
      ⟨if ok then bytes.length else toU64 (-1), some ⟨userBuf, bytes⟩,
        { k with reads := k.reads + 1 }⟩
  else
    ⟨toU64 (-1), none, k⟩

/-- `sys_unmap` -/
def sysUnmapCall (vaddr size : ℕ) : SysReturn :=
  ⟨0, none, { k with vm := sysUnmap k.vm (k.sched.task k.sched.currentTask).cr3 vaddr size }⟩

/-- `sys_stat` -/
def sysStat (userStatOut : ℕ) : SysReturn :=
  match inp.stat with
  | none => ⟨toU64 (-1), none, k⟩
  | some fno => ⟨0, some ⟨userStatOut, fno.kstat inp.padding⟩, k⟩

/-- `sys_read_dir_entry` -/
def sysReadDirEntry (index userOut : ℕ) : SysReturn :=
  if inp.opensDir then
    match readEntries index inp.entries with
    | none => ⟨toU64 (-2), none, k⟩
    | some fno => ⟨0, some ⟨userOut, fno.kdirent⟩, k⟩
  else
    ⟨toU64 (-1), none, k⟩

/-- `syscall_dispatcher`. There is no result when the call does not return; then nothing has
been stored for the caller. -/
def syscallDispatcher (regs : Registers) : Option SysReturn :=
  match Syscall.ofNumber regs.rax.toNat with
  | some .write => some ⟨regs.rdx.toNat, none, k⟩
  | some .exit => none
  | some .readKey => some (k.sysReadKey inp)
  | some .exec => k.sysExec p inp (toInt32 regs.rsi.toNat)
  | some .getFbInfo => some (k.sysGetFbInfo inp regs.rdi.toNat)
  | some .sbrk => k.sysSbrkCall (toInt64 regs.rdi.toNat)
  | some .ipcSend => do
    let (result, k₁) ← k.sysIpcSend (toInt32 regs.rdi.toNat) (toInt32 regs.rsi.toNat)
      regs.rdx.toNat regs.rcx.toNat regs.r8.toNat
    some ⟨toU64 result, none, k₁⟩
  | some .ipcRecv => some (k.sysIpcRecv regs.rdi.toNat)
  | some .shareMem =>
    k.sysShareMemCall (toInt32 regs.rdi.toNat) regs.rsi.toNat regs.rdx.toNat
  | some .fileRead => some (k.sysFileRead inp regs.rsi.toNat regs.rdx.toNat)
  | some .unmap => some (k.sysUnmapCall regs.rdi.toNat regs.rsi.toNat)
  | some .stat => some (k.sysStat inp regs.rsi.toNat)
  | some .dirRead => some (k.sysReadDirEntry inp regs.rsi.toNat regs.rdx.toNat)
  | none => some ⟨toU64 (-1), none, k⟩

end Kernel

/-! ## The two models of `sys_share_mem` -/

section Calls

variable {p : Platform} {inp : Inputs} {k : Kernel} {regs : Registers}

/-- The call with its stores is the call whose model stores. -/
theorem Kernel.store_sysShareMem (targetPid : ℤ) (size out : ℕ) :
    (k.sysShareMemCall targetPid size out).bind SysReturn.store =
      k.sysShareMem targetPid size out := by
  unfold Kernel.sysShareMemCall Kernel.sysShareMem Kernel.shareRegion
  cases k.sched.getTaskByPid (toU64 targetPid) with
  | none => rfl
  | some target =>
    by_cases htarget : target = 0
    · simp only [Option.bind_eq_bind, Option.bind_some, if_pos htarget]
      rfl
    · simp only [Option.bind_eq_bind, Option.bind_some, if_neg htarget, Option.bind_map,
        Option.bind_assoc]
      rfl

/-! ## Where the stores go -/

/-- What is stored through the pointer of the caller is in the lower half of the address space. -/
def CopiesBelow (result : Option SysReturn) : Prop :=
  ∀ r ∈ result, ∀ o ∈ r.copyOut, ∀ a ∈ o.addrs, a < 2 ^ 47

/-- That many bytes from the address on are in the lower half. -/
def FitsBelow (addr size : ℕ) : Prop := size = 0 ∨ addr + size ≤ 2 ^ 47

/-- If the call has something to store, there is room for it at the pointer in the registers. A
call without such a pointer stores nothing through one. -/
def PointerFits (inp : Inputs) (k : Kernel) (regs : Registers) : Prop :=
  match Syscall.ofNumber regs.rax.toNat with
  | some .getFbInfo =>
    (k.sched.task k.sched.currentTask).isWm = true → FitsBelow regs.rdi.toNat 40
  | some .ipcRecv =>
    (k.sched.task k.sched.currentTask).msgCount ≠ 0 → FitsBelow regs.rdi.toNat 32
  | some .shareMem =>
    ∀ target ∈ k.sched.getTaskByPid (toU64 (toInt32 regs.rdi.toNat)), target ≠ 0 →
      (k.shareRegion target (alignUp regs.rsi.toNat pageSize)).isSome →
        FitsBelow regs.rdx.toNat 8
  | some .fileRead =>
    inp.file.opens = true →
      FitsBelow regs.rsi.toNat (k.fileRead inp regs.rdx.toNat).2.length
  | some .stat => inp.stat.isSome → FitsBelow regs.rsi.toNat 16
  | some .dirRead =>
    inp.opensDir = true → (readEntries regs.rsi.toNat inp.entries).isSome →
      FitsBelow regs.rdx.toNat 144
  | _ => True

/-- The addresses of a store go from its pointer upwards. -/
theorem addrs_lt_iff {addr : ℕ} (haddr : addr < 2 ^ 64) (bytes : List (BitVec 8)) :
    (∀ a ∈ (CopyOut.mk addr bytes).addrs, a < 2 ^ 47) ↔ FitsBelow addr bytes.length := by
  constructor
  · intro h
    by_contra hnot
    obtain ⟨hpos, hover⟩ := not_or.mp hnot
    have hstored : ∀ i < bytes.length, wrap (addr + i) < 2 ^ 47 := fun i hi =>
      h _ (List.mem_map_of_mem (List.mem_range.mpr hi))
    have hfirst : addr < 2 ^ 47 := by
      have hlt := hstored 0 (Nat.pos_of_ne_zero hpos)
      rwa [Nat.add_zero, wrap_of_lt haddr] at hlt
    -- the byte behind the lower half is stored as well
    have hlast := hstored (2 ^ 47 - addr) (by omega)
    rw [Nat.add_sub_cancel' hfirst.le, wrap_of_lt (by decide)] at hlast
    exact absurd hlast (Nat.lt_irrefl _)
  · intro h a ha
    obtain ⟨i, hi, rfl⟩ := List.mem_map.mp ha
    have hi : i < bytes.length := List.mem_range.mp hi
    have hlt : addr + i < 2 ^ 47 := by
      rcases h with h | h
      · omega
      · omega
    rwa [wrap_of_lt (hlt.trans (by decide))]

theorem copiesBelow_none : CopiesBelow none := fun _ hr => (Option.not_mem_none _ hr).elim

/-- A call that stores nothing for its caller. -/
theorem copiesBelow_quiet (rax : ℕ) (k : Kernel) : CopiesBelow (some ⟨rax, none, k⟩) := by
  intro r hr o ho
  rw [← Option.some_inj.mp hr] at ho
  exact (Option.not_mem_none _ ho).elim

theorem copiesBelow_copy {addr : ℕ} (haddr : addr < 2 ^ 64) (rax : ℕ) (bytes : List (BitVec 8))
    (k : Kernel) :
    CopiesBelow (some ⟨rax, some ⟨addr, bytes⟩, k⟩) ↔ FitsBelow addr bytes.length := by
  rw [← addrs_lt_iff haddr]
  constructor
  · intro h
    exact h _ rfl _ rfl
  · intro h r hr o ho
    rw [← Option.some_inj.mp hr] at ho
    rw [← Option.some_inj.mp ho]
    exact h

@[simp] theorem length_leBytes (n w : ℕ) : (leBytes n w).length = n := by
  rw [leBytes, List.length_map, List.length_range]

theorem length_messageBytes (m : Message) : (messageBytes m).length = 32 := by
  simp [messageBytes]

theorem length_fbInfo (inp : Inputs) : inp.fbInfo.length = 40 := by
  simp [Inputs.fbInfo]

theorem length_kstat (fno : FilInfo) (padding : ℕ) : (fno.kstat padding).length = 16 := by
  simp [FilInfo.kstat]

theorem length_kdirent (fno : FilInfo) : fno.kdirent.length = 144 := by
  simp [FilInfo.kdirent]
  omega

namespace Kernel

/-! ### Each call -/

theorem copiesBelow_sysReadKey : CopiesBelow (some (k.sysReadKey inp)) := by
  unfold sysReadKey
  split_ifs <;> exact copiesBelow_quiet _ _

theorem copiesBelow_sysExec (argc : ℤ) : CopiesBelow (k.sysExec p inp argc) := by
  unfold sysExec
  cases k.createUserProcessFromFile p inp.file ⟨argc, inp.argv⟩ false with
  | none => exact copiesBelow_none
  | some result => exact copiesBelow_quiet _ _

theorem copiesBelow_sysSbrkCall (inc : ℤ) : CopiesBelow (k.sysSbrkCall inc) := by
  unfold sysSbrkCall
  dsimp only
  cases sysSbrk k.vm (k.sched.task k.sched.currentTask).cr3
      (k.sched.task k.sched.currentTask).programBreak inc with
  | none => exact copiesBelow_none
  | some result => exact copiesBelow_quiet _ _

theorem copiesBelow_sysGetFbInfo {userOut : ℕ} (hout : userOut < 2 ^ 64) :
    CopiesBelow (some (k.sysGetFbInfo inp userOut)) ↔
      ((k.sched.task k.sched.currentTask).isWm = true → FitsBelow userOut 40) := by
  unfold sysGetFbInfo
  by_cases hwm : (k.sched.task k.sched.currentTask).isWm = true
  · rw [if_pos hwm, copiesBelow_copy hout, length_fbInfo, forall_prop_of_true hwm]
  · rw [if_neg hwm]
    exact iff_of_true (copiesBelow_quiet _ _) fun h => absurd h hwm

theorem copiesBelow_sysIpcRecv {outMsg : ℕ} (hout : outMsg < 2 ^ 64) :
    CopiesBelow (some (k.sysIpcRecv outMsg)) ↔
      ((k.sched.task k.sched.currentTask).msgCount ≠ 0 → FitsBelow outMsg 32) := by
  unfold sysIpcRecv Sched.sysIpcRecv
  by_cases hcount : (k.sched.task k.sched.currentTask).msgCount = 0
  · rw [if_pos hcount]
    exact iff_of_true (copiesBelow_quiet _ _) fun h => absurd hcount h
  · rw [if_neg hcount, forall_prop_of_true hcount]
    exact (copiesBelow_copy hout _ _ _).trans (by rw [length_messageBytes])

theorem copiesBelow_sysShareMemCall {targetPid : ℤ} {size out : ℕ} (hout : out < 2 ^ 64) :
    CopiesBelow (k.sysShareMemCall targetPid size out) ↔
      ∀ target ∈ k.sched.getTaskByPid (toU64 targetPid), target ≠ 0 →
        (k.shareRegion target (alignUp size pageSize)).isSome → FitsBelow out 8 := by
  unfold sysShareMemCall
  cases k.sched.getTaskByPid (toU64 targetPid) with
  | none => exact iff_of_true copiesBelow_none fun _ h => (Option.not_mem_none _ h).elim
  | some target =>
    simp only [Option.bind_eq_bind, Option.bind_some, Option.mem_def, Option.some_inj,
      forall_eq']
    by_cases htarget : target = 0
    · rw [if_pos htarget]
      exact iff_of_true (copiesBelow_quiet _ _) fun h => absurd htarget h
    · rw [if_neg htarget, forall_prop_of_true htarget]
      cases k.shareRegion target (alignUp size pageSize) with
      | none => exact iff_of_true copiesBelow_none fun h => absurd h Bool.false_ne_true
      | some region =>
        rw [forall_prop_of_true Option.isSome_some]
        exact (copiesBelow_copy hout _ _ _).trans (by rw [length_wordBytes])

theorem copiesBelow_sysFileRead {userBuf maxLen : ℕ} (hbuf : userBuf < 2 ^ 64) :
    CopiesBelow (some (k.sysFileRead inp userBuf maxLen)) ↔
      (inp.file.opens = true → FitsBelow userBuf (k.fileRead inp maxLen).2.length) := by
  unfold sysFileRead
  by_cases hopen : inp.file.opens = true
  · rw [if_pos hopen, forall_prop_of_true hopen]
    exact copiesBelow_copy hbuf _ _ _
  · rw [if_neg hopen]
    exact iff_of_true (copiesBelow_quiet _ _) fun h => absurd h hopen

theorem copiesBelow_sysStat {userStatOut : ℕ} (hout : userStatOut < 2 ^ 64) :
    CopiesBelow (some (k.sysStat inp userStatOut)) ↔
      (inp.stat.isSome → FitsBelow userStatOut 16) := by
  unfold sysStat
  cases inp.stat with
  | none => exact iff_of_true (copiesBelow_quiet _ _) fun h => absurd h Bool.false_ne_true
  | some fno =>
    rw [forall_prop_of_true Option.isSome_some]
    exact (copiesBelow_copy hout _ _ _).trans (by rw [length_kstat])

theorem copiesBelow_sysReadDirEntry {index userOut : ℕ} (hout : userOut < 2 ^ 64) :
    CopiesBelow (some (k.sysReadDirEntry inp index userOut)) ↔
      (inp.opensDir = true → (readEntries index inp.entries).isSome →
        FitsBelow userOut 144) := by
  unfold sysReadDirEntry
  by_cases hopen : inp.opensDir = true
  · rw [if_pos hopen, forall_prop_of_true hopen]
    cases readEntries index inp.entries with
    | none => exact iff_of_true (copiesBelow_quiet _ _) fun h => absurd h Bool.false_ne_true
    | some fno =>
      rw [forall_prop_of_true Option.isSome_some]
      exact (copiesBelow_copy hout _ _ _).trans (by rw [length_kdirent])
  · rw [if_neg hopen]
    exact iff_of_true (copiesBelow_quiet _ _) fun h => absurd h hopen

theorem copiesBelow_sysIpcSend (destPid type : ℤ) (d1 d2 d3 : ℕ) :
    CopiesBelow (do
      let (result, k₁) ← k.sysIpcSend destPid type d1 d2 d3
      some ⟨toU64 result, none, k₁⟩) := by
  cases k.sysIpcSend destPid type d1 d2 d3 with
  | none => exact copiesBelow_none
  | some result => exact copiesBelow_quiet _ _

end Kernel

/-- What is stored through the pointer is in the lower half just when the pointer in the registers
leaves room for it: nothing but the caller keeps the stores out of the upper half. -/
theorem copiesBelow_iff (p : Platform) (inp : Inputs) (k : Kernel) (regs : Registers) :
    CopiesBelow (k.syscallDispatcher p inp regs) ↔ PointerFits inp k regs := by
  unfold Kernel.syscallDispatcher PointerFits
  cases Syscall.ofNumber regs.rax.toNat with
  | none => exact iff_of_true (copiesBelow_quiet _ _) trivial
  | some call =>
    cases call with
    | write => exact iff_of_true (copiesBelow_quiet _ _) trivial
    | exit => exact iff_of_true copiesBelow_none trivial
    | readKey => exact iff_of_true Kernel.copiesBelow_sysReadKey trivial
    | exec => exact iff_of_true (Kernel.copiesBelow_sysExec _) trivial
    | getFbInfo => exact Kernel.copiesBelow_sysGetFbInfo regs.rdi.isLt
    | sbrk => exact iff_of_true (Kernel.copiesBelow_sysSbrkCall _) trivial
    | ipcSend => exact iff_of_true (Kernel.copiesBelow_sysIpcSend _ _ _ _ _) trivial
    | ipcRecv => exact Kernel.copiesBelow_sysIpcRecv regs.rdi.isLt
    | shareMem => exact Kernel.copiesBelow_sysShareMemCall regs.rdx.isLt
    | fileRead => exact Kernel.copiesBelow_sysFileRead regs.rsi.isLt
    | unmap => exact iff_of_true (copiesBelow_quiet _ _) trivial
    | stat => exact Kernel.copiesBelow_sysStat regs.rsi.isLt
    | dirRead => exact Kernel.copiesBelow_sysReadDirEntry regs.rdx.isLt

/-! ## What else a caller directs -/

/-- The addresses for which `sys_share_mem` calls `vmm_map_page`. -/
def Kernel.regionEntries (k : Kernel) (target size : ℕ) : List ℕ :=
  let (myVaddr, s₁) := k.sched.reserve k.sched.currentTask size
  let (theirVaddr, s₂) := s₁.reserve target size
  shareEntries (s₂.task s₂.currentTask).cr3 myVaddr (s₂.task target).cr3 theirVaddr
    (size / pageSize) k.vm

/-- The addresses of the page table entries that a call sets or clears for its caller. -/
def Kernel.entriesChanged (p : Platform) (inp : Inputs) (k : Kernel) (regs : Registers) : List ℕ :=
  let t := k.sched.task k.sched.currentTask
  match Syscall.ofNumber regs.rax.toNat with
  | some .exec => k.execEntries p inp.file
  | some .sbrk => sbrkEntries k.vm t.cr3 t.programBreak (toInt64 regs.rdi.toNat)
  | some .shareMem =>
    match k.sched.getTaskByPid (toU64 (toInt32 regs.rdi.toNat)) with
    | none => []
    | some target =>
      if target = 0 then [] else k.regionEntries target (alignUp regs.rsi.toNat pageSize)
  | some .unmap => unmapEntries k.vm t.cr3 regs.rdi.toNat regs.rsi.toNat
  | _ => []

/-- What a call stores while it passes the arguments of its caller. -/
def Kernel.argumentStores (p : Platform) (inp : Inputs) (k : Kernel) (regs : Registers) :
    List ArgStore :=
  match Syscall.ofNumber regs.rax.toNat with
  | some .exec => k.execStores p inp.file (toInt32 regs.rsi.toNat) fun _ => inp.argv
  | _ => []

/-- Nothing that a call does for its caller reaches the memory of the kernel. -/
structure Confined (p : Platform) (inp : Inputs) (k : Kernel) (regs : Registers) : Prop where
  copies : CopiesBelow (k.syscallDispatcher p inp regs)
  entries : ∀ virt ∈ k.entriesChanged p inp regs, InUserHalf virt
  arguments : ∀ s ∈ k.argumentStores p inp regs, s.Inside

/-- The pages that a call maps or unmaps for its caller are in the lower half. -/
def EntriesFit (p : Platform) (inp : Inputs) (k : Kernel) (regs : Registers) : Prop :=
  let t := k.sched.task k.sched.currentTask
  match Syscall.ofNumber regs.rax.toNat with
  | some .exec => ∀ pml4 cr3 k₁ k₂, k.newPml4 p = some (pml4, cr3, k₁) →
    k₁.beforeSegments p inp.file = some k₂ →
      SegmentsLower inp.file pml4 (k₁.phdrsRead inp.file) k₂
  | some .sbrk => SbrkLower k.vm t.cr3 t.programBreak (toInt64 regs.rdi.toNat)
  | some .shareMem =>
    ∀ target ∈ k.sched.getTaskByPid (toU64 (toInt32 regs.rdi.toNat)), target ≠ 0 →
      let size := alignUp regs.rsi.toNat pageSize
      let (myVaddr, s₁) := k.sched.reserve k.sched.currentTask size
      let (theirVaddr, s₂) := s₁.reserve target size
      ShareLower (s₂.task s₂.currentTask).cr3 myVaddr (s₂.task target).cr3 theirVaddr
        (size / pageSize) k.vm
  | some .unmap => UnmapLower k.vm t.cr3 regs.rdi.toNat regs.rsi.toNat
  | _ => True

/-- If a program gets as far as its arguments, they fit. -/
def ArgumentsFit (p : Platform) (inp : Inputs) (k : Kernel) (regs : Registers) : Prop :=
  Syscall.ofNumber regs.rax.toNat = some .exec → ∀ stackPage v,
    k.beforeArguments p inp.file = some (stackPage, v) →
      ArgsFit ⟨toInt32 regs.rsi.toNat, inp.argv⟩

theorem entriesChanged_lower_iff (p : Platform) (inp : Inputs) (k : Kernel) (regs : Registers) :
    (∀ virt ∈ k.entriesChanged p inp regs, InUserHalf virt) ↔ EntriesFit p inp k regs := by
  have hnone : (∀ virt ∈ ([] : List ℕ), InUserHalf virt) ↔ True :=
    iff_of_true (List.forall_mem_nil _) trivial
  unfold Kernel.entriesChanged EntriesFit
  cases Syscall.ofNumber regs.rax.toNat with
  | none => exact hnone
  | some call =>
    cases call with
    | exec => exact Kernel.execEntries_lower_iff
    | sbrk => exact sbrkEntries_lower_iff
    | unmap => exact unmapEntries_lower_iff
    | shareMem =>
      dsimp only
      cases k.sched.getTaskByPid (toU64 (toInt32 regs.rdi.toNat)) with
      | none => exact hnone.trans (by simp)
      | some target =>
        simp only [Option.mem_def, Option.some_inj, forall_eq']
        by_cases htarget : target = 0
        · rw [if_pos htarget]
          exact iff_of_true (List.forall_mem_nil _) fun h => absurd htarget h
        · rw [if_neg htarget, forall_prop_of_true htarget]
          exact shareEntries_lower_iff
    | _ => exact hnone

theorem argumentStores_inside_iff (p : Platform) (inp : Inputs) (k : Kernel) (regs : Registers) :
    (∀ s ∈ k.argumentStores p inp regs, s.Inside) ↔ ArgumentsFit p inp k regs := by
  unfold Kernel.argumentStores ArgumentsFit
  cases hcall : Syscall.ofNumber regs.rax.toNat with
  | none => exact iff_of_true (List.forall_mem_nil _) fun h => by cases h
  | some call =>
    cases call with
    | exec =>
      rw [forall_prop_of_true rfl]
      dsimp only
      rw [Kernel.execStores]
      cases k.beforeArguments p inp.file with
      | none => exact iff_of_true (List.forall_mem_nil _) fun _ _ h => by cases h
      | some reached =>
        refine argStores_inside_iff.trans ⟨fun h _ _ _ => h, fun h => h _ _ rfl⟩
    | _ => exact iff_of_true (List.forall_mem_nil _) fun h => by cases h

end Calls

/-! ## A message that overwrites the kernel -/

/-- A path at which there is nothing. -/
def sampleInputs : Inputs where
  file := .ofContents []
  fSize := 0
  stat := none
  opensDir := false
  entries := []
  argv _ := []
  key := 0
  fbWidth := 0
  fbHeight := 0
  fbPitch := 0
  fbBpp := 0
  padding := 0

/-- The current task has a message. The first page of the upper half is mapped for the kernel. -/
def sampleWaiting : Kernel :=
  { sampleLoader with
    vm :=
      { sampleVm with
        mem := fun frame i =>
          if frame = 0x1000 ∧ i.val = 256 then 0x2003
          else if frame = 0x2000 ∧ i.val = 0 then 0x3003
          else if frame = 0x3000 ∧ i.val = 0 then 0x4003
          else if frame = 0x4000 ∧ i.val = 0 then 0x5003
          else 0 }
    sched :=
      { sampleLoader.sched with
        task := fun _ =>
          { Task.zero with cr3 := 0x1000, msgs := fun _ => ⟨7, 1, 0, 0, 0⟩, msgCount := 1 }
        currentTask := 0x8000 } }

/-- `SYS_IPC_RECV` with a pointer to the start of the upper half. -/
def sampleRegisters : Registers := ⟨11, 0xFFFF800000000000, 0, 0, 0, 0⟩

/-- `SYS_UNMAP` of the same page clears its entry in the kernel's table. -/
example : sampleWaiting.entriesChanged sampleBios sampleInputs
    ⟨14, 0xFFFF800000000000, 0x1000, 0, 0, 0⟩ = [0xFFFF800000000000] := by decide +kernel

end OpenIDP.Exec
