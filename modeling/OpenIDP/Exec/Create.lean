import OpenIDP.Exec.ElfLoader

/-!
# Creating a process

`create_user_process_from_file` of `src/process/task.c` builds an address space, loads a program
into it, maps a stack, writes the arguments to the stack, and links a new task into the list of
tasks. More than 32 arguments overflow an array on the kernel's stack; what happens then is not
modelled, and the function has no result.

## Main definitions

* `Kernel.createUserProcessFromFile` — the function
-/

namespace OpenIDP.Exec

open OpenIDP.Math OpenIDP.Memory OpenIDP.Process

/-- `USER_STACK_SIZE` -/
def userStackSize : ℕ := 16 * 1024 * 1024

/-- `USER_STACK_TOP` -/
def userStackTop : ℕ := 0x700000000

/-- `USER_FB_BASE` -/
def userFbBase : ℕ := 0x800000000

/-- `sizeof(task_t)` -/
def taskSize : ℕ := 584

/-- The length of `user_argv_addrs`. -/
def maxArgs : ℕ := 32

/-- The arguments: `argc`, and the strings that `argv` leads to. -/
structure Args where
  argc : ℤ
  argv : ℕ → List (BitVec 8)

/-- The bytes of a word in memory. -/
def wordBytes (w : ℕ) : List (BitVec 8) := (List.range 8).map fun r => BitVec.ofNat 8 (byteOf w r)

theorem length_wordBytes (w : ℕ) : (wordBytes w).length = 8 := by
  rw [wordBytes, List.length_map, List.length_range]

namespace Kernel

/-- The new PML4: its frame, what goes into `cr3`, and the state. -/
def newPml4 (p : Platform) (k : Kernel) : Option (ℕ × ℕ × Kernel) :=
  match k.vm.allocFrame with
  | (page, v₁) => do
    let k₁ := { k with vm := v₁, nullUsed := k.nullUsed || page.isNone }
    let frame ← page <|> k₁.nullPage
    some (frame, physOf v₁ page, { k₁ with vm := v₁.copyKernelHalf frame p.kernelPml4 })

/-- The loop that maps the stack: `n` more pages, the next of them with number `i`. The result
says whether all pages could be mapped, and where the first one is. -/
def mapStack (pml4 : ℕ) : ℕ → ℕ → ℕ → Vm → Option (Bool × ℕ × Vm)
  | 0, _, stackPage, v => some (true, stackPage, v)
  | n + 1, i, stackPage, v =>
    match v.allocFrame with
    | (none, v₁) => some (false, stackPage, v₁)
    | (some phys, v₁) => do
      let v₂ ← v₁.vmmMapPage pml4 (userStackTop - (i + 1) * 4096) phys 7
      mapStack pml4 n (i + 1) (if i = 0 then phys else stackPage) v₂

/-- The physical address at an offset from the start of the first stack page. -/
def stackAddr (stackPage : ℕ) (offset : ℤ) : ℕ := toU64 (stackPage + offset)

/-- The loop that copies the strings: `n` more of them, the next with number `i`. The result is
the offset it came to, and the addresses of the strings. -/
def copyStrings (argv : ℕ → List (BitVec 8)) (stackPage : ℕ) :
    ℕ → ℕ → ℤ → Vm → ℤ × List ℕ × Vm
  | 0, _, offset, v => (offset, [], v)
  | n + 1, i, offset, v =>
    let offset := offset - toInt32 ((argv i).length + 1)
    let v₁ := v.writeBytes (stackAddr stackPage offset) (argv i ++ [0#8])
    match copyStrings argv stackPage n (i + 1) offset v₁ with
    | (last, addrs, v₂) => (last, toU64 (userStackTop - (4096 - offset)) :: addrs, v₂)

/-- Writes words one after the other. -/
def writeWords (stackPage : ℕ) : ℤ → List ℕ → Vm → Vm
  | _, [], v => v
  | offset, w :: words, v =>
    writeWords stackPage (offset + 8) words
      (v.writeBytes (stackAddr stackPage offset) (wordBytes w))

/-- The part that passes the arguments. -/
def passArgs (args : Args) (stackPage : ℕ) (v : Vm) : Option Vm :=
  if (maxArgs : ℤ) < args.argc then
    none
  else
    match copyStrings args.argv stackPage args.argc.toNat 0 4096 v with
    | (offset, addrs, v₁) =>
      let offset := offset - offset.tmod 8
      let offset := offset - (args.argc + 1) * 8
      let v₂ := writeWords stackPage offset addrs v₁
      some (writeWords stackPage (offset + 8 * args.argc) [0] v₂)

/-- The loop that maps the framebuffer: `n` more pages, from `offset` on. -/
def mapFramebuffer (fbPhys pml4 : ℕ) : ℕ → ℕ → Vm → Option Vm
  | 0, _, v => some v
  | n + 1, offset, v => do
    let v₁ ← v.vmmMapPage pml4 (wrap (userFbBase + offset)) (wrap (fbPhys + offset))
      (vmmPresent ||| vmmWrite ||| vmmUser ||| vmmPcd ||| vmmPwt)
    mapFramebuffer fbPhys pml4 n (offset + pageSize) v₁

/-- The last part: the task is allocated, filled in and linked. -/
def addProcess (p : Platform) (isWm : Bool) (pml4 cr3 programBreak : ℕ) (k : Kernel) :
    Option (ℤ × Kernel) := do
  let (newTask, k₁) ← k.kmalloc p taskSize
  let (stack, k₂) ← k₁.kmalloc p (4096 * 4)
  let fbPhys := sub64 p.fbAddress k₂.vm.pmm.hhdm
  let fbPages := if isWm then (p.fbSize + pageSize - 1) / pageSize else 0
  let v ← mapFramebuffer fbPhys pml4 fbPages 0 k₂.vm
  some (toInt32 k₂.sched.nextPid,
    { k₂ with vm := v, sched := k₂.sched.addTask newTask stack cr3 programBreak isWm })

/-- `create_user_process_from_file`. The check of `kernel_stack` never fails. -/
def createUserProcessFromFile (p : Platform) (file : FatFile) (args : Args) (isWm : Bool)
    (k : Kernel) : Option (ℤ × Kernel) := do
  let (pml4, cr3, k₁) ← k.newPml4 p
  let (elf, k₂) ← k₁.loadElfFile p file pml4
  match elf with
  | none => some (-1, k₂)
  | some elf => do
    let (done, stackPage, v₃) ← mapStack pml4 (userStackSize / 4096) 0 0 k₂.vm
    if done then do
      let v₄ ← passArgs args stackPage v₃
      addProcess p isWm pml4 cr3 elf.programBreak { k₂ with vm := v₄ }
    else
      some (-1, { k₂ with vm := v₃ })

end Kernel

end OpenIDP.Exec
