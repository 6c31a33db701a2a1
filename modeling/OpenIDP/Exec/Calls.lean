import OpenIDP.Exec.Create
import OpenIDP.Memory.Teardown
import OpenIDP.Process.Ipc

/-!
# System calls and interrupts

The calls by which `scheduler_schedule` gives back what a task owned are carried out on the
kernel's memory here. `sys_share_mem` of `src/syscall/sys_memory.c` reserves a range at the
program break of two tasks and maps the same fresh pages in both. `create_kernel_task` and
`scheduler_init` fill in a block of the kernel heap only in part: what else is in the task struct
is what the block held before.

## Main definitions

* `Kernel.release`, `Kernel.schedulerSchedule` — the timer interrupt
* `Kernel.sysShareMem` — the system call
* `Kernel.schedulerInit`, `Kernel.createKernelTask` — the task structs that are filled in in part
-/

namespace OpenIDP.Process

open OpenIDP.Math OpenIDP.Memory

namespace Sched

variable (s : Sched)

/-- The part of `sys_share_mem` that reserves a range at the program break of a task: where it
starts, and the state. -/
def reserve (addr size : ℕ) : ℕ × Sched :=
  let programBreak := (s.task addr).programBreak
  let start :=
    if programBreak &&& (pageSize - 1) ≠ 0 then alignUp programBreak pageSize else programBreak
  (start, s.setTask addr { s.task addr with programBreak := wrap (start + size) })

/-- The part of `create_kernel_task` that fills in the task struct and links it behind the first
task. The other fields are not written. -/
def addKernelTask (newTask stackBottom cr3 : ℕ) : Sched :=
  let t : Task :=
    { s.task newTask with
      rsp := sub64 (wrap (stackBottom + 4096)) (8 * initialFrameWords)
      pid := s.nextPid
      cr3 := cr3
      next := s.next s.taskHead }
  let s₁ := { s.setTask newTask t with nextPid := wrap (s.nextPid + 1) }
  s₁.setNext s₁.taskHead newTask

end Sched

end OpenIDP.Process

namespace OpenIDP.Exec

open OpenIDP.Math OpenIDP.Memory OpenIDP.Process

/-- The loop of `sys_share_mem`: `n` more pages, the next of them with number `i`. When there is
no free page the kernel halts. -/
def sharePages (myPml4 myVaddr theirPml4 theirVaddr : ℕ) : ℕ → ℕ → Vm → Option Vm
  | 0, _, v => some v
  | n + 1, i, v =>
    match v.allocFrame with
    | (none, _) => none
    | (some phys, v₁) => do
      let v₂ ← v₁.vmmMapPage myPml4 (wrap (myVaddr + i * pageSize)) phys 7
      let v₃ ← v₂.vmmMapPage theirPml4 (wrap (theirVaddr + i * pageSize)) phys 7
      sharePages myPml4 myVaddr theirPml4 theirVaddr n (i + 1) v₃

namespace Kernel

/-- Carries out a call that gives back what a task owned. -/
def release (k : Kernel) : Release → Option Kernel
  | .kfree ptr => k.kfree ptr
  | .destroyUserMemory pml4Phys => some { k with vm := k.vm.destroyUserMemory pml4Phys }
  | .pmmFreePage addr => some { k with vm := k.vm.freeFrame (sub64 addr k.vm.pmm.hhdm) }

/-- `scheduler_schedule`: the stack pointer to return, and the state. -/
def schedulerSchedule (currentRsp : ℕ) (k : Kernel) : Option (ℕ × Kernel) :=
  match k.sched.schedulerSchedule k.vm.pmm.hhdm currentRsp with
  | (rsp, sched, released) => do
    let k₁ ← released.foldlM release k
    some (rsp, { k₁ with sched := sched })

/-- `task_exit`: the stack pointer passed to `exit_switch_to`, and the state. -/
def taskExit (k : Kernel) : Option (ℕ × Kernel) := do
  let (rsp, sched) ← k.sched.taskExit
  some (rsp, { k with sched := sched })

/-- `sys_ipc_send` -/
def sysIpcSend (destPid type : ℤ) (d1 d2 d3 : ℕ) (k : Kernel) : Option (ℤ × Kernel) := do
  let (result, sched) ← k.sched.sysIpcSend destPid type d1 d2 d3
  some (result, { k with sched := sched })

/-- `sys_share_mem`. The address in the target is stored through the page tables in use. -/
def sysShareMem (targetPid : ℤ) (size out : ℕ) (k : Kernel) : Option (ℕ × Kernel) := do
  let size := alignUp size pageSize
  let target ← k.sched.getTaskByPid (toU64 targetPid)
  if target = 0 then
    some (0, k)
  else
    let (myVaddr, s₁) := k.sched.reserve k.sched.currentTask size
    let (theirVaddr, s₂) := s₁.reserve target size
    let v ← sharePages (s₂.task s₂.currentTask).cr3 myVaddr (s₂.task target).cr3 theirVaddr
      (size / pageSize) 0 k.vm
    let v₁ ← Vm.storeBytes k.sched.cr3 out (wordBytes theirVaddr) v
    some (myVaddr, { k with vm := v₁, sched := s₂ })

/-- `scheduler_init`, with the address of the root task. -/
def schedulerInit (p : Platform) (k : Kernel) : Option (ℕ × Kernel) := do
  let (rootTask, k₁) ← k.kmalloc p taskSize
  some (rootTask, { k₁ with sched := k₁.sched.schedulerInit rootTask })

/-- `vmm_create_process_pml4`: what goes into `cr3`, and the state. -/
def vmmCreateProcessPml4 (p : Platform) (k : Kernel) : ℕ × Kernel :=
  match k.vm.allocFrame with
  | (none, v₁) => (0, { k with vm := v₁ })
  | (some frame, v₁) => (frame, { k with vm := v₁.copyKernelHalf frame p.kernelPml4 })

/-- `create_kernel_task`, with the address of the new task. -/
def createKernelTask (p : Platform) (k : Kernel) : Option (ℕ × Kernel) := do
  let (newTask, k₁) ← k.kmalloc p taskSize
  let (stackBottom, k₂) ← k₁.kmalloc p 4096
  let (cr3, k₃) := k₂.vmmCreateProcessPml4 p
  some (newTask, { k₃ with sched := k₃.sched.addKernelTask newTask stackBottom cr3 })

end Kernel

end OpenIDP.Exec
