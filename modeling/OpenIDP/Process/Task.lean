import OpenIDP.Math.Ring
import OpenIDP.Math.Word

/-!
# Tasks and the scheduler

`src/process/task.c` keeps the tasks in a circular list, from `task_head` on. The timer
interrupt calls `scheduler_schedule`, which saves the stack pointer of the current task
and resumes the next one; `task_exit` takes the current task out of the list and leaves
it in `zombie_task`, and the next timer interrupt gives back what it owned.

A `Sched` holds the task structs in memory, the static variables of the file, and the two
processor registers the scheduler writes. Pointers are addresses and `0` is `NULL`.
The calls by which a task's memory is given back are listed in order, as `Release`
values. Loops have no result when they do not end.
-/

namespace OpenIDP.Process

open OpenIDP.Math

/-- `message_t` -/
structure Message where
  senderPid : ℤ
  type : ℤ
  data1 : ℕ
  data2 : ℕ
  data3 : ℕ

/-- `task_t` -/
structure Task where
  rsp : ℕ
  cr3 : ℕ
  pid : ℕ
  kernelStack : ℕ
  next : ℕ
  isWm : Bool
  programBreak : ℕ
  /-- the array, and the memory before and behind it -/
  msgs : ℤ → Message
  msgHead : ℤ
  msgTail : ℤ
  msgCount : ℤ
  waitingForMsg : ℤ

/-- `memset(new_task, 0, sizeof(task_t))` -/
def Task.zero : Task where
  rsp := 0
  cr3 := 0
  pid := 0
  kernelStack := 0
  next := 0
  isWm := false
  programBreak := 0
  msgs _ := ⟨0, 0, 0, 0, 0⟩
  msgHead := 0
  msgTail := 0
  msgCount := 0
  waitingForMsg := 0

/-- The words `create_user_process_from_file` pushes on a new kernel stack: the frame
for `iretq` and the general purpose registers. -/
def initialFrameWords : ℕ := 20

/-- The task structs, the static variables of `task.c`, and the registers `CR3` and
`TSS.rsp0`. -/
structure Sched where
  /-- the task struct at an address -/
  task : ℕ → Task
  currentTask : ℕ
  taskHead : ℕ
  zombieTask : ℕ
  nextPid : ℕ
  cr3 : ℕ
  tssRsp0 : ℕ

/-- A call that gives back what a task owned. -/
inductive Release
  | kfree (ptr : ℕ)
  | destroyUserMemory (pml4Phys : ℕ)
  | pmmFreePage (addr : ℕ)
  deriving DecidableEq

/-- The rounds after which a walk along the list has come back to a task it has already
seen. -/
def maxTasks : ℕ := 2 ^ 64

namespace Sched

variable (s : Sched)

/-- Writes one task struct. -/
def setTask (addr : ℕ) (t : Task) : Sched := { s with task := Function.update s.task addr t }

/-- `task->next` -/
def next (addr : ℕ) : ℕ := (s.task addr).next

/-- `task->next = value` -/
def setNext (addr value : ℕ) : Sched := s.setTask addr { s.task addr with next := value }

/-- `scheduler_init`, with the block `kmalloc` returned for the root task. Only three of
its fields are written. -/
def schedulerInit (rootTask : ℕ) : Sched :=
  { s.setTask rootTask { s.task rootTask with pid := 0, next := rootTask, rsp := 0 } with
    currentTask := rootTask
    taskHead := rootTask }

/-- Loads the page tables of the current task, if it has any and they are not loaded. -/
def switchCr3 : Sched :=
  if (s.task s.currentTask).cr3 ≠ 0 ∧ (s.task s.currentTask).cr3 ≠ s.cr3 then
    { s with cr3 := (s.task s.currentTask).cr3 }
  else
    s

/-- The calls that give back what the task at `addr` owned. -/
def releases (hhdm addr : ℕ) : List Release :=
  [.kfree (sub64 (s.task addr).kernelStack 4096),
    .destroyUserMemory (s.task addr).cr3,
    .pmmFreePage (wrap ((s.task addr).cr3 + hhdm)),
    .kfree addr]

/-- The first part of `scheduler_schedule`, with the calls it makes. -/
def reapZombie (hhdm : ℕ) : Sched × List Release :=
  if s.zombieTask ≠ 0 then
    ({ s with zombieTask := 0 }, s.releases hhdm s.zombieTask)
  else
    (s, [])

/-- The second part of `scheduler_schedule`: the stack pointer to return, and the state. -/
def switchNext (currentRsp : ℕ) : ℕ × Sched :=
  if s.currentTask = 0 then
    (currentRsp, s)
  else
    let s₁ := s.setTask s.currentTask { s.task s.currentTask with rsp := currentRsp }
    let s₂ := { s₁ with currentTask := s₁.next s₁.currentTask }
    let s₃ := { s₂ with tssRsp0 := (s₂.task s₂.currentTask).kernelStack }
    let s₄ := s₃.switchCr3
    ((s₄.task s₄.currentTask).rsp, s₄)

/-- `scheduler_schedule` -/
def schedulerSchedule (hhdm currentRsp : ℕ) : ℕ × Sched × List Release :=
  let (s₁, released) := s.reapZombie hhdm
  let (rsp, s₂) := s₁.switchNext currentRsp
  (rsp, s₂, released)

/-- The part of `create_user_process_from_file` that fills in the task struct and links it
behind the first task. `newTask` and `stack` are what `kmalloc` returned. -/
def addTask (newTask stack pml4Phys programBreak : ℕ) (isWm : Bool) : Sched :=
  let kernelStack := wrap (stack + 4096)
  let t : Task :=
    { Task.zero with
      pid := s.nextPid
      cr3 := pml4Phys
      kernelStack := kernelStack
      programBreak := programBreak
      isWm := isWm
      rsp := sub64 kernelStack (8 * initialFrameWords)
      next := s.next s.taskHead }
  let s₁ := { s.setTask newTask t with nextPid := wrap (s.nextPid + 1) }
  s₁.setNext s₁.taskHead newTask

/-- The loop of `task_exit` that looks for the predecessor of the task to unlink; coming
back to the first task is its panic. -/
def findPrev (victim : ℕ) : ℕ → ℕ → Option ℕ
  | 0, _ => none
  | rounds + 1, prev =>
    if s.next prev = victim then some prev
    else if s.next prev = s.taskHead ∧ victim ≠ s.taskHead then none
    else findPrev victim rounds (s.next prev)

/-- The part of `task_exit` that unlinks the victim from the list. -/
def unlink (victim prev : ℕ) : Sched :=
  let s₁ := s.setNext prev (s.next victim)
  if victim = s₁.taskHead then { s₁ with taskHead := s₁.next victim } else s₁

/-- `task_exit`: the stack pointer passed to `exit_switch_to`, and the state. -/
def taskExit : Option (ℕ × Sched) := do
  let victim := s.currentTask
  let prev ← s.findPrev victim maxTasks s.taskHead
  let s₁ := s.unlink victim prev
  let s₂ := { s₁ with zombieTask := victim, currentTask := s₁.next victim }
  let s₃ := { s₂ with tssRsp0 := wrap ((s₂.task s₂.currentTask).kernelStack + 4096) }
  let s₄ := s₃.switchCr3
  some ((s₄.task s₄.currentTask).rsp, s₄)

/-- `get_task_by_pid` -/
def getTaskByPid (pid : ℕ) : Option ℕ :=
  ringSearch s.next s.taskHead (fun curr => (s.task curr).pid == pid) maxTasks s.taskHead

end Sched

end OpenIDP.Process
