import Mathlib.Data.List.Perm.Basic
import Mathlib.Data.Set.Basic
import OpenIDP.Math.Reaches
import OpenIDP.Process.SchedRing

/-!
# Runs of the scheduler

A run starts after `scheduler_init` and consists of process creations, timer interrupts,
and exits of the current task when it is not the root task: `task_exit` is only called
for a system call of a user task. The pieces of the kernel heap and the page frames that
are in use are part of the state: what a creation gets from `kmalloc` and
`pmm_alloc_page` is none of them, and reaping a task gives its own back.

Each step has a label that records which task was preempted, resumed or taken out, and
the stack pointer used, so that statements about a run can speak about its history.

## Main definitions

* `Boot`, `SchedState`, `SchedEvent`, `SchedStep` — the runs
* `alive`, `savedRsp`, `created` — what a history says
* `SchedInv` — what holds in every state of a run

## Main results

* `SchedInv.step` — every step keeps the invariant
-/

namespace OpenIDP.Process

open OpenIDP.Math

/-- The machine at the call of `scheduler_init`: what memory holds in place of task
structs, the block `kmalloc` returns for the root task, and what is in use. `CR3` holds
the kernel's own page tables. Page frame `0` is not usable memory. -/
structure Boot where
  task : ℕ → Task
  rootTask : ℕ
  kernelPml4 : ℕ
  tssRsp0 : ℕ
  hhdm : ℕ
  blocks : Set ℕ
  frames : Set ℕ
  rootTask_pos : 0 < rootTask
  rootTask_lt : rootTask < 2 ^ 64
  kernelPml4_pos : 0 < kernelPml4
  kernelPml4_lt : kernelPml4 < 2 ^ 64
  hhdm_lt : hhdm < 2 ^ 64

/-- The scheduler, the blocks of the kernel heap that are not free, and the frames that
hold page tables. -/
structure SchedState where
  sched : Sched
  blocks : Set ℕ
  frames : Set ℕ

/-- The state after `scheduler_init`. -/
def Boot.start (b : Boot) : SchedState where
  sched := Sched.schedulerInit
    { task := b.task
      currentTask := 0
      taskHead := 0
      zombieTask := 0
      nextPid := 1
      cr3 := b.kernelPml4
      tssRsp0 := b.tssRsp0 } b.rootTask
  blocks := insert b.rootTask b.blocks
  frames := insert b.kernelPml4 b.frames

/-- A task that has exited: its struct, and what it owned. -/
structure Exited where
  task : ℕ
  kernelStack : ℕ
  cr3 : ℕ

/-- The calls that give back what an exited task owned. -/
def Exited.releases (hhdm : ℕ) (e : Exited) : List Release :=
  [.kfree (sub64 e.kernelStack 4096), .destroyUserMemory e.cr3,
    .pmmFreePage (wrap (e.cr3 + hhdm)), .kfree e.task]

/-- What the struct of a task says about it. -/
def Sched.exited (s : Sched) (addr : ℕ) : Exited :=
  ⟨addr, (s.task addr).kernelStack, (s.task addr).cr3⟩

/-- What happened in a step. -/
inductive SchedEvent
  /-- a task was created with the given initial stack pointer -/
  | create (task frame : ℕ)
  /-- a task was preempted at `rsp` and a task resumed at `sp` -/
  | schedule (preempted rsp resumed sp : ℕ) (released : List Release)
  /-- a task exited and another one was resumed at `sp` -/
  | exit (victim : Exited) (resumed sp : ℕ)

/-- What `kmalloc` and `pmm_alloc_page` return is not in use. -/
structure SchedState.Fresh (s : SchedState) (newTask stack pml4Phys : ℕ) : Prop where
  task_notMem : newTask ∉ s.blocks
  stack_notMem : stack ∉ s.blocks
  ne : newTask ≠ stack
  frame_notMem : pml4Phys ∉ s.frames
  task_pos : 0 < newTask
  task_lt : newTask < 2 ^ 64
  stack_lt : stack < 2 ^ 64
  frame_pos : 0 < pml4Phys
  frame_lt : pml4Phys < 2 ^ 64

/-- The blocks that `kfree` is called for. -/
def freedBlocks (released : List Release) : Set ℕ := {ptr | .kfree ptr ∈ released}

/-- The frames that `pmm_free_page` is called for. -/
def freedFrames (hhdm : ℕ) (released : List Release) : Set ℕ :=
  {frame | ∃ addr, .pmmFreePage addr ∈ released ∧ frame = sub64 addr hhdm}

/-- One step of the scheduler. -/
inductive SchedStep (b : Boot) : SchedState → SchedEvent → SchedState → Prop
  | create {s : SchedState} {newTask stack pml4Phys : ℕ} (programBreak : ℕ) (isWm : Bool)
      (h : s.Fresh newTask stack pml4Phys) :
      SchedStep b s
        (.create newTask (sub64 (wrap (stack + 4096)) (8 * initialFrameWords)))
        ⟨s.sched.addTask newTask stack pml4Phys programBreak isWm,
          insert newTask (insert stack s.blocks), insert pml4Phys s.frames⟩
  | schedule {s : SchedState} {rsp sp : ℕ} {sched' : Sched} {released : List Release}
      (h : s.sched.schedulerSchedule b.hhdm rsp = (sp, sched', released)) :
      SchedStep b s (.schedule s.sched.currentTask rsp sched'.currentTask sp released)
        ⟨sched', s.blocks \ freedBlocks released, s.frames \ freedFrames b.hhdm released⟩
  | exit {s : SchedState} {sp : ℕ} {sched' : Sched}
      (hroot : s.sched.currentTask ≠ b.rootTask) (h : s.sched.taskExit = some (sp, sched')) :
      SchedStep b s (.exit (s.sched.exited s.sched.currentTask) sched'.currentTask sp)
        ⟨sched', s.blocks, s.frames⟩

/-! ## What a history says -/

/-- The root task and the tasks that were created and have not exited. -/
def alive (root : ℕ) : List SchedEvent → List ℕ
  | [] => [root]
  | .create task _ :: history => task :: alive root history
  | .schedule .. :: history => alive root history
  | .exit victim _ _ :: history => (alive root history).erase victim.task

/-- The stack pointer at a task's last preemption, or its initial one. -/
def savedRsp : List SchedEvent → ℕ → Option ℕ
  | [], _ => none
  | .create task frame :: history, a => if a = task then some frame else savedRsp history a
  | .schedule preempted rsp _ _ _ :: history, a =>
    if a = preempted then some rsp else savedRsp history a
  | .exit .. :: history, a => savedRsp history a

/-- The number of creations. -/
def created : List SchedEvent → ℕ
  | [] => 0
  | .create .. :: history => created history + 1
  | _ :: history => created history

/-! ## The invariant -/

/-- The created tasks whose memory has not been given back, as far as the scheduler knows
them: those in the ring and the pending zombie. -/
def Sched.tracked (s : Sched) (rest : List ℕ) : List ℕ :=
  if s.zombieTask = 0 then rest else s.zombieTask :: rest

/-- Tracked tasks own their struct, their kernel stack and their page tables. -/
structure SchedState.Owned (b : Boot) (s : SchedState) (rest : List ℕ) : Prop where
  root_mem : b.rootTask ∈ s.blocks
  kernel_mem : b.kernelPml4 ∈ s.frames
  task_mem : ∀ a ∈ s.sched.tracked rest, a ∈ s.blocks
  stack_mem : ∀ a ∈ s.sched.tracked rest, s.sched.stackOf a ∈ s.blocks
  stack_ne_root : ∀ a ∈ s.sched.tracked rest, s.sched.stackOf a ≠ b.rootTask
  stack_ne_task : ∀ a ∈ s.sched.tracked rest, ∀ c ∈ s.sched.tracked rest,
    s.sched.stackOf a ≠ c
  stack_inj : ∀ a ∈ s.sched.tracked rest, ∀ c ∈ s.sched.tracked rest,
    s.sched.stackOf a = s.sched.stackOf c → a = c
  cr3_mem : ∀ a ∈ s.sched.tracked rest, (s.sched.task a).cr3 ∈ s.frames
  cr3_pos : ∀ a ∈ s.sched.tracked rest, 0 < (s.sched.task a).cr3
  cr3_lt : ∀ a ∈ s.sched.tracked rest, (s.sched.task a).cr3 < 2 ^ 64
  cr3_ne_kernel : ∀ a ∈ s.sched.tracked rest, (s.sched.task a).cr3 ≠ b.kernelPml4
  cr3_inj : ∀ a ∈ s.sched.tracked rest, ∀ c ∈ s.sched.tracked rest,
    (s.sched.task a).cr3 = (s.sched.task c).cr3 → a = c

/-- What holds in every state of a run. -/
structure SchedInv (b : Boot) (history : List SchedEvent) (s : SchedState)
    (rest : List ℕ) : Prop where
  onRing : s.sched.OnRing b.rootTask rest
  owned : s.Owned b rest
  alive_perm : (b.rootTask :: rest).Perm (alive b.rootTask history)
  saved : ∀ a ∈ b.rootTask :: rest, a ≠ s.sched.currentTask →
    savedRsp history a = some (s.sched.task a).rsp
  nextPid_eq : s.sched.nextPid = wrap (1 + created history)
  pids : created history < 2 ^ 64 →
    ((b.rootTask :: rest).map fun a => (s.sched.task a).pid).Nodup ∧
      ∀ a ∈ b.rootTask :: rest, (s.sched.task a).pid ≤ created history
  rootPid_eq : (s.sched.task b.rootTask).pid = 0
  rootCr3_eq : (s.sched.task b.rootTask).cr3 = (b.task b.rootTask).cr3
  loaded : s.sched.currentTask ≠ b.rootTask →
    s.sched.cr3 = (s.sched.task s.sched.currentTask).cr3

section Steps

variable {b : Boot} {s s' : SchedState} {history : List SchedEvent} {event : SchedEvent}
variable {rest : List ℕ} {a newTask stack pml4Phys programBreak rsp sp : ℕ} {isWm : Bool}
variable {sched' : Sched} {released : List Release}

theorem Sched.mem_tracked {s : Sched} :
    a ∈ s.tracked rest ↔ a ∈ rest ∨ s.zombieTask ≠ 0 ∧ a = s.zombieTask := by
  unfold Sched.tracked
  split_ifs with hzero
  · simp [hzero]
  · rw [List.mem_cons, or_comm]
    simp [hzero]

theorem SchedInv.start (b : Boot) : SchedInv b [] b.start [] := by
  have hroot : (b.start.sched.task b.rootTask) =
      { b.task b.rootTask with pid := 0, next := b.rootTask, rsp := 0 } :=
    Function.update_self _ _ _
  have hne : b.rootTask ≠ 0 := Nat.pos_iff_ne_zero.mp b.rootTask_pos
  have htracked : ∀ a ∈ b.start.sched.tracked [], False := by
    intro a ha
    rcases Sched.mem_tracked.mp ha with hmem | hzombie
    · cases hmem
    · exact hzombie.1 rfl
  refine ⟨⟨rfl, ring_singleton ?_, List.mem_singleton.mpr rfl, ?_, ?_⟩, ?_, .refl _, ?_, rfl,
    ?_, ?_, ?_, ?_⟩
  · rw [Sched.next, hroot]
  · exact fun hmem => hne (List.mem_singleton.mp hmem).symm
  · intro a ha
    rw [List.mem_singleton.mp ha]
    exact ⟨b.rootTask_pos, b.rootTask_lt⟩
  · constructor
    · exact Set.mem_insert _ _
    · exact Set.mem_insert _ _
    all_goals exact fun a ha => (htracked a ha).elim
  · exact fun a ha hcurrent => absurd (List.mem_singleton.mp ha) hcurrent
  · refine fun _ => ⟨List.nodup_singleton _, fun a ha => ?_⟩
    rw [List.mem_singleton.mp ha, hroot]
    exact Nat.le_refl 0
  · rw [hroot]
  · rw [hroot]
  · exact fun hcurrent => absurd rfl hcurrent

/-! ## Ownership -/

/-- Tasks that stay tracked keep what they own, if it is not given back. -/
theorem SchedState.Owned.of_subset {rest' : List ℕ} (h : s.Owned b rest)
    (hsub : ∀ a ∈ s'.sched.tracked rest', a ∈ s.sched.tracked rest)
    (hsame : ∀ a, Sched.SameOwner (s.sched.task a) (s'.sched.task a))
    (hroot : b.rootTask ∈ s'.blocks) (hkernel : b.kernelPml4 ∈ s'.frames)
    (htask : ∀ a ∈ s'.sched.tracked rest', a ∈ s'.blocks)
    (hstack : ∀ a ∈ s'.sched.tracked rest', s.sched.stackOf a ∈ s'.blocks)
    (hframe : ∀ a ∈ s'.sched.tracked rest', (s.sched.task a).cr3 ∈ s'.frames) :
    s'.Owned b rest' := by
  have hstackOf : ∀ a, s'.sched.stackOf a = s.sched.stackOf a := fun a => by
    rw [Sched.stackOf, Sched.stackOf, (hsame a).kernelStack_eq]
  have hcr3 : ∀ a, (s'.sched.task a).cr3 = (s.sched.task a).cr3 := fun a => (hsame a).cr3_eq
  constructor
  all_goals try simp only [hstackOf, hcr3]
  · exact hroot
  · exact hkernel
  · exact htask
  · exact hstack
  · exact fun a ha => h.stack_ne_root a (hsub a ha)
  · exact fun a ha c hc => h.stack_ne_task a (hsub a ha) c (hsub c hc)
  · exact fun a ha c hc => h.stack_inj a (hsub a ha) c (hsub c hc)
  · exact hframe
  · exact fun a ha => h.cr3_pos a (hsub a ha)
  · exact fun a ha => h.cr3_lt a (hsub a ha)
  · exact fun a ha => h.cr3_ne_kernel a (hsub a ha)
  · exact fun a ha c hc => h.cr3_inj a (hsub a ha) c (hsub c hc)

/-- A new task owns what it was given. -/
theorem SchedState.Owned.create (h : s.Owned b rest) (hfresh : s.Fresh newTask stack pml4Phys)
    (hhead : newTask ≠ s.sched.taskHead) :
    SchedState.Owned b ⟨s.sched.addTask newTask stack pml4Phys programBreak isWm,
      insert newTask (insert stack s.blocks), insert pml4Phys s.frames⟩ (newTask :: rest) := by
  obtain ⟨-, hsame⟩ := Sched.addTask_fields stack pml4Phys programBreak isWm hhead
  obtain ⟨-, hcr3, hkernelStack, -⟩ :=
    Sched.addTask_task stack pml4Phys programBreak isWm hhead
  have hcases : ∀ a ∈ (s.sched.addTask newTask stack pml4Phys programBreak isWm).tracked
      (newTask :: rest), a = newTask ∨ a ∈ s.sched.tracked rest := by
    intro a ha
    rcases Sched.mem_tracked.mp ha with hmem | hzombie
    · exact (List.mem_cons.mp hmem).imp_right fun h => Sched.mem_tracked.mpr (Or.inl h)
    · exact Or.inr (Sched.mem_tracked.mpr (Or.inr hzombie))
  have hne : ∀ a ∈ s.sched.tracked rest, a ≠ newTask := fun a ha e =>
    hfresh.task_notMem (e ▸ h.task_mem a ha)
  have hstackNew : (s.sched.addTask newTask stack pml4Phys programBreak isWm).stackOf newTask =
      stack := by
    rw [Sched.stackOf, hkernelStack, sub64_wrap_add hfresh.stack_lt (by decide)]
  have hstackOld : ∀ a ∈ s.sched.tracked rest,
      (s.sched.addTask newTask stack pml4Phys programBreak isWm).stackOf a =
        s.sched.stackOf a := fun a ha => by
    rw [Sched.stackOf, Sched.stackOf, (hsame a (hne a ha)).1.kernelStack_eq]
  have hcr3Old : ∀ a ∈ s.sched.tracked rest,
      ((s.sched.addTask newTask stack pml4Phys programBreak isWm).task a).cr3 =
        (s.sched.task a).cr3 := fun a ha => (hsame a (hne a ha)).1.cr3_eq
  -- what is given out was not in use, so it is none of what tracked tasks own
  have hstack : ∀ a ∈ s.sched.tracked rest, s.sched.stackOf a ≠ stack := fun a ha e =>
    hfresh.stack_notMem (e ▸ h.stack_mem a ha)
  have hframe : ∀ a ∈ s.sched.tracked rest, (s.sched.task a).cr3 ≠ pml4Phys := fun a ha e =>
    hfresh.frame_notMem (e ▸ h.cr3_mem a ha)
  constructor
  · exact Set.mem_insert_of_mem _ (Set.mem_insert_of_mem _ h.root_mem)
  · exact Set.mem_insert_of_mem _ h.kernel_mem
  · intro a ha
    rcases hcases a ha with rfl | ha
    · exact Set.mem_insert _ _
    · exact Set.mem_insert_of_mem _ (Set.mem_insert_of_mem _ (h.task_mem a ha))
  · intro a ha
    rcases hcases a ha with rfl | ha
    · rw [hstackNew]
      exact Set.mem_insert_of_mem _ (Set.mem_insert _ _)
    · rw [hstackOld a ha]
      exact Set.mem_insert_of_mem _ (Set.mem_insert_of_mem _ (h.stack_mem a ha))
  · intro a ha
    rcases hcases a ha with rfl | ha
    · rw [hstackNew]
      exact fun e => hfresh.stack_notMem (e ▸ h.root_mem)
    · rw [hstackOld a ha]
      exact h.stack_ne_root a ha
  · intro a ha c hc
    rcases hcases a ha with rfl | hta <;> rcases hcases c hc with rfl | htc
    · rw [hstackNew]
      exact hfresh.ne.symm
    · rw [hstackNew]
      exact fun e => hfresh.stack_notMem (e ▸ h.task_mem c htc)
    · rw [hstackOld a hta]
      exact fun e => hfresh.task_notMem (e ▸ h.stack_mem a hta)
    · rw [hstackOld a hta]
      exact h.stack_ne_task a hta c htc
  · intro a ha c hc
    rcases hcases a ha with rfl | hta <;> rcases hcases c hc with rfl | htc
    · exact fun _ => rfl
    · rw [hstackNew, hstackOld c htc]
      exact fun e => absurd e.symm (hstack c htc)
    · rw [hstackNew, hstackOld a hta]
      exact fun e => absurd e (hstack a hta)
    · rw [hstackOld a hta, hstackOld c htc]
      exact h.stack_inj a hta c htc
  · intro a ha
    rcases hcases a ha with rfl | ha
    · rw [hcr3]
      exact Set.mem_insert _ _
    · rw [hcr3Old a ha]
      exact Set.mem_insert_of_mem _ (h.cr3_mem a ha)
  · intro a ha
    rcases hcases a ha with rfl | ha
    · rw [hcr3]
      exact hfresh.frame_pos
    · rw [hcr3Old a ha]
      exact h.cr3_pos a ha
  · intro a ha
    rcases hcases a ha with rfl | ha
    · rw [hcr3]
      exact hfresh.frame_lt
    · rw [hcr3Old a ha]
      exact h.cr3_lt a ha
  · intro a ha
    rcases hcases a ha with rfl | ha
    · rw [hcr3]
      exact fun e => hfresh.frame_notMem (e ▸ h.kernel_mem)
    · rw [hcr3Old a ha]
      exact h.cr3_ne_kernel a ha
  · intro a ha c hc
    rcases hcases a ha with rfl | hta <;> rcases hcases c hc with rfl | htc
    · exact fun _ => rfl
    · rw [hcr3, hcr3Old c htc]
      exact fun e => absurd e.symm (hframe c htc)
    · rw [hcr3, hcr3Old a hta]
      exact fun e => absurd e (hframe a hta)
    · rw [hcr3Old a hta, hcr3Old c htc]
      exact h.cr3_inj a hta c htc

/-- The blocks and the frame that reaping a task gives back. -/
theorem mem_freedBlocks (hhdm : ℕ) (s : Sched) (z : ℕ) {ptr : ℕ} :
    ptr ∈ freedBlocks (s.releases hhdm z) ↔ ptr = s.stackOf z ∨ ptr = z := by
  simp [freedBlocks, Sched.releases, Sched.stackOf]

theorem mem_freedFrames {hhdm : ℕ} (hhhdm : hhdm < 2 ^ 64) {s : Sched} {z : ℕ}
    (hz : (s.task z).cr3 < 2 ^ 64) {frame : ℕ} :
    frame ∈ freedFrames hhdm (s.releases hhdm z) ↔ frame = (s.task z).cr3 := by
  simp [freedFrames, Sched.releases, sub64_wrap_add hz hhhdm]

/-- A timer interrupt gives back what the zombie owned, and nothing of another task. -/
theorem SchedState.Owned.schedule (h : s.Owned b rest)
    (hring : s.sched.OnRing b.rootTask rest)
    (hrun : s.sched.schedulerSchedule b.hhdm rsp = (sp, sched', released)) :
    SchedState.Owned b ⟨sched', s.blocks \ freedBlocks released,
      s.frames \ freedFrames b.hhdm released⟩ rest := by
  obtain ⟨-, hsame, -, -, hzombie', -, -, -, hreleased⟩ :=
    Sched.schedulerSchedule_fields hring.current_ne_zero hrun
  have hrest : ∀ a ∈ sched'.tracked rest, a ∈ rest := by
    intro a ha
    rw [Sched.tracked, if_pos hzombie'] at ha
    exact ha
  have htracked : ∀ a ∈ rest, a ∈ s.sched.tracked rest := fun a ha =>
    Sched.mem_tracked.mpr (Or.inl ha)
  have hkept : (∀ a ∈ rest, a ∉ freedBlocks released ∧
      s.sched.stackOf a ∉ freedBlocks released ∧
        (s.sched.task a).cr3 ∉ freedFrames b.hhdm released) ∧
      b.rootTask ∉ freedBlocks released ∧ b.kernelPml4 ∉ freedFrames b.hhdm released := by
    by_cases hzero : s.sched.zombieTask = 0
    · rw [hreleased, if_pos hzero]
      simp [freedBlocks, freedFrames]
    · have hz : s.sched.zombieTask ∈ s.sched.tracked rest :=
        Sched.mem_tracked.mpr (Or.inr ⟨hzero, rfl⟩)
      have hne : ∀ a ∈ rest, a ≠ s.sched.zombieTask := fun a ha e =>
        hring.zombie_notMem (e ▸ List.mem_cons_of_mem _ ha)
      rw [hreleased, if_neg hzero]
      simp only [mem_freedBlocks, mem_freedFrames b.hhdm_lt (h.cr3_lt _ hz), not_or]
      refine ⟨fun a ha => ⟨⟨?_, hne a ha⟩, ⟨?_, ?_⟩, ?_⟩, ⟨?_, ?_⟩, ?_⟩
      · exact (h.stack_ne_task _ hz a (htracked a ha)).symm
      · exact fun e => hne a ha (h.stack_inj a (htracked a ha) _ hz e)
      · exact h.stack_ne_task a (htracked a ha) _ hz
      · exact fun e => hne a ha (h.cr3_inj a (htracked a ha) _ hz e)
      · exact (h.stack_ne_root _ hz).symm
      · exact fun e => hring.zombie_notMem (e ▸ List.mem_cons_self)
      · exact (h.cr3_ne_kernel _ hz).symm
  refine h.of_subset (fun a ha => htracked a (hrest a ha)) (fun a => (hsame a).1)
    ⟨h.root_mem, hkept.2.1⟩ ⟨h.kernel_mem, hkept.2.2⟩ (fun a ha => ?_) (fun a ha => ?_)
    fun a ha => ?_
  · exact ⟨h.task_mem a (htracked a (hrest a ha)), (hkept.1 a (hrest a ha)).1⟩
  · exact ⟨h.stack_mem a (htracked a (hrest a ha)), (hkept.1 a (hrest a ha)).2.1⟩
  · exact ⟨h.cr3_mem a (htracked a (hrest a ha)), (hkept.1 a (hrest a ha)).2.2⟩

/-! ## Every step keeps the invariant -/

theorem Sched.cr3After_of_pos {s : Sched} (h : 0 < (s.task a).cr3) :
    s.cr3After a = (s.task a).cr3 :=
  if_neg (Nat.pos_iff_ne_zero.mp h)

/-- A task of the ring other than the root task has page tables. -/
theorem SchedInv.cr3_pos (h : SchedInv b history s rest) (ha : a ∈ b.rootTask :: rest)
    (hne : a ≠ b.rootTask) : 0 < (s.sched.task a).cr3 :=
  h.owned.cr3_pos a (Sched.mem_tracked.mpr (Or.inl ((List.mem_cons.mp ha).resolve_left hne)))

/-- A new task is none of those in the ring, and not the zombie. -/
theorem SchedInv.fresh_notMem (h : SchedInv b history s rest)
    (hfresh : s.Fresh newTask stack pml4Phys) :
    newTask ∉ b.rootTask :: rest ∧ newTask ≠ s.sched.zombieTask := by
  constructor
  · intro hmem
    rcases List.mem_cons.mp hmem with hroot | hmem
    · exact hfresh.task_notMem (hroot ▸ h.owned.root_mem)
    · exact hfresh.task_notMem (h.owned.task_mem _ (Sched.mem_tracked.mpr (Or.inl hmem)))
  · intro heq
    have hne : s.sched.zombieTask ≠ 0 := heq ▸ Nat.pos_iff_ne_zero.mp hfresh.task_pos
    exact hfresh.task_notMem (h.owned.task_mem _ (Sched.mem_tracked.mpr (Or.inr ⟨hne, heq⟩)))

theorem SchedInv.create (h : SchedInv b history s rest)
    (hfresh : s.Fresh newTask stack pml4Phys) :
    SchedInv b
      (.create newTask (sub64 (wrap (stack + 4096)) (8 * initialFrameWords)) :: history)
      ⟨s.sched.addTask newTask stack pml4Phys programBreak isWm,
        insert newTask (insert stack s.blocks), insert pml4Phys s.frames⟩
      (newTask :: rest) := by
  obtain ⟨hnew, hzombie⟩ := h.fresh_notMem hfresh
  have hhead : newTask ≠ s.sched.taskHead := by
    rw [h.onRing.taskHead_eq]
    exact List.ne_of_not_mem_cons hnew
  obtain ⟨-, hsame⟩ := Sched.addTask_fields stack pml4Phys programBreak isWm hhead
  obtain ⟨hpid, -, -, hrsp⟩ := Sched.addTask_task stack pml4Phys programBreak isWm hhead
  have hold : ∀ a ∈ b.rootTask :: rest, a ≠ newTask := fun a ha e => hnew (e ▸ ha)
  have hswap : (b.rootTask :: newTask :: rest).Perm (newTask :: b.rootTask :: rest) :=
    .swap newTask b.rootTask rest
  refine ⟨h.onRing.addTask hnew hzombie hfresh.task_pos hfresh.task_lt,
    h.owned.create hfresh hhead, hswap.trans (h.alive_perm.cons newTask), ?_, ?_, ?_, ?_, ?_, ?_⟩
  -- The new task waits at the frame built on its stack; the others wait where they did.
  · intro a ha hcurrent
    rcases List.mem_cons.mp (hswap.mem_iff.mp ha) with rfl | ha
    · rw [savedRsp, if_pos rfl, hrsp]
    · rw [savedRsp, if_neg (hold a ha), (hsame a (hold a ha)).2]
      exact h.saved a ha hcurrent
  · change wrap (s.sched.nextPid + 1) = wrap (1 + (created history + 1))
    rw [h.nextPid_eq]
    unfold wrap
    omega
  · intro hlt
    have hlt' : created history + 1 < 2 ^ 64 := hlt
    obtain ⟨hnodup, hle⟩ := h.pids (by omega)
    have hpid' : s.sched.nextPid = created history + 1 := by
      rw [h.nextPid_eq, wrap_of_lt (by omega), Nat.add_comm]
    have hmap : ∀ a ∈ b.rootTask :: rest,
        ((s.sched.addTask newTask stack pml4Phys programBreak isWm).task a).pid =
          (s.sched.task a).pid := fun a ha => (hsame a (hold a ha)).1.pid_eq
    -- The new pid is above every old one as long as the counter has not wrapped.
    constructor
    · refine ((hswap.map _).nodup_iff).mpr (List.nodup_cons.mpr ⟨?_, ?_⟩)
      · intro hmem
        obtain ⟨a, ha, heq⟩ := List.mem_map.mp hmem
        have hpida := hle a ha
        change ((s.sched.addTask newTask stack pml4Phys programBreak isWm).task a).pid =
          ((s.sched.addTask newTask stack pml4Phys programBreak isWm).task newTask).pid at heq
        rw [hmap a ha, hpid] at heq
        omega
      · rw [List.map_congr_left hmap]
        exact hnodup
    · intro a ha
      rcases List.mem_cons.mp (hswap.mem_iff.mp ha) with rfl | ha
      · exact (hpid.trans hpid').le
      · exact ((hmap a ha).trans_le (hle a ha)).trans (Nat.le_succ _)
  · exact ((hsame _ (hold _ List.mem_cons_self)).1.pid_eq).trans h.rootPid_eq
  · exact ((hsame _ (hold _ List.mem_cons_self)).1.cr3_eq).trans h.rootCr3_eq
  · intro hcurrent
    exact (h.loaded hcurrent).trans (hsame _ (hold _ h.onRing.current_mem)).1.cr3_eq.symm

theorem SchedInv.schedule (h : SchedInv b history s rest)
    (hrun : s.sched.schedulerSchedule b.hhdm rsp = (sp, sched', released)) :
    SchedInv b
      (.schedule s.sched.currentTask rsp sched'.currentTask sp released :: history)
      ⟨sched', s.blocks \ freedBlocks released, s.frames \ freedFrames b.hhdm released⟩
      rest := by
  obtain ⟨-, hsame, hcurrent, -, -, hpid, hcr3, -, -⟩ :=
    Sched.schedulerSchedule_fields h.onRing.current_ne_zero hrun
  have hnext := h.onRing.ring.next_mem h.onRing.current_mem
  refine ⟨h.onRing.schedulerSchedule hrun, h.owned.schedule h.onRing hrun, h.alive_perm, ?_,
    hpid.trans h.nextPid_eq, ?_, (hsame _).1.pid_eq.trans h.rootPid_eq,
    (hsame _).1.cr3_eq.trans h.rootCr3_eq, ?_⟩
  · intro a ha _
    rw [savedRsp, (hsame a).2]
    split_ifs with heq
    · rfl
    · exact h.saved a ha heq
  · intro hlt
    obtain ⟨hnodup, hle⟩ := h.pids hlt
    have hmap : ∀ a ∈ b.rootTask :: rest, (sched'.task a).pid = (s.sched.task a).pid :=
      fun a _ => (hsame a).1.pid_eq
    refine ⟨?_, fun a ha => (hmap a ha).trans_le (hle a ha)⟩
    rw [List.map_congr_left hmap]
    exact hnodup
  · intro hroot
    change sched'.cr3 = (sched'.task sched'.currentTask).cr3
    change sched'.currentTask ≠ b.rootTask at hroot
    rw [hcurrent] at hroot ⊢
    rw [hcr3, Sched.cr3After_of_pos (h.cr3_pos hnext hroot)]
    exact (hsame _).1.cr3_eq.symm

theorem SchedInv.exit (h : SchedInv b history s rest)
    (hroot : s.sched.currentTask ≠ b.rootTask) (hrun : s.sched.taskExit = some (sp, sched')) :
    ∃ xs ys, rest = xs ++ s.sched.currentTask :: ys ∧ SchedInv b
      (.exit (s.sched.exited s.sched.currentTask) sched'.currentTask sp :: history)
      ⟨sched', s.blocks, s.frames⟩ (xs ++ ys) := by
  obtain ⟨sp', t, xs, ys, hrun', hrest, hring, hsame, hzombie, hcurrent, hpid, hcr3, -⟩ :=
    h.onRing.taskExit hroot
  obtain ⟨rfl, rfl⟩ := Prod.mk.inj (Option.some_inj.mp (hrun.symm.trans hrun'))
  have hsub : ∀ a ∈ xs ++ ys, a ∈ rest := by
    intro a ha
    rw [hrest]
    exact List.mem_append.mpr ((List.mem_append.mp ha).imp_right (List.mem_cons_of_mem _))
  have hsub' : ∀ a ∈ b.rootTask :: (xs ++ ys), a ∈ b.rootTask :: rest := fun a ha =>
    List.mem_cons.mpr ((List.mem_cons.mp ha).imp_right (hsub a))
  have hvictim : s.sched.currentTask ∈ rest :=
    (List.mem_cons.mp h.onRing.current_mem).resolve_left hroot
  -- The victim is the zombie now: its blocks and frames are still its own.
  have htracked : ∀ a ∈ sched'.tracked (xs ++ ys), a ∈ s.sched.tracked rest := by
    intro a ha
    refine Sched.mem_tracked.mpr (Or.inl ?_)
    rcases Sched.mem_tracked.mp ha with hmem | ⟨-, heq⟩
    · exact hsub a hmem
    · rw [heq, hzombie]
      exact hvictim
  have hmem := h.onRing.ring.next_mem h.onRing.current_mem
  refine ⟨xs, ys, hrest, hring, ?_, ?_, ?_, hpid.trans h.nextPid_eq, ?_,
    (hsame _).1.pid_eq.trans h.rootPid_eq, (hsame _).1.cr3_eq.trans h.rootCr3_eq, ?_⟩
  · exact h.owned.of_subset htracked (fun a => (hsame a).1) h.owned.root_mem h.owned.kernel_mem
      (fun a ha => h.owned.task_mem a (htracked a ha))
      (fun a ha => h.owned.stack_mem a (htracked a ha))
      fun a ha => h.owned.cr3_mem a (htracked a ha)
  -- The alive ones are the ring: the victim leaves both.
  · have hmiddle : (b.rootTask :: rest).Perm
        (s.sched.currentTask :: b.rootTask :: (xs ++ ys)) := by
      rw [hrest]
      exact (List.perm_middle.cons b.rootTask).trans (.swap _ _ _)
    exact (List.cons_perm_iff_perm_erase.mp (hmiddle.symm.trans h.alive_perm)).2
  · intro a ha hne
    rw [savedRsp, (hsame a).2]
    refine h.saved a (hsub' a ha) ?_
    rintro rfl
    exact hring.zombie_notMem (hzombie ▸ ha)
  · intro hlt
    obtain ⟨hnodup, hle⟩ := h.pids hlt
    have hmap : ∀ a ∈ b.rootTask :: (xs ++ ys),
        (sched'.task a).pid = (s.sched.task a).pid := fun a _ => (hsame a).1.pid_eq
    refine ⟨?_, fun a ha => (hmap a ha).trans_le (hle a (hsub' a ha))⟩
    rw [List.map_congr_left hmap]
    refine hnodup.sublist (List.Sublist.map _ (List.Sublist.cons_cons _ ?_))
    rw [hrest]
    exact List.Sublist.append_left (List.sublist_cons_self _ _) xs
  · intro hne
    change sched'.cr3 = (sched'.task sched'.currentTask).cr3
    change sched'.currentTask ≠ b.rootTask at hne
    rw [hcurrent] at hne ⊢
    rw [hcr3, Sched.cr3After_of_pos (h.cr3_pos hmem hne)]
    exact (hsame _).1.cr3_eq.symm

theorem SchedInv.step (h : SchedInv b history s rest) (hstep : SchedStep b s event s') :
    ∃ rest', SchedInv b (event :: history) s' rest' := by
  cases hstep with
  | create programBreak isWm hfresh => exact ⟨_, h.create hfresh⟩
  | schedule hrun => exact ⟨_, h.schedule hrun⟩
  | exit hroot hrun =>
    obtain ⟨xs, ys, -, h'⟩ := h.exit hroot hrun
    exact ⟨xs ++ ys, h'⟩

/-- The invariant holds in every state of a run. -/
theorem SchedInv.run (run : Reaches (SchedStep b) b.start history s) :
    ∃ rest, SchedInv b history s rest := by
  apply run.invariant (I := fun history s => ∃ rest, SchedInv b history s rest) ⟨[], .start b⟩
  rintro history s event s' ⟨rest, h⟩ hstep
  exact h.step hstep

end Steps

end OpenIDP.Process
