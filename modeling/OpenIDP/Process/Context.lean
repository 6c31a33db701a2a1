import OpenIDP.Math.Stack
import OpenIDP.Process.SchedKernelStack

/-!
# Switching between tasks

An interrupt saves the registers of the task that runs on a stack, and the timer interrupt goes on
with the registers that are saved on the stack of another task. The stubs of
`src/descriptors/idt.asm` push and pop them, `create_user_process_from_file` pushes those that a
task starts with, and `exit_switch_to` of `src/process/switch.asm` pops those of the task behind one
that exits. System calls run with interrupts off, but `sys_read_key` turns them on before it
returns: an interrupt that arrives there, before the `iretq` of the call, is left out here.

The processor is described with the registers that the stubs save, and memory with the words that
are on stacks: all of them are at multiples of eight. What else programs and the kernel do, they do
with any registers and in any words that are not on the stack of another task.

## Main definitions

* `interruptPushes`, `stubPushes`, `stubPops`, `iretqPops` — the order of the registers
* `enter`, `resume`, `irqHandler` — the stubs and `irq_handler`
* `Machine`, `ContextEvent`, `ContextStep` — the runs
* `lastContext` — the registers with which a task was left

## Main results

* `ContextInv.step` — the stack of every task that does not run has its registers
* `context_restored` — a task goes on with the registers with which it was left
-/

namespace OpenIDP.Process

open OpenIDP.Math

/-! ## The stubs -/

/-- The registers that are saved. -/
inductive Reg
  | rax | rbx | rcx | rdx | rsi | rdi | rbp
  | r8 | r9 | r10 | r11 | r12 | r13 | r14 | r15
  | rip | cs | rflags | rsp | ss
deriving DecidableEq

abbrev Registers := Reg → BitVec 64

/-- The words of memory, by their addresses. -/
abbrev Words := ℕ → BitVec 64

/-- What the processor pushes at an interrupt. -/
def interruptPushes : List Reg := [.ss, .rsp, .rflags, .cs, .rip]

/-- What `irq_stub` and `syscall_stub` push. -/
def stubPushes : List Reg :=
  [.rax, .rbx, .rcx, .rdx, .rsi, .rdi, .rbp, .r8, .r9, .r10, .r11, .r12, .r13, .r14, .r15]

/-- What `irq_stub`, `syscall_stub` and `exit_switch_to` pop. -/
def stubPops : List Reg :=
  [.r15, .r14, .r13, .r12, .r11, .r10, .r9, .r8, .rbp, .rdi, .rsi, .rdx, .rcx, .rbx, .rax]

/-- What `iretq` pops. -/
def iretqPops : List Reg := [.rip, .cs, .rflags, .rsp, .ss]

/-- `registers_t`, from its lowest address on. -/
def frameRegs : List Reg := stubPops ++ iretqPops

/-- The stack that the processor takes at an interrupt: in the kernel the one it has, and for a user
program the one in the `TSS`. -/
def interruptStack (regs : Registers) (tssRsp0 : ℕ) : ℕ :=
  let sp := if (regs .cs).toNat % 4 = 0 then (regs .rsp).toNat else tssRsp0
  sp - sp % 16

/-- An interrupt, up to the call in `irq_stub` or `syscall_stub`. -/
def enter (tssRsp0 : ℕ) (regs : Registers) (mem : Words) : Words × ℕ :=
  pushAll mem (interruptStack regs tssRsp0) ((interruptPushes ++ stubPushes).map regs)

/-- The end of `irq_stub`, `syscall_stub` and `exit_switch_to`, where `regs` is of no interest. -/
def resume (mem : Words) (sp : ℕ) (regs : Registers) : Registers := popInto mem sp frameRegs regs

/-- `IRQ_PIT` -/
def irqPit : ℕ := 32

/-- `irq_handler` with `pit_handler`, as far as the scheduler is concerned. -/
def irqHandler (s : Sched) (hhdm irq currentRsp : ℕ) : ℕ × Sched × List Release :=
  if irq = irqPit then s.schedulerSchedule hhdm currentRsp else (currentRsp, s, [])

/-- The registers that `create_user_process_from_file` pushes. -/
def startRegs (entry argc argv userRsp : BitVec 64) : Registers
  | .ss => 0x23
  | .rsp => userRsp
  | .rflags => 0x202
  | .cs => 0x1B
  | .rip => entry
  | .rsi => argv
  | .rdi => argc
  | _ => 0

/-- What `create_user_process_from_file` pushes on a new stack. -/
def pushStart (mem : Words) (kernelStack : ℕ) (regs : Registers) : Words :=
  (pushAll mem kernelStack ((interruptPushes ++ stubPushes).map regs)).1

/-- The offset at which `syscall_stub` stores the result. -/
def raxOffset : ℕ := 112

theorem reverse_pushes : (interruptPushes ++ stubPushes).reverse = frameRegs := rfl

theorem mem_frameRegs (r : Reg) : r ∈ frameRegs := by cases r <;> decide

/-- The words of the frame with some registers. -/
def HasFrame (mem : Words) (sp : ℕ) (regs : Registers) : Prop := Stacked mem sp (frameRegs.map regs)

section Frames

variable {mem mem' : Words} {sp : ℕ} {regs : Registers}

theorem HasFrame.congr (h : HasFrame mem sp regs)
    (hmem : ∀ x, sp ≤ x → x < sp + 160 → mem' x = mem x) : HasFrame mem' sp regs :=
  Stacked.congr h hmem

/-- What is pushed is a frame. -/
theorem hasFrame_push (mem : Words) (regs : Registers) (hsp : sp < 2 ^ 64) (hroom : 160 ≤ sp) :
    (pushAll mem sp ((interruptPushes ++ stubPushes).map regs)).2 = sp - 160 ∧
      HasFrame (pushAll mem sp ((interruptPushes ++ stubPushes).map regs)).1 (sp - 160) regs ∧
      ∀ x, x < sp - 160 ∨ sp ≤ x →
        (pushAll mem sp ((interruptPushes ++ stubPushes).map regs)).1 x = mem x := by
  have hlen : 8 * ((interruptPushes ++ stubPushes).map regs).length = 160 := rfl
  have h := pushAll_spec mem ((interruptPushes ++ stubPushes).map regs) hsp hroom
  rw [hlen, ← List.map_reverse, reverse_pushes] at h
  exact h

/-- What is popped from a frame are its registers. -/
theorem HasFrame.resume (h : HasFrame mem sp regs) (hend : sp + 160 < 2 ^ 64)
    (left : Registers) : resume mem sp left = regs := by
  funext r
  rw [Process.resume, popInto_eq h hend, if_pos (mem_frameRegs r)]

/-- The result of a system call goes into the place of `rax`. -/
theorem HasFrame.storeRax (h : HasFrame mem sp regs) (ret : BitVec 64) :
    HasFrame (Function.update mem (sp + raxOffset) ret) sp (Function.update regs .rax ret) := by
  have hset : frameRegs.map (Function.update regs .rax ret) = (frameRegs.map regs).set 14 ret := rfl
  rw [HasFrame, hset]
  exact Stacked.set h 14 ret

end Frames

/-! ## Runs -/

/-- The stack on which the kernel starts and the root task stays. -/
structure BootStack where
  lo : ℕ
  hi : ℕ
  hi_lt : hi < 2 ^ 64

/-- The processor, memory and the scheduler; and in a system call, where the registers of the caller
are. -/
structure Machine where
  kernel : SchedState
  regs : Registers
  mem : Words
  frame : Option ℕ

/-- What happened in a step. -/
inductive ContextEvent
  /-- a program or the kernel went on -/
  | run
  /-- a task was created that starts with the given registers -/
  | create (task : ℕ) (regs : Registers)
  /-- interrupt `n` arrived, and a task was resumed -/
  | irq (n interrupted : ℕ) (regs : Registers) (resumed : ℕ)
  /-- a task made a system call -/
  | syscall (task : ℕ) (regs : Registers)
  /-- a system call returned -/
  | sysret (task : ℕ) (ret : BitVec 64)
  /-- a task exited and another one was resumed -/
  | exit (victim resumed : ℕ)

/-- The registers with which a task was left, or with which it is to start. -/
def lastContext : List ContextEvent → ℕ → Option Registers
  | [], _ => none
  | .create task regs :: history, a => if a = task then some regs else lastContext history a
  | .irq _ interrupted regs _ :: history, a =>
    if a = interrupted then some regs else lastContext history a
  | .syscall task regs :: history, a => if a = task then some regs else lastContext history a
  | .run :: history, a => lastContext history a
  | .sysret .. :: history, a => lastContext history a
  | .exit .. :: history, a => lastContext history a

/-- The registers behind a step are those with which the task was left that goes on; a system call
returns its result in `rax`. -/
def ContextEvent.Restores (history : List ContextEvent) (event : ContextEvent)
    (regs : Registers) : Prop :=
  match event with
  | .irq n interrupted left resumed =>
    lastContext (.irq n interrupted left resumed :: history) resumed = some regs
  | .sysret task ret =>
    ∃ left, lastContext history task = some left ∧ regs = Function.update left .rax ret
  | .exit _ resumed => lastContext history resumed = some regs
  | _ => True

/-- The bytes that `kmalloc` is asked for. -/
def kernelStackSize : ℕ := 4096 * 4

section Rules

variable (b : Boot) (k : BootStack)

/-- The address is on the stack of the task. -/
def OnStack (s : Sched) (a x : ℕ) : Prop :=
  if a = b.rootTask then k.lo ≤ x ∧ x < k.hi
  else s.stackOf a ≤ x ∧ x < s.stackOf a + kernelStackSize

/-- The root task is in the kernel and has room for a frame on its stack. Others are programs. -/
def InMode (a : ℕ) (regs : Registers) : Prop :=
  if a = b.rootTask then
    (regs .cs).toNat % 4 = 0 ∧ k.lo + 256 ≤ (regs .rsp).toNat ∧ (regs .rsp).toNat ≤ k.hi
  else (regs .cs).toNat % 4 ≠ 0

/-- The stacks of the tasks are as they were, but the current one's may differ below `keep`. -/
def Spares (s : Sched) (keep : ℕ) (mem mem' : Words) : Prop :=
  ∀ a x, s.InRing a → OnStack b k s a x → (a = s.currentTask → keep ≤ x) → mem' x = mem x

/-- The block for a new stack is apart from the stacks of the tasks. -/
structure FreshStack (s : Sched) (stack : ℕ) : Prop where
  end_lt : stack + kernelStackSize < 2 ^ 64
  apart : ∀ a x, s.InRing a → OnStack b k s a x → ¬(stack ≤ x ∧ x < stack + kernelStackSize)

/-- One step. The registers `left` are those that the kernel has when it returns. -/
inductive ContextStep : Machine → ContextEvent → Machine → Prop
  | run {m : Machine} {regs : Registers} {mem : Words}
      (hmode : InMode b k m.kernel.sched.currentTask regs)
      (hmem : Spares b k m.kernel.sched (m.frame.getD (2 ^ 64)) m.mem mem) :
      ContextStep m .run { m with regs := regs, mem := mem }
  | create {m : Machine} {newTask stack pml4Phys : ℕ} (programBreak : ℕ) (isWm : Bool)
      (entry argc argv userRsp : BitVec 64) (hfresh : m.kernel.Fresh newTask stack pml4Phys)
      (hstack : FreshStack b k m.kernel.sched stack) :
      ContextStep m (.create newTask (startRegs entry argc argv userRsp))
        { m with
          kernel := ⟨m.kernel.sched.addTask newTask stack pml4Phys programBreak isWm,
            insert newTask (insert stack m.kernel.blocks), insert pml4Phys m.kernel.frames⟩
          mem := pushStart m.mem (wrap (stack + 4096)) (startRegs entry argc argv userRsp) }
  | irq {m : Machine} {n sp sp' : ℕ} {mem mem' : Words} {left : Registers} {sched' : Sched}
      {released : List Release} (hframe : m.frame = none)
      (henter : enter m.kernel.sched.tssRsp0 m.regs m.mem = (mem, sp))
      (hmem : Spares b k m.kernel.sched sp mem mem')
      (h : irqHandler m.kernel.sched b.hhdm n sp = (sp', sched', released)) :
      ContextStep m (.irq n m.kernel.sched.currentTask m.regs sched'.currentTask)
        { kernel := ⟨sched', m.kernel.blocks \ freedBlocks released,
            m.kernel.frames \ freedFrames b.hhdm released⟩
          regs := resume mem' sp' left
          mem := mem'
          frame := none }
  | syscall {m : Machine} {sp : ℕ} {mem : Words} {left : Registers} (hframe : m.frame = none)
      (hroot : m.kernel.sched.currentTask ≠ b.rootTask)
      (henter : enter m.kernel.sched.tssRsp0 m.regs m.mem = (mem, sp)) :
      ContextStep m (.syscall m.kernel.sched.currentTask m.regs)
        { m with regs := left, mem := mem, frame := some sp }
  | sysret {m : Machine} {sp : ℕ} (ret : BitVec 64) (hframe : m.frame = some sp) :
      ContextStep m (.sysret m.kernel.sched.currentTask ret)
        { m with
          regs := resume (Function.update m.mem (sp + raxOffset) ret) sp m.regs
          mem := Function.update m.mem (sp + raxOffset) ret
          frame := none }
  | exit {m : Machine} {sp : ℕ} {sched' : Sched} (hframe : m.frame.isSome)
      (h : m.kernel.sched.taskExit = some (sp, sched')) :
      ContextStep m (.exit m.kernel.sched.currentTask sched'.currentTask)
        { m with
          kernel := ⟨sched', m.kernel.blocks, m.kernel.frames⟩
          regs := resume m.mem sp m.regs
          frame := none }

/-- The registers of a task are in a frame on its stack. -/
structure Saved (s : Sched) (mem : Words) (a sp : ℕ) (regs : Registers) : Prop where
  frame : HasFrame mem sp regs
  mode : InMode b k a regs
  on : ∀ x, sp ≤ x → x < sp + 160 → OnStack b k s a x
  end_lt : sp + 160 < 2 ^ 64

/-- What holds in every state of a run. -/
structure ContextInv (history : List ContextEvent) (m : Machine) (rest : List ℕ) : Prop where
  sched : ∃ events, SchedInv b events m.kernel rest
  place : ∀ a ∈ rest, (m.kernel.sched.task a).kernelStack = m.kernel.sched.stackOf a + 4096 ∧
    m.kernel.sched.stackOf a + kernelStackSize < 2 ^ 64
  apart : ∀ a ∈ b.rootTask :: rest, ∀ c ∈ b.rootTask :: rest, ∀ x,
    OnStack b k m.kernel.sched a x → OnStack b k m.kernel.sched c x → a = c
  saved : ∀ a ∈ b.rootTask :: rest, a ≠ m.kernel.sched.currentTask → ∃ regs,
    lastContext history a = some regs ∧
      Saved b k m.kernel.sched m.mem a (m.kernel.sched.task a).rsp regs
  called : ∀ sp, m.frame = some sp → m.kernel.sched.currentTask ≠ b.rootTask ∧ ∃ regs,
    lastContext history m.kernel.sched.currentTask = some regs ∧
      Saved b k m.kernel.sched m.mem m.kernel.sched.currentTask sp regs
  mode : m.frame = none → InMode b k m.kernel.sched.currentTask m.regs
  rsp0 : m.kernel.sched.currentTask ≠ b.rootTask →
    m.kernel.sched.tssRsp0 = m.kernel.sched.stackOf m.kernel.sched.currentTask + 4096 ∨
      m.kernel.sched.tssRsp0 = m.kernel.sched.stackOf m.kernel.sched.currentTask + 8192

end Rules

section Steps

variable {b : Boot} {k : BootStack} {s s' : Sched} {mem mem' : Words} {regs : Registers}
variable {history : List ContextEvent} {event : ContextEvent} {m m' : Machine} {rest : List ℕ}
variable {a c sp keep : ℕ}

theorem onStack_congr (hstack : s'.stackOf a = s.stackOf a) (x : ℕ) :
    OnStack b k s' a x ↔ OnStack b k s a x := by
  rw [OnStack, OnStack, hstack]

/-- What is saved stays saved as long as its stack stays. -/
theorem Saved.congr (h : Saved b k s mem a sp regs) (hstack : s'.stackOf a = s.stackOf a)
    (hmem : ∀ x, OnStack b k s a x → sp ≤ x → mem' x = mem x) :
    Saved b k s' mem' a sp regs := by
  refine ⟨h.frame.congr fun x hx hx' => hmem x (h.on x hx hx') hx, h.mode, fun x hx hx' => ?_,
    h.end_lt⟩
  exact (onStack_congr hstack x).mpr (h.on x hx hx')

theorem Saved.resume (h : Saved b k s mem a sp regs) (left : Registers) :
    resume mem sp left = regs :=
  h.frame.resume h.end_lt left

/-- The registers of the task that runs are saved on its stack, and nothing else changes. -/
theorem enter_spec {tssRsp0 : ℕ} (hmode : InMode b k a regs)
    (hplace : a ≠ b.rootTask → s.stackOf a + kernelStackSize < 2 ^ 64 ∧
      (tssRsp0 = s.stackOf a + 4096 ∨ tssRsp0 = s.stackOf a + 8192))
    (henter : enter tssRsp0 regs mem = (mem', sp)) :
    Saved b k s mem' a sp regs ∧ ∀ x, ¬OnStack b k s a x → mem' x = mem x := by
  have hbounds : 160 ≤ interruptStack regs tssRsp0 ∧ interruptStack regs tssRsp0 < 2 ^ 64 ∧
      ∀ x, interruptStack regs tssRsp0 - 160 ≤ x → x < interruptStack regs tssRsp0 →
        OnStack b k s a x := by
    by_cases hroot : a = b.rootTask
    · rw [InMode, if_pos hroot] at hmode
      obtain ⟨hcs, hlo, hhi⟩ := hmode
      have hlt := k.hi_lt
      simp only [interruptStack, if_pos hcs, OnStack, if_pos hroot]
      refine ⟨by omega, by omega, fun x hx hx' => by omega⟩
    · rw [InMode, if_neg hroot] at hmode
      obtain ⟨hend, htss⟩ := hplace hroot
      simp only [interruptStack, if_neg hmode, OnStack, if_neg hroot]
      unfold kernelStackSize at hend ⊢
      refine ⟨by omega, by omega, fun x hx hx' => by omega⟩
  obtain ⟨hroom, hlt, hon⟩ := hbounds
  obtain ⟨hsp, hframe, hother⟩ := hasFrame_push mem regs hlt hroom
  rw [enter] at henter
  rw [henter] at hsp hframe hother
  dsimp only at hsp hframe hother
  rw [← hsp] at hframe hon hother
  have hend : sp + 160 = interruptStack regs tssRsp0 := by omega
  refine ⟨⟨hframe, hmode, ?_, by omega⟩, fun x hx => hother x ?_⟩
  · rw [hend]
    exact hon
  · by_contra hin
    exact hx (hon x (by omega) (by omega))

/-- What spares the stacks of the tasks in the ring keeps what is saved there. -/
theorem Spares.saved (hspares : Spares b k s keep mem mem') (hring : s.InRing a)
    (h : Saved b k s mem a sp regs) (hkeep : a = s.currentTask → keep ≤ sp) :
    Saved b k s mem' a sp regs :=
  h.congr rfl fun x hx hx' => hspares a x hring hx fun heq => (hkeep heq).trans hx'

namespace ContextInv

theorem inRing (h : ContextInv b k history m rest) (ha : a ∈ b.rootTask :: rest) :
    m.kernel.sched.InRing a := by
  obtain ⟨events, hsched⟩ := h.sched
  exact hsched.inRing_iff.mpr ha

theorem current_mem (h : ContextInv b k history m rest) :
    m.kernel.sched.currentTask ∈ b.rootTask :: rest := by
  obtain ⟨events, hsched⟩ := h.sched
  exact hsched.onRing.current_mem

/-- Where the stack is that an interrupt takes. -/
theorem rsp0_place (h : ContextInv b k history m rest)
    (hroot : m.kernel.sched.currentTask ≠ b.rootTask) :
    m.kernel.sched.stackOf m.kernel.sched.currentTask + kernelStackSize < 2 ^ 64 ∧
      (m.kernel.sched.tssRsp0 = m.kernel.sched.stackOf m.kernel.sched.currentTask + 4096 ∨
        m.kernel.sched.tssRsp0 = m.kernel.sched.stackOf m.kernel.sched.currentTask + 8192) :=
  ⟨(h.place _ ((List.mem_cons.mp h.current_mem).resolve_left hroot)).2, h.rsp0 hroot⟩

/-- An interrupt saves the registers of the current task, and leaves what else is saved. -/
theorem enter (h : ContextInv b k history m rest) (hframe : m.frame = none)
    (henter : enter m.kernel.sched.tssRsp0 m.regs m.mem = (mem, sp)) :
    Saved b k m.kernel.sched mem m.kernel.sched.currentTask sp m.regs ∧
      ∀ a ∈ b.rootTask :: rest, a ≠ m.kernel.sched.currentTask → ∃ regs,
        lastContext history a = some regs ∧
          Saved b k m.kernel.sched mem a (m.kernel.sched.task a).rsp regs := by
  obtain ⟨hsaved, hother⟩ := enter_spec (h.mode hframe) h.rsp0_place henter
  refine ⟨hsaved, fun a ha hne => ?_⟩
  obtain ⟨regs, hlast, hold⟩ := h.saved a ha hne
  refine ⟨regs, hlast, hold.congr rfl fun x hx _ => hother x fun hx' => hne ?_⟩
  exact h.apart a ha _ h.current_mem x hx hx'

theorem run {regs : Registers} (h : ContextInv b k history m rest)
    (hmode : InMode b k m.kernel.sched.currentTask regs)
    (hmem : Spares b k m.kernel.sched (m.frame.getD (2 ^ 64)) m.mem mem) :
    ContextInv b k (.run :: history) { m with regs := regs, mem := mem } rest := by
  refine ⟨h.sched, h.place, h.apart, fun a ha hne => ?_, fun sp hsp => ?_, fun _ => hmode, h.rsp0⟩
  · obtain ⟨regs, hlast, hsaved⟩ := h.saved a ha hne
    exact ⟨regs, hlast, hmem.saved (h.inRing ha) hsaved fun heq => absurd heq hne⟩
  · obtain ⟨hroot, regs, hlast, hsaved⟩ := h.called sp hsp
    refine ⟨hroot, regs, hlast, hmem.saved (h.inRing h.current_mem) hsaved fun _ => ?_⟩
    rw [show m.frame = some sp from hsp]
    exact Nat.le_refl sp

theorem syscall {left : Registers} (h : ContextInv b k history m rest) (hframe : m.frame = none)
    (hroot : m.kernel.sched.currentTask ≠ b.rootTask)
    (henter : Process.enter m.kernel.sched.tssRsp0 m.regs m.mem = (mem, sp)) :
    ContextInv b k (.syscall m.kernel.sched.currentTask m.regs :: history)
      { m with regs := left, mem := mem, frame := some sp } rest := by
  obtain ⟨hcurrent, hothers⟩ := h.enter hframe henter
  refine ⟨h.sched, h.place, h.apart, fun a ha hne => ?_, fun sp' hsp => ⟨hroot, m.regs, ?_, ?_⟩,
    fun hnone => absurd hnone (Option.some_ne_none _), h.rsp0⟩
  · rw [lastContext, if_neg hne]
    exact hothers a ha hne
  · rw [lastContext, if_pos rfl]
  · obtain rfl : sp = sp' := Option.some.inj hsp
    exact hcurrent

/-- The result of a system call goes into the frame of the caller. -/
theorem sysret (h : ContextInv b k history m rest) (ret : BitVec 64) (hframe : m.frame = some sp) :
    ContextInv b k (.sysret m.kernel.sched.currentTask ret :: history)
        { m with
          regs := resume (Function.update m.mem (sp + raxOffset) ret) sp m.regs
          mem := Function.update m.mem (sp + raxOffset) ret
          frame := none } rest ∧
      ∃ left, lastContext history m.kernel.sched.currentTask = some left ∧
        resume (Function.update m.mem (sp + raxOffset) ret) sp m.regs =
          Function.update left .rax ret := by
  obtain ⟨hroot, left, hlast, hsaved⟩ := h.called sp hframe
  have hregs := (hsaved.frame.storeRax ret).resume hsaved.end_lt m.regs
  refine ⟨⟨h.sched, h.place, h.apart, fun a ha hne => ?_, fun _ hsp => ?_, fun _ => ?_, h.rsp0⟩,
    left, hlast, hregs⟩
  · obtain ⟨regs, hlast', hold⟩ := h.saved a ha hne
    refine ⟨regs, hlast', hold.congr rfl fun x hx _ => Function.update_of_ne ?_ _ _⟩
    -- the place is on the stack of the caller
    rintro rfl
    refine hne (h.apart a ha _ h.current_mem _ hx (hsaved.on _ (Nat.le_add_right _ _) ?_))
    exact Nat.add_lt_add_left (by decide) sp
  · exact absurd hsp.symm (Option.some_ne_none _)
  · have hmode := hsaved.mode
    rw [InMode, if_neg hroot] at hmode ⊢
    rw [hregs]
    exact hmode

theorem create {newTask stack pml4Phys programBreak : ℕ} {isWm : Bool}
    {entry argc argv userRsp : BitVec 64} (h : ContextInv b k history m rest)
    (hfresh : m.kernel.Fresh newTask stack pml4Phys)
    (hstack : FreshStack b k m.kernel.sched stack) :
    ContextInv b k (.create newTask (startRegs entry argc argv userRsp) :: history)
      { m with
        kernel := ⟨m.kernel.sched.addTask newTask stack pml4Phys programBreak isWm,
          insert newTask (insert stack m.kernel.blocks), insert pml4Phys m.kernel.frames⟩
        mem := pushStart m.mem (wrap (stack + 4096)) (startRegs entry argc argv userRsp) }
      (newTask :: rest) := by
  obtain ⟨events, hsched⟩ := h.sched
  obtain ⟨hnew, -⟩ := hsched.fresh_notMem hfresh
  have hhead : newTask ≠ m.kernel.sched.taskHead := by
    rw [hsched.onRing.taskHead_eq]
    exact List.ne_of_not_mem_cons hnew
  obtain ⟨-, hsame⟩ := Sched.addTask_fields stack pml4Phys programBreak isWm hhead
  obtain ⟨-, -, hkernelStack, hrsp⟩ := Sched.addTask_task stack pml4Phys programBreak isWm hhead
  have hold : ∀ a ∈ b.rootTask :: rest, a ≠ newTask := fun a ha e => hnew (e ▸ ha)
  have hroot : newTask ≠ b.rootTask := (hold _ List.mem_cons_self).symm
  have hend := hstack.end_lt
  unfold kernelStackSize at hend
  have htop : wrap (stack + 4096) = stack + 4096 := wrap_of_lt (by omega)
  have hwords : 8 * initialFrameWords = 160 := rfl
  rw [htop, hwords, sub64_of_le (by omega) (by omega)] at hrsp
  have hcases : ∀ a ∈ b.rootTask :: newTask :: rest, a = newTask ∨ a ∈ b.rootTask :: rest := by
    intro a ha
    rcases List.mem_cons.mp ha with rfl | ha
    · exact Or.inr List.mem_cons_self
    · exact (List.mem_cons.mp ha).imp_right (List.mem_cons_of_mem _)
  generalize hs : m.kernel.sched.addTask newTask stack pml4Phys programBreak isWm = s'
    at hsame hkernelStack hrsp
  have hcurrent : s'.currentTask = m.kernel.sched.currentTask := hs ▸ rfl
  have htss : s'.tssRsp0 = m.kernel.sched.tssRsp0 := hs ▸ rfl
  have hstackNew : s'.stackOf newTask = stack := by
    rw [Sched.stackOf, hkernelStack, sub64_wrap_add hfresh.stack_lt (by decide)]
  have hstackOld : ∀ a, a ≠ newTask → s'.stackOf a = m.kernel.sched.stackOf a := fun a ha => by
    rw [Sched.stackOf, Sched.stackOf, (hsame a ha).1.kernelStack_eq]
  have honNew : ∀ x, OnStack b k s' newTask x ↔ stack ≤ x ∧ x < stack + kernelStackSize := by
    intro x
    rw [OnStack, if_neg hroot, hstackNew]
  have honOld : ∀ a ∈ b.rootTask :: rest, ∀ x,
      OnStack b k s' a x ↔ OnStack b k m.kernel.sched a x :=
    fun a ha => onStack_congr (hstackOld a (hold a ha))
  have hlt : stack + 4096 < 2 ^ 64 := by omega
  obtain ⟨hptr, hframe, hother⟩ :=
    hasFrame_push m.mem (startRegs entry argc argv userRsp) hlt (by omega)
  -- the frame is on the new stack, and the others are as they were
  have hspared : ∀ a ∈ b.rootTask :: rest, ∀ x, OnStack b k m.kernel.sched a x →
      pushStart m.mem (stack + 4096) (startRegs entry argc argv userRsp) x = m.mem x := by
    intro a ha x hx
    refine hother x ?_
    have hout := hstack.apart a x (h.inRing ha) hx
    unfold kernelStackSize at hout
    omega
  have hkept : ∀ a ∈ b.rootTask :: rest, ∀ sp regs, Saved b k m.kernel.sched m.mem a sp regs →
      Saved b k s' (pushStart m.mem (stack + 4096) (startRegs entry argc argv userRsp)) a sp regs :=
    fun a ha sp regs hsaved =>
      hsaved.congr (hstackOld a (hold a ha)) fun x hx _ => hspared a ha x hx
  rw [htop]
  refine ⟨⟨_, hs ▸ hsched.create hfresh⟩, fun a ha => ?_, fun a ha c hc x hx hx' => ?_,
    fun a ha hne => ?_, fun sp hsp => ?_, fun hnone => ?_, fun hne => ?_⟩
  · change (s'.task a).kernelStack = s'.stackOf a + 4096 ∧ s'.stackOf a + kernelStackSize < 2 ^ 64
    rcases List.mem_cons.mp ha with rfl | ha
    · rw [hkernelStack, hstackNew, htop]
      exact ⟨rfl, hstack.end_lt⟩
    · have hne := hold a (List.mem_cons_of_mem _ ha)
      rw [(hsame a hne).1.kernelStack_eq, hstackOld a hne]
      exact h.place a ha
  · change OnStack b k s' a x at hx
    change OnStack b k s' c x at hx'
    rcases hcases a ha with rfl | ha' <;> rcases hcases c hc with rfl | hc'
    · rfl
    · exact absurd ((honNew x).mp hx)
        (hstack.apart c x (h.inRing hc') ((honOld c hc' x).mp hx'))
    · exact absurd ((honNew x).mp hx')
        (hstack.apart a x (h.inRing ha') ((honOld a ha' x).mp hx))
    · exact h.apart a ha' c hc' x ((honOld a ha' x).mp hx) ((honOld c hc' x).mp hx')
  · change a ≠ s'.currentTask at hne
    change ∃ regs, _ ∧ Saved b k s' _ a (s'.task a).rsp regs
    by_cases hanew : a = newTask
    · subst hanew
      refine ⟨_, if_pos rfl, ?_⟩
      rw [hrsp]
      refine ⟨hframe, ?_, fun x hx hx' => (honNew x).mpr ?_, by omega⟩
      · rw [InMode, if_neg hroot]
        exact (by decide : (0x1B : BitVec 64).toNat % 4 ≠ 0)
      · unfold kernelStackSize
        omega
    · have ha' := (hcases a ha).resolve_left hanew
      obtain ⟨regs, hlast, hsaved⟩ := h.saved a ha' (hcurrent ▸ hne)
      refine ⟨regs, (if_neg hanew).trans hlast, ?_⟩
      rw [(hsame a hanew).2]
      exact hkept a ha' _ regs hsaved
  · change m.frame = some sp at hsp
    change s'.currentTask ≠ b.rootTask ∧ ∃ regs, lastContext _ s'.currentTask = some regs ∧
      Saved b k s' _ s'.currentTask sp regs
    obtain ⟨hne, regs, hlast, hsaved⟩ := h.called sp hsp
    rw [hcurrent]
    exact ⟨hne, regs, (if_neg (hold _ h.current_mem)).trans hlast,
      hkept _ h.current_mem sp regs hsaved⟩
  · change InMode b k s'.currentTask m.regs
    rw [hcurrent]
    exact h.mode hnone
  · change s'.currentTask ≠ b.rootTask at hne
    change s'.tssRsp0 = s'.stackOf s'.currentTask + 4096 ∨
      s'.tssRsp0 = s'.stackOf s'.currentTask + 8192
    rw [hcurrent] at hne ⊢
    rw [htss, hstackOld _ (hold _ h.current_mem)]
    exact h.rsp0 hne

/-- A task in the ring goes on, when the registers of all are saved. -/
theorem switch {history' : List ContextEvent} {kernel' : SchedState} {rest' : List ℕ}
    {left : Registers} (h : ContextInv b k history m rest)
    (hsched : ∃ events, SchedInv b events kernel' rest') (hsub : ∀ a ∈ rest', a ∈ rest)
    (hstack : ∀ a, (kernel'.sched.task a).kernelStack = (m.kernel.sched.task a).kernelStack)
    (hsaved : ∀ a ∈ b.rootTask :: rest', ∃ regs, lastContext history' a = some regs ∧
      Saved b k m.kernel.sched mem a (kernel'.sched.task a).rsp regs)
    (hrsp0 : kernel'.sched.tssRsp0 =
        (kernel'.sched.task kernel'.sched.currentTask).kernelStack ∨
      kernel'.sched.tssRsp0 =
        wrap ((kernel'.sched.task kernel'.sched.currentTask).kernelStack + 4096)) :
    ContextInv b k history'
        ⟨kernel', Process.resume mem (kernel'.sched.task kernel'.sched.currentTask).rsp left, mem,
          none⟩ rest' ∧
      lastContext history' kernel'.sched.currentTask =
        some (Process.resume mem (kernel'.sched.task kernel'.sched.currentTask).rsp left) := by
  obtain ⟨events, hinv⟩ := hsched
  have hstackOf : ∀ a, kernel'.sched.stackOf a = m.kernel.sched.stackOf a := fun a => by
    rw [Sched.stackOf, Sched.stackOf, hstack]
  have hring : ∀ a ∈ b.rootTask :: rest', a ∈ b.rootTask :: rest := fun a ha =>
    List.mem_cons.mpr ((List.mem_cons.mp ha).imp_right (hsub a))
  have hkept : ∀ a ∈ b.rootTask :: rest', ∃ regs, lastContext history' a = some regs ∧
      Saved b k kernel'.sched mem a (kernel'.sched.task a).rsp regs := by
    intro a ha
    obtain ⟨regs, hlast, hold⟩ := hsaved a ha
    exact ⟨regs, hlast, hold.congr (hstackOf a) fun _ _ _ => rfl⟩
  obtain ⟨regs, hlast, hcurrent⟩ := hkept _ hinv.onRing.current_mem
  have hregs := hcurrent.resume left
  refine ⟨⟨⟨events, hinv⟩, fun a ha => ?_, fun a ha c hc x hx hx' => ?_, fun a ha _ => hkept a ha,
    fun sp hsp => absurd hsp.symm (Option.some_ne_none sp), fun _ => ?_, fun hne => ?_⟩, ?_⟩
  · rw [hstack, hstackOf]
    exact h.place a (hsub a ha)
  · refine h.apart a (hring a ha) c (hring c hc) x ?_ ?_
    · exact (onStack_congr (hstackOf a) x).mp hx
    · exact (onStack_congr (hstackOf c) x).mp hx'
  · rw [hregs]
    exact hcurrent.mode
  · -- the task is a program, so that its stack is a block
    obtain ⟨htop, hend⟩ :=
      h.place _ (hsub _ ((List.mem_cons.mp hinv.onRing.current_mem).resolve_left hne))
    unfold kernelStackSize at hend
    rw [hstack, htop] at hrsp0
    rw [hstackOf]
    exact hrsp0.imp_right fun heq => heq.trans (wrap_of_lt (by omega))
  · rw [hregs]
    exact hlast

theorem irq {n sp' : ℕ} {left : Registers} {sched' : Sched} {released : List Release}
    (h : ContextInv b k history m rest) (hframe : m.frame = none)
    (henter : Process.enter m.kernel.sched.tssRsp0 m.regs m.mem = (mem, sp))
    (hmem : Spares b k m.kernel.sched sp mem mem')
    (hrun : irqHandler m.kernel.sched b.hhdm n sp = (sp', sched', released)) :
    ContextInv b k (.irq n m.kernel.sched.currentTask m.regs sched'.currentTask :: history)
        ⟨⟨sched', m.kernel.blocks \ freedBlocks released,
            m.kernel.frames \ freedFrames b.hhdm released⟩,
          Process.resume mem' sp' left, mem', none⟩ rest ∧
      lastContext (.irq n m.kernel.sched.currentTask m.regs sched'.currentTask :: history)
        sched'.currentTask = some (Process.resume mem' sp' left) := by
  obtain ⟨hcurrent, hothers⟩ := h.enter hframe henter
  have hcurrent' : Saved b k m.kernel.sched mem' m.kernel.sched.currentTask sp m.regs :=
    hmem.saved (h.inRing h.current_mem) hcurrent fun _ => Nat.le_refl sp
  have hothers' : ∀ a ∈ b.rootTask :: rest, a ≠ m.kernel.sched.currentTask → ∃ regs,
      lastContext history a = some regs ∧
        Saved b k m.kernel.sched mem' a (m.kernel.sched.task a).rsp regs := by
    intro a ha hne
    obtain ⟨regs, hlast, hsaved⟩ := hothers a ha hne
    exact ⟨regs, hlast, hmem.saved (h.inRing ha) hsaved fun heq => absurd heq hne⟩
  rw [irqHandler] at hrun
  split_ifs at hrun with hpit
  · obtain ⟨events, hsched⟩ := h.sched
    have hzero := hsched.onRing.current_ne_zero
    obtain ⟨-, hsame, -, -, -, -, -, hsp, -⟩ := Sched.schedulerSchedule_fields hzero hrun
    rw [hsp]
    refine h.switch ⟨_, hsched.schedule hrun⟩ (fun _ => id) (fun a => (hsame a).1.kernelStack_eq)
      (fun a ha => ?_) (Or.inl (Sched.schedulerSchedule_tssRsp0 hzero hrun))
    dsimp only
    rw [(hsame a).2]
    by_cases hcur : a = m.kernel.sched.currentTask
    · rw [if_pos hcur]
      exact ⟨m.regs, if_pos hcur, hcur ▸ hcurrent'⟩
    · obtain ⟨regs, hlast, hsaved⟩ := hothers' a ha hcur
      rw [if_neg hcur]
      exact ⟨regs, (if_neg hcur).trans hlast, hsaved⟩
  · -- the same task goes on
    obtain ⟨hsp, hkernel⟩ := Prod.mk.inj hrun
    obtain ⟨rfl, rfl⟩ := Prod.mk.inj hkernel
    have hblocks : freedBlocks [] = ∅ := Set.eq_empty_of_forall_notMem fun _ => List.not_mem_nil
    have hframes : freedFrames b.hhdm [] = ∅ := by
      refine Set.eq_empty_of_forall_notMem ?_
      rintro frame ⟨addr, hmem, -⟩
      exact List.not_mem_nil hmem
    have hregs := hcurrent'.resume left
    rw [hblocks, hframes, Set.sdiff_empty, Set.sdiff_empty, ← hsp, hregs]
    refine ⟨⟨h.sched, h.place, h.apart, fun a ha hne => ?_,
      fun _ hsp => absurd hsp.symm (Option.some_ne_none _), fun _ => h.mode hframe, h.rsp0⟩,
      if_pos rfl⟩
    obtain ⟨regs, hlast, hsaved⟩ := hothers' a ha hne
    exact ⟨regs, (if_neg hne).trans hlast, hsaved⟩

theorem exit {sched' : Sched} {left : Registers} (h : ContextInv b k history m rest)
    (hframe : m.frame.isSome) (hrun : m.kernel.sched.taskExit = some (sp, sched')) :
    ∃ rest', ContextInv b k (.exit m.kernel.sched.currentTask sched'.currentTask :: history)
        ⟨⟨sched', m.kernel.blocks, m.kernel.frames⟩, Process.resume m.mem sp left, m.mem, none⟩
        rest' ∧
      lastContext history sched'.currentTask = some (Process.resume m.mem sp left) := by
  obtain ⟨sp₀, hsp₀⟩ := Option.isSome_iff_exists.mp hframe
  obtain ⟨hroot, -⟩ := h.called sp₀ hsp₀
  obtain ⟨events, hsched⟩ := h.sched
  obtain ⟨xs, ys, hrest, hsched'⟩ := hsched.exit hroot hrun
  obtain ⟨sp', t, -, -, hrun', -, -, hsame, hzombie, -, -, -, hsp⟩ := hsched.onRing.taskExit hroot
  obtain ⟨rfl, rfl⟩ := Prod.mk.inj (Option.some_inj.mp (hrun.symm.trans hrun'))
  have hsub : ∀ a ∈ xs ++ ys, a ∈ rest := by
    intro a ha
    rw [hrest]
    rcases List.mem_append.mp ha with hx | hy
    · exact List.mem_append_left _ hx
    · exact List.mem_append_right _ (List.mem_cons_of_mem _ hy)
  rw [hsp]
  refine ⟨xs ++ ys, h.switch ⟨_, hsched'⟩ hsub (fun a => (hsame a).1.kernelStack_eq)
    (fun a ha => ?_) (Or.inr (Sched.taskExit_tssRsp0 hrun))⟩
  -- the task that exits is not in the ring any more
  have hne : a ≠ m.kernel.sched.currentTask := by
    rintro rfl
    exact hsched'.onRing.zombie_notMem (hzombie ▸ ha)
  have ha' : a ∈ b.rootTask :: rest :=
    List.mem_cons.mpr ((List.mem_cons.mp ha).imp_right (hsub a))
  dsimp only
  rw [(hsame a).2]
  exact h.saved a ha' hne

/-- Every step keeps the registers of the tasks, and goes on with those of one. -/
theorem step (h : ContextInv b k history m rest) (hstep : ContextStep b k m event m') :
    (∃ rest', ContextInv b k (event :: history) m' rest') ∧ event.Restores history m'.regs := by
  cases hstep with
  | run hmode hmem => exact ⟨⟨rest, h.run hmode hmem⟩, trivial⟩
  | create programBreak isWm entry argc argv userRsp hfresh hstack =>
    exact ⟨⟨_, h.create hfresh hstack⟩, trivial⟩
  | irq hframe henter hmem hrun =>
    obtain ⟨hinv, hlast⟩ := h.irq hframe henter hmem hrun
    exact ⟨⟨rest, hinv⟩, hlast⟩
  | syscall hframe hroot henter => exact ⟨⟨rest, h.syscall hframe hroot henter⟩, trivial⟩
  | sysret ret hframe =>
    obtain ⟨hinv, hleft⟩ := h.sysret ret hframe
    exact ⟨⟨rest, hinv⟩, hleft⟩
  | exit hframe hrun =>
    obtain ⟨rest', hinv, hlast⟩ := h.exit hframe hrun
    exact ⟨⟨rest', hinv⟩, hlast⟩

/-- The root task starts in the kernel. -/
theorem start (hmode : InMode b k b.rootTask regs) :
    ContextInv b k [] ⟨b.start, regs, mem, none⟩ [] := by
  refine ⟨⟨[], .start b⟩, fun a ha => absurd ha List.not_mem_nil, fun a ha c hc _ _ _ => ?_,
    fun a ha hne => ?_, fun sp hsp => absurd hsp.symm (Option.some_ne_none sp), fun _ => hmode,
    fun hne => absurd rfl hne⟩
  · exact (List.mem_singleton.mp ha).trans (List.mem_singleton.mp hc).symm
  · exact absurd (List.mem_singleton.mp ha) hne

end ContextInv

/-- **Registers are restored.** In every run a task that goes on behind an interrupt or an exit has
the registers with which it was left, or was created; and a system call returns with the registers
of the caller and its result. -/
theorem context_restored (hmode : InMode b k b.rootTask regs)
    (run : Reaches (ContextStep b k) ⟨b.start, regs, mem, none⟩ history m)
    (hstep : ContextStep b k m event m') : event.Restores history m'.regs := by
  have hinv : ∃ rest, ContextInv b k history m rest := by
    refine run.invariant (I := fun history m => ∃ rest, ContextInv b k history m rest)
      ⟨[], .start hmode⟩ ?_
    rintro history m event m' ⟨rest, h⟩ hstep
    exact (h.step hstep).1
  obtain ⟨rest, h⟩ := hinv
  exact (h.step hstep).2

end Steps

/-! ## The first task starts -/

/-- A stack of two pages for the kernel of this boot. -/
def sampleStack : BootStack where
  lo := 0x8000
  hi := 0xA000
  hi_lt := by decide

/-- The root task, with its stack pointer near the end of its stack. -/
def sampleRoot : Registers
  | .rsp => 0x9000
  | _ => 0

/-- Nothing is in memory. -/
def sampleStart : Machine := ⟨sampleBoot.start, sampleRoot, fun _ => 0, none⟩

/-- The first task has been created. -/
def sampleMade : Machine :=
  { sampleStart with
    kernel := sampleCreated
    mem := pushStart sampleStart.mem (wrap (0x20000 + 4096)) (startRegs 0x400000 0 0 0x700000000) }

theorem sampleMade_step : ContextStep sampleBoot sampleStack sampleStart
    (.create 0x10000 (startRegs 0x400000 0 0 0x700000000)) sampleMade := by
  refine .create 0 false 0x400000 0 0 0x700000000 sampleBoot_fresh ⟨by decide, ?_⟩
  rintro a x ⟨n, hn⟩ hx
  -- the root task is alone
  have hroot : a = sampleBoot.rootTask := by
    rw [← hn]
    exact Function.iterate_fixed rfl n
  rw [OnStack, if_pos hroot] at hx
  have hhi : x < 0xA000 := hx.2
  exact fun hin => absurd (hin.1.trans_lt hhi) (by decide)

/-- The timer interrupt comes, and the task starts. -/
theorem context_restored_sampleMade : ∃ m',
    ContextStep sampleBoot sampleStack sampleMade (.irq irqPit 0x1000 sampleRoot 0x10000) m' ∧
      ContextEvent.Restores [.create 0x10000 (startRegs 0x400000 0 0 0x700000000)]
        (.irq irqPit 0x1000 sampleRoot 0x10000) m'.regs := by
  have hcurrent : (sampleCreated.sched.schedulerSchedule 0 0x8F60).2.1.currentTask = 0x10000 := by
    decide +kernel
  have hrun : irqHandler sampleMade.kernel.sched sampleBoot.hhdm irqPit 0x8F60 =
      (0x20f60, (sampleCreated.sched.schedulerSchedule 0 0x8F60).2.1, []) := by
    refine Prod.ext ?_ (Prod.ext rfl rfl)
    decide +kernel
  have henter : enter sampleMade.kernel.sched.tssRsp0 sampleMade.regs sampleMade.mem =
      ((enter sampleMade.kernel.sched.tssRsp0 sampleMade.regs sampleMade.mem).1, 0x8F60) :=
    Prod.ext rfl (by decide +kernel)
  have hmode : InMode sampleBoot sampleStack sampleBoot.rootTask sampleRoot := by
    rw [InMode, if_pos rfl]
    decide
  have hstep : ContextStep sampleBoot sampleStack sampleMade _ ⟨_, resume _ _ sampleRoot, _, _⟩ :=
    .irq rfl henter (fun _ _ _ _ _ => rfl) hrun
  rw [hcurrent] at hstep
  exact ⟨_, hstep, context_restored hmode (Reaches.start.snoc sampleMade_step) hstep⟩

end OpenIDP.Process
