import OpenIDP.Process.SchedCr3

/-!
# The kernel stack in `TSS.rsp0`

An interrupt from user mode loads `TSS.rsp0`. `kernel_stack` of a task is the end of its kernel
stack, and `scheduler_schedule` loads it. `task_exit` takes it for the start of the stack and adds
4096, so that a user task entered by an exit has its interrupts on the page behind its stack, until
the next timer interrupt.

## Main definitions

* `Rsp0Agrees` — the current user task has its own kernel stack loaded
* `EntersRoot` — an exit resumes the root task

## Main results

* `rsp0_agrees_iff` — it is so all along the runs in which each exit resumes the root task
* `rsp0_behind_stack` — a run of two tasks in which it is not
-/

namespace OpenIDP.Process

open OpenIDP.Math

/-- If a user task is current, its kernel stack is the one in `TSS.rsp0`. -/
def Rsp0Agrees (b : Boot) (s : SchedState) : Prop :=
  s.sched.currentTask ≠ b.rootTask →
    s.sched.tssRsp0 = (s.sched.task s.sched.currentTask).kernelStack

/-- If the step is an exit, the task behind the current one is the root task. -/
def EntersRoot (b : Boot) (t : Transition SchedState SchedEvent) : Prop :=
  match t.label with
  | .exit .. => t.before.sched.next t.before.sched.currentTask = b.rootTask
  | _ => True

namespace Sched

variable {s s' : Sched} {hhdm rsp sp : ℕ} {released : List Release}

/-- A timer interrupt loads the stack of the task that it enters. -/
theorem schedulerSchedule_tssRsp0 (hcurrent : s.currentTask ≠ 0)
    (h : s.schedulerSchedule hhdm rsp = (sp, s', released)) :
    s'.tssRsp0 = (s'.task s'.currentTask).kernelStack := by
  simp only [schedulerSchedule, reapZombie_eq, switchNext, if_neg hcurrent, switchCr3_eq,
    Prod.mk.injEq] at h
  obtain ⟨-, rfl, -⟩ := h
  rfl

/-- An exit loads the address 4096 bytes behind it. -/
theorem taskExit_tssRsp0 (h : s.taskExit = some (sp, s')) :
    s'.tssRsp0 = wrap ((s'.task s'.currentTask).kernelStack + 4096) := by
  obtain ⟨prev, -, h⟩ := Option.bind_eq_some_iff.mp h
  obtain ⟨-, rfl⟩ := Prod.mk.inj (Option.some_inj.mp h)
  rw [switchCr3_eq]

/-- The address behind a page is not the one in front of it. -/
theorem wrap_add_page_ne (n : ℕ) : wrap (n + 4096) ≠ n := by
  rw [wrap]
  omega

end Sched

section Runs

variable {b : Boot} {s s' : SchedState} {history : List SchedEvent} {event : SchedEvent}
variable {rest : List ℕ} {trace : List (Transition SchedState SchedEvent)}

/-- One step keeps the kernel stack in place, unless it is an exit that enters a user task. -/
theorem SchedInv.rsp0Agrees_iff (h : SchedInv b history s rest) (hbefore : Rsp0Agrees b s)
    (hstep : SchedStep b s event s') : Rsp0Agrees b s' ↔ EntersRoot b ⟨s, event, s'⟩ := by
  cases hstep with
  | @create newTask stack pml4Phys programBreak isWm hfresh =>
    refine iff_of_true (fun hcurrent => ?_) trivial
    have hnew := (h.fresh_notMem hfresh).1
    have hhead : newTask ≠ s.sched.taskHead := by
      rw [h.onRing.taskHead_eq]
      exact List.ne_of_not_mem_cons hnew
    have hne : s.sched.currentTask ≠ newTask := fun heq => hnew (heq ▸ h.onRing.current_mem)
    obtain ⟨-, hsame⟩ := Sched.addTask_fields stack pml4Phys programBreak isWm hhead
    exact (hbefore hcurrent).trans (hsame _ hne).1.kernelStack_eq.symm
  | schedule hrun =>
    exact iff_of_true (fun _ => Sched.schedulerSchedule_tssRsp0 h.onRing.current_ne_zero hrun)
      trivial
  | @exit sp sched' hroot hrun =>
    obtain ⟨sp', t, -, -, hrun', -, -, -, -, hnext, -⟩ := h.onRing.taskExit hroot
    obtain ⟨rfl, rfl⟩ := Prod.mk.inj (Option.some_inj.mp (hrun.symm.trans hrun'))
    have hloaded := Sched.taskExit_tssRsp0 hrun
    constructor
    · intro hagrees
      by_contra hne
      have hcurrent : sched'.currentTask ≠ b.rootTask := fun heq => hne (hnext.symm.trans heq)
      exact Sched.wrap_add_page_ne _ (hloaded.symm.trans (hagrees hcurrent))
    · intro hreturns hcurrent
      exact absurd (hnext.trans hreturns) hcurrent

/-- In every run, a current user task has its kernel stack loaded in all states if and only if each
exit resumes the root task. -/
theorem rsp0_agrees_iff (run : Reaches (Traced (SchedStep b)) b.start trace s) :
    (∀ t ∈ trace, Rsp0Agrees b t.after) ↔ ∀ t ∈ trace, EntersRoot b t := by
  induction run with
  | start => exact iff_of_true (List.forall_mem_nil _) (List.forall_mem_nil _)
  | @snoc trace s s' t hrun hlast ih =>
    rw [List.forall_mem_cons, List.forall_mem_cons, ih]
    refine and_congr_left fun hreturns => ?_
    obtain ⟨before, event, after⟩ := t
    obtain ⟨rfl, rfl, hlast⟩ := hlast
    obtain ⟨rest, h⟩ := SchedInv.run hrun.labels
    refine h.rsp0Agrees_iff ?_ hlast
    -- the state before is the last of the run so far
    cases hrun with
    | start => exact fun hcurrent => absurd rfl hcurrent
    | snoc _ hprev => exact hprev.2.1 ▸ ih.mpr hreturns _ List.mem_cons_self

end Runs

/-- The first task is created, and the root task is preempted. -/
def sampleFirstTick : List (Transition SchedState SchedEvent) :=
  [⟨sampleCreated, .schedule 0x1000 0x9000 0x10000 0x20f60 [], sampleTicked⟩,
    ⟨sampleBoot.start, .create 0x10000 0x20f60, sampleCreated⟩]

theorem rsp0_agrees_iff_sampleFirstTick :
    (∀ t ∈ sampleFirstTick, Rsp0Agrees sampleBoot t.after) ↔
      ∀ t ∈ sampleFirstTick, EntersRoot sampleBoot t :=
  rsp0_agrees_iff ((Reaches.start.next sampleCreated_step).next sampleTicked_step)

/-! ## Two tasks -/

/-- The second task exits, and the first is entered with the address behind its stack. -/
theorem rsp0_behind_stack : ∃ history,
    Reaches (SchedStep sampleBoot) sampleBoot.start history sampleTwoTicked.afterExit ∧
      sampleTwoTicked.afterExit.sched.currentTask = 0x10000 ∧
      sampleTwoTicked.afterExit.sched.tssRsp0 = 0x22000 ∧
      (sampleTwoTicked.afterExit.sched.task 0x10000).kernelStack = 0x21000 ∧
      ¬ Rsp0Agrees sampleBoot sampleTwoTicked.afterExit := by
  have hcurrent : sampleTwoTicked.afterExit.sched.currentTask = 0x10000 := by decide +kernel
  have hloaded : sampleTwoTicked.afterExit.sched.tssRsp0 = 0x22000 := by decide +kernel
  have hstack : (sampleTwoTicked.afterExit.sched.task 0x10000).kernelStack = 0x21000 := by
    decide +kernel
  refine ⟨_, ((Reaches.start.snoc sampleCreated_step).snoc sampleTwo_step).snoc
    sampleTwoTicked_step |>.snoc sampleTwoExited_step, hcurrent, hloaded, hstack, fun hagrees => ?_⟩
  have heq := hagrees (hcurrent.trans_ne (by decide))
  rw [hloaded, hcurrent, hstack] at heq
  exact absurd heq (by decide)

end OpenIDP.Process
