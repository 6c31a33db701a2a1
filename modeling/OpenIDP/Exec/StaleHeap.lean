import OpenIDP.Exec.Atomic
import OpenIDP.Exec.TaskFree
import OpenIDP.Math.Reaches
import OpenIDP.Process.SchedRing

/-!
# What the kernel heap held before

`scheduler_init` takes the struct of the root task from the kernel heap and writes three of its
fields; `create_kernel_task` writes four. The other fields are what the block of the heap held
before. Two boots that differ in that only go the same way as long as no step reads such a struct
beyond the fields that were written: as long as no such task is resumed or reaped, sent a message
or made to share memory.

The root task stays in the list, so a timer interrupt comes to it sooner or later.

## Main definitions

* `Sched.Agrees` — two memories that agree where the kernel has written
* `Machine`, `Call`, `Serves` — the runs
* `Machine.Avoids` — a step that reads no partly written struct
* `Machine.Alike` — two machines that differ in what was not written only

## Main results

* `Machine.Alike.step` — such a step does the same in both machines
* `stale_heap_unread` — so do runs of such steps
-/

namespace OpenIDP.Process

open OpenIDP.Math OpenIDP.Memory

/-- The fields that `scheduler_init` and `create_kernel_task` write are the same. -/
structure Task.SameWritten (t t' : Task) : Prop where
  rsp_eq : t.rsp = t'.rsp
  pid_eq : t.pid = t'.pid
  next_eq : t.next = t'.next

/-- The next message goes into the array, and the page tables are some that the kernel assigned. -/
structure Task.Ready (assigned : Set ℕ) (t : Task) : Prop where
  msgTail_nonneg : 0 ≤ t.msgTail
  msgTail_lt : t.msgTail < msgQueueSize
  cr3_mem : t.cr3 ∈ assigned

namespace Sched

/-- The same list of tasks, with other contents of memory in place of task structs. -/
def withTask (s : Sched) (t : ℕ → Task) : Sched := { s with task := t }

/-- The kernel can get to the structs in `known` only. What memory holds there in place of task
structs is the same, but in those of `partly` only the fields that were written. -/
structure Agrees (partly assigned known : Set ℕ) (s : Sched) (t : ℕ → Task) : Prop where
  next_mem : ∀ a ∈ known, s.next a ∈ known
  taskHead_mem : s.taskHead ∈ known
  currentTask_mem : s.currentTask ∈ known
  zombieTask_mem : s.zombieTask = 0 ∨ s.zombieTask ∈ known
  written : ∀ a ∈ known, (t a).SameWritten (s.task a)
  task_eq : ∀ a ∈ known, a ∉ partly → t a = s.task a
  ready : ∀ a ∈ known, a ∉ partly → (s.task a).Ready assigned

section Steps

variable {partly assigned known : Set ℕ} {s : Sched} {t : ℕ → Task} {a : ℕ}

theorem task_setTask (s : Sched) (a : ℕ) (x : Task) (c : ℕ) :
    (s.setTask a x).task c = if c = a then x else s.task c := Function.update_apply _ _ _ _

theorem ringSearch_congr {next next' : ℕ → ℕ} {test test' : ℕ → Bool} {head rounds curr : ℕ}
    (hclosed : ∀ a ∈ known, next a ∈ known) (hnext : ∀ a ∈ known, next' a = next a)
    (htest : ∀ a ∈ known, test' a = test a) (hcurr : curr ∈ known) :
    ringSearch next' head test' rounds curr = ringSearch next head test rounds curr ∧
      ∀ found, ringSearch next head test rounds curr = some found → found ≠ 0 → found ∈ known := by
  induction rounds generalizing curr with
  | zero => exact ⟨rfl, fun _ hfound => absurd hfound (Option.some_ne_none _).symm⟩
  | succ rounds ih =>
    rw [ringSearch, ringSearch, hnext curr hcurr, htest curr hcurr]
    split_ifs
    · exact ⟨rfl, fun found hfound _ => Option.some_inj.mp hfound ▸ hcurr⟩
    · exact ⟨rfl, fun found hfound hne => absurd (Option.some_inj.mp hfound).symm hne⟩
    · exact ih (hclosed curr hcurr)

theorem releases_congr {s' : Sched} (hhdm : ℕ) (h : s'.task a = s.task a) :
    s'.releases hhdm a = s.releases hhdm a := by
  rw [releases, releases, h]

theorem Agrees.next_eq (h : s.Agrees partly assigned known t) (ha : a ∈ known) :
    (s.withTask t).next a = s.next a :=
  (h.written a ha).next_eq

theorem Agrees.mono {partly' assigned' : Set ℕ} (h : s.Agrees partly assigned known t)
    (hpartly : partly ⊆ partly') (hassigned : assigned ⊆ assigned') :
    s.Agrees partly' assigned' known t where
  next_mem := h.next_mem
  taskHead_mem := h.taskHead_mem
  currentTask_mem := h.currentTask_mem
  zombieTask_mem := h.zombieTask_mem
  written := h.written
  task_eq a ha hnot := h.task_eq a ha fun hmem => hnot (hpartly hmem)
  ready a ha hnot :=
    let hready := h.ready a ha fun hmem => hnot (hpartly hmem)
    ⟨hready.msgTail_nonneg, hready.msgTail_lt, hassigned hready.cr3_mem⟩

/-- A struct is written, in both memories. -/
theorem Agrees.setTask (h : s.Agrees partly assigned known t) {x y : Task}
    (hnext : x.next ∈ insert a known) (hwritten : y.SameWritten x)
    (heq : a ∉ partly → y = x ∧ x.Ready assigned) :
    (s.setTask a x).Agrees partly assigned (insert a known) (Function.update t a y) where
  next_mem c hc := by
    rw [next, task_setTask]
    split_ifs with hca
    · exact hnext
    · exact Or.inr (h.next_mem c (hc.resolve_left hca))
  taskHead_mem := Or.inr h.taskHead_mem
  currentTask_mem := Or.inr h.currentTask_mem
  zombieTask_mem := h.zombieTask_mem.imp_right Or.inr
  written c hc := by
    rw [task_setTask, Function.update_apply]
    split_ifs with hca
    · exact hwritten
    · exact h.written c (hc.resolve_left hca)
  task_eq c hc hnot := by
    rw [task_setTask, Function.update_apply]
    split_ifs with hca
    · exact (heq (hca ▸ hnot)).1
    · exact h.task_eq c (hc.resolve_left hca) hnot
  ready c hc hnot := by
    rw [task_setTask]
    split_ifs with hca
    · exact (heq (hca ▸ hnot)).2
    · exact h.ready c (hc.resolve_left hca) hnot

theorem Agrees.setTask_known (h : s.Agrees partly assigned known t) (ha : a ∈ known) {x y : Task}
    (hnext : x.next ∈ known) (hwritten : y.SameWritten x)
    (heq : a ∉ partly → y = x ∧ x.Ready assigned) :
    (s.setTask a x).Agrees partly assigned known (Function.update t a y) := by
  have hset := h.setTask (a := a) (Or.inr hnext) hwritten heq
  rwa [Set.insert_eq_of_mem ha] at hset

theorem Agrees.setNext (h : s.Agrees partly assigned known t) (ha : a ∈ known) {value : ℕ}
    (hvalue : value ∈ known) :
    (s.setNext a value).Agrees partly assigned known ((s.withTask t).setNext a value).task := by
  refine h.setTask_known ha hvalue ⟨(h.written a ha).rsp_eq, (h.written a ha).pid_eq, rfl⟩ ?_
  intro hnot
  obtain ⟨hnonneg, hlt, hmem⟩ := h.ready a ha hnot
  refine ⟨?_, hnonneg, hlt, hmem⟩
  change { t a with next := value } = _
  rw [h.task_eq a ha hnot]

/-- A new task is linked. -/
theorem Agrees.link (h : s.Agrees partly assigned known t) {x y : Task} {pid : ℕ}
    (hnext : x.next = s.next s.taskHead) (hwritten : y.SameWritten x)
    (heq : a ∉ partly → y = x ∧ x.Ready assigned) :
    ({ s.setTask a x with nextPid := pid }.setNext s.taskHead a).Agrees partly assigned
      (insert a known)
      (({ (s.withTask t).setTask a y with nextPid := pid } : Sched).setNext s.taskHead a).task := by
  have hset := h.setTask (a := a) (x := x) (y := y)
    (Or.inr (hnext ▸ h.next_mem _ h.taskHead_mem)) hwritten heq
  have hset' : ({ s.setTask a x with nextPid := pid } : Sched).Agrees partly assigned
      (insert a known) (Function.update t a y) :=
    ⟨hset.next_mem, hset.taskHead_mem, hset.currentTask_mem, hset.zombieTask_mem, hset.written,
      hset.task_eq, hset.ready⟩
  exact hset'.setNext (Or.inr h.taskHead_mem) (Set.mem_insert a known)

theorem Agrees.addTask (h : s.Agrees partly assigned known t)
    (newTask stack programBreak : ℕ) (isWm : Bool) {cr3 : ℕ} (hcr3 : cr3 ∈ assigned) :
    (s.addTask newTask stack cr3 programBreak isWm).Agrees partly assigned (insert newTask known)
        ((s.withTask t).addTask newTask stack cr3 programBreak isWm).task ∧
      (s.withTask t).addTask newTask stack cr3 programBreak isWm =
        (s.addTask newTask stack cr3 programBreak isWm).withTask
          ((s.withTask t).addTask newTask stack cr3 programBreak isWm).task := by
  have hnext : (s.withTask t).next (s.withTask t).taskHead = s.next s.taskHead :=
    h.next_eq h.taskHead_mem
  refine ⟨?_, rfl⟩
  rw [Sched.addTask, Sched.addTask, hnext]
  exact h.link rfl ⟨rfl, rfl, rfl⟩ fun _ => ⟨rfl, le_rfl, Int.natCast_pos.mpr (by decide), hcr3⟩

theorem addKernelTask_cr3 {newTask stackBottom cr3 : ℕ} :
    ((s.addKernelTask newTask stackBottom cr3).task newTask).cr3 = cr3 := by
  obtain ⟨s', hs'⟩ : ∃ s', s' = s.setTask newTask { s.task newTask with
    rsp := sub64 (wrap (stackBottom + 4096)) (8 * initialFrameWords)
    pid := s.nextPid
    cr3 := cr3
    next := s.next s.taskHead } := ⟨_, rfl⟩
  have hnext := (setNext_same (s := { s' with nextPid := wrap (s.nextPid + 1) }) s.taskHead newTask
    newTask).1.cr3_eq
  rw [hs'] at hnext
  refine hnext.trans ?_
  change ((s.setTask newTask _).task newTask).cr3 = cr3
  rw [task_setTask, if_pos rfl]

theorem Agrees.addKernelTask (h : s.Agrees partly assigned known t) {newTask : ℕ}
    (stackBottom cr3 : ℕ) (hnew : newTask ∈ partly) :
    (s.addKernelTask newTask stackBottom cr3).Agrees partly assigned (insert newTask known)
        ((s.withTask t).addKernelTask newTask stackBottom cr3).task ∧
      (s.withTask t).addKernelTask newTask stackBottom cr3 =
        (s.addKernelTask newTask stackBottom cr3).withTask
          ((s.withTask t).addKernelTask newTask stackBottom cr3).task := by
  have hnext : (s.withTask t).next (s.withTask t).taskHead = s.next s.taskHead :=
    h.next_eq h.taskHead_mem
  refine ⟨?_, rfl⟩
  rw [Sched.addKernelTask, Sched.addKernelTask, hnext]
  exact h.link rfl ⟨rfl, rfl, rfl⟩ fun hnot => absurd hnew hnot

/-! ## Switching -/

/-- Both processors resume the current task alike. -/
theorem Agrees.resume (h : s.Agrees partly assigned known t) (hcurrent : s.currentTask ∉ partly)
    (f : ℕ → ℕ) {s₁ s₂ : Sched}
    (hs₁ : s₁ = { s with tssRsp0 := f (s.task s.currentTask).kernelStack }.switchCr3)
    (hs₂ : s₂ = { s.withTask t with tssRsp0 := f (t s.currentTask).kernelStack }.switchCr3) :
    s₂ = s₁.withTask t ∧ s₁.Agrees partly assigned known t ∧
      s₂.task s₂.currentTask = s₁.task s₁.currentTask ∧
      s₁.task = s.task ∧ s₁.currentTask = s.currentTask := by
  have htask := h.task_eq _ h.currentTask_mem hcurrent
  rw [switchCr3_eq] at hs₁ hs₂
  have hcr3 : cr3After { s.withTask t with tssRsp0 := f (t s.currentTask).kernelStack }
      s.currentTask = cr3After s s.currentTask := by
    rw [cr3After, cr3After]
    change (if (t s.currentTask).cr3 = 0 then s.cr3 else (t s.currentTask).cr3) = _
    rw [htask]
  have heq : s₂ = s₁.withTask t := by
    rw [hs₂, hs₁]
    change { { s.withTask t with tssRsp0 := f (t s.currentTask).kernelStack } with
      cr3 := cr3After { s.withTask t with tssRsp0 := f (t s.currentTask).kernelStack }
        s.currentTask } = _
    rw [hcr3, htask]
    rfl
  refine ⟨heq, ?_, ?_, ?_, ?_⟩
  · rw [hs₁]
    exact ⟨h.next_mem, h.taskHead_mem, h.currentTask_mem, h.zombieTask_mem, h.written, h.task_eq,
      h.ready⟩
  · rw [heq, hs₁]
    exact htask
  · rw [hs₁]
  · rw [hs₁]

theorem Agrees.reapZombie (h : s.Agrees partly assigned known t) (hhdm : ℕ)
    (hzombie : s.zombieTask ∉ partly) :
    (s.withTask t).reapZombie hhdm =
        ((s.reapZombie hhdm).1.withTask t, (s.reapZombie hhdm).2) ∧
      (s.reapZombie hhdm).1.Agrees partly assigned known t := by
  rw [Sched.reapZombie, Sched.reapZombie]
  by_cases hzero : s.zombieTask = 0
  · have hzero' : (s.withTask t).zombieTask = 0 := hzero
    rw [if_neg (not_not.mpr hzero), if_neg (not_not.mpr hzero')]
    exact ⟨rfl, h⟩
  · have hzero' : (s.withTask t).zombieTask ≠ 0 := hzero
    have htask := h.task_eq _ (h.zombieTask_mem.resolve_left hzero) hzombie
    rw [if_pos hzero, if_pos hzero']
    refine ⟨?_, ⟨h.next_mem, h.taskHead_mem, h.currentTask_mem, Or.inl rfl, h.written, h.task_eq,
      h.ready⟩⟩
    have hreleases : (s.withTask t).releases hhdm (s.withTask t).zombieTask =
        s.releases hhdm s.zombieTask := releases_congr hhdm htask
    rw [hreleases]
    rfl

theorem Agrees.switchNext (h : s.Agrees partly assigned known t)
    (hnext : s.next s.currentTask ∉ partly) (rsp : ℕ) :
    ∃ t', (s.withTask t).switchNext rsp = ((s.switchNext rsp).1, (s.switchNext rsp).2.withTask t') ∧
      (s.switchNext rsp).2.Agrees partly assigned known t' := by
  by_cases hcurrent : s.currentTask = 0
  · have hcurrent' : (s.withTask t).currentTask = 0 := hcurrent
    refine ⟨t, ?_, ?_⟩
    · rw [Sched.switchNext, Sched.switchNext, if_pos hcurrent, if_pos hcurrent']
    · rw [Sched.switchNext, if_pos hcurrent]
      exact h
  · have hcurrent' : (s.withTask t).currentTask ≠ 0 := hcurrent
    have hmem := h.currentTask_mem
    -- the stack pointer of the task that is left is saved
    obtain ⟨s₁, hs₁⟩ : ∃ s₁, s₁ =
      s.setTask s.currentTask { s.task s.currentTask with rsp := rsp } := ⟨_, rfl⟩
    obtain ⟨t₁, ht₁⟩ : ∃ t₁, t₁ =
      Function.update t s.currentTask { t s.currentTask with rsp := rsp } := ⟨_, rfl⟩
    have hsaved : s₁.Agrees partly assigned known t₁ := by
      rw [hs₁, ht₁]
      refine h.setTask_known hmem (h.next_mem _ hmem)
        ⟨rfl, (h.written _ hmem).pid_eq, (h.written _ hmem).next_eq⟩ fun hnot => ?_
      obtain ⟨hnonneg, hlt, hcr3⟩ := h.ready _ hmem hnot
      exact ⟨by rw [h.task_eq _ hmem hnot], hnonneg, hlt, hcr3⟩
    have hsame : s₁.next s₁.currentTask = s.next s.currentTask := by
      rw [hs₁]
      change ((s.setTask s.currentTask _).task s.currentTask).next = _
      rw [task_setTask, if_pos rfl]
      rfl
    -- the next task becomes the current one
    have hmoved : ({ s₁ with currentTask := s₁.next s₁.currentTask } : Sched).Agrees
        partly assigned known t₁ :=
      ⟨hsaved.next_mem, hsaved.taskHead_mem, hsaved.next_mem _ hsaved.currentTask_mem,
        hsaved.zombieTask_mem, hsaved.written, hsaved.task_eq, hsaved.ready⟩
    obtain ⟨s₄, hs₄⟩ : ∃ s₄, s₄ = ({ s₁ with
      currentTask := s₁.next s₁.currentTask
      tssRsp0 := id (s₁.task (s₁.next s₁.currentTask)).kernelStack } : Sched).switchCr3 := ⟨_, rfl⟩
    obtain ⟨u₄, hu₄⟩ : ∃ u₄, u₄ = ({ s₁.withTask t₁ with
      currentTask := s₁.next s₁.currentTask
      tssRsp0 := id (t₁ (s₁.next s₁.currentTask)).kernelStack } : Sched).switchCr3 := ⟨_, rfl⟩
    obtain ⟨heq, hagrees, hcurr, -, -⟩ := hmoved.resume
      (by change s₁.next s₁.currentTask ∉ partly; rw [hsame]; exact hnext) id hs₄ hu₄
    have hrun : s.switchNext rsp = ((s₄.task s₄.currentTask).rsp, s₄) := by
      rw [Sched.switchNext, if_neg hcurrent, hs₄, hs₁]
      rfl
    have hrun' : (s.withTask t).switchNext rsp = ((u₄.task u₄.currentTask).rsp, u₄) := by
      have hstep : (s₁.withTask t₁).next s₁.currentTask = s₁.next s₁.currentTask :=
        hsaved.next_eq hsaved.currentTask_mem
      rw [Sched.switchNext, if_neg hcurrent', hu₄, ← hstep, ht₁, hs₁]
      rfl
    refine ⟨t₁, ?_, ?_⟩
    · rw [hrun, hrun', hcurr, heq]
    · rw [hrun]
      exact hagrees

/-- The timer interrupt resumes the same task at the same stack pointer. -/
theorem Agrees.schedulerSchedule (h : s.Agrees partly assigned known t) (hhdm : ℕ)
    (hzombie : s.zombieTask ∉ partly) (hnext : s.next s.currentTask ∉ partly) (rsp : ℕ) {sp : ℕ}
    {s' : Sched} {released : List Release}
    (hrun : s.schedulerSchedule hhdm rsp = (sp, s', released)) :
    ∃ t', (s.withTask t).schedulerSchedule hhdm rsp = (sp, s'.withTask t', released) ∧
      s'.Agrees partly assigned known t' := by
  obtain ⟨hreap, hagrees⟩ := h.reapZombie hhdm hzombie
  have hsame : (s.reapZombie hhdm).1.next (s.reapZombie hhdm).1.currentTask =
      s.next s.currentTask := by
    rw [Sched.reapZombie]
    split_ifs <;> rfl
  obtain ⟨t', hswitch, hagrees'⟩ := hagrees.switchNext (hsame ▸ hnext) rsp
  have hsp : ((s.reapZombie hhdm).1.switchNext rsp).1 = sp := congrArg Prod.fst hrun
  have hs' : ((s.reapZombie hhdm).1.switchNext rsp).2 = s' := congrArg (·.2.1) hrun
  have hreleased : (s.reapZombie hhdm).2 = released := congrArg (·.2.2) hrun
  rw [hsp, hs'] at hswitch
  refine ⟨t', ?_, hs' ▸ hagrees'⟩
  rw [Sched.schedulerSchedule, hreap]
  dsimp only
  rw [hswitch, hreleased]

theorem Agrees.findPrev_eq (h : s.Agrees partly assigned known t) (victim rounds : ℕ) {prev : ℕ}
    (hprev : prev ∈ known) :
    (s.withTask t).findPrev victim rounds prev = s.findPrev victim rounds prev ∧
      ∀ found, s.findPrev victim rounds prev = some found → found ∈ known := by
  induction rounds generalizing prev with
  | zero => exact ⟨rfl, fun _ hfound => absurd hfound (Option.some_ne_none _).symm⟩
  | succ rounds ih =>
    have hnext := h.next_eq hprev
    rw [findPrev, findPrev, hnext]
    by_cases hvictim : s.next prev = victim
    · rw [if_pos hvictim, if_pos hvictim]
      exact ⟨rfl, fun found hfound => Option.some_inj.mp hfound ▸ hprev⟩
    · rw [if_neg hvictim, if_neg hvictim]
      by_cases hback : s.next prev = s.taskHead ∧ victim ≠ s.taskHead
      · have hback' : s.next prev = (s.withTask t).taskHead ∧ victim ≠ (s.withTask t).taskHead :=
          hback
        rw [if_pos hback, if_pos hback']
        exact ⟨rfl, fun _ hfound => absurd hfound (Option.some_ne_none _).symm⟩
      · have hback' : ¬ (s.next prev = (s.withTask t).taskHead ∧
          victim ≠ (s.withTask t).taskHead) := hback
        rw [if_neg hback, if_neg hback']
        exact ih (h.next_mem _ hprev)

theorem taskExit_eq {prev : ℕ} {s₁ s₄ : Sched}
    (hprev : s.findPrev s.currentTask maxTasks s.taskHead = some prev)
    (hs₁ : s.unlink s.currentTask prev = s₁)
    (hs₄ : s₄ = ({ s₁ with
      zombieTask := s.currentTask
      currentTask := s₁.next s.currentTask
      tssRsp0 := wrap ((s₁.task (s₁.next s.currentTask)).kernelStack + 4096) } :
      Sched).switchCr3) :
    s.taskExit = some ((s₄.task s₄.currentTask).rsp, s₄) := by
  rw [Sched.taskExit]
  change (s.findPrev s.currentTask maxTasks s.taskHead).bind _ = _
  rw [hprev, Option.bind_some, hs₄, ← hs₁]

/-- An exit takes the same task out of the list and resumes the same task. -/
theorem Agrees.taskExit (h : s.Agrees partly assigned known t)
    (hnext : s.next s.currentTask ∉ partly) {sp : ℕ} {s' : Sched}
    (hrun : s.taskExit = some (sp, s')) :
    (∃ t', (s.withTask t).taskExit = some (sp, s'.withTask t') ∧
      s'.Agrees partly assigned known t') ∧ s'.currentTask = s.next s.currentTask := by
  obtain ⟨prev, hprev, -⟩ := Option.bind_eq_some_iff.mp hrun
  obtain ⟨hsearch, hmem⟩ := h.findPrev_eq s.currentTask maxTasks h.taskHead_mem
  have hprev_mem := hmem prev hprev
  have hvictim := h.next_mem _ h.currentTask_mem
  obtain ⟨s₀, hs₀⟩ : ∃ s₀, s₀ = s.setNext prev (s.next s.currentTask) := ⟨_, rfl⟩
  obtain ⟨t₀, ht₀⟩ : ∃ t₀, t₀ = ((s.withTask t).setNext prev (s.next s.currentTask)).task :=
    ⟨_, rfl⟩
  have h₀ : s₀.Agrees partly assigned known t₀ := by
    rw [hs₀, ht₀]
    exact h.setNext hprev_mem hvictim
  -- the victim's own link stays, also when it was its own predecessor
  have hlink : s₀.next s.currentTask = s.next s.currentTask := by
    rw [hs₀, next_setNext]
    split_ifs <;> rfl
  have hlink' : (s₀.withTask t₀).next s.currentTask = s.next s.currentTask := by
    rw [h₀.next_eq h.currentTask_mem, hlink]
  obtain ⟨s₁, hs₁⟩ : ∃ s₁, s₁ = s.unlink s.currentTask prev := ⟨_, rfl⟩
  have hunlink : (s.withTask t).unlink s.currentTask prev = s₁.withTask t₀ ∧
      s₁.Agrees partly assigned known t₀ ∧ s₁.next s.currentTask = s.next s.currentTask := by
    have hnext' : (s.withTask t).next s.currentTask = s.next s.currentTask :=
      h.next_eq h.currentTask_mem
    have hset : (s.withTask t).setNext prev (s.next s.currentTask) = s₀.withTask t₀ := by
      rw [hs₀, ht₀]
      rfl
    rw [unlink, hs₁, unlink, hnext', hset, ← hs₀]
    by_cases hhead : s.currentTask = s₀.taskHead
    · have hhead' : s.currentTask = (s₀.withTask t₀).taskHead := hhead
      rw [if_pos hhead, if_pos hhead', hlink', hlink]
      exact ⟨rfl, ⟨h₀.next_mem, hvictim, h₀.currentTask_mem, h₀.zombieTask_mem, h₀.written,
        h₀.task_eq, h₀.ready⟩, hlink⟩
    · have hhead' : s.currentTask ≠ (s₀.withTask t₀).taskHead := hhead
      rw [if_neg hhead, if_neg hhead']
      exact ⟨rfl, h₀, hlink⟩
  obtain ⟨hsame, h₁, hlink₁⟩ := hunlink
  have h₂ : ({ s₁ with
      zombieTask := s.currentTask
      currentTask := s₁.next s.currentTask } : Sched).Agrees partly assigned known t₀ :=
    ⟨h₁.next_mem, h₁.taskHead_mem, h₁.next_mem _ h.currentTask_mem, Or.inr h.currentTask_mem,
      h₁.written, h₁.task_eq, h₁.ready⟩
  obtain ⟨s₄, hs₄⟩ : ∃ s₄, s₄ = ({ s₁ with
    zombieTask := s.currentTask
    currentTask := s₁.next s.currentTask
    tssRsp0 := wrap ((s₁.task (s₁.next s.currentTask)).kernelStack + 4096) } : Sched).switchCr3 :=
    ⟨_, rfl⟩
  obtain ⟨u₄, hu₄⟩ : ∃ u₄, u₄ = ({ s₁.withTask t₀ with
    zombieTask := s.currentTask
    currentTask := s₁.next s.currentTask
    tssRsp0 := wrap ((t₀ (s₁.next s.currentTask)).kernelStack + 4096) } : Sched).switchCr3 :=
    ⟨_, rfl⟩
  have hu₄' : u₄ = ({ s₁.withTask t₀ with
      zombieTask := (s.withTask t).currentTask
      currentTask := (s₁.withTask t₀).next (s.withTask t).currentTask
      tssRsp0 := wrap (((s₁.withTask t₀).task
        ((s₁.withTask t₀).next (s.withTask t).currentTask)).kernelStack + 4096) } :
      Sched).switchCr3 := by
    have hstep : (s₁.withTask t₀).next (s.withTask t).currentTask = s₁.next s.currentTask :=
      h₁.next_eq h.currentTask_mem
    rw [hstep]
    exact hu₄
  obtain ⟨heq, hagrees, hcurr, -, hresumed⟩ := h₂.resume
    (by change s₁.next s.currentTask ∉ partly; rw [hlink₁]; exact hnext)
    (fun kernelStack => wrap (kernelStack + 4096)) hs₄ hu₄
  have hexit := taskExit_eq hprev hs₁.symm hs₄
  obtain ⟨rfl, rfl⟩ : (s₄.task s₄.currentTask).rsp = sp ∧ s₄ = s' :=
    Prod.mk.injEq _ _ _ _ ▸ Option.some_inj.mp (hexit.symm.trans hrun)
  refine ⟨⟨t₀, ?_, hagrees⟩, hresumed.trans hlink₁⟩
  rw [taskExit_eq (hsearch.trans hprev) hsame hu₄', hcurr, heq]

/-! ## System calls -/

theorem Agrees.getTaskByPid (h : s.Agrees partly assigned known t) (pid : ℕ) :
    (s.withTask t).getTaskByPid pid = s.getTaskByPid pid ∧
      ∀ target, s.getTaskByPid pid = some target → target ≠ 0 → target ∈ known :=
  ringSearch_congr h.next_mem (fun _ ha => h.next_eq ha)
    (fun a ha => congrArg (· == pid) (h.written a ha).pid_eq) h.taskHead_mem

/-- A message is stored in the same place of the same struct. -/
theorem Agrees.sysIpcSend (h : s.Agrees partly assigned known t) {destPid type result : ℤ}
    {d1 d2 d3 : ℕ} {s' : Sched}
    (htarget : ∀ target, s.getTaskByPid (toU64 destPid) = some target → target ∉ partly)
    (hrun : s.sysIpcSend destPid type d1 d2 d3 = some (result, s')) :
    ∃ t', (s.withTask t).sysIpcSend destPid type d1 d2 d3 = some (result, s'.withTask t') ∧
      s'.Agrees partly assigned known t' := by
  rw [Sched.sysIpcSend] at hrun
  obtain ⟨target, hfound, hrun⟩ := Option.bind_eq_some_iff.mp hrun
  obtain ⟨hsearch, hmem⟩ := h.getTaskByPid (toU64 destPid)
  have hnot := htarget target hfound
  rw [Sched.sysIpcSend, hsearch, hfound]
  simp only [Option.bind_eq_bind, Option.bind_some]
  by_cases hzero : target = 0
  · rw [if_pos hzero] at hrun ⊢
    obtain ⟨rfl, rfl⟩ := Prod.mk.inj (Option.some_inj.mp hrun)
    exact ⟨t, rfl, h⟩
  · have hknown := hmem target hfound hzero
    have htask : (s.withTask t).task target = s.task target := h.task_eq _ hknown hnot
    have hpid : ((s.withTask t).task (s.withTask t).currentTask).pid =
        (s.task s.currentTask).pid := (h.written _ h.currentTask_mem).pid_eq
    rw [if_neg hzero] at hrun ⊢
    rw [htask, hpid]
    split_ifs at hrun ⊢ with hfull
    · obtain ⟨rfl, rfl⟩ := Prod.mk.inj (Option.some_inj.mp hrun)
      exact ⟨t, rfl, h⟩
    · obtain ⟨rfl, rfl⟩ := Prod.mk.inj (Option.some_inj.mp hrun)
      refine ⟨_, rfl, h.setTask_known hknown (h.next_mem _ hknown) ⟨rfl, rfl, rfl⟩ fun _ => ?_⟩
      obtain ⟨hnonneg, hlt, hcr3⟩ := h.ready _ hknown hnot
      exact ⟨rfl, Int.tmod_nonneg _ (by omega), Int.tmod_lt_of_pos _ (by decide), hcr3⟩

/-- A range is reserved at the same address. -/
theorem Agrees.reserve (h : s.Agrees partly assigned known t) (ha : a ∈ known) (hnot : a ∉ partly)
    (size : ℕ) :
    (s.withTask t).reserve a size =
        ((s.reserve a size).1,
          (s.reserve a size).2.withTask ((s.withTask t).reserve a size).2.task) ∧
      (s.reserve a size).2.Agrees partly assigned known ((s.withTask t).reserve a size).2.task := by
  have htask : (s.withTask t).task a = s.task a := h.task_eq a ha hnot
  rw [Sched.reserve, Sched.reserve, htask]
  refine ⟨rfl, h.setTask_known ha (h.next_mem a ha) ⟨rfl, rfl, rfl⟩ fun _ => ⟨rfl, ?_⟩⟩
  obtain ⟨hnonneg, hlt, hcr3⟩ := h.ready a ha hnot
  exact ⟨hnonneg, hlt, hcr3⟩

end Steps
end Sched
end OpenIDP.Process

namespace OpenIDP.Exec

open OpenIDP.Math OpenIDP.Memory OpenIDP.Process

/-! ## Runs -/

/-- The kernel, the task structs that were written in part only, and the page tables that were
assigned to a task. -/
structure Machine where
  kernel : Kernel
  partly : Set ℕ
  assigned : Set ℕ

/-- What the kernel was asked to do, and what it answered. -/
inductive Call
  | create (file : FatFile) (args : Args) (isWm : Bool) (result : ℤ)
  | createKernelTask
  | tick (rsp sp : ℕ)
  | exit (sp : ℕ)
  | send (destPid type : ℤ) (d1 d2 d3 : ℕ) (result : ℤ)
  | share (targetPid : ℤ) (size out result : ℕ)

/-- The kernel at the call of `scheduler_init`. Memory holds `task` in place of task structs. -/
def bootKernel (p : Platform) (vm : Vm) (heap : KHeap) (reads tssRsp0 : ℕ) (task : ℕ → Task) :
    Kernel where
  vm := vm
  heap := heap
  sched :=
    { task := task
      currentTask := 0
      taskHead := 0
      zombieTask := 0
      nextPid := 1
      cr3 := p.kernelPml4
      tssRsp0 := tssRsp0 }
  reads := reads
  nullUsed := false

/-- The machine after `scheduler_init`. -/
def Machine.start (p : Platform) (k : Kernel) : Option Machine := do
  let (rootTask, k₁) ← k.schedulerInit p
  some ⟨k₁, {rootTask}, ∅⟩

/-- One step of the kernel. -/
inductive Serves (p : Platform) : Machine → Call → Machine → Prop
  | create {m : Machine} {k k₁ : Kernel} {pml4 cr3 : ℕ} {file : FatFile} {args : Args}
      {isWm : Bool} {result : ℤ} (hpml4 : m.kernel.newPml4 p = some (pml4, cr3, k₁))
      (h : m.kernel.createUserProcessFromFile p file args isWm = some (result, k)) :
      Serves p m (.create file args isWm result) ⟨k, m.partly, insert cr3 m.assigned⟩
  | createKernelTask {m : Machine} {k : Kernel} {newTask : ℕ}
      (h : m.kernel.createKernelTask p = some (newTask, k)) :
      Serves p m .createKernelTask
        ⟨k, insert newTask m.partly, insert (k.sched.task newTask).cr3 m.assigned⟩
  | tick {m : Machine} {k : Kernel} {rsp sp : ℕ}
      (h : m.kernel.schedulerSchedule rsp = some (sp, k)) :
      Serves p m (.tick rsp sp) { m with kernel := k }
  | exit {m : Machine} {k : Kernel} {sp : ℕ} (h : m.kernel.taskExit = some (sp, k)) :
      Serves p m (.exit sp) { m with kernel := k }
  | send {m : Machine} {k : Kernel} {destPid type result : ℤ} {d1 d2 d3 : ℕ}
      (h : m.kernel.sysIpcSend destPid type d1 d2 d3 = some (result, k)) :
      Serves p m (.send destPid type d1 d2 d3 result) { m with kernel := k }
  | share {m : Machine} {k : Kernel} {targetPid : ℤ} {size out result : ℕ}
      (h : m.kernel.sysShareMem targetPid size out = some (result, k)) :
      Serves p m (.share targetPid size out result) { m with kernel := k }

/-- The step reads no struct that was written in part: no such task is resumed or reaped, sent a
message, or shares memory. -/
def Machine.Avoids (m : Machine) : Call → Prop
  | .create .. => True
  | .createKernelTask => True
  | .tick .. => m.kernel.sched.zombieTask ∉ m.partly ∧
      m.kernel.sched.next m.kernel.sched.currentTask ∉ m.partly
  | .exit _ => m.kernel.sched.next m.kernel.sched.currentTask ∉ m.partly
  | .send destPid .. =>
      ∀ target, m.kernel.sched.getTaskByPid (toU64 destPid) = some target → target ∉ m.partly
  | .share targetPid .. => m.kernel.sched.currentTask ∉ m.partly ∧
      ∀ target, m.kernel.sched.getTaskByPid (toU64 targetPid) = some target → target ∉ m.partly

/-- A step that reads no struct that was written in part. -/
def ServesCleanly (p : Platform) (m : Machine) (c : Call) (n : Machine) : Prop :=
  m.Avoids c ∧ Serves p m c n

/-- The step stores a message within the array, and loads or edits only page tables that the
kernel assigned to a task. -/
def Machine.Chosen (m : Machine) : Call → Machine → Prop
  | .send destPid .., _ => ∀ target,
      m.kernel.sched.getTaskByPid (toU64 destPid) = some target → target ≠ 0 →
        0 ≤ (m.kernel.sched.task target).msgTail ∧ (m.kernel.sched.task target).msgTail < 16
  | .tick .., n => m.kernel.sched.currentTask ≠ 0 →
      (n.kernel.sched.task n.kernel.sched.currentTask).cr3 ∈ m.assigned
  | .exit _, n => (n.kernel.sched.task n.kernel.sched.currentTask).cr3 ∈ m.assigned
  | .share targetPid .., _ => (m.kernel.sched.task m.kernel.sched.currentTask).cr3 ∈ m.assigned ∧
      ∀ target, m.kernel.sched.getTaskByPid (toU64 targetPid) = some target → target ≠ 0 →
        (m.kernel.sched.task target).cr3 ∈ m.assigned
  | _, _ => True

/-- The same machine, with other contents of memory in place of task structs. -/
def Machine.withTask (m : Machine) (t : ℕ → Task) : Machine :=
  { m with kernel := m.kernel.withSched (m.kernel.sched.withTask t) }

/-- What memory holds in place of task structs differs only where the kernel has not written. -/
def Machine.Alike (m m' : Machine) : Prop :=
  ∃ known t, m' = m.withTask t ∧ m.kernel.sched.Agrees m.partly m.assigned known t

section Runs

variable {p : Platform} {m m' n : Machine} {c : Call}

theorem Machine.avoids_withTask {known : Set ℕ} {t : ℕ → Task}
    (h : m.kernel.sched.Agrees m.partly m.assigned known t) (havoids : m.Avoids c) :
    (m.withTask t).Avoids c := by
  have hnext : (m.withTask t).kernel.sched.next (m.withTask t).kernel.sched.currentTask =
      m.kernel.sched.next m.kernel.sched.currentTask := h.next_eq h.currentTask_mem
  have hsearch : ∀ pid, (m.withTask t).kernel.sched.getTaskByPid pid =
      m.kernel.sched.getTaskByPid pid := fun pid => (h.getTaskByPid pid).1
  cases c with
  | create => trivial
  | createKernelTask => trivial
  | tick rsp sp => exact ⟨havoids.1, hnext ▸ havoids.2⟩
  | exit sp =>
    change (m.withTask t).kernel.sched.next (m.withTask t).kernel.sched.currentTask ∉ m.partly
    rw [hnext]
    exact havoids
  | send destPid => exact fun target htarget => havoids target (hsearch _ ▸ htarget)
  | share targetPid =>
    exact ⟨havoids.1, fun target htarget => havoids.2 target (hsearch _ ▸ htarget)⟩

theorem Machine.alike_of {k : Kernel} {partly assigned known : Set ℕ} {s : Sched} {t : ℕ → Task}
    (hsched : k.sched = s) (h : s.Agrees partly assigned known t) :
    Machine.Alike ⟨k, partly, assigned⟩ ⟨k.withSched (s.withTask t), partly, assigned⟩ := by
  subst hsched
  exact ⟨known, t, rfl, h⟩

/-- A creation links the same task, or none. -/
theorem Machine.Alike.create {k k₁ : Kernel} {pml4 cr3 : ℕ} {file : FatFile} {args : Args}
    {isWm : Bool} {result : ℤ} (h : m.Alike m') (hpml4 : m.kernel.newPml4 p = some (pml4, cr3, k₁))
    (hrun : m.kernel.createUserProcessFromFile p file args isWm = some (result, k)) :
    ∃ n', Serves p m' (.create file args isWm result) n' ∧
      Machine.Alike ⟨k, m.partly, insert cr3 m.assigned⟩ n' := by
  obtain ⟨known, t, rfl, hagrees⟩ := h
  have hagrees' := hagrees.mono (subset_refl _) (Set.subset_insert cr3 m.assigned)
  obtain ⟨s, hs⟩ : ∃ s, s = m.kernel.sched.withTask t := ⟨_, rfl⟩
  have hcr3 : s.cr3 = m.kernel.sched.cr3 := by rw [hs]; rfl
  have hpid : s.nextPid = m.kernel.sched.nextPid := by rw [hs]; rfl
  have hpml4' : (m.kernel.withSched s).newPml4 p = some (pml4, cr3, k₁.withSched s) := by
    rw [Kernel.newPml4_withSched hcr3, hpml4]
    rfl
  obtain ⟨pml4₂, cr3₂, k₂, hpml4₂, hcases⟩ :=
    Kernel.createUserProcessFromFile_withSched hcr3 hpid hrun
  obtain ⟨rfl, h₂⟩ := Prod.mk.inj (Option.some_inj.mp (hpml4.symm.trans hpml4₂))
  obtain ⟨rfl, rfl⟩ := Prod.mk.inj h₂
  rw [hs] at hpml4'
  rcases hcases with ⟨hsched, hsame⟩ | ⟨newTask, stack, programBreak, hsched, hsame⟩
  · rw [hs] at hsame
    exact ⟨_, .create hpml4' hsame, Machine.alike_of hsched hagrees'⟩
  · obtain ⟨hadded, heq⟩ := hagrees'.addTask newTask stack programBreak isWm
      (Set.mem_insert cr3 m.assigned)
    rw [hs, heq] at hsame
    exact ⟨_, .create hpml4' hsame, Machine.alike_of hsched hadded⟩

/-- A kernel task is created in the same place, and what is not written of it differs. -/
theorem Machine.Alike.createKernelTask {k : Kernel} {newTask : ℕ} (h : m.Alike m')
    (hrun : m.kernel.createKernelTask p = some (newTask, k)) :
    ∃ n', Serves p m' .createKernelTask n' ∧
      Machine.Alike ⟨k, insert newTask m.partly, insert (k.sched.task newTask).cr3 m.assigned⟩
        n' := by
  obtain ⟨known, t, rfl, hagrees⟩ := h
  have hagrees' := hagrees.mono (Set.subset_insert newTask m.partly)
    (Set.subset_insert (k.sched.task newTask).cr3 m.assigned)
  obtain ⟨stackBottom, cr3, hsched, hsame⟩ :=
    Kernel.createKernelTask_withSched (s := m.kernel.sched.withTask t) rfl hrun
  obtain ⟨hadded, heq⟩ := hagrees'.addKernelTask stackBottom cr3
    (Set.mem_insert newTask m.partly)
  have hcr3 : ((k.withSched ((m.kernel.sched.withTask t).addKernelTask newTask stackBottom
      cr3)).sched.task newTask).cr3 = (k.sched.task newTask).cr3 := by
    rw [hsched, Sched.addKernelTask_cr3]
    exact Sched.addKernelTask_cr3
  have hserves : Serves p (m.withTask t) .createKernelTask _ := .createKernelTask hsame
  rw [hcr3] at hserves
  rw [heq] at hserves
  exact ⟨_, hserves, Machine.alike_of hsched hadded⟩

theorem Kernel.schedulerSchedule_eq {k : Kernel} {rsp sp : ℕ} {sched : Sched}
    {released : List Release}
    (h : k.sched.schedulerSchedule k.vm.pmm.hhdm rsp = (sp, sched, released)) :
    k.schedulerSchedule rsp =
      (released.foldlM Kernel.release k).map fun k₁ => (sp, { k₁ with sched := sched }) := by
  rw [Kernel.schedulerSchedule, h]
  cases hreleased : released.foldlM Kernel.release k with
  | none => simp only [hreleased]; rfl
  | some k₁ => simp only [hreleased]; rfl

theorem Machine.Alike.tick {k : Kernel} {rsp sp : ℕ} (h : m.Alike m')
    (havoids : m.Avoids (.tick rsp sp))
    (hrun : m.kernel.schedulerSchedule rsp = some (sp, k)) :
    ∃ n', Serves p m' (.tick rsp sp) n' ∧ Machine.Alike { m with kernel := k } n' := by
  obtain ⟨known, t, rfl, hagrees⟩ := h
  obtain ⟨⟨sp', sched, released⟩, hsched⟩ : ∃ x, x =
    m.kernel.sched.schedulerSchedule m.kernel.vm.pmm.hhdm rsp := ⟨_, rfl⟩
  rw [Kernel.schedulerSchedule, ← hsched] at hrun
  obtain ⟨k₁, hreleased, hrun⟩ := Option.bind_eq_some_iff.mp hrun
  obtain ⟨rfl, rfl⟩ := Prod.mk.inj (Option.some_inj.mp hrun)
  obtain ⟨t', hsame, hagrees'⟩ := hagrees.schedulerSchedule m.kernel.vm.pmm.hhdm havoids.1
    havoids.2 rsp hsched.symm
  have hrun' : (m.kernel.withSched (m.kernel.sched.withTask t)).schedulerSchedule rsp =
      some (sp', { k₁ with sched := sched.withTask t' }) := by
    rw [Kernel.schedulerSchedule_eq hsame, Kernel.releases_withSched, hreleased]
    rfl
  exact ⟨_, .tick hrun', known, t', rfl, hagrees'⟩

theorem Machine.Alike.exit {k : Kernel} {sp : ℕ} (h : m.Alike m') (havoids : m.Avoids (.exit sp))
    (hrun : m.kernel.taskExit = some (sp, k)) :
    ∃ n', Serves p m' (.exit sp) n' ∧ Machine.Alike { m with kernel := k } n' := by
  obtain ⟨known, t, rfl, hagrees⟩ := h
  obtain ⟨⟨sp', sched⟩, hexit, hrun⟩ := Option.bind_eq_some_iff.mp hrun
  obtain ⟨rfl, rfl⟩ := Prod.mk.inj (Option.some_inj.mp hrun)
  obtain ⟨⟨t', hsame, hagrees'⟩, -⟩ := hagrees.taskExit havoids hexit
  have hrun' : (m.kernel.withSched (m.kernel.sched.withTask t)).taskExit =
      some (sp', { m.kernel with sched := sched.withTask t' }) := by
    change ((m.kernel.sched.withTask t).taskExit).bind _ = _
    rw [hsame]
    rfl
  exact ⟨_, .exit hrun', known, t', rfl, hagrees'⟩

theorem Machine.Alike.send {k : Kernel} {destPid type result : ℤ} {d1 d2 d3 : ℕ} (h : m.Alike m')
    (havoids : m.Avoids (.send destPid type d1 d2 d3 result))
    (hrun : m.kernel.sysIpcSend destPid type d1 d2 d3 = some (result, k)) :
    ∃ n', Serves p m' (.send destPid type d1 d2 d3 result) n' ∧
      Machine.Alike { m with kernel := k } n' := by
  obtain ⟨known, t, rfl, hagrees⟩ := h
  obtain ⟨⟨result', sched⟩, hsend, hrun⟩ := Option.bind_eq_some_iff.mp hrun
  obtain ⟨rfl, rfl⟩ := Prod.mk.inj (Option.some_inj.mp hrun)
  obtain ⟨t', hsame, hagrees'⟩ := hagrees.sysIpcSend havoids hsend
  have hrun' : (m.kernel.withSched (m.kernel.sched.withTask t)).sysIpcSend destPid type d1 d2 d3 =
      some (result', { m.kernel with sched := sched.withTask t' }) := by
    change ((m.kernel.sched.withTask t).sysIpcSend destPid type d1 d2 d3).bind _ = _
    rw [hsame]
    rfl
  exact ⟨_, .send hrun', known, t', rfl, hagrees'⟩

theorem Kernel.sysShareMem_eq {k : Kernel} {targetPid : ℤ} {size out target mine theirs : ℕ}
    {s₁ s₂ : Sched} (htarget : k.sched.getTaskByPid (toU64 targetPid) = some target)
    (hne : target ≠ 0)
    (hs₁ : k.sched.reserve k.sched.currentTask (alignUp size pageSize) = (mine, s₁))
    (hs₂ : s₁.reserve target (alignUp size pageSize) = (theirs, s₂)) :
    k.sysShareMem targetPid size out =
      (sharePages (s₂.task s₂.currentTask).cr3 mine (s₂.task target).cr3 theirs
        (alignUp size pageSize / pageSize) 0 k.vm).bind fun v =>
          (Vm.storeBytes k.sched.cr3 out (wordBytes theirs) v).map fun v₁ =>
            (mine, { k with vm := v₁, sched := s₂ }) := by
  rw [Kernel.sysShareMem]
  simp only [htarget, Option.bind_eq_bind, Option.bind_some, if_neg hne, hs₁, hs₂]
  congr 1
  funext v
  cases Vm.storeBytes k.sched.cr3 out (wordBytes theirs) v <;> rfl

theorem Machine.Alike.share {k : Kernel} {targetPid : ℤ} {size out result : ℕ} (h : m.Alike m')
    (havoids : m.Avoids (.share targetPid size out result))
    (hrun : m.kernel.sysShareMem targetPid size out = some (result, k)) :
    ∃ n', Serves p m' (.share targetPid size out result) n' ∧
      Machine.Alike { m with kernel := k } n' := by
  obtain ⟨known, t, rfl, hagrees⟩ := h
  obtain ⟨target, htarget, hrest⟩ := Option.bind_eq_some_iff.mp hrun
  obtain ⟨hsearch, hmem⟩ := hagrees.getTaskByPid (toU64 targetPid)
  have hsearch' : (m.kernel.withSched (m.kernel.sched.withTask t)).sched.getTaskByPid
      (toU64 targetPid) = some target := hsearch.trans htarget
  by_cases hzero : target = 0
  · rw [if_pos hzero] at hrest
    obtain ⟨rfl, rfl⟩ := Prod.mk.inj (Option.some_inj.mp hrest)
    refine ⟨_, .share (k := m.kernel.withSched (m.kernel.sched.withTask t)) ?_, known, t, rfl,
      hagrees⟩
    change (((m.kernel.withSched (m.kernel.sched.withTask t)).sched.getTaskByPid
      (toU64 targetPid)).bind _) = _
    rw [hsearch', Option.bind_some, if_pos hzero]
    rfl
  · -- both ranges are reserved in structs that agree
    obtain ⟨hmine, hagrees₁⟩ := hagrees.reserve hagrees.currentTask_mem havoids.1
      (alignUp size pageSize)
    obtain ⟨htheirs, hagrees₂⟩ := hagrees₁.reserve (hmem target htarget hzero)
      (havoids.2 target htarget) (alignUp size pageSize)
    obtain ⟨⟨mine, s₁⟩, hs₁⟩ : ∃ x, x =
      m.kernel.sched.reserve m.kernel.sched.currentTask (alignUp size pageSize) := ⟨_, rfl⟩
    obtain ⟨⟨theirs, s₂⟩, hs₂⟩ : ∃ x, x = s₁.reserve target (alignUp size pageSize) := ⟨_, rfl⟩
    rw [← hs₁] at hmine hagrees₁ htheirs hagrees₂
    rw [← hs₂] at htheirs hagrees₂
    obtain ⟨t₁, ht₁⟩ : ∃ t₁, t₁ = ((m.kernel.sched.withTask t).reserve m.kernel.sched.currentTask
      (alignUp size pageSize)).2.task := ⟨_, rfl⟩
    rw [← ht₁] at hmine htheirs hagrees₂
    obtain ⟨t₂, ht₂⟩ : ∃ t₂, t₂ = ((s₁.withTask t₁).reserve target
      (alignUp size pageSize)).2.task := ⟨_, rfl⟩
    rw [← ht₂] at htheirs hagrees₂
    have hcurrent : s₂.currentTask = m.kernel.sched.currentTask := by
      have h₁ : s₁.currentTask = m.kernel.sched.currentTask :=
        congrArg (fun x => x.2.currentTask) hs₁
      have h₂ : s₂.currentTask = s₁.currentTask := congrArg (fun x => x.2.currentTask) hs₂
      exact h₂.trans h₁
    have hmy : t₂ s₂.currentTask = s₂.task s₂.currentTask :=
      hagrees₂.task_eq _ hagrees₂.currentTask_mem (hcurrent ▸ havoids.1)
    have htheir : t₂ target = s₂.task target :=
      hagrees₂.task_eq _ (hmem target htarget hzero) (havoids.2 target htarget)
    rw [Kernel.sysShareMem_eq htarget hzero hs₁.symm hs₂.symm] at hrun
    obtain ⟨v, hpages, hrun⟩ := Option.bind_eq_some_iff.mp hrun
    obtain ⟨v₁, hstore, hrun⟩ := Option.map_eq_some_iff.mp hrun
    obtain ⟨rfl, rfl⟩ := Prod.mk.inj hrun
    have hrun' : (m.kernel.withSched (m.kernel.sched.withTask t)).sysShareMem targetPid size out =
        some (mine, { m.kernel with vm := v₁, sched := s₂.withTask t₂ }) := by
      rw [Kernel.sysShareMem_eq hsearch' hzero hmine htheirs]
      change (sharePages (t₂ s₂.currentTask).cr3 mine (t₂ target).cr3 theirs
        (alignUp size pageSize / pageSize) 0 m.kernel.vm).bind _ = _
      rw [hmy, htheir, hpages]
      change (Vm.storeBytes m.kernel.sched.cr3 out (wordBytes theirs) v).map _ = _
      rw [hstore]
      rfl
    exact ⟨_, .share hrun', known, t₂, rfl, hagrees₂⟩

/-- Every step that reads no partly written struct is matched, with the same answer. -/
theorem Machine.Alike.step (h : m.Alike m') (hstep : ServesCleanly p m c n) :
    ∃ n', ServesCleanly p m' c n' ∧ n.Alike n' := by
  obtain ⟨havoids, hserves⟩ := hstep
  have havoids' : m'.Avoids c := by
    obtain ⟨known, t, rfl, hagrees⟩ := h
    exact Machine.avoids_withTask hagrees havoids
  suffices hfollow : ∃ n', Serves p m' c n' ∧ n.Alike n' by
    obtain ⟨n', hserves', halike⟩ := hfollow
    exact ⟨n', ⟨havoids', hserves'⟩, halike⟩
  cases hserves with
  | create hpml4 hrun => exact h.create hpml4 hrun
  | createKernelTask hrun => exact h.createKernelTask hrun
  | tick hrun => exact h.tick havoids hrun
  | exit hrun => exact h.exit havoids hrun
  | send hrun => exact h.send havoids hrun
  | share hrun => exact h.share havoids hrun

/-- What a tick or an exit resumes is not a partly written struct, so that its page tables are
assigned ones. -/
theorem Machine.Alike.chosen (h : m.Alike m') (hstep : ServesCleanly p m c n) : m.Chosen c n := by
  obtain ⟨known, t, rfl, hagrees⟩ := h
  obtain ⟨havoids, hserves⟩ := hstep
  have hsearch := fun pid => (hagrees.getTaskByPid pid).2
  cases hserves with
  | create => trivial
  | createKernelTask => trivial
  | @tick k rsp sp hrun =>
    intro hcurrent
    obtain ⟨⟨sp', sched, released⟩, hsched⟩ : ∃ x, x =
      m.kernel.sched.schedulerSchedule m.kernel.vm.pmm.hhdm rsp := ⟨_, rfl⟩
    rw [Kernel.schedulerSchedule, ← hsched] at hrun
    obtain ⟨k₁, -, hrun⟩ := Option.bind_eq_some_iff.mp hrun
    obtain ⟨-, rfl⟩ := Prod.mk.inj (Option.some_inj.mp hrun)
    obtain ⟨t', -, hagrees'⟩ := hagrees.schedulerSchedule m.kernel.vm.pmm.hhdm havoids.1
      havoids.2 rsp hsched.symm
    obtain ⟨-, -, hnext, -⟩ := Sched.schedulerSchedule_fields hcurrent hsched.symm
    exact (hagrees'.ready _ hagrees'.currentTask_mem (hnext ▸ havoids.2)).cr3_mem
  | @exit k sp hrun =>
    obtain ⟨⟨sp', sched⟩, hexit, hrun⟩ := Option.bind_eq_some_iff.mp hrun
    obtain ⟨-, rfl⟩ := Prod.mk.inj (Option.some_inj.mp hrun)
    obtain ⟨⟨t', -, hagrees'⟩, hnext⟩ := hagrees.taskExit havoids hexit
    exact (hagrees'.ready _ hagrees'.currentTask_mem (hnext ▸ havoids)).cr3_mem
  | send hrun =>
    intro target htarget hne
    have hready := hagrees.ready _ (hsearch _ target htarget hne) (havoids target htarget)
    exact ⟨hready.msgTail_nonneg, hready.msgTail_lt⟩
  | share hrun =>
    refine ⟨(hagrees.ready _ hagrees.currentTask_mem havoids.1).cr3_mem,
      fun target htarget hne => ?_⟩
    exact (hagrees.ready _ (hsearch _ target htarget hne) (havoids.2 target htarget)).cr3_mem

theorem Machine.start_assigned {k : Kernel} (h : Machine.start p k = some m) : m.assigned = ∅ := by
  obtain ⟨⟨rootTask, k₁⟩, -, hm⟩ := Option.bind_eq_some_iff.mp h
  exact (congrArg Machine.assigned (Option.some_inj.mp hm)).symm

/-- After `scheduler_init` memory differs only in the fields of the root task it does not write. -/
theorem Machine.start_alike {vm : Vm} {heap : KHeap} {reads tssRsp0 : ℕ} {task : ℕ → Task}
    (task' : ℕ → Task) (h : Machine.start p (bootKernel p vm heap reads tssRsp0 task) = some m) :
    ∃ m', Machine.start p (bootKernel p vm heap reads tssRsp0 task') = some m' ∧ m.Alike m' := by
  obtain ⟨⟨rootTask, k⟩, hinit, h⟩ := Option.bind_eq_some_iff.mp h
  obtain ⟨⟨rootTask', k₁⟩, halloc, hinit⟩ := Option.bind_eq_some_iff.mp hinit
  obtain ⟨rfl, rfl⟩ := Prod.mk.inj (Option.some_inj.mp hinit)
  obtain rfl := Option.some_inj.mp h
  have hsched := (Kernel.kmalloc_taskFree taskSize).sched_eq halloc
  have halloc' : (bootKernel p vm heap reads tssRsp0 task').kmalloc p taskSize =
      some (rootTask', k₁.withSched (bootKernel p vm heap reads tssRsp0 task').sched) := by
    have hsame := Kernel.kmalloc_taskFree (k := bootKernel p vm heap reads tssRsp0 task) (p := p)
      taskSize (bootKernel p vm heap reads tssRsp0 task').sched rfl
    rw [halloc] at hsame
    exact hsame
  obtain ⟨s', hs'⟩ : ∃ s', s' =
    (bootKernel p vm heap reads tssRsp0 task').sched.schedulerInit rootTask' := ⟨_, rfl⟩
  refine ⟨⟨k₁.withSched s', {rootTask'}, ∅⟩, ?_, {rootTask'}, s'.task, ?_, ?_⟩
  · rw [Machine.start, Kernel.schedulerInit, halloc', hs']
    rfl
  · rw [hs']
    change (⟨k₁.withSched _, _, _⟩ : Machine) =
      ⟨k₁.withSched ((k₁.sched.schedulerInit _).withTask _), _, _⟩
    rw [hsched]
    rfl
  · rw [hs']
    change (k₁.sched.schedulerInit rootTask').Agrees _ _ _ _
    rw [hsched]
    have hself : ∀ u : ℕ → Task, ((bootKernel p vm heap reads tssRsp0 u).sched.schedulerInit
        rootTask').task rootTask' = { u rootTask' with pid := 0, next := rootTask', rsp := 0 } :=
      fun u => Function.update_self _ _ _
    refine ⟨?_, Set.mem_singleton _, Set.mem_singleton _, Or.inl rfl, ?_, ?_, ?_⟩
    · rintro a rfl
      rw [Sched.next, hself]
      exact Set.mem_singleton _
    · rintro a rfl
      rw [hself, hself]
      exact ⟨rfl, rfl, rfl⟩
    · exact fun a ha hnot => absurd ha hnot
    · exact fun a ha hnot => absurd ha hnot

/-- Two boots that differ in what memory held in place of task structs serve the same calls with
the same answers and keep the same memory and list of tasks, as long as no step reads a struct
that was written in part. Then messages are stored within the array, and page tables in use are
assigned ones. -/
theorem stale_heap_unread {vm : Vm} {heap : KHeap} {reads tssRsp0 : ℕ} {task : ℕ → Task}
    {m₀ : Machine} (hstart : Machine.start p (bootKernel p vm heap reads tssRsp0 task) = some m₀)
    (task' : ℕ → Task) :
    ∃ m₀', Machine.start p (bootKernel p vm heap reads tssRsp0 task') = some m₀' ∧
      (∀ history m, Reaches (ServesCleanly p) m₀ history m →
        ∃ m', Reaches (ServesCleanly p) m₀' history m' ∧ m.Alike m') ∧
      (∀ history m', Reaches (ServesCleanly p) m₀' history m' →
        ∃ m, Reaches (ServesCleanly p) m₀ history m ∧ m'.Alike m) ∧
      ∀ history m c n, Reaches (ServesCleanly p) m₀ history m → ServesCleanly p m c n →
        m.Chosen c n := by
  have hlockstep : ∀ {u u' : Machine}, u.Alike u' → ∀ history v,
      Reaches (ServesCleanly p) u history v →
        ∃ v', Reaches (ServesCleanly p) u' history v' ∧ v.Alike v' :=
    fun halike history v hrun => hrun.lockstep halike fun _ _ _ _ h hstep => h.step hstep
  obtain ⟨m₀', hstart', halike⟩ := Machine.start_alike task' hstart
  obtain ⟨m₀'', hstart'', halike'⟩ := Machine.start_alike task hstart'
  obtain rfl : m₀ = m₀'' := Option.some_inj.mp (hstart.symm.trans hstart'')
  refine ⟨m₀', hstart', hlockstep halike, hlockstep halike', fun history m c n hrun hstep => ?_⟩
  obtain ⟨m', -, halike⟩ := hlockstep halike history m hrun
  exact halike.chosen hstep

/-- What memory may have held: page tables that the kernel never assigned. -/
def staleTask (cr3 : ℕ) : Task := { Task.zero with cr3 := cr3 }

/-- The kernel before `scheduler_init`, with an empty heap. -/
def sampleBoot (cr3 : ℕ) : Kernel :=
  bootKernel samplePlatform sampleVm
    { hdr := fun _ => ⟨0, 0, false, 0, 0⟩, head := 0, heapEnd := kheapStart } 0 0
    fun _ => staleTask cr3

theorem stale_heap_unread_sampleBoot : ∃ m₀ m₀',
    Machine.start samplePlatform (sampleBoot 0) = some m₀ ∧
      Machine.start samplePlatform (sampleBoot 0xBAD000) = some m₀' ∧
      ∀ history m, Reaches (ServesCleanly samplePlatform) m₀ history m →
        ∃ m', Reaches (ServesCleanly samplePlatform) m₀' history m' ∧ m.Alike m' := by
  have hsome : (Machine.start samplePlatform (sampleBoot 0)).isSome = true := by decide +kernel
  obtain ⟨m₀, hstart⟩ := Option.isSome_iff_exists.mp hsome
  obtain ⟨m₀', hstart', hruns, -, -⟩ := stale_heap_unread hstart fun _ => staleTask 0xBAD000
  exact ⟨m₀, m₀', hstart, hstart', hruns⟩

/-- A timer interrupt before the first process is created resumes the root task, and loads page
tables that only the heap's former contents decide. -/
theorem stale_cr3_loaded : ∃ m m' n n',
    Machine.start samplePlatform (sampleBoot 0) = some m ∧
      Machine.start samplePlatform (sampleBoot 0xBAD000) = some m' ∧
      Serves samplePlatform m (.tick 0 0) n ∧ Serves samplePlatform m' (.tick 0 0) n' ∧
      n.kernel.sched.cr3 = samplePlatform.kernelPml4 ∧ n'.kernel.sched.cr3 = 0xBAD000 ∧
      n'.kernel.sched.cr3 ∉ n'.assigned ∧ n'.kernel.sched.cr3 ≠ samplePlatform.kernelPml4 := by
  have hserves : ∀ {cr3 loaded : ℕ}, ((Machine.start samplePlatform (sampleBoot cr3)).bind
      fun m => (m.kernel.schedulerSchedule 0).map fun x => (x.1, x.2.sched.cr3)) =
        some (0, loaded) → ∃ m n, Machine.start samplePlatform (sampleBoot cr3) = some m ∧
          Serves samplePlatform m (.tick 0 0) n ∧ n.assigned = ∅ ∧ n.kernel.sched.cr3 = loaded := by
    intro cr3 loaded hrun
    obtain ⟨m, hstart, htick⟩ := Option.bind_eq_some_iff.mp hrun
    obtain ⟨⟨sp, k⟩, htick, heq⟩ := Option.map_eq_some_iff.mp htick
    obtain ⟨rfl, hloaded⟩ := Prod.mk.inj heq
    have hassigned : m.assigned = ∅ := Machine.start_assigned hstart
    exact ⟨m, _, hstart, .tick htick, hassigned, hloaded⟩
  obtain ⟨m, n, hstart, htick, -, hcr3⟩ := @hserves 0 0x2000 (by decide +kernel)
  obtain ⟨m', n', hstart', htick', hassigned, hcr3'⟩ :=
    @hserves 0xBAD000 0xBAD000 (by decide +kernel)
  refine ⟨m, m', n, n', hstart, hstart', htick, htick', hcr3, hcr3', ?_, ?_⟩
  · rw [hassigned]
    exact Set.notMem_empty _
  · rw [hcr3']
    decide

end Runs

end OpenIDP.Exec
