import OpenIDP.Process.SchedRuns

/-!
# The ring of tasks over whole runs

What the scheduler promises about the list of tasks and the saved stack pointers, in every
state of a run with fewer than `2 ^ 64` process creations. The bound is the width of the
pid counter: with one more creation a task shares its pid with the root task.

## Main definitions

* `SchedEvent.Resumes` — a task is resumed where it stopped
* `RingIntact` — the promise

## Main results

* `sched_runs_intact` — it holds in every state of a run
* `sched_pids_collide` — a run long enough to break it
-/

namespace OpenIDP.Process

open OpenIDP.Math

variable {b : Boot} {s s' : SchedState} {history : List SchedEvent} {event : SchedEvent}
variable {rest : List ℕ} {newTask stack pml4Phys : ℕ}

/-- The task resumed in a step continues at the stack pointer of its last preemption, or at
its initial frame. -/
def SchedEvent.Resumes (history : List SchedEvent) : SchedEvent → Prop
  | .create .. => True
  | .schedule preempted rsp resumed sp released =>
    savedRsp (.schedule preempted rsp resumed sp released :: history) resumed = some sp
  | .exit _ resumed sp => savedRsp history resumed = some sp

/-- The tasks that were created and have not exited form a ring with the root task, with
everything that relies on it. -/
structure RingIntact (b : Boot) (history : List SchedEvent) (s : SchedState)
    (rest : List ℕ) : Prop where
  taskHead_eq : s.sched.taskHead = b.rootTask
  ring : Ring s.sched.next (b.rootTask :: rest)
  alive_perm : (b.rootTask :: rest).Perm (alive b.rootTask history)
  current_mem : s.sched.currentTask ∈ b.rootTask :: rest
  zombie_notMem : s.sched.zombieTask ∉ b.rootTask :: rest
  pids_nodup : ((b.rootTask :: rest).map fun a => (s.sched.task a).pid).Nodup
  found : ∀ a ∈ b.rootTask :: rest,
    s.sched.getTaskByPid (s.sched.task a).pid = some a
  not_found : ∀ pid, (∀ a ∈ b.rootTask :: rest, (s.sched.task a).pid ≠ pid) →
    s.sched.getTaskByPid pid = some 0
  visits : ∀ rsps : ℕ → ℕ, ((List.range (b.rootTask :: rest).length).map fun k =>
    (Sched.ticks b.hhdm s.sched rsps (k + 1)).currentTask).Perm (b.rootTask :: rest)
  exits : s.sched.currentTask ≠ b.rootTask → s.sched.taskExit.isSome
  resumes : ∀ event s', SchedStep b s event s' → event.Resumes history

/-- A step resumes the task that is current afterwards, where it stopped. -/
theorem SchedInv.resumes (h : SchedInv b history s rest) (hstep : SchedStep b s event s') :
    event.Resumes history := by
  cases hstep with
  | create programBreak isWm hfresh => trivial
  | schedule hrun =>
    rename_i rsp sp sched' released
    obtain ⟨-, hsame, hcurrent, -, -, -, -, hsp, -⟩ :=
      Sched.schedulerSchedule_fields h.onRing.current_ne_zero hrun
    have hnext := h.onRing.ring.next_mem h.onRing.current_mem
    change (if sched'.currentTask = s.sched.currentTask then some rsp else _) = _
    rw [hsp, (hsame _).2]
    -- the root task may be alone in the ring, and then it follows itself
    by_cases halone : sched'.currentTask = s.sched.currentTask
    · rw [if_pos halone, if_pos halone]
    · rw [if_neg halone, if_neg halone]
      exact h.saved _ (hcurrent ▸ hnext) halone
  | exit hroot hrun =>
    rename_i sp sched'
    obtain ⟨sp', t, xs, ys, hrun', hrest, hring, hsame, hzombie, hcurrent, -, -, hsp⟩ :=
      h.onRing.taskExit hroot
    obtain ⟨rfl, rfl⟩ := Prod.mk.inj (Option.some_inj.mp (hrun.symm.trans hrun'))
    have hmem := h.onRing.ring.next_mem h.onRing.current_mem
    change savedRsp history sched'.currentTask = some sp
    rw [hsp, (hsame _).2]
    refine h.saved _ (hcurrent ▸ hmem) fun heq => ?_
    -- the victim has left the ring, so it is not the task resumed
    exact hring.zombie_notMem (hzombie.trans heq.symm ▸ hring.current_mem)

/-- In every run with fewer than `2 ^ 64` creations the ring of tasks is intact. -/
theorem sched_runs_intact (run : Reaches (SchedStep b) b.start history s)
    (hcreated : created history < 2 ^ 64) : ∃ rest, RingIntact b history s rest := by
  obtain ⟨rest, h⟩ := SchedInv.run run
  obtain ⟨hpids, -⟩ := h.pids hcreated
  have hfind := fun pid => h.onRing.getTaskByPid_iff hpids pid
  refine ⟨rest, h.onRing.taskHead_eq, h.onRing.ring, h.alive_perm, h.onRing.current_mem,
    h.onRing.zombie_notMem, hpids, ?_, ?_, ?_, ?_, ?_⟩
  · exact fun a ha => (hfind _).1 a ha rfl
  · exact fun pid hnone => (hfind pid).2 hnone
  · exact fun rsps => h.onRing.visits b.hhdm rsps
  · intro hroot
    obtain ⟨sp, t, -, -, hrun, -⟩ := h.onRing.taskExit hroot
    rw [hrun]
    rfl
  · exact fun event s' hstep => h.resumes hstep

/-- A boot with nothing else in memory. -/
def sampleBoot : Boot where
  task _ := Task.zero
  rootTask := 0x1000
  kernelPml4 := 0x2000
  tssRsp0 := 0
  hhdm := 0
  blocks := ∅
  frames := ∅
  rootTask_pos := by decide
  rootTask_lt := by decide
  kernelPml4_pos := by decide
  kernelPml4_lt := by decide
  hhdm_lt := by decide

/-- The memory a first task of this boot is given. -/
theorem sampleBoot_fresh : sampleBoot.start.Fresh 0x10000 0x20000 0x3000 := by
  constructor
  all_goals first | decide | (simp [Boot.start, sampleBoot])

/-- The first task has been created. -/
def sampleCreated : SchedState where
  sched := sampleBoot.start.sched.addTask 0x10000 0x20000 0x3000 0 false
  blocks := insert 0x10000 (insert 0x20000 sampleBoot.start.blocks)
  frames := insert 0x3000 sampleBoot.start.frames

theorem sampleCreated_step :
    SchedStep sampleBoot sampleBoot.start (.create 0x10000 0x20f60) sampleCreated := by
  have hframe : sub64 (wrap (0x20000 + 4096)) (8 * initialFrameWords) = 0x20f60 := by decide
  rw [← hframe]
  exact .create 0 false sampleBoot_fresh

/-- And the root task has been preempted at `0x9000`. -/
def sampleTicked : SchedState where
  sched := (sampleCreated.sched.schedulerSchedule 0 0x9000).2.1
  blocks := sampleCreated.blocks \ freedBlocks []
  frames := sampleCreated.frames \ freedFrames 0 []

theorem sampleTicked_step : SchedStep sampleBoot sampleCreated
    (.schedule 0x1000 0x9000 0x10000 0x20f60 []) sampleTicked := by
  have hrun : sampleCreated.sched.schedulerSchedule sampleBoot.hhdm 0x9000 =
      (0x20f60, sampleTicked.sched, []) := by
    refine Prod.ext ?_ (Prod.ext rfl rfl)
    decide +kernel
  exact .schedule hrun

/-- The state after an exit that does not panic. -/
def SchedState.afterExit (s : SchedState) : SchedState :=
  { s with sched := (s.sched.taskExit.getD (0, s.sched)).2 }

/-- A second task, created before the first one has run. -/
def sampleTwo : SchedState where
  sched := sampleCreated.sched.addTask 0x30000 0x40000 0x4000 0 false
  blocks := insert 0x30000 (insert 0x40000 sampleCreated.blocks)
  frames := insert 0x4000 sampleCreated.frames

theorem sampleTwo_step :
    SchedStep sampleBoot sampleCreated (.create 0x30000 0x40f60) sampleTwo := by
  have hfresh : sampleCreated.Fresh 0x30000 0x40000 0x4000 := by
    constructor
    all_goals first | decide | (simp [sampleCreated, Boot.start, sampleBoot])
  have hframe : sub64 (wrap (0x40000 + 4096)) (8 * initialFrameWords) = 0x40f60 := by decide
  rw [← hframe]
  exact .create 0 false hfresh

/-- The second task runs. -/
def sampleTwoTicked : SchedState where
  sched := (sampleTwo.sched.schedulerSchedule 0 0x9000).2.1
  blocks := sampleTwo.blocks \ freedBlocks []
  frames := sampleTwo.frames \ freedFrames 0 []

theorem sampleTwoTicked_step : SchedStep sampleBoot sampleTwo
    (.schedule 0x1000 0x9000 0x30000 0x40f60 []) sampleTwoTicked := by
  have hrun : sampleTwo.sched.schedulerSchedule sampleBoot.hhdm 0x9000 =
      (0x40f60, sampleTwoTicked.sched, []) := by
    refine Prod.ext ?_ (Prod.ext rfl rfl)
    decide +kernel
  exact .schedule hrun

/-- It exits to the first one. -/
theorem sampleTwoExited_step : SchedStep sampleBoot sampleTwoTicked
    (.exit ⟨0x30000, 0x41000, 0x4000⟩ 0x10000 0x20f60) sampleTwoTicked.afterExit := by
  have hexit : sampleTwoTicked.sched.taskExit =
      some (0x20f60, sampleTwoTicked.afterExit.sched) := rfl
  exact .exit (by decide +kernel) hexit

/-- The calls that reap the second task. -/
def sampleTwoReleased : List Release :=
  [.kfree 0x40000, .destroyUserMemory 0x4000, .pmmFreePage 0x4000, .kfree 0x30000]

/-- The first task is preempted at `0x20e00`, and the second one is reaped. -/
def sampleTwoReaped : SchedState where
  sched := (sampleTwoTicked.afterExit.sched.schedulerSchedule 0 0x20e00).2.1
  blocks := sampleTwoTicked.afterExit.blocks \ freedBlocks sampleTwoReleased
  frames := sampleTwoTicked.afterExit.frames \ freedFrames 0 sampleTwoReleased

theorem sampleTwoReaped_step : SchedStep sampleBoot sampleTwoTicked.afterExit
    (.schedule 0x10000 0x20e00 0x1000 0x9000 sampleTwoReleased) sampleTwoReaped := by
  have hrun : sampleTwoTicked.afterExit.sched.schedulerSchedule sampleBoot.hhdm 0x20e00 =
      (0x9000, sampleTwoReaped.sched, sampleTwoReleased) := by
    refine Prod.ext ?_ (Prod.ext rfl ?_)
    · decide +kernel
    · decide +kernel
  exact .schedule hrun

/-- Two tasks are created, and the second one runs, exits and is reaped. -/
def sampleReap : List (Transition SchedState SchedEvent) :=
  [⟨sampleTwoTicked.afterExit, .schedule 0x10000 0x20e00 0x1000 0x9000 sampleTwoReleased,
      sampleTwoReaped⟩,
    ⟨sampleTwoTicked, .exit ⟨0x30000, 0x41000, 0x4000⟩ 0x10000 0x20f60,
      sampleTwoTicked.afterExit⟩,
    ⟨sampleTwo, .schedule 0x1000 0x9000 0x30000 0x40f60 [], sampleTwoTicked⟩,
    ⟨sampleCreated, .create 0x30000 0x40f60, sampleTwo⟩,
    ⟨sampleBoot.start, .create 0x10000 0x20f60, sampleCreated⟩]

theorem sampleReap_run :
    Reaches (Traced (SchedStep sampleBoot)) sampleBoot.start sampleReap sampleTwoReaped :=
  ((((Reaches.start.next sampleCreated_step).next sampleTwo_step).next
    sampleTwoTicked_step).next sampleTwoExited_step).next sampleTwoReaped_step

/-- The first task is left in the ring. -/
theorem sched_runs_intact_sampleReap :
    ∃ rest, RingIntact sampleBoot (sampleReap.map Transition.label) sampleTwoReaped rest :=
  sched_runs_intact sampleReap_run.labels (by decide)

/-! ## The pid counter wraps -/

/-- The root task is alone, and the memory at fixed places is free. -/
structure Idle (history : List SchedEvent) (s : SchedState) (n : ℕ) : Prop where
  run : Reaches (SchedStep sampleBoot) sampleBoot.start history s
  inv : SchedInv sampleBoot history s []
  zombie : s.sched.zombieTask = 0
  fresh : s.Fresh 0x10000 0x20000 0x3000
  created_eq : created history = n

theorem Idle.start : Idle [] sampleBoot.start 0 :=
  ⟨.start, SchedInv.start sampleBoot, rfl, sampleBoot_fresh, rfl⟩

/-- A creation, a timer interrupt, an exit and another timer interrupt, and the root task
is alone again. -/
theorem Idle.round {n : ℕ} (h : Idle history s n) :
    ∃ history' s', Idle history' s' (n + 1) := by
  -- the creation
  have hinv₁ : SchedInv sampleBoot _ ⟨s.sched.addTask 0x10000 0x20000 0x3000 0 false, _, _⟩ _ :=
    h.inv.create h.fresh
  have hrun₁ := h.run.snoc (.create 0 false h.fresh)
  have hhead : 0x10000 ≠ s.sched.taskHead := by
    rw [h.inv.onRing.taskHead_eq]
    decide
  obtain ⟨-, hcr3₁, hkernelStack₁, -⟩ := Sched.addTask_task 0x20000 0x3000 0 false hhead
  have hcurrent₁ : (s.sched.addTask 0x10000 0x20000 0x3000 0 false).currentTask = 0x1000 :=
    List.mem_singleton.mp h.inv.onRing.current_mem
  -- the new task is preempted for
  rcases hrun₂ : (s.sched.addTask 0x10000 0x20000 0x3000 0 false).schedulerSchedule
    sampleBoot.hhdm 0 with ⟨sp₂, sched₂, released₂⟩
  obtain ⟨-, hsame₂, hcurrent₂, -, -, -, -, -, hreleased₂⟩ :=
    Sched.schedulerSchedule_fields hinv₁.onRing.current_ne_zero hrun₂
  have hnext₁ : (s.sched.addTask 0x10000 0x20000 0x3000 0 false).next 0x1000 = 0x10000 :=
    hinv₁.onRing.ring.follows.1
  rw [hcurrent₁, hnext₁] at hcurrent₂
  have hinv₂ := hinv₁.schedule hrun₂
  -- it exits
  have hroot₂ : sched₂.currentTask ≠ sampleBoot.rootTask := by
    rw [hcurrent₂]
    decide
  obtain ⟨sp₃, sched₃, -, -, hrun₃, -, -, hsame₃, hzombie₃, -⟩ := hinv₂.onRing.taskExit hroot₂
  obtain ⟨xs, ys, hrest, hinv₃⟩ := hinv₂.exit hroot₂ hrun₃
  obtain ⟨rfl, -, rfl⟩ : xs = [] ∧ sched₂.currentTask = 0x10000 ∧ ys = [] := by
    cases xs with
    | nil => exact ⟨rfl, List.cons.inj hrest.symm⟩
    | cons x xs => simp at hrest
  -- and is reaped
  rcases hrun₄ : sched₃.schedulerSchedule sampleBoot.hhdm 0 with ⟨sp₄, sched₄, released₄⟩
  obtain ⟨-, -, -, -, hzombie₄, -, -, -, hreleased₄⟩ :=
    Sched.schedulerSchedule_fields hinv₃.onRing.current_ne_zero hrun₄
  have hinv₄ := hinv₃.schedule hrun₄
  have hreaped : sched₃.zombieTask = 0x10000 := hzombie₃.trans hcurrent₂
  have hstack₃ : sched₃.stackOf 0x10000 = 0x20000 := by
    rw [Sched.stackOf, (hsame₃ _).1.kernelStack_eq, (hsame₂ _).1.kernelStack_eq,
      hkernelStack₁]
    decide
  have hcr3₃ : (sched₃.task 0x10000).cr3 = 0x3000 :=
    ((hsame₃ _).1.cr3_eq.trans (hsame₂ _).1.cr3_eq).trans hcr3₁
  rw [hreaped, if_neg (by decide)] at hreleased₄
  refine ⟨_, _, ((hrun₁.snoc (.schedule hrun₂)).snoc (.exit hroot₂ hrun₃)).snoc
    (.schedule hrun₄), hinv₄, hzombie₄, ?_, ?_⟩
  · constructor
    · simp [hreleased₄, mem_freedBlocks]
    · simp [hreleased₄, mem_freedBlocks, hstack₃]
    · decide
    · refine fun hmem => hmem.2 ?_
      rw [hreleased₄, mem_freedFrames sampleBoot.hhdm_lt]
      · exact hcr3₃.symm
      · rw [hcr3₃]
        decide
    all_goals decide
  · exact congrArg (· + 1) h.created_eq

/-- As many rounds as one likes. -/
theorem Idle.rounds (n : ℕ) : ∃ history s, Idle history s n := by
  induction n with
  | zero => exact ⟨_, _, .start⟩
  | succ n ih =>
    obtain ⟨history, s, h⟩ := ih
    exact h.round

/-- After `2 ^ 64` creations the counter has wrapped, and a task has the pid of the root
task. -/
theorem sched_pids_collide : ∃ history s,
    Reaches (SchedStep sampleBoot) sampleBoot.start history s ∧ created history = 2 ^ 64 ∧
      ∀ rest, ¬ RingIntact sampleBoot history s rest := by
  obtain ⟨history, s, h⟩ := Idle.rounds (2 ^ 64 - 1)
  have hhead : 0x10000 ≠ s.sched.taskHead := by
    rw [h.inv.onRing.taskHead_eq]
    decide
  obtain ⟨hpid, -⟩ := Sched.addTask_task 0x20000 0x3000 0 false hhead
  obtain ⟨-, hsame⟩ := Sched.addTask_fields 0x20000 0x3000 0 false hhead
  have hinv : SchedInv sampleBoot _ ⟨s.sched.addTask 0x10000 0x20000 0x3000 0 false, _, _⟩ _ :=
    h.inv.create h.fresh
  refine ⟨_, _, h.run.snoc (.create 0 false h.fresh), congrArg (· + 1) h.created_eq, ?_⟩
  intro rest hintact
  -- the ring holds both tasks, and both have pid 0
  have hmem : ∀ a ∈ [sampleBoot.rootTask, 0x10000], a ∈ sampleBoot.rootTask :: rest := fun a ha =>
    hintact.alive_perm.symm.subset (hinv.alive_perm.subset ha)
  have hroot :
      ((s.sched.addTask 0x10000 0x20000 0x3000 0 false).task sampleBoot.rootTask).pid = 0 :=
    ((hsame _ (by decide)).1.pid_eq).trans h.inv.rootPid_eq
  have hnew : ((s.sched.addTask 0x10000 0x20000 0x3000 0 false).task 0x10000).pid = 0 := by
    rw [hpid, h.inv.nextPid_eq, h.created_eq]
    decide
  have heq : sampleBoot.rootTask = 0x10000 :=
    List.inj_on_of_nodup_map hintact.pids_nodup (hmem _ (by simp)) (hmem _ (by simp))
      (hroot.trans hnew.symm)
  exact absurd heq (by decide)

end OpenIDP.Process
