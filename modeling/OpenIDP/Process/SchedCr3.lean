import OpenIDP.Process.SchedIntegrity

/-!
# The page tables in `CR3`

Page tables are loaded when the scheduler enters a task, unless the task's `cr3` is zero.
The root task's `cr3` is whatever `kmalloc`'s block held before: `scheduler_init` does not
set it. All other tasks are entered with their own page tables, so everything depends on
the steps that enter the root task.

## Main definitions

* `Cr3Sound` — the loaded page tables are not given back, and belong to the kernel or to a
  task in the ring
* `Cr3Careful` — what a step that enters the root task needs

## Main results

* `cr3_sound_iff_careful` — the two hold of the same runs
* `sampleDangling_not_sound` — a root task with `cr3 = 0` after the only task has exited
-/

namespace OpenIDP.Process

open OpenIDP.Math

variable {b : Boot} {s s' : SchedState} {history : List SchedEvent} {event : SchedEvent}
variable {rest : List ℕ} {trace : List (Transition SchedState SchedEvent)} {a value : ℕ}

/-- The task can be reached from `task_head`. -/
def Sched.InRing (s : Sched) (addr : ℕ) : Prop := ∃ k, s.next^[k] s.taskHead = addr

/-- The kernel's own PML4, or that of a task in the ring. The root task has none. -/
def SchedState.LivePml4 (b : Boot) (s : SchedState) (value : ℕ) : Prop :=
  value = b.kernelPml4 ∨
    ∃ a, s.sched.InRing a ∧ a ≠ b.rootTask ∧ value = (s.sched.task a).cr3

/-- What a step must not do to the page tables in `CR3`, and what `CR3` holds after it. -/
def Cr3Sound (b : Boot) (t : Transition SchedState SchedEvent) : Prop :=
  match t.label with
  | .create .. => True
  | .schedule _ _ _ _ released =>
    .destroyUserMemory t.before.sched.cr3 ∉ released ∧
      .pmmFreePage (wrap (t.before.sched.cr3 + b.hhdm)) ∉ released ∧
      t.after.LivePml4 b t.after.sched.cr3
  | .exit .. => t.after.LivePml4 b t.after.sched.cr3

/-- The stale `cr3` of the root task, where a step enters that task: nothing is loaded for
zero, which is harmless as long as the page tables left in `CR3` stay in use. -/
def Cr3Careful (b : Boot) (t : Transition SchedState SchedEvent) : Prop :=
  match t.label with
  | .create .. => True
  | .schedule .. =>
    t.before.sched.next t.before.sched.currentTask = b.rootTask →
      (b.task b.rootTask).cr3 = 0 ∨ t.before.LivePml4 b (b.task b.rootTask).cr3
  | .exit .. =>
    t.before.sched.next t.before.sched.currentTask = b.rootTask →
      (b.task b.rootTask).cr3 = b.kernelPml4 ∨
        ∃ a, t.before.sched.InRing a ∧ a ≠ b.rootTask ∧ a ≠ t.before.sched.currentTask ∧
          (b.task b.rootTask).cr3 = (t.before.sched.task a).cr3

theorem SchedInv.inRing_iff (h : SchedInv b history s rest) :
    s.sched.InRing a ↔ a ∈ b.rootTask :: rest := by
  rw [Sched.InRing, h.onRing.taskHead_eq]
  exact (h.onRing.ring.mem_iff List.mem_cons_self).symm

theorem SchedInv.ne_root (h : SchedInv b history s rest) (ha : a ∈ rest) : a ≠ b.rootTask :=
  fun heq => (List.nodup_cons.mp h.onRing.ring.nodup).1 (heq ▸ ha)

theorem SchedInv.livePml4_iff (h : SchedInv b history s rest) :
    s.LivePml4 b value ↔
      value = b.kernelPml4 ∨ ∃ a ∈ rest, value = (s.sched.task a).cr3 := by
  refine or_congr Iff.rfl ⟨?_, ?_⟩
  · rintro ⟨a, hring, hne, heq⟩
    exact ⟨a, (List.mem_cons.mp (h.inRing_iff.mp hring)).resolve_left hne, heq⟩
  · rintro ⟨a, ha, heq⟩
    exact ⟨a, h.inRing_iff.mpr (List.mem_cons_of_mem _ ha), h.ne_root ha, heq⟩

theorem SchedInv.livePml4_lt (h : SchedInv b history s rest) (hlive : s.LivePml4 b value) :
    value < 2 ^ 64 := by
  rcases h.livePml4_iff.mp hlive with rfl | ⟨a, ha, rfl⟩
  · exact b.kernelPml4_lt
  · exact h.owned.cr3_lt a (Sched.mem_tracked.mpr (Or.inl ha))

/-- The zombie's page tables are nobody else's. -/
theorem SchedInv.zombie_not_live (h : SchedInv b history s rest)
    (hzombie : s.sched.zombieTask ≠ 0) :
    ¬ s.LivePml4 b (s.sched.task s.sched.zombieTask).cr3 := by
  have htracked := Sched.mem_tracked.mpr (Or.inr ⟨hzombie, rfl⟩ : _ ∈ rest ∨ _)
  rw [h.livePml4_iff]
  rintro (hkernel | ⟨a, ha, heq⟩)
  · exact h.owned.cr3_ne_kernel _ htracked hkernel
  · have hsame := h.owned.cr3_inj _ htracked a (Sched.mem_tracked.mpr (Or.inl ha)) heq
    exact h.onRing.zombie_notMem (hsame ▸ List.mem_cons_of_mem _ ha)

/-! ## One step -/

/-- Reaping leaves the page tables in `CR3` alone, if they are in use. -/
theorem SchedInv.releases_spare (h : SchedInv b history s rest)
    (hlive : s.LivePml4 b s.sched.cr3) (hzombie : s.sched.zombieTask ≠ 0) :
    .destroyUserMemory s.sched.cr3 ∉ s.sched.releases b.hhdm s.sched.zombieTask ∧
      .pmmFreePage (wrap (s.sched.cr3 + b.hhdm)) ∉
        s.sched.releases b.hhdm s.sched.zombieTask := by
  have hne : s.sched.cr3 ≠ (s.sched.task s.sched.zombieTask).cr3 := fun heq =>
    h.zombie_not_live hzombie (heq ▸ hlive)
  have hlt := h.owned.cr3_lt _ (Sched.mem_tracked.mpr (Or.inr ⟨hzombie, rfl⟩))
  have hne' : wrap (s.sched.cr3 + b.hhdm) ≠
      wrap ((s.sched.task s.sched.zombieTask).cr3 + b.hhdm) := by
    intro heq
    have hback := congrArg (sub64 · b.hhdm) heq
    simp only [sub64_wrap_add (h.livePml4_lt hlive) b.hhdm_lt,
      sub64_wrap_add hlt b.hhdm_lt] at hback
    exact hne hback
  constructor
  · simp [Sched.releases, hne]
  · simp [Sched.releases, hne']

theorem SchedInv.schedule_sound_iff {rsp sp : ℕ} {sched' : Sched} {released : List Release}
    (h : SchedInv b history s rest) (hlive : s.LivePml4 b s.sched.cr3)
    (hrun : s.sched.schedulerSchedule b.hhdm rsp = (sp, sched', released)) :
    Cr3Sound b ⟨s, .schedule s.sched.currentTask rsp sched'.currentTask sp released,
        ⟨sched', s.blocks \ freedBlocks released, s.frames \ freedFrames b.hhdm released⟩⟩ ↔
      Cr3Careful b ⟨s, .schedule s.sched.currentTask rsp sched'.currentTask sp released,
        ⟨sched', s.blocks \ freedBlocks released, s.frames \ freedFrames b.hhdm released⟩⟩ := by
  obtain ⟨-, hsame, -, -, -, -, hcr3, -, hreleased⟩ :=
    Sched.schedulerSchedule_fields h.onRing.current_ne_zero hrun
  have hafter : ∀ value, SchedState.LivePml4 b ⟨sched', s.blocks \ freedBlocks released,
      s.frames \ freedFrames b.hhdm released⟩ value ↔ s.LivePml4 b value := by
    intro value
    rw [h.livePml4_iff, (h.schedule hrun).livePml4_iff]
    simp only [(hsame _).1.cr3_eq]
  have hspare : .destroyUserMemory s.sched.cr3 ∉ released ∧
      .pmmFreePage (wrap (s.sched.cr3 + b.hhdm)) ∉ released := by
    by_cases hzero : s.sched.zombieTask = 0
    · rw [hreleased, if_pos hzero]
      exact ⟨List.not_mem_nil, List.not_mem_nil⟩
    · rw [hreleased, if_neg hzero]
      exact h.releases_spare hlive hzero
  have hnext := h.onRing.ring.next_mem h.onRing.current_mem
  simp only [Cr3Sound, Cr3Careful, hafter, hspare, not_false_eq_true, true_and, hcr3,
    Sched.cr3After]
  by_cases hroot : s.sched.next s.sched.currentTask = b.rootTask
  · rw [hroot, h.rootCr3_eq]
    by_cases hzero : (b.task b.rootTask).cr3 = 0
    · simp [hzero, hlive]
    · simp [hzero]
  · -- any other task is entered with its own page tables
    have hpos := h.cr3_pos hnext hroot
    have hown : s.LivePml4 b (s.sched.task (s.sched.next s.sched.currentTask)).cr3 :=
      Or.inr ⟨_, h.inRing_iff.mpr hnext, hroot, rfl⟩
    simp [hroot, hown, Nat.pos_iff_ne_zero.mp hpos]

theorem SchedInv.exit_sound_iff {sp : ℕ} {sched' : Sched} (h : SchedInv b history s rest)
    (hcurrent : s.sched.currentTask ≠ b.rootTask) (hrun : s.sched.taskExit = some (sp, sched')) :
    Cr3Sound b ⟨s, .exit (s.sched.exited s.sched.currentTask) sched'.currentTask sp,
        ⟨sched', s.blocks, s.frames⟩⟩ ↔
      Cr3Careful b ⟨s, .exit (s.sched.exited s.sched.currentTask) sched'.currentTask sp,
        ⟨sched', s.blocks, s.frames⟩⟩ := by
  obtain ⟨xs, ys, hrest, h'⟩ := h.exit hcurrent hrun
  obtain ⟨sp', t, -, -, hrun', -, -, hsame, -, hnext', -, hcr3, -⟩ := h.onRing.taskExit hcurrent
  obtain ⟨rfl, rfl⟩ := Prod.mk.inj (Option.some_inj.mp (hrun.symm.trans hrun'))
  have hvictim : s.sched.currentTask ∈ s.sched.tracked rest :=
    Sched.mem_tracked.mpr (Or.inl ((List.mem_cons.mp h.onRing.current_mem).resolve_left hcurrent))
  have htracked : ∀ a, s.sched.InRing a → a ≠ b.rootTask → a ∈ s.sched.tracked rest :=
    fun a ha hne => Sched.mem_tracked.mpr
      (Or.inl ((List.mem_cons.mp (h.inRing_iff.mp ha)).resolve_left hne))
  have hafter : ∀ value, SchedState.LivePml4 b ⟨sched', s.blocks, s.frames⟩ value ↔
      value = b.kernelPml4 ∨ ∃ a, s.sched.InRing a ∧ a ≠ b.rootTask ∧
        a ≠ s.sched.currentTask ∧ value = (s.sched.task a).cr3 := by
    intro value
    have hnodup := (List.nodup_cons.mp h.onRing.ring.nodup).2
    rw [hrest] at hnodup
    have hout := (List.nodup_cons.mp (List.nodup_middle.mp hnodup)).1
    rw [h'.livePml4_iff]
    simp only [(hsame _).1.cr3_eq]
    refine or_congr Iff.rfl (exists_congr fun a => ?_)
    rw [← and_assoc, ← and_assoc]
    refine and_congr_left' ⟨fun ha => ⟨⟨?_, ?_⟩, ?_⟩, ?_⟩
    · rw [h.inRing_iff, hrest]
      exact List.mem_cons_of_mem _ (List.perm_middle.mem_iff.mpr (List.mem_cons_of_mem _ ha))
    · exact h'.ne_root ha
    · exact fun heq => hout (heq ▸ ha)
    · rintro ⟨⟨hring, hne⟩, hother⟩
      have hmem := (List.mem_cons.mp (h.inRing_iff.mp hring)).resolve_left hne
      rw [hrest] at hmem
      exact (List.mem_cons.mp (List.perm_middle.mem_iff.mp hmem)).resolve_left hother
  simp only [Cr3Sound, Cr3Careful, hafter, hcr3, Sched.cr3After]
  by_cases hroot : s.sched.next s.sched.currentTask = b.rootTask
  · rw [hroot, h.rootCr3_eq]
    by_cases hzero : (b.task b.rootTask).cr3 = 0
    · -- nothing is loaded, and the victim's page tables stay in `CR3`
      rw [if_pos hzero, hzero, h.loaded hcurrent]
      refine iff_of_false ?_ fun hcareful => ?_
      · rintro (hkernel | ⟨a, ha, hne, hother, heq⟩)
        · exact h.owned.cr3_ne_kernel _ hvictim hkernel
        · exact hother (h.owned.cr3_inj _ hvictim a (htracked a ha hne) heq).symm
      · rcases hcareful rfl with hkernel | ⟨a, ha, hne, -, heq⟩
        · exact Nat.ne_of_lt b.kernelPml4_pos hkernel
        · exact Nat.ne_of_lt (h.owned.cr3_pos a (htracked a ha hne)) heq
    · simp [hzero]
  · -- any other task is entered with its own page tables
    have hmem := h.onRing.ring.next_mem h.onRing.current_mem
    have hpos := h.cr3_pos hmem hroot
    have hother : s.sched.next s.sched.currentTask ≠ s.sched.currentTask := by
      intro heq
      have hnodup := (List.nodup_cons.mp h.onRing.ring.nodup).2
      rw [hrest] at hnodup
      have hin := h'.onRing.current_mem
      change sched'.currentTask ∈ _ at hin
      rw [hnext', heq] at hin
      have hin' := (List.mem_cons.mp hin).resolve_left hcurrent
      exact (List.nodup_cons.mp (List.nodup_middle.mp hnodup)).1 hin'
    rw [if_neg (Nat.pos_iff_ne_zero.mp hpos)]
    refine iff_of_true (Or.inr ⟨_, h.inRing_iff.mpr hmem, hroot, hother, rfl⟩) ?_
    exact fun heq => absurd heq hroot

/-- A step from a state in which the page tables in `CR3` are in use. -/
theorem SchedInv.sound_iff (h : SchedInv b history s rest) (hlive : s.LivePml4 b s.sched.cr3)
    (hstep : SchedStep b s event s') :
    Cr3Sound b ⟨s, event, s'⟩ ↔ Cr3Careful b ⟨s, event, s'⟩ := by
  cases hstep with
  | create programBreak isWm hfresh => exact Iff.rfl
  | schedule hrun => exact h.schedule_sound_iff hlive hrun
  | exit hcurrent hrun => exact h.exit_sound_iff hcurrent hrun

/-! ## Whole runs -/

/-- A creation keeps the page tables of the others. -/
theorem SchedInv.livePml4_create {newTask stack pml4Phys programBreak : ℕ} {isWm : Bool}
    (h : SchedInv b history s rest) (hfresh : s.Fresh newTask stack pml4Phys)
    (hlive : s.LivePml4 b value) :
    SchedState.LivePml4 b ⟨s.sched.addTask newTask stack pml4Phys programBreak isWm,
      insert newTask (insert stack s.blocks), insert pml4Phys s.frames⟩ value := by
  have hnew := (h.fresh_notMem hfresh).1
  have hhead : newTask ≠ s.sched.taskHead := by
    rw [h.onRing.taskHead_eq]
    exact List.ne_of_not_mem_cons hnew
  obtain ⟨-, hsame⟩ := Sched.addTask_fields stack pml4Phys programBreak isWm hhead
  rw [(h.create hfresh).livePml4_iff]
  refine (h.livePml4_iff.mp hlive).imp_right ?_
  rintro ⟨a, ha, heq⟩
  have hne : a ≠ newTask := fun e => hnew (e ▸ List.mem_cons_of_mem _ ha)
  exact ⟨a, List.mem_cons_of_mem _ ha, heq.trans (hsame a hne).1.cr3_eq.symm⟩

/-- As long as the steps are sound, the page tables in `CR3` are in use. -/
theorem livePml4_of_sound (run : Reaches (Traced (SchedStep b)) b.start trace s)
    (hsound : ∀ t ∈ trace, Cr3Sound b t) : s.LivePml4 b s.sched.cr3 := by
  induction run with
  | start => exact Or.inl rfl
  | snoc hrun hlast ih =>
    rename_i trace s s' t
    obtain ⟨hfirst, hbefore⟩ := List.forall_mem_cons.mp hsound
    obtain ⟨before, event, after⟩ := t
    obtain ⟨rfl, rfl, hlast⟩ := hlast
    obtain ⟨rest, h⟩ := SchedInv.run hrun.labels
    change SchedStep b before event after at hlast
    cases hlast with
    | create programBreak isWm hfresh => exact h.livePml4_create hfresh (ih hbefore)
    | schedule hsched => exact hfirst.2.2
    | exit hcurrent hexit => exact hfirst

/-- In every run, all steps are sound exactly when all steps that enter the root task are
careful. -/
theorem cr3_sound_iff_careful (run : Reaches (Traced (SchedStep b)) b.start trace s) :
    (∀ t ∈ trace, Cr3Sound b t) ↔ ∀ t ∈ trace, Cr3Careful b t := by
  refine (run.forall_iff fun trace s t s' hrun hsound hlast => ?_).symm
  obtain ⟨before, event, after⟩ := t
  obtain ⟨rfl, rfl, hlast⟩ := hlast
  obtain ⟨rest, h⟩ := SchedInv.run hrun.labels
  exact (h.sound_iff (livePml4_of_sound hrun hsound) hlast).symm

/-- A task that exits to another task, and is reaped while that one runs. -/
theorem cr3_sound_iff_careful_sampleReap : sampleReap.Forall (Cr3Sound sampleBoot) := by
  refine List.forall_iff_forall_mem.mpr ((cr3_sound_iff_careful sampleReap_run).mpr ?_)
  simp only [sampleReap, List.forall_mem_cons]
  refine ⟨fun _ => Or.inl rfl, fun hroot => ?_, fun hroot => ?_, trivial, trivial,
    List.forall_mem_nil _⟩
  · exact absurd hroot (by decide +kernel)
  · exact absurd hroot (by decide +kernel)

/-! ## A root task without page tables -/

/-- The calls that reap the first task of `sampleBoot`. -/
def sampleReleased : List Release :=
  [.kfree 0x20000, .destroyUserMemory 0x3000, .pmmFreePage 0x3000, .kfree 0x10000]

/-- The only task has exited, and the root task is interrupted at `0x9100`. -/
def sampleReaped : SchedState where
  sched := (sampleTicked.afterExit.sched.schedulerSchedule 0 0x9100).2.1
  blocks := sampleTicked.afterExit.blocks \ freedBlocks sampleReleased
  frames := sampleTicked.afterExit.frames \ freedFrames 0 sampleReleased

/-- The only task exits to the root task, and is reaped at the next interrupt. -/
def sampleDangling : List (Transition SchedState SchedEvent) :=
  [⟨sampleTicked.afterExit, .schedule 0x1000 0x9100 0x1000 0x9100 sampleReleased, sampleReaped⟩,
    ⟨sampleTicked, .exit ⟨0x10000, 0x21000, 0x3000⟩ 0x1000 0x9000, sampleTicked.afterExit⟩,
    ⟨sampleCreated, .schedule 0x1000 0x9000 0x10000 0x20f60 [], sampleTicked⟩,
    ⟨sampleBoot.start, .create 0x10000 0x20f60, sampleCreated⟩]

/-- The page tables that are destroyed are those in `CR3`. -/
theorem sampleDangling_not_sound :
    Reaches (Traced (SchedStep sampleBoot)) sampleBoot.start sampleDangling sampleReaped ∧
      ¬ ∀ t ∈ sampleDangling, Cr3Sound sampleBoot t := by
  have hexit : sampleTicked.sched.taskExit = some (0x9000, sampleTicked.afterExit.sched) := rfl
  have htick : sampleTicked.afterExit.sched.schedulerSchedule sampleBoot.hhdm 0x9100 =
      (0x9100, sampleReaped.sched, sampleReleased) := by
    refine Prod.ext ?_ (Prod.ext rfl ?_)
    · decide +kernel
    · decide +kernel
  refine ⟨(((Reaches.start.next sampleCreated_step).next sampleTicked_step).next
    (.exit ?_ hexit)).next (.schedule htick), fun hsound => ?_⟩
  · decide +kernel
  · have hloaded : sampleTicked.afterExit.sched.cr3 = 0x3000 := by decide +kernel
    have hfirst := (hsound _ List.mem_cons_self).1
    rw [hloaded] at hfirst
    exact hfirst (by decide)

end OpenIDP.Process
