import OpenIDP.Process.SchedIntegrity

/-!
# Which exited tasks are reaped

An exited task is left in the single variable `zombieTask` until the next timer interrupt.
When the next task exits as well before that interrupt, the variable is written again, and
nothing points to the first task any more. So every exited task is accounted for exactly
in the runs in which each exit finds the variable empty.

## Main definitions

* `exits`, `reapings` — the exits of a history, and the batches of calls that gave back
  what a task owned
* `Accounted` — every exited task is pending or has been reaped once
* `Patient` — an exit waits until the last zombie has been reaped

## Main results

* `accounted_iff_patient` — the exited tasks of a run are accounted for exactly when its
  exits are patient
* `sampleExits_not_accounted` — two exits between two interrupts
-/

namespace OpenIDP.Process

open OpenIDP.Math

variable {b : Boot} {s s' : SchedState} {history : List SchedEvent} {event : SchedEvent}
variable {rest : List ℕ} {trace : List (Transition SchedState SchedEvent)}

/-- The tasks that have exited. -/
def exits : List SchedEvent → List Exited
  | [] => []
  | .exit victim _ _ :: history => victim :: exits history
  | _ :: history => exits history

/-- The calls made by the timer interrupts that gave something back. -/
def reapings : List SchedEvent → List (List Release)
  | [] => []
  | .schedule _ _ _ _ released :: history =>
    if released = [] then reapings history else released :: reapings history
  | _ :: history => reapings history

/-- The exited task that is still to be reaped. -/
def Sched.pending (s : Sched) : List Exited :=
  if s.zombieTask = 0 then [] else [s.exited s.zombieTask]

/-- Every exited task is pending or has been reaped once, and nothing else has. -/
def Accounted (b : Boot) (history : List SchedEvent) (s : SchedState) : Prop :=
  ∃ reaped : List Exited, (exits history).Perm (s.sched.pending ++ reaped) ∧
    reapings history = reaped.map (Exited.releases b.hhdm)

def SchedEvent.IsExit : SchedEvent → Prop
  | .exit .. => True
  | _ => False

/-- No task exits while another one waits to be reaped. -/
def Patient (t : Transition SchedState SchedEvent) : Prop :=
  t.label.IsExit → t.before.sched.zombieTask = 0

/-! ## Patient exits are all accounted for -/

/-- The struct of a task keeps what is to be given back. -/
theorem Sched.SameOwner.exited_eq {s s' : Sched} {a : ℕ}
    (h : Sched.SameOwner (s.task a) (s'.task a)) : s'.exited a = s.exited a := by
  rw [Sched.exited, Sched.exited, h.kernelStack_eq, h.cr3_eq]

theorem Accounted.step (hinv : SchedInv b history s rest) (h : Accounted b history s)
    (hstep : SchedStep b s event s') (hpatient : event.IsExit → s.sched.zombieTask = 0) :
    Accounted b (event :: history) s' := by
  obtain ⟨reaped, hexits, hreapings⟩ := h
  cases hstep with
  | create programBreak isWm hfresh =>
    obtain ⟨hnew, hzombie⟩ := hinv.fresh_notMem hfresh
    rename_i newTask stack pml4Phys
    have hhead : newTask ≠ s.sched.taskHead := by
      rw [hinv.onRing.taskHead_eq]
      exact List.ne_of_not_mem_cons hnew
    obtain ⟨-, hsame⟩ := Sched.addTask_fields stack pml4Phys programBreak isWm hhead
    refine ⟨reaped, ?_, hreapings⟩
    have hpending : (s.sched.addTask newTask stack pml4Phys programBreak isWm).pending =
        s.sched.pending := by
      unfold Sched.pending
      rw [← (hsame _ hzombie.symm).1.exited_eq]
      rfl
    rw [hpending]
    exact hexits
  | schedule hrun =>
    rename_i rsp sp sched' released
    obtain ⟨-, -, -, -, hzombie, -, -, -, hreleased⟩ :=
      Sched.schedulerSchedule_fields hinv.onRing.current_ne_zero hrun
    have hpending' : sched'.pending = [] := if_pos hzombie
    by_cases hzero : s.sched.zombieTask = 0
    · have hpending : s.sched.pending = [] := if_pos hzero
      rw [if_pos hzero] at hreleased
      refine ⟨reaped, ?_, ?_⟩
      · change (exits history).Perm (sched'.pending ++ reaped)
        rwa [hpending', ← hpending]
      · rw [reapings, if_pos hreleased]
        exact hreapings
    · -- the pending task is reaped now
      have hpending : s.sched.pending = [s.sched.exited s.sched.zombieTask] := if_neg hzero
      rw [if_neg hzero] at hreleased
      refine ⟨s.sched.exited s.sched.zombieTask :: reaped, ?_, ?_⟩
      · change (exits history).Perm (sched'.pending ++ _)
        rw [hpending']
        rwa [hpending] at hexits
      · have hne : s.sched.releases b.hhdm s.sched.zombieTask ≠ [] := List.cons_ne_nil _ _
        rw [reapings, hreleased, if_neg hne, hreapings]
        rfl
  | exit hroot hrun =>
    rename_i sp sched'
    obtain ⟨sp', t, xs, ys, hrun', -, -, hsame, hzombie, -⟩ := hinv.onRing.taskExit hroot
    obtain ⟨rfl, rfl⟩ := Prod.mk.inj (Option.some_inj.mp (hrun.symm.trans hrun'))
    have hpending : s.sched.pending = [] := if_pos (hpatient trivial)
    have hpending' : sched'.pending = [s.sched.exited s.sched.currentTask] := by
      rw [Sched.pending, hzombie, if_neg hinv.onRing.current_ne_zero, (hsame _).1.exited_eq]
    refine ⟨reaped, ?_, hreapings⟩
    change (s.sched.exited s.sched.currentTask :: exits history).Perm (sched'.pending ++ reaped)
    rw [hpending']
    rw [hpending] at hexits
    exact hexits.cons _

theorem Accounted.of_patient (run : Reaches (Traced (SchedStep b)) b.start trace s)
    (hpatient : ∀ t ∈ trace, Patient t) : Accounted b (trace.map Transition.label) s := by
  induction run with
  | start => exact ⟨[], .refl _, rfl⟩
  | snoc hrun hlast ih =>
    obtain ⟨hfirst, hbefore⟩ := List.forall_mem_cons.mp hpatient
    obtain ⟨rfl, rfl, hlast⟩ := hlast
    obtain ⟨rest, hinv⟩ := SchedInv.run hrun.labels
    exact (ih hbefore).step hinv hlast hfirst

/-! ## A hasty exit loses a task for good -/

/-- More tasks have exited than are pending or reaped. -/
def Lost (history : List SchedEvent) (s : SchedState) : Prop :=
  s.sched.pending.length + (reapings history).length < (exits history).length

theorem Accounted.not_lost (h : Accounted b history s) : ¬ Lost history s := by
  obtain ⟨reaped, hexits, hreapings⟩ := h
  rw [Lost, hexits.length_eq, hreapings, List.length_append, List.length_map]
  exact Nat.lt_irrefl _

theorem Sched.length_pending (s : Sched) :
    s.pending.length = if s.zombieTask = 0 then 0 else 1 := by
  unfold Sched.pending
  split_ifs <;> rfl

/-- Only an exit changes how many of the exited tasks are pending or reaped. -/
theorem SchedInv.count_of_not_isExit (hinv : SchedInv b history s rest)
    (hstep : SchedStep b s event s') (hexit : ¬ event.IsExit) :
    s'.sched.pending.length + (reapings (event :: history)).length =
        s.sched.pending.length + (reapings history).length ∧
      exits (event :: history) = exits history := by
  cases hstep with
  | create programBreak isWm hfresh =>
    refine ⟨?_, rfl⟩
    -- creation does not touch the variable
    rw [Sched.length_pending, Sched.length_pending]
    rfl
  | schedule hrun =>
    rename_i rsp sp sched' released
    obtain ⟨-, -, -, -, hzombie, -, -, -, hreleased⟩ :=
      Sched.schedulerSchedule_fields hinv.onRing.current_ne_zero hrun
    refine ⟨?_, rfl⟩
    change sched'.pending.length + _ = _
    rw [Sched.length_pending, Sched.length_pending, if_pos hzombie, reapings, hreleased]
    by_cases hzero : s.sched.zombieTask = 0
    · rw [if_pos hzero, if_pos hzero, if_pos rfl]
    · have hne : s.sched.releases b.hhdm s.sched.zombieTask ≠ [] := List.cons_ne_nil _ _
      rw [if_neg hzero, if_neg hzero, if_neg hne, List.length_cons, Nat.zero_add, Nat.add_comm]
  | exit hroot hrun => exact absurd trivial hexit

/-- An exit makes one task pending, whatever was pending before. -/
theorem SchedInv.count_of_isExit (hinv : SchedInv b history s rest)
    (hstep : SchedStep b s event s') (hexit : event.IsExit) :
    s'.sched.pending.length + (reapings (event :: history)).length =
        1 + (reapings history).length ∧
      (exits (event :: history)).length = (exits history).length + 1 := by
  cases hstep with
  | create programBreak isWm hfresh => exact hexit.elim
  | schedule hrun => exact hexit.elim
  | exit hroot hrun =>
    rename_i sp sched'
    obtain ⟨sp', t, xs, ys, hrun', -, -, -, hzombie, -⟩ := hinv.onRing.taskExit hroot
    obtain ⟨rfl, rfl⟩ := Prod.mk.inj (Option.some_inj.mp (hrun.symm.trans hrun'))
    refine ⟨?_, rfl⟩
    change sched'.pending.length + (reapings history).length = _
    rw [Sched.length_pending, hzombie, if_neg hinv.onRing.current_ne_zero]

/-- What is lost stays lost. -/
theorem Lost.step (hinv : SchedInv b history s rest) (h : Lost history s)
    (hstep : SchedStep b s event s') : Lost (event :: history) s' := by
  unfold Lost at h ⊢
  by_cases hexit : event.IsExit
  · obtain ⟨hcount, hexits⟩ := hinv.count_of_isExit hstep hexit
    omega
  · obtain ⟨hcount, hexits⟩ := hinv.count_of_not_isExit hstep hexit
    rw [hcount, hexits]
    exact h

/-- An exit while a task is pending loses that task. -/
theorem Accounted.lost (hinv : SchedInv b history s rest) (h : Accounted b history s)
    (hstep : SchedStep b s event s') (hexit : event.IsExit) (hzombie : s.sched.zombieTask ≠ 0) :
    Lost (event :: history) s' := by
  obtain ⟨reaped, hexits, hreapings⟩ := h
  obtain ⟨hcount, hlength⟩ := hinv.count_of_isExit hstep hexit
  have hpending : s.sched.pending.length = 1 := by rw [Sched.length_pending, if_neg hzombie]
  rw [Lost, hcount, hlength, hexits.length_eq, hreapings, List.length_append, List.length_map,
    hpending]
  exact Nat.lt_succ_self _

/-- In every run, every exited task is accounted for exactly when no task exited while
another one was waiting to be reaped. -/
theorem accounted_iff_patient (run : Reaches (Traced (SchedStep b)) b.start trace s) :
    Accounted b (trace.map Transition.label) s ↔ ∀ t ∈ trace, Patient t := by
  refine ⟨fun h => ?_, Accounted.of_patient run⟩
  have hcases : (∀ t ∈ trace, Patient t) ∨ Lost (trace.map Transition.label) s := by
    clear h
    induction run with
    | start => exact Or.inl fun t ht => absurd ht List.not_mem_nil
    | snoc hrun hlast ih =>
      rename_i trace s s' t
      obtain ⟨rfl, rfl, hlast⟩ := hlast
      obtain ⟨rest, hinv⟩ := SchedInv.run hrun.labels
      rcases ih with hpatient | hlost
      · by_cases hhasty : t.label.IsExit ∧ t.before.sched.zombieTask ≠ 0
        · exact Or.inr ((Accounted.of_patient hrun hpatient).lost hinv hlast hhasty.1 hhasty.2)
        · refine Or.inl (List.forall_mem_cons.mpr ⟨fun hexit => ?_, hpatient⟩)
          exact not_not.mp fun hne => hhasty ⟨hexit, hne⟩
      · exact Or.inr (hlost.step hinv hlast)
  exact hcases.resolve_right h.not_lost

/-- A task that exits when no other waits, and is reaped. -/
theorem accounted_iff_patient_sampleReap :
    Accounted sampleBoot (sampleReap.map Transition.label) sampleTwoReaped := by
  refine (accounted_iff_patient sampleReap_run).mpr fun t ht hexit => ?_
  have hpatient : ∀ t ∈ sampleReap, t.label.IsExit → t = ⟨sampleTwoTicked,
      .exit ⟨0x30000, 0x41000, 0x4000⟩ 0x10000 0x20f60, sampleTwoTicked.afterExit⟩ := by
    simp [sampleReap, SchedEvent.IsExit]
  rw [hpatient t ht hexit]
  decide +kernel

/-! ## Two exits between two interrupts -/

/-- Two tasks are created, and exit one after the other before the next interrupt. -/
def sampleExits : List (Transition SchedState SchedEvent) :=
  [⟨sampleTwoTicked.afterExit, .exit ⟨0x10000, 0x21000, 0x3000⟩ 0x1000 0x9000,
      sampleTwoTicked.afterExit.afterExit⟩,
    ⟨sampleTwoTicked, .exit ⟨0x30000, 0x41000, 0x4000⟩ 0x10000 0x20f60,
      sampleTwoTicked.afterExit⟩,
    ⟨sampleTwo, .schedule 0x1000 0x9000 0x30000 0x40f60 [], sampleTwoTicked⟩,
    ⟨sampleCreated, .create 0x30000 0x40f60, sampleTwo⟩,
    ⟨sampleBoot.start, .create 0x10000 0x20f60, sampleCreated⟩]

theorem sampleExits_run : Reaches (Traced (SchedStep sampleBoot)) sampleBoot.start sampleExits
    sampleTwoTicked.afterExit.afterExit := by
  have hexit : sampleTwoTicked.afterExit.sched.taskExit =
      some (0x9000, sampleTwoTicked.afterExit.afterExit.sched) := rfl
  refine ((((Reaches.start.next sampleCreated_step).next sampleTwo_step).next
    sampleTwoTicked_step).next sampleTwoExited_step).next (.exit ?_ hexit)
  decide +kernel

/-- The task that exited first is neither pending nor reaped. -/
theorem sampleExits_not_accounted :
    Reaches (Traced (SchedStep sampleBoot)) sampleBoot.start sampleExits
        sampleTwoTicked.afterExit.afterExit ∧
      ¬ Accounted sampleBoot (sampleExits.map Transition.label)
        sampleTwoTicked.afterExit.afterExit := by
  refine ⟨sampleExits_run, fun h => h.not_lost ?_⟩
  unfold Lost
  decide +kernel

end OpenIDP.Process
