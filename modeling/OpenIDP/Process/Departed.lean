import OpenIDP.Process.Ipc

/-!
# Pids of tasks that are gone

Pids are handed out in order. So once the task with some pid has left the ring, no task has this
pid again, whatever the other tasks do, and a message to it cannot be sent any more.

## Main definitions

* `Departed` — a pid was handed out, and no task has it

## Main results

* `Departed.run` — it stays so
* `Departed.getTaskByPid_eq` — a search for it finds nothing
-/

namespace OpenIDP.Process

open OpenIDP.Math

/-- The pid was handed out, and no task of the ring has it. -/
structure Departed (b : Boot) (history : List IpcEvent) (s : SchedState) (rest : List ℕ)
    (pid : ℕ) : Prop where
  inv : SchedInv b (schedHistory history) s rest
  handedOut : pid ≤ created (schedHistory history)
  absent : ∀ a ∈ b.rootTask :: rest, (s.sched.task a).pid ≠ pid

section Runs

variable {b : Boot} {s s' : SchedState} {history later : List IpcEvent} {event : IpcEvent}
variable {rest : List ℕ} {pid : ℕ}

/-- A search for the pid finds nothing. -/
theorem Departed.getTaskByPid_eq (h : Departed b history s rest pid)
    (hlt : created (schedHistory history) < 2 ^ 64) : s.sched.getTaskByPid pid = some 0 :=
  (h.inv.onRing.getTaskByPid_iff (h.inv.pids hlt).1 pid).2 h.absent

/-- Storing or taking out a message leaves the pids. -/
theorem Departed.setTask (h : Departed b history s rest pid) {a : ℕ} {t : Task}
    (hsame : Sched.SameOwner (s.sched.task a) t) (hnext : t.next = (s.sched.task a).next)
    (hrsp : t.rsp = (s.sched.task a).rsp) (hevent : schedHistory (event :: history) =
      schedHistory history) :
    Departed b (event :: history) { s with sched := s.sched.setTask a t } rest pid := by
  constructor
  · rw [hevent]
    exact h.inv.setTask hsame hnext hrsp
  · rw [hevent]
    exact h.handedOut
  · intro c hc
    by_cases hca : c = a
    · subst hca
      rw [Sched.setTask_task_self, hsame.pid_eq]
      exact h.absent c hc
    · rw [Sched.setTask_task_of_ne hca]
      exact h.absent c hc

theorem Departed.step (h : Departed b history s rest pid)
    (hlt : created (schedHistory (event :: history)) < 2 ^ 64) (hstep : IpcStep b s event s') :
    ∃ rest', Departed b (event :: history) s' rest' pid := by
  cases hstep with
  | sched hstep =>
    rename_i event
    have hlt : created (event :: schedHistory history) < 2 ^ 64 := hlt
    obtain ⟨rest', hinv, hmail⟩ := h.inv.step_mail hstep
    refine ⟨rest', hinv, h.handedOut.trans (created_step hstep), fun a ha => ?_⟩
    rcases List.mem_cons.mp ha with hroot | ha
    · -- the root task keeps its pid
      have habsent := h.absent b.rootTask List.mem_cons_self
      rw [h.inv.rootPid_eq] at habsent
      rwa [hroot, hinv.rootPid_eq]
    · rcases hmail a ha with ⟨hold, hpid, -⟩ | ⟨-, hpid, hcount⟩
      · rw [hpid]
        exact h.absent a (List.mem_cons_of_mem _ hold)
      · -- the pid of a new task is larger than those handed out before
        have hhanded := h.handedOut
        rw [hpid, wrap_of_lt (by omega)]
        omega
  | send hcaller hlow hhigh hdest hrun =>
    rename_i destPid type result d1 d2 d3 sched'
    rw [Sched.sysIpcSend] at hrun
    cases hfind : s.sched.getTaskByPid (toU64 destPid) with
    | none =>
      rw [hfind] at hrun
      exact absurd hrun (Option.some_ne_none _).symm
    | some target =>
      rw [hfind, Option.bind_eq_bind, Option.bind_some] at hrun
      split_ifs at hrun
      · obtain ⟨-, rfl⟩ := Prod.mk.inj (Option.some.inj hrun)
        exact ⟨rest, h.inv, h.handedOut, h.absent⟩
      · obtain ⟨-, rfl⟩ := Prod.mk.inj (Option.some.inj hrun)
        exact ⟨rest, h.inv, h.handedOut, h.absent⟩
      · obtain ⟨-, rfl⟩ := Prod.mk.inj (Option.some.inj hrun)
        exact ⟨rest, h.setTask ⟨rfl, rfl, rfl⟩ rfl rfl rfl⟩
  | recv hcaller hrun =>
    rw [Sched.sysIpcRecv] at hrun
    split_ifs at hrun
    · obtain ⟨-, -, rfl⟩ : _ ∧ _ ∧ s.sched = _ := by simpa using hrun
      exact ⟨rest, h.inv, h.handedOut, h.absent⟩
    · obtain ⟨-, -, rfl⟩ : _ ∧ _ ∧ s.sched.setTask s.sched.currentTask
          (s.sched.task s.sched.currentTask).dequeue = _ := by simpa using hrun
      exact ⟨rest, h.setTask ⟨rfl, rfl, rfl⟩ rfl rfl rfl⟩

/-- No task gets the pid in a run, while there are pids left. -/
theorem Departed.run (h : Departed b history s rest pid) (run : Reaches (IpcStep b) s later s')
    (hlt : created (schedHistory (later ++ history)) < 2 ^ 64) :
    ∃ rest', Departed b (later ++ history) s' rest' pid := by
  induction run with
  | start => exact ⟨rest, h⟩
  | snoc _ hstep ih =>
    obtain ⟨rest', h'⟩ := ih ((created_schedHistory hstep).trans_lt hlt)
    exact h'.step hlt hstep

end Runs

end OpenIDP.Process
