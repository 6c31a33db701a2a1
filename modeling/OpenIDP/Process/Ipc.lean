import OpenIDP.Math.RingBuffer
import OpenIDP.Process.SchedIntegrity

/-!
# Messages between processes

`src/syscall/sys_process.c` sends a message by storing it in a ring buffer inside the
struct of the receiving task, with its own indices and count, and receives by taking the
oldest message out of the buffer of the current task. A run consists of such calls by
user tasks, to other pids than that of the root task, and of the steps of the scheduler.

The histories of a run say which messages were sent to a pid and which were received under
it. A buffer holds what is sent and not yet received.

## Main definitions

* `sysIpcSend`, `sysIpcRecv` — the two system calls
* `IpcEvent`, `IpcStep`, `sentTo`, `receivedBy` — runs and what they say
* `Task.Holds` — a task's buffer holds a list of messages
* `Reliable` — what senders and receivers can rely on

## Main results

* `Task.Holds.enqueue`, `Task.Holds.dequeue` — a buffer is a queue
* `IpcInv.run` — the buffers of a run
* `ipc_reliable` — every state of a run is reliable
-/

namespace OpenIDP.Process

open OpenIDP.Math

/-- `MSG_QUEUE_SIZE` -/
def msgQueueSize : ℕ := 16

/-- The part of `sys_ipc_send` that stores a message. -/
def Task.enqueue (t : Task) (msg : Message) : Task :=
  { t with
    msgs := Function.update t.msgs t.msgTail msg
    msgTail := (t.msgTail + 1).tmod msgQueueSize
    msgCount := t.msgCount + 1 }

/-- The part of `sys_ipc_recv` that takes a message out. -/
def Task.dequeue (t : Task) : Task :=
  { t with
    msgHead := (t.msgHead + 1).tmod msgQueueSize
    msgCount := t.msgCount - 1 }

namespace Sched

/-- `sys_ipc_send`: what it returns, and the state. -/
def sysIpcSend (s : Sched) (destPid type : ℤ) (d1 d2 d3 : ℕ) : Option (ℤ × Sched) := do
  let target ← s.getTaskByPid (toU64 destPid)
  if target = 0 then
    some (-1, s)
  else if (msgQueueSize : ℤ) ≤ (s.task target).msgCount then
    some (-2, s)
  else
    let msg : Message := ⟨toInt32 (s.task s.currentTask).pid, type, d1, d2, d3⟩
    some (0, s.setTask target ((s.task target).enqueue msg))

/-- `sys_ipc_recv`: what it returns, the message it copies out, and the state. -/
def sysIpcRecv (s : Sched) : ℤ × Option Message × Sched :=
  if (s.task s.currentTask).msgCount = 0 then
    (-1, none, s)
  else
    (0, some ((s.task s.currentTask).msgs (s.task s.currentTask).msgHead),
      s.setTask s.currentTask (s.task s.currentTask).dequeue)

end Sched

/-! ## Runs -/

/-- What happened in a step. Callers are named by their pid. -/
inductive IpcEvent
  | sched (event : SchedEvent)
  | send (caller : ℕ) (destPid type : ℤ) (d1 d2 d3 : ℕ) (result : ℤ)
  | recv (caller : ℕ) (result : ℤ) (out : Option Message)

/-- One step of the scheduler, or one system call of the current task. -/
inductive IpcStep (b : Boot) : SchedState → IpcEvent → SchedState → Prop
  | sched {s s' : SchedState} {event : SchedEvent} (h : SchedStep b s event s') :
      IpcStep b s (.sched event) s'
  | send {s : SchedState} {destPid type result : ℤ} {d1 d2 d3 : ℕ} {sched' : Sched}
      (hcaller : s.sched.currentTask ≠ b.rootTask) (hlow : -2 ^ 31 ≤ destPid)
      (hhigh : destPid < 2 ^ 31) (hdest : destPid ≠ 0)
      (h : s.sched.sysIpcSend destPid type d1 d2 d3 = some (result, sched')) :
      IpcStep b s
        (.send (s.sched.task s.sched.currentTask).pid destPid type d1 d2 d3 result)
        { s with sched := sched' }
  | recv {s : SchedState} {result : ℤ} {out : Option Message} {sched' : Sched}
      (hcaller : s.sched.currentTask ≠ b.rootTask)
      (h : s.sched.sysIpcRecv = (result, out, sched')) :
      IpcStep b s (.recv (s.sched.task s.sched.currentTask).pid result out)
        { s with sched := sched' }

/-- The steps of the scheduler. -/
def schedHistory : List IpcEvent → List SchedEvent
  | [] => []
  | .sched event :: history => event :: schedHistory history
  | _ :: history => schedHistory history

/-- The messages whose sending to pid `p` succeeded, oldest first, under the pid of the
task that sent them. -/
def sentTo (p : ℕ) : List IpcEvent → List Message
  | [] => []
  | .send caller destPid type d1 d2 d3 result :: history =>
    if destPid = p ∧ result = 0 then
      sentTo p history ++ [⟨caller, type, d1, d2, d3⟩]
    else
      sentTo p history
  | _ :: history => sentTo p history

/-- The messages that the task with pid `p` received, oldest first. -/
def receivedBy (p : ℕ) : List IpcEvent → List Message
  | [] => []
  | .recv caller _ out :: history =>
    if caller = p then receivedBy p history ++ out.toList else receivedBy p history
  | _ :: history => receivedBy p history

/-- The number of messages sent to pid `p` that wait to be received. -/
def pendingFor (p : ℕ) (history : List IpcEvent) : ℕ :=
  (sentTo p history).length - (receivedBy p history).length

/-! ## A task's buffer -/

/-- The buffer of a task holds the messages of `q`, oldest first. -/
structure Task.Holds (t : Task) (q : List Message) (head : ℕ) : Prop where
  head_lt : head < msgQueueSize
  msgHead_eq : t.msgHead = head
  msgCount_eq : t.msgCount = q.length
  msgTail_eq : t.msgTail = ((head + q.length) % msgQueueSize : ℕ)
  length_le : q.length ≤ msgQueueSize
  contents_eq : contents (fun k : ℕ => t.msgs k) msgQueueSize head q.length = q

namespace Task.Holds

variable {t t' : Task} {q : List Message} {head : ℕ} {m : Message}

/-- The next index, as the remainder of `int` computes it. -/
theorem tmod_succ {i : ℕ} :
    (((i % msgQueueSize : ℕ) : ℤ) + 1).tmod msgQueueSize = ((i + 1) % msgQueueSize : ℕ) := by
  rw [Int.tmod_eq_emod_of_nonneg (by omega)]
  unfold msgQueueSize
  omega

theorem tmod_head_succ {head : ℕ} (hhead : head < msgQueueSize) :
    ((head : ℤ) + 1).tmod msgQueueSize = ((head + 1) % msgQueueSize : ℕ) := by
  have h := tmod_succ (i := head)
  rwa [Nat.mod_eq_of_lt hhead] at h

/-- A cleared buffer is empty. -/
theorem nil (hhead : t.msgHead = 0) (htail : t.msgTail = 0) (hcount : t.msgCount = 0) :
    t.Holds [] 0 :=
  ⟨by decide, hhead, hcount, htail, Nat.zero_le _, rfl⟩

/-- Storing a message puts it behind the others. -/
theorem enqueue (h : t.Holds q head) (hroom : q.length < msgQueueSize) (m : Message) :
    (t.enqueue m).Holds (q ++ [m]) head := by
  have hlength : (q ++ [m]).length = q.length + 1 := List.length_append
  refine ⟨h.head_lt, h.msgHead_eq, ?_, ?_, ?_, ?_⟩
  · rw [Task.enqueue, h.msgCount_eq, hlength]
    rfl
  · rw [Task.enqueue, h.msgTail_eq, hlength]
    exact tmod_succ
  · rw [hlength]
    exact hroom
  · have hcells : (fun k : ℕ => (t.enqueue m).msgs k) =
        Function.update (fun k : ℕ => t.msgs k) ((head + q.length) % msgQueueSize) m := by
      rw [Task.enqueue, h.msgTail_eq]
      exact Function.update_comp_eq_of_injective _ Nat.cast_injective _ _
    rw [hcells, hlength, contents_push hroom, h.contents_eq]

/-- The first message is the oldest one, and taking it out leaves the others. -/
theorem dequeue (h : t.Holds (m :: q) head) :
    t.msgs t.msgHead = m ∧ t.dequeue.Holds q ((head + 1) % msgQueueSize) := by
  have hcontents := h.contents_eq
  rw [List.length_cons, contents_pop h.head_lt] at hcontents
  obtain ⟨hfirst, hrest⟩ := List.cons.inj hcontents
  refine ⟨?_, Nat.mod_lt _ (by decide), ?_, ?_, ?_, ?_, hrest⟩
  · rw [h.msgHead_eq]
    exact hfirst
  · rw [Task.dequeue, h.msgHead_eq]
    exact tmod_head_succ h.head_lt
  · change t.msgCount - 1 = q.length
    rw [h.msgCount_eq, List.length_cons]
    omega
  · rw [Task.dequeue, h.msgTail_eq, List.length_cons, Nat.mod_add_mod]
    congr 2
    omega
  · exact (Nat.le_succ _).trans h.length_le

/-- The buffer is determined by four fields. -/
theorem congr (h : t.Holds q head) (hmsgs : t'.msgs = t.msgs) (hhead : t'.msgHead = t.msgHead)
    (htail : t'.msgTail = t.msgTail) (hcount : t'.msgCount = t.msgCount) : t'.Holds q head := by
  refine ⟨h.head_lt, hhead.trans h.msgHead_eq, hcount.trans h.msgCount_eq,
    htail.trans h.msgTail_eq, h.length_le, ?_⟩
  rw [hmsgs]
  exact h.contents_eq

end Task.Holds

/-! ## What the scheduler does to the buffers -/

section Sched

variable {b : Boot} {s s' : SchedState} {history : List SchedEvent} {event : SchedEvent}
variable {rest : List ℕ} {sched' : Sched}

/-- The buffer of a task struct stays as it is. -/
structure SameMail (t t' : Task) : Prop where
  msgs_eq : t'.msgs = t.msgs
  msgHead_eq : t'.msgHead = t.msgHead
  msgTail_eq : t'.msgTail = t.msgTail
  msgCount_eq : t'.msgCount = t.msgCount

theorem SameMail.refl (t : Task) : SameMail t t := ⟨rfl, rfl, rfl, rfl⟩

theorem Task.Holds.of_sameMail {t t' : Task} {q : List Message} {head : ℕ} (h : t.Holds q head)
    (hsame : SameMail t t') : t'.Holds q head :=
  h.congr hsame.msgs_eq hsame.msgHead_eq hsame.msgTail_eq hsame.msgCount_eq

theorem Sched.setNext_sameMail (s : Sched) (a value c : ℕ) :
    SameMail (s.task c) ((s.setNext a value).task c) := by
  simp only [Sched.setNext, Sched.setTask, Function.update_apply]
  split_ifs with hc
  · rw [hc]
    exact ⟨rfl, rfl, rfl, rfl⟩
  · exact .refl _

theorem Sched.switchCr3_task (s : Sched) : s.switchCr3.task = s.task := by
  rw [Sched.switchCr3_eq]

theorem Sched.schedulerSchedule_sameMail {s : Sched} {hhdm rsp sp : ℕ}
    {released : List Release} (h : s.schedulerSchedule hhdm rsp = (sp, sched', released))
    (hcurrent : s.currentTask ≠ 0) (c : ℕ) : SameMail (s.task c) (sched'.task c) := by
  simp only [Sched.schedulerSchedule, Sched.reapZombie_eq, Sched.switchNext, if_neg hcurrent,
    Prod.mk.injEq] at h
  obtain ⟨-, rfl, -⟩ := h
  rw [Sched.switchCr3_task]
  simp only [Sched.setTask, Function.update_apply]
  split_ifs with hc
  · rw [hc]
    exact ⟨rfl, rfl, rfl, rfl⟩
  · exact .refl _

theorem Sched.taskExit_sameMail {s : Sched} {sp : ℕ} (h : s.taskExit = some (sp, sched'))
    (c : ℕ) : SameMail (s.task c) (sched'.task c) := by
  obtain ⟨prev, -, hrest⟩ := Option.bind_eq_some_iff.mp h
  obtain ⟨-, rfl⟩ := Prod.mk.inj (Option.some_inj.mp hrest)
  have hunlink : (s.unlink s.currentTask prev).task =
      (s.setNext prev (s.next s.currentTask)).task :=
    (apply_ite Sched.task _ _ _).trans (ite_self _)
  rw [Sched.switchCr3_task]
  change SameMail _ ((s.unlink s.currentTask prev).task c)
  rw [hunlink]
  exact s.setNext_sameMail _ _ _

/-- A new task has an empty buffer, and the others keep theirs. -/
theorem Sched.addTask_mail {s : Sched} {newTask : ℕ} (stack pml4Phys programBreak : ℕ)
    (isWm : Bool) (hne : newTask ≠ s.taskHead) :
    ((s.addTask newTask stack pml4Phys programBreak isWm).task newTask).Holds [] 0 ∧
      ∀ c, c ≠ newTask →
        SameMail (s.task c) ((s.addTask newTask stack pml4Phys programBreak isWm).task c) := by
  constructor
  · apply Task.Holds.nil
    all_goals
      simp [Sched.addTask, Sched.setNext, Sched.setTask, hne, Task.zero]
  · intro c hc
    simp only [Sched.addTask, Sched.setNext, Sched.setTask, Function.update_apply, if_neg hc,
      if_neg hne.symm]
    by_cases hhead : c = s.taskHead
    · rw [if_pos hhead, hhead]
      exact ⟨rfl, rfl, rfl, rfl⟩
    · rw [if_neg hhead]
      exact .refl _

theorem created_step (hstep : SchedStep b s event s') :
    created history ≤ created (event :: history) := by
  cases hstep <;> simp [created]

/-- In a step of the scheduler each task of the ring has been there before, with the same
buffer, or is new, with an empty one. -/
theorem SchedInv.step_mail (h : SchedInv b history s rest) (hstep : SchedStep b s event s') :
    ∃ rest', SchedInv b (event :: history) s' rest' ∧ ∀ a ∈ rest',
      (a ∈ rest ∧ (s'.sched.task a).pid = (s.sched.task a).pid ∧
        SameMail (s.sched.task a) (s'.sched.task a)) ∨
      ((s'.sched.task a).Holds [] 0 ∧ (s'.sched.task a).pid = wrap (1 + created history) ∧
        created (event :: history) = created history + 1) := by
  cases hstep with
  | create programBreak isWm hfresh =>
    obtain ⟨hnew, -⟩ := h.fresh_notMem hfresh
    rename_i newTask stack pml4Phys
    have hhead : newTask ≠ s.sched.taskHead := by
      rw [h.onRing.taskHead_eq]
      exact List.ne_of_not_mem_cons hnew
    obtain ⟨hempty, hmail⟩ := Sched.addTask_mail stack pml4Phys programBreak isWm hhead
    obtain ⟨-, hsame⟩ := Sched.addTask_fields stack pml4Phys programBreak isWm hhead
    obtain ⟨hpid, -⟩ := Sched.addTask_task stack pml4Phys programBreak isWm hhead
    refine ⟨_, h.create hfresh, fun a ha => ?_⟩
    rcases List.mem_cons.mp ha with hnewa | ha
    · rw [hnewa]
      exact Or.inr ⟨hempty, hpid.trans h.nextPid_eq, rfl⟩
    · have hne : a ≠ newTask := fun e => hnew (e ▸ List.mem_cons_of_mem _ ha)
      exact Or.inl ⟨ha, (hsame a hne).1.pid_eq, hmail a hne⟩
  | schedule hrun =>
    obtain ⟨-, hsame, -⟩ := Sched.schedulerSchedule_fields h.onRing.current_ne_zero hrun
    exact ⟨_, h.schedule hrun, fun a ha => Or.inl ⟨ha, (hsame a).1.pid_eq,
      Sched.schedulerSchedule_sameMail hrun h.onRing.current_ne_zero a⟩⟩
  | exit hroot hrun =>
    rename_i sp sched'
    obtain ⟨sp', t, -, -, hrun', -, -, hsame, -⟩ := h.onRing.taskExit hroot
    obtain ⟨rfl, rfl⟩ := Prod.mk.inj (Option.some_inj.mp (hrun.symm.trans hrun'))
    obtain ⟨xs, ys, hrest, hinv⟩ := h.exit hroot hrun
    refine ⟨_, hinv, fun a ha => Or.inl ⟨?_, (hsame a).1.pid_eq,
      Sched.taskExit_sameMail hrun a⟩⟩
    rw [hrest]
    exact List.mem_append.mpr ((List.mem_append.mp ha).imp_right (List.mem_cons_of_mem _))

/-- The invariant of the scheduler does not depend on the buffers. -/
theorem SchedInv.setTask (h : SchedInv b history s rest) {a : ℕ} {t : Task}
    (hsame : Sched.SameOwner (s.sched.task a) t) (hnext : t.next = (s.sched.task a).next)
    (hrsp : t.rsp = (s.sched.task a).rsp) :
    SchedInv b history { s with sched := s.sched.setTask a t } rest := by
  have hfields : ∀ c, Sched.SameOwner (s.sched.task c) ((s.sched.setTask a t).task c) ∧
      ((s.sched.setTask a t).task c).rsp = (s.sched.task c).rsp ∧
      (s.sched.setTask a t).next c = s.sched.next c := by
    intro c
    simp only [Sched.setTask, Sched.next, Function.update_apply]
    split_ifs with hc
    · rw [hc]
      exact ⟨hsame, hrsp, hnext⟩
    · exact ⟨.refl _, rfl, rfl⟩
  have hpids : ((b.rootTask :: rest).map fun c => ((s.sched.setTask a t).task c).pid) =
      (b.rootTask :: rest).map fun c => (s.sched.task c).pid :=
    List.map_congr_left fun c _ => (hfields c).1.pid_eq
  constructor
  · exact ⟨h.onRing.taskHead_eq, h.onRing.ring.congr fun c _ => (hfields c).2.2,
      h.onRing.current_mem, h.onRing.zombie_notMem, h.onRing.bounds⟩
  · exact h.owned.of_subset (fun c hc => hc) (fun c => (hfields c).1) h.owned.root_mem
      h.owned.kernel_mem h.owned.task_mem h.owned.stack_mem h.owned.cr3_mem
  · exact h.alive_perm
  · exact fun c hc hne => (h.saved c hc hne).trans (congrArg some (hfields c).2.1.symm)
  · exact h.nextPid_eq
  · intro hlt
    refine ⟨hpids ▸ (h.pids hlt).1, fun c hc => ?_⟩
    exact (hfields c).1.pid_eq.trans_le ((h.pids hlt).2 c hc)
  · exact (hfields _).1.pid_eq.trans h.rootPid_eq
  · exact (hfields _).1.cr3_eq.trans h.rootCr3_eq
  · exact fun hne => (h.loaded hne).trans (hfields _).1.cr3_eq.symm

end Sched

/-! ## The invariant -/

/-- What holds in every state of a run: the buffer of a task holds what was sent to its pid
and has not been received. -/
structure IpcInv (b : Boot) (history : List IpcEvent) (s : SchedState) (rest : List ℕ) :
    Prop where
  inv : SchedInv b (schedHistory history) s rest
  delivered : ∀ p, receivedBy p history <+: sentTo p history
  unborn : ∀ p, created (schedHistory history) < p → sentTo p history = []
  queued : ∀ a ∈ rest, ∃ q head, (s.sched.task a).Holds q head ∧
    sentTo (s.sched.task a).pid history = receivedBy (s.sched.task a).pid history ++ q

section Runs

variable {b : Boot} {s s' : SchedState} {history : List IpcEvent} {event : IpcEvent}
variable {rest : List ℕ} {destPid type result : ℤ} {d1 d2 d3 : ℕ} {sched' : Sched}
variable {out : Option Message}

theorem IpcInv.start (b : Boot) : IpcInv b [] b.start [] :=
  ⟨.start b, fun _ => List.prefix_rfl, fun _ _ => rfl, fun _ ha => absurd ha List.not_mem_nil⟩

theorem IpcInv.pids (h : IpcInv b history s rest)
    (hlt : created (schedHistory history) < 2 ^ 31) :
    ((b.rootTask :: rest).map fun a => (s.sched.task a).pid).Nodup ∧
      ∀ a ∈ b.rootTask :: rest, (s.sched.task a).pid < 2 ^ 31 := by
  obtain ⟨hnodup, hle⟩ := h.inv.pids (hlt.trans (by decide))
  exact ⟨hnodup, fun a ha => (hle a ha).trans_lt hlt⟩

/-- Tasks of the ring with the same pid are the same. -/
theorem IpcInv.pid_inj (h : IpcInv b history s rest)
    (hlt : created (schedHistory history) < 2 ^ 31) {a c : ℕ} (ha : a ∈ b.rootTask :: rest)
    (hc : c ∈ b.rootTask :: rest) (heq : (s.sched.task a).pid = (s.sched.task c).pid) : a = c :=
  List.inj_on_of_nodup_map (h.pids hlt).1 ha hc heq

/-- What sending does. -/
theorem IpcInv.sysIpcSend_eq (h : IpcInv b history s rest)
    (hlt : created (schedHistory history) < 2 ^ 31) (hlow : -2 ^ 31 ≤ destPid)
    (hhigh : destPid < 2 ^ 31) (hdest : destPid ≠ 0) (type : ℤ) (d1 d2 d3 : ℕ) :
    (s.sched.sysIpcSend destPid type d1 d2 d3 = some (-1, s.sched) ∧
        ∀ a ∈ b.rootTask :: rest, ((s.sched.task a).pid : ℤ) ≠ destPid) ∨
      ∃ a ∈ rest, ((s.sched.task a).pid : ℤ) = destPid ∧ ∃ q head,
        (s.sched.task a).Holds q head ∧
        sentTo (s.sched.task a).pid history = receivedBy (s.sched.task a).pid history ++ q ∧
        (q.length = msgQueueSize ∧
            s.sched.sysIpcSend destPid type d1 d2 d3 = some (-2, s.sched) ∨
          q.length < msgQueueSize ∧
            s.sched.sysIpcSend destPid type d1 d2 d3 =
              some (0, s.sched.setTask a ((s.sched.task a).enqueue
                ⟨(s.sched.task s.sched.currentTask).pid, type, d1, d2, d3⟩))) := by
  obtain ⟨hnodup, hpids⟩ := h.pids hlt
  obtain ⟨hfound, hmissing⟩ := h.inv.onRing.getTaskByPid_iff hnodup (toU64 destPid)
  have hpid : ∀ a ∈ b.rootTask :: rest,
      (s.sched.task a).pid = toU64 destPid ↔ ((s.sched.task a).pid : ℤ) = destPid :=
    fun a ha => toU64_eq_iff hlow hhigh (hpids a ha)
  by_cases hlive : ∃ a ∈ b.rootTask :: rest, ((s.sched.task a).pid : ℤ) = destPid
  · obtain ⟨a, ha, hdestPid⟩ := hlive
    -- The root task has pid 0, which is not the destination.
    have hrest : a ∈ rest := by
      rcases List.mem_cons.mp ha with hroot | hrest
      · rw [hroot, h.inv.rootPid_eq] at hdestPid
        exact absurd hdestPid.symm hdest
      · exact hrest
    have hsearch := hfound a ha ((hpid a ha).mpr hdestPid)
    obtain ⟨q, head, hholds, hsent⟩ := h.queued a hrest
    refine Or.inr ⟨a, hrest, hdestPid, q, head, hholds, hsent, ?_⟩
    rw [Sched.sysIpcSend, hsearch, Option.bind_eq_bind, Option.bind_some,
      if_neg (h.inv.onRing.ne_zero ha), hholds.msgCount_eq]
    -- A full queue refuses the message; else it goes to the end.
    rcases hholds.length_le.eq_or_lt with hfull | hroom
    · exact Or.inl ⟨hfull, if_pos (Nat.cast_le.mpr hfull.ge)⟩
    · rw [if_neg fun hle => hroom.not_ge (Nat.cast_le.mp hle),
        toInt32_of_lt (hpids _ h.inv.onRing.current_mem)]
      exact Or.inr ⟨hroom, rfl⟩
  · push Not at hlive
    have hsearch := hmissing fun a ha e => hlive a ha ((hpid a ha).mp e)
    refine Or.inl ⟨?_, hlive⟩
    rw [Sched.sysIpcSend, hsearch, Option.bind_eq_bind, Option.bind_some, if_pos rfl]

/-- What receiving does. -/
theorem IpcInv.sysIpcRecv_eq (h : IpcInv b history s rest)
    (hcaller : s.sched.currentTask ≠ b.rootTask) :
    ∃ q head, (s.sched.task s.sched.currentTask).Holds q head ∧
      sentTo (s.sched.task s.sched.currentTask).pid history =
        receivedBy (s.sched.task s.sched.currentTask).pid history ++ q ∧
      (q = [] ∧ s.sched.sysIpcRecv = (-1, none, s.sched) ∨
        ∃ m q', q = m :: q' ∧ s.sched.sysIpcRecv = (0, some m,
          s.sched.setTask s.sched.currentTask (s.sched.task s.sched.currentTask).dequeue)) := by
  have hmem := (List.mem_cons.mp h.inv.onRing.current_mem).resolve_left hcaller
  obtain ⟨q, head, hholds, hsent⟩ := h.queued _ hmem
  refine ⟨q, head, hholds, hsent, ?_⟩
  rw [Sched.sysIpcRecv]
  cases q with
  | nil => exact Or.inl ⟨rfl, if_pos hholds.msgCount_eq⟩
  | cons m q' =>
    have hcount : (s.sched.task s.sched.currentTask).msgCount ≠ 0 := by
      rw [hholds.msgCount_eq, List.length_cons]
      exact_mod_cast Nat.succ_ne_zero q'.length
    rw [if_neg hcount, hholds.dequeue.1]
    exact Or.inr ⟨m, q', rfl, rfl⟩

/-- The pids of the tasks in the ring have been handed out. -/
theorem IpcInv.pid_le (h : IpcInv b history s rest)
    (hlt : created (schedHistory history) < 2 ^ 31) {a : ℕ} (ha : a ∈ b.rootTask :: rest) :
    (s.sched.task a).pid ≤ created (schedHistory history) :=
  (h.inv.pids (hlt.trans (by decide))).2 a ha

theorem IpcInv.sched (h : IpcInv b history s rest) {event : SchedEvent}
    (hlt : created (event :: schedHistory history) < 2 ^ 31)
    (hstep : SchedStep b s event s') : ∃ rest', IpcInv b (.sched event :: history) s' rest' := by
  have hmono : created (schedHistory history) ≤ _ := created_step hstep
  obtain ⟨rest', hinv, hmail⟩ := h.inv.step_mail hstep
  refine ⟨rest', hinv, h.delivered, fun p hp => h.unborn p (hmono.trans_lt hp), ?_⟩
  intro a ha
  rcases hmail a ha with ⟨hold, hpid, hsame⟩ | ⟨hempty, hpid, hcount⟩
  · obtain ⟨q, head, hholds, hsent⟩ := h.queued a hold
    refine ⟨q, head, hholds.of_sameMail hsame, ?_⟩
    rw [hpid]
    exact hsent
  · -- nothing has been sent yet to the pid of a new task
    have hborn : created (schedHistory history) < (s'.sched.task a).pid := by
      rw [hpid, wrap_of_lt (by omega)]
      omega
    have hsent := h.unborn _ hborn
    have hreceived := List.prefix_nil.mp (hsent ▸ h.delivered (s'.sched.task a).pid)
    refine ⟨[], 0, hempty, ?_⟩
    change sentTo _ history = receivedBy _ history ++ []
    rw [hsent, hreceived]
    rfl

/-- Buffers of other tasks, under a change of one task's buffer. -/
theorem Sched.setTask_task_of_ne {s : Sched} {a c : ℕ} {t : Task} (hne : c ≠ a) :
    (s.setTask a t).task c = s.task c :=
  Function.update_of_ne hne _ _

theorem Sched.setTask_task_self {s : Sched} {a : ℕ} {t : Task} : (s.setTask a t).task a = t :=
  Function.update_self _ _ _

theorem IpcInv.send (h : IpcInv b history s rest)
    (hlt : created (schedHistory history) < 2 ^ 31) (hlow : -2 ^ 31 ≤ destPid)
    (hhigh : destPid < 2 ^ 31) (hdest : destPid ≠ 0)
    (hrun : s.sched.sysIpcSend destPid type d1 d2 d3 = some (result, sched')) :
    IpcInv b
      (.send (s.sched.task s.sched.currentTask).pid destPid type d1 d2 d3 result :: history)
      { s with sched := sched' } rest := by
  -- a send that fails changes neither the state nor what has been sent
  have hfail : result ≠ 0 → sched' = s.sched → IpcInv b
      (.send (s.sched.task s.sched.currentTask).pid destPid type d1 d2 d3 result :: history)
      { s with sched := sched' } rest := by
    intro hresult hsched
    have hsentTo : ∀ p, sentTo p
        (.send (s.sched.task s.sched.currentTask).pid destPid type d1 d2 d3 result :: history) =
          sentTo p history := fun p => if_neg fun hsucc => hresult hsucc.2
    subst hsched
    refine ⟨h.inv, fun p => ?_, fun p hp => ?_, fun a ha => ?_⟩
    · rw [hsentTo]
      exact h.delivered p
    · rw [hsentTo]
      exact h.unborn p hp
    · rw [hsentTo]
      exact h.queued a ha
  rcases h.sysIpcSend_eq hlt hlow hhigh hdest type d1 d2 d3 with
    ⟨heq, -⟩ | ⟨a, ha, hpid, q, head, hholds, hsent, ⟨-, heq⟩ | ⟨hroom, heq⟩⟩
  · obtain ⟨rfl, rfl⟩ := Prod.mk.inj (Option.some_inj.mp (heq.symm.trans hrun))
    exact hfail (by decide) rfl
  · obtain ⟨rfl, rfl⟩ := Prod.mk.inj (Option.some_inj.mp (heq.symm.trans hrun))
    exact hfail (by decide) rfl
  · obtain ⟨rfl, rfl⟩ := Prod.mk.inj (Option.some_inj.mp (heq.symm.trans hrun))
    have hself : sentTo (s.sched.task a).pid
        (.send (s.sched.task s.sched.currentTask).pid destPid type d1 d2 d3 0 :: history) =
          sentTo (s.sched.task a).pid history ++
            [⟨(s.sched.task s.sched.currentTask).pid, type, d1, d2, d3⟩] :=
      if_pos ⟨hpid.symm, rfl⟩
    have hother : ∀ p, p ≠ (s.sched.task a).pid → sentTo p
        (.send (s.sched.task s.sched.currentTask).pid destPid type d1 d2 d3 0 :: history) =
          sentTo p history := fun p hp => if_neg fun hsucc =>
      hp (Nat.cast_injective (hsucc.1.symm.trans hpid.symm))
    refine ⟨h.inv.setTask ⟨rfl, rfl, rfl⟩ rfl rfl, fun p => ?_, fun p hp => ?_, fun c hc => ?_⟩
    · by_cases hp : p = (s.sched.task a).pid
      · rw [hp, hself]
        exact (h.delivered _).trans (List.prefix_append _ _)
      · rw [hother p hp]
        exact h.delivered p
    · have hne : p ≠ (s.sched.task a).pid := fun e =>
        absurd (h.pid_le hlt (List.mem_cons_of_mem _ ha)) (e ▸ hp).not_ge
      rw [hother p hne]
      exact h.unborn p hp
    · by_cases hca : c = a
      · subst hca
        refine ⟨q ++ [⟨(s.sched.task s.sched.currentTask).pid, type, d1, d2, d3⟩], head, ?_, ?_⟩
        · rw [Sched.setTask_task_self]
          exact hholds.enqueue hroom _
        · rw [Sched.setTask_task_self]
          change sentTo (s.sched.task c).pid _ = receivedBy (s.sched.task c).pid history ++ _
          rw [hself, hsent, List.append_assoc]
      · have hne : (s.sched.task c).pid ≠ (s.sched.task a).pid := fun e =>
          hca (h.pid_inj hlt (List.mem_cons_of_mem _ hc) (List.mem_cons_of_mem _ ha) e)
        rw [Sched.setTask_task_of_ne hca, hother _ hne]
        exact h.queued c hc

theorem IpcInv.recv (h : IpcInv b history s rest)
    (hlt : created (schedHistory history) < 2 ^ 31)
    (hcaller : s.sched.currentTask ≠ b.rootTask)
    (hrun : s.sched.sysIpcRecv = (result, out, sched')) :
    IpcInv b (.recv (s.sched.task s.sched.currentTask).pid result out :: history)
      { s with sched := sched' } rest := by
  have hcurrent := h.inv.onRing.current_mem
  obtain ⟨q, head, hholds, hsent, ⟨hq, heq⟩ | ⟨m, q', hq, heq⟩⟩ := h.sysIpcRecv_eq hcaller
  · obtain ⟨rfl, rfl, rfl⟩ : -1 = result ∧ none = out ∧ s.sched = sched' := by
      simpa using heq.symm.trans hrun
    have hreceived : ∀ p, receivedBy p
        (.recv (s.sched.task s.sched.currentTask).pid (-1) none :: history) =
          receivedBy p history := fun p => by
      rw [receivedBy, Option.toList_none, List.append_nil, ite_self]
    refine ⟨h.inv, fun p => ?_, h.unborn, fun a ha => ?_⟩
    · rw [hreceived]
      exact h.delivered p
    · rw [hreceived]
      exact h.queued a ha
  · obtain ⟨rfl, rfl, rfl⟩ : 0 = result ∧ some m = out ∧ s.sched.setTask s.sched.currentTask
        (s.sched.task s.sched.currentTask).dequeue = sched' := by
      simpa using heq.symm.trans hrun
    subst hq
    -- Only the caller's queue loses its first message, and only the caller gets one.
    have hself : receivedBy (s.sched.task s.sched.currentTask).pid
        (.recv (s.sched.task s.sched.currentTask).pid 0 (some m) :: history) =
          receivedBy (s.sched.task s.sched.currentTask).pid history ++ [m] := if_pos rfl
    have hother : ∀ p, p ≠ (s.sched.task s.sched.currentTask).pid → receivedBy p
        (.recv (s.sched.task s.sched.currentTask).pid 0 (some m) :: history) =
          receivedBy p history := fun p hp => if_neg hp.symm
    have hsent' : sentTo (s.sched.task s.sched.currentTask).pid history =
        receivedBy (s.sched.task s.sched.currentTask).pid
          (.recv (s.sched.task s.sched.currentTask).pid 0 (some m) :: history) ++ q' := by
      rw [hself, hsent, List.append_assoc]
      rfl
    refine ⟨h.inv.setTask ⟨rfl, rfl, rfl⟩ rfl rfl, fun p => ?_, h.unborn, fun c hc => ?_⟩
    · by_cases hp : p = (s.sched.task s.sched.currentTask).pid
      · rw [hp]
        exact ⟨q', hsent'.symm⟩
      · rw [hother p hp]
        exact h.delivered p
    · by_cases hca : c = s.sched.currentTask
      · subst hca
        refine ⟨q', (head + 1) % msgQueueSize, ?_, ?_⟩
        · rw [Sched.setTask_task_self]
          exact hholds.dequeue.2
        · rw [Sched.setTask_task_self]
          exact hsent'
      -- Pids tell the tasks apart, so another queue counts another pid's messages.
      · have hne : (s.sched.task c).pid ≠ (s.sched.task s.sched.currentTask).pid := fun e =>
          hca (h.pid_inj hlt (List.mem_cons_of_mem _ hc) hcurrent e)
        rw [Sched.setTask_task_of_ne hca, hother _ hne]
        exact h.queued c hc

theorem IpcInv.step (h : IpcInv b history s rest)
    (hlt : created (schedHistory (event :: history)) < 2 ^ 31) (hstep : IpcStep b s event s') :
    ∃ rest', IpcInv b (event :: history) s' rest' := by
  cases hstep with
  | sched hstep => exact h.sched hlt hstep
  | send hcaller hlow hhigh hdest hrun => exact ⟨rest, h.send hlt hlow hhigh hdest hrun⟩
  | recv hcaller hrun => exact ⟨rest, h.recv hlt hcaller hrun⟩

theorem created_schedHistory (hstep : IpcStep b s event s') :
    created (schedHistory history) ≤ created (schedHistory (event :: history)) := by
  cases hstep with
  | sched hstep => exact created_step hstep
  | send => exact Nat.le_refl _
  | recv => exact Nat.le_refl _

/-- The invariant holds in every state of a run whose pids are below `2 ^ 31`. -/
theorem IpcInv.run (run : Reaches (IpcStep b) b.start history s)
    (hlt : created (schedHistory history) < 2 ^ 31) : ∃ rest, IpcInv b history s rest := by
  induction run with
  | start => exact ⟨[], .start b⟩
  | snoc _ hstep ih =>
    obtain ⟨rest, h⟩ := ih ((created_schedHistory hstep).trans_lt hlt)
    exact h.step hlt hstep

/-! ## What senders and receivers can rely on -/

/-- Messages arrive in order and unaltered; results say whether they were taken, and the
indices of a buffer are consistent. -/
structure Reliable (b : Boot) (history : List IpcEvent) (s : SchedState) : Prop where
  delivered : ∀ p, receivedBy p history <+: sentTo p history
  indices : ∀ a ∈ alive b.rootTask (schedHistory history), a ≠ b.rootTask →
    0 ≤ (s.sched.task a).msgCount ∧ (s.sched.task a).msgCount ≤ msgQueueSize ∧
      (s.sched.task a).msgTail =
        ((s.sched.task a).msgHead + (s.sched.task a).msgCount) % msgQueueSize
  send : ∀ destPid type d1 d2 d3, -2 ^ 31 ≤ destPid → destPid < 2 ^ 31 → destPid ≠ 0 →
    ∃ result sched', s.sched.sysIpcSend destPid type d1 d2 d3 = some (result, sched') ∧
      (result = 0 ∨ (result = -1 ∨ result = -2) ∧ sched' = s.sched) ∧
      (result = -1 ↔ ∀ a ∈ alive b.rootTask (schedHistory history),
        ((s.sched.task a).pid : ℤ) ≠ destPid) ∧
      (result = -2 ↔ ∃ a ∈ alive b.rootTask (schedHistory history),
        ((s.sched.task a).pid : ℤ) = destPid ∧
          pendingFor (s.sched.task a).pid history = msgQueueSize)
  recv : s.sched.currentTask ≠ b.rootTask → ∀ result out sched',
    s.sched.sysIpcRecv = (result, out, sched') →
      (result = -1 ∧ out = none ∧ sched' = s.sched ∨ result = 0 ∧ out.isSome) ∧
      (result = -1 ↔ pendingFor (s.sched.task s.sched.currentTask).pid history = 0)

theorem pendingFor_eq {p : ℕ} {q : List Message}
    (hsent : sentTo p history = receivedBy p history ++ q) : pendingFor p history = q.length := by
  rw [pendingFor, hsent, List.length_append, Nat.add_sub_cancel_left]

/-- Every state of a run whose pids are below `2 ^ 31` is reliable. -/
theorem ipc_reliable (run : Reaches (IpcStep b) b.start history s)
    (hlt : created (schedHistory history) < 2 ^ 31) : Reliable b history s := by
  obtain ⟨rest, h⟩ := IpcInv.run run hlt
  have halive : ∀ a, a ∈ alive b.rootTask (schedHistory history) ↔ a ∈ b.rootTask :: rest :=
    fun a => h.inv.alive_perm.mem_iff.symm
  refine ⟨h.delivered, fun a ha hroot => ?_, ?_, fun hcaller result out sched' hrun => ?_⟩
  · have hrest := (List.mem_cons.mp ((halive a).mp ha)).resolve_left hroot
    obtain ⟨q, head, hholds, -⟩ := h.queued a hrest
    rw [hholds.msgCount_eq, hholds.msgTail_eq, hholds.msgHead_eq]
    refine ⟨Int.natCast_nonneg _, Nat.cast_le.mpr hholds.length_le, ?_⟩
    push_cast
    rfl
  · intro destPid type d1 d2 d3 hlow hhigh hdest
    simp only [halive]
    rcases h.sysIpcSend_eq hlt hlow hhigh hdest type d1 d2 d3 with
      ⟨heq, hmissing⟩ | ⟨a, ha, hpid, q, head, hholds, hsent, ⟨hfull, heq⟩ | ⟨hroom, heq⟩⟩
    · refine ⟨_, _, heq, Or.inr ⟨Or.inl rfl, rfl⟩, iff_of_true rfl hmissing, ?_⟩
      exact iff_of_false (by decide) fun ⟨a, ha, hpid, _⟩ => hmissing a ha hpid
    · have hmem := List.mem_cons_of_mem b.rootTask ha
      refine ⟨_, _, heq, Or.inr ⟨Or.inr rfl, rfl⟩, ?_, ?_⟩
      · exact iff_of_false (by decide) fun hmissing => hmissing a hmem hpid
      · exact iff_of_true rfl ⟨a, hmem, hpid, (pendingFor_eq hsent).trans hfull⟩
    · have hmem := List.mem_cons_of_mem b.rootTask ha
      refine ⟨_, _, heq, Or.inl rfl, ?_, ?_⟩
      · exact iff_of_false (by decide) fun hmissing => hmissing a hmem hpid
      · refine iff_of_false (by decide) ?_
        rintro ⟨c, hc, hpidc, hpending⟩
        have hca := h.pid_inj hlt hc hmem (Nat.cast_injective (hpidc.trans hpid.symm))
        rw [hca, pendingFor_eq hsent] at hpending
        exact hroom.ne hpending
  · obtain ⟨q, head, hholds, hsent, ⟨hq, heq⟩ | ⟨m, q', hq, heq⟩⟩ := h.sysIpcRecv_eq hcaller
    · obtain ⟨rfl, rfl, rfl⟩ : -1 = result ∧ none = out ∧ s.sched = sched' := by
        simpa using heq.symm.trans hrun
      refine ⟨Or.inl ⟨rfl, rfl, rfl⟩, iff_of_true rfl ?_⟩
      rw [pendingFor_eq hsent, hq, List.length_nil]
    · obtain ⟨rfl, rfl, -⟩ : 0 = result ∧ some m = out ∧ _ = sched' := by
        simpa using heq.symm.trans hrun
      refine ⟨Or.inr ⟨rfl, rfl⟩, iff_of_false (by decide) ?_⟩
      rw [pendingFor_eq hsent, hq, List.length_cons]
      exact Nat.succ_ne_zero _

/-- The first task sends a message to itself. -/
def sampleSent : SchedState :=
  { sampleTicked with
    sched := ((sampleTicked.sched.sysIpcSend 1 7 10 20 30).getD (0, sampleTicked.sched)).2 }

theorem sampleSent_step : IpcStep sampleBoot sampleTicked (.send 1 1 7 10 20 30 0) sampleSent := by
  have hrun : sampleTicked.sched.sysIpcSend 1 7 10 20 30 = some (0, sampleSent.sched) := rfl
  have hcaller : sampleTicked.sched.currentTask ≠ sampleBoot.rootTask := by decide +kernel
  exact .send hcaller (by decide) (by decide) (by decide) hrun

/-- And a second one. -/
def sampleSentTwice : SchedState :=
  { sampleSent with
    sched := ((sampleSent.sched.sysIpcSend 1 8 40 50 60).getD (0, sampleSent.sched)).2 }

/-- It receives the first. -/
def sampleReceived : SchedState :=
  { sampleSentTwice with sched := sampleSentTwice.sched.sysIpcRecv.2.2 }

/-- What has happened by then. -/
def sampleMessages : List IpcEvent :=
  [.recv 1 0 (some ⟨1, 7, 10, 20, 30⟩), .send 1 1 8 40 50 60 0, .send 1 1 7 10 20 30 0,
    .sched (.schedule 0x1000 0x9000 0x10000 0x20f60 []), .sched (.create 0x10000 0x20f60)]

theorem sampleMessages_run :
    Reaches (IpcStep sampleBoot) sampleBoot.start sampleMessages sampleReceived := by
  have hrun : sampleSent.sched.sysIpcSend 1 8 40 50 60 = some (0, sampleSentTwice.sched) := rfl
  have hsend : IpcStep sampleBoot sampleSent (.send 1 1 8 40 50 60 0) sampleSentTwice :=
    .send (by decide +kernel) (by decide) (by decide) (by decide) hrun
  have hrecv : sampleSentTwice.sched.sysIpcRecv =
      (0, some ⟨1, 7, 10, 20, 30⟩, sampleReceived.sched) :=
    Prod.ext (by decide +kernel) (Prod.ext rfl rfl)
  exact ((((Reaches.start.snoc (.sched sampleCreated_step)).snoc (.sched sampleTicked_step)).snoc
    sampleSent_step).snoc hsend).snoc (.recv (by decide +kernel) hrecv)

/-- The message that was sent first is received, and the other one waits. -/
theorem ipc_reliable_sampleMessages : Reliable sampleBoot sampleMessages sampleReceived ∧
    receivedBy 1 sampleMessages = [⟨1, 7, 10, 20, 30⟩] ∧
    sentTo 1 sampleMessages = [⟨1, 7, 10, 20, 30⟩, ⟨1, 8, 40, 50, 60⟩] :=
  ⟨ipc_reliable sampleMessages_run (by decide), rfl, rfl⟩

end Runs

end OpenIDP.Process
