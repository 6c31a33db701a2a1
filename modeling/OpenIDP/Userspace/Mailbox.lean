import OpenIDP.Process.Ipc

/-!
# Mailboxes

To the programs, the ring buffer in a task struct is a queue: a message goes to its end, or is
refused when there are sixteen, and the oldest message is received. Messages carry the pid of
their sender.

## Main definitions

* `Mailbox` — the messages that wait to be received
* `Mailbox.send`, `Mailbox.recv` — the system calls

## Main results

* `sysIpcSend_mailbox`, `sysIpcRecv_mailbox` — what the kernel does to the buffer of a task
-/

namespace OpenIDP.Userspace

open OpenIDP.Math OpenIDP.Process

/-- The messages that wait to be received, oldest first. -/
abbrev Mailbox := List Message

namespace Mailbox

/-- `sys_ipc_send` to the process with the mailbox `q`. -/
def send (q : Mailbox) (m : Message) : ℤ × Mailbox :=
  if msgQueueSize ≤ q.length then (-2, q) else (0, q ++ [m])

/-- `sys_ipc_recv`: nothing when it fails. -/
def recv : Mailbox → Option (Message × Mailbox)
  | [] => none
  | m :: q => some (m, q)

variable {q q' : Mailbox} {m : Message} {result : ℤ}

theorem send_eq (h : q.send m = (result, q')) :
    result = 0 ∧ q.length < msgQueueSize ∧ q' = q ++ [m] ∨
      result = -2 ∧ msgQueueSize ≤ q.length ∧ q' = q := by
  rw [send] at h
  split_ifs at h with hfull
  · obtain ⟨rfl, rfl⟩ := Prod.mk.inj h
    exact Or.inr ⟨rfl, hfull, rfl⟩
  · obtain ⟨rfl, rfl⟩ := Prod.mk.inj h
    exact Or.inl ⟨rfl, Nat.not_le.mp hfull, rfl⟩

theorem recv_eq (h : q.recv = some (m, q')) : q = m :: q' := by
  cases q with
  | nil => exact absurd h (Option.some_ne_none _).symm
  | cons m' q =>
    obtain ⟨rfl, rfl⟩ := Prod.mk.inj (Option.some_inj.mp h)
    rfl

end Mailbox

section Kernel

variable {s : Sched} {destPid type : ℤ} {d1 d2 d3 target head : ℕ} {q : Mailbox}

/-- In the kernel, sending is `Mailbox.send` on the buffer of the receiving task. -/
theorem sysIpcSend_mailbox (hfound : s.getTaskByPid (toU64 destPid) = some target)
    (hne : target ≠ 0) (hq : (s.task target).Holds q head) :
    ∃ s', s.sysIpcSend destPid type d1 d2 d3 = some
        ((q.send ⟨toInt32 (s.task s.currentTask).pid, type, d1, d2, d3⟩).1, s') ∧
      (s'.task target).Holds
        (q.send ⟨toInt32 (s.task s.currentTask).pid, type, d1, d2, d3⟩).2 head ∧
      ∀ c, c ≠ target → s'.task c = s.task c := by
  rw [Sched.sysIpcSend, hfound]
  simp only [Option.bind_eq_bind, Option.bind_some, if_neg hne, hq.msgCount_eq, Nat.cast_le,
    Mailbox.send]
  split_ifs with hfull
  · exact ⟨s, rfl, hq, fun _ _ => rfl⟩
  · refine ⟨_, rfl, ?_, fun c hc => Sched.setTask_task_of_ne hc⟩
    rw [Sched.setTask_task_self]
    exact hq.enqueue (Nat.not_le.mp hfull) _

/-- In the kernel, receiving is `Mailbox.recv` on the buffer of the current task. -/
theorem sysIpcRecv_mailbox (hq : (s.task s.currentTask).Holds q head) :
    ∃ result s', s.sysIpcRecv = (result, q.recv.map Prod.fst, s') ∧
      (result = 0 ↔ q ≠ []) ∧
      ∃ head', (s'.task s.currentTask).Holds ((q.recv.map Prod.snd).getD []) head' := by
  rw [Sched.sysIpcRecv, hq.msgCount_eq]
  cases q with
  | nil =>
    refine ⟨-1, s, rfl, ⟨fun h => absurd h (by decide), fun h => absurd rfl h⟩, head, hq⟩
  | cons m q =>
    obtain ⟨hfirst, hrest⟩ := hq.dequeue
    rw [if_neg (by rw [List.length_cons]; omega), hfirst]
    refine ⟨0, _, rfl, ⟨fun _ => List.cons_ne_nil _ _, fun _ => rfl⟩,
      (head + 1) % msgQueueSize, ?_⟩
    rw [Sched.setTask_task_self]
    exact hrest

end Kernel

end OpenIDP.Userspace
