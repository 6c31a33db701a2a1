import OpenIDP.Math.Reaches
import OpenIDP.Userspace.Mailbox

/-!
# Keystrokes

The window manager of `src/userspace/idpwm.c` reads key packets and sends each to the focused
terminal; the terminal sends it on to its shell, and `getchar` of the shell receives it. Neither
of the two looks at the result of `sys_ipc_send`, so a key is gone when the next mailbox is full.

The three processes run at arbitrary speeds, and may be interrupted between receiving a key and
sending it on. Other messages, of any process, take places in the mailboxes.

## Main definitions

* `Keyboard`, `KeyStep` — the processes and what they do
* `Keyboard.Kept` — keys arrive in order, and none is lost
* `KeyCareful` — the mailbox a key is sent to has room

## Main results

* `keys_kept_iff` — keys are kept in all states of a run if and only if they are always sent to a
  mailbox with room
-/

namespace OpenIDP.Userspace

open OpenIDP.Math OpenIDP.Process

/-- `MSG_KEY_EVENT` -/
def msgKeyEvent : ℤ := 500

/-- The flag of a key packet for the Alt key. -/
def keyAlt : ℕ := 0x400

/-- The window manager, the focused terminal and its shell. A process that has a key in its hands
is about to send it on. The packets read and consumed are kept. -/
structure Keyboard where
  wmKey : Option ℕ
  termQueue : Mailbox
  termKey : Option ℕ
  shellQueue : Mailbox
  read : List ℕ
  consumed : List ℕ

/-- No key has been read. -/
def Keyboard.start : Keyboard := ⟨none, [], none, [], [], []⟩

/-- What happened in a step. -/
inductive KeyEvent
  | readKey (packet : ℕ)
  | wmSend (result : ℤ)
  | termRecv
  | termSend (result : ℤ)
  | shellRecv
  | noise

/-- One step. `wm` and `term` are the pids of the window manager and the terminal. -/
inductive KeyStep (wm term : ℤ) : Keyboard → KeyEvent → Keyboard → Prop
  /-- `sys_read_key` -/
  | readKey {k : Keyboard} {packet : ℕ} (hkey : k.wmKey = none) (hpos : 0 < packet)
      (hlt : packet < 2 ^ 16) (halt : packet &&& keyAlt = 0) :
      KeyStep wm term k (.readKey packet)
        { k with wmKey := some packet, read := k.read ++ [packet] }
  /-- the end of `wm_handle_input` -/
  | wmSend {k : Keyboard} {packet : ℕ} {result : ℤ} {queue : Mailbox}
      (hkey : k.wmKey = some packet)
      (h : k.termQueue.send ⟨wm, msgKeyEvent, packet, 0, 0⟩ = (result, queue)) :
      KeyStep wm term k (.wmSend result) { k with wmKey := none, termQueue := queue }
  /-- the terminal receives a message -/
  | termRecv {k : Keyboard} {m : Message} {queue : Mailbox} (hkey : k.termKey = none)
      (h : k.termQueue.recv = some (m, queue)) :
      KeyStep wm term k .termRecv
        { k with
          termQueue := queue
          termKey := if m.type = msgKeyEvent then some m.data1 else none }
  /-- the case of the terminal for `MSG_KEY_EVENT` -/
  | termSend {k : Keyboard} {packet : ℕ} {result : ℤ} {queue : Mailbox}
      (hkey : k.termKey = some packet)
      (h : k.shellQueue.send ⟨term, msgKeyEvent, packet, 0, 0⟩ = (result, queue)) :
      KeyStep wm term k (.termSend result) { k with termKey := none, shellQueue := queue }
  /-- a round of `getchar` -/
  | shellRecv {k : Keyboard} {m : Message} {queue : Mailbox}
      (h : k.shellQueue.recv = some (m, queue)) :
      KeyStep wm term k .shellRecv
        { k with
          shellQueue := queue
          consumed := k.consumed ++
            if m.type = msgKeyEvent ∧ m.senderPid = term then [m.data1] else [] }
  /-- a message to the terminal that is not a key -/
  | termNoise {k : Keyboard} {m : Message} {result : ℤ} {queue : Mailbox}
      (hm : m.type ≠ msgKeyEvent) (h : k.termQueue.send m = (result, queue)) :
      KeyStep wm term k .noise { k with termQueue := queue }
  /-- a message to the shell that is not a key -/
  | shellNoise {k : Keyboard} {m : Message} {result : ℤ} {queue : Mailbox}
      (hm : m.type ≠ msgKeyEvent) (h : k.shellQueue.send m = (result, queue)) :
      KeyStep wm term k .noise { k with shellQueue := queue }

/-- The keys in a mailbox. -/
def keysIn (q : Mailbox) : List ℕ := (q.filter fun m => m.type = msgKeyEvent).map Message.data1

/-- The keys on their way, those that were read first in front. -/
def Keyboard.waiting (k : Keyboard) : List ℕ :=
  keysIn k.shellQueue ++ k.termKey.toList ++ keysIn k.termQueue ++ k.wmKey.toList

/-- The packets that the shell has consumed are in order a prefix of those that were read. A packet
that was read and not consumed is in one of the mailboxes, or just being sent on. -/
structure Keyboard.Kept (k : Keyboard) : Prop where
  consumed_in_order : k.consumed <+: k.read
  waiting_eq : k.read = k.consumed ++ k.waiting

/-- A key is sent to a mailbox with room. -/
def KeyCareful (t : Transition Keyboard KeyEvent) : Prop :=
  match t.label with
  | .wmSend _ => t.before.termQueue.length < msgQueueSize
  | .termSend _ => t.before.shellQueue.length < msgQueueSize
  | _ => True

section Runs

variable {wm term : ℤ} {k k' : Keyboard} {e : KeyEvent} {q : Mailbox} {m : Message}

theorem keysIn_append (q q' : Mailbox) : keysIn (q ++ q') = keysIn q ++ keysIn q' := by
  rw [keysIn, List.filter_append, List.map_append, keysIn, keysIn]

theorem keysIn_cons : keysIn (m :: q) =
    (if m.type = msgKeyEvent then [m.data1] else []) ++ keysIn q := by
  rw [keysIn, keysIn]
  by_cases hm : m.type = msgKeyEvent
  · simp [hm]
  · simp [hm]

theorem keysIn_singleton : keysIn [m] = if m.type = msgKeyEvent then [m.data1] else [] := by
  rw [keysIn_cons, keysIn, List.filter_nil, List.map_nil, List.append_nil]

/-- The keys that the shell receives come from its terminal. -/
def Keyboard.Signed (term : ℤ) (k : Keyboard) : Prop :=
  ∀ m ∈ k.shellQueue, m.type = msgKeyEvent → m.senderPid = term

theorem Keyboard.Signed.step (h : k.Signed term) (hstep : KeyStep wm term k e k') :
    k'.Signed term := by
  cases hstep with
  | readKey => exact h
  | wmSend => exact h
  | termRecv => exact h
  | termSend hkey hsend =>
    rcases Mailbox.send_eq hsend with ⟨-, -, rfl⟩ | ⟨-, -, rfl⟩
    · intro m hm htype
      rcases List.mem_append.mp hm with hm | hm
      · exact h m hm htype
      · rw [List.mem_singleton.mp hm]
    · exact h
  | shellRecv hrecv =>
    intro m hm
    exact h m (by rw [Mailbox.recv_eq hrecv]; exact List.mem_cons_of_mem _ hm)
  | termNoise => exact h
  | shellNoise hnoise hsend =>
    rcases Mailbox.send_eq hsend with ⟨-, -, rfl⟩ | ⟨-, -, rfl⟩
    · intro m hm htype
      rcases List.mem_append.mp hm with hm | hm
      · exact h m hm htype
      · exact absurd (List.mem_singleton.mp hm ▸ htype) hnoise
    · exact h

/-- What a step does to the keys: a key is read, one is consumed, or one is lost. -/
theorem KeyStep.keys (hsigned : k.Signed term) (hstep : KeyStep wm term k e k') :
    KeyCareful ⟨k, e, k'⟩ ∧ (∃ new, k'.read = k.read ++ new ∧
        k'.consumed ++ k'.waiting = k.consumed ++ k.waiting ++ new) ∨
      ¬ KeyCareful ⟨k, e, k'⟩ ∧ k'.read = k.read ∧
        (k'.consumed ++ k'.waiting).length + 1 = (k.consumed ++ k.waiting).length := by
  cases hstep with
  | @readKey packet hkey =>
    refine Or.inl ⟨trivial, [packet], rfl, ?_⟩
    simp [Keyboard.waiting, hkey]
  | @wmSend packet result queue hkey hsend =>
    rcases Mailbox.send_eq hsend with ⟨-, hroom, rfl⟩ | ⟨-, hfull, rfl⟩
    · refine Or.inl ⟨hroom, [], (List.append_nil _).symm, ?_⟩
      simp [Keyboard.waiting, hkey, keysIn_append, keysIn_singleton]
    · refine Or.inr ⟨Nat.not_lt.mpr hfull, rfl, ?_⟩
      simp [Keyboard.waiting, hkey]
      omega
  | @termRecv m queue hkey hrecv =>
    refine Or.inl ⟨trivial, [], (List.append_nil _).symm, ?_⟩
    have hqueue := Mailbox.recv_eq hrecv
    by_cases hm : m.type = msgKeyEvent
    · simp [Keyboard.waiting, hkey, hqueue, keysIn_cons, hm]
    · simp [Keyboard.waiting, hkey, hqueue, keysIn_cons, hm]
  | @termSend packet result queue hkey hsend =>
    rcases Mailbox.send_eq hsend with ⟨-, hroom, rfl⟩ | ⟨-, hfull, rfl⟩
    · refine Or.inl ⟨hroom, [], (List.append_nil _).symm, ?_⟩
      simp [Keyboard.waiting, hkey, keysIn_append, keysIn_singleton]
    · refine Or.inr ⟨Nat.not_lt.mpr hfull, rfl, ?_⟩
      simp [Keyboard.waiting, hkey]
      omega
  | @shellRecv m queue hrecv =>
    refine Or.inl ⟨trivial, [], (List.append_nil _).symm, ?_⟩
    have hqueue := Mailbox.recv_eq hrecv
    have hterm : m.type = msgKeyEvent → m.senderPid = term := hsigned m (by
      rw [hqueue]
      exact List.mem_cons_self)
    by_cases hm : m.type = msgKeyEvent
    · simp [Keyboard.waiting, hqueue, keysIn_cons, hm, hterm hm]
    · simp [Keyboard.waiting, hqueue, keysIn_cons, hm]
  | @termNoise m result queue hm hsend =>
    refine Or.inl ⟨trivial, [], (List.append_nil _).symm, ?_⟩
    rcases Mailbox.send_eq hsend with ⟨-, -, rfl⟩ | ⟨-, -, rfl⟩
    · simp [Keyboard.waiting, keysIn_append, keysIn_singleton, hm]
    · simp [Keyboard.waiting]
  | @shellNoise m result queue hm hsend =>
    refine Or.inl ⟨trivial, [], (List.append_nil _).symm, ?_⟩
    rcases Mailbox.send_eq hsend with ⟨-, -, rfl⟩ | ⟨-, -, rfl⟩
    · simp [Keyboard.waiting, keysIn_append, keysIn_singleton, hm]
    · simp [Keyboard.waiting]

theorem Keyboard.kept_iff : k.Kept ↔ k.read = k.consumed ++ k.waiting :=
  ⟨fun h => h.waiting_eq, fun h => ⟨⟨k.waiting, h.symm⟩, h⟩⟩

/-- In a run whose steps are careful, all keys are kept. -/
theorem KeyStep.kept_run {trace : List (Transition Keyboard KeyEvent)}
    (run : Reaches (Traced (KeyStep wm term)) Keyboard.start trace k)
    (hcareful : ∀ t ∈ trace, KeyCareful t) : k.Signed term ∧ k.Kept := by
  induction run with
  | start => exact ⟨fun m hm => absurd hm List.not_mem_nil, Keyboard.kept_iff.mpr rfl⟩
  | snoc _ hlast ih =>
    obtain ⟨hfirst, hrest⟩ := List.forall_mem_cons.mp hcareful
    obtain ⟨hsigned, hkept⟩ := ih hrest
    obtain ⟨rfl, rfl, hstep⟩ := hlast
    refine ⟨hsigned.step hstep, Keyboard.kept_iff.mpr ?_⟩
    rcases hstep.keys hsigned with ⟨-, new, hread, hall⟩ | ⟨hnot, -⟩
    · rw [hread, hkept.waiting_eq, hall]
    · exact absurd hfirst hnot

/-- Keys are kept in every state of a run if and only if each was sent to a mailbox with room. -/
theorem keys_kept_iff {trace : List (Transition Keyboard KeyEvent)}
    (run : Reaches (Traced (KeyStep wm term)) Keyboard.start trace k) :
    (∀ t ∈ trace, t.after.Kept) ↔ ∀ t ∈ trace, KeyCareful t := by
  refine run.forall_iff fun trace s t s' hrun hcareful hlast => ?_
  obtain ⟨hsigned, hkept⟩ := KeyStep.kept_run hrun hcareful
  obtain ⟨rfl, rfl, hstep⟩ := hlast
  rw [Keyboard.kept_iff]
  rcases hstep.keys hsigned with ⟨hyes, new, hread, hall⟩ | ⟨hnot, hread, hlength⟩
  · refine iff_of_true ?_ hyes
    rw [hread, hkept.waiting_eq, hall]
  · refine iff_of_false (fun h => ?_) hnot
    have hcount := congrArg List.length h
    rw [hread, hkept.waiting_eq] at hcount
    omega

/-- The same key was read some times, and the terminal has not received any. -/
def typed (n : ℕ) : Keyboard :=
  ⟨none, List.replicate n ⟨1, msgKeyEvent, 97, 0, 0⟩, none, [], List.replicate n 97, []⟩

theorem typed_reached {n : ℕ} (hn : n ≤ msgQueueSize) :
    ∃ trace, Reaches (Traced (KeyStep 1 2)) Keyboard.start trace (typed n) := by
  induction n with
  | zero => exact ⟨[], .start⟩
  | succ n ih =>
    obtain ⟨trace, run⟩ := ih ((Nat.le_succ n).trans hn)
    have hread : KeyStep 1 2 (typed n) (.readKey 97) _ :=
      .readKey rfl (by decide) (by decide) (by decide)
    have hroom : (typed n).termQueue.send ⟨1, msgKeyEvent, 97, 0, 0⟩ =
        (0, (typed (n + 1)).termQueue) := by
      rw [Mailbox.send, if_neg]
      · rw [typed, typed, List.replicate_succ']
      · rw [typed, List.length_replicate]
        exact Nat.not_le.mpr hn
    have hpackets : (typed n).read ++ [97] = (typed (n + 1)).read :=
      List.replicate_succ'.symm
    rw [hpackets] at hread
    have hsend : KeyStep 1 2 { typed n with wmKey := some 97, read := (typed (n + 1)).read }
      (.wmSend 0) (typed (n + 1)) := .wmSend rfl hroom
    exact ⟨_, (run.next hread).next hsend⟩

/-- Two keys are read, and the first comes to the shell. -/
theorem keys_kept_iff_typed : ∃ trace k, Reaches (Traced (KeyStep 1 2)) Keyboard.start trace k ∧
    k.read = [97, 98] ∧ k.consumed = [97] ∧ k.waiting = [98] ∧ ∀ t ∈ trace, t.after.Kept := by
  have hread : KeyStep 1 2 Keyboard.start (.readKey 97) _ :=
    .readKey rfl (by decide) (by decide) (by decide)
  have run := (((((((Reaches.start.next hread).next (.wmSend rfl rfl)).next
    (.readKey rfl (by decide : 0 < 98) (by decide) (by decide))).next
    (.wmSend rfl rfl)).next (.termRecv rfl rfl)).next (.termSend rfl rfl)).next (.shellRecv rfl))
  refine ⟨_, _, run, rfl, rfl, rfl, (keys_kept_iff run).mpr ?_⟩
  simp only [List.forall_mem_cons]
  have hempty : 0 < msgQueueSize := by decide
  have hone : 1 < msgQueueSize := by decide
  exact ⟨trivial, hempty, trivial, hone, trivial, hempty, trivial, List.forall_mem_nil _⟩

/-- Seventeen keys are read while the terminal receives none: the last is gone. -/
theorem key_lost : ∃ trace k, Reaches (Traced (KeyStep 1 2)) Keyboard.start trace k ∧ ¬ k.Kept := by
  obtain ⟨trace, run⟩ := typed_reached le_rfl
  have hread : KeyStep 1 2 (typed msgQueueSize) (.readKey 97) _ :=
    .readKey rfl (by decide) (by decide) (by decide)
  have hlost : KeyStep 1 2 { typed msgQueueSize with
      wmKey := some 97
      read := (typed msgQueueSize).read ++ [97] } (.wmSend (-2)) _ := .wmSend rfl rfl
  refine ⟨_, _, (run.next hread).next hlost, fun h => ?_⟩
  exact absurd h.waiting_eq (by decide)

end Runs

end OpenIDP.Userspace
