import OpenIDP.Math.Bytes
import OpenIDP.Math.Reaches
import OpenIDP.Userspace.Mailbox

/-!
# Standard output

`src/userspace/libc/stdio.c` collects bytes in a buffer of 24. When it is full, at the end of a
line, and when asked to, the program sends it to its terminal as three words, and tries again
until the message is accepted. The terminal of `src/userspace/terminal/main.c` unpacks the words
into a string and writes it.

A byte of a batch that is not used is zero, which ends the string. So bytes arrive as long as
none of them is zero.

## Main definitions

* `Stdio` — the buffer of a program, with `Stdio.putchar` and `Stdio.fflushInternal`
* `printfBytes` — what `printf` writes
* `batchBytes` — what the terminal writes for a message
* `Console`, `ConsoleStep` — a program and its terminal

## Main results

* `batchBytes_packs` — packing a batch and unpacking it
* `ConsoleInv.step` — what is written is shown, queued, packed or in the buffer
* `stdout_in_order` — the output arrives in order, and all of it after the last flush
-/

namespace OpenIDP.Userspace

open OpenIDP.Math OpenIDP.Process

/-- `BATCH_SIZE` -/
def batchSize : ℕ := 24

/-- `MSG_STDOUT_BATCH` -/
def msgStdoutBatch : ℤ := 601

/-- The buffer of a program. Between two calls of `sys_ipc_send` for it, `packs` are the words
that are being sent. -/
structure Stdio where
  outBuf : ℕ → BitVec 8
  bufIdx : ℕ
  packs : Option (ℕ × ℕ × ℕ)

/-- Reads eight bytes of the buffer as a word. -/
def packWord (outBuf : ℕ → BitVec 8) (i : ℕ) : ℕ :=
  littleEndian ((List.range 8).map fun r => outBuf (8 * i + r))

namespace Stdio

/-- The buffer at the start of a program. -/
def init : Stdio := ⟨fun _ => 0, 0, none⟩

/-- `fflush_internal`, up to the loop that sends the words. -/
def fflushInternal (terminalPid : ℤ) (p : Stdio) : Stdio :=
  if p.bufIdx = 0 then p
  else if terminalPid = -1 then p
  else
    let outBuf := fun i => if p.bufIdx ≤ i ∧ i < batchSize then 0 else p.outBuf i
    { p with
      outBuf := outBuf
      packs := some (packWord outBuf 0, packWord outBuf 1, packWord outBuf 2) }

/-- The rest of `fflush_internal`, after a call of `sys_ipc_send` that succeeded. -/
def sent (p : Stdio) : Stdio where
  outBuf i := if i < batchSize then 0 else p.outBuf i
  bufIdx := 0
  packs := none

/-- `putchar` -/
def putchar (terminalPid : ℤ) (c : BitVec 8) (p : Stdio) : Stdio :=
  let p₁ := { p with outBuf := Function.update p.outBuf p.bufIdx c, bufIdx := p.bufIdx + 1 }
  if batchSize ≤ p₁.bufIdx ∨ c = 10#8 then p₁.fflushInternal terminalPid else p₁

end Stdio

/-- The bytes that `printf` writes. An argument is looked at when it belongs to a `%s`. There is
no result when the format ends in `%`, as then the function reads on behind it. -/
def printfBytes : List (BitVec 8) → List (List (BitVec 8)) → Option (List (BitVec 8))
  | [], _ => some []
  | c :: fmt, args =>
    if c = 37#8 then
      match fmt with
      | [] => none
      | d :: fmt =>
        if d = 115#8 then
          match args with
          | [] => none
          | s :: args => (printfBytes fmt args).map (s ++ ·)
        else
          printfBytes fmt args
    else
      (printfBytes fmt args).map (c :: ·)

/-- The string in a buffer. -/
def cString (bytes : List (BitVec 8)) : List (BitVec 8) := bytes.takeWhile (· ≠ 0)

/-- What the terminal passes to `term_write` for a message with a batch. -/
def batchBytes (m : Message) : List (BitVec 8) :=
  cString (wordToBytes m.data1 ++ wordToBytes m.data2 ++ wordToBytes m.data3)

theorem packWord_bytes (f : ℕ → BitVec 8) (i : ℕ) :
    wordToBytes (packWord f i) = (List.range 8).map fun r => f (8 * i + r) :=
  wordToBytes_littleEndian (by rw [List.length_map, List.length_range])

/-- Packing a batch and unpacking it. -/
theorem batchBytes_packs {f : ℕ → BitVec 8} {n : ℕ} (hn : n ≤ batchSize)
    (hbytes : ∀ i < n, f i ≠ 0) (hzero : ∀ i, n ≤ i → i < batchSize → f i = 0)
    (senderPid type : ℤ) :
    batchBytes ⟨senderPid, type, packWord f 0, packWord f 1, packWord f 2⟩ =
      (List.range n).map f := by
  have hall : wordToBytes (packWord f 0) ++ wordToBytes (packWord f 1) ++
      wordToBytes (packWord f 2) = (List.range batchSize).map f := by
    rw [packWord_bytes, packWord_bytes, packWord_bytes]
    rfl
  obtain ⟨rest, hrest⟩ := Nat.exists_eq_add_of_le hn
  rw [batchBytes, hall, cString, hrest, List.range_add, List.map_append,
    List.takeWhile_append_of_pos]
  · have hnone : (List.map f (List.map (n + ·) (List.range rest))).takeWhile (· ≠ 0) = [] := by
      cases rest with
      | zero => rfl
      | succ rest =>
        rw [List.range_succ_eq_map, List.map_cons, List.map_cons, List.takeWhile_cons]
        have hfirst : f n = 0#8 := hzero n le_rfl (by omega)
        simp [hfirst]
    rw [hnone, List.append_nil]
  · intro b hb
    obtain ⟨i, hi, rfl⟩ := List.mem_map.mp hb
    exact decide_eq_true (hbytes i (List.mem_range.mp hi))

/-! ## A program and its terminal -/

/-- The pids of a program and of its terminal. -/
structure Session where
  me : ℤ
  terminalPid : ℤ
  handshake : terminalPid ≠ -1

/-- What a program calls. -/
inductive StdioCall
  | putchar (c : BitVec 8)
  | fflush

/-- A program and its terminal. `todo` is what is left of a call of `printf`, and `flushed` says
that the last call that returned was one of `fflush`. The bytes written and shown are kept. -/
structure Console where
  program : Stdio
  todo : List StdioCall
  queue : Mailbox
  flushed : Bool
  written : List (BitVec 8)
  shown : List (BitVec 8)

/-- The state after the handshake. -/
def Console.start : Console := ⟨Stdio.init, [], [], false, [], []⟩

/-- The message that carries a batch. -/
def Session.batch (s : Session) (packs : ℕ × ℕ × ℕ) : Message :=
  ⟨s.me, msgStdoutBatch, packs.1, packs.2.1, packs.2.2⟩

/-- The message carries a batch of the program. -/
def Session.IsMine (s : Session) (m : Message) : Prop :=
  m.senderPid = s.me ∧ m.type = msgStdoutBatch

instance (s : Session) (m : Message) : Decidable (s.IsMine m) :=
  inferInstanceAs (Decidable (_ ∧ _))

/-- What is written for the batches of the program in a list of messages. -/
def Session.bytesOf (s : Session) (q : List Message) : List (BitVec 8) :=
  (q.filter fun m => s.IsMine m).flatMap batchBytes

/-- One step: the program begins or goes on with a call or tries to send, another process sends
a message to the terminal, or the terminal receives one. -/
inductive ConsoleStep (s : Session) : Console → Unit → Console → Prop
  | printf {c : Console} {fmt : List (BitVec 8)} {args : List (List (BitVec 8))}
      {bytes : List (BitVec 8)} (hidle : c.todo = [] ∧ c.program.packs = none)
      (hfmt : ∀ b ∈ fmt, b ≠ 0) (hargs : ∀ arg ∈ args, ∀ b ∈ arg, b ≠ 0)
      (h : printfBytes fmt args = some bytes) :
      ConsoleStep s c () { c with todo := bytes.map .putchar }
  | call {c : Console} {f : StdioCall} (hidle : c.todo = [] ∧ c.program.packs = none)
      (hf : ∀ b, f = .putchar b → b ≠ 0) : ConsoleStep s c () { c with todo := [f] }
  | putchar {c : Console} {b : BitVec 8} {todo : List StdioCall}
      (htodo : c.todo = .putchar b :: todo) (hpacks : c.program.packs = none) :
      ConsoleStep s c ()
        { c with
          program := c.program.putchar s.terminalPid b
          todo := todo
          flushed := false
          written := c.written ++ [b] }
  | fflush {c : Console} {todo : List StdioCall}
      (htodo : c.todo = .fflush :: todo) (hpacks : c.program.packs = none) :
      ConsoleStep s c ()
        { c with program := c.program.fflushInternal s.terminalPid, todo := todo, flushed := true }
  | send {c : Console} {packs : ℕ × ℕ × ℕ} {result : ℤ} {queue : Mailbox}
      (hpacks : c.program.packs = some packs)
      (h : c.queue.send (s.batch packs) = (result, queue)) :
      ConsoleStep s c ()
        { c with program := if result = 0 then c.program.sent else c.program, queue := queue }
  | other {c : Console} {m : Message} {result : ℤ} {queue : Mailbox} (hm : m.senderPid ≠ s.me)
      (h : c.queue.send m = (result, queue)) : ConsoleStep s c () { c with queue := queue }
  | recv {c : Console} {m : Message} {queue : Mailbox} (h : c.queue.recv = some (m, queue)) :
      ConsoleStep s c ()
        { c with
          queue := queue
          shown := c.shown ++ if s.IsMine m then batchBytes m else [] }

/-! ## What holds in every state -/

section Invariant

variable {s : Session} {c c' : Console} {p : Stdio} {b : BitVec 8}

/-- The bytes in the buffer. -/
def Stdio.held (p : Stdio) : List (BitVec 8) := (List.range p.bufIdx).map p.outBuf

/-- The buffer holds bytes that are not zero, and has room for one more unless it is being sent;
then the words are what the buffer holds. -/
structure Stdio.Sound (s : Session) (p : Stdio) : Prop where
  bytes_ne : ∀ i < p.bufIdx, p.outBuf i ≠ 0
  room : p.packs = none → p.bufIdx < batchSize
  packed : ∀ packs, p.packs = some packs → batchBytes (s.batch packs) = p.held

theorem Stdio.Sound.init : Stdio.init.Sound s :=
  ⟨fun i hi => absurd hi (Nat.not_lt_zero i), fun _ => by decide,
    fun packs hpacks => absurd hpacks (Option.some_ne_none packs).symm⟩

/-- Beginning to send keeps the bytes in the buffer. -/
theorem Stdio.fflushInternal_sound (hbytes : ∀ i < p.bufIdx, p.outBuf i ≠ 0)
    (hidx : p.bufIdx ≤ batchSize) (hpacks : p.packs = none) :
    (p.fflushInternal s.terminalPid).Sound s ∧
      (p.fflushInternal s.terminalPid).held = p.held ∧
      ((p.fflushInternal s.terminalPid).packs = none →
        (p.fflushInternal s.terminalPid).bufIdx = 0) := by
  rw [Stdio.fflushInternal]
  split_ifs with hempty hpid
  · refine ⟨⟨hbytes, fun _ => ?_, fun packs h => ?_⟩, rfl, fun _ => hempty⟩
    · rw [hempty]
      decide
    · rw [hpacks] at h
      exact absurd h (Option.some_ne_none packs).symm
  · exact absurd hpid s.handshake
  · obtain ⟨f, hf⟩ : ∃ f : ℕ → BitVec 8, f =
      fun i => if p.bufIdx ≤ i ∧ i < batchSize then 0 else p.outBuf i := ⟨_, rfl⟩
    have hkept : ∀ i < p.bufIdx, f i = p.outBuf i := fun i hi => by
      rw [hf]
      exact if_neg fun h => absurd h.1 (Nat.not_le.mpr hi)
    have hsame : (List.range p.bufIdx).map f = p.held :=
      List.map_congr_left fun i hi => hkept i (List.mem_range.mp hi)
    dsimp only
    rw [← hf]
    refine ⟨⟨fun i hi => ?_, fun h => (nomatch h), fun packs h => ?_⟩, hsame,
      fun h => (nomatch h)⟩
    · change f i ≠ 0
      rw [hkept i hi]
      exact hbytes i hi
    · obtain rfl := Option.some_inj.mp h
      rw [Session.batch, Stdio.held]
      refine batchBytes_packs hidx (fun i hi => ?_) (fun i hle hlt => ?_) _ _
      · rw [hkept i hi]
        exact hbytes i hi
      · rw [hf]
        exact if_pos ⟨hle, hlt⟩

/-- `putchar` puts a byte behind the others. -/
theorem Stdio.Sound.putchar (h : p.Sound s) (hpacks : p.packs = none) (hb : b ≠ 0) :
    (p.putchar s.terminalPid b).Sound s ∧ (p.putchar s.terminalPid b).held = p.held ++ [b] := by
  have hroom := h.room hpacks
  obtain ⟨p₁, hp₁⟩ : ∃ p₁ : Stdio, p₁ =
    { p with outBuf := Function.update p.outBuf p.bufIdx b, bufIdx := p.bufIdx + 1 } := ⟨_, rfl⟩
  have hidx : p₁.bufIdx = p.bufIdx + 1 := by rw [hp₁]
  have hpacks₁ : p₁.packs = none := by rw [hp₁]; exact hpacks
  have hold : ∀ i < p.bufIdx, p₁.outBuf i = p.outBuf i := fun i hi => by
    rw [hp₁]
    exact Function.update_of_ne hi.ne _ _
  have hnew : p₁.outBuf p.bufIdx = b := by
    rw [hp₁]
    exact Function.update_self _ _ _
  have hbytes : ∀ i < p₁.bufIdx, p₁.outBuf i ≠ 0 := fun i hi => by
    rw [hidx] at hi
    rcases Nat.lt_succ_iff_lt_or_eq.mp hi with hi | rfl
    · rw [hold i hi]
      exact h.bytes_ne i hi
    · rw [hnew]
      exact hb
  have hheld : p₁.held = p.held ++ [b] := by
    rw [Stdio.held, hidx, List.range_succ, List.map_append, List.map_singleton, hnew, Stdio.held]
    exact congrArg (· ++ [b]) (List.map_congr_left fun i hi => hold i (List.mem_range.mp hi))
  rw [Stdio.putchar, ← hp₁]
  split_ifs with hfull
  · obtain ⟨hsound, hsame, -⟩ :=
      Stdio.fflushInternal_sound (s := s) hbytes (hidx ▸ hroom) hpacks₁
    exact ⟨hsound, hsame.trans hheld⟩
  · refine ⟨⟨hbytes, fun _ => Nat.not_le.mp fun hle => hfull (Or.inl hle), fun packs hp => ?_⟩,
      hheld⟩
    rw [hpacks₁] at hp
    exact absurd hp (Option.some_ne_none packs).symm

theorem Stdio.Sound.sent : p.sent.Sound s ∧ p.sent.held = [] :=
  ⟨⟨fun i hi => absurd hi (Nat.not_lt_zero i), fun _ => (by decide : 0 < batchSize),
    fun packs h => absurd h (Option.some_ne_none packs).symm⟩, rfl⟩

/-- What was written is shown, waits in the queue or is in the buffer, in this order. -/
structure ConsoleInv (s : Session) (c : Console) : Prop where
  sound : c.program.Sound s
  todo_ne : ∀ b, .putchar b ∈ c.todo → b ≠ 0
  written_eq : c.written = c.shown ++ s.bytesOf c.queue ++ c.program.held
  flushed : c.flushed = true → c.program.packs = none → c.program.bufIdx = 0

theorem Session.bytesOf_append (q q' : List Message) :
    s.bytesOf (q ++ q') = s.bytesOf q ++ s.bytesOf q' := by
  rw [bytesOf, List.filter_append, List.flatMap_append, bytesOf, bytesOf]

theorem Session.bytesOf_singleton (m : Message) :
    s.bytesOf [m] = if s.IsMine m then batchBytes m else [] := by
  rw [bytesOf]
  by_cases hm : s.IsMine m
  · simp [hm]
  · simp [hm]

/-- The bytes that `printf` writes are those of its format and its arguments. -/
theorem printfBytes_ne {fmt bytes : List (BitVec 8)} {args : List (List (BitVec 8))}
    (hfmt : ∀ b ∈ fmt, b ≠ 0) (hargs : ∀ arg ∈ args, ∀ b ∈ arg, b ≠ 0)
    (h : printfBytes fmt args = some bytes) : ∀ b ∈ bytes, b ≠ 0 := by
  fun_induction printfBytes fmt args generalizing bytes with
  | case1 =>
    obtain rfl := Option.some_inj.mp h
    exact fun b hb => absurd hb List.not_mem_nil
  | case2 => exact absurd h (Option.some_ne_none bytes).symm
  | case3 => exact absurd h (Option.some_ne_none bytes).symm
  | case4 fmt arg args ih =>
    obtain ⟨rest, hrest, rfl⟩ := Option.map_eq_some_iff.mp h
    have hlater := ih (fun b hb => hfmt b (List.mem_cons_of_mem _ (List.mem_cons_of_mem _ hb)))
      (fun arg' harg' => hargs arg' (List.mem_cons_of_mem _ harg')) hrest
    intro b hb
    rcases List.mem_append.mp hb with hb | hb
    · exact hargs arg List.mem_cons_self b hb
    · exact hlater b hb
  | case5 args d fmt _ ih =>
    exact ih (fun b hb => hfmt b (List.mem_cons_of_mem _ (List.mem_cons_of_mem _ hb))) hargs h
  | case6 d fmt args _ ih =>
    obtain ⟨rest, hrest, rfl⟩ := Option.map_eq_some_iff.mp h
    intro b hb
    rcases List.mem_cons.mp hb with rfl | hb
    · exact hfmt b List.mem_cons_self
    · exact ih (fun b hb => hfmt b (List.mem_cons_of_mem _ hb)) hargs hrest b hb

theorem ConsoleInv.start : ConsoleInv s Console.start :=
  ⟨Stdio.Sound.init, fun _ hb => absurd hb List.not_mem_nil, rfl,
    fun h => absurd h Bool.false_ne_true⟩

/-- Every step keeps what was written in its order. -/
theorem ConsoleInv.step (h : ConsoleInv s c) (hstep : ConsoleStep s c () c') :
    ConsoleInv s c' := by
  cases hstep with
  | @printf fmt args bytes _ hfmt hargs hbytes =>
    refine ⟨h.sound, fun b hb => ?_, h.written_eq, h.flushed⟩
    obtain ⟨b', hb', heq⟩ := List.mem_map.mp hb
    obtain rfl := StdioCall.putchar.inj heq
    exact printfBytes_ne hfmt hargs hbytes b' hb'
  | call _ hf =>
    refine ⟨h.sound, fun b hb => ?_, h.written_eq, h.flushed⟩
    exact hf b (List.mem_singleton.mp hb).symm
  | @putchar b todo htodo hpacks =>
    have hb : b ≠ 0 := h.todo_ne b (by rw [htodo]; exact List.mem_cons_self)
    obtain ⟨hsound, hheld⟩ := h.sound.putchar hpacks hb
    refine ⟨hsound, fun b' hb' => h.todo_ne b' ?_, ?_, fun hf => absurd hf Bool.false_ne_true⟩
    · rw [htodo]
      exact List.mem_cons_of_mem _ hb'
    · rw [hheld, h.written_eq, List.append_assoc]
  | @fflush todo htodo hpacks =>
    obtain ⟨hsound, hheld, hempty⟩ := Stdio.fflushInternal_sound (s := s) h.sound.bytes_ne
      (h.sound.room hpacks).le hpacks
    refine ⟨hsound, fun b' hb' => h.todo_ne b' ?_, ?_, fun _ => hempty⟩
    · rw [htodo]
      exact List.mem_cons_of_mem _ hb'
    · rw [hheld, h.written_eq]
  | @send packs result queue hpacks hsend =>
    rcases Mailbox.send_eq hsend with ⟨rfl, -, rfl⟩ | ⟨rfl, -, rfl⟩
    · -- the batch moves from the buffer to the queue
      have hmine : s.IsMine (s.batch packs) := ⟨rfl, rfl⟩
      refine ⟨Stdio.Sound.sent.1, h.todo_ne, ?_, fun _ _ => rfl⟩
      rw [if_pos rfl, Stdio.Sound.sent (s := s).2, Session.bytesOf_append,
        Session.bytesOf_singleton, if_pos hmine, h.sound.packed packs hpacks, List.append_nil,
        h.written_eq, List.append_assoc]
    · exact ⟨h.sound, h.todo_ne, h.written_eq, h.flushed⟩
  | @other m result queue hm hsend =>
    have hnot : ¬ s.IsMine m := fun hmine => hm hmine.1
    rcases Mailbox.send_eq hsend with ⟨-, -, rfl⟩ | ⟨-, -, rfl⟩
    · refine ⟨h.sound, h.todo_ne, ?_, h.flushed⟩
      rw [Session.bytesOf_append, Session.bytesOf_singleton, if_neg hnot, List.append_nil]
      exact h.written_eq
    · exact h
  | @recv m queue hrecv =>
    refine ⟨h.sound, h.todo_ne, ?_, h.flushed⟩
    have hqueue := Mailbox.recv_eq hrecv
    have hsplit : s.bytesOf c.queue =
        (if s.IsMine m then batchBytes m else []) ++ s.bytesOf queue := by
      rw [hqueue, ← List.singleton_append, Session.bytesOf_append, Session.bytesOf_singleton]
    rw [h.written_eq, hsplit, List.append_assoc, List.append_assoc, List.append_assoc,
      List.append_assoc]

/-- What the terminal has written for the program is a prefix of what the program has written, and
all of it once the last `fflush` has returned and no batch of the program waits. -/
theorem stdout_in_order {history : List Unit}
    (run : Reaches (ConsoleStep s) Console.start history c) :
    c.shown <+: c.written ∧
      (c.flushed = true → c.program.packs = none → (∀ m ∈ c.queue, ¬ s.IsMine m) →
        c.shown = c.written) := by
  have hinv : ConsoleInv s c :=
    run.invariant_state ConsoleInv.start fun _ _ _ h hstep => h.step hstep
  refine ⟨⟨s.bytesOf c.queue ++ c.program.held, ?_⟩, fun hflushed hpacks hqueue => ?_⟩
  · rw [hinv.written_eq, List.append_assoc]
  · have hheld : c.program.held = [] := by
      rw [Stdio.held, hinv.flushed hflushed hpacks]
      rfl
    have hnone : s.bytesOf c.queue = [] := by
      rw [Session.bytesOf, List.filter_eq_nil_iff.mpr fun m hm => by simpa using hqueue m hm]
      rfl
    rw [hinv.written_eq, hheld, hnone, List.append_nil, List.append_nil]

/-- A program with pid 3 and its terminal. -/
def sampleSession : Session := ⟨3, 2, by decide⟩

/-- Two bytes are written, flushed, sent and shown. -/
theorem stdout_in_order_sampleSession :
    ∃ c : Console, c.written = [72#8, 105#8] ∧ c.shown = c.written := by
  have hprint : ConsoleStep sampleSession Console.start () _ :=
    @ConsoleStep.printf _ _ [72#8, 105#8] [] [72#8, 105#8] ⟨rfl, rfl⟩ (by decide) (by decide) rfl
  have run : Reaches (ConsoleStep sampleSession) Console.start (List.replicate 7 ()) _ :=
    ((((((Reaches.start.snoc hprint).snoc (.putchar rfl rfl)).snoc (.putchar rfl rfl)).snoc
      (.call ⟨rfl, rfl⟩ fun b hb => StdioCall.noConfusion hb)).snoc (.fflush rfl rfl)).snoc
        (.send rfl rfl)).snoc (.recv rfl)
  have hall := (stdout_in_order run).2 rfl rfl fun m hm => absurd hm List.not_mem_nil
  exact ⟨_, rfl, hall⟩

end Invariant

end OpenIDP.Userspace
