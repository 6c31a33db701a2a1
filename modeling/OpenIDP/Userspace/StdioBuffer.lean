import OpenIDP.Process.Departed
import OpenIDP.Userspace.Stdout

/-!
# The output buffer

The functions of `src/userspace/libc/stdio.c` share a buffer of 24 bytes and one more, its index,
and the pid of the terminal, which is -1 until `stdio_init` receives a handshake. The buffer is only
emptied when there is a terminal to send it to, and sending is tried until it succeeds. So output
in front of the handshake may run out of the buffer, and output behind the end of the terminal never
returns.

A call is described together with the number of its system calls and the indices that `putchar`
stores to. `fuel` bounds the tries for each message.

## Main definitions

* `Libc`, `StdioRun` — the variables, and a call
* `StdioRun.flush`, `StdioRun.putchar`, `StdioOp.run` — the functions
* `StdioStep` — the calls of a program
* `BufferSafe`, `BufferCareful` — the buffer is large enough, and when it is
* `StdioOp.Sends` — a call that sends the buffer

## Main results

* `buffer_safe_iff` — the stores stay in the buffer
* `returns_iff_of_gone` — the calls that return when there is no terminal
* `returns_iff_of_departed` — the calls that return once the terminal has exited
-/

namespace OpenIDP.Userspace

open OpenIDP.Math OpenIDP.Process

/-- `MSG_HANDSHAKE` -/
def msgHandshake : ℤ := 0x111

/-- The variables of `stdio.c`. -/
structure Libc where
  terminalPid : ℤ
  outBuf : ℕ → BitVec 8
  bufIdx : ℕ

namespace Libc

/-- The variables at the start of a program. -/
def start : Libc := ⟨-1, fun _ => 0, 0⟩

/-- The buffer, while nothing is being sent. -/
def stdio (l : Libc) : Stdio := ⟨l.outBuf, l.bufIdx, none⟩

/-- The variables with another buffer. -/
def withStdio (l : Libc) (p : Stdio) : Libc := ⟨l.terminalPid, p.outBuf, p.bufIdx⟩

/-- `stdio_init`, which returns when it has received a handshake. -/
def stdioInit (l : Libc) (m : Message) : Libc :=
  { l with terminalPid := if m.data1 = 0 then m.senderPid else toInt32 m.data1 }

end Libc

/-- What `sys_ipc_send` returns for three words, after a number of system calls. -/
abbrev SendResults := ℕ → ℕ × ℕ × ℕ → ℤ

/-- The retry loop of `fflush_internal`: the number of system calls when it ends. -/
def retry (send : SendResults) (packs : ℕ × ℕ × ℕ) : ℕ → ℕ → Option ℕ
  | 0, _ => none
  | fuel + 1, calls =>
    if send calls packs ≠ 0 then retry send packs fuel (calls + 1) else some (calls + 1)

/-- The variables, the number of system calls and the indices stored to. -/
structure StdioRun where
  libc : Libc
  calls : ℕ
  stores : List ℕ

namespace StdioRun

variable (send : SendResults) (fuel : ℕ)

/-- The words of a buffer that is being sent are sent. -/
def settle (r : StdioRun) (p : Stdio) : Option StdioRun :=
  match p.packs with
  | none => some { r with libc := r.libc.withStdio p }
  | some packs => (retry send packs fuel r.calls).map fun calls =>
    { r with libc := r.libc.withStdio p.sent, calls := calls }

/-- `fflush_internal` -/
def flush (r : StdioRun) : Option StdioRun :=
  r.settle send fuel (r.libc.stdio.fflushInternal r.libc.terminalPid)

/-- `putchar` -/
def putchar (r : StdioRun) (c : BitVec 8) : Option StdioRun :=
  { r with stores := r.stores ++ [r.libc.bufIdx] }.settle send fuel
    (r.libc.stdio.putchar r.libc.terminalPid c)

/-- One `putchar` after the other. -/
def puts : StdioRun → List (BitVec 8) → Option StdioRun
  | r, [] => some r
  | r, c :: bytes => (r.putchar send fuel c).bind fun r => puts r bytes

end StdioRun

/-- The calls. That of `getchar` begins with one of `fflush`. -/
inductive StdioOp
  | putchar (c : BitVec 8)
  | printf (fmt : List (BitVec 8)) (args : List (List (BitVec 8)))
  | fflush

/-- The bytes that a call puts into the buffer. -/
def StdioOp.bytes : StdioOp → Option (List (BitVec 8))
  | .putchar c => some [c]
  | .printf fmt args => printfBytes fmt args
  | .fflush => some []

/-- A call. -/
def StdioOp.run (send : SendResults) (fuel : ℕ) (r : StdioRun) : StdioOp → Option StdioRun
  | .putchar c => r.putchar send fuel c
  | .printf fmt args => (printfBytes fmt args).bind (r.puts send fuel)
  | .fflush => r.flush send fuel

/-- What happened in a step. -/
inductive StdioEvent
  | init (m : Message)
  | call (op : StdioOp) (stores : List ℕ)

/-- One step of a program: `stdio_init` returns, or another call does, whatever `sys_ipc_send`
returns meanwhile. -/
inductive StdioStep : Libc → StdioEvent → Libc → Prop
  | init {l : Libc} {m : Message} (h : m.type = msgHandshake) :
      StdioStep l (.init m) (l.stdioInit m)
  | call {l : Libc} {op : StdioOp} {send : SendResults} {fuel : ℕ} {r : StdioRun}
      (h : op.run send fuel ⟨l, 0, []⟩ = some r) : StdioStep l (.call op r.stores) r.libc

/-- The index is not too large after the step, and the stores were to the buffer. -/
def BufferSafe (t : Transition Libc StdioEvent) : Prop :=
  t.after.bufIdx ≤ batchSize ∧
    match t.label with
    | .init _ => True
    | .call _ stores => ∀ i ∈ stores, i ≤ batchSize

/-- There is a terminal, or room for what the call puts into the buffer. -/
def BufferCareful (t : Transition Libc StdioEvent) : Prop :=
  match t.label with
  | .init _ => True
  | .call op _ =>
    t.before.terminalPid = -1 → t.before.bufIdx + (op.bytes.getD []).length ≤ batchSize

/-- The call sends the buffer, if there is a terminal. -/
def StdioOp.Sends (l : Libc) : StdioOp → Prop
  | .putchar c => c = 10 ∨ batchSize ≤ l.bufIdx + 1
  | .printf fmt args => ∃ bytes, printfBytes fmt args = some bytes ∧ bytes ≠ [] ∧
    (10 ∈ bytes ∨ batchSize ≤ l.bufIdx + bytes.length)
  | .fflush => l.bufIdx ≠ 0

/-- The results of `sys_ipc_send` to a pid, for the states of the kernel at the system calls. -/
def sendResults (world : ℕ → Sched) (pid : ℤ) : SendResults := fun calls packs =>
  (((world calls).sysIpcSend pid msgStdoutBatch packs.1 packs.2.1 packs.2.2).map Prod.fst).getD 0

/-! ## The buffer after a call -/

section Buffer

variable {send : SendResults} {fuel : ℕ} {r r' : StdioRun} {p : Stdio} {c : BitVec 8}
  {bytes : List (BitVec 8)} {pid : ℤ}

theorem Stdio.fflushInternal_packs (hpacks : p.packs = none) :
    (p.fflushInternal pid).packs = none ↔ p.bufIdx = 0 ∨ pid = -1 := by
  rw [Stdio.fflushInternal]
  split_ifs with hempty hpid
  · exact iff_of_true hpacks (Or.inl hempty)
  · exact iff_of_true hpacks (Or.inr hpid)
  · exact iff_of_false id (not_or.mpr ⟨hempty, hpid⟩)

theorem Stdio.fflushInternal_bufIdx : (p.fflushInternal pid).bufIdx = p.bufIdx := by
  rw [Stdio.fflushInternal]
  split_ifs <;> rfl

theorem Stdio.putchar_packs (hpacks : p.packs = none) :
    (p.putchar pid c).packs = none ↔
      pid = -1 ∨ ¬ (c = 10 ∨ batchSize ≤ p.bufIdx + 1) := by
  rw [Stdio.putchar]
  dsimp only
  split_ifs with hfull
  · have hempty : ¬ p.bufIdx + 1 = 0 := Nat.succ_ne_zero p.bufIdx
    have hfull' : ¬ ¬ (c = 10 ∨ batchSize ≤ p.bufIdx + 1) := not_not.mpr (or_comm.mp hfull)
    rw [Stdio.fflushInternal_packs (by exact hpacks), or_iff_right hempty, or_iff_left hfull']
  · refine iff_of_true hpacks (Or.inr ?_)
    rwa [or_comm]

theorem Stdio.putchar_bufIdx : (p.putchar pid c).bufIdx = p.bufIdx + 1 := by
  rw [Stdio.putchar]
  dsimp only
  split_ifs
  · exact Stdio.fflushInternal_bufIdx
  · rfl

namespace StdioRun

/-- What a call leaves alone, and the index. -/
theorem settle_spec (h : r.settle send fuel p = some r') :
    r'.libc.terminalPid = r.libc.terminalPid ∧ r'.stores = r.stores ∧
      r'.libc.bufIdx = if p.packs = none then p.bufIdx else 0 := by
  rw [settle] at h
  cases hpacks : p.packs with
  | none =>
    rw [hpacks] at h
    obtain rfl := Option.some_inj.mp h
    exact ⟨rfl, rfl, rfl⟩
  | some packs =>
    rw [hpacks] at h
    obtain ⟨calls, -, rfl⟩ := Option.map_eq_some_iff.mp h
    exact ⟨rfl, rfl, rfl⟩

theorem flush_spec (h : r.flush send fuel = some r') :
    r'.libc.terminalPid = r.libc.terminalPid ∧ r'.stores = r.stores ∧
      r'.libc.bufIdx = if r.libc.terminalPid = -1 then r.libc.bufIdx else 0 := by
  obtain ⟨hpid, hstores, hidx⟩ := settle_spec h
  refine ⟨hpid, hstores, hidx.trans ?_⟩
  rw [Stdio.fflushInternal_bufIdx]
  have hnone : (r.libc.stdio.fflushInternal r.libc.terminalPid).packs = none ↔
      r.libc.bufIdx = 0 ∨ r.libc.terminalPid = -1 := Stdio.fflushInternal_packs rfl
  split_ifs with h₁ h₂ h₂
  · rfl
  · exact (hnone.mp h₁).resolve_right h₂
  · exact absurd (hnone.mpr (Or.inr h₂)) h₁
  · rfl

theorem putchar_spec (h : r.putchar send fuel c = some r') :
    r'.libc.terminalPid = r.libc.terminalPid ∧ r'.stores = r.stores ++ [r.libc.bufIdx] ∧
      r'.libc.bufIdx = if r.libc.terminalPid = -1 ∨ ¬ (c = 10 ∨ batchSize ≤ r.libc.bufIdx + 1)
        then r.libc.bufIdx + 1 else 0 := by
  obtain ⟨hpid, hstores, hidx⟩ := settle_spec h
  refine ⟨hpid, hstores, hidx.trans ?_⟩
  rw [Stdio.putchar_bufIdx]
  exact if_congr (Stdio.putchar_packs rfl) rfl rfl

/-- The index after some bytes when there is no terminal. -/
theorem puts_bufIdx (hpid : r.libc.terminalPid = -1) (h : r.puts send fuel bytes = some r') :
    r'.libc.bufIdx = r.libc.bufIdx + bytes.length := by
  induction bytes generalizing r with
  | nil =>
    obtain rfl := Option.some_inj.mp h
    rfl
  | cons c bytes ih =>
    obtain ⟨r₁, hput, hrest⟩ := Option.bind_eq_some_iff.mp h
    obtain ⟨hpid₁, -, hidx⟩ := putchar_spec hput
    rw [if_pos (Or.inl hpid)] at hidx
    rw [ih (hpid₁.trans hpid) hrest, hidx, List.length_cons, Nat.add_assoc,
      Nat.add_comm 1 bytes.length]

/-- The index and the stores are inside the buffer. -/
structure Inside (r : StdioRun) : Prop where
  bufIdx_le : r.libc.bufIdx ≤ batchSize
  stores_le : ∀ i ∈ r.stores, i ≤ batchSize

/-- Bytes stay inside the buffer if there is a terminal or room for them. -/
theorem Inside.puts (hinside : r.Inside)
    (hroom : r.libc.terminalPid = -1 → r.libc.bufIdx + bytes.length ≤ batchSize)
    (h : r.puts send fuel bytes = some r') : r'.Inside := by
  induction bytes generalizing r with
  | nil =>
    obtain rfl := Option.some_inj.mp h
    exact hinside
  | cons c bytes ih =>
    obtain ⟨r₁, hput, hrest⟩ := Option.bind_eq_some_iff.mp h
    obtain ⟨hpid, hstores, hidx⟩ := putchar_spec hput
    rw [List.length_cons] at hroom
    refine ih ⟨?_, fun i hi => ?_⟩ (fun hgone => ?_) hrest
    · rw [hidx]
      split_ifs with hkept
      · rcases hkept with hgone | hroom₁
        · -- without a terminal, the byte is one of those that there is room for
          have := hroom hgone
          omega
        · omega
      · exact Nat.zero_le _
    · rw [hstores] at hi
      rcases List.mem_append.mp hi with hi | hi
      · exact hinside.stores_le i hi
      · rw [List.mem_singleton.mp hi]
        exact hinside.bufIdx_le
    · have hgone' := hpid.symm.trans hgone
      have := hroom hgone'
      rw [if_pos (Or.inl hgone')] at hidx
      omega

theorem puts_singleton : r.puts send fuel [c] = r.putchar send fuel c := by
  rw [puts]
  cases r.putchar send fuel c <;> rfl

/-- So do calls. -/
theorem Inside.run {op : StdioOp} (hinside : r.Inside)
    (hroom : r.libc.terminalPid = -1 → r.libc.bufIdx + (op.bytes.getD []).length ≤ batchSize)
    (h : op.run send fuel r = some r') : r'.Inside := by
  cases op with
  | putchar c => exact Inside.puts hinside hroom (puts_singleton.trans h)
  | printf fmt args =>
    obtain ⟨bytes, hbytes, hputs⟩ := Option.bind_eq_some_iff.mp h
    rw [StdioOp.bytes, hbytes] at hroom
    exact hinside.puts hroom hputs
  | fflush =>
    obtain ⟨-, hstores, hidx⟩ := flush_spec h
    refine ⟨?_, fun i hi => hinside.stores_le i (hstores ▸ hi)⟩
    rw [hidx]
    split_ifs
    · exact hinside.bufIdx_le
    · exact Nat.zero_le _

/-- The index after a call when there is no terminal. -/
theorem run_bufIdx {op : StdioOp} (hpid : r.libc.terminalPid = -1)
    (h : op.run send fuel r = some r') :
    r'.libc.bufIdx = r.libc.bufIdx + (op.bytes.getD []).length := by
  cases op with
  | putchar c => exact puts_bufIdx hpid (puts_singleton.trans h)
  | printf fmt args =>
    obtain ⟨bytes, hbytes, hputs⟩ := Option.bind_eq_some_iff.mp h
    rw [StdioOp.bytes, hbytes]
    exact puts_bufIdx hpid hputs
  | fflush =>
    obtain ⟨-, -, hidx⟩ := flush_spec h
    rw [hidx, if_pos hpid]
    rfl

end StdioRun

end Buffer

/-! ## Runs -/

section Runs

variable {l l' : Libc} {e : StdioEvent} {trace : List (Transition Libc StdioEvent)}

/-- A step from a state with a sound index is safe if and only if it is careful. -/
theorem StdioStep.safe_iff (hidx : l.bufIdx ≤ batchSize) (hstep : StdioStep l e l') :
    BufferSafe ⟨l, e, l'⟩ ↔ BufferCareful ⟨l, e, l'⟩ := by
  cases hstep with
  | init => exact iff_of_true ⟨hidx, trivial⟩ trivial
  | @call op send fuel r h =>
    constructor
    · intro hsafe hpid
      have hbufIdx := StdioRun.run_bufIdx hpid h
      exact hbufIdx ▸ hsafe.1
    · intro hcareful
      have hinside : StdioRun.Inside ⟨l, 0, []⟩ :=
        ⟨hidx, fun i hi => absurd hi List.not_mem_nil⟩
      obtain ⟨hle, hstores⟩ := hinside.run hcareful h
      exact ⟨hle, hstores⟩

/-- In a run whose steps are careful, the index is sound. -/
theorem StdioStep.bufIdx_le (run : Reaches (Traced StdioStep) Libc.start trace l)
    (hcareful : ∀ t ∈ trace, BufferCareful t) : l.bufIdx ≤ batchSize := by
  induction run with
  | start => exact Nat.zero_le _
  | snoc _ hlast ih =>
    obtain ⟨hfirst, hrest⟩ := List.forall_mem_cons.mp hcareful
    obtain ⟨rfl, rfl, hstep⟩ := hlast
    exact ((hstep.safe_iff (ih hrest)).mpr hfirst).1

/-- The buffer is large enough in a run if and only if the calls in front of the handshake put no
more into it than it takes. -/
theorem buffer_safe_iff (run : Reaches (Traced StdioStep) Libc.start trace l) :
    (∀ t ∈ trace, BufferSafe t) ↔ ∀ t ∈ trace, BufferCareful t := by
  refine run.forall_iff fun trace s t s' hrun hcareful hlast => ?_
  obtain ⟨rfl, rfl, hstep⟩ := hlast
  exact hstep.safe_iff (StdioStep.bufIdx_le hrun hcareful)

/-- 25 times the letter `a`, printed in front of the handshake. -/
def sampleEarly : StdioRun :=
  ((StdioOp.printf (List.replicate 25 97) []).run (fun _ _ => 0) 1 ⟨Libc.start, 0, []⟩).getD
    ⟨Libc.start, 0, []⟩

theorem sampleEarly_step :
    StdioStep Libc.start (.call (.printf (List.replicate 25 97) []) sampleEarly.stores)
      sampleEarly.libc :=
  .call (show StdioOp.run (fun _ _ => 0) 1 ⟨Libc.start, 0, []⟩ _ = some sampleEarly from rfl)

theorem buffer_safe_iff_sampleEarly :
    BufferSafe ⟨Libc.start, .call (.printf (List.replicate 25 97) []) sampleEarly.stores,
        sampleEarly.libc⟩ ↔
      BufferCareful ⟨Libc.start, .call (.printf (List.replicate 25 97) []) sampleEarly.stores,
        sampleEarly.libc⟩ := by
  have h := buffer_safe_iff (Reaches.start.next sampleEarly_step)
  rwa [List.forall_mem_singleton, List.forall_mem_singleton] at h

/-- The buffer overflows. -/
theorem buffer_not_safe_sampleEarly :
    ∃ trace l, Reaches (Traced StdioStep) Libc.start trace l ∧ ¬ ∀ t ∈ trace, BufferSafe t := by
  refine ⟨_, _, Reaches.start.next sampleEarly_step, fun h => ?_⟩
  have hsafe := (h _ List.mem_cons_self).1
  have hidx : sampleEarly.libc.bufIdx = 25 := rfl
  exact absurd hsafe (by rw [hidx]; decide)

end Runs

/-! ## Without a terminal -/

section Gone

variable {send : SendResults} {fuel calls : ℕ} {r : StdioRun} {p : Stdio} {c : BitVec 8}
  {bytes : List (BitVec 8)} {packs : ℕ × ℕ × ℕ}

/-- The retry loop does not end when all tries fail. -/
theorem retry_eq_none (hfail : ∀ calls, send calls packs ≠ 0) :
    retry send packs fuel calls = none := by
  induction fuel generalizing calls with
  | zero => rfl
  | succ fuel ih => rw [retry, if_pos (hfail calls), ih]

namespace StdioRun

/-- Then only a buffer that is not sent is settled. -/
theorem settle_isSome_iff (hfail : ∀ calls packs, send calls packs ≠ 0) :
    (r.settle send fuel p).isSome ↔ p.packs = none := by
  rw [settle]
  cases p.packs with
  | none => exact iff_of_true rfl rfl
  | some packs =>
    dsimp only
    rw [retry_eq_none fun calls => hfail calls packs]
    exact iff_of_false Bool.false_ne_true (Option.some_ne_none packs)

theorem flush_isSome_iff (hfail : ∀ calls packs, send calls packs ≠ 0) :
    (r.flush send fuel).isSome ↔ r.libc.terminalPid = -1 ∨ ¬ r.libc.bufIdx ≠ 0 := by
  rw [flush, settle_isSome_iff hfail, Stdio.fflushInternal_packs rfl, not_not]
  exact or_comm

theorem putchar_isSome_iff (hfail : ∀ calls packs, send calls packs ≠ 0) :
    (r.putchar send fuel c).isSome ↔
      r.libc.terminalPid = -1 ∨ ¬ (c = 10 ∨ batchSize ≤ r.libc.bufIdx + 1) :=
  (settle_isSome_iff hfail).trans (Stdio.putchar_packs rfl)

/-- Bytes are put into the buffer up to the first that sends it. -/
theorem puts_isSome_iff (hfail : ∀ calls packs, send calls packs ≠ 0) :
    (r.puts send fuel bytes).isSome ↔ r.libc.terminalPid = -1 ∨
      ¬ (bytes ≠ [] ∧ (10 ∈ bytes ∨ batchSize ≤ r.libc.bufIdx + bytes.length)) := by
  induction bytes generalizing r with
  | nil => exact iff_of_true rfl (Or.inr fun h => h.1 rfl)
  | cons c bytes ih =>
    have hput : (r.putchar send fuel c).isSome ↔ r.libc.terminalPid = -1 ∨
        ¬ (c = 10 ∨ batchSize ≤ r.libc.bufIdx + 1) := putchar_isSome_iff hfail
    rw [puts]
    cases hrun : r.putchar send fuel c with
    | none =>
      -- the byte is a newline or the last there is room for
      rw [hrun] at hput
      obtain ⟨hpid, hsends⟩ := not_or.mp (mt hput.mpr Bool.false_ne_true)
      refine iff_of_false Bool.false_ne_true (not_or.mpr ⟨hpid, not_not.mpr ?_⟩)
      refine ⟨List.cons_ne_nil c bytes, (not_not.mp hsends).imp (fun hc => ?_) fun hfull => ?_⟩
      · exact hc ▸ List.mem_cons_self
      · rw [List.length_cons]
        omega
    | some r₁ =>
      -- the byte stays in the buffer, and the index is one more for the others
      rw [hrun] at hput
      obtain ⟨hpid, -, hidx⟩ := putchar_spec hrun
      have hkept := hput.mp rfl
      rw [if_pos hkept] at hidx
      rw [Option.bind_some, ih, hpid, hidx]
      refine or_congr_right' fun hterminal => not_congr ?_
      have hc := not_or.mp (hkept.resolve_left hterminal)
      have hnew : 10 ∈ c :: bytes ↔ 10 ∈ bytes :=
        List.mem_cons.trans (or_iff_right (Ne.symm hc.1))
      rw [hnew, List.length_cons, and_iff_right (List.cons_ne_nil c bytes)]
      constructor
      · rintro ⟨-, hbytes | hfull⟩
        · exact Or.inl hbytes
        · exact Or.inr (by omega)
      · rintro (hbytes | hfull)
        · exact ⟨List.ne_nil_of_mem hbytes, Or.inl hbytes⟩
        · refine ⟨fun hnil => ?_, Or.inr (by omega)⟩
          rw [hnil, List.length_nil] at hfull
          exact hc.2 hfull

end StdioRun

/-- A process that sends to a pid that no task has is told so. -/
theorem sysIpcSend_of_gone {s : Sched} {pid type : ℤ} {d1 d2 d3 : ℕ}
    (hgone : s.getTaskByPid (toU64 pid) = some 0) :
    s.sysIpcSend pid type d1 d2 d3 = some (-1, s) := by
  rw [Sched.sysIpcSend, hgone]
  simp only [Option.bind_eq_bind, Option.bind_some]
  exact if_pos trivial

theorem sendResults_ne_zero {world : ℕ → Sched} {pid : ℤ}
    (hgone : ∀ calls, (world calls).getTaskByPid (toU64 pid) = some 0) (calls : ℕ)
    (packs : ℕ × ℕ × ℕ) : sendResults world pid calls packs ≠ 0 := by
  rw [sendResults, sysIpcSend_of_gone (hgone calls)]
  change (-1 : ℤ) ≠ 0
  decide

/-- When sending always fails, the calls that do not send return. -/
theorem StdioOp.returns_iff {op : StdioOp} {l : Libc} (hbytes : op.bytes = some bytes)
    (hfail : ∀ calls packs, send calls packs ≠ 0) :
    (∃ fuel, (op.run send fuel ⟨l, 0, []⟩).isSome) ↔ l.terminalPid = -1 ∨ ¬ op.Sends l := by
  have hall : ∀ fuel, (op.run send fuel ⟨l, 0, []⟩).isSome ↔
      l.terminalPid = -1 ∨ ¬ op.Sends l := by
    intro fuel
    cases op with
    | putchar c => exact StdioRun.putchar_isSome_iff hfail
    | printf fmt args =>
      have hprintf : printfBytes fmt args = some bytes := hbytes
      rw [StdioOp.run, StdioOp.Sends, hprintf, Option.bind_some, StdioRun.puts_isSome_iff hfail]
      simp only [Option.some_inj, exists_eq_left']
    | fflush => exact StdioRun.flush_isSome_iff hfail
  exact ⟨fun ⟨fuel, h⟩ => (hall fuel).mp h, fun h => ⟨0, (hall 0).mpr h⟩⟩

/-- While no task has the pid of the terminal, a call returns if and only if there was no handshake
or the call does not send the buffer. -/
theorem returns_iff_of_gone {world : ℕ → Sched} {l : Libc} {op : StdioOp}
    (hbytes : op.bytes = some bytes)
    (hgone : ∀ calls, (world calls).getTaskByPid (toU64 l.terminalPid) = some 0) :
    (∃ fuel, (op.run (sendResults world l.terminalPid) fuel ⟨l, 0, []⟩).isSome) ↔
      l.terminalPid = -1 ∨ ¬ op.Sends l :=
  StdioOp.returns_iff hbytes (sendResults_ne_zero hgone)

/-- This is so once the terminal has exited, whatever the other processes do meanwhile. -/
theorem returns_iff_of_departed {b : Boot} {history : List IpcEvent} {s : SchedState}
    {rest : List ℕ} {world : ℕ → SchedState} {l : Libc} {op : StdioOp}
    (hbytes : op.bytes = some bytes) (h : Departed b history s rest (toU64 l.terminalPid))
    (hworld : ∀ calls, ∃ later, Reaches (IpcStep b) s later (world calls) ∧
      created (schedHistory (later ++ history)) < 2 ^ 64) :
    (∃ fuel, (op.run (sendResults (fun calls => (world calls).sched) l.terminalPid) fuel
        ⟨l, 0, []⟩).isSome) ↔ l.terminalPid = -1 ∨ ¬ op.Sends l := by
  apply StdioOp.returns_iff hbytes
  apply sendResults_ne_zero
  intro calls
  obtain ⟨later, hrun, hlt⟩ := hworld calls
  obtain ⟨rest', h'⟩ := h.run hrun hlt
  exact h'.getTaskByPid_eq hlt

/-- A program whose terminal had pid 2, with a byte in its buffer. -/
def sampleOrphan : Libc := ⟨2, Function.update (fun _ => 0) 0 97, 1⟩

/-- The terminal has exited, and has been reaped. -/
theorem sampleOrphan_gone : sampleTwoReaped.sched.getTaskByPid (toU64 sampleOrphan.terminalPid) =
    some 0 := by
  decide +kernel

/-- A byte that goes into the buffer is no reason to send. -/
theorem returns_iff_of_gone_sampleOrphan :
    ∃ fuel, ((StdioOp.putchar 98).run (sendResults (fun _ => sampleTwoReaped.sched) 2) fuel
      ⟨sampleOrphan, 0, []⟩).isSome := by
  refine (returns_iff_of_gone (l := sampleOrphan) rfl fun _ => sampleOrphan_gone).mpr (Or.inr ?_)
  have hroom : ¬ (98#8 = 10 ∨ batchSize ≤ 1 + 1) := by decide
  exact hroom

/-- `fflush` tries to send the bytes forever. -/
theorem not_returns_sampleOrphan :
    ¬ ∃ fuel, (StdioOp.fflush.run (sendResults (fun _ => sampleTwoReaped.sched) 2) fuel
      ⟨sampleOrphan, 0, []⟩).isSome := by
  rintro ⟨fuel, h⟩
  have hfail := sendResults_ne_zero fun _ => sampleOrphan_gone
  exact absurd ((StdioRun.flush_isSome_iff hfail).mp h) (by decide)

end Gone

end OpenIDP.Userspace
