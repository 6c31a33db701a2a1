import Mathlib.Algebra.Order.BigOperators.Group.Finset
import OpenIDP.Exec.ArgWrites
import OpenIDP.Exec.StackPage
import OpenIDP.Exec.TaskFree

/-!
# What a new process finds of its arguments

The arguments of a process go into the page at the top of its stack: first the strings, downwards
from its end, then an array of pointers to them. They are written to the frame, and the process
reads them through its page tables. Nothing that follows in the creation, up to the new task
struct, changes the page or its frame.

## Main definitions

* `startFrame` — the registers that a new process starts with
* `ArgsPassed` — what the process finds behind them
* `Creates` — the conditions on the file and on the state before

## Main results

* `copyStrings_spec`, `writeWords_spec` — the copy loops
* `passArgs_found` — the contents of the page
* `createUserProcessFromFile_args` — the arguments of a new task
-/

namespace OpenIDP.Exec

open OpenIDP.Math OpenIDP.Memory OpenIDP.Process

/-! ## Bytes in a frame -/

/-- The bytes are in the frame, from an offset on. -/
def FrameHolds (mem : Frames) (frame offset : ℕ) (bytes : List (BitVec 8)) : Prop :=
  ∀ t b, bytes[t]? = some b → frameByte mem frame (offset + t) = b.toNat

/-- A program reads the bytes from an address on. -/
def ReadsBytes (mem : Frames) (root addr : ℕ) (bytes : List (BitVec 8)) : Prop :=
  ∀ t b, bytes[t]? = some b → readByte mem root (addr + t) = some b.toNat

/-- Only one frame is written to, and what lies outside some offsets of it stays. -/
structure WritesIn (f lo hi : ℕ) (v v' : Vm) : Prop where
  mem_eq : ∀ g, g ≠ f → v'.mem g = v.mem g
  pmm_eq : v'.pmm = v.pmm
  lent_eq : v'.lent = v.lent
  byte_eq : ∀ x < pageSize, x < lo ∨ hi ≤ x → frameByte v'.mem f x = frameByte v.mem f x

section Frames

variable {f lo mid hi offset : ℕ} {v v' v'' : Vm} {bytes : List (BitVec 8)}

theorem WritesIn.refl (f lo hi : ℕ) (v : Vm) : WritesIn f lo hi v v :=
  ⟨fun _ _ => rfl, rfl, rfl, fun _ _ _ => rfl⟩

/-- Two parts, one after the other. -/
theorem WritesIn.trans {lo' hi' lo'' hi'' : ℕ} (h : WritesIn f lo hi v v')
    (h' : WritesIn f lo' hi' v' v'') (hlo : lo'' ≤ lo) (hlo' : lo'' ≤ lo') (hhi : hi ≤ hi'')
    (hhi' : hi' ≤ hi'') : WritesIn f lo'' hi'' v v'' := by
  refine ⟨fun g hg => (h'.mem_eq g hg).trans (h.mem_eq g hg), h'.pmm_eq.trans h.pmm_eq,
    h'.lent_eq.trans h.lent_eq, fun x hx hout => ?_⟩
  rw [h'.byte_eq x hx (by omega), h.byte_eq x hx (by omega)]

/-- What lies outside is still there. -/
theorem FrameHolds.after (h : FrameHolds v.mem f offset bytes) (hwrites : WritesIn f lo hi v v')
    (hend : offset + bytes.length ≤ pageSize)
    (hout : offset + bytes.length ≤ lo ∨ hi ≤ offset) : FrameHolds v'.mem f offset bytes := by
  intro t b hb
  have ht : t < bytes.length := (List.getElem?_eq_some_iff.mp hb).1
  rw [hwrites.byte_eq (offset + t) (by omega) (by omega)]
  exact h t b hb

/-- Storing bytes in a frame. -/
theorem writeBytes_spec (haligned : f % pageSize = 0) (hend : offset + bytes.length ≤ pageSize) :
    WritesIn f offset (offset + bytes.length) v (v.writeBytes (f + offset) bytes) ∧
      FrameHolds (v.writeBytes (f + offset) bytes).mem f offset bytes := by
  obtain ⟨hpmm, hlent, -⟩ := v.writeBytes_books (f + offset) bytes
  refine ⟨⟨fun g hg => Vm.writeBytes_mem_of_ne haligned hend hg, hpmm, hlent,
    fun x hx hout => ?_⟩, fun t b hb => ?_⟩
  · rw [Vm.frameByte_writeBytes haligned hend hx]
    split_ifs with hle
    · rw [List.getElem?_eq_none (by omega)]
      rfl
    · rfl
  · have ht : t < bytes.length := (List.getElem?_eq_some_iff.mp hb).1
    rw [Vm.frameByte_writeBytes haligned hend (by omega), if_pos (Nat.le_add_right _ _),
      Nat.add_sub_cancel_left, hb]
    rfl

end Frames

/-! ## The copy loops -/

section Loops

variable {argv : ℕ → List (BitVec 8)} {f n i o : ℕ} {v v' : Vm}

/-- The address of an offset into the frame. -/
theorem stackAddr_eq (hf : f < 2 ^ 52) (ho : o ≤ 4096) : Kernel.stackAddr f (o : ℤ) = f + o := by
  rw [Kernel.stackAddr, toU64]
  omega

/-- The address at which a program finds an offset into the page. -/
theorem topAddr_eq (ho : o ≤ 4096) :
    toU64 ((userStackTop : ℤ) - (4096 - (o : ℤ))) = topPage + o := by
  have htop : topPage = 0x6FFFFF000 ∧ userStackTop = 0x700000000 := ⟨rfl, rfl⟩
  rw [toU64]
  omega

/-- Where the string with number `i + j` starts, when those from number `i` on end at `o`. -/
def stringStart (argv : ℕ → List (BitVec 8)) (i o j : ℕ) : ℕ := o - stringBytes argv (j + 1) i

theorem stringBytes_mono {m : ℕ} (h : n ≤ m) : stringBytes argv n i ≤ stringBytes argv m i :=
  Finset.sum_le_sum_of_subset (Finset.range_mono h)

theorem stringStart_zero : stringStart argv i o 0 = o - ((argv i).length + 1) := by
  rw [stringStart, stringBytes_succ, stringBytes, Finset.sum_range_zero, Nat.add_zero]

theorem stringStart_succ (j : ℕ) : stringStart argv i o (j + 1) =
    stringStart argv (i + 1) (o - ((argv i).length + 1)) j := by
  rw [stringStart, stringStart, stringBytes_succ, Nat.sub_sub]

/-- Strings that fit below `o` are copied one below the other. -/
theorem copyStrings_spec (haligned : f % pageSize = 0) (hf : f < 2 ^ 52)
    (hfit : stringBytes argv n i ≤ o) (ho : o ≤ 4096) :
    ∃ v', Kernel.copyStrings argv f n i o v =
        (((o - stringBytes argv n i : ℕ) : ℤ),
          (List.range n).map fun j => topPage + stringStart argv i o j, v') ∧
      WritesIn f (o - stringBytes argv n i) o v v' ∧
      ∀ j < n, FrameHolds v'.mem f (stringStart argv i o j) (argv (i + j) ++ [0#8]) := by
  induction n generalizing i o v with
  | zero =>
    refine ⟨v, ?_, .refl _ _ _ _, fun j hj => absurd hj (Nat.not_lt_zero j)⟩
    rw [stringBytes, Finset.sum_range_zero, Nat.sub_zero]
    rfl
  | succ n ih =>
    rw [stringBytes_succ] at hfit
    obtain ⟨o₁, ho₁⟩ : ∃ o₁, o₁ = o - ((argv i).length + 1) := ⟨_, rfl⟩
    have hlen : (argv i ++ [0#8]).length = (argv i).length + 1 := List.length_append
    have hoffset : (o : ℤ) - toInt32 ((argv i).length + 1) = (o₁ : ℕ) := by
      rw [toInt32_of_le (by omega)]
      omega
    have hend : o₁ + (argv i ++ [0#8]).length = o := by omega
    obtain ⟨hwrites, hholds⟩ := writeBytes_spec (v := v) haligned
      (hend.trans_le ho : o₁ + (argv i ++ [0#8]).length ≤ pageSize)
    rw [hend] at hwrites
    obtain ⟨v', hrun, hrest, hothers⟩ := @ih (i + 1) o₁
      (v.writeBytes (f + o₁) (argv i ++ [0#8])) (by omega) (by omega)
    have hlast : o - stringBytes argv (n + 1) i = o₁ - stringBytes argv n (i + 1) := by
      rw [stringBytes_succ]
      omega
    refine ⟨v', ?_, ?_, fun j hj => ?_⟩
    · rw [Kernel.copyStrings, hoffset]
      dsimp only
      rw [stackAddr_eq hf (by omega), hrun, topAddr_eq (by omega), hlast, List.range_succ_eq_map,
        List.map_cons, List.map_map, stringStart_zero, ← ho₁]
      congr 3
      refine List.map_congr_left fun j _ => ?_
      rw [Function.comp_apply, stringStart_succ, ← ho₁]
    · rw [hlast]
      exact hwrites.trans hrest (by omega) (Nat.le_refl _) (Nat.le_refl _) (by omega)
    · cases j with
      | zero =>
        rw [stringStart_zero, ← ho₁, Nat.add_zero]
        exact hholds.after hrest (hend.trans_le ho) (Or.inr (Nat.le_refl _))
      | succ j =>
        rw [stringStart_succ, ← ho₁, Nat.add_comm j 1, ← Nat.add_assoc]
        exact hothers j (Nat.lt_of_succ_lt_succ hj)

/-- Words are written one above the other. -/
theorem writeWords_spec (haligned : f % pageSize = 0) (hf : f < 2 ^ 52) (words : List ℕ)
    (hend : o + 8 * words.length ≤ 4096) :
    WritesIn f o (o + 8 * words.length) v (Kernel.writeWords f o words v) ∧
      ∀ j w, words[j]? = some w →
        FrameHolds (Kernel.writeWords f o words v).mem f (o + 8 * j) (wordBytes w) := by
  induction words generalizing o v with
  | nil => exact ⟨.refl _ _ _ _, fun j w hj => absurd hj (by simp)⟩
  | cons w words ih =>
    rw [List.length_cons] at hend ⊢
    have hlen : (wordBytes w).length = 8 := length_wordBytes w
    have hpage : o + (wordBytes w).length ≤ pageSize := by
      rw [hlen, pageSize]
      omega
    obtain ⟨hwrites, hholds⟩ := writeBytes_spec (v := v) haligned hpage
    obtain ⟨hrest, hothers⟩ := @ih (o + 8) (v.writeBytes (f + o) (wordBytes w)) (by omega)
    have hstep : Kernel.writeWords f o (w :: words) v =
        Kernel.writeWords f ((o + 8 : ℕ) : ℤ) words (v.writeBytes (f + o) (wordBytes w)) := by
      rw [Kernel.writeWords, stackAddr_eq hf (by omega)]
      rfl
    rw [hstep]
    refine ⟨hwrites.trans hrest (Nat.le_refl _) (by omega) (by omega) (by omega),
      fun j w' hj => ?_⟩
    cases j with
    | zero =>
      rw [List.getElem?_cons_zero, Option.some_inj] at hj
      subst hj
      exact hholds.after hrest hpage (Or.inl (by omega))
    | succ j =>
      rw [Nat.mul_succ, Nat.add_comm (8 * j) 8, ← Nat.add_assoc]
      exact hothers j w' hj

end Loops

/-! ## The page -/

/-- Where the array of pointers starts in the page. -/
def arrayStart (args : Args) : ℕ :=
  (4096 - stringBytes args.argv args.argc.toNat 0) / 8 * 8 - 8 * (args.argc.toNat + 1)

section Page

variable {args : Args} {f i j : ℕ} {v : Vm}

/-- What fits, in natural numbers. -/
theorem ArgsFit.bounds (hfit : ArgsFit args) (hargc : 0 ≤ args.argc) :
    stringBytes args.argv args.argc.toNat 0 ≤ 4096 ∧ args.argc.toNat ≤ 32 ∧
      arrayStart args + 8 * (args.argc.toNat + 1) =
        (4096 - stringBytes args.argv args.argc.toNat 0) / 8 * 8 := by
  obtain ⟨hmax, hroom⟩ := hfit
  have hmax' : args.argc ≤ 32 := hmax
  rw [arrayStart]
  omega

theorem stringStart_end (hfit : ArgsFit args) (hargc : 0 ≤ args.argc)
    (hi : i < args.argc.toNat) :
    stringStart args.argv 0 4096 i + ((args.argv i).length + 1) =
        4096 - stringBytes args.argv i 0 ∧
      4096 - stringBytes args.argv args.argc.toNat 0 ≤ stringStart args.argv 0 4096 i := by
  obtain ⟨hbytes, -⟩ := hfit.bounds hargc
  have hlast : stringBytes args.argv (i + 1) 0 =
      stringBytes args.argv i 0 + ((args.argv (0 + i)).length + 1) := Finset.sum_range_succ _ _
  have hmono : stringBytes args.argv (i + 1) 0 ≤ stringBytes args.argv args.argc.toNat 0 :=
    stringBytes_mono hi
  rw [Nat.zero_add] at hlast
  rw [stringStart]
  omega

/-- The strings are apart from each other. -/
theorem stringStart_apart (hfit : ArgsFit args) (hargc : 0 ≤ args.argc) (hij : i < j)
    (hj : j < args.argc.toNat) :
    stringStart args.argv 0 4096 j + ((args.argv j).length + 1) ≤
      stringStart args.argv 0 4096 i := by
  obtain ⟨hend, -⟩ := stringStart_end hfit hargc hj
  have hmono : stringBytes args.argv (i + 1) 0 ≤ stringBytes args.argv j 0 :=
    stringBytes_mono hij
  rw [hend, stringStart]
  omega

/-- Arguments that fit are in the page: the strings, and behind them the array of pointers. -/
theorem passArgs_found (haligned : f % pageSize = 0) (hf : f < 2 ^ 52) (hfit : ArgsFit args)
    (hargc : 0 ≤ args.argc) :
    ∃ v', Kernel.passArgs args f v = some v' ∧ WritesIn f 0 4096 v v' ∧
      (∀ i < args.argc.toNat, FrameHolds v'.mem f (arrayStart args + 8 * i)
        (wordBytes (topPage + stringStart args.argv 0 4096 i))) ∧
      FrameHolds v'.mem f (arrayStart args + 8 * args.argc.toNat) (wordBytes 0) ∧
      ∀ i < args.argc.toNat,
        FrameHolds v'.mem f (stringStart args.argv 0 4096 i) (args.argv i ++ [0#8]) := by
  obtain ⟨hbytes, hmax, harray⟩ := hfit.bounds hargc
  obtain ⟨n, hn⟩ : ∃ n, n = args.argc.toNat := ⟨_, rfl⟩
  rw [← hn] at hbytes hmax harray ⊢
  have hcast : args.argc = (n : ℤ) := by omega
  -- Three writes that do not meet: the strings, the pointers below, the null behind these.
  obtain ⟨v₁, hcopy, hwrites₁, hstrings⟩ :=
    copyStrings_spec (v := v) haligned hf hbytes (Nat.le_refl 4096)
  obtain ⟨addrs, haddrs⟩ : ∃ addrs, addrs =
    (List.range n).map fun j => topPage + stringStart args.argv 0 4096 j := ⟨_, rfl⟩
  have hlen : addrs.length = n := by rw [haddrs, List.length_map, List.length_range]
  obtain ⟨hwrites₂, hpointers⟩ :=
    writeWords_spec (v := v₁) (o := arrayStart args) haligned hf addrs (by omega)
  obtain ⟨v₂, hv₂⟩ : ∃ v₂, v₂ = Kernel.writeWords f (arrayStart args : ℕ) addrs v₁ := ⟨_, rfl⟩
  rw [← hv₂, hlen] at hwrites₂
  rw [← hv₂] at hpointers
  obtain ⟨hwrites₃, hnull⟩ := writeWords_spec (v := v₂) (o := arrayStart args + 8 * n)
    haligned hf [0] (by rw [List.length_singleton]; omega)
  -- `offset -= (offset % 8)` is on a signed number, which is not negative here.
  have hfirst : (((4096 - stringBytes args.argv n 0 : ℕ) : ℤ) -
      ((4096 - stringBytes args.argv n 0 : ℕ) : ℤ).tmod 8) - (args.argc + 1) * 8 =
        (arrayStart args : ℕ) := by
    rw [Int.tmod_eq_emod_of_nonneg (Int.natCast_nonneg _)]
    omega
  have hsecond : ((arrayStart args : ℕ) : ℤ) + 8 * args.argc =
      ((arrayStart args + 8 * n : ℕ) : ℤ) := by omega
  have hle : ¬ (maxArgs : ℤ) < args.argc := not_lt.mpr hfit.1
  refine ⟨Kernel.writeWords f (arrayStart args + 8 * n : ℕ) [0] v₂, ?_, ?_, fun i hi => ?_, ?_,
    fun i hi => ?_⟩
  · have hrun : Kernel.copyStrings args.argv f args.argc.toNat 0 4096 v =
        (((4096 - stringBytes args.argv n 0 : ℕ) : ℤ), addrs, v₁) := by
      rw [← hn, haddrs]
      exact hcopy
    rw [Kernel.passArgs, if_neg hle, hrun]
    dsimp only
    rw [hfirst, hsecond, ← hv₂]
  · exact (hwrites₁.trans hwrites₂ (Nat.zero_le _) (Nat.zero_le _) (Nat.le_refl _)
      (by omega)).trans hwrites₃ (Nat.le_refl _) (Nat.zero_le _) (Nat.le_refl _)
        (by rw [List.length_singleton]; omega)
  · have hpointer : addrs[i]? = some (topPage + stringStart args.argv 0 4096 i) := by
      rw [haddrs, List.getElem?_map, List.getElem?_range hi]
      rfl
    have hword := length_wordBytes (topPage + stringStart args.argv 0 4096 i)
    exact (hpointers i _ hpointer).after hwrites₃ (by rw [hword, pageSize]; omega)
      (Or.inl (by omega))
  · exact hnull 0 0 rfl
  · obtain ⟨hend, hlast⟩ := stringStart_end hfit hargc (hn ▸ hi)
    rw [← hn] at hlast
    have hstring : (args.argv i ++ [0#8]).length = (args.argv i).length + 1 :=
      List.length_append
    have hholds := hstrings i hi
    rw [Nat.zero_add] at hholds
    refine (hholds.after hwrites₂ (by rw [pageSize]; omega) (Or.inr (by omega))).after hwrites₃
      (by rw [pageSize]; omega) (Or.inr ?_)
    rw [List.length_singleton]
    omega

end Page

/-! ## The new process -/

/-- The frame on the kernel stack of a new process, from which `iretq` and the pops before it load
the registers. The registers that are left out are zero. -/
structure StartFrame where
  ss : ℕ
  rsp : ℕ
  rflags : ℕ
  cs : ℕ
  rip : ℕ
  rsi : ℕ
  rdi : ℕ

/-- The offset of `argv_ptr_array`. -/
def arrayOffset (args : Args) : ℤ :=
  pointerOffset args.argc (stringsEnd args.argv args.argc.toNat 0 4096)

/-- What `create_user_process_from_file` pushes. -/
def startFrame (args : Args) (entry : ℕ) : StartFrame :=
  let finalOffset := arrayOffset args - (arrayOffset args).tmod 16
  { ss := 0x23
    rsp := toU64 (userStackTop - (4096 - finalOffset))
    rflags := 0x202
    cs := 0x1B
    rip := entry
    rsi := toU64 (userStackTop - (4096 - arrayOffset args))
    rdi := toU64 args.argc }

/-- A process that starts with the frame finds its arguments: `ptr i` is where it finds the
string with number `i`. -/
structure ArgsFound (args : Args) (mem : Frames) (root : ℕ) (frame : StartFrame) (ptr : ℕ → ℕ) :
    Prop where
  pointer : ∀ i < args.argc.toNat, ReadsBytes mem root (frame.rsi + 8 * i) (wordBytes (ptr i))
  null : ReadsBytes mem root (frame.rsi + 8 * args.argc.toNat) (wordBytes 0)
  string : ∀ i < args.argc.toNat, ReadsBytes mem root (ptr i) (args.argv i ++ [0#8])
  above_array : ∀ i < args.argc.toNat, frame.rsi + 8 * (args.argc.toNat + 1) ≤ ptr i
  below_top : ∀ i < args.argc.toNat, ptr i + ((args.argv i).length + 1) ≤ userStackTop
  apart : ∀ i < args.argc.toNat, ∀ j < args.argc.toNat, i < j →
    ptr j + ((args.argv j).length + 1) ≤ ptr i

/-- The arguments of a new process: the registers, and what they lead to. -/
structure ArgsPassed (args : Args) (mem : Frames) (root : ℕ) (frame : StartFrame) : Prop where
  rdi_eq : (frame.rdi : ℤ) = args.argc
  found : ∃ ptr, ArgsFound args mem root frame ptr
  rsi_aligned : frame.rsi % 8 = 0
  rsp_aligned : frame.rsp % 16 = 0
  rsp_le : frame.rsp ≤ frame.rsi
  array_end : frame.rsi + 8 * (args.argc.toNat + 1) ≤ userStackTop
  stack : ∀ x, frame.rsp ≤ x → x < userStackTop → UserWritable mem root x

/-- The conditions on the file, on the framebuffer, and on the state before. -/
structure Creates (p : Platform) (file : FatFile) (contents : List (BitVec 8)) (fb roots : Set ℕ)
    (k : Kernel) : Prop where
  settled : Settled p.kernelPml4 fb roots k.vm.pmm.hhdm k.vm
  caller : k.sched.cr3 = p.kernelPml4 ∨ k.sched.cr3 ∈ roots
  null : NullFaults p k ∨ k.vm.allocFrame.1 ≠ none ∧ ∀ pml4 cr3 k₁,
    k.newPml4 p = some (pml4, cr3, k₁) → NullUnused p file pml4 (elfPhdrs contents) k₁
  holds : file.Holds contents
  table_le : (elfHeader contents).phoff + (elfHeader contents).phnum * phdrSize ≤ contents.length
  end_le : ∀ seg ∈ elfPhdrs contents, seg.type = ptLoad → seg.vaddr + seg.memsz ≤ 2 ^ 47
  room : RoomFor k.heap [(elfHeader contents).phnum * phdrSize, taskSize, 4096 * 4]
  framebuffer : FramebufferIn p fb k.vm.pmm.hhdm

section Process

variable {args : Args} {p : Platform} {file : FatFile} {contents : List (BitVec 8)}
variable {fb roots : Set ℕ} {k k' : Kernel} {κ base r f : ℕ} {v : Vm}

/-- The registers, in terms of the page. -/
theorem startFrame_eq (hfit : ArgsFit args) (hargc : 0 ≤ args.argc) (entry : ℕ) :
    (startFrame args entry).rsi = topPage + arrayStart args ∧
      (startFrame args entry).rsp = topPage + arrayStart args / 16 * 16 ∧
      ((startFrame args entry).rdi : ℤ) = args.argc := by
  obtain ⟨hbytes, hmax, harray⟩ := hfit.bounds hargc
  have hbytes' : (stringBytes args.argv args.argc.toNat 0 : ℤ) ≤ 4096 := by omega
  have hmaxArgs : maxArgs = 32 := rfl
  have hlast := stringsEnd_eq hbytes' (le_refl _)
  have hoffset : arrayOffset args = (arrayStart args : ℕ) := by
    rw [arrayOffset, hlast, pointerOffset, Int.tmod_eq_emod_of_nonneg (by omega)]
    omega
  have hfinal : arrayOffset args - (arrayOffset args).tmod 16 =
      (arrayStart args / 16 * 16 : ℕ) := by
    rw [hoffset, Int.tmod_eq_emod_of_nonneg (Int.natCast_nonneg _)]
    omega
  refine ⟨?_, ?_, ?_⟩
  · change toU64 (userStackTop - (4096 - arrayOffset args)) = _
    rw [hoffset, topAddr_eq (by omega)]
  · change toU64 (userStackTop - (4096 - (arrayOffset args - (arrayOffset args).tmod 16))) = _
    rw [hfinal, topAddr_eq (by omega)]
  · change (toU64 args.argc : ℤ) = args.argc
    rw [toU64]
    omega

theorem topPage_facts : topPage = 0x6FFFFF000 ∧ userStackTop = topPage + 4096 := ⟨rfl, rfl⟩

/-- What is in the frame is read in the page. -/
theorem ShowsFrame.readsBytes (h : ShowsFrame κ fb roots base r topPage f v) (hr : r ∈ roots)
    {o : ℕ} {bytes : List (BitVec 8)} (hend : o + bytes.length ≤ 4096)
    (hholds : FrameHolds v.mem f o bytes) : ReadsBytes v.mem r (topPage + o) bytes := by
  intro t b hb
  have ht : t < bytes.length := (List.getElem?_eq_some_iff.mp hb).1
  obtain ⟨htop, -⟩ := topPage_facts
  have hlt : topPage + o + t < 2 ^ 47 := by omega
  have hpage : SamePage (topPage + o + t) topPage := by
    rw [samePage_iff_of_lt (by omega) (by omega), pageSize]
    omega
  have hrest : (topPage + o + t) % pageSize = o + t := by
    rw [pageSize]
    omega
  rw [(h.read hr hpage hlt).1, hrest, hholds t b hb]

/-- What was written to the page, in the address space of the process. -/
theorem ShowsFrame.argsPassed (h : ShowsFrame κ fb roots base r topPage f v) (hr : r ∈ roots)
    (hfit : ArgsFit args) (hargc : 0 ≤ args.argc)
    (hpointers : ∀ i < args.argc.toNat, FrameHolds v.mem f (arrayStart args + 8 * i)
      (wordBytes (topPage + stringStart args.argv 0 4096 i)))
    (hnull : FrameHolds v.mem f (arrayStart args + 8 * args.argc.toNat) (wordBytes 0))
    (hstrings : ∀ i < args.argc.toNat,
      FrameHolds v.mem f (stringStart args.argv 0 4096 i) (args.argv i ++ [0#8])) (entry : ℕ) :
    ArgsPassed args v.mem r (startFrame args entry) := by
  obtain ⟨hbytes, hmax, harray⟩ := hfit.bounds hargc
  obtain ⟨hrsi, hrsp, hrdi⟩ := startFrame_eq hfit hargc entry
  obtain ⟨htop, hstack⟩ := topPage_facts
  have hstring : ∀ i < args.argc.toNat,
      arrayStart args + 8 * (args.argc.toNat + 1) ≤ stringStart args.argv 0 4096 i ∧
        stringStart args.argv 0 4096 i + ((args.argv i).length + 1) ≤ 4096 := by
    intro i hi
    obtain ⟨hend, hlast⟩ := stringStart_end hfit hargc hi
    omega
  refine ⟨hrdi, ⟨fun i => topPage + stringStart args.argv 0 4096 i, ⟨fun i hi => ?_, ?_,
    fun i hi => ?_, fun i hi => ?_, fun i hi => ?_, fun i hi j hj hij => ?_⟩⟩, ?_, ?_, ?_, ?_,
    fun x hlow hhigh => ?_⟩
  · rw [hrsi, Nat.add_assoc]
    exact h.readsBytes hr (by rw [length_wordBytes]; omega) (hpointers i hi)
  · rw [hrsi, Nat.add_assoc]
    exact h.readsBytes hr (by rw [length_wordBytes]; omega) hnull
  · have hlen : (args.argv i ++ [0#8]).length = (args.argv i).length + 1 := List.length_append
    have hin := hstring i hi
    exact h.readsBytes hr (by omega) (hstrings i hi)
  · have hin := hstring i hi
    rw [hrsi]
    omega
  · have hin := hstring i hi
    omega
  · have happart := stringStart_apart hfit hargc hij hj
    omega
  · omega
  · omega
  · omega
  · omega
  · have hpage : SamePage x topPage := by
      rw [samePage_iff_of_lt (by omega) (by omega), pageSize]
      omega
    exact (h.read hr hpage (by omega)).2

/-- The task that is linked. -/
theorem Kernel.addProcess_sched {isWm : Bool} {pml4 cr3 programBreak : ℕ} {pid : ℤ}
    (hrun : k.addProcess p isWm pml4 cr3 programBreak = some (pid, k')) :
    ∃ newTask stack, pid = toInt32 k.sched.nextPid ∧
      k'.sched = k.sched.addTask newTask stack cr3 programBreak isWm := by
  obtain ⟨⟨newTask, k₁⟩, hnew, hrun⟩ := Option.bind_eq_some_iff.mp hrun
  obtain ⟨⟨stack, k₂⟩, hstack, hrun⟩ := Option.bind_eq_some_iff.mp hrun
  obtain ⟨v, -, hrun⟩ := Option.bind_eq_some_iff.mp hrun
  have hsched₁ : k₁.sched = k.sched := (kmalloc_taskFree taskSize).sched_eq hnew
  have hsched₂ : k₂.sched = k.sched :=
    ((kmalloc_taskFree (4096 * 4)).sched_eq hstack).trans hsched₁
  obtain ⟨rfl, rfl⟩ := Prod.mk.inj (Option.some_inj.mp hrun)
  exact ⟨newTask, stack, by rw [hsched₂], by rw [hsched₂]⟩

/-- A creation that adds a task passes it the arguments. -/
theorem createUserProcessFromFile_args {isWm : Bool} {pid : ℤ}
    (h : Creates p file contents fb roots k) (hargc : 0 ≤ args.argc) (hfit : ArgsFit args)
    (hrun : Kernel.createUserProcessFromFile p file args isWm k = some (pid, k')) :
    (pid = -1 ∧ k'.sched = k.sched) ∨
      ∃ newTask stack root programBreak, pid = toInt32 k.sched.nextPid ∧
        k'.sched = k.sched.addTask newTask stack root programBreak isWm ∧
        ArgsPassed args k'.vm.mem root (startFrame args (elfHeader contents).entry) := by
  obtain ⟨⟨pml4, cr3, k₁⟩, hpml4, hrun⟩ := Option.bind_eq_some_iff.mp hrun
  obtain ⟨⟨elf, k₂⟩, helf, hrun⟩ := Option.bind_eq_some_iff.mp hrun
  have hsched₁ : k₁.sched = k.sched := Kernel.newPml4_sched hpml4
  have hsched₂ : k₂.sched = k.sched :=
    (Kernel.loadElfFile_taskFree.sched_eq helf).trans hsched₁
  obtain ⟨hS₁, rfl, hne, hfaults, hheap₁, -⟩ :=
    Kernel.newPml4_settled h.settled h.caller (h.null.imp_right And.left) hpml4
  have hnull₁ : NullUnused p file cr3 (elfPhdrs contents) k₁ :=
    h.null.elim (fun hnull => Or.inl (hfaults hnull)) fun hgiven => hgiven.2 cr3 cr3 k₁ hpml4
  have hmem : cr3 ∈ insert cr3 roots := Set.mem_insert _ _
  cases elf with
  | none =>
    obtain ⟨hpid, rfl⟩ := Prod.mk.inj (Option.some_inj.mp hrun)
    exact Or.inl ⟨hpid.symm, hsched₂⟩
  | some elf =>
    have hcaller₁ : k₁.sched.cr3 = p.kernelPml4 ∨ k₁.sched.cr3 ∈ insert cr3 roots := by
      rw [hsched₁]
      exact h.caller.imp_right (Set.mem_insert_of_mem _)
    have hne₁ : k₁.sched.cr3 ≠ cr3 := by
      rw [hsched₁]
      exact hne.symm
    obtain ⟨hS₂, hroom₂, hentry⟩ := Kernel.loadElfFile_settled hS₁ hmem hcaller₁ hne₁ hnull₁ h.holds
      h.table_le h.end_le (h.room.congr (congrArg KHeap.heapEnd hheap₁)) helf
    obtain ⟨⟨done, stackPage, v₃⟩, hstack, hrun⟩ := Option.bind_eq_some_iff.mp hrun
    cases done with
    | false =>
      obtain ⟨hpid, rfl⟩ := Prod.mk.inj (Option.some_inj.mp hrun)
      exact Or.inl ⟨hpid.symm, hsched₂⟩
    | true =>
      obtain ⟨v₄, hargs, hrun⟩ := Option.bind_eq_some_iff.mp hrun
      obtain ⟨hshows₃, haligned, hlt⟩ := Kernel.mapStack_shows hS₂ hmem hstack
      obtain ⟨v₄', hargs', hwrites, hpointers, hnull, hstrings⟩ :=
        passArgs_found (v := v₃) haligned hlt hfit hargc
      obtain rfl : v₄' = v₄ := Option.some_inj.mp (hargs'.symm.trans hargs)
      have hshows₄ := hshows₃.write hmem hwrites.mem_eq hwrites.pmm_eq hwrites.lent_eq
      obtain ⟨hshows, hframe⟩ := Kernel.addProcess_shows (k := { k₂ with vm := v₄' }) hshows₄ hmem
        h.framebuffer hroom₂ hrun
      obtain ⟨newTask, stack, hpid, hadd⟩ := Kernel.addProcess_sched hrun
      -- what follows in the creation leaves the frame of the page
      have hsame : ∀ x, frameByte k'.vm.mem stackPage x = frameByte v₄'.mem stackPage x := by
        intro x
        rw [frameByte, frameByte]
        exact congrArg (fun word => byteOf (word (wordIndex x)) (x % 8)) hframe
      have hkept : ∀ {o : ℕ} {bytes : List (BitVec 8)}, FrameHolds v₄'.mem stackPage o bytes →
          FrameHolds k'.vm.mem stackPage o bytes :=
        fun hholds t b hb => (hsame _).trans (hholds t b hb)
      refine Or.inr ⟨newTask, stack, cr3, elf.programBreak, ?_, ?_, ?_⟩
      · rw [hpid, hsched₂]
      · rw [hadd, hsched₂]
      · rw [← hentry]
        exact hshows.argsPassed hmem hfit hargc (fun i hi => hkept (hpointers i hi))
          (hkept hnull) (fun i hi => hkept (hstrings i hi)) _

end Process

/-! ## A process with two arguments -/

/-- The sample kernel on a machine with more memory, with a heap of 16 pages. -/
def roomyLoader : Kernel :=
  { largeLoader with
    heap :=
      { hdr := fun _ => ⟨heapMagic, 16 * 4096 - 40, true, 0, 0⟩
        head := kheapStart
        heapEnd := kheapStart + 16 * pageSize } }

theorem roomyLoader_settled : Settled 0x1000 ∅ ∅ largePmm.hhdm roomyLoader.vm := by
  have hplace : ∀ {f r : ℕ} {p : Path},
      (if f = 0x1000 then some (0x1000, []) else none : Option (ℕ × Path)) = some (r, p) →
        f = 0x1000 ∧ r = 0x1000 ∧ p = [] := by
    intro f r p h
    split_ifs at h with hf
    obtain ⟨rfl, rfl⟩ := Prod.mk.inj (Option.some_inj.mp h)
    exact ⟨hf, rfl, rfl⟩
  have habsent : ¬ IsPresent 0 := by decide
  refine ⟨rfl, fun f => if f = 0x1000 then some (0x1000, []) else none,
    ⟨largeLoader_sound, if_pos rfl, fun r hr => absurd hr (Set.notMem_empty r),
      Set.notMem_empty _, fun hf hne => absurd (hplace hf).2.1 hne, fun hf => ?_, fun hf => ?_,
      fun hf => ?_, fun hf hne => absurd (hplace hf).2.1 hne, fun f hf => absurd hf
      (Set.notMem_empty f), fun f hf => absurd hf (Set.notMem_empty f),
      fun _ _ _ hpresent => absurd hpresent habsent, fun _ _ _ hpresent => absurd hpresent habsent,
      fun _ _ _ _ hpresent => absurd hpresent habsent,
      fun r hr => absurd hr (Set.notMem_empty r),
      fun _ _ _ hpresent => absurd hpresent habsent⟩, fun f hf => absurd hf (Set.notMem_empty f)⟩
  · exact (hplace hf).1.trans (hplace hf).2.1.symm
  · rw [(hplace hf).2.2]
    exact Nat.zero_le _
  · rintro ⟨page, hpage, hframe, hclear⟩
    have hone : page = 1 := by
      rw [(hplace hf).1, pageSize] at hframe
      omega
    rw [hone] at hclear
    exact absurd hclear (by decide)

/-- All the requests are served from the first block. -/
theorem roomyLoader_kmalloc : ∃ ptr heap heap' x y,
    roomyLoader.heap.kmalloc phdrSize = some (ptr, heap) ∧ ptr ≠ 0 ∧
      heap.heapEnd = roomyLoader.heap.heapEnd ∧ heap.kfree ptr = some heap' ∧
      heap'.kmalloc taskSize = some x ∧ x.2.heapEnd = heap'.heapEnd ∧
      x.2.kmalloc (4096 * 4) = some y ∧ y.2.heapEnd = x.2.heapEnd := by
  have hruns : ((roomyLoader.heap.kmalloc phdrSize).any fun w =>
      decide (w.1 ≠ 0 ∧ w.2.heapEnd = roomyLoader.heap.heapEnd) &&
      (w.2.kfree w.1).any fun heap' => (heap'.kmalloc taskSize).any fun x =>
        decide (x.2.heapEnd = heap'.heapEnd) && (x.2.kmalloc (4096 * 4)).any fun y =>
          decide (y.2.heapEnd = x.2.heapEnd)) = true := by
    decide +kernel
  simp only [Option.any_eq_true, Bool.and_eq_true, decide_eq_true_eq] at hruns
  obtain ⟨⟨ptr, heap⟩, hmalloc, ⟨hne, hend⟩, heap', hfree, x, hx, hxend, y, hy, hyend⟩ := hruns
  exact ⟨ptr, heap, heap', x, y, hmalloc, hne, hend, hfree, hx, hxend, hy, hyend⟩

/-- Two short arguments. -/
def sampleArgs : Args := ⟨2, fun i => if i = 0 then [0x61#8] else [0x62#8, 0x63#8]⟩

theorem emptyElf_elfFile : ElfFile emptyElf := by
  have hphdrs : elfPhdrs emptyElf = [⟨0, 0, 0, 0, 0⟩] := by decide +kernel
  have hload : ∀ seg ∈ elfPhdrs emptyElf, seg.type ≠ ptLoad := by
    rw [hphdrs]
    decide
  refine ⟨by decide +kernel, fun seg hmem htype => absurd htype (hload seg hmem),
    fun seg hmem htype => absurd htype (hload seg hmem), ?_⟩
  rw [hphdrs]
  exact List.pairwise_singleton _ _

theorem roomyLoader_creates :
    Creates sampleBios (.ofContents emptyElf) emptyElf ∅ ∅ roomyLoader := by
  have hlength : emptyElf.length < 2 ^ 32 := by decide +kernel
  refine ⟨roomyLoader_settled, Or.inl rfl, Or.inl ?_, FatFile.ofContents_holds hlength,
    emptyElf_elfFile.table_le, emptyElf_elfFile.end_le, ⟨by decide, by decide +kernel⟩,
    ⟨fun offset hlt => ?_, by decide⟩⟩
  · have hrunning : roomyLoader.sched.cr3 = sampleBios.kernelPml4 := rfl
    rw [NullFaults, if_pos hrunning]
    decide
  · exact absurd hlt (Nat.not_lt_zero offset)

theorem createUserProcessFromFile_roomyLoader : ∃ k',
    Kernel.createUserProcessFromFile sampleBios (.ofContents emptyElf) sampleArgs false
      roomyLoader = some (1, k') := by
  obtain ⟨ptr, heap, heap', x, y, hmalloc, hne, hend, hfree, hx, hxend, hy, hyend⟩ :=
    roomyLoader_kmalloc
  have hlt : roomyLoader.heap.heapEnd < 2 ^ 64 := by decide
  obtain ⟨pml4, k₁, elf, k₂, page, v₃, hpml4, hload, hstack, hheap⟩ :=
    emptyElf_reaches (k := roomyLoader) rfl hmalloc hne hend hlt hfree
  have hsched : k₂.sched = roomyLoader.sched :=
    (Kernel.loadElfFile_taskFree.sched_eq hload).trans (Kernel.newPml4_sched hpml4)
  have hlt' : heap'.heapEnd < 2 ^ 64 := by
    rw [KHeap.kfree_heapEnd hfree, hend]
    exact hlt
  obtain ⟨v₄, hargs⟩ : ∃ v₄, Kernel.passArgs sampleArgs page v₃ = some v₄ := by
    rw [Kernel.passArgs, if_neg (by decide)]
    exact ⟨_, rfl⟩
  have hfirst := kmalloc_of_heapEnd_eq (p := sampleBios) (k := { k₂ with vm := v₄ })
    (hheap ▸ hx) (hheap ▸ hxend) (hheap ▸ hlt')
  have hsecond := kmalloc_of_heapEnd_eq (p := sampleBios) (k := { k₂ with vm := v₄, heap := x.2 })
    hy hyend (hxend ▸ hlt')
  have hadd : ∃ k', Kernel.addProcess sampleBios false pml4 pml4 elf.programBreak
      { k₂ with vm := v₄ } = some (1, k') := by
    rw [Kernel.addProcess]
    simp only [hfirst, hsecond, Option.bind_eq_bind, Option.bind_some]
    rw [hsched]
    exact ⟨_, rfl⟩
  obtain ⟨k', hadd⟩ := hadd
  refine ⟨k', ?_⟩
  rw [Kernel.createUserProcessFromFile]
  simp only [hpml4, hload, hstack, hargs, hadd, Option.bind_eq_bind, Option.bind_some, if_true]

/-- The two arguments are passed. -/
theorem createUserProcessFromFile_args_roomyLoader : ∃ k' newTask stack root programBreak,
    Kernel.createUserProcessFromFile sampleBios (.ofContents emptyElf) sampleArgs false
        roomyLoader = some (1, k') ∧
      k'.sched = roomyLoader.sched.addTask newTask stack root programBreak false ∧
      ArgsPassed sampleArgs k'.vm.mem root (startFrame sampleArgs (elfHeader emptyElf).entry) := by
  obtain ⟨k', hrun⟩ := createUserProcessFromFile_roomyLoader
  rcases createUserProcessFromFile_args roomyLoader_creates (by decide) (by decide) hrun with
    ⟨hpid, -⟩ | ⟨newTask, stack, root, programBreak, -, hadd, hpassed⟩
  · exact absurd hpid (by decide)
  · exact ⟨k', newTask, stack, root, programBreak, hrun, hadd, hpassed⟩

end OpenIDP.Exec
