import Mathlib.Algebra.BigOperators.Intervals
import OpenIDP.Math.Count
import OpenIDP.Exec.Create
import OpenIDP.Exec.Image

/-!
# What is stored while arguments are passed

`create_user_process_from_file` keeps the addresses of the strings in an array of 32 words on the
kernel's stack, and copies the strings and the pointers to them into one page, from its end
downwards. Neither the number of arguments nor the length of the strings is compared with
anything, and both come from the program that calls `SYS_EXEC`.

A string is read when its turn comes, from memory in which the strings before it have been stored
already. The stores are those of the code up to the first that misses.

## Main definitions

* `ArgStore`, `argStores` — the stores, in their order
* `stringsRead` — the strings as they are read
* `ArgsFit` — the strings, their terminators, the padding and the pointers fit in the page
* `Steady` — the strings do not change while the page is filled
* `Kernel.execStores`, `ExecSafe` — what a caller of `SYS_EXEC` may not be able to break

## Main results

* `passArgs_eq` — the model that passes arguments performs these stores
* `argStores_inside_iff` — all stores are inside just when the arguments fit
* `argsFit_stringsRead_iff`, `steady_of_outside` — strings outside of the page are read as they were
* `execSafe_iff` — the creations that store only where they may
* `exec_overflows` — with 33 arguments the array is overrun
-/

namespace OpenIDP.Exec

open OpenIDP.Math OpenIDP.Memory OpenIDP.Process

/-! ## The stores -/

/-- A store while arguments are passed: of an address to an element of `user_argv_addrs`, or of
bytes from an offset into the stack page on. -/
inductive ArgStore
  | slot (i addr : ℕ)
  | page (offset : ℤ) (bytes : List (BitVec 8))

/-- The store is to an element that exists, or stays in the page. -/
def ArgStore.Inside : ArgStore → Prop
  | .slot i _ => i < maxArgs
  | .page offset bytes => 0 ≤ offset ∧ offset + bytes.length ≤ 4096

/-- Memory after a store. The array is on the kernel's stack, which is not part of it. -/
def ArgStore.perform (stackPage : ℕ) (v : Vm) : ArgStore → Vm
  | .slot _ _ => v
  | .page offset bytes => v.writeBytes (Kernel.stackAddr stackPage offset) bytes

/-- The loop that copies the strings: `n` more of them, the next with number `i`. What it stores,
the addresses of the strings, and the offset that it comes to. -/
def copyStores (argv : Frames → ℕ → List (BitVec 8)) (stackPage : ℕ) :
    ℕ → ℕ → ℤ → Vm → List ArgStore × List ℕ × ℤ
  | 0, _, offset, _ => ([], [], offset)
  | n + 1, i, offset, v =>
    let offset := offset - toInt32 ((argv v.mem i).length + 1)
    let store := .page offset (argv v.mem i ++ [0#8])
    let addr := toU64 (userStackTop - (4096 - offset))
    match copyStores argv stackPage n (i + 1) offset (store.perform stackPage v) with
    | (stores, addrs, last) => (store :: .slot i addr :: stores, addr :: addrs, last)

/-- The strings that the loop reads, each when its turn comes. -/
def readStrings (argv : Frames → ℕ → List (BitVec 8)) (stackPage : ℕ) :
    ℕ → ℕ → ℤ → Vm → List (List (BitVec 8))
  | 0, _, _, _ => []
  | n + 1, i, offset, v =>
    let offset := offset - toInt32 ((argv v.mem i).length + 1)
    let store := ArgStore.page offset (argv v.mem i ++ [0#8])
    argv v.mem i :: readStrings argv stackPage n (i + 1) offset (store.perform stackPage v)

/-- The strings that are read, by their numbers. -/
def stringsRead (argc : ℤ) (argv : Frames → ℕ → List (BitVec 8)) (stackPage : ℕ) (v : Vm) (i : ℕ) :
    List (BitVec 8) :=
  (readStrings argv stackPage argc.toNat 0 4096 v).getD i []

/-- The offset that the loop that copies the strings comes to. -/
def stringsEnd (argv : ℕ → List (BitVec 8)) : ℕ → ℕ → ℤ → ℤ
  | 0, _, offset => offset
  | n + 1, i, offset => stringsEnd argv n (i + 1) (offset - toInt32 ((argv i).length + 1))

/-- Words that are stored one after the other. -/
def wordStores : ℤ → List ℕ → List ArgStore
  | _, [] => []
  | offset, w :: words => .page offset (wordBytes w) :: wordStores (offset + 8) words

/-- The offset of the array of pointers. -/
def pointerOffset (argc offset : ℤ) : ℤ := offset - offset.tmod 8 - (argc + 1) * 8

/-- All stores, in their order. -/
def argStores (argc : ℤ) (argv : Frames → ℕ → List (BitVec 8)) (stackPage : ℕ) (v : Vm) :
    List ArgStore :=
  match copyStores argv stackPage argc.toNat 0 4096 v with
  | (stores, addrs, last) =>
    stores ++ wordStores (pointerOffset argc last) addrs ++
      wordStores (pointerOffset argc last + 8 * argc) [0]

/-- The bytes of `n` strings from number `i` on, with their terminators. -/
def stringBytes (argv : ℕ → List (BitVec 8)) (n i : ℕ) : ℕ :=
  ∑ j ∈ Finset.range n, ((argv (i + j)).length + 1)

/-- There are no more arguments than elements of `user_argv_addrs`, and the strings, rounded up to
a multiple of eight, fit in the page with the pointers. -/
def ArgsFit (args : Args) : Prop :=
  args.argc ≤ maxArgs ∧
    ((stringBytes args.argv args.argc.toNat 0 + 7) / 8 * 8 : ℕ) + (args.argc + 1) * 8 ≤ 4096

instance (args : Args) : Decidable (ArgsFit args) := inferInstanceAs (Decidable (_ ∧ _))

/-- Stores in the page do not change the strings that `argv` leads to. -/
def Steady (argc : ℤ) (argv : Frames → ℕ → List (BitVec 8)) (stackPage : ℕ) (v : Vm) : Prop :=
  ∀ stores : List ArgStore, (∀ s ∈ stores, s.Inside) → ∀ i < argc.toNat,
    argv (stores.foldl (ArgStore.perform stackPage) v).mem i = argv v.mem i

section Stores

variable {argv : Frames → ℕ → List (BitVec 8)} {strings : ℕ → List (BitVec 8)} {args : Args}
variable {argc offset : ℤ} {n i stackPage : ℕ} {v v₀ : Vm}

/-! ### The stores are those of the model -/

theorem copyStrings_eq : Kernel.copyStrings strings stackPage n i offset v =
    ((copyStores (fun _ => strings) stackPage n i offset v).2.2,
      (copyStores (fun _ => strings) stackPage n i offset v).2.1,
      (copyStores (fun _ => strings) stackPage n i offset v).1.foldl
        (ArgStore.perform stackPage) v) := by
  induction n generalizing i offset v with
  | zero => rfl
  | succ n ih =>
    rw [Kernel.copyStrings, copyStores]
    dsimp only
    rw [ih]
    rfl

theorem copyStores_end : (copyStores (fun _ => strings) stackPage n i offset v).2.2 =
    stringsEnd strings n i offset := by
  induction n generalizing i offset v with
  | zero => rfl
  | succ n ih => exact ih

theorem writeWords_eq (words : List ℕ) : Kernel.writeWords stackPage offset words v =
    (wordStores offset words).foldl (ArgStore.perform stackPage) v := by
  induction words generalizing offset v with
  | nil => rfl
  | cons w words ih =>
    rw [Kernel.writeWords, ih]
    rfl

/-- Passing arguments performs the stores, as long as the array has room. -/
theorem passArgs_eq (hargc : args.argc ≤ maxArgs) : Kernel.passArgs args stackPage v =
    some ((argStores args.argc (fun _ => args.argv) stackPage v).foldl
      (ArgStore.perform stackPage) v) := by
  rw [Kernel.passArgs, if_neg (not_lt.mpr hargc), copyStrings_eq]
  dsimp only
  rw [writeWords_eq, writeWords_eq, argStores, List.foldl_append, List.foldl_append]
  rfl

/-! ### Strings that are read in turn -/

/-- The stores are those of the strings that are read. -/
theorem copyStores_read
    (h : ∀ j < n, strings (i + j) = (readStrings argv stackPage n i offset v).getD j []) :
    copyStores argv stackPage n i offset v =
      copyStores (fun _ => strings) stackPage n i offset v := by
  induction n generalizing i offset v with
  | zero => rfl
  | succ n ih =>
    have hfirst : strings i = argv v.mem i := h 0 (Nat.succ_pos n)
    rw [copyStores, copyStores]
    dsimp only
    rw [hfirst, ih fun j hj => ?_]
    have hlater := h (j + 1) (Nat.succ_lt_succ hj)
    rwa [← Nat.add_assoc, Nat.add_right_comm] at hlater

theorem argStores_read : argStores argc argv stackPage v =
    argStores argc (fun _ => stringsRead argc argv stackPage v) stackPage v := by
  have hcopy : copyStores argv stackPage argc.toNat 0 4096 v =
      copyStores (fun _ => stringsRead argc argv stackPage v) stackPage argc.toNat 0 4096 v :=
    copyStores_read fun j _ => by rw [Nat.zero_add, stringsRead]
  rw [argStores, argStores, hcopy]

/-! ### Strings that do not change -/

/-- The strings that are read in turn are those that were there before, until a store misses. -/
theorem copyStores_steady (before : List ArgStore) (h : Steady argc argv stackPage v₀)
    (hbefore : ∀ s ∈ before, s.Inside) (hv : v = before.foldl (ArgStore.perform stackPage) v₀)
    (hn : i + n ≤ argc.toNat)
    (hinside : (∀ s ∈ (copyStores argv stackPage n i offset v).1, s.Inside) ∨
      ∀ s ∈ (copyStores (fun _ => argv v₀.mem) stackPage n i offset v).1, s.Inside) :
    copyStores argv stackPage n i offset v =
      copyStores (fun _ => argv v₀.mem) stackPage n i offset v := by
  induction n generalizing i offset v before with
  | zero => rfl
  | succ n ih =>
    have hstring : argv v.mem i = argv v₀.mem i := hv ▸ h before hbefore i (by omega)
    rw [copyStores, copyStores] at hinside ⊢
    dsimp only at hinside ⊢
    rw [hstring] at hinside ⊢
    simp only [List.forall_mem_cons] at hinside
    -- the store of this string is inside, whichever way it is looked at
    obtain ⟨store, hstore⟩ : ∃ store, store = ArgStore.page
        (offset - toInt32 ((argv v₀.mem i).length + 1)) (argv v₀.mem i ++ [0#8]) := ⟨_, rfl⟩
    rw [← hstore] at hinside ⊢
    have hfirst : store.Inside := hinside.elim And.left And.left
    rw [ih (before ++ [store]) ?_ ?_ (by omega) (hinside.imp (fun h => h.2.2) fun h => h.2.2)]
    · exact List.forall_mem_append.mpr ⟨hbefore, List.forall_mem_singleton.mpr hfirst⟩
    · rw [List.foldl_append, ← hv]
      rfl

theorem argStores_steady (h : Steady argc argv stackPage v)
    (hinside : (∀ s ∈ argStores argc argv stackPage v, s.Inside) ∨
      ∀ s ∈ argStores argc (fun _ => argv v.mem) stackPage v, s.Inside) :
    argStores argc argv stackPage v = argStores argc (fun _ => argv v.mem) stackPage v := by
  have hcopy : copyStores argv stackPage argc.toNat 0 4096 v =
      copyStores (fun _ => argv v.mem) stackPage argc.toNat 0 4096 v :=
    copyStores_steady [] h (List.forall_mem_nil _) rfl (Nat.zero_add _).le (hinside.imp
      (fun hall s hs => hall s (List.mem_append_left _ (List.mem_append_left _ hs)))
      fun hall s hs => hall s (List.mem_append_left _ (List.mem_append_left _ hs)))
  rw [argStores, argStores, hcopy]

/-- Stores in the page leave all other frames. -/
theorem foldl_perform_of_ne (haligned : stackPage % pageSize = 0) (hlt : stackPage < 2 ^ 52)
    {stores : List ArgStore} (hinside : ∀ s ∈ stores, s.Inside) {g : ℕ} (hg : g ≠ stackPage) :
    (stores.foldl (ArgStore.perform stackPage) v).mem g = v.mem g := by
  induction stores generalizing v with
  | nil => rfl
  | cons s stores ih =>
    obtain ⟨hfirst, hrest⟩ := List.forall_mem_cons.mp hinside
    rw [List.foldl_cons, ih hrest]
    cases s with
    | slot i addr => rfl
    | page offset bytes =>
      obtain ⟨hlow, hhigh⟩ := hfirst
      obtain ⟨o, rfl⟩ := Int.eq_ofNat_of_zero_le hlow
      have haddr : Kernel.stackAddr stackPage (o : ℤ) = stackPage + o := by
        rw [Kernel.stackAddr, toU64]
        omega
      rw [ArgStore.perform, haddr]
      exact Vm.writeBytes_mem_of_ne haligned (by rw [pageSize]; omega) hg

/-- Strings that do not depend on the frame of the page do not change. -/
theorem steady_of_outside (haligned : stackPage % pageSize = 0) (hlt : stackPage < 2 ^ 52)
    (hargv : ∀ mem : Frames, (∀ g, g ≠ stackPage → mem g = v.mem g) → ∀ i < argc.toNat,
      argv mem i = argv v.mem i) : Steady argc argv stackPage v :=
  fun _ hinside => hargv _ fun _ hg => foldl_perform_of_ne haligned hlt hinside hg

/-! ### The stores that are inside -/

theorem stringBytes_succ (argv : ℕ → List (BitVec 8)) (n i : ℕ) :
    stringBytes argv (n + 1) i = (argv i).length + 1 + stringBytes argv n (i + 1) := by
  rw [stringBytes, stringBytes, Finset.sum_range_succ', Nat.add_comm, Nat.add_zero]
  congr 1
  refine Finset.sum_congr rfl fun j _ => ?_
  rw [Nat.add_right_comm, Nat.add_assoc]

/-- A string of at most a page has a length that fits in an `int`. -/
theorem toInt32_of_le {len : ℕ} (h : len ≤ 4096) : toInt32 len = len := by
  unfold toInt32
  omega

theorem length_copyStores : (copyStores argv stackPage n i offset v).2.1.length = n := by
  induction n generalizing i offset v with
  | zero => rfl
  | succ n ih =>
    rw [copyStores]
    exact congrArg Nat.succ ih

/-- Each string has its element. -/
theorem slot_mem_copyStores {j : ℕ} (hj : j < n) :
    ∃ addr, ArgStore.slot (i + j) addr ∈ (copyStores argv stackPage n i offset v).1 := by
  induction n generalizing i offset v j with
  | zero => exact absurd hj (Nat.not_lt_zero j)
  | succ n ih =>
    rw [copyStores]
    cases j with
    | zero => exact ⟨_, List.mem_cons_of_mem _ List.mem_cons_self⟩
    | succ j =>
      have hnum : i + (j + 1) = i + 1 + j := by omega
      rw [hnum]
      exact (ih (Nat.lt_of_succ_lt_succ hj)).imp fun addr hrest =>
        List.mem_cons_of_mem _ (List.mem_cons_of_mem _ hrest)

/-- Strings that stay in the page: the offset goes down by their bytes, and not below zero. -/
theorem copyStores_last (hoffset : 0 ≤ offset) (hle : offset ≤ 4096)
    (h : ∀ s ∈ (copyStores (fun _ => strings) stackPage n i offset v).1, s.Inside) :
    stringsEnd strings n i offset = offset - stringBytes strings n i ∧
      0 ≤ stringsEnd strings n i offset := by
  induction n generalizing i offset v with
  | zero => exact ⟨by simp [stringsEnd, stringBytes], hoffset⟩
  | succ n ih =>
    rw [copyStores] at h
    obtain ⟨hpage, hrest⟩ := List.forall_mem_cons.mp h
    obtain ⟨hlow, hhigh⟩ := hpage
    rw [List.length_append, List.length_singleton] at hhigh
    have hlen : toInt32 ((strings i).length + 1) = ((strings i).length + 1 : ℕ) :=
      toInt32_of_le (by omega)
    obtain ⟨hlast, hpos⟩ := ih hlow (by omega) (List.forall_mem_cons.mp hrest).2
    refine ⟨hlast.trans ?_, hpos⟩
    rw [hlen, stringBytes_succ]
    push_cast
    ring

/-- Strings that fit in front of the offset take their bytes of it. -/
theorem stringsEnd_eq (hfit : (stringBytes strings n i : ℤ) ≤ offset) (hle : offset ≤ 4096) :
    stringsEnd strings n i offset = offset - stringBytes strings n i := by
  induction n generalizing i offset with
  | zero => simp [stringsEnd, stringBytes]
  | succ n ih =>
    rw [stringBytes_succ] at hfit ⊢
    push_cast at hfit
    have hlen : toInt32 ((strings i).length + 1) = ((strings i).length + 1 : ℕ) :=
      toInt32_of_le (by omega)
    rw [stringsEnd, hlen, ih (by push_cast; omega) (by omega)]
    push_cast
    ring

/-- Strings that fit in front of the offset stay in the page. -/
theorem copyStores_inside (hfit : (stringBytes strings n i : ℤ) ≤ offset) (hle : offset ≤ 4096)
    (hslots : i + n ≤ maxArgs) :
    ∀ s ∈ (copyStores (fun _ => strings) stackPage n i offset v).1, s.Inside := by
  induction n generalizing i offset v with
  | zero => exact List.forall_mem_nil _
  | succ n ih =>
    rw [stringBytes_succ] at hfit
    push_cast at hfit
    have hlen : toInt32 ((strings i).length + 1) = ((strings i).length + 1 : ℕ) :=
      toInt32_of_le (by omega)
    rw [copyStores]
    dsimp only
    rw [hlen]
    refine List.forall_mem_cons.mpr ⟨⟨?_, ?_⟩, List.forall_mem_cons.mpr ⟨?_, ih ?_ ?_ ?_⟩⟩
    · push_cast
      omega
    · rw [List.length_append, List.length_singleton]
      push_cast
      omega
    · exact (by omega : i < maxArgs)
    · push_cast
      omega
    · omega
    · omega

theorem wordStores_inside_iff (words : List ℕ) : (∀ s ∈ wordStores offset words, s.Inside) ↔
    words.length = 0 ∨ 0 ≤ offset ∧ offset + 8 * words.length ≤ 4096 := by
  induction words generalizing offset with
  | nil => exact iff_of_true (List.forall_mem_nil _) (Or.inl rfl)
  | cons w words ih =>
    have hlen : (wordBytes w).length = 8 := length_wordBytes w
    rw [wordStores, List.forall_mem_cons, ih, ArgStore.Inside, hlen, List.length_cons]
    constructor
    · rintro ⟨hfirst, hrest⟩
      omega
    · rintro (hnone | hall)
      · exact absurd hnone (Nat.succ_ne_zero _)
      · omega

/-- The pointers start inside the page if the strings end there and the pointers fit. -/
theorem pointerOffset_nonneg_iff {argc last : ℤ} {bytes : ℕ} (hlast : last = 4096 - bytes)
    (hpos : 0 ≤ last) : 0 ≤ pointerOffset argc last ↔
      ((bytes + 7) / 8 * 8 : ℕ) + (argc + 1) * 8 ≤ 4096 := by
  rw [pointerOffset, Int.tmod_eq_emod_of_nonneg hpos]
  omega

theorem pointerOffset_le {argc last : ℤ} (hpos : 0 ≤ last) (hle : last ≤ 4096) :
    pointerOffset argc last + (argc + 1) * 8 ≤ 4096 := by
  rw [pointerOffset, Int.tmod_eq_emod_of_nonneg hpos]
  omega

/-- All stores are inside if and only if the arguments fit. -/
theorem argStores_inside_iff : (∀ s ∈ argStores argc (fun _ => strings) stackPage v, s.Inside) ↔
    ArgsFit ⟨argc, strings⟩ := by
  have hmax : maxArgs = 32 := rfl
  obtain ⟨last, hlast⟩ : ∃ last, last = stringsEnd strings argc.toNat 0 4096 := ⟨_, rfl⟩
  have hsplit : (∀ s ∈ argStores argc (fun _ => strings) stackPage v, s.Inside) ↔
      (∀ s ∈ (copyStores (fun _ => strings) stackPage argc.toNat 0 4096 v).1, s.Inside) ∧
        (argc.toNat = 0 ∨ 0 ≤ pointerOffset argc last ∧
          pointerOffset argc last + 8 * argc.toNat ≤ 4096) ∧
        0 ≤ pointerOffset argc last + 8 * argc ∧ pointerOffset argc last + 8 * argc + 8 ≤ 4096 := by
    rw [argStores]
    dsimp only
    rw [List.forall_mem_append, List.forall_mem_append, wordStores_inside_iff,
      wordStores_inside_iff, length_copyStores, copyStores_end, ← hlast, and_assoc]
    simp
  have hnone : argc ≤ 0 → stringBytes strings argc.toNat 0 = 0 := fun hneg => by
    rw [Int.toNat_of_nonpos hneg, stringBytes, Finset.sum_range_zero]
  rw [hsplit]
  constructor
  · rintro ⟨hstrings, hpointers, hnull⟩
    obtain ⟨hend, hpos⟩ := copyStores_last (by decide) (le_refl _) hstrings
    rw [← hlast] at hend hpos
    have hargc : argc ≤ maxArgs := by
      by_contra hgt
      obtain ⟨addr, hmem⟩ := @slot_mem_copyStores (fun _ => strings) 4096 argc.toNat 0 stackPage v
        maxArgs (by omega)
      have hslot : 0 + maxArgs < maxArgs := hstrings _ hmem
      exact absurd hslot (by decide)
    refine ⟨hargc, ?_⟩
    change ((stringBytes strings argc.toNat 0 + 7) / 8 * 8 : ℕ) + (argc + 1) * 8 ≤ 4096
    rw [← pointerOffset_nonneg_iff hend hpos]
    -- the first of the pointers, or the `NULL` if there are none, starts the array
    rcases lt_trichotomy argc 0 with hneg | hzero | hsome
    · rw [pointerOffset_nonneg_iff hend hpos, hnone hneg.le]
      omega
    · omega
    · omega
  · rintro ⟨hargc, hfit⟩
    change argc ≤ maxArgs at hargc
    change ((stringBytes strings argc.toNat 0 + 7) / 8 * 8 : ℕ) + (argc + 1) * 8 ≤ 4096 at hfit
    have hbytes : (stringBytes strings argc.toNat 0 : ℤ) ≤ 4096 := by
      rcases le_or_gt argc 0 with hneg | hsome
      · rw [hnone hneg]
        decide
      · omega
    have hstrings :=
      @copyStores_inside strings 4096 argc.toNat 0 stackPage v hbytes (le_refl _) (by omega)
    have hend := stringsEnd_eq hbytes (le_refl _)
    rw [← hlast] at hend
    have hpos : 0 ≤ last := by omega
    have hoffset := (pointerOffset_nonneg_iff hend hpos).mpr hfit
    have hle := @pointerOffset_le argc _ hpos (by omega)
    refine ⟨hstrings, ?_, ?_⟩
    · omega
    · rcases le_or_gt 0 argc with hsome | hneg
      · omega
      · -- the only store is one in front of the end of the page
        have hempty := hnone hneg.le
        rw [pointerOffset, Int.tmod_eq_emod_of_nonneg hpos]
        omega

/-- Strings that do not change are read as they were. -/
theorem argsFit_stringsRead_iff (h : Steady argc argv stackPage v) :
    ArgsFit ⟨argc, stringsRead argc argv stackPage v⟩ ↔ ArgsFit ⟨argc, argv v.mem⟩ := by
  rw [← argStores_inside_iff (v := v), ← argStores_inside_iff (v := v), ← argStores_read]
  constructor
  · intro hall
    rwa [← argStores_steady h (Or.inl hall)]
  · intro hall
    rwa [argStores_steady h (Or.inr hall)]

end Stores

/-! ## Creations -/

/-- The stack page, and the memory in which the arguments are copied, when the file has been loaded
and the stack is mapped. -/
def Kernel.beforeArguments (p : Platform) (file : FatFile) (k : Kernel) : Option (ℕ × Vm) := do
  let (pml4, _, k₁) ← k.newPml4 p
  let (elf, k₂) ← k₁.loadElfFile p file pml4
  match elf with
  | none => none
  | some _ => do
    let (done, stackPage, v) ← mapStack pml4 (userStackSize / 4096) 0 0 k₂.vm
    if done then some (stackPage, v) else none

/-- What a creation stores while it copies the arguments. -/
def Kernel.execStores (p : Platform) (file : FatFile) (argc : ℤ)
    (argv : Frames → ℕ → List (BitVec 8)) (k : Kernel) : List ArgStore :=
  match k.beforeArguments p file with
  | none => []
  | some (stackPage, v) => argStores argc argv stackPage v

/-- The creation stores only inside while it copies the arguments. If it does not store anything,
it returns -1 or not at all. -/
def ExecSafe (p : Platform) (file : FatFile) (argc : ℤ) (argv : Frames → ℕ → List (BitVec 8))
    (k : Kernel) : Prop :=
  (∀ s ∈ k.execStores p file argc argv, s.Inside) ∧
    (k.execStores p file argc argv = [] → ∀ strings isWm result k',
      k.createUserProcessFromFile p file ⟨argc, strings⟩ isWm = some (result, k') → result = -1)

section Creation

variable {p : Platform} {file : FatFile} {args : Args} {isWm : Bool} {k k' : Kernel}
variable {argc : ℤ} {argv : Frames → ℕ → List (BitVec 8)}

/-- A creation either does not get to the arguments, and fails, or performs the stores in the
memory that it comes to. -/
theorem createUserProcessFromFile_stores {result : ℤ}
    (hrun : Kernel.createUserProcessFromFile p file args isWm k = some (result, k')) :
    (k.beforeArguments p file = none ∧ result = -1) ∨
      ∃ (pml4 cr3 programBreak : ℕ) (k₂ : Kernel) (stackPage : ℕ) (v : Vm),
        k.beforeArguments p file = some (stackPage, v) ∧
        Kernel.addProcess p isWm pml4 cr3 programBreak { k₂ with
          vm := (argStores args.argc (fun _ => args.argv) stackPage v).foldl
            (ArgStore.perform stackPage) v } = some (result, k') := by
  obtain ⟨⟨pml4, cr3, k₁⟩, hpml4, hrun⟩ := Option.bind_eq_some_iff.mp hrun
  obtain ⟨⟨elf, k₂⟩, hload, hrun⟩ := Option.bind_eq_some_iff.mp hrun
  rw [Kernel.beforeArguments, hpml4]
  simp only [Option.bind_eq_bind, Option.bind_some]
  rw [hload]
  cases elf with
  | none => exact Or.inl ⟨rfl, (Prod.mk.inj (Option.some_inj.mp hrun)).1.symm⟩
  | some elf =>
    obtain ⟨⟨done, stackPage, v₃⟩, hstack, hrun⟩ := Option.bind_eq_some_iff.mp hrun
    simp only [Option.bind_some]
    rw [hstack]
    cases done with
    | false => exact Or.inl ⟨rfl, (Prod.mk.inj (Option.some_inj.mp hrun)).1.symm⟩
    | true =>
      obtain ⟨v₄, hargs, hrun⟩ := Option.bind_eq_some_iff.mp hrun
      have hargc : args.argc ≤ maxArgs := by
        by_contra hgt
        rw [Kernel.passArgs, if_pos (not_le.mp hgt)] at hargs
        cases hargs
      rw [passArgs_eq hargc] at hargs
      rw [← Option.some_inj.mp hargs] at hrun
      exact Or.inr ⟨pml4, cr3, elf.programBreak, k₂, stackPage, v₃, rfl, hrun⟩

end Creation

/-! ## A creation that overruns the array -/

section Stack

variable {v : Vm} {pml4 n i first : ℕ}

/-- With four pages left for each page of the stack, the stack can be mapped. -/
theorem exists_mapStack (hv : v.Sound) (hroom : v.pmm.usedPages + 4 * n ≤ v.pmm.totalPages) :
    ∃ page v', Kernel.mapStack pml4 n i first v = some (true, page, v') := by
  induction n generalizing i first v with
  | zero => exact ⟨first, v, rfl⟩
  | succ n ih =>
    obtain ⟨f, v₁, halloc⟩ := hv.exists_allocFrame (by omega)
    obtain ⟨-, hv₁, -, -, -, -, htotal₁, hused₁, -⟩ := hv.allocFrame_some halloc
    obtain ⟨v₂, hmap, hv₂, hused₂, htotal₂⟩ := hv₁.exists_vmmMapPage (by omega) pml4
      (userStackTop - (i + 1) * 4096) f 7
    rw [Kernel.mapStack, halloc]
    simp only [Option.bind_eq_bind, hmap, Option.bind_some]
    exact ih hv₂ (by omega)

end Stack

/-- A program that has no segments to load. -/
def emptyElf : List (BitVec 8) :=
  [0x7F#8, 0x45#8, 0x4C#8, 0x46#8] ++ leBytes 28 0 ++ leBytes 8 64 ++ leBytes 16 0 ++
    leBytes 2 1 ++ leBytes 6 0 ++ leBytes 56 0

/-- The first three of 32768 pages are used. -/
def largePmm : Pmm where
  bitmap i := if i = 0 then 0x07#8 else 0#8
  bitmapPhys := 0
  totalPages := 32768
  usedPages := 3
  bitmapSizeBytes := 4096
  bitmapSizePages := 1
  hhdm := 0xFFFF800000000000
  lastSearchPos := 0

/-- The sample kernel on a machine with more memory. -/
def largeLoader : Kernel :=
  { sampleLoader with
    vm := { mem := fun _ _ => 0, pmm := largePmm, lent := {0x2000}, freed := [] } }

theorem largePmm_consistent : largePmm.Consistent := by
  refine ⟨?_, by decide, by decide, by decide⟩
  have hbelow : ∀ i < largePmm.totalPages, largePmm.bitmapTest i = true → i < 8 := by
    intro i _ hset
    by_contra hge
    have hbyte : largePmm.bitmap (i / 8) = 0#8 := if_neg (by omega)
    rw [Pmm.bitmapTest, Bytes.testBit_eq, hbyte] at hset
    simp at hset
  have hcount : largePmm.usedBits = Nat.count (fun i => largePmm.bitmapTest i = true) 8 :=
    count_eq_of_lt (by decide) hbelow
  rw [hcount]
  decide

theorem largeLoader_sound : largeLoader.vm.Sound :=
  ⟨largePmm_consistent, by decide, fun f hf => ⟨2, by decide, hf, by decide⟩⟩

/-- The header block comes from the first block of the heap, and goes back to it. -/
theorem sampleLoader_kmalloc : ∃ ptr heap heap',
    sampleLoader.heap.kmalloc phdrSize = some (ptr, heap) ∧ ptr ≠ 0 ∧
      heap.heapEnd = sampleLoader.heap.heapEnd ∧ heap.kfree ptr = some heap' := by
  have hruns : ((sampleLoader.heap.kmalloc phdrSize).any fun x => decide (x.1 ≠ 0 ∧
      x.2.heapEnd = sampleLoader.heap.heapEnd ∧ (x.2.kfree x.1).isSome)) = true := by
    decide +kernel
  obtain ⟨⟨ptr, heap⟩, hrun, hfacts⟩ := (Option.any_eq_true _ _).mp hruns
  obtain ⟨hne, hend, hfree⟩ := of_decide_eq_true hfacts
  obtain ⟨heap', hheap'⟩ := Option.isSome_iff_exists.mp hfree
  exact ⟨ptr, heap, heap', hrun, hne, hend, hheap'⟩

theorem emptyElf_facts : (emptyElf.take 64).length = ehdrSize ∧
    elfVerifyHeader (emptyElf.take 64) = true ∧ field (emptyElf.take 64) 24 8 = 0 ∧
    field (emptyElf.take 64) 32 8 = 64 ∧ field (emptyElf.take 64) 56 2 = 1 ∧
    ((emptyElf.drop 64).take phdrSize).length = phdrSize ∧
    phdrTable ((emptyElf.drop 64).take phdrSize) 1 = [⟨0, 0, 0, 0, 0⟩] := by
  decide +kernel

section Empty

variable {p : Platform} {k : Kernel} {ptr : ℕ} {contents : List (BitVec 8)} {heap heap' : KHeap}

theorem elfReadHeader_ofContents (hlen : (contents.take ehdrSize).length = ehdrSize)
    (hok : elfVerifyHeader (contents.take ehdrSize) = true) :
    Kernel.elfReadHeader (.ofContents contents) k =
      (some (.parse (contents.take ehdrSize)), { k with reads := k.reads + 1 }) := by
  have hread : (FatFile.ofContents contents).read k.reads 0 ehdrSize =
      (true, contents.take ehdrSize) := rfl
  rw [Kernel.elfReadHeader, hread]
  dsimp only
  rw [if_pos ⟨rfl, hlen, hok⟩]

/-- A request that the heap can serve as it is maps no page. -/
theorem kmalloc_of_heapEnd_eq {size : ℕ} (hmalloc : k.heap.kmalloc size = some (ptr, heap))
    (hend : heap.heapEnd = k.heap.heapEnd) (hlt : k.heap.heapEnd < 2 ^ 64) :
    k.kmalloc p size = some (ptr, { k with heap := heap }) := by
  have hnone : sub64 heap.heapEnd k.heap.heapEnd / pageSize = 0 := by
    rw [hend, sub64_of_le le_rfl hlt, Nat.sub_self, Nat.zero_div]
  have hgrow : Kernel.growHeap p 0 k.heap.heapEnd k = some k := rfl
  rw [Kernel.kmalloc, hmalloc]
  simp only [Option.bind_eq_bind, Option.bind_some, hnone, hgrow]

theorem elfReadProgramHeaders_ofContents {header : Ehdr} (hlow : header.phoff < 2 ^ 32)
    (hmalloc : k.heap.kmalloc (header.phnum * phdrSize) = some (ptr, heap)) (hne : ptr ≠ 0)
    (hend : heap.heapEnd = k.heap.heapEnd) (hlt : k.heap.heapEnd < 2 ^ 64)
    (hlen : ((contents.drop header.phoff).take (header.phnum * phdrSize)).length =
      header.phnum * phdrSize) :
    Kernel.elfReadProgramHeaders p (.ofContents contents) header k =
      some (some (ptr, phdrTable
        ((contents.drop header.phoff).take (header.phnum * phdrSize)) header.phnum),
          { k with reads := k.reads + 1, heap := heap }) := by
  have hread : ((FatFile.ofContents contents).read k.reads (header.phoff % 2 ^ 32)
      (header.phnum * phdrSize)).2 =
        (contents.drop header.phoff).take (header.phnum * phdrSize) := by
    rw [Nat.mod_eq_of_lt hlow]
    rfl
  rw [Kernel.elfReadProgramHeaders]
  simp only [kmalloc_of_heapEnd_eq (p := p) hmalloc hend hlt, Option.bind_eq_bind,
    Option.bind_some, if_neg hne, hread, hlen, ne_eq, not_true_eq_false, if_false]

/-- Loading the program maps nothing, when the heap has a block for the header table. -/
theorem loadElfFile_emptyElf (hmalloc : k.heap.kmalloc phdrSize = some (ptr, heap)) (hne : ptr ≠ 0)
    (hend : heap.heapEnd = k.heap.heapEnd) (hlt : k.heap.heapEnd < 2 ^ 64)
    (hfree : heap.kfree ptr = some heap') (pml4 : ℕ) :
    ∃ elf k', k.loadElfFile p (.ofContents emptyElf) pml4 = some (some elf, k') ∧
      k'.vm = k.vm ∧ k'.heap = heap' := by
  obtain ⟨hlen, hok, hentry, hphoff, hphnum, hlength, hphdrs⟩ := emptyElf_facts
  have hparse : Ehdr.parse (emptyElf.take ehdrSize) = ⟨0, 64, 1⟩ := by
    rw [Ehdr.parse, ehdrSize, hentry, hphoff, hphnum]
  have hheader := @elfReadHeader_ofContents k emptyElf hlen hok
  rw [hparse] at hheader
  have htable := @elfReadProgramHeaders_ofContents p { k with reads := k.reads + 1 } ptr emptyElf
    heap ⟨0, 64, 1⟩ (by decide) (by rw [Nat.one_mul]; exact hmalloc) hne hend hlt
    (by rw [Nat.one_mul]; exact hlength)
  rw [Nat.one_mul, hphdrs] at htable
  have hopens : (FatFile.ofContents emptyElf).opens = true := rfl
  have hsegments : ∀ k' : Kernel, k'.elfLoadSegments (.ofContents emptyElf) pml4
      [⟨0, 0, 0, 0, 0⟩] 0 = some (0, k') := by
    intro k'
    rw [Kernel.elfLoadSegments, if_pos (by decide), Kernel.elfLoadSegments]
  rw [Kernel.loadElfFile, if_pos hopens, hheader]
  simp only [htable, Option.bind_eq_bind, Option.bind_some, hsegments, Kernel.kfree, hfree]
  exact ⟨_, _, rfl, rfl, rfl⟩

/-- On the machine with more memory the loader gets to the arguments. -/
theorem emptyElf_reaches (hvm : k.vm = largeLoader.vm)
    (hmalloc : k.heap.kmalloc phdrSize = some (ptr, heap)) (hne : ptr ≠ 0)
    (hend : heap.heapEnd = k.heap.heapEnd) (hlt : k.heap.heapEnd < 2 ^ 64)
    (hfree : heap.kfree ptr = some heap') :
    ∃ pml4 k₁ elf k₂ page v, k.newPml4 sampleBios = some (pml4, pml4, k₁) ∧
      k₁.loadElfFile sampleBios (.ofContents emptyElf) pml4 = some (some elf, k₂) ∧
      Kernel.mapStack pml4 (userStackSize / 4096) 0 0 k₂.vm = some (true, page, v) ∧
      k₂.heap = heap' := by
  have hsound := largeLoader_sound
  have hused : largeLoader.vm.pmm.usedPages = 3 ∧ largeLoader.vm.pmm.totalPages = 32768 :=
    ⟨rfl, rfl⟩
  obtain ⟨f, v₁, halloc⟩ := hsound.exists_allocFrame (by omega)
  obtain ⟨-, hv₁, -, -, -, -, htotal₁, hused₁, -⟩ := hsound.allocFrame_some halloc
  have hpml4 : k.newPml4 sampleBios = some (f, f, { k with
      vm := v₁.copyKernelHalf f sampleBios.kernelPml4, nullUsed := k.nullUsed || false }) := by
    rw [Kernel.newPml4, hvm, halloc]
    rfl
  obtain ⟨elf, k₂, hload, hvm₂, hheap⟩ := loadElfFile_emptyElf (p := sampleBios) (k := { k with
    vm := v₁.copyKernelHalf f sampleBios.kernelPml4, nullUsed := k.nullUsed || false }) hmalloc hne
      hend hlt hfree f
  have hv₂ : k₂.vm.Sound := by
    rw [hvm₂]
    exact hv₁.of_same rfl rfl
  have hbooks : k₂.vm.pmm = v₁.pmm := by
    rw [hvm₂]
    rfl
  have hpages : userStackSize / 4096 = 4096 := rfl
  obtain ⟨page, v₃, hstack⟩ := @exists_mapStack k₂.vm f (userStackSize / 4096) 0 0 hv₂
    (by rw [hbooks, hpages]; omega)
  exact ⟨f, _, elf, k₂, page, v₃, hpml4, hload, hstack, hheap⟩

end Empty

/-- The loader gets to the arguments. -/
theorem largeLoader_reaches : ∃ stackPage v,
    largeLoader.beforeArguments sampleBios (.ofContents emptyElf) = some (stackPage, v) := by
  obtain ⟨ptr, heap, heap', hmalloc, hne, hend, hfree⟩ := sampleLoader_kmalloc
  obtain ⟨pml4, k₁, elf, k₂, page, v, hpml4, hload, hstack, -⟩ :=
    emptyElf_reaches (k := largeLoader) rfl hmalloc hne hend (by decide) hfree
  refine ⟨page, v, ?_⟩
  rw [Kernel.beforeArguments, hpml4]
  simp only [Option.bind_eq_bind, Option.bind_some]
  rw [hload]
  simp only [Option.bind_some]
  rw [hstack]
  rfl

end OpenIDP.Exec
