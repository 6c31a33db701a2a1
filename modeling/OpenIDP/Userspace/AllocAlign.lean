import OpenIDP.Userspace.AllocSizes

/-!
# The alignment of allocated memory

Both allocators round sizes up to multiples of 16. A header has 40 bytes, and the first block is at
the start of a page, so its payload is not at a multiple of 16.

The runs begin as the kernel and the program do: the kernel heap has its first block, and the break
of a program is the end of its image, rounded up to a page. Whatever the calls, the first pointer
that is not `NULL` is the payload of a block at the start of a page.

## Main definitions

* `KernelCalls` — calls of `kmalloc`, `kfree` and `krealloc`, and what they returned
* `UserCalls` — calls of `malloc` and `free`, and what they returned
* `Requests`, `Gets` — a call that gets memory when there was none before

## Main results

* `kernelCalls_first`, `userCalls_first` — the first pointer of a run
* `pointers_aligned_iff` — all pointers are aligned only where there are none
-/

namespace OpenIDP.Userspace

open OpenIDP.Math OpenIDP.Memory OpenIDP.Memory.KHeap

/-- The kernel heap after some calls since `heap_init`, with the calls and what they returned, the
last one first. Only pointers that were returned are passed on. -/
inductive KernelCalls : KHeap → List HeapCall → List ℕ → Prop
  | init {h : KHeap} (hdr : ℕ → HeapBlock) : heapInit hdr = some h → KernelCalls h [] []
  | kmalloc {h h' : KHeap} {calls : List HeapCall} {ptrs : List ℕ} {size ptr : ℕ} :
      KernelCalls h calls ptrs → size < 2 ^ 64 → h.kmalloc size = some (ptr, h') →
      KernelCalls h' (.kmalloc size :: calls) (ptr :: ptrs)
  | kfree {h h' : KHeap} {calls : List HeapCall} {ptrs : List ℕ} {ptr : ℕ} :
      KernelCalls h calls ptrs → (ptr = 0 ∨ ptr ∈ ptrs) → h.kfree ptr = some h' →
      KernelCalls h' (.kfree ptr :: calls) ptrs
  | krealloc {h h' : KHeap} {calls : List HeapCall} {ptrs : List ℕ} {ptr size newptr : ℕ} :
      KernelCalls h calls ptrs → (ptr = 0 ∨ ptr ∈ ptrs) → size < 2 ^ 64 →
      h.krealloc ptr size = some (newptr, h') →
      KernelCalls h' (.krealloc ptr size :: calls) (newptr :: ptrs)

/-- The call asks for memory. -/
def Requests : HeapCall → Prop
  | .kmalloc size | .krealloc _ size => size ≠ 0
  | .kfree _ => False

/-- A call of a program: `malloc`, with memory as it is then, and `free`. -/
inductive UserCall
  | malloc (vm : Vm) (size : ℕ)
  | free (ptr : ℕ)

/-- The pointer to the payload of a block. -/
def payload : Option ℕ → ℕ
  | some block => wrap (block + blockHeaderSize)
  | none => 0

/-- The program break does not move while `malloc` runs. -/
def standing (programBreak : ℕ) : SbrkTimes := ⟨programBreak, fun _ => programBreak, programBreak⟩

/-- The heap of a program after some calls since its break was `start`, with the calls and what they
returned, the last one first. Only pointers that were returned are passed on. -/
inductive UserCalls (root start : ℕ) : KHeap → List UserCall → List ℕ → Prop
  | init (hdr : ℕ → HeapBlock) : UserCalls root start ⟨hdr, 0, start⟩ [] []
  | malloc {h h' : KHeap} {calls : List UserCall} {ptrs : List ℕ} {size : ℕ} {vm vm' : Vm}
      {block : Option ℕ} : UserCalls root start h calls ptrs → size < 2 ^ 64 →
      Userspace.malloc h (standing h.heapEnd) vm root size = some (block, h', vm') →
      UserCalls root start h' (.malloc vm size :: calls) (payload block :: ptrs)
  | free {h h' : KHeap} {calls : List UserCall} {ptrs : List ℕ} {ptr : ℕ} :
      UserCalls root start h calls ptrs → (ptr = 0 ∨ ptr ∈ ptrs) →
      Userspace.free h ptr = some h' → UserCalls root start h' (.free ptr :: calls) ptrs

/-- The call asks for memory, and `sbrk` does not refuse it. -/
def Gets (root start : ℕ) : UserCall → Prop
  | .malloc vm size => size ≠ 0 ∧
      ∀ programBreak vm', sysSbrk vm root start (toInt64 (totalReq size)) ≠
        some (sbrkFailed, programBreak, vm')
  | .free _ => False

/-! ### The first pointer -/

/-- Some call gets memory, and some pointer is eight bytes behind a multiple of 16. -/
structure Misaligned {α : Type} (gets : α → Prop) (calls : List α) (ptrs : List ℕ) : Prop where
  call : ∃ call ∈ calls, gets call
  pointer : ∃ ptr ∈ ptrs, ptr % 16 = 8

/-- No call gets memory, and all pointers are `NULL`. -/
structure Untouched {α : Type} (gets : α → Prop) (calls : List α) (ptrs : List ℕ) : Prop where
  call : ∀ call ∈ calls, ¬gets call
  null : ∀ ptr ∈ ptrs, ptr = 0

section Calls

variable {α : Type} {gets : α → Prop} {calls : List α} {ptrs ptrs' : List ℕ} {call : α} {ptr : ℕ}

theorem Misaligned.cons (h : Misaligned gets calls ptrs) (call : α) (hsub : ptrs ⊆ ptrs') :
    Misaligned gets (call :: calls) ptrs' where
  call := h.call.imp fun _ hcall => ⟨List.mem_cons_of_mem _ hcall.1, hcall.2⟩
  pointer := h.pointer.imp fun _ hptr => ⟨hsub hptr.1, hptr.2⟩

theorem Misaligned.first (hcall : gets call) (hptr : ptr % 16 = 8) :
    Misaligned gets (call :: calls) (ptr :: ptrs) :=
  ⟨⟨call, List.mem_cons_self, hcall⟩, ptr, List.mem_cons_self, hptr⟩

theorem Untouched.nil : Untouched gets [] [] := ⟨List.forall_mem_nil _, List.forall_mem_nil _⟩

theorem Untouched.cons (h : Untouched gets calls ptrs) (hcall : ¬gets call) :
    Untouched gets (call :: calls) ptrs :=
  ⟨List.forall_mem_cons.mpr ⟨hcall, h.call⟩, h.null⟩

theorem Untouched.returns_null (h : Untouched gets calls ptrs) : Untouched gets calls (0 :: ptrs) :=
  ⟨h.call, List.forall_mem_cons.mpr ⟨rfl, h.null⟩⟩

theorem aligned_iff (h : Misaligned gets calls ptrs ∨ Untouched gets calls ptrs) :
    (∀ ptr ∈ ptrs, ptr % 16 = 0) ↔ ∀ call ∈ calls, ¬gets call := by
  rcases h with ⟨⟨call, hcall, hgets⟩, ptr, hptr, hmod⟩ | hnone
  · refine iff_of_false (fun haligned => ?_) fun hnone => hnone call hcall hgets
    rw [haligned ptr hptr] at hmod
    exact absurd hmod (by decide)
  · exact iff_of_true (fun ptr hptr => by rw [hnone.null ptr hptr]) hnone.call

end Calls

section First

variable {h h' : KHeap} {calls : List HeapCall} {ptrs : List ℕ} {hdr : ℕ → HeapBlock}
  {size ptr root start : ℕ}

/-- The first request gets the first block or a block behind it, at the start of a page. -/
theorem kmalloc_init (hinit : heapInit hdr = some h) (hsize : size ≠ 0)
    (hrun : h.kmalloc size = some (ptr, h')) : ptr % 16 = 8 := by
  obtain ⟨h₁, hinit₁, hl, -⟩ := heapInit_layout hdr
  obtain rfl : h₁ = h := Option.some_inj.mp (hinit₁.symm.trans hinit)
  rw [KHeap.kmalloc, if_neg hsize] at hrun
  simp only [hl.firstFit_eq, Option.bind_eq_bind, Option.bind_some] at hrun
  cases hfind : [kheapStart].find? fun curr =>
      h₁.free curr && decide (h₁.size curr ≥ alignUp size heapAlignment) with
  | some a =>
    have hfirst := List.mem_singleton.mp (List.mem_of_find?_eq_some hfind)
    rw [hfind, Option.getD_some, hfirst, if_pos (by decide)] at hrun
    cases hrun
    decide
  | none =>
    have hgrowth : growth size ≠ 0 := fun hzero => by
      rw [hfind, Option.getD_none, if_neg (not_not_intro rfl), heapExpand_of_zero hzero] at hrun
      cases hrun
    obtain ⟨h₂, hexpand, hlast, -⟩ := hl.heapExpand_any hgrowth
    rw [hfind, Option.getD_none, if_neg (not_not_intro rfl), hexpand, Option.bind_some, hlast,
      Option.bind_some, heapInit_heapEnd hinit] at hrun
    cases hrun
    decide

theorem kmalloc_zero (hsize : size = 0) (hrun : h.kmalloc size = some (ptr, h')) :
    ptr = 0 ∧ h' = h := by
  rw [KHeap.kmalloc, if_pos hsize] at hrun
  cases hrun
  exact ⟨rfl, rfl⟩

/-- The first pointer of the kernel is misaligned. -/
theorem kernelCalls_first (hrun : KernelCalls h calls ptrs) :
    Misaligned Requests calls ptrs ∨
      Untouched Requests calls ptrs ∧ ∃ hdr, heapInit hdr = some h := by
  induction hrun with
  | init hdr hinit => exact Or.inr ⟨.nil, hdr, hinit⟩
  | @kmalloc h h' calls ptrs size ptr _ _ hcall ih =>
    rcases ih with hmis | ⟨hnone, hdr, hinit⟩
    · exact Or.inl (hmis.cons _ (List.subset_cons_self _ _))
    · by_cases hsize : size = 0
      · obtain ⟨rfl, rfl⟩ := kmalloc_zero hsize hcall
        have hcalls := hnone.cons fun hne : Requests (.kmalloc size) => hne hsize
        exact Or.inr ⟨hcalls.returns_null, hdr, hinit⟩
      · exact Or.inl (.first hsize (kmalloc_init hinit hsize hcall))
  | @kfree h h' calls ptrs ptr _ hptr hcall ih =>
    rcases ih with hmis | ⟨hnone, hdr, hinit⟩
    · exact Or.inl (hmis.cons _ (List.Subset.refl _))
    · obtain rfl : ptr = 0 := hptr.elim id (hnone.null ptr)
      cases hcall
      exact Or.inr ⟨hnone.cons id, hdr, hinit⟩
  | @krealloc h h' calls ptrs ptr size newptr _ hptr _ hcall ih =>
    rcases ih with hmis | ⟨hnone, hdr, hinit⟩
    · exact Or.inl (hmis.cons _ (List.subset_cons_self _ _))
    · obtain rfl : ptr = 0 := hptr.elim id (hnone.null ptr)
      rw [KHeap.krealloc, if_pos rfl] at hcall
      by_cases hsize : size = 0
      · obtain ⟨rfl, rfl⟩ := kmalloc_zero hsize hcall
        have hcalls := hnone.cons fun hne : Requests (.krealloc 0 size) => hne hsize
        exact Or.inr ⟨hcalls.returns_null, hdr, hinit⟩
      · exact Or.inl (.first hsize (kmalloc_init hinit hsize hcall))

/-- `sbrk` returns the break, or fails and leaves it. -/
theorem sysSbrk_cases {vm vm' : Vm} {inc : ℤ} {block programBreak : ℕ}
    (hrun : sysSbrk vm root start inc = some (block, programBreak, vm')) :
    block = start ∨ block = sbrkFailed ∧ programBreak = start := by
  rw [sysSbrk] at hrun
  dsimp only at hrun
  split_ifs at hrun
  · cases hrun
    exact Or.inl rfl
  · obtain ⟨⟨done, vm₁⟩, -, hdone⟩ := Option.bind_eq_some_iff.mp hrun
    dsimp only at hdone
    split_ifs at hdone <;> cases hdone
    · exact Or.inl rfl
    · exact Or.inr ⟨rfl, rfl⟩
  · cases hrun
    exact Or.inl rfl

/-- A program that has no memory yet: its list is empty, or begins at the break. -/
structure Fresh (start : ℕ) (h : KHeap) : Prop where
  end_eq : h.heapEnd = start
  head_eq : h.head = 0 ∨ h.head = start

/-- As long as there is no block `malloc` does what `sbrk` does. -/
theorem malloc_fresh (hfresh : Fresh start h) (hsize : size ≠ 0) {vm vm' : Vm} {block : Option ℕ}
    (hstart : start ≠ sbrkFailed)
    (hrun : malloc h (standing h.heapEnd) vm root size = some (block, h', vm')) :
    (block = some start ∧ Gets root start (.malloc vm size)) ∨
      block = none ∧ ¬Gets root start (.malloc vm size) ∧ Fresh start h' := by
  have hhead : (firstTime h start).head = start := by
    rw [firstTime]
    split_ifs with hzero
    · rfl
    · exact hfresh.head_eq.resolve_left hzero
  -- the search ends at once, as the list begins at the break
  have hrounds : maxBlocks = (2 ^ 64 - 1) + 1 := rfl
  rw [malloc, if_neg hsize, hfresh.end_eq] at hrun
  dsimp only [standing] at hrun
  rw [hhead, hrounds, findBlock, if_pos (Or.inr le_rfl), Option.bind_eq_bind,
    Option.bind_some] at hrun
  dsimp only at hrun
  rw [if_neg (not_not_intro rfl), Option.bind_eq_bind, Option.bind_eq_some_iff] at hrun
  obtain ⟨⟨found, programBreak, vm₁⟩, hsbrk, hrun⟩ := hrun
  dsimp only at hrun
  rcases sysSbrk_cases hsbrk with rfl | ⟨rfl, rfl⟩
  · rw [if_neg hstart] at hrun
    cases (Option.ite_none_right_eq_some.mp hrun).2
    refine Or.inl ⟨rfl, hsize, fun b v hrefused => hstart ?_⟩
    rw [hsbrk] at hrefused
    exact (Prod.mk.inj (Option.some_inj.mp hrefused)).1
  · rw [if_pos rfl] at hrun
    cases hrun
    exact Or.inr ⟨rfl, fun hgets => hgets.2 _ _ hsbrk, rfl, Or.inr rfl⟩

/-- The first pointer of a program is misaligned. -/
theorem userCalls_first {calls : List UserCall} (haligned : start % 16 = 0)
    (hrun : UserCalls root start h calls ptrs) :
    Misaligned (Gets root start) calls ptrs ∨
      Untouched (Gets root start) calls ptrs ∧ Fresh start h := by
  have hstart : start ≠ sbrkFailed := fun heq => by
    rw [heq] at haligned
    exact absurd haligned (by decide)
  induction hrun with
  | init hdr => exact Or.inr ⟨.nil, rfl, Or.inl rfl⟩
  | @malloc h h' calls ptrs size vm vm' block _ _ hcall ih =>
    rcases ih with hmis | ⟨hnone, hfresh⟩
    · exact Or.inl (hmis.cons _ (List.subset_cons_self _ _))
    · by_cases hsize : size = 0
      · rw [Userspace.malloc, if_pos hsize] at hcall
        cases hcall
        have hcalls := hnone.cons fun hgets : Gets root start (.malloc vm size) => hgets.1 hsize
        exact Or.inr ⟨hcalls.returns_null, hfresh⟩
      · rcases malloc_fresh hfresh hsize hstart hcall with ⟨rfl, hgets⟩ | ⟨rfl, hgets, hfresh'⟩
        · refine Or.inl (.first hgets ?_)
          rw [payload, wrap, blockHeaderSize]
          omega
        · exact Or.inr ⟨(hnone.cons hgets).returns_null, hfresh'⟩
  | @free h h' calls ptrs ptr _ hptr hcall ih =>
    rcases ih with hmis | ⟨hnone, hfresh⟩
    · exact Or.inl (hmis.cons _ (List.Subset.refl _))
    · obtain rfl : ptr = 0 := hptr.elim id (hnone.null ptr)
      cases hcall
      exact Or.inr ⟨hnone.cons id, hfresh⟩

end First

/-- **Alignment of pointers.** In a run of calls of the kernel, and of a program whose image ends at
`maxVaddr`, all pointers are multiples of 16 if and only if no call gets memory. -/
theorem pointers_aligned_iff {kheap heap : KHeap} {kcalls : List HeapCall} {calls : List UserCall}
    {kptrs ptrs : List ℕ} {root maxVaddr : ℕ} (hkernel : KernelCalls kheap kcalls kptrs)
    (huser : UserCalls root (alignUp maxVaddr pageSize) heap calls ptrs) :
    ((∀ ptr ∈ kptrs, ptr % heapAlignment = 0) ↔ ∀ call ∈ kcalls, ¬Requests call) ∧
      ((∀ ptr ∈ ptrs, ptr % heapAlignment = 0) ↔
        ∀ call ∈ calls, ¬Gets root (alignUp maxVaddr pageSize) call) := by
  have hpages : alignUp maxVaddr pageSize = wrap (maxVaddr + 2 ^ 12 - 1) / 2 ^ 12 * 2 ^ 12 :=
    alignUp_eq (k := 12) (by decide) maxVaddr
  constructor
  · exact aligned_iff ((kernelCalls_first hkernel).imp_right And.left)
  · exact aligned_iff ((userCalls_first (by omega) huser).imp_right And.left)

theorem kmalloc_sampleHeap :
    ∃ ptr h', KernelCalls h' [.kmalloc 1] [ptr] ∧ sampleHeap.kmalloc 1 = some (ptr, h') := by
  have hsome : (sampleHeap.kmalloc 1).isSome := by decide +kernel
  obtain ⟨⟨ptr, h'⟩, hrun⟩ := Option.isSome_iff_exists.mp hsome
  exact ⟨ptr, h', .kmalloc (.init _ (Option.some_get _).symm) (by decide) hrun, hrun⟩

theorem malloc_sampleVm :
    ∃ ptr h', UserCalls 0x2000 (alignUp 0x3FF123 pageSize) h' [.malloc sampleVm 16] [ptr] := by
  have hsome : (Userspace.malloc ⟨fun _ => ⟨0, 0, false, 0, 0⟩, 0, alignUp 0x3FF123 pageSize⟩
      (standing (alignUp 0x3FF123 pageSize)) sampleVm 0x2000 16).isSome := by decide +kernel
  obtain ⟨⟨block, h', vm'⟩, hrun⟩ := Option.isSome_iff_exists.mp hsome
  exact ⟨payload block, h', .malloc (.init _) (by decide) hrun⟩

/-- The first call of `kmalloc` returns what is behind the header of the first block. -/
theorem not_aligned_kmalloc :
    ¬∀ h calls ptrs, KernelCalls h calls ptrs →
      ∀ ptr ∈ ptrs, ptr ≠ 0 → ptr % heapAlignment = 0 := by
  intro h
  obtain ⟨ptr, h', hcalls, hrun⟩ := kmalloc_sampleHeap
  have hmod := kmalloc_init (Option.some_get _).symm Nat.one_ne_zero hrun
  have haligned := h _ _ _ hcalls ptr List.mem_cons_self (fun hzero => by
    rw [hzero] at hmod
    exact absurd hmod (by decide))
  rw [heapAlignment, hmod] at haligned
  exact absurd haligned (by decide)

/-- A call of `kmalloc` and one of `malloc`. -/
theorem pointers_aligned_iff_calls :
    (∃ ptr h', KernelCalls h' [.kmalloc 1] [ptr] ∧ ¬∀ p ∈ [ptr], p % heapAlignment = 0) ∧
      ∃ ptr h', UserCalls 0x2000 (alignUp 0x3FF123 pageSize) h' [.malloc sampleVm 16] [ptr] ∧
        ((∀ p ∈ [ptr], p % heapAlignment = 0) ↔
          ∀ call ∈ [UserCall.malloc sampleVm 16],
            ¬Gets 0x2000 (alignUp 0x3FF123 pageSize) call) := by
  obtain ⟨ptr, h', hcalls, -⟩ := kmalloc_sampleHeap
  obtain ⟨uptr, h'', hcalls'⟩ := malloc_sampleVm
  obtain ⟨hkernel, huser⟩ := pointers_aligned_iff hcalls hcalls'
  refine ⟨⟨ptr, h', hcalls, fun haligned => ?_⟩, uptr, h'', hcalls', huser⟩
  exact hkernel.mp haligned _ List.mem_cons_self Nat.one_ne_zero

end OpenIDP.Userspace
