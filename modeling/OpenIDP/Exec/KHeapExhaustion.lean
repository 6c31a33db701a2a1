import OpenIDP.Exec.Atomic
import OpenIDP.Memory.KHeapWrap

/-!
# The kernel heap when memory runs out

`heap_expand` does not look at what `pmm_alloc_page` returns. A `NULL` is made a physical address
and mapped at the end of the heap, and the block that reaches over this page is handed out. When
the frame for a page table is missing, `get_or_alloc_table` never returns. Either way the callers
of `kmalloc` and `krealloc` never see the `NULL` that they check for.

## Main definitions

* `Kernel.krealloc` — `krealloc`, with the pages by which the heap grows
* `ExpandsIntoNull`, `RunsOut` — an allocation that fails while the heap grows
* `HeapKept`, `KmallocFails`, `KreallocFails` — what the callers rely on

## Main results

* `RunsOut.kmalloc` — the call never returns, or it returns a block and has used a `NULL`
* `kheap_never_fails` — no call for which an allocation fails does what its caller relies on
-/

namespace OpenIDP.Exec

open OpenIDP.Math OpenIDP.Memory

/-- `krealloc`, with the pages by which the heap grows. -/
def Kernel.krealloc (p : Platform) (ptr size : ℕ) (k : Kernel) : Option (ℕ × Kernel) :=
  if ptr = 0 then
    k.kmalloc p size
  else if size = 0 then do
    let k₁ ← k.kfree ptr
    some (0, k₁)
  else if k.heap.size (sub64 ptr blockHeaderSize) ≥ size then
    some (ptr, k)
  else do
    let (newptr, k₁) ← k.kmalloc p size
    if newptr = 0 then
      some (0, k₁)
    else
      let k₂ ← k₁.kfree ptr
      some (newptr, k₂)

/-- In the loop of `heap_expand`, a call of `pmm_alloc_page` returns `NULL`: the one for the next
page, one for a table that leads to it, or a later one. -/
def ExpandsIntoNull (p : Platform) : ℕ → ℕ → Kernel → Prop
  | 0, _, _ => False
  | n + 1, heapEnd, k =>
    match k.vm.allocFrame with
    | (page, v₁) =>
      page = none ∨
        match v₁.vmmMapPage p.kernelPml4 heapEnd (Kernel.physOf v₁ page)
          (vmmPresent ||| vmmWrite) with
        | none => True
        | some v₂ => ExpandsIntoNull p n (wrap (heapEnd + pageSize))
            { k with vm := v₂, nullUsed := k.nullUsed || page.isNone }

/-- `kmalloc` has to expand the heap, and an allocation fails in the course of it. -/
def RunsOut (p : Platform) (size : ℕ) (k : Kernel) : Prop :=
  ∃ ptr heap, k.heap.kmalloc size = some (ptr, heap) ∧
    ExpandsIntoNull p (sub64 heap.heapEnd k.heap.heapEnd / pageSize) k.heap.heapEnd k

/-- The list of blocks is as it was, and no page of the kernel is new but those in frames that
the page allocator has handed out. -/
structure HeapKept (p : Platform) (blocks : List ℕ) (k k' : Kernel) : Prop where
  head_eq : k'.heap.head = k.heap.head
  hdr_eq : ∀ block ∈ blocks, k'.heap.hdr block = k.heap.hdr block
  mapped : ∀ virt path e,
    translate k'.vm.mem p.kernelPml4 (indices virt) = some (path, e) →
      translate k.vm.mem p.kernelPml4 (indices virt) = some (path, e) ∨
        entryFrame e ∈ k'.vm.lent

/-- `kmalloc` returns `NULL` and has left the heap as it was. -/
def KmallocFails (p : Platform) (blocks : List ℕ) (size : ℕ) (k : Kernel) : Prop :=
  ∃ k', k.kmalloc p size = some (0, k') ∧ HeapKept p blocks k k'

/-- `krealloc` returns `NULL` and has left the heap as it was, the old block with it. -/
def KreallocFails (p : Platform) (blocks : List ℕ) (ptr size : ℕ) (k : Kernel) : Prop :=
  ∃ k', k.krealloc p ptr size = some (0, k') ∧ HeapKept p blocks k k'

section Exhaustion

variable {p : Platform} {k k' : Kernel} {blocks : List ℕ} {n heapEnd ptr size : ℕ}

/-- A loop in which an allocation fails never comes to an end, or has used a `NULL`. -/
theorem ExpandsIntoNull.growHeap (hnull : ExpandsIntoNull p n heapEnd k)
    (h : Kernel.growHeap p n heapEnd k = some k') : k'.nullUsed = true := by
  induction n generalizing heapEnd k with
  | zero => exact hnull.elim
  | succ n ih =>
    obtain ⟨v₂, hmap, h⟩ := Option.bind_eq_some_iff.mp h
    rcases hnull with hpage | hlater
    · have hnone : k.vm.allocFrame.1.isNone = true := Option.isNone_iff_eq_none.mpr hpage
      refine (Kernel.Keeps.growHeap h).nullUsed ?_
      change (k.nullUsed || k.vm.allocFrame.1.isNone) = true
      rw [hnone, Bool.or_true]
    · rw [hmap] at hlater
      exact ih hlater h

/-- A loop that has used a `NULL` is one in which an allocation failed. -/
theorem expandsIntoNull_of_nullUsed (h : Kernel.growHeap p n heapEnd k = some k')
    (hbefore : k.nullUsed = false) (hafter : k'.nullUsed = true) :
    ExpandsIntoNull p n heapEnd k := by
  induction n generalizing heapEnd k with
  | zero =>
    rw [← Option.some_inj.mp h, hbefore] at hafter
    exact Bool.noConfusion hafter
  | succ n ih =>
    obtain ⟨v₂, hmap, h⟩ := Option.bind_eq_some_iff.mp h
    by_cases hpage : k.vm.allocFrame.1 = none
    · exact Or.inl hpage
    · right
      rw [hmap]
      refine ih h ?_
      rw [hbefore, Bool.false_or, Option.isNone_eq_false_iff, Option.isSome_iff_ne_none]
      exact hpage

/-- Only a heap that grows can meet a `NULL`. -/
theorem RunsOut.size_ne_zero (hend : k.heap.heapEnd < 2 ^ 64) (h : RunsOut p size k) :
    size ≠ 0 := by
  rintro rfl
  obtain ⟨ptr, heap, hrun, hnull⟩ := h
  obtain ⟨-, rfl⟩ : ptr = 0 ∧ heap = k.heap := by
    simpa [KHeap.kmalloc] using (Option.some_inj.mp hrun).symm
  have hpages : sub64 k.heap.heapEnd k.heap.heapEnd / pageSize = 0 := by
    rw [sub64_of_le le_rfl hend, Nat.sub_self, Nat.zero_div]
  rw [hpages] at hnull
  exact hnull

/-- The call never returns, or it returns a block, and has used a `NULL`. -/
theorem RunsOut.kmalloc (hl : k.heap.Layout blocks) (hend : k.heap.heapEnd % pageSize = 0)
    (h : RunsOut p size k) (hrun : k.kmalloc p size = some (ptr, k')) :
    ptr ≠ 0 ∧ k'.nullUsed = true := by
  have hroom : k.heap.heapEnd + blockHeaderSize < 2 ^ 64 := by
    have hlt := hl.end_lt
    have hheader : blockHeaderSize = 40 := rfl
    rw [pageSize] at hend
    omega
  have hsize := h.size_ne_zero hl.end_lt
  obtain ⟨ptr', heap, hheap, hnull⟩ := h
  have hne := hl.kmalloc_ne_zero hroom hsize hheap
  obtain ⟨⟨ptr₂, heap₂⟩, hheap₂, hrun⟩ := Option.bind_eq_some_iff.mp hrun
  rw [hheap] at hheap₂
  obtain ⟨rfl, rfl⟩ := Prod.mk.inj (Option.some_inj.mp hheap₂)
  obtain ⟨k₁, hgrow, hrun⟩ := Option.bind_eq_some_iff.mp hrun
  obtain ⟨rfl, rfl⟩ := Prod.mk.inj (Option.some_inj.mp hrun)
  have hused : k₁.nullUsed = true := hnull.growHeap hgrow
  exact ⟨hne, hused⟩

/-- A call that has used a `NULL` is one in which an allocation failed. -/
theorem runsOut_of_nullUsed (hrun : k.kmalloc p size = some (ptr, k'))
    (hbefore : k.nullUsed = false) (hafter : k'.nullUsed = true) : RunsOut p size k := by
  obtain ⟨⟨ptr', heap⟩, hheap, hrun⟩ := Option.bind_eq_some_iff.mp hrun
  obtain ⟨k₁, hgrow, hrun⟩ := Option.bind_eq_some_iff.mp hrun
  obtain ⟨-, rfl⟩ := Prod.mk.inj (Option.some_inj.mp hrun)
  exact ⟨ptr', heap, hheap, expandsIntoNull_of_nullUsed hgrow hbefore hafter⟩

/-- Whenever an allocation fails while the heap grows, neither `kmalloc` nor the `krealloc` that
calls it returns `NULL` with the heap as it was. -/
theorem kheap_never_fails (hl : k.heap.Layout blocks) (hend : k.heap.heapEnd % pageSize = 0)
    (h : RunsOut p size k) :
    ¬ KmallocFails p blocks size k ∧
      ∀ ptr, (ptr = 0 ∨ k.heap.size (sub64 ptr blockHeaderSize) < size) →
        ¬ KreallocFails p blocks ptr size k := by
  have hnever : ¬ KmallocFails p blocks size k := by
    rintro ⟨k', hrun, -⟩
    exact (h.kmalloc hl hend hrun).1 rfl
  refine ⟨hnever, fun ptr hexpands => ?_⟩
  rintro ⟨k', hrun, hkept⟩
  unfold Kernel.krealloc at hrun
  split_ifs at hrun with hptr hsize hfits
  · exact hnever ⟨k', hrun, hkept⟩
  · exact h.size_ne_zero hl.end_lt hsize
  · exact absurd (hexpands.resolve_left hptr) (Nat.not_lt.mpr hfits)
  · obtain ⟨⟨newptr, k₁⟩, hmalloc, hrun⟩ := Option.bind_eq_some_iff.mp hrun
    have hne := (h.kmalloc hl hend hmalloc).1
    dsimp only at hrun
    rw [if_neg hne] at hrun
    -- the new block is what is returned, once the old one is freed
    obtain ⟨k₂, -, hrun⟩ := Option.bind_eq_some_iff.mp hrun
    exact hne (Prod.mk.inj (Option.some_inj.mp hrun)).1

end Exhaustion

/-- A kernel that has memory for two pages and the tables that lead to them is asked for three. -/
theorem sampleKernel_runsOut : RunsOut samplePlatform 0x2800 sampleKernel := by
  have hruns : ((sampleKernel.kmalloc samplePlatform 0x2800).any fun x => x.2.nullUsed) = true := by
    decide +kernel
  obtain ⟨⟨ptr, k'⟩, hrun, hnull⟩ := (Option.any_eq_true _ _).mp hruns
  exact runsOut_of_nullUsed hrun rfl hnull

theorem sampleKernel_layout : sampleKernel.heap.Layout [] :=
  ⟨rfl, trivial, rfl, List.forall_mem_nil _, by decide⟩

/-- The block that reaches over the third page is returned all the same. -/
theorem kmalloc_returns_null_page : RunsOut samplePlatform 0x2800 sampleKernel ∧
    ¬ KmallocFails samplePlatform [] 0x2800 sampleKernel := by
  refine ⟨sampleKernel_runsOut, ?_⟩
  rintro ⟨k', hrun, -⟩
  exact (sampleKernel_runsOut.kmalloc sampleKernel_layout (by decide) hrun).1 rfl

/-- Nor does `krealloc` fail as its callers expect. -/
theorem kheap_never_fails_sampleKernel :
    ¬ KmallocFails samplePlatform [] 0x2800 sampleKernel ∧
      ¬ KreallocFails samplePlatform [] 0 0x2800 sampleKernel := by
  obtain ⟨hmalloc, hrealloc⟩ :=
    kheap_never_fails sampleKernel_layout (by decide) sampleKernel_runsOut
  exact ⟨hmalloc, hrealloc 0 (Or.inl rfl)⟩

end OpenIDP.Exec
