import OpenIDP.Exec.Atomic
import OpenIDP.Memory.Sbrk

/-!
# A program break that cannot be moved

`sys_sbrk` takes the frames of a growing heap one by one, and returns -1 when there is none left.
The pages that it has mapped by then stay mapped, though the break does not move, and their frames
stay in use. The program that tries again takes other frames for the same pages. Only a call whose
very first allocation fails leaves everything as it was.

## Main definitions

* `SbrkFails` — a call that runs out of memory
* `SbrkUnchanged` — the page allocator, the pages of the program and its break are as before

## Main results

* `sysSbrk_atomic_iff` — a call that runs out of memory changes nothing just when no page was free
-/

namespace OpenIDP.Exec

open OpenIDP.Math OpenIDP.Memory

/-- The call of `sys_sbrk` returns -1 because `pmm_alloc_page` returned `NULL`, after any number of
pages. -/
structure SbrkFails (v : Vm) (pml4 brk : ℕ) (inc : ℤ) (brk' : ℕ) (v' : Vm) : Prop where
  run : sysSbrk v pml4 brk inc = some (sbrkFailed, brk', v')
  outOfMemory : growPages pml4 (alignUp brk pageSize)
    ((alignUp (wrap (brk + toU64 inc)) pageSize - alignUp brk pageSize) / pageSize) 0 v =
      some (false, v')

/-- The books of the page allocator, the pages of the program and its break are as before. -/
structure SbrkUnchanged (v v' : Vm) (pml4 brk brk' : ℕ) : Prop where
  bitmap_eq : v'.pmm.bitmap = v.pmm.bitmap
  usedPages_eq : v'.pmm.usedPages = v.pmm.usedPages
  pages_eq : ∀ virt, translate v'.mem pml4 (indices virt) = translate v.mem pml4 (indices virt)
  break_eq : brk' = brk

section Frames

variable {v v' v₁ : Vm} {pml4 base virt n i brk brk' f : ℕ} {inc : ℤ}

theorem Vm.Keeps.memsetPage (h : v.memsetPage pml4 virt = some v') : Vm.Keeps v v' := by
  unfold Vm.memsetPage at h
  split_ifs at h
  obtain ⟨frame, -, rfl⟩ := Option.map_eq_some_iff.mp h
  exact .of_pmm rfl

/-- No frame that the loop has taken is given back, whether or not it comes to its end. -/
theorem Vm.Keeps.growPages {done : Bool}
    (h : growPages pml4 base n i v = some (done, v')) : Vm.Keeps v v' := by
  induction n generalizing i v with
  | zero =>
    obtain ⟨-, rfl⟩ := Prod.mk.inj (Option.some_inj.mp h)
    exact .refl v
  | succ n ih =>
    rw [Memory.growPages] at h
    split at h
    · next halloc =>
      obtain ⟨-, rfl⟩ := Prod.mk.inj (Option.some_inj.mp h)
      exact (Vm.Keeps.allocFrame halloc).1
    · next halloc =>
      obtain ⟨v₂, hmap, h⟩ := Option.bind_eq_some_iff.mp h
      obtain ⟨v₃, hclear, h⟩ := Option.bind_eq_some_iff.mp h
      have hmapped := (Vm.Keeps.allocFrame halloc).1.trans (.vmmMapPage hmap)
      have hcleared : Vm.Keeps v v₃ := hmapped.trans (.memsetPage hclear)
      have hrest := ih h
      exact fun page hpage => hrest page (hcleared page hpage)

/-- The loop that could take a frame keeps it. -/
theorem growPages_takes {done : Bool} (hn : n ≠ 0) (halloc : v.allocFrame = (some f, v₁))
    (h : growPages pml4 base n i v = some (done, v')) :
    ∃ page, v.pmm.bitmapTest page = false ∧ v'.pmm.bitmapTest page = true := by
  obtain ⟨n, rfl⟩ := Nat.exists_eq_succ_of_ne_zero hn
  rw [growPages, halloc] at h
  obtain ⟨v₂, hmap, h⟩ := Option.bind_eq_some_iff.mp h
  obtain ⟨v₃, hclear, h⟩ := Option.bind_eq_some_iff.mp h
  obtain ⟨page, hfree, hused⟩ := (Vm.Keeps.allocFrame halloc).2 (Option.some_ne_none f)
  have hcleared : Vm.Keeps v₁ v₃ := (Vm.Keeps.vmmMapPage hmap).trans (.memsetPage hclear)
  have hrest := Vm.Keeps.growPages h
  exact ⟨page, hfree, hrest page (hcleared page hused)⟩

/-- With every page in use the allocation fails, and leaves all but the position of the search. -/
theorem allocFrame_of_full (hfull : v.pmm.usedPages = v.pmm.totalPages) :
    v.allocFrame = (none, v) := by
  have hnone : v.pmm.pmmAllocPage = (none, v.pmm) := by
    rw [Pmm.pmmAllocPage, Pmm.allocPage, if_pos hfull.ge]
    rfl
  rw [Vm.allocFrame, hnone]

/-- The loop fails at once when every page is in use. -/
theorem growPages_of_full (hfull : v.pmm.usedPages = v.pmm.totalPages)
    (h : growPages pml4 base n i v = some (false, v')) : v' = v := by
  cases n with
  | zero => cases h
  | succ n =>
    rw [growPages, allocFrame_of_full hfull] at h
    exact (Prod.mk.inj (Option.some_inj.mp h)).2.symm

/-- A call that fails leaves the break. -/
theorem SbrkFails.break_eq (h : SbrkFails v pml4 brk inc brk' v') : brk' = brk := by
  obtain ⟨hrun, hloop⟩ := h
  unfold sysSbrk at hrun
  dsimp only at hrun
  split_ifs at hrun with hzero hgrow
  · exact (Prod.mk.inj (Prod.mk.inj (Option.some_inj.mp hrun)).2).1.symm
  · rw [hloop] at hrun
    exact (Prod.mk.inj (Prod.mk.inj (Option.some_inj.mp hrun)).2).1.symm
  · -- the loop has no page to map, so it cannot fail
    rw [Nat.sub_eq_zero_of_le (Nat.not_lt.mp hgrow), Nat.zero_div] at hloop
    cases hloop

/-- A call with -1 for a result has run out of memory, unless this was the break. -/
theorem SbrkFails.of_run (hbrk : brk ≠ sbrkFailed)
    (hrun : sysSbrk v pml4 brk inc = some (sbrkFailed, brk', v')) :
    SbrkFails v pml4 brk inc brk' v' := by
  refine ⟨hrun, ?_⟩
  unfold sysSbrk at hrun
  dsimp only at hrun
  split_ifs at hrun
  · exact absurd (Prod.mk.inj (Option.some_inj.mp hrun)).1 hbrk
  · obtain ⟨⟨done, v₁⟩, hloop, hrun⟩ := Option.bind_eq_some_iff.mp hrun
    cases done with
    | false =>
      rw [← (Prod.mk.inj (Prod.mk.inj (Option.some_inj.mp hrun)).2).2]
      exact hloop
    | true => exact absurd (Prod.mk.inj (Option.some_inj.mp hrun)).1 hbrk
  · exact absurd (Prod.mk.inj (Option.some_inj.mp hrun)).1 hbrk

end Frames

section Atomicity

variable {v v' : Vm} {pml4 brk brk' : ℕ} {inc : ℤ}

/-- A call that runs out of memory leaves the page allocator, the pages of the program and its
break as they were if and only if no page was free when it began. -/
theorem sysSbrk_atomic_iff (hv : v.pmm.Consistent) (hfail : SbrkFails v pml4 brk inc brk' v') :
    SbrkUnchanged v v' pml4 brk brk' ↔ v.pmm.usedPages = v.pmm.totalPages := by
  constructor
  · intro hsame
    by_contra hroom
    have hlt : v.pmm.usedPages < v.pmm.totalPages := hv.usedPages_le.lt_of_ne hroom
    obtain ⟨f, v₁, halloc⟩ := hv.exists_allocFrame hlt
    have hloop := hfail.outOfMemory
    have hpages : (alignUp (wrap (brk + toU64 inc)) pageSize - alignUp brk pageSize) /
        pageSize ≠ 0 := by
      intro hzero
      rw [hzero] at hloop
      cases hloop
    obtain ⟨page, hfree, hused⟩ := growPages_takes hpages halloc hloop
    rw [Pmm.bitmapTest, hsame.bitmap_eq] at hused
    exact Bool.noConfusion (hused.symm.trans hfree)
  · intro hfull
    obtain rfl := growPages_of_full hfull hfail.outOfMemory
    exact ⟨rfl, rfl, fun _ => rfl, hfail.break_eq⟩

/-- A program asks for three pages. Three tables and two pages use up the memory, and the call
fails. -/
theorem sysSbrk_runs_out : ∃ v, SbrkFails sampleVm 0x2000 0x400000 0x3000 0x400000 v := by
  have hruns : ((sysSbrk sampleVm 0x2000 0x400000 0x3000).any fun x =>
      decide (x.1 = sbrkFailed ∧ x.2.1 = 0x400000)) = true := by decide +kernel
  obtain ⟨⟨result, brk', v⟩, hrun, hfacts⟩ := (Option.any_eq_true _ _).mp hruns
  obtain ⟨hresult, hbreak⟩ := of_decide_eq_true hfacts
  obtain rfl : result = sbrkFailed := hresult
  obtain rfl : brk' = 0x400000 := hbreak
  exact ⟨v, .of_run (by decide) hrun⟩

/-- The five frames that the failed call took are lost. -/
theorem sysSbrk_not_atomic : ∃ v, SbrkFails sampleVm 0x2000 0x400000 0x3000 0x400000 v ∧
    ¬ SbrkUnchanged sampleVm v 0x2000 0x400000 0x400000 := by
  obtain ⟨v, hfail⟩ := sysSbrk_runs_out
  refine ⟨v, hfail, fun hsame => ?_⟩
  have hruns : (sysSbrk sampleVm 0x2000 0x400000 0x3000).map (fun x => x.2.2.pmm.usedPages) =
      some 8 := by decide +kernel
  rw [hfail.run] at hruns
  have hused : v.pmm.usedPages = 8 := Option.some_inj.mp hruns
  rw [hsame.usedPages_eq] at hused
  exact absurd hused (by decide)

/-- The failed call of the example did not leave things as they were, for pages were free. -/
theorem sysSbrk_atomic_iff_sampleVm : ∃ v,
    SbrkFails sampleVm 0x2000 0x400000 0x3000 0x400000 v ∧
      (SbrkUnchanged sampleVm v 0x2000 0x400000 0x400000 ↔
        sampleVm.pmm.usedPages = sampleVm.pmm.totalPages) := by
  obtain ⟨v, hfail⟩ := sysSbrk_runs_out
  exact ⟨v, hfail, sysSbrk_atomic_iff samplePmm_consistent hfail⟩

end Atomicity

end OpenIDP.Exec
