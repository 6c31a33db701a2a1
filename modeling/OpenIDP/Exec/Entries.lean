import OpenIDP.Math.Rounds
import OpenIDP.Exec.Calls
import OpenIDP.Exec.ElfBreak
import OpenIDP.Memory.Unmap

/-!
# The page table entries that a caller names

Four system calls change the page tables at addresses that come from their caller: `sys_unmap`
clears the entries of a range, `sys_sbrk` and `sys_share_mem` map pages at a program break, which
the caller moves as it likes, and `sys_exec` maps the pages of the segments of a file. The tables
of the upper half are the kernel's, in every address space.

A call may not return, when no page is free or a page is not mapped. The lists here go as far as
the code does, and whatever it comes to is told in terms of its rounds before.

## Main definitions

* `sbrkEntries`, `shareEntries`, `unmapEntries`, `Kernel.execEntries` — the addresses of the
  entries that a call sets or clears

## Main results

* `mem_sbrkEntries_iff`, `mem_shareEntries_iff`, `mem_unmapEntries_iff`,
  `Kernel.mem_segmentEntries_iff` — the same addresses by the rounds of the loops
* `sbrkEntries_lower_iff` and its like — when all of them are in the lower half
-/

namespace OpenIDP.Exec

open OpenIDP.Math OpenIDP.Memory OpenIDP.Process

/-! ## `sys_sbrk` -/

/-- One round of the loop of `sys_sbrk`. -/
def growPage (pml4 oldPageTop : ℕ) (v : Vm) (i : ℕ) : Option Vm :=
  match v.allocFrame with
  | (none, _) => none
  | (some phys, v₁) => do
    let mapAddr := wrap (oldPageTop + i * pageSize)
    let v₂ ← v₁.vmmMapPage pml4 mapAddr phys 7
    let v₃ ← v₂.memsetPage pml4 mapAddr
    some (v₃.clearPage phys)

/-- The addresses for which `sys_sbrk` calls `vmm_map_page`: one in each round that has a page. -/
def sbrkEntries (v : Vm) (pml4 programBreak : ℕ) (inc : ℤ) : List ℕ :=
  let newBreak := wrap (programBreak + toU64 inc)
  let oldPageTop := alignUp programBreak pageSize
  let newPageTop := alignUp newBreak pageSize
  if inc ≠ 0 ∧ oldPageTop < newPageTop then
    (begun (growPage pml4 oldPageTop)
      (List.range' 0 ((newPageTop - oldPageTop) / pageSize)) v).filterMap fun (i, v') =>
        v'.allocFrame.1.map fun _ => wrap (oldPageTop + i * pageSize)
  else
    []

/-! ## `sys_share_mem` -/

/-- One round of the loop of `sys_share_mem`. -/
def sharePage (myPml4 myVaddr theirPml4 theirVaddr : ℕ) (v : Vm) (i : ℕ) : Option Vm :=
  match v.allocFrame with
  | (none, _) => none
  | (some phys, v₁) => do
    let v₂ ← v₁.vmmMapPage myPml4 (wrap (myVaddr + i * pageSize)) phys 7
    v₂.vmmMapPage theirPml4 (wrap (theirVaddr + i * pageSize)) phys 7

/-- The addresses for which a round calls `vmm_map_page`. -/
def shareRound (myPml4 myVaddr theirVaddr i : ℕ) (v : Vm) : List ℕ :=
  match v.allocFrame with
  | (none, _) => []
  | (some phys, v₁) =>
    wrap (myVaddr + i * pageSize) ::
      (v₁.vmmMapPage myPml4 (wrap (myVaddr + i * pageSize)) phys 7).elim []
        fun _ => [wrap (theirVaddr + i * pageSize)]

/-- The addresses for which the loop of `sys_share_mem` calls `vmm_map_page`. -/
def shareEntries (myPml4 myVaddr theirPml4 theirVaddr n : ℕ) (v : Vm) : List ℕ :=
  (begun (sharePage myPml4 myVaddr theirPml4 theirVaddr) (List.range' 0 n) v).flatMap
    fun (i, v') => shareRound myPml4 myVaddr theirVaddr i v'

/-! ## `sys_unmap` -/

/-- The four levels lead to an entry that is present. -/
def hasEntry (v : Vm) (pml4 virt : ℕ) : Bool :=
  (pageTableOf v.mem pml4 virt).any fun pt => decide (IsPresent (v.mem pt (ptIndex virt)))

/-- The addresses whose entries `sys_unmap` clears. -/
def unmapEntries (v : Vm) (pml4 vaddr size : ℕ) : List ℕ :=
  (begun (fun v virt => some (v.unmapStep pml4 virt)) (unmapAddrs vaddr size) v).filterMap
    fun (virt, v') => if hasEntry v' pml4 virt then some virt else none

/-! ## `sys_exec` -/

namespace Kernel

/-- One round of the outer loop of `elf_load_segments`. -/
def loadSegment (file : FatFile) (pml4 : ℕ) (k : Kernel) (seg : Phdr) : Option Kernel :=
  if seg.type ≠ ptLoad then some k else loadPages file pml4 seg seg.pagesNeeded 0 k

/-- The addresses for which `elf_load_segments` calls `vmm_map_page`. -/
def segmentEntries (file : FatFile) (pml4 : ℕ) (phdrs : List Phdr) (k : Kernel) : List ℕ :=
  (begun (loadSegment file pml4) phdrs k).flatMap fun (seg, k₁) =>
    if seg.type ≠ ptLoad then
      []
    else
      (begun (fun k i => loadPage file pml4 seg i k) (List.range' 0 seg.pagesNeeded) k₁).map
        fun (i, _) => wrap (seg.vaddr + i * pageSize)

/-- The addresses for which `create_user_process_from_file` calls `vmm_map_page` while it loads
the file. The stack is mapped at fixed addresses of the lower half. -/
def execEntries (p : Platform) (file : FatFile) (k : Kernel) : List ℕ :=
  match k.newPml4 p with
  | none => []
  | some (pml4, _, k₁) =>
    match k₁.beforeSegments p file with
    | none => []
    | some k₂ => segmentEntries file pml4 (k₁.phdrsRead file) k₂

end Kernel

/-! ## The rounds are those of the loops -/

section Rounds

variable {pml4 oldPageTop myPml4 myVaddr theirPml4 theirVaddr programBreak : ℕ}
variable {vaddr size virt n i : ℕ} {inc : ℤ} {v v' : Vm}

theorem foldlM_growPage : (List.range' i n).foldlM (growPage pml4 oldPageTop) v = some v' ↔
    growPages pml4 oldPageTop n i v = some (true, v') := by
  induction n generalizing i v with
  | zero => simp [growPages]
  | succ n ih =>
    obtain ⟨⟨page, v₁⟩, halloc⟩ : ∃ x, x = v.allocFrame := ⟨_, rfl⟩
    rw [List.range'_succ, List.foldlM_cons, growPages, growPage, ← halloc]
    cases page with
    | none => simp
    | some phys =>
      simp only [Option.bind_eq_bind, Option.bind_assoc, Option.bind_eq_some_iff, Option.bind_some,
        ih]

theorem foldlM_sharePage :
    (List.range' i n).foldlM (sharePage myPml4 myVaddr theirPml4 theirVaddr) v =
      sharePages myPml4 myVaddr theirPml4 theirVaddr n i v := by
  induction n generalizing i v with
  | zero => rfl
  | succ n ih =>
    obtain ⟨⟨page, v₁⟩, halloc⟩ : ∃ x, x = v.allocFrame := ⟨_, rfl⟩
    rw [List.range'_succ, List.foldlM_cons, sharePages, sharePage, ← halloc]
    cases page with
    | none => rfl
    | some phys => simp only [Option.bind_eq_bind, Option.bind_assoc, ih]

/-- Each round of a call that returns comes to an end. -/
theorem sharePages_round (hi : i < n)
    (hrun : sharePages myPml4 myVaddr theirPml4 theirVaddr n 0 v = some v') :
    ∃ v₁, sharePages myPml4 myVaddr theirPml4 theirVaddr i 0 v = some v₁ ∧
      ∃ v₂, sharePage myPml4 myVaddr theirPml4 theirVaddr v₁ i = some v₂ := by
  rw [← foldlM_sharePage, range'_split 0 hi, Nat.zero_add, List.foldlM_append] at hrun
  obtain ⟨v₁, hbefore, hrest⟩ := Option.bind_eq_some_iff.mp hrun
  rw [foldlM_sharePage] at hbefore
  obtain ⟨v₂, hround, -⟩ := Option.bind_eq_some_iff.mp hrest
  exact ⟨v₁, hbefore, v₂, hround⟩

theorem foldlM_unmapStep (addrs : List ℕ) :
    addrs.foldlM (fun v virt => some (v.unmapStep pml4 virt)) v =
      some (addrs.foldl (Vm.unmapStep pml4) v) := by
  induction addrs generalizing v with
  | nil => rfl
  | cons a addrs ih => exact ih

/-- The loop clears the entry of an address when there is one, and changes nothing otherwise. -/
theorem unmapStep_eq_ite : v.unmapStep pml4 virt =
    if hasEntry v pml4 virt then
      (pageTableOf v.mem pml4 virt).elim v fun pt => v.setWord pt (ptIndex virt) 0
    else v := by
  rw [Vm.unmapStep_eq, Vm.vmmUnmapPage, hasEntry]
  cases pageTableOf v.mem pml4 virt with
  | none => rfl
  | some pt => simp

/-! ### The entries, by the rounds before -/

theorem mem_sbrkEntries_iff : virt ∈ sbrkEntries v pml4 programBreak inc ↔ inc ≠ 0 ∧
    ∃ i < (alignUp (wrap (programBreak + toU64 inc)) pageSize -
        alignUp programBreak pageSize) / pageSize,
      virt = wrap (alignUp programBreak pageSize + i * pageSize) ∧
        ∃ v', growPages pml4 (alignUp programBreak pageSize) i 0 v = some (true, v') ∧
          v'.allocFrame.1 ≠ none := by
  rw [sbrkEntries]
  dsimp only
  split_ifs with hgrows
  · simp only [List.mem_filterMap, Prod.exists, mem_begun_range'_iff, foldlM_growPage]
    constructor
    · rintro ⟨_, v', ⟨i, hi, rfl, hrun⟩, haddr⟩
      obtain ⟨phys, hphys, rfl⟩ := Option.map_eq_some_iff.mp haddr
      rw [Nat.zero_add]
      exact ⟨hgrows.1, i, hi, rfl, v', hrun, Option.ne_none_iff_exists'.mpr ⟨phys, hphys⟩⟩
    · rintro ⟨-, i, hi, rfl, v', hrun, hsome⟩
      obtain ⟨phys, hphys⟩ := Option.ne_none_iff_exists'.mp hsome
      refine ⟨i, v', ⟨i, hi, (Nat.zero_add i).symm, hrun⟩, ?_⟩
      rw [hphys]
      rfl
  · -- without growth the loop has no rounds
    refine iff_of_false List.not_mem_nil ?_
    rintro ⟨hinc, i, hi, -⟩
    rw [Nat.sub_eq_zero_of_le (not_lt.mp fun hlt => hgrows ⟨hinc, hlt⟩), Nat.zero_div] at hi
    exact absurd hi (Nat.not_lt_zero i)

theorem mem_shareEntries_iff :
    virt ∈ shareEntries myPml4 myVaddr theirPml4 theirVaddr n v ↔
      ∃ i < n, ∃ v', sharePages myPml4 myVaddr theirPml4 theirVaddr i 0 v = some v' ∧
        ∃ phys v₁, v'.allocFrame = (some phys, v₁) ∧
          (virt = wrap (myVaddr + i * pageSize) ∨ virt = wrap (theirVaddr + i * pageSize) ∧
            v₁.vmmMapPage myPml4 (wrap (myVaddr + i * pageSize)) phys 7 ≠ none) := by
  simp only [shareEntries, List.mem_flatMap, Prod.exists, mem_begun_range'_iff, foldlM_sharePage]
  constructor
  · rintro ⟨_, v', ⟨i, hi, rfl, hrun⟩, hvirt⟩
    rw [Nat.zero_add] at hvirt
    refine ⟨i, hi, v', hrun, ?_⟩
    rw [shareRound] at hvirt
    obtain ⟨⟨page, v₁⟩, halloc⟩ : ∃ x, x = v'.allocFrame := ⟨_, rfl⟩
    rw [← halloc] at hvirt ⊢
    cases page with
    | none => exact absurd hvirt List.not_mem_nil
    | some phys =>
      refine ⟨phys, v₁, rfl, ?_⟩
      dsimp only at hvirt
      cases hmap : v₁.vmmMapPage myPml4 (wrap (myVaddr + i * pageSize)) phys 7 with
      | none => simpa [hmap] using hvirt
      | some v₂ => simpa [hmap] using hvirt
  · rintro ⟨i, hi, v', hrun, phys, v₁, halloc, hvirt⟩
    refine ⟨i, v', ⟨i, hi, (Nat.zero_add i).symm, hrun⟩, ?_⟩
    rw [shareRound, halloc]
    dsimp only
    cases hmap : v₁.vmmMapPage myPml4 (wrap (myVaddr + i * pageSize)) phys 7 with
    | none => simpa [hmap] using hvirt
    | some v₂ => simpa [hmap] using hvirt

theorem mem_unmapEntries_iff : virt ∈ unmapEntries v pml4 vaddr size ↔
    ∃ before after, unmapAddrs vaddr size = before ++ virt :: after ∧
      hasEntry (before.foldl (Vm.unmapStep pml4) v) pml4 virt := by
  simp only [unmapEntries, List.mem_filterMap, Prod.exists, mem_begun_iff, foldlM_unmapStep]
  constructor
  · rintro ⟨a, v', ⟨before, after, hsplit, hrun⟩, hentry⟩
    obtain ⟨hentry, hsame⟩ := Option.ite_none_right_eq_some.mp hentry
    rw [← Option.some_inj.mp hrun] at hentry
    rw [← Option.some_inj.mp hsame]
    exact ⟨before, after, hsplit, hentry⟩
  · rintro ⟨before, after, hsplit, hentry⟩
    exact ⟨virt, _, ⟨before, after, hsplit, rfl⟩, if_pos hentry⟩

end Rounds

section Segments

variable {file : FatFile} {pml4 n i maxVaddr virt : ℕ} {seg : Phdr} {phdrs : List Phdr}
variable {k : Kernel}

theorem Kernel.foldlM_loadPage :
    (List.range' i n).foldlM (fun k i => loadPage file pml4 seg i k) k =
      loadPages file pml4 seg n i k := by
  induction n generalizing i k with
  | zero => rfl
  | succ n ih =>
    rw [List.range'_succ, List.foldlM_cons, loadPages]
    simp only [ih]

theorem Kernel.foldlM_loadSegment : phdrs.foldlM (loadSegment file pml4) k =
    (elfLoadSegments file pml4 phdrs maxVaddr k).map Prod.snd := by
  induction phdrs generalizing maxVaddr k with
  | nil => rfl
  | cons seg phdrs ih =>
    rw [List.foldlM_cons, loadSegment, elfLoadSegments]
    split
    · exact ih
    · simp only [Option.bind_eq_bind, Option.map_bind]
      congr 1
      funext k₁
      exact ih

theorem Kernel.mem_segmentEntries_iff : virt ∈ segmentEntries file pml4 phdrs k ↔
    ∃ before seg after, phdrs = before ++ seg :: after ∧ seg.type = ptLoad ∧
      ∃ maxVaddr k₁, elfLoadSegments file pml4 before 0 k = some (maxVaddr, k₁) ∧
        ∃ i < seg.pagesNeeded, (loadPages file pml4 seg i 0 k₁).isSome ∧
          virt = wrap (seg.vaddr + i * pageSize) := by
  have hstate : ∀ {before : List Phdr} {k₁ : Kernel},
      before.foldlM (loadSegment file pml4) k = some k₁ ↔
        ∃ maxVaddr, elfLoadSegments file pml4 before 0 k = some (maxVaddr, k₁) := by
    intro before k₁
    rw [@foldlM_loadSegment file pml4 0, Option.map_eq_some_iff, Prod.exists]
    simp
  -- a round of the outer loop is a loop over the pages of its segment
  simp only [segmentEntries, List.mem_flatMap, Prod.exists, mem_begun_iff, hstate]
  constructor
  · rintro ⟨seg, k₁, ⟨before, after, hsplit, hrun⟩, hvirt⟩
    by_cases htype : seg.type = ptLoad
    · rw [if_neg (not_not.mpr htype), List.mem_map] at hvirt
      obtain ⟨⟨j, k₂⟩, hround, rfl⟩ := hvirt
      obtain ⟨i, hi, rfl, hpages⟩ := mem_begun_range'_iff.mp hround
      rw [foldlM_loadPage] at hpages
      obtain ⟨maxVaddr, hrun⟩ := hrun
      refine ⟨before, seg, after, hsplit, htype, maxVaddr, k₁, hrun, i, hi, ?_, ?_⟩
      · rw [hpages]
        rfl
      · rw [Nat.zero_add]
    · rw [if_pos htype] at hvirt
      exact absurd hvirt List.not_mem_nil
  · rintro ⟨before, seg, after, hsplit, htype, maxVaddr, k₁, hrun, i, hi, hpages, rfl⟩
    obtain ⟨k₂, hpages⟩ := Option.isSome_iff_exists.mp hpages
    refine ⟨seg, k₁, ⟨before, after, hsplit, maxVaddr, hrun⟩, ?_⟩
    rw [if_neg (not_not.mpr htype), List.mem_map]
    refine ⟨(i, k₂), mem_begun_range'_iff.mpr ⟨i, hi, (Nat.zero_add i).symm, ?_⟩, rfl⟩
    rw [foldlM_loadPage]
    exact hpages

end Segments

/-! ## Entries of the lower half -/

/-- Each page that the loop of `sys_sbrk` comes to with a frame is in the lower half. -/
def SbrkLower (v : Vm) (pml4 programBreak : ℕ) (inc : ℤ) : Prop :=
  let oldPageTop := alignUp programBreak pageSize
  let newPageTop := alignUp (wrap (programBreak + toU64 inc)) pageSize
  inc ≠ 0 → ∀ i < (newPageTop - oldPageTop) / pageSize, ∀ v',
    growPages pml4 oldPageTop i 0 v = some (true, v') → v'.allocFrame.1 ≠ none →
      InUserHalf (wrap (oldPageTop + i * pageSize))

/-- Each page that the loop of `sys_share_mem` comes to with a frame is in the lower half, for the
caller and, if the caller's page could be mapped, for the target. -/
def ShareLower (myPml4 myVaddr theirPml4 theirVaddr n : ℕ) (v : Vm) : Prop :=
  ∀ i < n, ∀ v', sharePages myPml4 myVaddr theirPml4 theirVaddr i 0 v = some v' →
    ∀ phys v₁, v'.allocFrame = (some phys, v₁) → InUserHalf (wrap (myVaddr + i * pageSize)) ∧
      (v₁.vmmMapPage myPml4 (wrap (myVaddr + i * pageSize)) phys 7 ≠ none →
        InUserHalf (wrap (theirVaddr + i * pageSize)))

/-- No page of the upper half is there when the loop of `sys_unmap` comes to it. -/
def UnmapLower (v : Vm) (pml4 vaddr size : ℕ) : Prop :=
  ∀ before virt after, unmapAddrs vaddr size = before ++ virt :: after → ¬ InUserHalf virt →
    hasEntry (before.foldl (Vm.unmapStep pml4) v) pml4 virt = false

/-- Each page of a segment that `elf_load_segments` comes to is in the lower half. -/
def SegmentsLower (file : FatFile) (pml4 : ℕ) (phdrs : List Phdr) (k : Kernel) : Prop :=
  ∀ before seg after, phdrs = before ++ seg :: after → seg.type = ptLoad → ∀ maxVaddr k₁,
    k.elfLoadSegments file pml4 before 0 = some (maxVaddr, k₁) → ∀ i < seg.pagesNeeded,
      (k₁.loadPages file pml4 seg i 0).isSome → InUserHalf (wrap (seg.vaddr + i * pageSize))

section Lower

variable {pml4 myPml4 myVaddr theirPml4 theirVaddr programBreak vaddr size n : ℕ} {inc : ℤ}
variable {v : Vm} {file : FatFile} {phdrs : List Phdr} {k : Kernel}

theorem sbrkEntries_lower_iff : (∀ virt ∈ sbrkEntries v pml4 programBreak inc, InUserHalf virt) ↔
    SbrkLower v pml4 programBreak inc := by
  simp only [mem_sbrkEntries_iff]
  constructor
  · intro h hinc i hi v' hrun hsome
    exact h _ ⟨hinc, i, hi, rfl, v', hrun, hsome⟩
  · rintro h _ ⟨hinc, i, hi, rfl, v', hrun, hsome⟩
    exact h hinc i hi v' hrun hsome

theorem shareEntries_lower_iff :
    (∀ virt ∈ shareEntries myPml4 myVaddr theirPml4 theirVaddr n v, InUserHalf virt) ↔
      ShareLower myPml4 myVaddr theirPml4 theirVaddr n v := by
  simp only [mem_shareEntries_iff]
  constructor
  · intro h i hi v' hrun phys v₁ halloc
    exact ⟨h _ ⟨i, hi, v', hrun, phys, v₁, halloc, Or.inl rfl⟩,
      fun hmap => h _ ⟨i, hi, v', hrun, phys, v₁, halloc, Or.inr ⟨rfl, hmap⟩⟩⟩
  · rintro h _ ⟨i, hi, v', hrun, phys, v₁, halloc, rfl | ⟨rfl, hmap⟩⟩
    · exact (h i hi v' hrun phys v₁ halloc).1
    · exact (h i hi v' hrun phys v₁ halloc).2 hmap

theorem unmapEntries_lower_iff : (∀ virt ∈ unmapEntries v pml4 vaddr size, InUserHalf virt) ↔
    UnmapLower v pml4 vaddr size := by
  simp only [mem_unmapEntries_iff]
  constructor
  · intro h before virt after hsplit hupper
    apply Bool.eq_false_of_not_eq_true
    exact fun hentry => hupper (h virt ⟨before, after, hsplit, hentry⟩)
  · rintro h virt ⟨before, after, hsplit, hentry⟩
    by_contra hupper
    rw [h before virt after hsplit hupper] at hentry
    cases hentry

theorem Kernel.segmentEntries_lower_iff :
    (∀ virt ∈ segmentEntries file pml4 phdrs k, InUserHalf virt) ↔
      SegmentsLower file pml4 phdrs k := by
  simp only [mem_segmentEntries_iff]
  constructor
  · intro h before seg after hsplit htype maxVaddr k₁ hrun i hi hpages
    exact h _ ⟨before, seg, after, hsplit, htype, maxVaddr, k₁, hrun, i, hi, hpages, rfl⟩
  · rintro h _ ⟨before, seg, after, hsplit, htype, maxVaddr, k₁, hrun, i, hi, hpages, rfl⟩
    exact h before seg after hsplit htype maxVaddr k₁ hrun i hi hpages

theorem Kernel.execEntries_lower_iff {p : Platform} :
    (∀ virt ∈ k.execEntries p file, InUserHalf virt) ↔ ∀ pml4 cr3 k₁ k₂,
      k.newPml4 p = some (pml4, cr3, k₁) → k₁.beforeSegments p file = some k₂ →
        SegmentsLower file pml4 (k₁.phdrsRead file) k₂ := by
  rw [execEntries]
  constructor
  · intro h pml4 cr3 k₁ k₂ hpml4 hbefore
    rw [hpml4] at h
    dsimp only at h
    rw [hbefore] at h
    exact segmentEntries_lower_iff.mp h
  · intro h
    cases hpml4 : k.newPml4 p with
    | none => exact List.forall_mem_nil _
    | some made =>
      obtain ⟨pml4, cr3, k₁⟩ := made
      dsimp only
      cases hbefore : k₁.beforeSegments p file with
      | none => exact List.forall_mem_nil _
      | some k₂ => exact segmentEntries_lower_iff.mpr (h pml4 cr3 k₁ k₂ hpml4 hbefore)

end Lower

end OpenIDP.Exec
