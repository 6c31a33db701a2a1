import OpenIDP.Exec.Create

/-!
# Failing to create a process

When a program file cannot be opened or read, or memory runs out, the function that creates a
process should give back what it has taken and return -1. It gives back nothing but the block for
the program headers: the frame of the new PML4 stays marked as used, whatever fails later. And
when there is no frame for the PML4, it writes through a `NULL`.

## Main definitions

* `Unchanged`, `FailsCleanly` — what a caller expects of a creation that fails
* `Kernel.Keeps` — no frame is given back, and the use of a `NULL` is not forgotten

## Main results

* `createUserProcessFromFile_not_clean` — no creation fails cleanly
-/

namespace OpenIDP.Exec

open OpenIDP.Math OpenIDP.Memory OpenIDP.Process

/-- The blocks of the kernel heap that are in use. -/
def liveBlocks (h : KHeap) : Set ℕ :=
  {block | block ≠ 0 ∧ (∃ n, h.next^[n] h.head = block) ∧ h.free block = false}

/-- The kernel is as it was: the page allocator, the blocks in use of the kernel heap, and the
list of tasks. -/
structure Unchanged (k k' : Kernel) : Prop where
  bitmap_eq : k'.vm.pmm.bitmap = k.vm.pmm.bitmap
  usedPages_eq : k'.vm.pmm.usedPages = k.vm.pmm.usedPages
  live_eq : liveBlocks k'.heap = liveBlocks k.heap
  ring_eq : ∀ n, k'.sched.next^[n] k'.sched.taskHead = k.sched.next^[n] k.sched.taskHead
  nextPid_eq : k'.sched.nextPid = k.sched.nextPid

/-- The creation returns -1, has not used the result of an allocation that failed, and leaves the
kernel as it was. -/
def FailsCleanly (p : Platform) (file : FatFile) (args : Args) (isWm : Bool) (k : Kernel) : Prop :=
  ∃ k', Kernel.createUserProcessFromFile p file args isWm { k with nullUsed := false } =
    some (-1, k') ∧ k'.nullUsed = false ∧ Unchanged k k'

/-- No frame is given back. -/
def Vm.Keeps (v v' : Vm) : Prop :=
  ∀ page, v.pmm.bitmapTest page = true → v'.pmm.bitmapTest page = true

/-- No frame is given back, and the use of a `NULL` is not forgotten. -/
structure Kernel.Keeps (k k' : Kernel) : Prop where
  vm : Vm.Keeps k.vm k'.vm
  nullUsed : k.nullUsed = true → k'.nullUsed = true

section Frames

variable {v v' v'' : Vm} {page : Option ℕ} {table c pml4 virt phys flags : ℕ} {index : Fin 512}

theorem Vm.Keeps.refl (v : Vm) : Vm.Keeps v v := fun _ => id

theorem Vm.Keeps.trans (h : Vm.Keeps v v') (h' : Vm.Keeps v' v'') : Vm.Keeps v v'' :=
  fun page hpage => h' page (h page hpage)

theorem Vm.Keeps.of_pmm (h : v'.pmm = v.pmm) : Vm.Keeps v v' := fun page hpage => by rwa [h]

/-- A frame that is handed out was free, and is not any more. -/
theorem Vm.Keeps.allocFrame (h : v.allocFrame = (page, v')) : Vm.Keeps v v' ∧
    (page ≠ none → ∃ i, v.pmm.bitmapTest i = false ∧ v'.pmm.bitmapTest i = true) := by
  unfold Vm.allocFrame at h
  split at h
  · next addr pmm halloc =>
    obtain ⟨rfl, rfl⟩ := Prod.mk.inj h
    obtain ⟨found, hfound, haddr⟩ := Pmm.pmmAllocPage_eq halloc
    obtain ⟨i, rfl, -⟩ := Option.map_eq_some_iff.mp haddr.symm
    obtain ⟨-, hclear, rfl⟩ := Pmm.allocPage_some hfound
    have hset : ∀ j, (v.pmm.bitmap.setBit i).testBit j =
        (decide (j = i) || v.pmm.bitmapTest j) := fun j => Bytes.testBit_setBit
    refine ⟨fun j hj => (hset j).trans ?_, fun _ => ⟨i, hclear, (hset i).trans ?_⟩⟩
    · rw [hj, Bool.or_true]
    · rw [decide_eq_true rfl, Bool.true_or]
  · next pmm halloc =>
    obtain ⟨rfl, rfl⟩ := Prod.mk.inj h
    obtain ⟨found, hfound, haddr⟩ := Pmm.pmmAllocPage_eq halloc
    obtain rfl := Option.map_eq_none_iff.mp haddr.symm
    obtain ⟨pos, rfl⟩ := Pmm.allocPage_none hfound
    exact ⟨fun _ => id, fun hne => absurd rfl hne⟩

theorem Vm.Keeps.getOrAllocTable (h : v.getOrAllocTable table index = some (c, v')) :
    Vm.Keeps v v' := by
  unfold Vm.getOrAllocTable at h
  dsimp only at h
  split_ifs at h
  · obtain ⟨-, rfl⟩ := Prod.mk.inj (Option.some_inj.mp h)
    exact .of_pmm rfl
  · obtain ⟨-, rfl⟩ := Prod.mk.inj (Option.some_inj.mp h)
    exact .refl v
  · split at h
    · cases h
    · next halloc =>
      obtain ⟨-, rfl⟩ := Prod.mk.inj (Option.some_inj.mp h)
      exact (Vm.Keeps.allocFrame halloc).1.trans (.of_pmm rfl)

theorem Vm.Keeps.vmmMapPage (h : v.vmmMapPage pml4 virt phys flags = some v') :
    Vm.Keeps v v' := by
  simp only [Vm.vmmMapPage, Option.bind_eq_bind, Option.bind_eq_some_iff, Prod.exists] at h
  obtain ⟨pdpt, v₁, h₁, pd, v₂, h₂, pt, v₃, h₃, h⟩ := h
  rw [← Option.some_inj.mp h]
  exact ((Vm.Keeps.getOrAllocTable h₁).trans (Vm.Keeps.getOrAllocTable h₂)).trans
    ((Vm.Keeps.getOrAllocTable h₃).trans (.of_pmm rfl))

theorem Vm.Keeps.mapStack {n i first last : ℕ} {done : Bool}
    (h : Kernel.mapStack pml4 n i first v = some (done, last, v')) : Vm.Keeps v v' := by
  induction n generalizing i first v with
  | zero =>
    obtain ⟨-, -, rfl⟩ : done = true ∧ last = first ∧ v' = v := by
      simpa using (Option.some_inj.mp h).symm
    exact .refl v'
  | succ n ih =>
    rw [Kernel.mapStack] at h
    split at h
    · next halloc =>
      obtain ⟨-, -, rfl⟩ : done = false ∧ last = first ∧ v' = _ := by
        simpa using (Option.some_inj.mp h).symm
      exact (Vm.Keeps.allocFrame halloc).1
    · next halloc =>
      obtain ⟨v₂, hmap, h⟩ := Option.bind_eq_some_iff.mp h
      exact ((Vm.Keeps.allocFrame halloc).1.trans (.vmmMapPage hmap)).trans (ih h)

theorem Vm.Keeps.copyStrings (argv : ℕ → List (BitVec 8)) (stackPage n i : ℕ) (offset : ℤ)
    (v : Vm) : Vm.Keeps v (Kernel.copyStrings argv stackPage n i offset v).2.2 := by
  induction n generalizing i offset v with
  | zero => exact .refl v
  | succ n ih => exact (Vm.Keeps.of_pmm (v.writeBytes_books _ _).1).trans (ih _ _ _)

theorem Vm.Keeps.writeWords (stackPage : ℕ) (offset : ℤ) (words : List ℕ) (v : Vm) :
    Vm.Keeps v (Kernel.writeWords stackPage offset words v) := by
  induction words generalizing offset v with
  | nil => exact .refl v
  | cons w words ih => exact (Vm.Keeps.of_pmm (v.writeBytes_books _ _).1).trans (ih _ _)

theorem Vm.Keeps.passArgs {args : Args} {stackPage : ℕ}
    (h : Kernel.passArgs args stackPage v = some v') : Vm.Keeps v v' := by
  unfold Kernel.passArgs at h
  split_ifs at h
  rw [← Option.some_inj.mp h]
  exact ((Vm.Keeps.copyStrings _ _ _ _ _ _).trans (.writeWords _ _ _ _)).trans
    (.writeWords _ _ _ _)

theorem Vm.Keeps.mapFramebuffer {fbPhys n offset : ℕ}
    (h : Kernel.mapFramebuffer fbPhys pml4 n offset v = some v') : Vm.Keeps v v' := by
  induction n generalizing offset v with
  | zero =>
    rw [← Option.some_inj.mp h]
    exact .refl v
  | succ n ih =>
    obtain ⟨v₁, hmap, h⟩ := Option.bind_eq_some_iff.mp h
    exact (Vm.Keeps.vmmMapPage hmap).trans (ih h)

end Frames

namespace Kernel.Keeps

variable {k k' k'' : Kernel} {p : Platform} {file : FatFile} {seg : Phdr} {n i pml4 : ℕ}

theorem refl (k : Kernel) : Keeps k k := ⟨.refl k.vm, id⟩

theorem trans (h : Keeps k k') (h' : Keeps k' k'') : Keeps k k'' :=
  ⟨h.vm.trans h'.vm, fun hnull => h'.nullUsed (h.nullUsed hnull)⟩

theorem growHeap {heapEnd : ℕ} (h : Kernel.growHeap p n heapEnd k = some k') : Keeps k k' := by
  induction n generalizing heapEnd k with
  | zero =>
    rw [← Option.some_inj.mp h]
    exact .refl k
  | succ n ih =>
    obtain ⟨v₂, hmap, h⟩ := Option.bind_eq_some_iff.mp h
    have hfirst := (Vm.Keeps.allocFrame rfl).1.trans (.vmmMapPage hmap)
    have hrest := ih h
    refine ⟨hfirst.trans hrest.vm, fun hnull => hrest.nullUsed ?_⟩
    rw [hnull]
    rfl

theorem kmalloc {size ptr : ℕ} (h : k.kmalloc p size = some (ptr, k')) : Keeps k k' := by
  obtain ⟨⟨ptr', heap⟩, -, h⟩ := Option.bind_eq_some_iff.mp h
  obtain ⟨k₁, hgrow, h⟩ := Option.bind_eq_some_iff.mp h
  obtain ⟨-, rfl⟩ := Prod.mk.inj (Option.some_inj.mp h)
  have hkeeps := growHeap hgrow
  exact ⟨hkeeps.vm, hkeeps.nullUsed⟩

theorem kfree {ptr : ℕ} (h : k.kfree ptr = some k') : Keeps k k' := by
  obtain ⟨heap, -, h⟩ := Option.bind_eq_some_iff.mp h
  rw [← Option.some_inj.mp h]
  exact ⟨.refl _, id⟩

theorem fillPage (file : FatFile) (seg : Phdr) (offset page : ℕ) (k : Kernel) :
    Keeps k (k.fillPage file seg offset page) := by
  unfold Kernel.fillPage
  split_ifs
  · exact ⟨.of_pmm (k.vm.writeBytes_books _ _).1, id⟩
  · exact .refl k

theorem loadPage (h : k.loadPage file pml4 seg i = some k') : Keeps k k' := by
  obtain ⟨v₂, hmap, h⟩ := Option.bind_eq_some_iff.mp h
  obtain ⟨frame, -, h⟩ := Option.bind_eq_some_iff.mp h
  rw [← Option.some_inj.mp h]
  have hcleared : Vm.Keeps v₂ (v₂.clearPage frame) := .of_pmm rfl
  have hmapped := ((Vm.Keeps.allocFrame rfl).1.trans (.vmmMapPage hmap)).trans hcleared
  refine .trans ⟨hmapped, fun hnull => ?_⟩ (fillPage file seg _ frame _)
  change (k.nullUsed || _) = true
  rw [hnull]
  rfl

theorem loadPages (h : k.loadPages file pml4 seg n i = some k') : Keeps k k' := by
  induction n generalizing i k with
  | zero =>
    rw [← Option.some_inj.mp h]
    exact .refl k
  | succ n ih =>
    obtain ⟨k₁, hfirst, h⟩ := Option.bind_eq_some_iff.mp h
    exact (loadPage hfirst).trans (ih h)

theorem elfLoadSegments {phdrs : List Phdr} {maxVaddr result : ℕ}
    (h : k.elfLoadSegments file pml4 phdrs maxVaddr = some (result, k')) : Keeps k k' := by
  induction phdrs generalizing maxVaddr k with
  | nil =>
    obtain ⟨-, rfl⟩ := Prod.mk.inj (Option.some_inj.mp h)
    exact .refl k
  | cons seg phdrs ih =>
    rw [Kernel.elfLoadSegments] at h
    split_ifs at h
    · exact ih h
    · obtain ⟨k₁, hfirst, h⟩ := Option.bind_eq_some_iff.mp h
      exact (loadPages hfirst).trans (ih h)

theorem elfReadHeader {header : Option Ehdr} (h : k.elfReadHeader file = (header, k')) :
    Keeps k k' := by
  unfold Kernel.elfReadHeader at h
  dsimp only at h
  split_ifs at h
  · obtain ⟨-, rfl⟩ := Prod.mk.inj h
    exact ⟨.refl _, id⟩
  · obtain ⟨-, rfl⟩ := Prod.mk.inj h
    exact ⟨.refl _, id⟩

theorem elfReadProgramHeaders {header : Ehdr} {found : Option (ℕ × List Phdr)}
    (h : k.elfReadProgramHeaders p file header = some (found, k')) : Keeps k k' := by
  obtain ⟨⟨ptr, k₁⟩, hmalloc, h⟩ := Option.bind_eq_some_iff.mp h
  refine (kmalloc hmalloc).trans ?_
  dsimp only at h
  split_ifs at h
  · obtain ⟨-, rfl⟩ := Prod.mk.inj (Option.some_inj.mp h)
    exact .refl _
  · obtain ⟨k₃, hfree, h⟩ := Option.bind_eq_some_iff.mp h
    obtain ⟨-, rfl⟩ := Prod.mk.inj (Option.some_inj.mp h)
    have hkeeps := kfree hfree
    exact ⟨hkeeps.vm, hkeeps.nullUsed⟩
  · obtain ⟨-, rfl⟩ := Prod.mk.inj (Option.some_inj.mp h)
    exact ⟨.refl _, id⟩

theorem loadElfFile {elf : Option ElfLoadResult}
    (h : k.loadElfFile p file pml4 = some (elf, k')) : Keeps k k' := by
  unfold Kernel.loadElfFile at h
  split_ifs at h
  · split at h
    · next hheader =>
      obtain ⟨-, rfl⟩ := Prod.mk.inj (Option.some_inj.mp h)
      exact elfReadHeader hheader
    · next hheader =>
      refine (elfReadHeader hheader).trans ?_
      obtain ⟨⟨found, k₂⟩, hphdrs, h⟩ := Option.bind_eq_some_iff.mp h
      refine (elfReadProgramHeaders hphdrs).trans ?_
      dsimp only at h
      split at h
      · obtain ⟨-, rfl⟩ := Prod.mk.inj (Option.some_inj.mp h)
        exact .refl _
      · obtain ⟨⟨maxVaddr, k₃⟩, hload, h⟩ := Option.bind_eq_some_iff.mp h
        obtain ⟨k₄, hfree, h⟩ := Option.bind_eq_some_iff.mp h
        obtain ⟨-, rfl⟩ := Prod.mk.inj (Option.some_inj.mp h)
        exact (elfLoadSegments hload).trans (kfree hfree)
  · obtain ⟨-, rfl⟩ := Prod.mk.inj (Option.some_inj.mp h)
    exact .refl _

theorem addProcess {isWm : Bool} {cr3 programBreak : ℕ} {pid : ℤ}
    (h : k.addProcess p isWm pml4 cr3 programBreak = some (pid, k')) : Keeps k k' := by
  obtain ⟨⟨newTask, k₁⟩, hnew, h⟩ := Option.bind_eq_some_iff.mp h
  obtain ⟨⟨stack, k₂⟩, hstack, h⟩ := Option.bind_eq_some_iff.mp h
  obtain ⟨v, hmap, h⟩ := Option.bind_eq_some_iff.mp h
  obtain ⟨-, rfl⟩ := Prod.mk.inj (Option.some_inj.mp h)
  refine ((kmalloc hnew).trans (kmalloc hstack)).trans ⟨?_, id⟩
  exact Vm.Keeps.mapFramebuffer hmap

end Kernel.Keeps

section Creation

variable {p : Platform} {file : FatFile} {args : Args} {isWm : Bool} {k k' : Kernel}

/-- The PML4 is a frame that was free and is not any more, or a `NULL` that is used. -/
theorem Kernel.newPml4_keeps {pml4 cr3 : ℕ} (h : k.newPml4 p = some (pml4, cr3, k')) :
    k'.nullUsed = true ∨
      ∃ i, k.vm.pmm.bitmapTest i = false ∧ k'.vm.pmm.bitmapTest i = true := by
  unfold Kernel.newPml4 at h
  dsimp only at h
  obtain ⟨frame, -, h⟩ := Option.bind_eq_some_iff.mp h
  obtain ⟨-, -, rfl⟩ : pml4 = frame ∧ cr3 = _ ∧ k' = _ := by simpa using (Option.some_inj.mp h).symm
  have halloc : k.vm.allocFrame = (k.vm.allocFrame.1, k.vm.allocFrame.2) := rfl
  cases hpage : k.vm.allocFrame.1 with
  | none =>
    exact Or.inl (Bool.or_true _)
  | some phys =>
    right
    refine (Vm.Keeps.allocFrame halloc).2 ?_
    rw [hpage]
    exact Option.some_ne_none phys

/-- Everything after the allocation of the PML4. -/
theorem Kernel.createUserProcessFromFile_keeps {result : ℤ}
    (h : Kernel.createUserProcessFromFile p file args isWm k = some (result, k')) :
    ∃ pml4 cr3 k₁, k.newPml4 p = some (pml4, cr3, k₁) ∧ Kernel.Keeps k₁ k' := by
  obtain ⟨⟨pml4, cr3, k₁⟩, hpml4, h⟩ := Option.bind_eq_some_iff.mp h
  refine ⟨pml4, cr3, k₁, hpml4, ?_⟩
  obtain ⟨⟨elf, k₂⟩, hload, h⟩ := Option.bind_eq_some_iff.mp h
  refine (Kernel.Keeps.loadElfFile hload).trans ?_
  dsimp only at h
  split at h
  · obtain ⟨-, rfl⟩ := Prod.mk.inj (Option.some_inj.mp h)
    exact .refl _
  · obtain ⟨⟨done, stackPage, v₃⟩, hstack, h⟩ := Option.bind_eq_some_iff.mp h
    have hkeeps := Vm.Keeps.mapStack hstack
    dsimp only at h
    split_ifs at h
    · obtain ⟨v₄, hargs, h⟩ := Option.bind_eq_some_iff.mp h
      have hrest := Kernel.Keeps.addProcess h
      exact ⟨(hkeeps.trans (.passArgs hargs)).trans hrest.vm, hrest.nullUsed⟩
    · obtain ⟨-, rfl⟩ := Prod.mk.inj (Option.some_inj.mp h)
      exact ⟨hkeeps, id⟩

/-- No creation fails cleanly: the frame of the PML4 is never given back, and if there is none a
`NULL` is used. -/
theorem createUserProcessFromFile_not_clean (p : Platform) (file : FatFile) (args : Args)
    (isWm : Bool) (k : Kernel) : ¬ FailsCleanly p file args isWm k := by
  rintro ⟨k', hrun, hnull, hsame⟩
  obtain ⟨pml4, cr3, k₁, hpml4, hkeeps⟩ := Kernel.createUserProcessFromFile_keeps hrun
  rcases Kernel.newPml4_keeps hpml4 with hused | ⟨i, hclear, hset⟩
  · rw [hkeeps.nullUsed hused] at hnull
    exact Bool.noConfusion hnull
  · have hafter := hkeeps.vm i hset
    have hbefore : k'.vm.pmm.bitmapTest i = k.vm.pmm.bitmapTest i := by
      rw [Pmm.bitmapTest, Pmm.bitmapTest, hsame.bitmap_eq]
    rw [hbefore] at hafter
    exact Bool.noConfusion (hafter.symm.trans hclear)

/-- A kernel with an empty heap, whose root task is all there is. -/
def sampleKernel : Kernel where
  vm := sampleVm
  heap := { hdr := fun _ => ⟨0, 0, false, 0, 0⟩, head := 0, heapEnd := kheapStart }
  sched := Sched.schedulerInit
    { task := fun _ => Task.zero
      currentTask := 0
      taskHead := 0
      zombieTask := 0
      nextPid := 1
      cr3 := 0x2000
      tssRsp0 := 0 } 0x10000
  reads := 0
  nullUsed := false

/-- No framebuffer, and the sample PML4 as that of the kernel. -/
def samplePlatform : Platform := ⟨0x2000, 0, 0⟩

/-- A file that cannot be opened: the function returns -1 and keeps a frame. -/
theorem createUserProcessFromFile_missing :
    (Kernel.createUserProcessFromFile samplePlatform ⟨false, fun _ _ _ => (false, [])⟩
      ⟨0, fun _ => []⟩ false sampleKernel).map
        (fun x => (x.1, x.2.vm.pmm.usedPages, sampleKernel.vm.pmm.usedPages)) = some (-1, 4, 3) ∧
      ¬ FailsCleanly samplePlatform ⟨false, fun _ _ _ => (false, [])⟩ ⟨0, fun _ => []⟩ false
        sampleKernel := by
  have hrun : (Kernel.createUserProcessFromFile samplePlatform ⟨false, fun _ _ _ => (false, [])⟩
      ⟨0, fun _ => []⟩ false sampleKernel).map
        (fun x => (x.1, x.2.vm.pmm.usedPages, sampleKernel.vm.pmm.usedPages)) =
          some (-1, 4, 3) := by
    decide +kernel
  refine ⟨hrun, ?_⟩
  rintro ⟨k', hclean, -, hsame⟩
  change Kernel.createUserProcessFromFile _ _ _ _ sampleKernel = _ at hclean
  rw [hclean] at hrun
  obtain ⟨-, hused, -⟩ : (-1 : ℤ) = -1 ∧ k'.vm.pmm.usedPages = 4 ∧
      sampleKernel.vm.pmm.usedPages = 3 := by simpa using hrun
  have hbefore : sampleKernel.vm.pmm.usedPages = 3 := rfl
  rw [hsame.usedPages_eq, hbefore] at hused
  exact absurd hused (by decide)

end Creation

end OpenIDP.Exec
