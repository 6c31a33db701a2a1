import OpenIDP.Exec.Calls

/-!
# Parts of the kernel that look at no task

Creating a process, giving memory back and the kernel heap depend on the tasks only through the
page tables in use, and write nothing of them but the struct of a new task. So they do the same
when other tasks, or other contents of memory in place of task structs, are there.

## Main definitions

* `Kernel.withSched` — the same kernel with another list of tasks
* `TaskFree` — a part of the kernel that looks at no task

## Main results

* `Kernel.loadElfFile_taskFree` — the loader looks at no task
* `Kernel.createUserProcessFromFile_withSched` — a creation does the same
-/

namespace OpenIDP.Exec

open OpenIDP.Math OpenIDP.Memory OpenIDP.Process

/-- The same kernel, with another list of tasks. -/
def Kernel.withSched (k : Kernel) (s : Sched) : Kernel := { k with sched := s }

/-- A part of the kernel that looks at no task, run twice: of the scheduler it reads `CR3` only,
and it writes nothing of it. -/
def TaskFree {α : Type*} (f : Kernel → Option (α × Kernel)) (k : Kernel) : Prop :=
  ∀ s, s.cr3 = k.sched.cr3 →
    f (k.withSched s) = (f k).map fun (a, k₁) => (a, k₁.withSched s)

section Parts

variable {α : Type*} {p : Platform} {file : FatFile} {k k' : Kernel} {s : Sched} {pml4 n i : ℕ}
variable {seg : Phdr}

theorem TaskFree.sched_eq {f : Kernel → Option (α × Kernel)} {a : α} (h : TaskFree f k)
    (hf : f k = some (a, k')) : k'.sched = k.sched := by
  have hsame := h k.sched rfl
  change f k = _ at hsame
  rw [hf, Option.map_some, Option.some_inj, Prod.mk.injEq] at hsame
  exact (congrArg Kernel.sched hsame.2).trans rfl

theorem Kernel.nullPage_withSched (hs : s.cr3 = k.sched.cr3) :
    (k.withSched s).nullPage = k.nullPage := by
  change frameOf k.vm.mem s.cr3 0 = _
  rw [hs]
  rfl

theorem Kernel.growHeap_withSched (n heapEnd : ℕ) :
    growHeap p n heapEnd (k.withSched s) = (growHeap p n heapEnd k).map (·.withSched s) := by
  induction n generalizing heapEnd k with
  | zero => rfl
  | succ n ih =>
    have hvm : (k.withSched s).vm = k.vm := rfl
    rw [growHeap, growHeap, hvm]
    obtain ⟨⟨page, v₁⟩, halloc⟩ : ∃ x, x = k.vm.allocFrame := ⟨_, rfl⟩
    rw [← halloc]
    cases hmap : v₁.vmmMapPage p.kernelPml4 heapEnd (physOf v₁ page) (vmmPresent ||| vmmWrite) with
    | none => simp only [hmap]; rfl
    | some v₂ =>
      simp only [hmap]
      exact ih (k := { k with vm := v₂, nullUsed := k.nullUsed || page.isNone }) _

theorem Kernel.kmalloc_taskFree (size : ℕ) : TaskFree (kmalloc p size) k := by
  intro s hs
  have hheap : (k.withSched s).heap = k.heap := rfl
  rw [kmalloc, kmalloc, hheap]
  cases k.heap.kmalloc size with
  | none => rfl
  | some found =>
    obtain ⟨ptr, heap⟩ := found
    simp only [Option.bind_eq_bind, Option.bind_some, growHeap_withSched]
    cases growHeap p _ k.heap.heapEnd k <;> rfl

theorem Kernel.kfree_withSched (ptr : ℕ) :
    (k.withSched s).kfree ptr = (k.kfree ptr).map (·.withSched s) := by
  have hheap : (k.withSched s).heap = k.heap := rfl
  rw [kfree, kfree, hheap]
  cases k.heap.kfree ptr <;> rfl

theorem Kernel.fillPage_withSched (offset page : ℕ) :
    fillPage file seg offset page (k.withSched s) =
      (fillPage file seg offset page k).withSched s := by
  rw [fillPage, fillPage]
  split_ifs <;> rfl

theorem Kernel.loadPage_withSched (hs : s.cr3 = k.sched.cr3) :
    loadPage file pml4 seg i (k.withSched s) =
      (loadPage file pml4 seg i k).map (·.withSched s) := by
  obtain ⟨⟨page, v₁⟩, halloc⟩ : ∃ x, x = k.vm.allocFrame := ⟨_, rfl⟩
  have halloc' : (k.withSched s).vm.allocFrame = (page, v₁) := halloc.symm
  rw [loadPage, loadPage, halloc', ← halloc]
  cases hmap : v₁.vmmMapPage pml4 (wrap (seg.vaddr + i * pageSize)) (physOf v₁ page)
      (vmmUser ||| vmmWrite ||| vmmPresent) with
  | none => simp only [hmap]; rfl
  | some v₂ =>
    -- the page through which a `NULL` is used depends on the page tables in use only
    obtain ⟨k₁, hk₁⟩ : ∃ k₁ : Kernel, k₁ =
      { k with vm := v₂, nullUsed := k.nullUsed || page.isNone } := ⟨_, rfl⟩
    have hk₁' : { k.withSched s with
        vm := v₂
        nullUsed := (k.withSched s).nullUsed || page.isNone } = k₁.withSched s := by
      rw [hk₁]
      rfl
    have hcr3 : s.cr3 = k₁.sched.cr3 := by rw [hk₁]; exact hs
    simp only [hmap, Option.bind_eq_bind, Option.bind_some]
    rw [hk₁', nullPage_withSched hcr3, ← hk₁]
    cases page <|> k₁.nullPage with
    | none => rfl
    | some frame =>
      simp only [Option.bind_some, Option.map_some]
      rw [← fillPage_withSched]
      rfl

theorem Kernel.loadPage_sched (h : loadPage file pml4 seg i k = some k') :
    k'.sched = k.sched := by
  have hsame : loadPage file pml4 seg i k =
      (loadPage file pml4 seg i k).map (·.withSched k.sched) := loadPage_withSched rfl
  rw [h, Option.map_some, Option.some_inj] at hsame
  exact (congrArg Kernel.sched hsame).trans rfl

theorem Kernel.loadPages_withSched (n i : ℕ) (hs : s.cr3 = k.sched.cr3) :
    loadPages file pml4 seg n i (k.withSched s) =
      (loadPages file pml4 seg n i k).map (·.withSched s) := by
  induction n generalizing i k with
  | zero => rfl
  | succ n ih =>
    rw [loadPages, loadPages, loadPage_withSched hs]
    cases hload : loadPage file pml4 seg i k with
    | none => rfl
    | some k₁ => exact ih (i + 1) (hs.trans (congrArg Sched.cr3 (loadPage_sched hload).symm))

theorem Kernel.loadPages_sched (h : loadPages file pml4 seg n i k = some k') :
    k'.sched = k.sched := by
  have hsame : loadPages file pml4 seg n i k =
      (loadPages file pml4 seg n i k).map (·.withSched k.sched) := loadPages_withSched n i rfl
  rw [h, Option.map_some, Option.some_inj] at hsame
  exact (congrArg Kernel.sched hsame).trans rfl

theorem Kernel.elfLoadSegments_taskFree (phdrs : List Phdr) (maxVaddr : ℕ) :
    TaskFree (elfLoadSegments file pml4 phdrs maxVaddr) k := by
  intro s hs
  induction phdrs generalizing maxVaddr k with
  | nil => rfl
  | cons seg phdrs ih =>
    rw [elfLoadSegments, elfLoadSegments]
    split_ifs
    · exact ih maxVaddr hs
    · rw [loadPages_withSched _ _ hs]
      cases hload : loadPages file pml4 seg seg.pagesNeeded 0 k with
      | none => rfl
      | some k₁ => exact ih _ (hs.trans (congrArg Sched.cr3 (loadPages_sched hload).symm))

theorem Kernel.elfReadHeader_withSched : elfReadHeader file (k.withSched s) =
    ((elfReadHeader file k).1, (elfReadHeader file k).2.withSched s) := by
  have hreads : (k.withSched s).reads = k.reads := rfl
  rw [elfReadHeader, elfReadHeader, hreads]
  obtain ⟨⟨ok, bytes⟩, hread⟩ : ∃ x, x = file.read k.reads 0 ehdrSize := ⟨_, rfl⟩
  rw [← hread]
  dsimp only
  split_ifs <;> rfl

theorem Kernel.elfReadHeader_sched : (elfReadHeader file k).2.sched = k.sched := by
  rw [elfReadHeader]
  dsimp only
  split_ifs <;> rfl

theorem Kernel.elfReadProgramHeaders_taskFree (header : Ehdr) :
    TaskFree (elfReadProgramHeaders p file header) k := by
  intro s hs
  rw [elfReadProgramHeaders, elfReadProgramHeaders, kmalloc_taskFree _ s hs]
  cases k.kmalloc p (header.phnum * phdrSize) with
  | none => rfl
  | some allocated =>
    obtain ⟨ptr, k₁⟩ := allocated
    obtain ⟨k₂, hk₂⟩ : ∃ k₂ : Kernel, k₂ = { k₁ with reads := k₁.reads + 1 } := ⟨_, rfl⟩
    have hk₂' : ({ k₁.withSched s with reads := (k₁.withSched s).reads + 1 } : Kernel) =
        k₂.withSched s := by
      rw [hk₂]
      rfl
    simp only [Option.bind_eq_bind, Option.bind_some, Option.map_some, hk₂', ← hk₂,
      kfree_withSched]
    change (if ptr = 0 then _ else if
      (file.read k₁.reads (header.phoff % 2 ^ 32) (header.phnum * phdrSize)).2.length ≠ _
        then _ else _) = _
    split_ifs
    · rfl
    · cases k₂.kfree ptr <;> rfl
    · rfl

theorem Kernel.loadElfFile_taskFree : TaskFree (loadElfFile p file pml4) k := by
  intro s hs
  rw [loadElfFile, loadElfFile]
  split_ifs
  · rw [elfReadHeader_withSched]
    obtain ⟨⟨header, k₁⟩, hheader⟩ : ∃ x, x = elfReadHeader file k := ⟨_, rfl⟩
    have hs₁ : s.cr3 = k₁.sched.cr3 := by
      have hk₁ : k₁ = (elfReadHeader file k).2 := congrArg Prod.snd hheader
      rw [hs, hk₁, elfReadHeader_sched]
    rw [← hheader]
    cases header with
    | none => rfl
    | some header =>
      simp only [elfReadProgramHeaders_taskFree header s hs₁]
      cases htable : elfReadProgramHeaders p file header k₁ with
      | none => rfl
      | some table =>
        obtain ⟨found, k₂⟩ := table
        have hs₂ : s.cr3 = k₂.sched.cr3 := hs₁.trans
          (congrArg Sched.cr3 ((elfReadProgramHeaders_taskFree header).sched_eq htable).symm)
        cases found with
        | none => rfl
        | some found =>
          obtain ⟨ptr, phdrs⟩ := found
          simp only [Option.bind_eq_bind, Option.bind_some, Option.map_some,
            elfLoadSegments_taskFree phdrs 0 s hs₂]
          cases elfLoadSegments file pml4 phdrs 0 k₂ with
          | none => rfl
          | some loaded =>
            simp only [Option.bind_some, Option.map_some, kfree_withSched]
            cases loaded.2.kfree ptr <;> rfl
  · rfl

theorem Kernel.newPml4_withSched (hs : s.cr3 = k.sched.cr3) : (k.withSched s).newPml4 p =
    (k.newPml4 p).map fun (frame, cr3, k₁) => (frame, cr3, k₁.withSched s) := by
  obtain ⟨⟨page, v₁⟩, halloc⟩ : ∃ x, x = k.vm.allocFrame := ⟨_, rfl⟩
  have halloc' : (k.withSched s).vm.allocFrame = (page, v₁) := halloc.symm
  rw [newPml4, newPml4, halloc', ← halloc]
  obtain ⟨k₁, hk₁⟩ : ∃ k₁ : Kernel, k₁ =
    { k with vm := v₁, nullUsed := k.nullUsed || page.isNone } := ⟨_, rfl⟩
  have hk₁' : { k.withSched s with
      vm := v₁
      nullUsed := (k.withSched s).nullUsed || page.isNone } = k₁.withSched s := by
    rw [hk₁]
    rfl
  have hcr3 : s.cr3 = k₁.sched.cr3 := by rw [hk₁]; exact hs
  dsimp only
  rw [hk₁', nullPage_withSched hcr3, ← hk₁]
  cases page <|> k₁.nullPage <;> rfl

theorem Kernel.addProcess_withSched {isWm : Bool} {cr3 programBreak : ℕ} {result : ℤ}
    (hs : s.cr3 = k.sched.cr3) (hpid : s.nextPid = k.sched.nextPid)
    (h : addProcess p isWm pml4 cr3 programBreak k = some (result, k')) :
    ∃ newTask stack, k'.sched = k.sched.addTask newTask stack cr3 programBreak isWm ∧
      addProcess p isWm pml4 cr3 programBreak (k.withSched s) =
        some (result, k'.withSched (s.addTask newTask stack cr3 programBreak isWm)) := by
  rw [addProcess] at h ⊢
  obtain ⟨⟨newTask, k₁⟩, hnew, h⟩ := Option.bind_eq_some_iff.mp h
  obtain ⟨⟨stack, k₂⟩, hstack, h⟩ := Option.bind_eq_some_iff.mp h
  obtain ⟨v, hmap, h⟩ := Option.bind_eq_some_iff.mp h
  have hsched₁ : k₁.sched = k.sched := (kmalloc_taskFree taskSize).sched_eq hnew
  have hsched₂ : k₂.sched = k.sched := ((kmalloc_taskFree (4096 * 4)).sched_eq hstack).trans hsched₁
  obtain ⟨rfl, rfl⟩ := Prod.mk.inj (Option.some_inj.mp h)
  refine ⟨newTask, stack, by rw [hsched₂], ?_⟩
  rw [kmalloc_taskFree taskSize s hs, hnew]
  simp only [Option.map_some, Option.bind_eq_bind, Option.bind_some]
  rw [kmalloc_taskFree (4096 * 4) s (hs.trans (congrArg Sched.cr3 hsched₁.symm)), hstack]
  simp only [Option.map_some, Option.bind_some]
  have hvm : (k₂.withSched s).vm = k₂.vm := rfl
  rw [hvm, hmap, hsched₂, ← hpid]
  rfl

theorem Kernel.newPml4_sched {cr3 : ℕ} (h : k.newPml4 p = some (pml4, cr3, k')) :
    k'.sched = k.sched := by
  rw [newPml4] at h
  dsimp only at h
  obtain ⟨frame, -, h⟩ := Option.bind_eq_some_iff.mp h
  obtain ⟨-, h⟩ := Prod.mk.inj (Option.some_inj.mp h)
  exact (congrArg Kernel.sched (Prod.mk.inj h).2).symm

/-- A creation does the same whatever the list of tasks is, and links the same new task. -/
theorem Kernel.createUserProcessFromFile_withSched {args : Args} {isWm : Bool} {result : ℤ}
    (hs : s.cr3 = k.sched.cr3) (hpid : s.nextPid = k.sched.nextPid)
    (h : createUserProcessFromFile p file args isWm k = some (result, k')) :
    ∃ pml4 cr3 k₁, k.newPml4 p = some (pml4, cr3, k₁) ∧
      (k'.sched = k.sched ∧ createUserProcessFromFile p file args isWm (k.withSched s) =
          some (result, k'.withSched s) ∨
        ∃ newTask stack programBreak,
          k'.sched = k.sched.addTask newTask stack cr3 programBreak isWm ∧
          createUserProcessFromFile p file args isWm (k.withSched s) =
            some (result, k'.withSched (s.addTask newTask stack cr3 programBreak isWm))) := by
  rw [createUserProcessFromFile] at h ⊢
  obtain ⟨⟨pml4, cr3, k₁⟩, hpml4, h⟩ := Option.bind_eq_some_iff.mp h
  obtain ⟨⟨elf, k₂⟩, helf, h⟩ := Option.bind_eq_some_iff.mp h
  refine ⟨pml4, cr3, k₁, hpml4, ?_⟩
  have hsched₁ : k₁.sched = k.sched := newPml4_sched hpml4
  have hsched₂ : k₂.sched = k.sched := (loadElfFile_taskFree.sched_eq helf).trans hsched₁
  rw [newPml4_withSched hs, hpml4]
  simp only [Option.map_some, Option.bind_eq_bind, Option.bind_some]
  rw [loadElfFile_taskFree s (hs.trans (congrArg Sched.cr3 hsched₁.symm)), helf]
  simp only [Option.map_some, Option.bind_some]
  cases elf with
  | none =>
    obtain ⟨rfl, rfl⟩ := Prod.mk.inj (Option.some_inj.mp h)
    exact Or.inl ⟨hsched₂, rfl⟩
  | some elf =>
    obtain ⟨⟨done, stackPage, v₃⟩, hstack, h⟩ := Option.bind_eq_some_iff.mp h
    have hvm : (k₂.withSched s).vm = k₂.vm := rfl
    dsimp only at h ⊢
    rw [hvm, hstack]
    simp only [Option.bind_some]
    split_ifs at h ⊢ with hdone
    · obtain ⟨v₄, hargs, h⟩ := Option.bind_eq_some_iff.mp h
      rw [hargs]
      have hcr3 : s.cr3 = ({ k₂ with vm := v₄ } : Kernel).sched.cr3 :=
        hs.trans (congrArg Sched.cr3 hsched₂.symm)
      have hpid' : s.nextPid = ({ k₂ with vm := v₄ } : Kernel).sched.nextPid :=
        hpid.trans (congrArg Sched.nextPid hsched₂.symm)
      obtain ⟨newTask, stack, hadd, hsame⟩ := addProcess_withSched hcr3 hpid' h
      refine Or.inr ⟨newTask, stack, elf.programBreak, ?_, hsame⟩
      rw [hadd]
      exact congrArg (fun s' : Sched => s'.addTask newTask stack cr3 elf.programBreak isWm) hsched₂
    · obtain ⟨rfl, rfl⟩ := Prod.mk.inj (Option.some_inj.mp h)
      exact Or.inl ⟨hsched₂, rfl⟩

/-- So does the creation of a kernel task. -/
theorem Kernel.createKernelTask_withSched {newTask : ℕ} (hs : s.cr3 = k.sched.cr3)
    (h : createKernelTask p k = some (newTask, k')) :
    ∃ stackBottom cr3, k'.sched = k.sched.addKernelTask newTask stackBottom cr3 ∧
      createKernelTask p (k.withSched s) =
        some (newTask, k'.withSched (s.addKernelTask newTask stackBottom cr3)) := by
  rw [createKernelTask] at h ⊢
  obtain ⟨⟨newTask', k₁⟩, hnew, h⟩ := Option.bind_eq_some_iff.mp h
  obtain ⟨⟨stackBottom, k₂⟩, hstack, h⟩ := Option.bind_eq_some_iff.mp h
  have hsched₁ : k₁.sched = k.sched := (kmalloc_taskFree taskSize).sched_eq hnew
  have hsched₂ : k₂.sched = k.sched := ((kmalloc_taskFree 4096).sched_eq hstack).trans hsched₁
  obtain ⟨⟨cr3, k₃⟩, hcreate⟩ : ∃ x, x = k₂.vmmCreateProcessPml4 p := ⟨_, rfl⟩
  obtain ⟨hsame, hsched₃⟩ : (k₂.withSched s).vmmCreateProcessPml4 p = (cr3, k₃.withSched s) ∧
      k₃.sched = k₂.sched := by
    obtain ⟨⟨page, v₁⟩, halloc⟩ : ∃ x, x = k₂.vm.allocFrame := ⟨_, rfl⟩
    have halloc' : (k₂.withSched s).vm.allocFrame = (page, v₁) := halloc.symm
    rw [vmmCreateProcessPml4, ← halloc] at hcreate
    rw [vmmCreateProcessPml4, halloc']
    cases page <;> (obtain ⟨rfl, rfl⟩ := Prod.mk.inj hcreate; exact ⟨rfl, rfl⟩)
  dsimp only at h
  rw [← hcreate] at h
  obtain ⟨rfl, rfl⟩ := Prod.mk.inj (Option.some_inj.mp h)
  refine ⟨stackBottom, cr3, by rw [hsched₃, hsched₂], ?_⟩
  rw [kmalloc_taskFree taskSize s hs, hnew]
  simp only [Option.map_some, Option.bind_eq_bind, Option.bind_some]
  rw [kmalloc_taskFree 4096 s (hs.trans (congrArg Sched.cr3 hsched₁.symm)), hstack]
  simp only [Option.map_some, Option.bind_some]
  rw [hsame]
  rfl

theorem Kernel.releases_withSched (released : List Release) :
    released.foldlM release (k.withSched s) = (released.foldlM release k).map (·.withSched s) := by
  induction released generalizing k with
  | nil => rfl
  | cons call released ih =>
    have hcall : release (k.withSched s) call = (release k call).map (·.withSched s) := by
      cases call with
      | kfree ptr => exact kfree_withSched ptr
      | destroyUserMemory pml4Phys => simp only [release, withSched, Option.map_some]
      | pmmFreePage addr => simp only [release, withSched, Option.map_some]
    rw [List.foldlM_cons, List.foldlM_cons, hcall]
    cases release k call with
    | none => rfl
    | some k₁ => exact ih

end Parts
end OpenIDP.Exec
