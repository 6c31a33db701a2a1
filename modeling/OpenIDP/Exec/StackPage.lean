import OpenIDP.Exec.Create
import OpenIDP.Exec.HeapGrowth
import OpenIDP.Exec.Image

/-!
# The address space of a new process

While a process is created, pages of its program, its stack and the framebuffer are mapped in
tables of its own, and the kernel heap grows for its task struct. The forest of page tables
stays, and so does what has already been stored in a page of the new address space.

## Main definitions

* `Settled` — the page tables have their places, outside the framebuffer
* `ShowsFrame` — a page of an address space leads to a frame

## Main results

* `Kernel.loadElfFile_settled` — loading a program
* `Kernel.mapStack_shows`, `Kernel.addProcess_shows` — the page keeps its frame and its contents
-/

namespace OpenIDP.Exec

open OpenIDP.Math OpenIDP.Memory OpenIDP.Process

/-- The page tables have their places, none of them in the framebuffer. `base` is where the
physical memory is mapped. -/
def Settled (κ : ℕ) (fb roots : Set ℕ) (base : ℕ) (v : Vm) : Prop :=
  v.pmm.hhdm = base ∧ ∃ place, Forest κ fb v roots place ∧ ∀ f ∈ fb, place f = none

/-- In a settled memory the page of `virt` of a task leads to the frame `f`, for a user
program. -/
structure ShowsFrame (κ : ℕ) (fb roots : Set ℕ) (base r virt f : ℕ) (v : Vm) : Prop where
  hhdm_eq : v.pmm.hhdm = base
  settled : ∃ place, Forest κ fb v roots place ∧ (∀ f ∈ fb, place f = none) ∧
    Forest.Mappable fb v place f
  entry : ∃ e, pageEntry v.mem r virt = some e ∧ entryFrame e = f ∧ Allows e

section Settled

variable {κ : ℕ} {fb roots : Set ℕ} {v v' : Vm} {r virt x f g phys flags base : ℕ}
variable {place place' : Places} {page : Option ℕ}

theorem allocFrame_hhdm (h : v.allocFrame = (page, v')) : v'.pmm.hhdm = v.pmm.hhdm := by
  unfold Vm.allocFrame at h
  split at h
  · next addr pmm halloc =>
    obtain ⟨-, rfl⟩ := Prod.mk.inj h
    obtain ⟨found, hfound, -⟩ := Pmm.pmmAllocPage_eq halloc
    exact Pmm.allocPage_hhdm hfound
  · next pmm halloc =>
    obtain ⟨-, rfl⟩ := Prod.mk.inj h
    obtain ⟨found, hfound, -⟩ := Pmm.pmmAllocPage_eq halloc
    exact Pmm.allocPage_hhdm hfound

theorem getOrAllocTable_hhdm {t c : ℕ} {i : Fin 512}
    (h : v.getOrAllocTable t i = some (c, v')) : v'.pmm.hhdm = v.pmm.hhdm := by
  unfold Vm.getOrAllocTable at h
  dsimp only at h
  split_ifs at h
  · obtain ⟨-, rfl⟩ := Prod.mk.inj (Option.some_inj.mp h)
    rfl
  · obtain ⟨-, rfl⟩ := Prod.mk.inj (Option.some_inj.mp h)
    rfl
  · split at h
    · cases h
    · next halloc =>
      obtain ⟨-, rfl⟩ := Prod.mk.inj (Option.some_inj.mp h)
      have hbase := allocFrame_hhdm halloc
      exact hbase

theorem vmmMapPage_hhdm (h : v.vmmMapPage r virt phys flags = some v') :
    v'.pmm.hhdm = v.pmm.hhdm := by
  simp only [Vm.vmmMapPage, Option.bind_eq_bind, Option.bind_eq_some_iff, Prod.exists] at h
  obtain ⟨pdpt, v₁, h₁, pd, v₂, h₂, pt, v₃, h₃, h⟩ := h
  have hbase := ((getOrAllocTable_hhdm h₃).trans (getOrAllocTable_hhdm h₂)).trans
    (getOrAllocTable_hhdm h₁)
  rw [← Option.some_inj.mp h]
  exact hbase

theorem kmalloc_hhdm {p : Platform} {k k' : Kernel} {size ptr : ℕ}
    (h : k.kmalloc p size = some (ptr, k')) : k'.vm.pmm.hhdm = k.vm.pmm.hhdm := by
  have hgrow : ∀ {n heapEnd : ℕ} {k k' : Kernel}, Kernel.growHeap p n heapEnd k = some k' →
      k'.vm.pmm.hhdm = k.vm.pmm.hhdm := by
    intro n
    induction n with
    | zero =>
      intro heapEnd k k' h
      rw [← Option.some_inj.mp h]
    | succ n ih =>
      intro heapEnd k k' h
      obtain ⟨v₂, hmap, h⟩ := Option.bind_eq_some_iff.mp h
      exact (ih h).trans ((vmmMapPage_hhdm hmap).trans (allocFrame_hhdm rfl))
  obtain ⟨⟨ptr', heap⟩, -, h⟩ := Option.bind_eq_some_iff.mp h
  obtain ⟨k₁, hrun, h⟩ := Option.bind_eq_some_iff.mp h
  obtain ⟨-, rfl⟩ := Prod.mk.inj (Option.some_inj.mp h)
  have hbase := hgrow hrun
  exact hbase

theorem fb_clear (hF : Forest κ fb v roots place) (hfb : ∀ f ∈ fb, place f = none)
    (hgrown : Grown v place v' place') : ∀ f ∈ fb, place' f = none := fun f hf =>
  hgrown.place_none (hfb f hf) (hF.fb_not_free f hf)

namespace ShowsFrame

variable (h : ShowsFrame κ fb roots base r x f v)
include h

/-- Mapping another page of the task. -/
theorem mapTaskPage (hr : r ∈ roots) (hvirt : InUserHalf virt) (hne : ¬ SamePage x virt)
    (hphys : ∀ place, Forest κ fb v roots place → (∀ f ∈ fb, place f = none) →
      Forest.Mappable fb v place (entryFrame phys))
    (hflags : entryFrame flags = 0) (hmap : v.vmmMapPage r virt phys flags = some v') :
    ShowsFrame κ fb roots base r x f v' ∧ v'.mem f = v.mem f := by
  obtain ⟨hbase, ⟨place, hF, hfb, hf⟩, e, he⟩ := h
  obtain ⟨place', hF', hgrown, htouches⟩ :=
    hF.mapTaskPage hr hvirt (hphys place hF hfb) hflags hmap
  have hplain := hf.plainFrame hF
  refine ⟨⟨(vmmMapPage_hhdm hmap).trans hbase,
    ⟨place', hF', fb_clear hF hfb hgrown, hf.grown hF hgrown⟩, e, ?_⟩,
    htouches.mem_eq f hplain.used (hplain.plain r hr)⟩
  rwa [htouches.other r hr x fun _ => hne]

/-- Mapping a frame that was free at another page of the task. -/
theorem mapFresh (hr : r ∈ roots) (hvirt : InUserHalf virt) (hne : ¬ SamePage x virt) {v₁ : Vm}
    (halloc : v.allocFrame = (some g, v₁)) (hmap : v₁.vmmMapPage r virt g 7 = some v') :
    ShowsFrame κ fb roots base r x f v' ∧ v'.mem f = v.mem f := by
  obtain ⟨hbase, ⟨place, hF, hfb, hf⟩, e, he⟩ := h
  obtain ⟨place', hF', hgrown, -, -, -, -, hother, hmem⟩ := hF.mapFresh hr hvirt halloc hmap
  have hbase' := ((vmmMapPage_hhdm hmap).trans (allocFrame_hhdm halloc)).trans hbase
  refine ⟨⟨hbase', ⟨place', hF', fb_clear hF hfb hgrown, hf.grown hF hgrown⟩, e, ?_⟩,
    hmem f (hf.used hF) hf.1⟩
  rwa [hother r hr x fun _ => hne]

/-- Writing to the frame itself. -/
theorem write (hr : r ∈ roots) (hmem : ∀ g, g ≠ f → v'.mem g = v.mem g) (hpmm : v'.pmm = v.pmm)
    (hlent : v'.lent = v.lent) : ShowsFrame κ fb roots base r x f v' := by
  obtain ⟨hbase, ⟨place, hF, hfb, hf⟩, e, he⟩ := h
  obtain ⟨-, hpages, -⟩ := hF.spaces.write (hf.plainFrame hF).plain hmem hpmm hlent
  refine ⟨?_, ⟨place, hF.write hf.1 hmem hpmm hlent, hfb, hf.1, ?_⟩, e, ?_⟩
  · rwa [hpmm]
  · rw [hlent]
    exact hf.2
  · rwa [hpages r hr]

/-- Growing the kernel heap. -/
theorem kmalloc {p : Platform} {k k' : Kernel} {size ptr : ℕ} (hκ : κ = p.kernelPml4)
    (hv : k.vm = v) (hr : r ∈ roots) (hroom : RoomToGrow k.heap size)
    (hrun : k.kmalloc p size = some (ptr, k')) :
    ShowsFrame κ fb roots base r x f k'.vm ∧ k'.vm.mem f = v.mem f := by
  subst hκ hv
  obtain ⟨hbase, ⟨place, hF, hfb, hf⟩, e, he, hframe, hallows⟩ := h
  have hgrows := Kernel.kmalloc_forest hF hroom hrun
  obtain ⟨place', hF', hgrown⟩ := hgrows.forest
  have hsame := hgrows.view.page_eq r hr x e he
  rw [hframe] at hsame
  refine ⟨⟨(kmalloc_hhdm hrun).trans hbase,
    ⟨place', hF', fb_clear hF hfb hgrown, hf.grown hF hgrown⟩, e, ?_, hframe, hallows⟩, hsame⟩
  rwa [hgrows.view.entry_eq r hr]

/-- What a program reads and may write in the page. -/
theorem read (hr : r ∈ roots) {y : ℕ} (hy : SamePage y x)
    (hylt : y < 2 ^ 47) :
    readByte v.mem r y = some (frameByte v.mem f (y % pageSize)) ∧ UserWritable v.mem r y := by
  obtain ⟨-, ⟨place, hF, -⟩, e, he, hframe, hallows⟩ := h
  have hspace := hF.spaces.space r hr
  have huser := inUserHalf_of_lt hylt
  rw [← pageEntry_congr hy] at he
  constructor
  · rw [hspace.readByte_eq huser, he, Option.map_some, hframe]
  · exact (hspace.userWritable_iff huser).mpr ⟨e, he, hallows⟩

end ShowsFrame

end Settled

/-! ## Room in the kernel heap -/

/-- The kernel heap stays in its range when it grows for some requests. -/
def RoomFor (heap : KHeap) (sizes : List ℕ) : Prop :=
  kheapStart ≤ heap.heapEnd ∧
    heap.heapEnd + (sizes.map heapPages).sum * pageSize ≤ kheapMax

section Room

variable {h h' : KHeap} {block ptr depth size : ℕ} {sizes : List ℕ}
variable {p : Platform} {k k' : Kernel} {file : FatFile}

theorem KHeap.coalesce_heapEnd (hrun : h.coalesce depth block = some h') :
    h'.heapEnd = h.heapEnd := by
  induction depth generalizing h block with
  | zero => cases hrun
  | succ depth ih =>
    have hmerge : (h.mergeForward block).heapEnd = h.heapEnd := by
      unfold KHeap.mergeForward
      dsimp only
      split_ifs <;> rfl
    rw [KHeap.coalesce] at hrun
    split_ifs at hrun
    · exact (ih hrun).trans hmerge
    · exact (congrArg KHeap.heapEnd (Option.some_inj.mp hrun)).symm.trans hmerge

theorem KHeap.kfree_heapEnd (hrun : h.kfree ptr = some h') : h'.heapEnd = h.heapEnd := by
  rw [KHeap.kfree] at hrun
  dsimp only at hrun
  split_ifs at hrun
  · rw [Option.some_inj.mp hrun]
  · rw [Option.some_inj.mp hrun]
  · have hend := KHeap.coalesce_heapEnd hrun
    exact hend

namespace RoomFor

theorem congr (hroom : RoomFor h sizes) (hend : h'.heapEnd = h.heapEnd) : RoomFor h' sizes := by
  rwa [RoomFor, hend]

theorem head (hroom : RoomFor h (size :: sizes)) : RoomToGrow h size := by
  obtain ⟨hlow, hhigh⟩ := hroom
  rw [List.map_cons, List.sum_cons, Nat.add_mul] at hhigh
  exact HeapRoom.toGrow ⟨hlow, by omega⟩

/-- After the first request there is room for the others. -/
theorem kmalloc (hroom : RoomFor k.heap (size :: sizes))
    (hrun : k.kmalloc p size = some (ptr, k')) : RoomFor k'.heap sizes := by
  obtain ⟨hlow, hhigh⟩ := hroom
  rw [List.map_cons, List.sum_cons, Nat.add_mul] at hhigh
  have hmax : kheapMax < 2 ^ 64 := by decide
  obtain ⟨⟨ptr', heap⟩, hmalloc, hrest⟩ := Option.bind_eq_some_iff.mp hrun
  obtain ⟨k₁, -, hrest⟩ := Option.bind_eq_some_iff.mp hrest
  obtain ⟨-, rfl⟩ := Prod.mk.inj (Option.some_inj.mp hrest)
  have hend : k.heap.heapEnd ≤ heap.heapEnd ∧
      heap.heapEnd ≤ k.heap.heapEnd + heapPages size * pageSize := by
    rcases kmalloc_heapEnd hmalloc with hsame | ⟨-, hgrown⟩
    · omega
    · rw [hgrown, KHeap.growEnd_eq (by omega), wrap_of_lt (by omega)]
      omega
  exact ⟨hlow.trans hend.1, by dsimp only; omega⟩

end RoomFor

theorem Kernel.elfReadProgramHeaders_room {header : Ehdr} {found : Option (ℕ × List Phdr)}
    (hroom : RoomFor k.heap (header.phnum * phdrSize :: sizes))
    (hrun : k.elfReadProgramHeaders p file header = some (found, k')) :
    RoomFor k'.heap sizes ∧ k'.vm.pmm.hhdm = k.vm.pmm.hhdm := by
  obtain ⟨⟨ptr, k₁⟩, hmalloc, hrun⟩ := Option.bind_eq_some_iff.mp hrun
  have hroom₁ := hroom.kmalloc hmalloc
  have hbase₁ := kmalloc_hhdm hmalloc
  dsimp only at hrun
  split_ifs at hrun
  · obtain ⟨-, rfl⟩ := Prod.mk.inj (Option.some_inj.mp hrun)
    exact ⟨hroom₁, hbase₁⟩
  · obtain ⟨k₂, hfree, hrun⟩ := Option.bind_eq_some_iff.mp hrun
    obtain ⟨-, rfl⟩ := Prod.mk.inj (Option.some_inj.mp hrun)
    obtain ⟨heap, hkfree, hfree⟩ := Option.bind_eq_some_iff.mp hfree
    rw [← Option.some_inj.mp hfree]
    exact ⟨hroom₁.congr (KHeap.kfree_heapEnd hkfree), hbase₁⟩
  · obtain ⟨-, rfl⟩ := Prod.mk.inj (Option.some_inj.mp hrun)
    exact ⟨hroom₁, hbase₁⟩

end Room

/-! ## Loading the program -/

section Loading

variable {fb roots : Set ℕ} {p : Platform} {k k' : Kernel} {file : FatFile} {seg : Phdr}
variable {contents : List (BitVec 8)} {pml4 i n base : ℕ}

namespace Kernel

theorem loadPage_settled (h : Loading p roots pml4 k) (hS : Settled p.kernelPml4 fb roots base k.vm)
    (hnull : NullFaults p k ∨ k.vm.allocFrame.1 ≠ none)
    (hvirt : seg.vaddr + i * pageSize < 2 ^ 47) (hrun : k.loadPage file pml4 seg i = some k') :
    Loading p roots pml4 k' ∧ (NullFaults p k → NullFaults p k') ∧
      Settled p.kernelPml4 fb roots base k'.vm ∧ k'.heap = k.heap ∧ k'.sched = k.sched := by
  obtain ⟨hbase, place, hF, hfb⟩ := hS
  obtain ⟨f, v₁, v₂, halloc, haligned, hmap, hk'⟩ := loadPage_mapped h hnull hvirt hrun
  obtain ⟨h', hfaults, -⟩ := loadPage_image h hnull hvirt hrun
  refine ⟨h', hfaults, ?_⟩
  obtain ⟨place₂, hF₂, hgrown, hf, -⟩ :=
    hF.mapFresh h.pml4_mem (inUserHalf_of_lt hvirt) halloc hmap
  obtain ⟨k₁, hk₁⟩ : ∃ k₁ : Kernel, k₁ =
      { k with vm := v₂.clearPage f, nullUsed := k.nullUsed || false } := ⟨_, rfl⟩
  rw [← hk₁] at hk'
  subst hk'
  obtain ⟨hkept, hpmm, hlent, -, hsched, hheap⟩ :=
    @Kernel.fillPage_vm k₁ file seg f haligned (i * pageSize)
  have hcleared : ∀ g, g ≠ f → k₁.vm.mem g = v₂.mem g := fun g hg => by
    rw [hk₁]
    exact Function.update_of_ne hg _ _
  refine ⟨⟨?_, place₂, hF₂.write hf.1 (fun g hg => (hkept g hg).trans (hcleared g hg))
    (by rw [hpmm, hk₁]; rfl) (by rw [hlent, hk₁]; rfl), fb_clear hF hfb hgrown⟩, ?_, ?_⟩
  · rw [hpmm, hk₁]
    exact ((vmmMapPage_hhdm hmap).trans (allocFrame_hhdm halloc)).trans hbase
  · rw [hheap, hk₁]
  · rw [hsched, hk₁]

theorem loadPages_settled (h : Loading p roots pml4 k)
    (hS : Settled p.kernelPml4 fb roots base k.vm)
    (hnull : NullFaults p k ∨ k.PagesGiven file pml4 seg n i)
    (hend : ∀ j < i + n, seg.vaddr + j * pageSize < 2 ^ 47)
    (hrun : k.loadPages file pml4 seg n i = some k') :
    Loading p roots pml4 k' ∧ (NullFaults p k → NullFaults p k') ∧
      Settled p.kernelPml4 fb roots base k'.vm ∧ k'.heap = k.heap ∧ k'.sched = k.sched := by
  induction n generalizing i k with
  | zero =>
    obtain rfl := Option.some_inj.mp hrun
    exact ⟨h, id, hS, rfl, rfl⟩
  | succ n ih =>
    obtain ⟨k₁, hpage, hrest⟩ := Option.bind_eq_some_iff.mp hrun
    obtain ⟨h₁, hfaults, hS₁, hheap₁, hsched₁⟩ :=
      loadPage_settled h hS (hnull.imp_right And.left) (hend i (by omega)) hpage
    obtain ⟨h', hfaults', hS', hheap, hsched⟩ := ih h₁ hS₁
      (hnull.imp hfaults fun hgiven => hgiven.2 k₁ hpage) (fun j hj => hend j (by omega)) hrest
    exact ⟨h', fun hfault => hfaults' (hfaults hfault), hS', hheap.trans hheap₁,
      hsched.trans hsched₁⟩

/-- Segments of the lower half are loaded into the lower half. -/
theorem elfLoadSegments_settled {phdrs : List Phdr} {maxVaddr result : ℕ}
    (h : Loading p roots pml4 k) (hS : Settled p.kernelPml4 fb roots base k.vm)
    (hnull : NullFaults p k ∨ k.SegmentsGiven file pml4 phdrs)
    (hend : ∀ seg ∈ phdrs, seg.type = ptLoad → seg.vaddr + seg.memsz ≤ 2 ^ 47)
    (hrun : k.elfLoadSegments file pml4 phdrs maxVaddr = some (result, k')) :
    Settled p.kernelPml4 fb roots base k'.vm ∧ k'.heap = k.heap ∧ k'.sched = k.sched := by
  induction phdrs generalizing maxVaddr k with
  | nil =>
    obtain ⟨-, rfl⟩ := Prod.mk.inj (Option.some_inj.mp hrun)
    exact ⟨hS, rfl, rfl⟩
  | cons seg phdrs ih =>
    obtain ⟨hseg, hrest⟩ := List.forall_mem_cons.mp hend
    rw [elfLoadSegments] at hrun
    rw [SegmentsGiven] at hnull
    by_cases htype : seg.type = ptLoad
    · rw [if_neg (not_not_intro htype)] at hrun
      rw [if_pos htype] at hnull
      obtain ⟨k₁, hpages, hrun⟩ := Option.bind_eq_some_iff.mp hrun
      have hlast : ∀ j < 0 + seg.pagesNeeded, seg.vaddr + j * pageSize < 2 ^ 47 :=
        fun j hj => seg.page_lt (hseg htype) (by omega)
      obtain ⟨h₁, hfaults, hS₁, hheap₁, hsched₁⟩ :=
        loadPages_settled h hS (hnull.imp_right And.left) hlast hpages
      obtain ⟨hS', hheap, hsched⟩ :=
        ih h₁ hS₁ (hnull.imp hfaults fun hgiven => hgiven.2 k₁ hpages) hrest hrun
      exact ⟨hS', hheap.trans hheap₁, hsched.trans hsched₁⟩
    · rw [if_pos htype] at hrun
      rw [if_neg htype] at hnull
      exact ih h hS hnull hrest hrun

/-- Loading a program into the lower half of a new address space. -/
theorem loadElfFile_settled {result : ElfLoadResult} {sizes : List ℕ}
    (hS : Settled p.kernelPml4 fb roots base k.vm) (hpml4 : pml4 ∈ roots)
    (hcaller : k.sched.cr3 = p.kernelPml4 ∨ k.sched.cr3 ∈ roots) (hne : k.sched.cr3 ≠ pml4)
    (hnull : NullUnused p file pml4 (elfPhdrs contents) k) (hfile : file.Holds contents)
    (htable : (elfHeader contents).phoff + (elfHeader contents).phnum * phdrSize ≤ contents.length)
    (hend : ∀ seg ∈ elfPhdrs contents, seg.type = ptLoad → seg.vaddr + seg.memsz ≤ 2 ^ 47)
    (hroom : RoomFor k.heap ((elfHeader contents).phnum * phdrSize :: sizes))
    (hrun : k.loadElfFile p file pml4 = some (some result, k')) :
    Settled p.kernelPml4 fb roots base k'.vm ∧ RoomFor k'.heap sizes ∧
      result.entry = (elfHeader contents).entry := by
  obtain ⟨hbase, place, hF, hfb⟩ := hS
  rw [loadElfFile] at hrun
  split_ifs at hrun with hopens
  · cases hheader : elfReadHeader file k with
    | mk found k₁ =>
      rw [hheader] at hrun
      cases found with
      | none => cases (Prod.mk.inj (Option.some_inj.mp hrun)).1
      | some header =>
        obtain ⟨rfl, rfl⟩ := elfReadHeader_eq hfile hheader
        obtain ⟨⟨found, k₂⟩, hphdrs, hrun⟩ := Option.bind_eq_some_iff.mp hrun
        cases found with
        | none => cases (Prod.mk.inj (Option.some_inj.mp hrun)).1
        | some found =>
          obtain ⟨ptr, phdrs⟩ := found
          obtain ⟨⟨maxVaddr, k₃⟩, hsegments, hrun⟩ := Option.bind_eq_some_iff.mp hrun
          obtain ⟨k₄, hfree, hrun⟩ := Option.bind_eq_some_iff.mp hrun
          obtain ⟨hresult, rfl⟩ := Prod.mk.inj (Option.some_inj.mp hrun)
          obtain ⟨hroom₂, hhdm₂⟩ :=
            elfReadProgramHeaders_room (k := { k with reads := k.reads + 1 }) hroom hphdrs
          have hbase₂ : k₂.vm.pmm.hhdm = base := hhdm₂.trans hbase
          obtain ⟨rfl, -, k', hgrows, hvm, hsched⟩ := elfReadProgramHeaders_eq
            (k := { k with reads := k.reads + 1 }) hF hfile htable hroom.head hphdrs
          obtain ⟨place', hF', hgrown⟩ := hgrows.forest
          have hsched' : k₂.sched = k.sched := hsched.trans hgrows.sched_eq
          have hnull₂ : NullFaults p k₂ ∨ k₂.SegmentsGiven file pml4 (elfPhdrs contents) :=
            hnull.before hF hopens hheader hphdrs hgrows hvm hsched hcaller
          have hfb' := fb_clear hF hfb hgrown
          rw [← hvm] at hF'
          have hloading : Loading p roots pml4 k₂ :=
            .of_forest hF' hpml4 (hsched' ▸ hcaller) (hsched' ▸ hne)
          obtain ⟨hS₃, hheap₃, -⟩ :=
            elfLoadSegments_settled hloading ⟨hbase₂, place', hF', hfb'⟩ hnull₂ hend hsegments
          obtain ⟨heap, hkfree, hfree⟩ := Option.bind_eq_some_iff.mp hfree
          obtain rfl := Option.some_inj.mp hfree
          refine ⟨hS₃, ?_, ?_⟩
          · rw [← hheap₃] at hroom₂
            exact hroom₂.congr (KHeap.kfree_heapEnd hkfree)
          · rw [← Option.some_inj.mp hresult]
  · cases (Prod.mk.inj (Option.some_inj.mp hrun)).1

/-- A new PML4 joins those of the tasks. -/
theorem newPml4_settled {cr3 : ℕ} (hS : Settled p.kernelPml4 fb roots base k.vm)
    (hcaller : k.sched.cr3 = p.kernelPml4 ∨ k.sched.cr3 ∈ roots)
    (hnull : NullFaults p k ∨ k.vm.allocFrame.1 ≠ none)
    (hrun : k.newPml4 p = some (pml4, cr3, k')) :
    Settled p.kernelPml4 fb (insert pml4 roots) base k'.vm ∧ cr3 = pml4 ∧ pml4 ≠ k.sched.cr3 ∧
      (NullFaults p k → NullFaults p k') ∧ k'.heap = k.heap ∧ k'.sched = k.sched := by
  obtain ⟨hbase, place, hF, hfb⟩ := hS
  obtain ⟨⟨page, v₁⟩, halloc⟩ : ∃ x, x = k.vm.allocFrame := ⟨_, rfl⟩
  rw [← halloc] at hnull
  rw [newPml4, ← halloc] at hrun
  obtain ⟨-, hgrown, hmem₁⟩ := hF.allocFrame halloc.symm
  obtain ⟨frame, hframe, hrun⟩ := Option.bind_eq_some_iff.mp hrun
  cases page with
  | none =>
    -- the page fault handler does not return
    have hnone : NullFaults p { k with vm := v₁, nullUsed := k.nullUsed || true } := by
      have hfaults := hnull.resolve_right fun hne => hne rfl
      rw [NullFaults] at hfaults ⊢
      rwa [hmem₁]
    exact absurd (hnone.nullPage.symm.trans hframe) (Option.some_ne_none frame).symm
  | some f =>
    obtain rfl : f = frame := Option.some_inj.mp hframe
    obtain ⟨rfl, hpair⟩ := Prod.mk.inj (Option.some_inj.mp hrun)
    obtain ⟨rfl, rfl⟩ := Prod.mk.inj hpair
    obtain ⟨hF₁, hunseen, hlent⟩ := hF.alloc halloc.symm
    obtain ⟨hfree, -⟩ := hF.sound.allocFrame_some halloc.symm
    have hF' : Forest p.kernelPml4 fb (v₁.copyKernelHalf f p.kernelPml4) (insert f roots)
        (Function.update place f (some (f, []))) :=
      hF₁.addRoot hunseen hlent rfl ⟨rfl, rfl⟩
    have hkept : ∀ g, g ≠ f → (v₁.copyKernelHalf f p.kernelPml4).mem g = k.vm.mem g := by
      intro g hg
      rw [← hmem₁]
      exact Function.update_of_ne hg _ _
    have hview : SameView roots k.vm (v₁.copyKernelHalf f p.kernelPml4) :=
      hF.sameView hF'.sound (fun g hg => hgrown.free hg) fun g hg _ =>
        hkept g fun e => hg (e ▸ hfree)
    have hκ : p.kernelPml4 ≠ f := fun e => hF.not_free hF.kernel_place (e ▸ hfree)
    have hroots : ∀ r ∈ roots, r ≠ f := fun r hr e => hF.not_free (hF.root_place r hr) (e ▸ hfree)
    have hne : f ≠ k.sched.cr3 := by
      rcases hcaller with hcr3 | hcr3
      · exact fun e => hκ (hcr3.symm.trans e.symm)
      · exact (hroots _ hcr3).symm
    refine ⟨⟨(allocFrame_hhdm halloc.symm).trans hbase, _, hF', fun g hg => ?_⟩, rfl, hne,
      fun hnull => ?_, rfl, rfl⟩
    · have hg' : g ≠ f := fun e => hF.fb_not_free g hg (e ▸ hfree)
      rw [Function.update_of_ne hg']
      exact hfb g hg
    · rw [NullFaults] at hnull ⊢
      dsimp only
      split_ifs at hnull ⊢ with hcr3
      · rwa [hkept _ hκ]
      · have hroot := hcaller.resolve_left hcr3
        have hlow : InUserHalf 0 := by decide
        rw [(hF.spaces.space _ hroot).frameOf_eq hlow] at hnull
        rwa [(hF'.spaces.space _ (Set.mem_insert_of_mem f hroot)).frameOf_eq hlow,
          hview.entry_eq _ hroot]

end Kernel

end Loading

/-! ## The stack and the framebuffer -/

section Stack

variable {κ : ℕ} {fb roots : Set ℕ} {v v' : Vm} {r f base : ℕ}

/-- The start of the page at the top of the stack. -/
def topPage : ℕ := userStackTop - 4096

theorem stackPage_lt (i : ℕ) : userStackTop - (i + 1) * 4096 < 2 ^ 47 :=
  Nat.lt_of_le_of_lt (Nat.sub_le _ _) (by decide)

theorem topPage_ne {virt : ℕ} (hvirt : virt < 2 ^ 47)
    (hne : virt < topPage ∨ userStackTop ≤ virt) : ¬ SamePage topPage virt := by
  have htop : topPage = 0x6FFFFF000 ∧ userStackTop = 0x700000000 := ⟨rfl, rfl⟩
  rw [samePage_iff_of_lt (by omega) (hvirt.trans (by decide)), pageSize]
  omega

/-- The pages below the first one are mapped. -/
theorem Kernel.mapStack_rest {n i first last : ℕ} (h : ShowsFrame κ fb roots base r topPage f v)
    (hr : r ∈ roots) (hi : 1 ≤ i) (hn : i + n ≤ 4096)
    (hrun : Kernel.mapStack r n i first v = some (true, last, v')) :
    last = first ∧ ShowsFrame κ fb roots base r topPage f v' ∧ v'.mem f = v.mem f := by
  induction n generalizing i v with
  | zero =>
    obtain ⟨-, hpair⟩ := Prod.mk.inj (Option.some_inj.mp hrun)
    obtain ⟨rfl, rfl⟩ := Prod.mk.inj hpair
    exact ⟨rfl, h, rfl⟩
  | succ n ih =>
    obtain ⟨⟨page, v₁⟩, halloc⟩ : ∃ x, x = v.allocFrame := ⟨_, rfl⟩
    rw [Kernel.mapStack, ← halloc] at hrun
    cases page with
    | none => cases (Prod.mk.inj (Option.some_inj.mp hrun)).1
    | some g =>
      obtain ⟨v₂, hmap, hrun⟩ := Option.bind_eq_some_iff.mp hrun
      have htop : topPage = 0x6FFFFF000 ∧ userStackTop = 0x700000000 := ⟨rfl, rfl⟩
      have hbelow : userStackTop - (i + 1) * 4096 < topPage := by omega
      obtain ⟨h₂, hmem₂⟩ := h.mapFresh hr (inUserHalf_of_lt (stackPage_lt i))
        (topPage_ne (stackPage_lt i) (Or.inl hbelow)) halloc.symm hmap
      rw [if_neg (by omega)] at hrun
      obtain ⟨hlast, h', hmem'⟩ := ih h₂ (by omega) (by omega) hrun
      exact ⟨hlast, h', hmem'.trans hmem₂⟩

/-- The page at the top of the stack leads to the first frame that was allocated. -/
theorem Kernel.mapStack_shows {stackPage : ℕ} (hS : Settled κ fb roots base v) (hr : r ∈ roots)
    (hrun : Kernel.mapStack r (userStackSize / 4096) 0 0 v = some (true, stackPage, v')) :
    ShowsFrame κ fb roots base r topPage stackPage v' ∧ stackPage % pageSize = 0 ∧
      stackPage < 2 ^ 52 := by
  obtain ⟨hbase, place, hF, hfb⟩ := hS
  have hsize : userStackSize / 4096 = 4095 + 1 := rfl
  obtain ⟨⟨page, v₁⟩, halloc⟩ : ∃ x, x = v.allocFrame := ⟨_, rfl⟩
  rw [hsize, Kernel.mapStack, ← halloc] at hrun
  cases page with
  | none => cases (Prod.mk.inj (Option.some_inj.mp hrun)).1
  | some g =>
    obtain ⟨v₂, hmap, hrun⟩ := Option.bind_eq_some_iff.mp hrun
    rw [if_pos rfl] at hrun
    obtain ⟨place₂, hF₂, hgrown, hg, -, haligned, hentry, -⟩ :=
      hF.mapFresh hr (inUserHalf_of_lt (stackPage_lt 0)) halloc.symm hmap
    have h₂ : ShowsFrame κ fb roots base r topPage g v₂ :=
      ⟨((vmmMapPage_hhdm hmap).trans (allocFrame_hhdm halloc.symm)).trans hbase,
        ⟨place₂, hF₂, fb_clear hF hfb hgrown, hg⟩, hentry⟩
    obtain ⟨rfl, h', -⟩ := Kernel.mapStack_rest h₂ hr (by decide) (by decide) hrun
    refine ⟨h', haligned, ?_⟩
    have hframe : entryFrame stackPage = stackPage := by
      obtain ⟨e, -, he, -⟩ := hentry
      rw [← he]
      exact isFrame_entryFrame
    rw [← hframe, entryFrame]
    exact Nat.lt_of_le_of_lt Nat.and_le_right (by decide)

/-- The framebuffer lies in the frames `fb`, and ends in the lower half where it is mapped. -/
structure FramebufferIn (p : Platform) (fb : Set ℕ) (hhdm : ℕ) : Prop where
  frames : ∀ offset < (p.fbSize + pageSize - 1) / pageSize * pageSize,
    entryFrame (wrap (sub64 p.fbAddress hhdm + offset)) ∈ fb
  end_le : userFbBase + (p.fbSize + pageSize - 1) / pageSize * pageSize ≤ 2 ^ 47

theorem Kernel.mapFramebuffer_shows {fbPhys n offset size : ℕ}
    (h : ShowsFrame κ fb roots base r topPage f v) (hr : r ∈ roots)
    (hframes : ∀ o < size, entryFrame (wrap (fbPhys + o)) ∈ fb) (hend : userFbBase + size ≤ 2 ^ 47)
    (hsize : offset + n * pageSize ≤ size)
    (hrun : Kernel.mapFramebuffer fbPhys r n offset v = some v') :
    ShowsFrame κ fb roots base r topPage f v' ∧ v'.mem f = v.mem f := by
  induction n generalizing offset v with
  | zero =>
    obtain rfl := Option.some_inj.mp hrun
    exact ⟨h, rfl⟩
  | succ n ih =>
    rw [Nat.add_mul, Nat.one_mul, pageSize] at hsize
    obtain ⟨v₁, hmap, hrun⟩ := Option.bind_eq_some_iff.mp hrun
    have hvirt : userFbBase + offset < 2 ^ 47 := by omega
    rw [wrap_of_lt (hvirt.trans (by decide))] at hmap
    have habove : userStackTop ≤ userFbBase + offset :=
      Nat.le_trans (by decide) (Nat.le_add_right userFbBase offset)
    obtain ⟨h₁, hmem₁⟩ := h.mapTaskPage hr (inUserHalf_of_lt hvirt)
      (topPage_ne hvirt (Or.inr habove))
      (fun place _ hfb => ⟨hfb _ (hframes offset (by omega)), Or.inr (hframes offset (by omega))⟩)
      (by decide) hmap
    obtain ⟨h', hmem'⟩ := ih h₁ (by rw [pageSize]; omega) hrun
    exact ⟨h', hmem'.trans hmem₁⟩

/-- The rest of the creation. -/
theorem Kernel.addProcess_shows {p : Platform} {k k' : Kernel} {isWm : Bool}
    {cr3 programBreak : ℕ} {pid : ℤ} (h : ShowsFrame p.kernelPml4 fb roots base r topPage f k.vm)
    (hr : r ∈ roots) (hfb : FramebufferIn p fb base)
    (hroom : RoomFor k.heap [taskSize, 4096 * 4])
    (hrun : k.addProcess p isWm r cr3 programBreak = some (pid, k')) :
    ShowsFrame p.kernelPml4 fb roots base r topPage f k'.vm ∧ k'.vm.mem f = k.vm.mem f := by
  obtain ⟨⟨newTask, k₁⟩, hmalloc₁, hrun⟩ := Option.bind_eq_some_iff.mp hrun
  obtain ⟨⟨stack, k₂⟩, hmalloc₂, hrun⟩ := Option.bind_eq_some_iff.mp hrun
  obtain ⟨v, hmap, hrun⟩ := Option.bind_eq_some_iff.mp hrun
  obtain ⟨-, rfl⟩ := Prod.mk.inj (Option.some_inj.mp hrun)
  obtain ⟨h₁, hmem₁⟩ := h.kmalloc rfl rfl hr hroom.head hmalloc₁
  obtain ⟨h₂, hmem₂⟩ := h₁.kmalloc rfl rfl hr (hroom.kmalloc hmalloc₁).head hmalloc₂
  have hsize : 0 + (if isWm then (p.fbSize + pageSize - 1) / pageSize else 0) * pageSize ≤
      (p.fbSize + pageSize - 1) / pageSize * pageSize := by
    split_ifs
    · omega
    · omega
  rw [h₂.hhdm_eq] at hmap
  obtain ⟨h', hmem'⟩ := Kernel.mapFramebuffer_shows h₂ hr hfb.frames hfb.end_le hsize hmap
  exact ⟨h', (hmem'.trans hmem₂).trans hmem₁⟩

end Stack

end OpenIDP.Exec
