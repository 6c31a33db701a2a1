import OpenIDP.Exec.Image
import OpenIDP.Memory.Walk

/-!
# The program break of a new program

The loader counts pages from the start of a segment, which need not be the start of a page, and
rounds up the end of the segment that reaches farthest. The break that it returns is above all
pages it has mapped. It does not look at the results of `pmm_alloc_page`, so that it may fill the
page at address 0 of the task that runs.

## Main definitions

* `Kernel.phdrsRead` — the program headers that the loader sees
* `SameFrom` — all pages from an address on stay where they are

## Main results

* `Kernel.loadPage_outside` — what loading a page leaves alone
* `Kernel.loadElfFile_break` — the break is above the image
-/

namespace OpenIDP.Exec

open OpenIDP.Math OpenIDP.Memory

/-- The program headers that `elf_read_program_headers` reads when the file is loaded. -/
def Kernel.phdrsRead (file : FatFile) (k : Kernel) : List Phdr :=
  let header := Ehdr.parse (file.read k.reads 0 ehdrSize).2
  phdrTable (file.read (k.reads + 1) (header.phoff % 2 ^ 32) (header.phnum * phdrSize)).2
    header.phnum

section Segments

variable {p : Platform} {file : FatFile} {pml4 bound n i maxVaddr result : ℕ} {seg : Phdr}
variable {phdrs : List Phdr} {k k' : Kernel}

/-- The pages of a segment end below the bound that its last byte is below. -/
theorem Phdr.page_le (hend : seg.vaddr + seg.memsz ≤ 2 ^ 47) (hi : i < seg.pagesNeeded)
    (hbound : seg.vaddr + seg.memsz ≤ bound) (haligned : bound % pageSize = 0) :
    wrap (seg.vaddr + i * pageSize) / pageSize * pageSize + pageSize ≤ bound := by
  have hpage : pageSize = 4096 := rfl
  rw [seg.pagesNeeded_eq hend] at hi
  rw [hpage] at haligned ⊢
  rw [wrap_of_lt (by omega)]
  omega

/-- Loading a page maps this page, and fills its frame or the one of the page at address 0. The
tables of the address space stay apart, and all other pages stay where they are. -/
theorem Kernel.loadPage_outside (h : Halves pml4 k.vm) (hnull : NullApart pml4 k.sched.cr3 k.vm)
    (hvirt : seg.vaddr + i * pageSize < 2 ^ 47) (hrun : k.loadPage file pml4 seg i = some k') :
    Halves pml4 k'.vm ∧ NullApart pml4 k'.sched.cr3 k'.vm ∧
      (∀ x, ¬ InUserHalf x →
        translate k'.vm.mem pml4 (indices x) = translate k.vm.mem pml4 (indices x)) ∧
      ∀ x, ¬ SamePage x (seg.vaddr + i * pageSize) →
        pageEntry k'.vm.mem pml4 x = pageEntry k.vm.mem pml4 x := by
  obtain ⟨⟨page, v₁⟩, halloc⟩ : ∃ x, x = k.vm.allocFrame := ⟨_, rfl⟩
  rw [loadPage, ← halloc] at hrun
  obtain ⟨v₂, hmap, hrun⟩ := Option.bind_eq_some_iff.mp hrun
  obtain ⟨f, hframe, hrun⟩ := Option.bind_eq_some_iff.mp hrun
  rw [wrap_of_lt (hvirt.trans (by decide))] at hmap
  have huser := inUserHalf_of_lt hvirt
  obtain ⟨hfirst, hmem₁, hpage⟩ :=
    h.space.alloc_mapsOnly {f | frameOf k.vm.mem k.sched.cr3 0 = some f} halloc.symm
  have hsecond := hfirst.trans (hfirst.space.map_mapsOnly _ huser hmap)
  obtain ⟨hsame, hnull₂⟩ := hnull.mapsOnly h hsecond
  -- the frame that is filled is no table, and no frame that had to keep its contents
  obtain ⟨haligned, hnot, hkeeps⟩ : f % pageSize = 0 ∧ ¬ IsTable v₂.mem pml4 f ∧
      ∀ g, Apart pml4 k.vm g → frameOf k.vm.mem k.sched.cr3 0 ≠ some g → g ≠ f := by
    cases page with
    | none =>
      have hzero : frameOf v₂.mem k.sched.cr3 0 = some f := hframe
      exact ⟨frameOf_aligned hzero, (hnull₂.page hzero).1.plain,
        fun g _ hg e => hg (e ▸ hsame.symm.trans hzero)⟩
    | some f' =>
      obtain rfl : f' = f := Option.some_inj.mp hframe
      obtain ⟨hfree, hused, hisFrame⟩ := hpage f' rfl
      refine ⟨?_, fun htable => ?_, fun g hg _ e => hg.used (e ▸ hfree)⟩
      · rw [← hisFrame, ← entryFrame_page f', Nat.mul_mod_left]
      · rcases (hfirst.space.map_mapsOnly ∅ huser hmap).tables f' htable with
          ⟨q, hq, hreach⟩ | hfree'
        · rw [hmem₁] at hreach
          exact h.space.not_free hq hreach hfree
        · exact hused hfree'
  obtain ⟨k₁, hk₁⟩ : ∃ k₁ : Kernel, k₁ =
      { k with vm := v₂.clearPage f, nullUsed := k.nullUsed || page.isNone } := ⟨_, rfl⟩
  obtain rfl : k₁.fillPage file seg (i * pageSize) f = k' := by
    rw [hk₁]
    exact Option.some_inj.mp hrun
  have hsched₁ : k₁.sched = k.sched := by rw [hk₁]
  obtain ⟨hfill, hpmm, hlent, -, hsched, -⟩ :=
    @Kernel.fillPage_vm k₁ file seg f haligned (i * pageSize)
  have hkept : ∀ g, g ≠ f → (k₁.fillPage file seg (i * pageSize) f).vm.mem g = v₂.mem g := by
    intro g hg
    rw [hfill g hg, hk₁]
    exact Function.update_of_ne hg _ _
  obtain ⟨hspace, hreach, hentries, hroot⟩ := hsecond.space.write_mapsOnly hnot hkept
    (hpmm.trans (by rw [hk₁]; rfl)) (hlent.trans (by rw [hk₁]; rfl))
  have hmaps : MapsOnly pml4 {f | frameOf k.vm.mem k.sched.cr3 0 = some f} k.vm
      (k₁.fillPage file seg (i * pageSize) f).vm := by
    refine ⟨hspace, fun g hg => hsecond.free g ?_, fun g hg hpages => ?_, fun j hj => ?_,
      fun g hg => ?_⟩
    · rw [hpmm, hk₁] at hg
      exact hg
    · exact (hkept g (hkeeps g hg hpages)).trans (hsecond.kept g hg hpages)
    · exact (hroot j).trans (hsecond.upper j hj)
    · obtain ⟨q, hq, hg⟩ := hg
      exact hsecond.tables g ⟨q, hq, hreach q hq ▸ hg⟩
  obtain ⟨hhalves, hupper⟩ := h.mapsOnly hmaps fun g hg => (hnull.page hg).2.2
  refine ⟨hhalves, ?_, hupper, fun x hx => ?_⟩
  · rw [hsched, hsched₁]
    exact (hnull.mapsOnly h hmaps).2
  · obtain ⟨-, -, hother, -⟩ := hfirst.space.vmmMapPage huser hmap
    rw [hentries x, hother x hx, hmem₁]

/-- From the bound on, all pages stay where they are. -/
def SameFrom (bound pml4 : ℕ) (k k' : Kernel) : Prop :=
  ∀ x < 2 ^ 64, Canonical x → bound ≤ x →
    translate k'.vm.mem pml4 (indices x) = translate k.vm.mem pml4 (indices x)

theorem Kernel.loadPages_outside (h : Halves pml4 k.vm) (hnull : NullApart pml4 k.sched.cr3 k.vm)
    (hend : seg.vaddr + seg.memsz ≤ 2 ^ 47) (hbound : seg.vaddr + seg.memsz ≤ bound)
    (haligned : bound % pageSize = 0) (hlast : i + n ≤ seg.pagesNeeded)
    (hrun : k.loadPages file pml4 seg n i = some k') :
    Halves pml4 k'.vm ∧ NullApart pml4 k'.sched.cr3 k'.vm ∧ SameFrom bound pml4 k k' := by
  induction n generalizing i k with
  | zero =>
    obtain rfl := Option.some_inj.mp hrun
    exact ⟨h, hnull, fun _ _ _ _ => rfl⟩
  | succ n ih =>
    obtain ⟨k₁, hfirst, hrest⟩ := Option.bind_eq_some_iff.mp hrun
    have hvirt : seg.vaddr + i * pageSize < 2 ^ 47 := by
      have hneeded := seg.pagesNeeded_eq hend
      rw [pageSize]
      omega
    have hpage := seg.page_le hend (i := i) (by omega) hbound haligned
    rw [wrap_of_lt (hvirt.trans (by decide))] at hpage
    obtain ⟨h₁, hnull₁, hupper, hother⟩ := loadPage_outside h hnull hvirt hfirst
    obtain ⟨h', hnull', hsame⟩ := ih h₁ hnull₁ (by omega) hrest
    refine ⟨h', hnull', fun x hx hcanonical hle => (hsame x hx hcanonical hle).trans ?_⟩
    rcases hcanonical with hlow | hhigh
    · rw [h₁.space.translate_eq (inUserHalf_of_lt hlow),
        h.space.translate_eq (inUserHalf_of_lt hlow), hother x fun hsame => ?_]
      rw [samePage_iff_of_lt (by omega) (by omega)] at hsame
      rw [pageSize] at hsame hpage
      omega
    · exact hupper x (not_inUserHalf hhigh hx)

theorem Kernel.elfLoadSegments_outside (h : Halves pml4 k.vm)
    (hnull : NullApart pml4 k.sched.cr3 k.vm)
    (hend : ∀ seg ∈ phdrs, seg.type = ptLoad → seg.vaddr + seg.memsz ≤ 2 ^ 47)
    (hbound : ∀ seg ∈ phdrs, seg.type = ptLoad → seg.vaddr + seg.memsz ≤ bound)
    (haligned : bound % pageSize = 0)
    (hrun : k.elfLoadSegments file pml4 phdrs maxVaddr = some (result, k')) :
    SameFrom bound pml4 k k' := by
  induction phdrs generalizing k maxVaddr with
  | nil =>
    obtain ⟨-, rfl⟩ := Prod.mk.inj (Option.some_inj.mp hrun)
    exact fun _ _ _ _ => rfl
  | cons seg phdrs ih =>
    rw [List.forall_mem_cons] at hend hbound
    rw [elfLoadSegments] at hrun
    split_ifs at hrun with htype
    · exact ih h hnull hend.2 hbound.2 hrun
    · obtain ⟨k₁, hfirst, hrest⟩ := Option.bind_eq_some_iff.mp hrun
      have htype := not_not.mp htype
      obtain ⟨h₁, hnull₁, hsame₁⟩ := loadPages_outside h hnull (hend.1 htype) (hbound.1 htype)
        haligned (Nat.zero_add _).le hfirst
      have hsame := ih h₁ hnull₁ hend.2 hbound.2 hrest
      exact fun x hx hcanonical hle =>
        (hsame x hx hcanonical hle).trans (hsame₁ x hx hcanonical hle)

/-- The running maximum is above the ends of all segments. -/
theorem Kernel.elfLoadSegments_max
    (hend : ∀ seg ∈ phdrs, seg.type = ptLoad → seg.vaddr + seg.memsz ≤ 2 ^ 47)
    (hmax : maxVaddr ≤ 2 ^ 47)
    (hrun : k.elfLoadSegments file pml4 phdrs maxVaddr = some (result, k')) :
    maxVaddr ≤ result ∧ result ≤ 2 ^ 47 ∧
      ∀ seg ∈ phdrs, seg.type = ptLoad → seg.vaddr + seg.memsz ≤ result := by
  induction phdrs generalizing k maxVaddr with
  | nil =>
    obtain ⟨rfl, -⟩ := Prod.mk.inj (Option.some_inj.mp hrun)
    exact ⟨Nat.le_refl _, hmax, List.forall_mem_nil _⟩
  | cons seg phdrs ih =>
    rw [List.forall_mem_cons] at hend ⊢
    rw [elfLoadSegments] at hrun
    split_ifs at hrun with htype
    · obtain ⟨hle, hresult, hsegs⟩ := ih hend.2 hmax hrun
      exact ⟨hle, hresult, fun h => absurd h htype, hsegs⟩
    · obtain ⟨k₁, -, hrest⟩ := Option.bind_eq_some_iff.mp hrun
      have hseg := hend.1 (not_not.mp htype)
      rw [wrap_of_lt (by omega)] at hrest
      obtain ⟨hle, hresult, hsegs⟩ := ih hend.2 (max_le hmax hseg) hrest
      exact ⟨(le_max_left _ _).trans hle, hresult, fun _ => (le_max_right _ _).trans hle, hsegs⟩

end Segments

section File

variable {p : Platform} {file : FatFile} {pml4 n heapEnd size ptr : ℕ} {k k' : Kernel}

theorem Kernel.growHeap_reads (h : growHeap p n heapEnd k = some k') : k'.reads = k.reads := by
  induction n generalizing heapEnd k with
  | zero => rw [Option.some_inj.mp h]
  | succ n ih =>
    obtain ⟨v₂, -, hrest⟩ := Option.bind_eq_some_iff.mp h
    exact (ih hrest).trans rfl

theorem Kernel.kmalloc_reads (h : k.kmalloc p size = some (ptr, k')) : k'.reads = k.reads := by
  obtain ⟨⟨ptr', heap⟩, -, h⟩ := Option.bind_eq_some_iff.mp h
  obtain ⟨k₁, hgrow, h⟩ := Option.bind_eq_some_iff.mp h
  obtain ⟨-, rfl⟩ := Prod.mk.inj (Option.some_inj.mp h)
  exact (growHeap_reads hgrow :)

/-- The table that is read comes with the first two calls of `f_read`. -/
theorem Kernel.elfReadProgramHeaders_phdrs {header : Ehdr} {phdrs : List Phdr}
    (h : k.elfReadProgramHeaders p file header = some (some (ptr, phdrs), k')) :
    phdrs = phdrTable (file.read k.reads (header.phoff % 2 ^ 32) (header.phnum * phdrSize)).2
      header.phnum := by
  obtain ⟨⟨ptr', k₁⟩, hmalloc, h⟩ := Option.bind_eq_some_iff.mp h
  dsimp only at h
  rw [kmalloc_reads hmalloc] at h
  split_ifs at h with hptr hread
  · cases (Prod.mk.inj (Option.some_inj.mp h)).1
  · obtain ⟨k₂, -, h⟩ := Option.bind_eq_some_iff.mp h
    cases (Prod.mk.inj (Option.some_inj.mp h)).1
  · obtain ⟨hfound, -⟩ := Prod.mk.inj (Option.some_inj.mp h)
    exact (Prod.mk.inj (Option.some_inj.mp hfound)).2.symm

theorem Kernel.elfReadHeader_parse {header : Ehdr} (h : elfReadHeader file k = (some header, k')) :
    header = .parse (file.read k.reads 0 ehdrSize).2 ∧ k' = { k with reads := k.reads + 1 } := by
  unfold elfReadHeader at h
  dsimp only at h
  split_ifs at h with hok
  · obtain ⟨hheader, rfl⟩ := Prod.mk.inj h
    exact ⟨(Option.some_inj.mp hheader).symm, rfl⟩
  · cases (Prod.mk.inj h).1

/-- In a kernel where each table has its place, the tables that the loader works with are apart. -/
theorem Kernel.beforeSegments_apart {fb roots : Set ℕ} {place : Places} {k₁ : Kernel}
    (hF : Forest p.kernelPml4 fb k.vm roots place) (hpml4 : pml4 ∈ roots)
    (hcaller : k.sched.cr3 = p.kernelPml4 ∨ k.sched.cr3 ∈ roots) (hne : k.sched.cr3 ≠ pml4)
    (hnull : k.sched.cr3 = p.kernelPml4 → ¬ IsPresent (k.vm.mem p.kernelPml4 (pml4Index 0)))
    (hroom : RoomToGrow k.heap ((Ehdr.parse (file.read k.reads 0 ehdrSize).2).phnum * phdrSize))
    (hrun : k.beforeSegments p file = some k₁) :
    Halves pml4 k₁.vm ∧ NullApart pml4 k₁.sched.cr3 k₁.vm := by
  rw [beforeSegments] at hrun
  split_ifs at hrun
  cases hheader : elfReadHeader file k with
  | mk found k₀ =>
    rw [hheader] at hrun
    cases found with
    | none => cases hrun
    | some header =>
      obtain ⟨rfl, rfl⟩ := elfReadHeader_parse hheader
      obtain ⟨⟨found, k₂⟩, htable, hrun⟩ := Option.bind_eq_some_iff.mp hrun
      obtain ⟨-, -, rfl⟩ := Option.map_eq_some_iff.mp hrun
      -- the heap may have grown for the program headers
      obtain ⟨k₃, hgrows, hvm, hsched⟩ : ∃ k₃, GrowsHeap p.kernelPml4 fb roots place k k₃ ∧
          k₂.vm = k₃.vm ∧ k₂.sched = k₃.sched := by
        obtain ⟨⟨ptr, k₃⟩, hmalloc, htable⟩ := Option.bind_eq_some_iff.mp htable
        have hgrows := kmalloc_forest (k := { k with reads := k.reads + 1 }) hF hroom hmalloc
        refine ⟨{ k₃ with reads := k.reads }, ⟨hgrows.forest, hgrows.view, hgrows.lower,
          hgrows.sched_eq, rfl⟩, ?_⟩
        dsimp only at htable
        split_ifs at htable
        · rw [← (Prod.mk.inj (Option.some_inj.mp htable)).2]
          exact ⟨rfl, rfl⟩
        · obtain ⟨k₄, hfree, htable⟩ := Option.bind_eq_some_iff.mp htable
          obtain ⟨heap, -, hfree⟩ := Option.bind_eq_some_iff.mp hfree
          rw [← (Prod.mk.inj (Option.some_inj.mp htable)).2, ← Option.some_inj.mp hfree]
          exact ⟨rfl, rfl⟩
        · rw [← (Prod.mk.inj (Option.some_inj.mp htable)).2]
          exact ⟨rfl, rfl⟩
      obtain ⟨place', hF', -⟩ := hgrows.forest
      rw [hvm, hsched, hgrows.sched_eq]
      refine ⟨hF'.halves hpml4, ?_⟩
      by_cases hkernel : k.sched.cr3 = p.kernelPml4
      · rw [hkernel]
        refine hF'.nullApart_kernel hpml4 ?_
        rw [hgrows.lower _ (by decide)]
        exact hnull hkernel
      · exact hF'.nullApart hpml4 (hcaller.resolve_left hkernel) hne

/-- The break of a program that was loaded starts a page and is above every segment, and
`elf_load_segments` has mapped no page at or above it: those are where they were before, or are
still not there. The first page that `sys_sbrk` adds, and the first region of `sys_share_mem`,
start at the break. -/
theorem Kernel.loadElfFile_break {result : ElfLoadResult}
    (hend : ∀ seg ∈ k.phdrsRead file, seg.type = ptLoad → seg.vaddr + seg.memsz ≤ 2 ^ 47)
    (hrun : k.loadElfFile p file pml4 = some (some result, k')) :
    result.programBreak % pageSize = 0 ∧
      (∀ seg ∈ k.phdrsRead file, seg.type = ptLoad →
        seg.vaddr + seg.memsz ≤ result.programBreak) ∧
      alignUp result.programBreak pageSize = result.programBreak ∧
      ∃ (k₁ k₂ : Kernel) (maxVaddr : ℕ), k.beforeSegments p file = some k₁ ∧
        k₁.elfLoadSegments file pml4 (k.phdrsRead file) 0 = some (maxVaddr, k₂) ∧
        k'.vm = k₂.vm ∧ (Halves pml4 k₁.vm → NullApart pml4 k₁.sched.cr3 k₁.vm →
          SameFrom result.programBreak pml4 k₁ k') := by
  rw [loadElfFile] at hrun
  split_ifs at hrun with hopens
  · cases hheader : elfReadHeader file k with
    | mk found k₁ =>
      rw [hheader] at hrun
      cases found with
      | none => cases (Prod.mk.inj (Option.some_inj.mp hrun)).1
      | some header =>
        obtain ⟨rfl, rfl⟩ := elfReadHeader_parse hheader
        obtain ⟨⟨found, k₂⟩, htable, hrun⟩ := Option.bind_eq_some_iff.mp hrun
        cases found with
        | none => cases (Prod.mk.inj (Option.some_inj.mp hrun)).1
        | some found =>
          obtain ⟨ptr, phdrs⟩ := found
          obtain ⟨⟨maxVaddr, k₃⟩, hsegments, hrun⟩ := Option.bind_eq_some_iff.mp hrun
          obtain ⟨k₄, hfree, hrun⟩ := Option.bind_eq_some_iff.mp hrun
          obtain ⟨hresult, rfl⟩ := Prod.mk.inj (Option.some_inj.mp hrun)
          obtain ⟨heap, -, hfree⟩ := Option.bind_eq_some_iff.mp hfree
          obtain rfl := Option.some_inj.mp hfree
          have hphdrs : phdrs = k.phdrsRead file := elfReadProgramHeaders_phdrs htable
          subst hphdrs
          have hbefore : k.beforeSegments p file = some k₂ := by
            rw [beforeSegments, if_pos hopens, hheader]
            exact Option.bind_eq_some_iff.mpr ⟨_, htable, rfl⟩
          obtain ⟨-, hmax, hsegs⟩ := elfLoadSegments_max hend (Nat.zero_le _) hsegments
          have hbreak : result.programBreak = (maxVaddr + 4095) / 4096 * 4096 := by
            rw [← Option.some_inj.mp hresult]
            exact (alignUp_page maxVaddr).trans (by rw [wrap_of_lt (by omega)])
          have haligned : result.programBreak % pageSize = 0 := by
            rw [hbreak]
            exact Nat.mul_mod_left _ _
          have hle : maxVaddr ≤ result.programBreak := by omega
          have habove : ∀ seg ∈ k.phdrsRead file, seg.type = ptLoad →
              seg.vaddr + seg.memsz ≤ result.programBreak := fun seg hseg htype =>
            (hsegs seg hseg htype).trans hle
          refine ⟨haligned, habove, ?_, k₂, k₃, maxVaddr, hbefore, hsegments, rfl,
            fun hhalves hnull => ?_⟩
          · rw [alignUp_page, wrap_of_lt (by omega)]
            omega
          · have hsame := elfLoadSegments_outside hhalves hnull hend habove haligned hsegments
            exact fun x hx hcanonical hle => hsame x hx hcanonical hle
  · cases (Prod.mk.inj (Option.some_inj.mp hrun)).1

/-- A segment that does not start at a page: the page where it starts is the only one. -/
theorem Kernel.loadElfFile_break_sampleElf : ∃ result k',
    sampleLoader.loadElfFile sampleBios (.ofContents (sampleElf 0x400800)) 0x2000 =
        some (some result, k') ∧
      sampleLoader.phdrsRead (.ofContents (sampleElf 0x400800)) = [⟨ptLoad, 120, 0x400800, 4, 8⟩] ∧
      result.programBreak % pageSize = 0 ∧ 0x400808 ≤ result.programBreak ∧
      ∃ k₁, sampleLoader.beforeSegments sampleBios (.ofContents (sampleElf 0x400800)) = some k₁ ∧
        SameFrom result.programBreak 0x2000 k₁ k' := by
  have hphdrs : sampleLoader.phdrsRead (.ofContents (sampleElf 0x400800)) =
      [⟨ptLoad, 120, 0x400800, 4, 8⟩] := by decide +kernel
  have hruns : ((sampleLoader.loadElfFile sampleBios (.ofContents (sampleElf 0x400800))
      0x2000).bind Prod.fst).isSome := by decide +kernel
  obtain ⟨result, hresult⟩ := Option.isSome_iff_exists.mp hruns
  obtain ⟨⟨found, k'⟩, hrun, rfl⟩ := Option.bind_eq_some_iff.mp hresult
  obtain ⟨haligned, habove, -, k₁, -, -, hbefore, -, -, hsame⟩ :=
    loadElfFile_break (by rw [hphdrs]; decide) hrun
  rw [hphdrs] at habove
  obtain ⟨hhalves, hnull⟩ := beforeSegments_apart (p := sampleBios) (k := sampleLoader)
    sampleVm_forest rfl (Or.inl rfl) (by decide) (fun _ => by decide)
    (HeapRoom.toGrow (by decide +kernel)) hbefore
  exact ⟨result, k', hrun, hphdrs, haligned, habove _ List.mem_cons_self rfl, k₁, hbefore,
    hsame hhalves hnull⟩

end File

end OpenIDP.Exec
