import OpenIDP.Exec.HeapGrowth

/-!
# The image of a program

A program file that is loaded is in memory as its program headers say: the bytes of the file, and
zeros behind them. The loader counts the pages of a segment from the start of the segment, maps
them over those of earlier segments, and does not look at the results of its reads. So this holds
when segments that have bytes in the file start at pages that no later segment takes, and all reads
are complete.

## Main definitions

* `FatFile.Holds` — the FatFs functions hand out the bytes of a file
* `ElfFile` — the segments lie in the user half, apart from each other
* `Phdr.Pages` — the pages that the loader maps for a segment
* `Loadable` — the condition on the file, the reads, and the state before

## Main results

* `Kernel.loadPage_image`, `Kernel.loadPages_image` — one page, and the pages of a segment
* `Kernel.elfLoadSegments_image` — a page has what the last segment puts there
* `Kernel.loadElfFile_image` — the image of the file
-/

namespace OpenIDP.Exec

open OpenIDP.Math OpenIDP.Memory OpenIDP.Process

/-! ## Files and their segments -/

/-- A read stores bytes of the file, from its position on. Positions have 32 bits. -/
structure FatFile.Holds (file : FatFile) (contents : List (BitVec 8)) : Prop where
  length_lt : contents.length < 2 ^ 32
  read_eq : ∀ n pos len i, i < (file.read n pos len).2.length →
    (file.read n pos len).2[i]? = contents[pos + i]?

/-- The header of a file. -/
def elfHeader (contents : List (BitVec 8)) : Ehdr := .parse (contents.take ehdrSize)

/-- The program headers of a file. -/
def elfPhdrs (contents : List (BitVec 8)) : List Phdr :=
  let header := elfHeader contents
  phdrTable ((contents.drop header.phoff).take (header.phnum * phdrSize)) header.phnum

/-- The segment occupies the address. -/
def Phdr.Covers (seg : Phdr) (x : ℕ) : Prop := seg.vaddr ≤ x ∧ x < seg.vaddr + seg.memsz

/-- The program headers are in the file. The segments that are loaded lie in the user half, apart
from each other, and are not shorter than what the file has of them. -/
structure ElfFile (contents : List (BitVec 8)) : Prop where
  table_le : (elfHeader contents).phoff + (elfHeader contents).phnum * phdrSize ≤ contents.length
  filesz_le : ∀ seg ∈ elfPhdrs contents, seg.type = ptLoad → seg.filesz ≤ seg.memsz
  end_le : ∀ seg ∈ elfPhdrs contents, seg.type = ptLoad → seg.vaddr + seg.memsz ≤ 2 ^ 47
  apart : (elfPhdrs contents).Pairwise fun seg seg' =>
    seg.type = ptLoad → seg'.type = ptLoad → ∀ x, ¬ (seg.Covers x ∧ seg'.Covers x)

/-- The byte of a segment that belongs at an offset. -/
def Phdr.imageByte (seg : Phdr) (contents : List (BitVec 8)) (offset : ℕ) : Option ℕ :=
  if offset < seg.filesz then contents[seg.offset + offset]?.map BitVec.toNat else some 0

/-- The bytes of a page that the file has. -/
def Phdr.copied (seg : Phdr) (offset : ℕ) : ℕ := min (seg.filesz - offset) pageSize

/-- The number of pages for which the file has bytes. -/
def Phdr.filePages (seg : Phdr) : ℕ := (seg.filesz + 4095) / 4096

/-- The reads that fill the pages, the first of them the `n`-th of all, are complete. -/
def ReadsComplete (file : FatFile) : ℕ → List Phdr → Prop
  | _, [] => True
  | n, seg :: phdrs =>
    if seg.type = ptLoad then
      (∀ i < seg.filePages, (file.read (n + i) (seg.offset + i * pageSize)
        (seg.copied (i * pageSize))).2.length = seg.copied (i * pageSize)) ∧
      ReadsComplete file (n + seg.filePages) phdrs
    else
      ReadsComplete file n phdrs

/-- A `NULL` that is used raises a page fault. In the kernel's own address space there is no
table for its page. -/
def NullFaults (p : Platform) (k : Kernel) : Prop :=
  if k.sched.cr3 = p.kernelPml4 then ¬ IsPresent (k.vm.mem p.kernelPml4 (pml4Index 0))
  else frameOf k.vm.mem k.sched.cr3 0 = none

/-- The address lies in the page that is mapped as number `j` of the segment. -/
def Phdr.Pages (seg : Phdr) (x j : ℕ) : Prop :=
  j < seg.pagesNeeded ∧ SamePage x (seg.vaddr + j * pageSize)

/-- All calls of `pmm_alloc_page` succeed while `n` pages of a segment are loaded. -/
def Kernel.PagesGiven (file : FatFile) (pml4 : ℕ) (seg : Phdr) : ℕ → ℕ → Kernel → Prop
  | 0, _, _ => True
  | n + 1, i, k => k.vm.allocFrame.1 ≠ none ∧
      ∀ k', k.loadPage file pml4 seg i = some k' → PagesGiven file pml4 seg n (i + 1) k'

/-- All calls of `pmm_alloc_page` succeed while segments are loaded. -/
def Kernel.SegmentsGiven (file : FatFile) (pml4 : ℕ) : List Phdr → Kernel → Prop
  | [], _ => True
  | seg :: phdrs, k =>
    if seg.type = ptLoad then
      k.PagesGiven file pml4 seg seg.pagesNeeded 0 ∧
        ∀ k', k.loadPages file pml4 seg seg.pagesNeeded 0 = some k' →
          SegmentsGiven file pml4 phdrs k'
    else
      SegmentsGiven file pml4 phdrs k

/-- The state in which `load_elf_file` calls `elf_load_segments`. -/
def Kernel.beforeSegments (p : Platform) (file : FatFile) (k : Kernel) : Option Kernel :=
  if file.opens then
    match elfReadHeader file k with
    | (none, _) => none
    | (some header, k₁) => do
      let (found, k₂) ← elfReadProgramHeaders p file header k₁
      found.map fun _ => k₂
  else
    none

/-- A `NULL` is never used while the segments of a file are loaded: it would raise a page fault, or
all pages are handed out. -/
def NullUnused (p : Platform) (file : FatFile) (pml4 : ℕ) (phdrs : List Phdr) (k : Kernel) : Prop :=
  NullFaults p k ∨ ∀ k₁, k.beforeSegments p file = some k₁ → k₁.SegmentsGiven file pml4 phdrs

/-- The condition on the file, on what FatFs answers, and on the state before. -/
structure Loadable (p : Platform) (file : FatFile) (contents : List (BitVec 8)) (pml4 : ℕ)
    (k : Kernel) : Prop where
  aligned : ∀ seg ∈ elfPhdrs contents, seg.type = ptLoad → seg.filesz ≠ 0 →
    seg.vaddr % pageSize = 0
  kept : (elfPhdrs contents).Pairwise fun seg seg' => seg.type = ptLoad → seg'.type = ptLoad →
    ∀ o < seg.filesz, ∀ j, ¬ seg'.Pages (seg.vaddr + o) j
  mapped : ∀ seg ∈ elfPhdrs contents, seg.type = ptLoad → ∀ x, seg.Covers x →
    ∃ seg' ∈ elfPhdrs contents, seg'.type = ptLoad ∧ ∃ j, seg'.Pages x j
  inside : ∀ seg ∈ elfPhdrs contents, seg.type = ptLoad → seg.filesz ≠ 0 →
    seg.offset + seg.filesz ≤ contents.length
  complete : ReadsComplete file (k.reads + 2) (elfPhdrs contents)
  room : RoomToGrow k.heap ((elfHeader contents).phnum * phdrSize)
  null : NullUnused p file pml4 (elfPhdrs contents) k

/-! ## Loading -/

/-- While a file is loaded into `pml4`, some other task, or the kernel, is running. -/
structure Loading (p : Platform) (roots : Set ℕ) (pml4 : ℕ) (k : Kernel) : Prop where
  spaces : Spaces roots k.vm
  kernel : PlainFrame roots k.vm p.kernelPml4
  pml4_mem : pml4 ∈ roots
  caller : k.sched.cr3 = p.kernelPml4 ∨ k.sched.cr3 ∈ roots
  caller_ne : k.sched.cr3 ≠ pml4

section Pages

variable {p : Platform} {roots : Set ℕ} {pml4 : ℕ} {k k' : Kernel} {file : FatFile}
variable {contents : List (BitVec 8)} {seg : Phdr} {i n x : ℕ}

theorem NullFaults.nullPage (h : NullFaults p k) : k.nullPage = none := by
  rw [NullFaults] at h
  split_ifs at h with hcr3
  · rw [Kernel.nullPage, frameOf, indices, Memory.translate, hcr3, if_neg h]
    rfl
  · exact h

/-- The handler does not return from the use of a `NULL` as long as the page stays unmapped. -/
theorem Loading.nullFaults (h : Loading p roots pml4 k) (hnull : NullFaults p k)
    (hsched : k'.sched = k.sched) (hkernel : k'.vm.mem p.kernelPml4 = k.vm.mem p.kernelPml4)
    (hframe : ∀ s ∈ roots, s ≠ pml4 → frameOf k'.vm.mem s 0 = frameOf k.vm.mem s 0) :
    NullFaults p k' := by
  rw [NullFaults] at hnull ⊢
  rw [hsched, hkernel]
  split_ifs at hnull ⊢ with hcr3
  · exact hnull
  · rwa [hframe _ (h.caller.resolve_left hcr3) h.caller_ne]

/-- The byte that loading the page with index `i` puts at an offset into it. -/
def pageByte (file : FatFile) (k : Kernel) (seg : Phdr) (i offset : ℕ) : ℕ :=
  let copied := seg.copied (i * pageSize)
  let data := (file.read k.reads (wrap (seg.offset + i * pageSize) % 2 ^ 32) copied).2
  if i * pageSize < seg.filesz then
    ((data.take copied)[offset]?.map BitVec.toNat).getD 0
  else
    0

/-- Filling a page changes its frame only. -/
theorem Kernel.fillPage_vm {f : ℕ} (hf : f % pageSize = 0) (offset : ℕ) :
    (∀ g, g ≠ f → (k.fillPage file seg offset f).vm.mem g = k.vm.mem g) ∧
      (k.fillPage file seg offset f).vm.pmm = k.vm.pmm ∧
      (k.fillPage file seg offset f).vm.lent = k.vm.lent ∧
      (k.fillPage file seg offset f).vm.freed = k.vm.freed ∧
      (k.fillPage file seg offset f).sched = k.sched ∧
      (k.fillPage file seg offset f).heap = k.heap := by
  unfold Kernel.fillPage
  split_ifs with hfile
  · dsimp only
    obtain ⟨data, hdata⟩ : ∃ data, data =
        (file.read k.reads (wrap (seg.offset + offset) % 2 ^ 32)
          (min (seg.filesz - offset) pageSize)).2.take (min (seg.filesz - offset) pageSize) :=
      ⟨_, rfl⟩
    have hlength : 0 + data.length ≤ pageSize := by
      rw [hdata, List.length_take]
      omega
    rw [← hdata]
    obtain ⟨hpmm, hlent, hfreed⟩ := k.vm.writeBytes_books f data
    exact ⟨fun g hg => Vm.writeBytes_mem_of_ne hf hlength hg, hpmm, hlent, hfreed, rfl, rfl⟩
  · exact ⟨fun _ _ => rfl, rfl, rfl, rfl, rfl, rfl⟩

/-- Loading a page maps a fresh frame, and fills it. -/
theorem Kernel.loadPage_mapped (h : Loading p roots pml4 k)
    (hnull : NullFaults p k ∨ k.vm.allocFrame.1 ≠ none)
    (hvirt : seg.vaddr + i * pageSize < 2 ^ 47) (hrun : k.loadPage file pml4 seg i = some k') :
    ∃ f v₁ v₂, k.vm.allocFrame = (some f, v₁) ∧ f % pageSize = 0 ∧
      v₁.vmmMapPage pml4 (seg.vaddr + i * pageSize) f 7 = some v₂ ∧
      k' = Kernel.fillPage file seg (i * pageSize) f
        { k with vm := v₂.clearPage f, nullUsed := k.nullUsed || false } := by
  obtain ⟨⟨page, v₁⟩, halloc⟩ : ∃ x, x = k.vm.allocFrame := ⟨_, rfl⟩
  rw [← halloc] at hnull
  rw [Kernel.loadPage, ← halloc] at hrun
  obtain ⟨v₂, hmap, hrun⟩ := Option.bind_eq_some_iff.mp hrun
  obtain ⟨frame, hframe, hrun⟩ := Option.bind_eq_some_iff.mp hrun
  rw [wrap_of_lt (hvirt.trans (by decide))] at hmap
  cases page with
  | none =>
    -- the page fault handler does not return
    obtain ⟨hsound, hmem₁, -, -, hfree⟩ := h.spaces.sound.allocFrame_none halloc.symm
    obtain ⟨h₁, -, -⟩ := h.spaces.congr hsound (fun g hg => (hfree g).mp hg)
      fun s _ g _ => by rw [hmem₁]
    have hkernel₁ : PlainFrame roots v₁ p.kernelPml4 :=
      ⟨fun hg => h.kernel.used ((hfree _).mp hg), by rw [hmem₁]; exact h.kernel.plain⟩
    obtain ⟨hother, hplain⟩ := h₁.vmmMapPage_other h.pml4_mem (inUserHalf_of_lt hvirt) hmap
    have hnull : NullFaults p { k with vm := v₂, nullUsed := k.nullUsed || true } := by
      refine h.nullFaults (hnull.resolve_right fun hne => hne rfl) rfl ?_ fun s hs hne => ?_
      · exact (hplain _ hkernel₁).trans (by rw [hmem₁])
      · exact (hother s hs hne 0 (by decide)).trans (by rw [hmem₁])
    exact absurd (hnull.nullPage.symm.trans hframe) (Option.some_ne_none frame).symm
  | some f =>
    obtain rfl : f = frame := Option.some_inj.mp hframe
    refine ⟨f, v₁, v₂, halloc.symm, ?_, hmap, (Option.some_inj.mp hrun).symm⟩
    obtain ⟨hlends, -⟩ := h.spaces.sound.lends_alloc halloc.symm
    have hlent : f ∈ v₁.lent := by
      rw [hlends.lent_eq]
      exact Or.inr (List.mem_singleton.mpr rfl)
    have hframe : entryFrame f = f := hlends.sound.isFrame hlent
    rw [← hframe, ← entryFrame_page f, Nat.mul_mod_left]

/-- One page is loaded, and no other page changes. -/
theorem Kernel.loadPage_image (h : Loading p roots pml4 k)
    (hnull : NullFaults p k ∨ k.vm.allocFrame.1 ≠ none)
    (hvirt : seg.vaddr + i * pageSize < 2 ^ 47) (hrun : k.loadPage file pml4 seg i = some k') :
    Loading p roots pml4 k' ∧ (NullFaults p k → NullFaults p k') ∧
      k'.reads = k.reads + (if i * pageSize < seg.filesz then 1 else 0) ∧
      (∀ x < 2 ^ 47, ¬ SamePage x (seg.vaddr + i * pageSize) →
        readByte k'.vm.mem pml4 x = readByte k.vm.mem pml4 x) ∧
      ∀ x < 2 ^ 47, SamePage x (seg.vaddr + i * pageSize) →
        readByte k'.vm.mem pml4 x = some (pageByte file k seg i (x % pageSize)) := by
  obtain ⟨f, v₁, v₂, halloc, haligned, hmap, hk'⟩ := Kernel.loadPage_mapped h hnull hvirt hrun
  obtain ⟨k₁, hk₁⟩ : ∃ k₁ : Kernel, k₁ =
      { k with vm := v₂.clearPage f, nullUsed := k.nullUsed || false } := ⟨_, rfl⟩
  rw [← hk₁] at hk'
  subst hk'
  obtain ⟨hkept, hpmm, hlent, -, hsched, -⟩ :=
    @Kernel.fillPage_vm k₁ file seg f haligned (i * pageSize)
  have hcleared : ∀ g, g ≠ f → k₁.vm.mem g = v₂.mem g := fun g hg => by
    rw [hk₁]
    exact Function.update_of_ne hg _ _
  obtain ⟨hspaces, hother, hpage, hplain⟩ := h.spaces.mapFilled h.pml4_mem hvirt halloc hmap
    (fun g hg => (hkept g hg).trans (hcleared g hg)) (by rw [hpmm, hk₁]; rfl)
    (by rw [hlent, hk₁]; rfl)
  obtain ⟨hkernel, hsame⟩ := hplain _ h.kernel
  have hsched₁ : k₁.sched = k.sched := by rw [hk₁]
  refine ⟨⟨hspaces, hkernel, h.pml4_mem, ?_, ?_⟩, fun hnull => ?_, ?_, fun x hx hne => ?_,
    fun x hx hin => ?_⟩
  · rw [hsched, hsched₁]
    exact h.caller
  · rw [hsched, hsched₁]
    exact h.caller_ne
  · refine h.nullFaults hnull (hsched.trans hsched₁) hsame fun s hs hne => ?_
    exact (hother s hs 0 (by decide) fun e => absurd e hne).1
  · have hreads : k₁.reads = k.reads := by rw [hk₁]
    rw [Kernel.fillPage, ← hreads]
    split_ifs <;> rfl
  · exact (hother pml4 h.pml4_mem x hx fun _ => hne).2
  · rw [hpage x hx hin, pageByte]
    congr 1
    have hoffset : x % pageSize < pageSize := Nat.mod_lt _ (by decide)
    -- The frame was cleared, so what the file does not reach is zero.
    have hzero : ∀ o, frameByte k₁.vm.mem f o = 0 := fun o => by
      rw [frameByte, hk₁]
      change byteOf ((v₂.clearPage f).mem f (wordIndex o)) (o % 8) = 0
      rw [Vm.mem_clearPage, if_pos rfl]
      exact byteOf_zero _
    have hreads : k₁.reads = k.reads := by rw [hk₁]
    rw [Kernel.fillPage]
    split_ifs with hfile
    · obtain ⟨data, hdata⟩ : ∃ data, data =
          (file.read k₁.reads (wrap (seg.offset + i * pageSize) % 2 ^ 32)
            (seg.copied (i * pageSize))).2.take (seg.copied (i * pageSize)) := ⟨_, rfl⟩
      have hlength : 0 + data.length ≤ pageSize := by
        rw [hdata, List.length_take, Phdr.copied]
        omega
      have hfilled := Vm.frameByte_writeBytes (v := k₁.vm) haligned hlength hoffset
      rw [if_pos (Nat.zero_le _), hzero, Nat.sub_zero, hdata, hreads] at hfilled
      rw [hreads]
      exact hfilled
    · exact hzero _

/-- After a complete read a page has the bytes that belong there. -/
theorem pageByte_eq (hfile : file.Holds contents)
    (hinside : seg.filesz ≠ 0 → seg.offset + seg.filesz ≤ contents.length)
    (hcomplete : i * pageSize < seg.filesz → (file.read k.reads (seg.offset + i * pageSize)
      (seg.copied (i * pageSize))).2.length = seg.copied (i * pageSize)) {o : ℕ}
    (ho : o < pageSize) :
    some (pageByte file k seg i o) = seg.imageByte contents (i * pageSize + o) := by
  have hlength := hfile.length_lt
  rw [pageByte, Phdr.imageByte]
  split_ifs with hpage hbyte hbyte
  · -- the file has the byte
    have hcopied : o < seg.copied (i * pageSize) := by
      rw [Phdr.copied]
      omega
    have hfilesz := hinside (Nat.ne_of_gt (Nat.zero_lt_of_lt hpage))
    have hin : seg.offset + (i * pageSize + o) < contents.length := by omega
    have hread := hfile.read_eq k.reads (seg.offset + i * pageSize) (seg.copied (i * pageSize)) o
      (hcopied.trans_le (hcomplete hpage).ge)
    have hpos : wrap (seg.offset + i * pageSize) % 2 ^ 32 = seg.offset + i * pageSize := by
      rw [wrap_of_lt (by omega)]
      exact Nat.mod_eq_of_lt (by omega)
    rw [hpos, List.getElem?_take_of_lt hcopied, hread, Nat.add_assoc,
      List.getElem?_eq_getElem hin]
    rfl
  · -- the page goes on behind the end of the file's part
    have hcopied : ¬ o < seg.copied (i * pageSize) := by
      rw [Phdr.copied]
      omega
    rw [List.getElem?_take, if_neg hcopied]
    rfl
  · exact absurd (Nat.lt_of_le_of_lt (Nat.le_add_right _ o) hbyte) hpage
  · rfl

/-- Pages in a row are loaded, and no other page changes. -/
theorem Kernel.loadPages_image {start : ℕ} (h : Loading p roots pml4 k)
    (hnull : NullFaults p k ∨ k.PagesGiven file pml4 seg n i) (hfile : file.Holds contents)
    (hinside : seg.filesz ≠ 0 → seg.offset + seg.filesz ≤ contents.length)
    (hend : ∀ j < i + n, seg.vaddr + j * pageSize < 2 ^ 47)
    (hcomplete : ∀ j < seg.filePages, (file.read (start + j) (seg.offset + j * pageSize)
      (seg.copied (j * pageSize))).2.length = seg.copied (j * pageSize))
    (hreads : k.reads = start + min i seg.filePages)
    (hrun : k.loadPages file pml4 seg n i = some k') :
    Loading p roots pml4 k' ∧ (NullFaults p k → NullFaults p k') ∧
      k'.reads = start + min (i + n) seg.filePages ∧
      (∀ x < 2 ^ 47, (∀ j, i ≤ j → j < i + n → ¬ SamePage x (seg.vaddr + j * pageSize)) →
        readByte k'.vm.mem pml4 x = readByte k.vm.mem pml4 x) ∧
      ∀ x < 2 ^ 47, ∀ j, i ≤ j → j < i + n → SamePage x (seg.vaddr + j * pageSize) →
        readByte k'.vm.mem pml4 x = seg.imageByte contents (j * pageSize + x % pageSize) := by
  have hpages : ∀ j, j < seg.filePages ↔ j * pageSize < seg.filesz := by
    intro j
    rw [Phdr.filePages, pageSize]
    omega
  -- Induction on the pages that are left; a page reads the file while file bytes remain.
  induction n generalizing i k with
  | zero =>
    obtain rfl := Option.some_inj.mp hrun
    exact ⟨h, id, hreads, fun _ _ _ => rfl,
      fun x _ j hle hlt => absurd hlt (Nat.not_lt.mpr hle)⟩
  | succ n ih =>
    obtain ⟨k₁, hfirst, hrest⟩ := Option.bind_eq_some_iff.mp hrun
    have hnum : i + 1 + n = i + (n + 1) := by ring
    have hvirt : seg.vaddr + i * pageSize < 2 ^ 47 := hend i (by omega)
    obtain ⟨h₁, hfaults, hreads₁, hother, hhere⟩ :=
      Kernel.loadPage_image h (hnull.imp_right And.left) hvirt hfirst
    have hreads' : k₁.reads = start + min (i + 1) seg.filePages := by
      rw [hreads₁, hreads]
      split_ifs with hlt
      · have hi := (hpages i).mpr hlt
        omega
      · have hi := mt (hpages i).mp hlt
        omega
    have hnull₁ : NullFaults p k₁ ∨ k₁.PagesGiven file pml4 seg n (i + 1) :=
      hnull.imp hfaults fun hgiven => hgiven.2 k₁ hfirst
    obtain ⟨h', hfaults', hreads'', hother', hhere'⟩ :=
      ih h₁ hnull₁ (by rwa [hnum]) hreads' hrest
    rw [hnum] at hreads'' hother' hhere'
    refine ⟨h', fun hnull => hfaults' (hfaults hnull), hreads'', fun x hx hout => ?_,
      fun x hx j hle hlt hin => ?_⟩
    · rw [hother' x hx fun j hle hlt => hout j (by omega) hlt,
        hother x hx (hout i (Nat.le_refl i) (by omega))]
    -- The address is in a later page, or in this one, which the later ones leave.
    · by_cases hnext : i + 1 ≤ j
      · exact hhere' x hx j hnext hlt hin
      · obtain rfl : j = i := by omega
        have hoffset : x % pageSize < pageSize := Nat.mod_lt _ (by decide)
        have hlater : ∀ j', j + 1 ≤ j' → j' < j + (n + 1) →
            ¬ SamePage x (seg.vaddr + j' * pageSize) := fun j' hle' hlt' hin' => by
          have hvirt' := hend j' hlt'
          rw [samePage_iff_of_lt (by omega) (by omega), pageSize] at hin hin'
          omega
        rw [hother' x hx hlater, hhere x hx hin]
        refine pageByte_eq hfile hinside (fun hlt => ?_) hoffset
        have hj := (hpages j).mpr hlt
        rw [hreads, Nat.min_eq_left hj.le]
        exact hcomplete j hj

/-! ## Segments -/

theorem Phdr.pagesNeeded_eq (hend : seg.vaddr + seg.memsz ≤ 2 ^ 47) :
    seg.pagesNeeded = (seg.memsz + 4095) / 4096 := by
  rw [Phdr.pagesNeeded, wrap_of_lt (by omega)]
  rfl

/-- The pages of a segment start before its end. -/
theorem Phdr.page_lt (hend : seg.vaddr + seg.memsz ≤ 2 ^ 47) (hi : i < seg.pagesNeeded) :
    seg.vaddr + i * pageSize < 2 ^ 47 := by
  rw [Phdr.pagesNeeded_eq hend] at hi
  rw [pageSize]
  omega

/-- Of a segment that starts at a page, every byte is in the page where it belongs. -/
theorem Phdr.pages_of_aligned {o : ℕ} (haligned : seg.vaddr % pageSize = 0)
    (hend : seg.vaddr + seg.memsz ≤ 2 ^ 47) (ho : o < seg.memsz) :
    seg.Pages (seg.vaddr + o) (o / pageSize) ∧
      o / pageSize * pageSize + (seg.vaddr + o) % pageSize = o := by
  rw [pageSize] at haligned
  rw [Phdr.Pages, Phdr.pagesNeeded_eq hend, samePage_iff_of_lt (by omega)
    (by rw [pageSize]; omega), pageSize]
  omega

/-- Where a segment that starts at a page puts a byte, it puts the one that belongs there. -/
theorem Phdr.Pages.offset_eq {j : ℕ} (h : seg.Pages x j) (haligned : seg.vaddr % pageSize = 0)
    (hend : seg.vaddr + seg.memsz ≤ 2 ^ 47) (hx : x < 2 ^ 47) :
    seg.vaddr + (j * pageSize + x % pageSize) = x := by
  obtain ⟨hj, hin⟩ := h
  have hvirt := seg.page_lt hend hj
  rw [samePage_iff_of_lt (by omega) (by omega)] at hin
  rw [pageSize] at *
  omega

/-- The segments are loaded: a page has what the last segment puts there that has it, and the
others do not change. -/
theorem Kernel.elfLoadSegments_image {phdrs : List Phdr} {maxVaddr result : ℕ}
    (h : Loading p roots pml4 k) (hnull : NullFaults p k ∨ k.SegmentsGiven file pml4 phdrs)
    (hfile : file.Holds contents)
    (hinside : ∀ seg ∈ phdrs, seg.type = ptLoad → seg.filesz ≠ 0 →
      seg.offset + seg.filesz ≤ contents.length)
    (hfilesz : ∀ seg ∈ phdrs, seg.type = ptLoad → seg.filesz ≤ seg.memsz)
    (hend : ∀ seg ∈ phdrs, seg.type = ptLoad → seg.vaddr + seg.memsz ≤ 2 ^ 47)
    (hcomplete : ReadsComplete file k.reads phdrs)
    (hrun : k.elfLoadSegments file pml4 phdrs maxVaddr = some (result, k')) (hx : x < 2 ^ 47) :
    ((∀ seg ∈ phdrs, seg.type = ptLoad → ∀ j, ¬ seg.Pages x j) →
      readByte k'.vm.mem pml4 x = readByte k.vm.mem pml4 x) ∧
      ∀ before seg after j, phdrs = before ++ seg :: after → seg.type = ptLoad → seg.Pages x j →
        (∀ seg' ∈ after, seg'.type = ptLoad → ∀ j, ¬ seg'.Pages x j) →
        readByte k'.vm.mem pml4 x = seg.imageByte contents (j * pageSize + x % pageSize) := by
  induction phdrs generalizing k maxVaddr with
  | nil =>
    obtain ⟨-, rfl⟩ := Prod.mk.inj (Option.some_inj.mp hrun)
    exact ⟨fun _ => rfl, fun before seg after j hsplit => absurd hsplit (by simp)⟩
  | cons first phdrs ih =>
    rw [List.forall_mem_cons] at hinside hfilesz hend
    rw [Kernel.elfLoadSegments] at hrun
    rw [ReadsComplete] at hcomplete
    rw [Kernel.SegmentsGiven] at hnull
    by_cases htype : first.type = ptLoad
    · rw [if_neg (not_not_intro htype)] at hrun
      rw [if_pos htype] at hcomplete hnull
      obtain ⟨k₁, hfirst, hrest⟩ := Option.bind_eq_some_iff.mp hrun
      have hlast : ∀ j < 0 + first.pagesNeeded, first.vaddr + j * pageSize < 2 ^ 47 :=
        fun j hj => first.page_lt (hend.1 htype) (by omega)
      obtain ⟨h₁, hfaults, hreads₁, hother₁, hhere₁⟩ := Kernel.loadPages_image h
        (hnull.imp_right And.left) hfile (hinside.1 htype) hlast hcomplete.1
        (by rw [Nat.zero_min, Nat.add_zero]) hfirst
      have hmin : min (0 + first.pagesNeeded) first.filePages = first.filePages := by
        have hle := hfilesz.1 htype
        have hneeded := first.pagesNeeded_eq (hend.1 htype)
        rw [Phdr.filePages]
        omega
      rw [hmin] at hreads₁
      obtain ⟨hother, hhere⟩ := ih h₁ (hnull.imp hfaults fun hgiven => hgiven.2 k₁ hfirst)
        hinside.2 hfilesz.2 hend.2 (hreads₁ ▸ hcomplete.2) hrest
      refine ⟨fun hout => ?_, fun before seg after j hsplit hload hin hlater => ?_⟩
      · rw [List.forall_mem_cons] at hout
        exact (hother hout.2).trans (hother₁ x hx fun j _ hj hin =>
          hout.1 htype j ⟨by omega, hin⟩)
      · cases before with
        | nil =>
          obtain ⟨rfl, rfl⟩ := List.cons.inj hsplit
          have hj := hin.1
          exact (hother hlater).trans (hhere₁ x hx j (Nat.zero_le j) (by omega) hin.2)
        | cons first' before =>
          exact hhere before seg after j (List.cons.inj hsplit).2 hload hin hlater
    · rw [if_pos htype] at hrun
      rw [if_neg htype] at hcomplete hnull
      obtain ⟨hother, hhere⟩ := ih h hnull hinside.2 hfilesz.2 hend.2 hcomplete hrun
      refine ⟨fun hout => hother fun seg' hmem => hout seg' (List.mem_cons_of_mem _ hmem),
        fun before seg after j hsplit hload hin hlater => ?_⟩
      cases before with
      | nil =>
        obtain ⟨rfl, rfl⟩ := List.cons.inj hsplit
        exact absurd hload htype
      | cons first' before =>
        exact hhere before seg after j (List.cons.inj hsplit).2 hload hin hlater

/-! ## Files -/

/-- What the loader starts with, in a kernel whose page tables have their places. -/
theorem Loading.of_forest {fb : Set ℕ} {place : Places}
    (hF : Forest p.kernelPml4 fb k.vm roots place)
    (hpml4 : pml4 ∈ roots) (hcaller : k.sched.cr3 = p.kernelPml4 ∨ k.sched.cr3 ∈ roots)
    (hne : k.sched.cr3 ≠ pml4) : Loading p roots pml4 k := by
  refine ⟨hF.spaces, ⟨hF.not_free hF.kernel_place, fun s hs htable => ?_⟩, hpml4, hcaller, hne⟩
  obtain ⟨q, hq⟩ := hF.place_of_isTable hs htable
  obtain ⟨rfl, -⟩ := Prod.mk.inj (Option.some_inj.mp (hF.kernel_place.symm.trans hq))
  exact hF.kernel_notMem hs

/-- Growing the kernel heap does not map the page at address 0. -/
theorem GrowsHeap.nullFaults {fb : Set ℕ} {place : Places}
    (hF : Forest p.kernelPml4 fb k.vm roots place)
    (h : GrowsHeap p.kernelPml4 fb roots place k k')
    (hcaller : k.sched.cr3 = p.kernelPml4 ∨ k.sched.cr3 ∈ roots) (hnull : NullFaults p k) :
    NullFaults p k' := by
  obtain ⟨place', hF', -⟩ := h.forest
  rw [NullFaults] at hnull ⊢
  rw [h.sched_eq]
  split_ifs at hnull ⊢ with hcr3
  · rwa [h.lower _ (by decide)]
  · have hroot := hcaller.resolve_left hcr3
    have hlow : InUserHalf 0 := by decide
    rw [(hF.spaces.space _ hroot).frameOf_eq hlow] at hnull
    rwa [(hF'.spaces.space _ hroot).frameOf_eq hlow, h.view.entry_eq _ hroot]

/-- A complete read stores a part of the file. -/
theorem FatFile.Holds.read_complete (hfile : file.Holds contents) {pos len : ℕ}
    (hlength : (file.read n pos len).2.length = len) :
    (file.read n pos len).2 = (contents.drop pos).take len := by
  refine List.ext_getElem? fun j => ?_
  rw [List.getElem?_take, List.getElem?_drop]
  split_ifs with hj
  · exact hfile.read_eq n pos len j (hj.trans_le hlength.ge)
  · exact List.getElem?_eq_none (by omega)

/-- The header that is read is the one of the file. -/
theorem Kernel.elfReadHeader_eq {header : Ehdr} (hfile : file.Holds contents)
    (h : Kernel.elfReadHeader file k = (some header, k')) :
    header = elfHeader contents ∧ k' = { k with reads := k.reads + 1 } := by
  unfold Kernel.elfReadHeader at h
  dsimp only at h
  split_ifs at h with hok
  · obtain ⟨hheader, rfl⟩ := Prod.mk.inj h
    refine ⟨?_, rfl⟩
    rw [← Option.some_inj.mp hheader, hfile.read_complete hok.2.1, List.drop_zero]
    rfl
  · cases (Prod.mk.inj h).1

/-- The program headers that are read are those of the file. -/
theorem Kernel.elfReadProgramHeaders_eq {fb : Set ℕ} {place : Places} {ptr : ℕ} {phdrs : List Phdr}
    (hF : Forest p.kernelPml4 fb k.vm roots place) (hfile : file.Holds contents)
    (htable : (elfHeader contents).phoff + (elfHeader contents).phnum * phdrSize ≤ contents.length)
    (hroom : RoomToGrow k.heap ((elfHeader contents).phnum * phdrSize))
    (h : k.elfReadProgramHeaders p file (elfHeader contents) = some (some (ptr, phdrs), k')) :
    phdrs = elfPhdrs contents ∧ k'.reads = k.reads + 1 ∧
      ∃ k₁, GrowsHeap p.kernelPml4 fb roots place k k₁ ∧ k'.vm = k₁.vm ∧ k'.sched = k₁.sched := by
  have hlength := hfile.length_lt
  obtain ⟨⟨ptr', k₁⟩, hmalloc, h⟩ := Option.bind_eq_some_iff.mp h
  have hgrows := Kernel.kmalloc_forest hF hroom hmalloc
  dsimp only at h
  split_ifs at h with hptr hread
  · cases (Prod.mk.inj (Option.some_inj.mp h)).1
  · obtain ⟨k₂, -, h⟩ := Option.bind_eq_some_iff.mp h
    cases (Prod.mk.inj (Option.some_inj.mp h)).1
  · obtain ⟨hfound, rfl⟩ := Prod.mk.inj (Option.some_inj.mp h)
    obtain ⟨-, rfl⟩ := Prod.mk.inj (Option.some_inj.mp hfound)
    have hpos : (elfHeader contents).phoff % 2 ^ 32 = (elfHeader contents).phoff :=
      Nat.mod_eq_of_lt (by omega)
    refine ⟨?_, ?_, k₁, hgrows, rfl, rfl⟩
    · rw [hpos] at hread ⊢
      rw [hfile.read_complete (not_not.mp hread)]
      rfl
    · change k₁.reads + 1 = _
      rw [hgrows.reads_eq]

/-- When the program headers have been read, a `NULL` is still not used. -/
theorem NullUnused.before {fb : Set ℕ} {place : Places} {header : Ehdr} {ptr : ℕ}
    {phdrs phdrs' : List Phdr} {k₁ : Kernel} (hnull : NullUnused p file pml4 phdrs' k)
    (hF : Forest p.kernelPml4 fb k.vm roots place) (hopens : file.opens)
    (hheader : Kernel.elfReadHeader file k = (some header, { k with reads := k.reads + 1 }))
    (htable : Kernel.elfReadProgramHeaders p file header { k with reads := k.reads + 1 } =
      some (some (ptr, phdrs), k'))
    (hgrows : GrowsHeap p.kernelPml4 fb roots place { k with reads := k.reads + 1 } k₁)
    (hvm : k'.vm = k₁.vm) (hsched : k'.sched = k₁.sched)
    (hcaller : k.sched.cr3 = p.kernelPml4 ∨ k.sched.cr3 ∈ roots) :
    NullFaults p k' ∨ k'.SegmentsGiven file pml4 phdrs' := by
  refine hnull.imp (fun hfaults => ?_) fun hgiven => hgiven k' ?_
  · have hgrown :=
      GrowsHeap.nullFaults (k := { k with reads := k.reads + 1 }) hF hgrows hcaller hfaults
    rwa [NullFaults, ← hvm, ← hsched] at hgrown
  · rw [Kernel.beforeSegments, if_pos hopens, hheader]
    exact Option.bind_eq_some_iff.mpr ⟨_, htable, rfl⟩

/-- The last element with a property. -/
theorem exists_last {α : Type*} {P : α → Prop} {l : List α} (h : ∃ a ∈ l, P a) :
    ∃ before a after, l = before ++ a :: after ∧ P a ∧ ∀ b ∈ after, ¬ P b := by
  induction l with
  | nil =>
    obtain ⟨a, ha, -⟩ := h
    exact absurd ha List.not_mem_nil
  | cons a l ih =>
    by_cases hlater : ∃ b ∈ l, P b
    · obtain ⟨before, b, after, rfl, hb, hnone⟩ := ih hlater
      exact ⟨a :: before, b, after, rfl, hb, hnone⟩
    · obtain ⟨b, hb, hPb⟩ := h
      rcases List.mem_cons.mp hb with rfl | hb
      · exact ⟨[], b, l, rfl, hPb, fun c hc hPc => hlater ⟨c, hc, hPc⟩⟩
      · exact absurd ⟨b, hb, hPb⟩ hlater

/-- What the last segment puts at an address is what belongs there. -/
theorem Loadable.imageByte_eq (helf : ElfFile contents) (hload : Loadable p file contents pml4 k)
    {before after : List Phdr} {s : Phdr} {j o : ℕ}
    (hsplit : elfPhdrs contents = before ++ s :: after) (hs : s.type = ptLoad)
    (hmem : seg ∈ elfPhdrs contents) (htype : seg.type = ptLoad) (ho : o < seg.memsz)
    (hin : s.Pages (seg.vaddr + o) j)
    (hlater : ∀ seg' ∈ after, seg'.type = ptLoad → ∀ j, ¬ seg'.Pages (seg.vaddr + o) j) :
    s.imageByte contents (j * pageSize + (seg.vaddr + o) % pageSize) =
      seg.imageByte contents o := by
  have hsmem : s ∈ elfPhdrs contents := by
    rw [hsplit]
    exact List.mem_append_right _ List.mem_cons_self
  have hend := helf.end_le seg hmem htype
  have hx : seg.vaddr + o < 2 ^ 47 := by omega
  have hcovers : seg.Covers (seg.vaddr + o) := ⟨Nat.le_add_right _ _, by omega⟩
  have happart := helf.apart
  have hkept := hload.kept
  rw [hsplit] at happart hkept hmem
  -- the segment itself, one before, or one after
  have hwhere : seg = s ∨ seg ∈ before ∨ seg ∈ after := by
    rcases List.mem_append.mp hmem with hbefore | hrest
    · exact Or.inr (Or.inl hbefore)
    · rcases List.mem_cons.mp hrest with hself | hafter
      · exact Or.inl hself
      · exact Or.inr (Or.inr hafter)
  obtain ⟨-, htail, hcross⟩ := List.pairwise_append.mp happart
  obtain ⟨-, -, hcross'⟩ := List.pairwise_append.mp hkept
  by_cases hfile : o < seg.filesz
  · -- a byte of the file: no later segment has its page
    have haligned := hload.aligned seg (hsplit ▸ hmem) htype (by omega)
    obtain ⟨hpages, hoffset⟩ := seg.pages_of_aligned haligned hend ho
    rcases hwhere with rfl | hbefore | hafter
    · have hsame := hin.offset_eq haligned hend hx
      rw [show j * pageSize + (seg.vaddr + o) % pageSize = o by omega]
    · exact absurd hin (hcross' seg hbefore s List.mem_cons_self htype hs o hfile j)
    · exact absurd hpages (hlater seg hafter htype _)
  · -- a zero: the last segment has a byte of its own there only where it covers the address
    have hzero : ¬ j * pageSize + (seg.vaddr + o) % pageSize < s.filesz := fun hlt => by
      have haligned := hload.aligned s hsmem hs (by omega)
      have hsame := hin.offset_eq haligned (helf.end_le s hsmem hs) hx
      have hfilesz := helf.filesz_le s hsmem hs
      have hcovers' : s.Covers (seg.vaddr + o) := ⟨by omega, by omega⟩
      rcases hwhere with rfl | hbefore | hafter
      · omega
      · exact hcross seg hbefore s List.mem_cons_self htype hs _ ⟨hcovers, hcovers'⟩
      · exact (List.pairwise_cons.mp htail).1 seg hafter hs htype _ ⟨hcovers', hcovers⟩
    rw [Phdr.imageByte, Phdr.imageByte, if_neg hzero, if_neg hfile]

/-- A program that is loaded is in memory as its file says. -/
theorem Kernel.loadElfFile_image {fb : Set ℕ} {place : Places} {result : ElfLoadResult}
    (hF : Forest p.kernelPml4 fb k.vm roots place) (hpml4 : pml4 ∈ roots)
    (hcaller : k.sched.cr3 = p.kernelPml4 ∨ k.sched.cr3 ∈ roots) (hne : k.sched.cr3 ≠ pml4)
    (hfile : file.Holds contents) (helf : ElfFile contents)
    (hload : Loadable p file contents pml4 k)
    (hrun : k.loadElfFile p file pml4 = some (some result, k')) :
    ∀ seg ∈ elfPhdrs contents, seg.type = ptLoad → ∀ o < seg.memsz,
      ∃ b, seg.imageByte contents o = some b ∧
        readByte k'.vm.mem pml4 (seg.vaddr + o) = some b := by
  rw [Kernel.loadElfFile] at hrun
  split_ifs at hrun with hopens
  · cases hheader : Kernel.elfReadHeader file k with
    | mk found k₁ =>
      rw [hheader] at hrun
      cases found with
      | none => cases (Prod.mk.inj (Option.some_inj.mp hrun)).1
      | some header =>
        obtain ⟨rfl, rfl⟩ := Kernel.elfReadHeader_eq hfile hheader
        obtain ⟨⟨found, k₂⟩, htable, hrun⟩ := Option.bind_eq_some_iff.mp hrun
        cases found with
        | none => cases (Prod.mk.inj (Option.some_inj.mp hrun)).1
        | some found =>
          obtain ⟨ptr, phdrs⟩ := found
          obtain ⟨⟨maxVaddr, k₃⟩, hsegments, hrun⟩ := Option.bind_eq_some_iff.mp hrun
          obtain ⟨k₄, hfree, hrun⟩ := Option.bind_eq_some_iff.mp hrun
          obtain ⟨-, rfl⟩ := Prod.mk.inj (Option.some_inj.mp hrun)
          obtain ⟨rfl, hreads, k', hgrows, hvm, hsched⟩ := Kernel.elfReadProgramHeaders_eq
            (k := { k with reads := k.reads + 1 }) hF hfile helf.table_le hload.room htable
          obtain ⟨place', hF', -⟩ := hgrows.forest
          rw [← hvm] at hF'
          have hsched' : k₂.sched = k.sched := hsched.trans hgrows.sched_eq
          -- The program headers are read into the heap, which may have grown for them.
          have hnull : NullFaults p k₂ ∨ k₂.SegmentsGiven file pml4 (elfPhdrs contents) :=
            hload.null.before hF hopens hheader htable hgrows hvm hsched hcaller
          have hloading : Loading p roots pml4 k₂ :=
            .of_forest hF' hpml4 (hsched' ▸ hcaller) (hsched' ▸ hne)
          obtain ⟨heap, -, hfree⟩ := Option.bind_eq_some_iff.mp hfree
          obtain rfl := Option.some_inj.mp hfree
          intro seg hmem htype o ho
          have hx : seg.vaddr + o < 2 ^ 47 := by
            have hend := helf.end_le seg hmem htype
            omega
          obtain ⟨-, himage⟩ := Kernel.elfLoadSegments_image hloading hnull hfile hload.inside
            helf.filesz_le helf.end_le (hreads ▸ hload.complete) hsegments hx
          have hcovers : seg.Covers (seg.vaddr + o) := ⟨Nat.le_add_right _ _, by omega⟩
          obtain ⟨before, s, after, hsplit, ⟨hs, j, hin⟩, hlater⟩ :=
            exists_last (hload.mapped seg hmem htype _ hcovers)
          have hbyte := (himage before s after j hsplit hs hin fun seg' hmem' htype' j' hin' =>
            hlater seg' hmem' ⟨htype', j', hin'⟩).trans
            (hload.imageByte_eq helf hsplit hs hmem htype ho hin fun seg' hmem' htype' j' hin' =>
              hlater seg' hmem' ⟨htype', j', hin'⟩)
          -- A segment whose file bytes lie in the file has a byte at every offset.
          obtain ⟨b, hb⟩ : ∃ b, seg.imageByte contents o = some b := by
            rw [Phdr.imageByte]
            split_ifs with hfilesz
            · have hin : seg.offset + o < contents.length := by
                have hle := hload.inside seg hmem htype (by omega)
                omega
              rw [List.getElem?_eq_getElem hin]
              exact ⟨_, rfl⟩
            · exact ⟨0, rfl⟩
          exact ⟨b, hb, hbyte.trans hb⟩
  · cases (Prod.mk.inj (Option.some_inj.mp hrun)).1

end Pages

/-! ## A program of one segment -/

/-- The lowest bytes of a number, in the order of memory. -/
def leBytes (n w : ℕ) : List (BitVec 8) := (List.range n).map fun r => BitVec.ofNat 8 (byteOf w r)

/-- A file with one segment: four bytes, and four zeros behind them. -/
def sampleElf (vaddr : ℕ) : List (BitVec 8) :=
  [0x7F#8, 0x45#8, 0x4C#8, 0x46#8] ++ leBytes 28 0 ++ leBytes 8 64 ++ leBytes 16 0 ++
    leBytes 2 1 ++ leBytes 6 0 ++
    (leBytes 4 ptLoad ++ leBytes 4 0 ++ leBytes 8 120 ++ leBytes 8 vaddr ++ leBytes 8 0 ++
      leBytes 8 4 ++ leBytes 8 8 ++ leBytes 8 0) ++
    [1#8, 2#8, 3#8, 4#8]

/-- A file whose reads are complete, up to its end. -/
def FatFile.ofContents (contents : List (BitVec 8)) : FatFile where
  opens := true
  read _ pos len := (true, (contents.drop pos).take len)

theorem FatFile.ofContents_holds {contents : List (BitVec 8)} (h : contents.length < 2 ^ 32) :
    (FatFile.ofContents contents).Holds contents := by
  refine ⟨h, fun n pos len i hi => ?_⟩
  have hlen : i < len := by
    have hle : ((contents.drop pos).take len).length ≤ len := List.length_take_le _ _
    exact Nat.lt_of_lt_of_le hi hle
  change ((contents.drop pos).take len)[i]? = _
  rw [List.getElem?_take_of_lt hlen, List.getElem?_drop]

/-- The kernel's PML4 is the second frame, and runs; the heap has one page. -/
def sampleLoader : Kernel where
  vm := sampleVm
  heap :=
    { hdr := fun _ => ⟨heapMagic, 4056, true, 0, 0⟩
      head := kheapStart
      heapEnd := kheapStart + pageSize }
  sched :=
    { task := fun _ => Task.zero
      currentTask := 0
      taskHead := 0
      zombieTask := 0
      nextPid := 1
      cr3 := 0x1000
      tssRsp0 := 0 }
  reads := 0
  nullUsed := false

/-- The second frame is the kernel's PML4. -/
def sampleBios : Platform := ⟨0x1000, 0, 0⟩

theorem sampleElf_elfFile : ElfFile (sampleElf 0x400000) ∧ ElfFile (sampleElf 0x400800) := by
  have hphdrs : elfPhdrs (sampleElf 0x400000) = [⟨ptLoad, 120, 0x400000, 4, 8⟩] ∧
      elfPhdrs (sampleElf 0x400800) = [⟨ptLoad, 120, 0x400800, 4, 8⟩] := by decide +kernel
  constructor
  · refine ⟨by decide +kernel, ?_, ?_, ?_⟩
    · rw [hphdrs.1]
      decide
    · rw [hphdrs.1]
      decide
    · rw [hphdrs.1]
      exact List.pairwise_singleton _ _
  · refine ⟨by decide +kernel, ?_, ?_, ?_⟩
    · rw [hphdrs.2]
      decide
    · rw [hphdrs.2]
      decide
    · rw [hphdrs.2]
      exact List.pairwise_singleton _ _

/-- A segment that starts at a page is loaded as its file says. -/
theorem loadElfFile_image_sampleElf : ∃ result k',
    sampleLoader.loadElfFile sampleBios (.ofContents (sampleElf 0x400000)) 0x2000 =
        some (some result, k') ∧
      ∀ seg ∈ elfPhdrs (sampleElf 0x400000), seg.type = ptLoad → ∀ o < seg.memsz,
        ∃ b, seg.imageByte (sampleElf 0x400000) o = some b ∧
          readByte k'.vm.mem 0x2000 (seg.vaddr + o) = some b := by
  have hphdrs : elfPhdrs (sampleElf 0x400000) = [⟨ptLoad, 120, 0x400000, 4, 8⟩] := by
    decide +kernel
  have hruns : ((sampleLoader.loadElfFile sampleBios (.ofContents (sampleElf 0x400000))
      0x2000).bind Prod.fst).isSome := by decide +kernel
  obtain ⟨result, hresult⟩ := Option.isSome_iff_exists.mp hruns
  obtain ⟨⟨found, k'⟩, hrun, rfl⟩ := Option.bind_eq_some_iff.mp hresult
  refine ⟨result, k', hrun, ?_⟩
  refine Kernel.loadElfFile_image (p := sampleBios) (k := sampleLoader) sampleVm_forest rfl
    (Or.inl rfl) (by decide) (FatFile.ofContents_holds (by decide +kernel)) sampleElf_elfFile.1 ?_
    hrun
  refine ⟨?_, ?_, ?_, ?_, ?_, HeapRoom.toGrow (by decide +kernel), Or.inl ?_⟩
  · rw [hphdrs]
    decide
  · rw [hphdrs]
    exact List.pairwise_singleton _ _
  · rw [hphdrs]
    intro seg hseg _ x hcovers
    obtain rfl := List.mem_singleton.mp hseg
    obtain ⟨hlow, hhigh⟩ := hcovers
    dsimp only at hlow hhigh
    refine ⟨_, List.mem_cons_self, rfl, 0, by decide, ?_⟩
    rw [samePage_iff_of_lt (by omega) (by decide)]
    change x / 4096 = (0x400000 + 0 * 4096) / 4096
    omega
  · rw [hphdrs]
    decide +kernel
  · rw [hphdrs]
    have hpages : Phdr.filePages ⟨ptLoad, 120, 0x400000, 4, 8⟩ = 1 := rfl
    refine ⟨fun j hj => ?_, trivial⟩
    rw [hpages] at hj
    obtain rfl : j = 0 := by omega
    decide +kernel
  · exact fun hpresent => absurd hpresent (by decide)

/-- A segment that does not start at a page is loaded as if it did: its first byte is lost. -/
theorem loadElfFile_misplaces : ElfFile (sampleElf 0x400800) ∧
    (FatFile.ofContents (sampleElf 0x400800)).Holds (sampleElf 0x400800) ∧ ∃ result k',
    sampleLoader.loadElfFile sampleBios (.ofContents (sampleElf 0x400800)) 0x2000 =
        some (some result, k') ∧
      readByte k'.vm.mem 0x2000 0x400800 = some 0 ∧
      ¬ ∀ seg ∈ elfPhdrs (sampleElf 0x400800), seg.type = ptLoad → ∀ o < seg.memsz,
        ∃ b, seg.imageByte (sampleElf 0x400800) o = some b ∧
          readByte k'.vm.mem 0x2000 (seg.vaddr + o) = some b := by
  have hruns : ((sampleLoader.loadElfFile sampleBios (.ofContents (sampleElf 0x400800))
      0x2000).map fun x => (x.1.isSome, readByte x.2.vm.mem 0x2000 0x400800)) =
        some (true, some 0) := by decide +kernel
  obtain ⟨⟨found, k'⟩, hrun, hread⟩ := Option.map_eq_some_iff.mp hruns
  obtain ⟨hfound, hbyte⟩ := Prod.mk.inj hread
  obtain ⟨result, rfl⟩ := Option.isSome_iff_exists.mp hfound
  refine ⟨sampleElf_elfFile.2, FatFile.ofContents_holds (by decide +kernel), result, k', hrun,
    hbyte, fun hall => ?_⟩
  have hphdrs : elfPhdrs (sampleElf 0x400800) = [⟨ptLoad, 120, 0x400800, 4, 8⟩] := by
    decide +kernel
  rw [hphdrs] at hall
  obtain ⟨b, hfile, hmem⟩ := hall _ List.mem_cons_self rfl 0 (by decide)
  have hone : Phdr.imageByte ⟨ptLoad, 120, 0x400800, 4, 8⟩ (sampleElf 0x400800) 0 = some 1 := by
    decide +kernel
  rw [hone] at hfile
  rw [← Option.some_inj.mp hfile] at hmem
  exact absurd (hmem.symm.trans hbyte) (by decide)

end OpenIDP.Exec
