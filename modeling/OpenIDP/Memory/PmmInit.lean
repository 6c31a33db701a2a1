import Mathlib.Data.Finset.Card
import Mathlib.Data.List.Nodup
import OpenIDP.Memory.Pmm

/-!
# Setting up the page allocator from the memory map

`pmm_init` counts the pages of the USABLE entries of the Limine memory map, sizes the
bitmap by that count, places it at the start of an entry that is large enough, marks
everything used, frees the pages of the USABLE entries, and takes back the pages of
the kernel image and of the bitmap itself.

The loops index the bitmap by absolute page number, while its size comes from a count
of pages. `InitState` therefore keeps, next to the allocator, the bit indices the
loops have read or written, so that the two can be compared.

## Main definitions

* `MemmapEntry`, `ValidMemmap` — a memory map as the boot protocol guarantees it
* `pmmInit` — the function, with the bits it touches
* `BitmapCovers` — no USABLE page and no locked kernel page is numbered beyond the bitmap

## Main results

* `mem_entryPages` — the pages freed for an entry are those inside it
* `pmmInit_in_bitmap_iff` — the loops stay inside the bitmap exactly when it covers
  the pages they visit
-/

namespace OpenIDP.Memory

open OpenIDP.Math

/-- `LIMINE_MEMMAP_USABLE` -/
def limineMemmapUsable : ℕ := 0

/-- `struct limine_memmap_entry` -/
structure MemmapEntry where
  base : ℕ
  length : ℕ
  type : ℕ
  deriving DecidableEq, Repr

/-- `e->type == LIMINE_MEMMAP_USABLE` -/
def MemmapEntry.Usable (e : MemmapEntry) : Prop := e.type = limineMemmapUsable

instance : DecidablePred MemmapEntry.Usable := fun e =>
  inferInstanceAs (Decidable (e.type = limineMemmapUsable))

/-- Two entries have no byte in common. -/
def MemmapEntry.Disjoint (a b : MemmapEntry) : Prop :=
  a.base + a.length ≤ b.base ∨ b.base + b.length ≤ a.base

instance (a b : MemmapEntry) : Decidable (a.Disjoint b) :=
  inferInstanceAs (Decidable (_ ∨ _))

/-- What the boot protocol guarantees of the USABLE entries: they are page-aligned,
lie in the physical address space and do not overlap. -/
structure ValidMemmap (memmap : List MemmapEntry) : Prop where
  base_aligned : ∀ e ∈ memmap, e.Usable → e.base % pageSize = 0
  length_aligned : ∀ e ∈ memmap, e.Usable → e.length % pageSize = 0
  end_lt : ∀ e ∈ memmap, e.Usable → e.base + e.length < 2 ^ 64
  disjoint : memmap.Pairwise fun a b => a.Usable → b.Usable → a.Disjoint b

/-! ## The function -/

/-- `total_pages` as `count_total_pages` accumulates it. -/
def countTotalPages (memmap : List MemmapEntry) : ℕ :=
  memmap.foldl
    (fun total e => if e.Usable then wrap (total + e.length / pageSize) else total) 0

/-- `bitmap_size_bytes` -/
def bitmapSizeBytes (memmap : List MemmapEntry) : ℕ :=
  wrap (countTotalPages memmap + bitsPerByte - 1) / bitsPerByte

/-- `bitmap_size_pages` -/
def bitmapSizePages (memmap : List MemmapEntry) : ℕ :=
  alignUp (bitmapSizeBytes memmap) pageSize / pageSize

/-- The entry `place_bitmap` settles on; with none the machine hangs. -/
def placeBitmap (memmap : List MemmapEntry) : Option MemmapEntry :=
  memmap.find? fun e =>
    decide (e.Usable ∧ e.length ≥ wrap (bitmapSizePages memmap * pageSize))

/-- `for (page = first; page < last; page++)` -/
def pageRange (first last : ℕ) : List ℕ := List.range' first (last - first)

/-- The pages the loops visit for the physical range from `start` to `stop`: both
`free_usable_pages` and `lock_pages_range` round inwards. -/
def rangePages (start stop : ℕ) : List ℕ :=
  pageRange (alignUp start pageSize / pageSize) (alignDown stop pageSize / pageSize)

/-- The pages `free_usable_pages` visits for one entry. -/
def entryPages (e : MemmapEntry) : List ℕ := rangePages e.base (wrap (e.base + e.length))

/-- The allocator under construction, with the bit indices touched so far. -/
structure InitState where
  pmm : Pmm
  touched : List ℕ

/-- One round of a loop over the bitmap. -/
def InitState.visit (body : Pmm → ℕ → Pmm) (s : InitState) (page : ℕ) : InitState :=
  ⟨body s.pmm page, s.touched ++ [page]⟩

/-- The body of the loop in `free_usable_pages`. -/
def unlockPage (p : Pmm) (page : ℕ) : Pmm :=
  if p.bitmapTest page then
    { p.bitmapClear page with usedPages := sub64 p.usedPages 1 }
  else
    p

/-- The body of the loop in `lock_pages_range`. -/
def lockPage (p : Pmm) (page : ℕ) : Pmm :=
  if !p.bitmapTest page then
    { p.bitmapSet page with usedPages := wrap (p.usedPages + 1) }
  else
    p

/-- `free_usable_pages` -/
def freeUsablePages (memmap : List MemmapEntry) (s : InitState) : InitState :=
  memmap.foldl
    (fun s e => if e.Usable then (entryPages e).foldl (InitState.visit unlockPage) s else s) s

/-- `lock_pages_range` -/
def lockPagesRange (start stop : ℕ) (s : InitState) : InitState :=
  (rangePages start stop).foldl (InitState.visit lockPage) s

/-- `lock_kernel_pages`; `kernelSize` is the difference of the two linker symbols. -/
def lockKernelPages (physicalBase kernelSize : ℕ) (s : InitState) : InitState :=
  lockPagesRange physicalBase (wrap (physicalBase + kernelSize)) s

/-- `lock_bitmap_pages` -/
def lockBitmapPages (s : InitState) : InitState :=
  lockPagesRange s.pmm.bitmapPhys
    (wrap (s.pmm.bitmapPhys + wrap (s.pmm.bitmapSizePages * pageSize))) s

/-- The allocator after `count_total_pages`, `place_bitmap` and the `memset`: behind
the bitmap lies whatever physical memory held before. -/
def markedUsed (ram : Bytes) (memmap : List MemmapEntry) (hhdm : ℕ) (host : MemmapEntry) :
    Pmm where
  bitmap i := if i < bitmapSizeBytes memmap then 0xFF#8 else ram (alignUp host.base pageSize + i)
  bitmapPhys := alignUp host.base pageSize
  totalPages := countTotalPages memmap
  usedPages := countTotalPages memmap
  bitmapSizeBytes := bitmapSizeBytes memmap
  bitmapSizePages := bitmapSizePages memmap
  hhdm := hhdm
  lastSearchPos := 0

/-- `pmm_init`, on a machine whose physical memory holds `ram`. There is no result
when `place_bitmap` finds no room and hangs. -/
def pmmInit (ram : Bytes) (memmap : List MemmapEntry) (physicalBase kernelSize hhdm : ℕ) :
    Option InitState :=
  (placeBitmap memmap).map fun host =>
    lockBitmapPages (lockKernelPages physicalBase kernelSize
      (freeUsablePages memmap ⟨markedUsed ram memmap hhdm host, []⟩))

/-! ## The pages of the map -/

/-- The pages `free_usable_pages` visits, in order. -/
def usablePages (memmap : List MemmapEntry) : List ℕ :=
  (memmap.filter (·.Usable)).flatMap entryPages

/-- The pages `lock_kernel_pages` visits. -/
def kernelPages (physicalBase kernelSize : ℕ) : List ℕ :=
  rangePages physicalBase (wrap (physicalBase + kernelSize))

/-- The pages `lock_bitmap_pages` visits when `host` holds the bitmap. -/
def bitmapPages (memmap : List MemmapEntry) (host : MemmapEntry) : List ℕ :=
  rangePages (alignUp host.base pageSize)
    (wrap (alignUp host.base pageSize + wrap (bitmapSizePages memmap * pageSize)))

variable {memmap : List MemmapEntry} {e host : MemmapEntry} {page : ℕ}

theorem mem_pageRange {first last : ℕ} :
    page ∈ pageRange first last ↔ first ≤ page ∧ page < last := by
  rw [pageRange, List.mem_range'_1]
  omega

theorem alignUp_pageSize (value : ℕ) :
    alignUp value pageSize = wrap (value + 4095) / 4096 * 4096 :=
  alignUp_eq (k := 12) (by decide) value

theorem alignDown_pageSize {value : ℕ} (h : value < 2 ^ 64) :
    alignDown value pageSize = value / 4096 * 4096 :=
  alignDown_eq (k := 12) (by decide) h

/-- The pages visited for a range are those that lie inside it. -/
theorem mem_rangePages {start stop : ℕ} (hstart : start + 4095 < 2 ^ 64)
    (hstop : stop < 2 ^ 64) :
    page ∈ rangePages start stop ↔
      start ≤ page * pageSize ∧ (page + 1) * pageSize ≤ stop := by
  rw [rangePages, mem_pageRange, alignUp_pageSize, alignDown_pageSize hstop,
    wrap_of_lt hstart, pageSize]
  omega

theorem mem_entryPages (hvalid : ValidMemmap memmap) (he : e ∈ memmap) (husable : e.Usable) :
    page ∈ entryPages e ↔
      e.base ≤ page * pageSize ∧ (page + 1) * pageSize ≤ e.base + e.length := by
  have hend := hvalid.end_lt e he husable
  have haligned := hvalid.base_aligned e he husable
  rw [pageSize] at haligned
  rw [entryPages, wrap_of_lt hend, mem_rangePages (by omega) hend]

theorem length_entryPages (hvalid : ValidMemmap memmap) (he : e ∈ memmap)
    (husable : e.Usable) : (entryPages e).length = e.length / pageSize := by
  have hend := hvalid.end_lt e he husable
  have hbase := hvalid.base_aligned e he husable
  have hlength := hvalid.length_aligned e he husable
  rw [pageSize] at hbase hlength
  rw [entryPages, rangePages, pageRange, List.length_range', wrap_of_lt hend,
    alignUp_pageSize, alignDown_pageSize hend, wrap_of_lt (by omega), pageSize]
  omega

theorem nodup_usablePages (hvalid : ValidMemmap memmap) : (usablePages memmap).Nodup := by
  rw [usablePages, List.nodup_flatMap]
  refine ⟨fun e _ => List.nodup_range', ?_⟩
  rw [List.pairwise_filter]
  refine hvalid.disjoint.imp_of_mem fun {a b} ha hb hab hua hub => ?_
  simp only [decide_eq_true_eq] at hua hub
  intro page hpa hpb
  rw [mem_entryPages hvalid ha hua] at hpa
  rw [mem_entryPages hvalid hb hub] at hpb
  have hdisjoint := hab hua hub
  unfold MemmapEntry.Disjoint at hdisjoint
  rw [pageSize] at hpa hpb
  omega

theorem mem_usablePages :
    page ∈ usablePages memmap ↔ ∃ e ∈ memmap, e.Usable ∧ page ∈ entryPages e := by
  simp only [usablePages, List.mem_flatMap, List.mem_filter, decide_eq_true_eq, and_assoc]

theorem usablePages_lt (hvalid : ValidMemmap memmap) (hpage : page ∈ usablePages memmap) :
    page < 2 ^ 52 := by
  obtain ⟨e, he, husable, hmem⟩ := mem_usablePages.mp hpage
  have hend := hvalid.end_lt e he husable
  have hrange := (mem_entryPages hvalid he husable).mp hmem
  rw [pageSize] at hrange
  omega

/-- The number of pages of the USABLE entries. -/
def usableCount (memmap : List MemmapEntry) : ℕ :=
  ((memmap.filter (·.Usable)).map fun e => e.length / pageSize).sum

theorem length_usablePages (hvalid : ValidMemmap memmap) :
    (usablePages memmap).length = usableCount memmap := by
  rw [usablePages, List.length_flatMap, usableCount]
  congr 1
  refine List.map_congr_left fun e he => ?_
  obtain ⟨hmem, husable⟩ := List.mem_filter.mp he
  exact length_entryPages hvalid hmem (by simpa using husable)

theorem usableCount_le (hvalid : ValidMemmap memmap) : usableCount memmap ≤ 2 ^ 52 := by
  rw [← length_usablePages hvalid, ← List.toFinset_card_of_nodup (nodup_usablePages hvalid),
    ← Finset.card_range (2 ^ 52)]
  refine Finset.card_le_card fun page hpage => ?_
  exact Finset.mem_range.mpr (usablePages_lt hvalid (List.mem_toFinset.mp hpage))

private theorem foldl_count (memmap : List MemmapEntry) (total : ℕ) (htotal : total < 2 ^ 64) :
    memmap.foldl
        (fun total e => if e.Usable then wrap (total + e.length / pageSize) else total) total =
      wrap (total + usableCount memmap) := by
  induction memmap generalizing total with
  | nil => exact (wrap_of_lt htotal).symm
  | cons e memmap ih =>
    rw [List.foldl_cons]
    by_cases husable : e.Usable
    · have hcount : usableCount (e :: memmap) = e.length / pageSize + usableCount memmap := by
        simp [usableCount, husable]
      rw [if_pos husable, ih _ (wrap_lt _), hcount]
      unfold wrap
      omega
    · have hcount : usableCount (e :: memmap) = usableCount memmap := by
        simp [usableCount, husable]
      rw [if_neg husable, ih _ htotal, hcount]

/-- `total_pages` is the number of USABLE pages; the accumulation does not wrap. -/
theorem countTotalPages_eq (hvalid : ValidMemmap memmap) :
    countTotalPages memmap = usableCount memmap := by
  have hle := usableCount_le hvalid
  rw [countTotalPages, foldl_count _ _ (by decide), Nat.zero_add, wrap_of_lt (by omega)]

theorem bitmapSizeBytes_eq (hvalid : ValidMemmap memmap) :
    bitmapSizeBytes memmap = (usableCount memmap + 7) / 8 := by
  have hle := usableCount_le hvalid
  rw [bitmapSizeBytes, countTotalPages_eq hvalid, bitsPerByte, wrap_of_lt (by omega)]
  omega

theorem bitmapSizePages_eq (hvalid : ValidMemmap memmap) :
    bitmapSizePages memmap = (bitmapSizeBytes memmap + 4095) / 4096 := by
  have hle := usableCount_le hvalid
  have hbytes := bitmapSizeBytes_eq hvalid
  rw [bitmapSizePages, alignUp_pageSize, wrap_of_lt (by omega), pageSize]
  omega

/-! ## Where the bitmap goes -/

theorem placeBitmap_some (h : placeBitmap memmap = some host) :
    host ∈ memmap ∧ host.Usable ∧ host.length ≥ wrap (bitmapSizePages memmap * pageSize) := by
  have hfound := List.find?_some h
  simp only [decide_eq_true_eq] at hfound
  exact ⟨List.mem_of_find?_eq_some h, hfound.1, hfound.2⟩

theorem alignUp_host (hvalid : ValidMemmap memmap) (h : placeBitmap memmap = some host) :
    alignUp host.base pageSize = host.base := by
  obtain ⟨hmem, husable, -⟩ := placeBitmap_some h
  have hend := hvalid.end_lt host hmem husable
  have haligned := hvalid.base_aligned host hmem husable
  rw [pageSize] at haligned
  rw [alignUp_pageSize, wrap_of_lt (by omega)]
  omega

theorem wrap_bitmapSizePages (hvalid : ValidMemmap memmap) :
    wrap (bitmapSizePages memmap * pageSize) = bitmapSizePages memmap * pageSize := by
  have hle := usableCount_le hvalid
  have hbytes := bitmapSizeBytes_eq hvalid
  have hpages := bitmapSizePages_eq hvalid
  exact wrap_of_lt (by rw [pageSize]; omega)

/-- The pages of the bitmap are the first pages of the entry that hosts it. -/
theorem mem_bitmapPages (hvalid : ValidMemmap memmap) (h : placeBitmap memmap = some host) :
    page ∈ bitmapPages memmap host ↔
      host.base ≤ page * pageSize ∧
        (page + 1) * pageSize ≤ host.base + bitmapSizePages memmap * pageSize := by
  obtain ⟨hmem, husable, hroom⟩ := placeBitmap_some h
  have hend := hvalid.end_lt host hmem husable
  have haligned := hvalid.base_aligned host hmem husable
  rw [wrap_bitmapSizePages hvalid] at hroom
  rw [pageSize] at haligned
  rw [bitmapPages, alignUp_host hvalid h, wrap_bitmapSizePages hvalid, wrap_of_lt (by omega),
    mem_rangePages (by omega) (by omega)]

theorem bitmapPages_subset (hvalid : ValidMemmap memmap) (h : placeBitmap memmap = some host)
    (hpage : page ∈ bitmapPages memmap host) : page ∈ usablePages memmap := by
  obtain ⟨hmem, husable, hroom⟩ := placeBitmap_some h
  rw [wrap_bitmapSizePages hvalid] at hroom
  have hrange := (mem_bitmapPages hvalid h).mp hpage
  rw [mem_usablePages]
  exact ⟨host, hmem, husable, (mem_entryPages hvalid hmem husable).mpr ⟨hrange.1, by omega⟩⟩

/-! ## The loops -/

theorem foldl_visit (body : Pmm → ℕ → Pmm) (pages : List ℕ) (s : InitState) :
    pages.foldl (InitState.visit body) s =
      ⟨pages.foldl body s.pmm, s.touched ++ pages⟩ := by
  induction pages generalizing s with
  | nil => simp
  | cons page pages ih => simp [ih, InitState.visit]

theorem freeUsablePages_eq (memmap : List MemmapEntry) (s : InitState) :
    freeUsablePages memmap s =
      ⟨(usablePages memmap).foldl unlockPage s.pmm, s.touched ++ usablePages memmap⟩ := by
  induction memmap generalizing s with
  | nil => simp [freeUsablePages, usablePages]
  | cons e memmap ih =>
    rw [freeUsablePages, List.foldl_cons]
    by_cases husable : e.Usable
    · have hpages : usablePages (e :: memmap) = entryPages e ++ usablePages memmap := by
        simp [usablePages, husable]
      rw [if_pos husable, ← freeUsablePages, ih, foldl_visit, hpages, List.foldl_append,
        List.append_assoc]
    · have hpages : usablePages (e :: memmap) = usablePages memmap := by
        simp [usablePages, husable]
      rw [if_neg husable, ← freeUsablePages, ih, hpages]

/-- The loops change bits and the counter, nothing else. -/
theorem unlockPage_eq (p : Pmm) (page : ℕ) :
    unlockPage p page = { p with
      bitmap := (unlockPage p page).bitmap
      usedPages := (unlockPage p page).usedPages } := by
  unfold unlockPage
  split_ifs <;> rfl

theorem lockPage_eq (p : Pmm) (page : ℕ) :
    lockPage p page = { p with
      bitmap := (lockPage p page).bitmap
      usedPages := (lockPage p page).usedPages } := by
  unfold lockPage
  split_ifs <;> rfl

theorem foldl_keeps {body : Pmm → ℕ → Pmm}
    (hbody : ∀ p page, body p page = { p with
      bitmap := (body p page).bitmap
      usedPages := (body p page).usedPages }) (pages : List ℕ) (p : Pmm) :
    pages.foldl body p = { p with
      bitmap := (pages.foldl body p).bitmap
      usedPages := (pages.foldl body p).usedPages } := by
  induction pages generalizing p with
  | nil => rfl
  | cons page pages ih => rw [List.foldl_cons, ih, hbody]

theorem lockBitmapPages_foldl (firstPages lockedPages touched : List ℕ) (p : Pmm) :
    lockBitmapPages
        ⟨lockedPages.foldl lockPage (firstPages.foldl unlockPage p), touched⟩ =
      lockPagesRange p.bitmapPhys (wrap (p.bitmapPhys + wrap (p.bitmapSizePages * pageSize)))
        ⟨lockedPages.foldl lockPage (firstPages.foldl unlockPage p), touched⟩ := by
  have hphys : (lockedPages.foldl lockPage (firstPages.foldl unlockPage p)).bitmapPhys =
      p.bitmapPhys := by
    rw [foldl_keeps lockPage_eq, foldl_keeps unlockPage_eq]
  have hpages : (lockedPages.foldl lockPage (firstPages.foldl unlockPage p)).bitmapSizePages =
      p.bitmapSizePages := by
    rw [foldl_keeps lockPage_eq, foldl_keeps unlockPage_eq]
  rw [lockBitmapPages, hphys, hpages]

/-- The allocator after `free_usable_pages` and the two locking passes, as one pass
over the pages of the map and one over those of the kernel and the bitmap. -/
def initialPmm (ram : Bytes) (memmap : List MemmapEntry) (physicalBase kernelSize hhdm : ℕ)
    (host : MemmapEntry) : Pmm :=
  (kernelPages physicalBase kernelSize ++ bitmapPages memmap host).foldl lockPage
    ((usablePages memmap).foldl unlockPage (markedUsed ram memmap hhdm host))

variable {ram : Bytes} {physicalBase kernelSize hhdm : ℕ} {s : InitState}

theorem pmmInit_eq :
    pmmInit ram memmap physicalBase kernelSize hhdm =
      (placeBitmap memmap).map fun host =>
        ⟨initialPmm ram memmap physicalBase kernelSize hhdm host,
          usablePages memmap ++ kernelPages physicalBase kernelSize ++
            bitmapPages memmap host⟩ := by
  unfold pmmInit
  congr 1
  funext host
  rw [freeUsablePages_eq, lockKernelPages, lockPagesRange, foldl_visit, lockBitmapPages_foldl,
    lockPagesRange, foldl_visit, initialPmm, List.foldl_append, List.nil_append]
  rfl

theorem pmmInit_of_place (hplace : placeBitmap memmap = some host) :
    pmmInit ram memmap physicalBase kernelSize hhdm =
      some ⟨initialPmm ram memmap physicalBase kernelSize hhdm host,
        usablePages memmap ++ kernelPages physicalBase kernelSize ++
          bitmapPages memmap host⟩ := by
  rw [pmmInit_eq, hplace, Option.map_some]

theorem initialPmm_keeps {host : MemmapEntry} :
    initialPmm ram memmap physicalBase kernelSize hhdm host =
      { markedUsed ram memmap hhdm host with
        bitmap := (initialPmm ram memmap physicalBase kernelSize hhdm host).bitmap
        usedPages := (initialPmm ram memmap physicalBase kernelSize hhdm host).usedPages } := by
  rw [initialPmm, foldl_keeps lockPage_eq, foldl_keeps unlockPage_eq]

theorem initialPmm_bitmapSizeBytes {host : MemmapEntry} :
    (initialPmm ram memmap physicalBase kernelSize hhdm host).bitmapSizeBytes =
      bitmapSizeBytes memmap := by
  rw [initialPmm_keeps, markedUsed]

/-! ## Staying inside the bitmap -/

/-- No USABLE entry and no locked part of the kernel image ends beyond the page whose
number is the number of bits in the bitmap. -/
structure BitmapCovers (memmap : List MemmapEntry) (physicalBase kernelSize : ℕ) : Prop where
  usable : ∀ e ∈ memmap, e.Usable → 0 < e.length →
    (e.base + e.length) / pageSize ≤ 8 * ((usableCount memmap + 7) / 8)
  kernel : alignUp physicalBase pageSize < alignDown (wrap (physicalBase + kernelSize)) pageSize →
    alignDown (wrap (physicalBase + kernelSize)) pageSize / pageSize ≤
      8 * ((usableCount memmap + 7) / 8)

theorem BitmapCovers.iff_pages (hvalid : ValidMemmap memmap) :
    BitmapCovers memmap physicalBase kernelSize ↔
      ∀ page ∈ usablePages memmap ++ kernelPages physicalBase kernelSize,
        page < 8 * bitmapSizeBytes memmap := by
  rw [bitmapSizeBytes_eq hvalid]
  constructor
  · intro hcovers page hpage
    rcases List.mem_append.mp hpage with husable | hkernel
    · obtain ⟨e, he, hu, hmem⟩ := mem_usablePages.mp husable
      have hrange := (mem_entryPages hvalid he hu).mp hmem
      rw [pageSize] at hrange
      have hend := hcovers.usable e he hu (by omega)
      rw [pageSize] at hend
      omega
    · rw [kernelPages, rangePages, mem_pageRange] at hkernel
      have hend := hcovers.kernel (by
        by_contra hle
        have hdiv := Nat.div_le_div_right (c := pageSize) (not_lt.mp hle)
        omega)
      omega
  · intro hpages
    constructor
    · intro e he hu hpos
      have hbase := hvalid.base_aligned e he hu
      have hlength := hvalid.length_aligned e he hu
      rw [pageSize] at hbase hlength
      have hlast := hpages ((e.base + e.length) / pageSize - 1) (List.mem_append_left _
        (mem_usablePages.mpr ⟨e, he, hu, (mem_entryPages hvalid he hu).mpr (by
          rw [pageSize]; omega)⟩))
      rw [pageSize] at hlast ⊢
      omega
    · intro hlt
      have hfirst := alignUp_pageSize physicalBase
      have hstop := alignDown_pageSize (wrap_lt (physicalBase + kernelSize))
      have hlast := hpages
        (alignDown (wrap (physicalBase + kernelSize)) pageSize / pageSize - 1)
        (List.mem_append_right _ (by
          rw [kernelPages, rangePages, mem_pageRange, hfirst, hstop, pageSize]
          rw [hfirst, hstop] at hlt
          omega))
      rw [hfirst, hstop] at hlt
      rw [hstop, pageSize] at hlast ⊢
      omega

/-- **Where `pmm_init` touches the bitmap.** For every valid memory map and every
kernel placement, the loops stay inside the bitmap, whatever memory held before,
exactly when there is no room for a bitmap at all (then they are never reached) or
the bitmap covers the pages they visit. -/
theorem pmmInit_in_bitmap_iff (hvalid : ValidMemmap memmap) :
    (∀ ram hhdm s, pmmInit ram memmap physicalBase kernelSize hhdm = some s →
        ∀ bit ∈ s.touched, bit < 8 * s.pmm.bitmapSizeBytes) ↔
      placeBitmap memmap = none ∨ BitmapCovers memmap physicalBase kernelSize := by
  cases hplace : placeBitmap memmap with
  | none => simp [pmmInit_eq, hplace]
  | some host =>
    simp only [pmmInit_eq, hplace, Option.map_some, Option.some.injEq, forall_eq',
      initialPmm_bitmapSizeBytes, reduceCtorEq, false_or, BitmapCovers.iff_pages hvalid]
    constructor
    · intro hbits page hpage
      exact hbits (fun _ => 0) 0 page (List.mem_append_left _ hpage)
    · intro hpages _ _ bit hbit
      rcases List.mem_append.mp hbit with hrest | hbitmap
      · exact hpages bit hrest
      · exact hpages bit (List.mem_append_left _ (bitmapPages_subset hvalid hplace hbitmap))

/-- A machine with 126 MiB: a hole below 1 MiB, and the kernel above the usable part. -/
def sampleMemmap : List MemmapEntry :=
  [⟨0x1000, 0x9e000, limineMemmapUsable⟩, ⟨0x9f000, 0x61000, 1⟩,
    ⟨0x100000, 0x7d00000, limineMemmapUsable⟩, ⟨0x7e00000, 0x100000, 6⟩]

theorem sampleMemmap_valid : ValidMemmap sampleMemmap where
  base_aligned := by decide
  length_aligned := by decide
  end_lt := by decide
  disjoint := by decide

theorem pmmInit_in_bitmap_iff_sampleMemmap :
    (∀ ram hhdm s, pmmInit ram sampleMemmap 0x7e00000 0x80000 hhdm = some s →
        ∀ bit ∈ s.touched, bit < 8 * s.pmm.bitmapSizeBytes) ↔
      placeBitmap sampleMemmap = none ∨ BitmapCovers sampleMemmap 0x7e00000 0x80000 :=
  pmmInit_in_bitmap_iff sampleMemmap_valid

/-- On this machine `pmm_init` clears bit 32255 of a bitmap of 32160 bits. -/
theorem pmmInit_sampleMemmap_outside_bitmap :
    ValidMemmap sampleMemmap ∧
      ∃ s, pmmInit (fun _ => 0) sampleMemmap 0x7e00000 0x80000 0xFFFF800000000000 = some s ∧
        32255 ∈ s.touched ∧ 8 * s.pmm.bitmapSizeBytes = 32160 := by
  refine ⟨sampleMemmap_valid, _, pmmInit_eq, ?_, ?_⟩
  · have hpage : 32255 ∈ usablePages sampleMemmap :=
      mem_usablePages.mpr ⟨⟨0x100000, 0x7d00000, limineMemmapUsable⟩, by decide, by decide,
        (mem_entryPages sampleMemmap_valid (by decide) (by decide)).mpr (by decide)⟩
    exact List.mem_append_left _ (List.mem_append_left _ hpage)
  · simp only [initialPmm_bitmapSizeBytes]
    rw [bitmapSizeBytes_eq sampleMemmap_valid]
    decide

end OpenIDP.Memory
