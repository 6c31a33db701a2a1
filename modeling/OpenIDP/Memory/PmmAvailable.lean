import Mathlib.Data.Set.Card
import OpenIDP.Memory.PmmInit
import OpenIDP.Memory.PmmLending

/-!
# Which pages the allocator has after its setup

The purpose of `pmm_init` is that `pmm_alloc_page` hands out the pages of the USABLE
entries that neither the kernel image nor the bitmap occupies, and that the counter
`total_pages - used_pages` is their number. The search of `pmm_alloc_page` only looks at
pages numbered below the *count* of usable pages, the setup locks only pages that
lie wholly inside the kernel image, and it reads whatever lies behind the bitmap when
a page has no bit. The theorem below says exactly when none of this matters.

## Main definitions

* `Available` — the pages the allocator is there for
* `PmmExact` — the condition on memory map and kernel placement

## Main results

* `balance_unlockPage`, `balance_lockPage` — the loops keep `used_pages` plus the number
  of clear bits
* `pmmInit_available_iff` — the allocator has the available pages exactly under `PmmExact`
-/

namespace OpenIDP.Memory

open OpenIDP.Math

/-- Some byte of `[start, start + size)` lies in the page. -/
def Overlaps (page start size : ℕ) : Prop :=
  ∃ addr, start ≤ addr ∧ addr < start + size ∧ addr / pageSize = page

/-- The page lies wholly inside a USABLE entry and overlaps neither the kernel image nor
the bitmap. -/
def Available (memmap : List MemmapEntry) (physicalBase kernelSize : ℕ) (p : Pmm)
    (page : ℕ) : Prop :=
  (∃ e ∈ memmap, e.Usable ∧ e.base ≤ page * pageSize ∧
      (page + 1) * pageSize ≤ e.base + e.length) ∧
    ¬ Overlaps page physicalBase kernelSize ∧
    ¬ Overlaps page p.bitmapPhys p.bitmapSizeBytes

/-- The bitmap covers every page, the kernel image does not share a page with usable
memory it does not fill, and the pages that are left are numbered below their
count. -/
structure PmmExact (memmap : List MemmapEntry) (physicalBase kernelSize : ℕ)
    (host : MemmapEntry) : Prop where
  covers : BitmapCovers memmap physicalBase kernelSize
  kernel : ∀ page ∈ usablePages memmap, page ∉ bitmapPages memmap host →
    (page ∈ kernelPages physicalBase kernelSize ↔ Overlaps page physicalBase kernelSize)
  numbered : ∀ page ∈ usablePages memmap, page ∉ bitmapPages memmap host →
    page ∉ kernelPages physicalBase kernelSize → page < usableCount memmap

/-! ## Bits and counter through the loops -/

section Loops

variable {p : Pmm} {page : ℕ}

theorem bitmapTest_unlockPage (j : ℕ) :
    (unlockPage p page).bitmapTest j = (!decide (j = page) && p.bitmapTest j) := by
  unfold unlockPage
  split_ifs with hset
  · exact Bytes.testBit_clearBit
  · by_cases hj : j = page
    · simp [hj, hset]
    · simp [hj]

theorem bitmapTest_lockPage (j : ℕ) :
    (lockPage p page).bitmapTest j = (decide (j = page) || p.bitmapTest j) := by
  unfold lockPage
  split_ifs with hclear
  · exact Bytes.testBit_setBit
  · by_cases hj : j = page
    · simpa [hj] using hclear
    · simp [hj]

theorem bitmapTest_foldl_unlockPage (pages : List ℕ) (p : Pmm) (j : ℕ) :
    (pages.foldl unlockPage p).bitmapTest j = (!decide (j ∈ pages) && p.bitmapTest j) := by
  induction pages generalizing p with
  | nil => simp
  | cons page pages ih =>
    rw [List.foldl_cons, ih, bitmapTest_unlockPage]
    by_cases hj : j = page <;> simp [hj]

theorem bitmapTest_foldl_lockPage (pages : List ℕ) (p : Pmm) (j : ℕ) :
    (pages.foldl lockPage p).bitmapTest j = (decide (j ∈ pages) || p.bitmapTest j) := by
  induction pages generalizing p with
  | nil => simp
  | cons page pages ih =>
    rw [List.foldl_cons, ih, bitmapTest_lockPage]
    by_cases hj : j = page <;> simp [hj]

/-- How many of the given pages are free. -/
def clearIn (pages : Finset ℕ) (p : Pmm) : ℕ :=
  (pages.filter fun page => p.bitmapTest page = false).card

variable {pages : Finset ℕ}

/-- Freeing a used page moves one from the counter to the free pages. -/
theorem balance_unlockPage (hpage : page ∈ pages) (hused : p.usedPages < 2 ^ 64) :
    (unlockPage p page).usedPages < 2 ^ 64 ∧
      wrap ((unlockPage p page).usedPages + clearIn pages (unlockPage p page)) =
        wrap (p.usedPages + clearIn pages p) := by
  cases hbit : p.bitmapTest page with
  | false =>
    have hsame : unlockPage p page = p := by simp [unlockPage, hbit]
    rw [hsame]
    exact ⟨hused, rfl⟩
  | true =>
    have hclear : clearIn pages (unlockPage p page) = clearIn pages p + 1 := by
      have hfilter : (pages.filter fun q => (unlockPage p page).bitmapTest q = false) =
          insert page (pages.filter fun q => p.bitmapTest q = false) := by
        ext q
        by_cases hq : q = page <;> simp [bitmapTest_unlockPage, hq, hpage]
      rw [clearIn, hfilter, Finset.card_insert_of_notMem (by simp [hbit]), clearIn]
    have hcount : (unlockPage p page).usedPages = sub64 p.usedPages 1 := by
      simp [unlockPage, hbit]
    rw [hclear, hcount]
    refine ⟨sub64_lt _ _, ?_⟩
    unfold sub64 wrap
    omega

/-- Locking a free page moves one from the free pages to the counter. -/
theorem balance_lockPage (hpage : page ∈ pages) (hused : p.usedPages < 2 ^ 64) :
    (lockPage p page).usedPages < 2 ^ 64 ∧
      wrap ((lockPage p page).usedPages + clearIn pages (lockPage p page)) =
        wrap (p.usedPages + clearIn pages p) := by
  cases hbit : p.bitmapTest page with
  | true =>
    have hsame : lockPage p page = p := by simp [lockPage, hbit]
    rw [hsame]
    exact ⟨hused, rfl⟩
  | false =>
    have hclear : clearIn pages (lockPage p page) + 1 = clearIn pages p := by
      have hfilter : (pages.filter fun q => p.bitmapTest q = false) =
          insert page (pages.filter fun q => (lockPage p page).bitmapTest q = false) := by
        ext q
        by_cases hq : q = page
        · simp [hq, hpage, hbit]
        · simp [bitmapTest_lockPage, hq]
      rw [clearIn, clearIn, hfilter,
        Finset.card_insert_of_notMem (by simp [bitmapTest_lockPage])]
    have hcount : (lockPage p page).usedPages = wrap (p.usedPages + 1) := by
      simp [lockPage, hbit]
    rw [hcount]
    refine ⟨wrap_lt _, ?_⟩
    unfold wrap
    omega

/-- What one round keeps, the loop keeps. -/
theorem balance_foldl {body : Pmm → ℕ → Pmm}
    (hbody : ∀ p page, page ∈ pages → p.usedPages < 2 ^ 64 →
      (body p page).usedPages < 2 ^ 64 ∧
        wrap ((body p page).usedPages + clearIn pages (body p page)) =
          wrap (p.usedPages + clearIn pages p))
    (visited : List ℕ) (hvisited : ∀ page ∈ visited, page ∈ pages)
    (hused : p.usedPages < 2 ^ 64) :
    (visited.foldl body p).usedPages < 2 ^ 64 ∧
      wrap ((visited.foldl body p).usedPages + clearIn pages (visited.foldl body p)) =
        wrap (p.usedPages + clearIn pages p) := by
  induction visited generalizing p with
  | nil => exact ⟨hused, rfl⟩
  | cons page visited ih =>
    obtain ⟨hused', hbalance⟩ := hbody p page (hvisited page List.mem_cons_self) hused
    obtain ⟨hlast, hrest⟩ := ih (fun q hq => hvisited q (List.mem_cons_of_mem _ hq)) hused'
    exact ⟨hlast, hrest.trans hbalance⟩

end Loops

/-! ## The allocator after its setup -/

section Setup

variable {memmap : List MemmapEntry} {host : MemmapEntry} {page : ℕ}
variable {ram : Bytes} {physicalBase kernelSize hhdm : ℕ}

/-- Bits of the bitmap start out set, the bits behind it as memory has them. -/
theorem bitmapTest_markedUsed (j : ℕ) :
    (markedUsed ram memmap hhdm host).bitmapTest j =
      (decide (j < 8 * bitmapSizeBytes memmap) ||
        (ram (alignUp host.base pageSize + j / 8)).getLsbD (j % 8)) := by
  rw [Pmm.bitmapTest, Bytes.testBit_eq]
  simp only [markedUsed]
  have hmod : j % 8 < 8 := Nat.mod_lt _ (by decide)
  by_cases hj : j < 8 * bitmapSizeBytes memmap
  · rw [if_pos (by omega), decide_eq_true hj, Bool.true_or,
      show (0xFF#8) = BitVec.allOnes 8 from rfl, BitVec.getLsbD_allOnes, decide_eq_true hmod]
  · rw [if_neg (by omega), decide_eq_false hj, Bool.false_or]

theorem bitmapTest_initialPmm (j : ℕ) :
    (initialPmm ram memmap physicalBase kernelSize hhdm host).bitmapTest j =
      (decide (j ∈ kernelPages physicalBase kernelSize ++ bitmapPages memmap host) ||
        (!decide (j ∈ usablePages memmap) &&
          (markedUsed ram memmap hhdm host).bitmapTest j)) := by
  rw [initialPmm, bitmapTest_foldl_lockPage, bitmapTest_foldl_unlockPage]

/-- The pages whose bits the setup visits. -/
def visitedPages (memmap : List MemmapEntry) (physicalBase kernelSize : ℕ) : Finset ℕ :=
  (usablePages memmap ++ kernelPages physicalBase kernelSize).toFinset

/-- The pages that are free after the setup, as far as it visits them. -/
def sparePages (memmap : List MemmapEntry) (physicalBase kernelSize : ℕ)
    (host : MemmapEntry) : Finset ℕ :=
  (usablePages memmap).toFinset.filter fun page =>
    page ∉ kernelPages physicalBase kernelSize ++ bitmapPages memmap host

theorem kernelPages_lt (hpage : page ∈ kernelPages physicalBase kernelSize) :
    page < 2 ^ 52 := by
  have hstop := wrap_lt (physicalBase + kernelSize)
  rw [kernelPages, rangePages, mem_pageRange, alignDown_pageSize hstop, pageSize] at hpage
  omega

theorem card_visitedPages_le (physicalBase kernelSize : ℕ) (hvalid : ValidMemmap memmap) :
    (visitedPages memmap physicalBase kernelSize).card ≤ 2 ^ 52 := by
  rw [← Finset.card_range (2 ^ 52)]
  refine Finset.card_le_card fun page hpage => Finset.mem_range.mpr ?_
  rcases List.mem_append.mp (List.mem_toFinset.mp hpage) with husable | hkernel
  · exact usablePages_lt hvalid husable
  · exact kernelPages_lt hkernel

theorem sparePages_subset :
    sparePages memmap physicalBase kernelSize host ⊆
      visitedPages memmap physicalBase kernelSize := by
  intro page hpage
  have husable := List.mem_toFinset.mp (Finset.mem_filter.mp hpage).1
  exact List.mem_toFinset.mpr (List.mem_append_left _ husable)

theorem card_sparePages_le (physicalBase kernelSize : ℕ) (host : MemmapEntry)
    (hvalid : ValidMemmap memmap) :
    (sparePages memmap physicalBase kernelSize host).card ≤ 2 ^ 52 :=
  (Finset.card_le_card sparePages_subset).trans
    (card_visitedPages_le physicalBase kernelSize hvalid)

theorem clearIn_initialPmm :
    clearIn (visitedPages memmap physicalBase kernelSize)
        (initialPmm ram memmap physicalBase kernelSize hhdm host) =
      (sparePages memmap physicalBase kernelSize host).card := by
  rw [clearIn]
  congr 1
  ext page
  simp only [visitedPages, sparePages, Finset.mem_filter, List.mem_toFinset, List.mem_append,
    bitmapTest_initialPmm, Bool.or_eq_false_iff, decide_eq_false_iff_not, Bool.and_eq_false_iff,
    Bool.not_eq_false', decide_eq_true_eq]
  constructor
  · rintro ⟨husable | hkernel, hnot, hbit⟩
    · exact ⟨husable, hnot⟩
    · exact absurd (Or.inl hkernel) hnot
  · rintro ⟨husable, hnot⟩
    exact ⟨Or.inl husable, hnot, Or.inl husable⟩

/-- The counter after the setup: it is off by the number of visited pages whose bit was
clear before, and that can only be pages without a bit. -/
theorem usedPages_initialPmm (ram : Bytes) (physicalBase kernelSize hhdm : ℕ)
    (hvalid : ValidMemmap memmap) (hplace : placeBitmap memmap = some host) :
    (initialPmm ram memmap physicalBase kernelSize hhdm host).usedPages < 2 ^ 64 ∧
      wrap ((initialPmm ram memmap physicalBase kernelSize hhdm host).usedPages +
          (sparePages memmap physicalBase kernelSize host).card) =
        wrap (usableCount memmap +
          clearIn (visitedPages memmap physicalBase kernelSize)
            (markedUsed ram memmap hhdm host)) := by
  have hle := usableCount_le hvalid
  have hstart : (markedUsed ram memmap hhdm host).usedPages = usableCount memmap :=
    countTotalPages_eq hvalid
  have hfirst := balance_foldl (fun _ _ => balance_unlockPage) (usablePages memmap)
    (fun page hpage => show page ∈ visitedPages memmap physicalBase kernelSize from
      List.mem_toFinset.mpr (List.mem_append_left _ hpage))
    (p := markedUsed ram memmap hhdm host) (by omega)
  have hlocked : ∀ page ∈ kernelPages physicalBase kernelSize ++ bitmapPages memmap host,
      page ∈ visitedPages memmap physicalBase kernelSize := by
    intro page hpage
    rw [visitedPages, List.mem_toFinset, List.mem_append]
    rcases List.mem_append.mp hpage with hkernel | hbitmap
    · exact Or.inr hkernel
    · exact Or.inl (bitmapPages_subset hvalid hplace hbitmap)
  have hsecond := balance_foldl (fun _ _ => balance_lockPage) _ hlocked hfirst.1
  rw [← initialPmm, clearIn_initialPmm, hfirst.2, hstart] at hsecond
  exact hsecond

theorem initialPmm_totalPages (hvalid : ValidMemmap memmap) :
    (initialPmm ram memmap physicalBase kernelSize hhdm host).totalPages =
      usableCount memmap := by
  rw [initialPmm_keeps]
  exact countTotalPages_eq hvalid

theorem initialPmm_lastSearchPos :
    (initialPmm ram memmap physicalBase kernelSize hhdm host).lastSearchPos = 0 := by
  rw [initialPmm_keeps, markedUsed]

/-- `total_pages - used_pages` in terms of the pages that are free. -/
theorem freeCount_initialPmm (ram : Bytes) (physicalBase kernelSize hhdm : ℕ)
    (hvalid : ValidMemmap memmap) (hplace : placeBitmap memmap = some host) :
    sub64 (initialPmm ram memmap physicalBase kernelSize hhdm host).totalPages
        (initialPmm ram memmap physicalBase kernelSize hhdm host).usedPages =
      sub64 (sparePages memmap physicalBase kernelSize host).card
        (clearIn (visitedPages memmap physicalBase kernelSize)
          (markedUsed ram memmap hhdm host)) := by
  obtain ⟨hused, hbalance⟩ :=
    usedPages_initialPmm ram physicalBase kernelSize hhdm hvalid hplace
  have hclear : clearIn (visitedPages memmap physicalBase kernelSize)
      (markedUsed ram memmap hhdm host) ≤ 2 ^ 52 :=
    (Finset.card_filter_le _ _).trans (card_visitedPages_le physicalBase kernelSize hvalid)
  have hle := usableCount_le hvalid
  rw [initialPmm_totalPages hvalid]
  unfold sub64 wrap at *
  omega

/-! ## When the allocator is what it should be -/

/-- What clients may expect of the allocator after its setup: it can hand out the
available pages and no others, `total_pages - used_pages` is their number, and the check
at the top of `pmm_alloc_page` passes exactly when the search below it finds a page. -/
structure Pmm.Delivers (p : Pmm) (memmap : List MemmapEntry) (physicalBase kernelSize : ℕ) :
    Prop where
  canHandOut_iff : ∀ page, p.CanHandOut page ↔ Available memmap physicalBase kernelSize p page
  free_eq : sub64 p.totalPages p.usedPages =
    Set.ncard {page | Available memmap physicalBase kernelSize p page}
  search_iff : ∀ history l, Reaches LendStep ⟨p, ∅⟩ history l →
    ((l.pmm.searchFrom l.pmm.lastSearchPos l.pmm.totalPages l.pmm.lastSearchPos).1.isSome ↔
      l.pmm.usedPages < l.pmm.totalPages)

/-- The bitmap's own pages are those its bytes lie in. -/
theorem overlaps_bitmap_iff (hvalid : ValidMemmap memmap)
    (hplace : placeBitmap memmap = some host) :
    Overlaps page (alignUp host.base pageSize) (bitmapSizeBytes memmap) ↔
      page ∈ bitmapPages memmap host := by
  obtain ⟨hmem, husable, -⟩ := placeBitmap_some hplace
  have haligned := hvalid.base_aligned host hmem husable
  have hpages := bitmapSizePages_eq hvalid
  rw [mem_bitmapPages hvalid hplace, alignUp_host hvalid hplace]
  rw [pageSize] at *
  constructor
  · rintro ⟨addr, hge, hlt, hdiv⟩
    rw [pageSize] at hdiv
    omega
  · rintro ⟨hge, hlt⟩
    exact ⟨page * 4096, hge, by omega, by rw [pageSize]; omega⟩

theorem available_iff (hvalid : ValidMemmap memmap) (hplace : placeBitmap memmap = some host) :
    Available memmap physicalBase kernelSize
        (initialPmm ram memmap physicalBase kernelSize hhdm host) page ↔
      page ∈ usablePages memmap ∧ ¬ Overlaps page physicalBase kernelSize ∧
        page ∉ bitmapPages memmap host := by
  have hphys : (initialPmm ram memmap physicalBase kernelSize hhdm host).bitmapPhys =
      alignUp host.base pageSize := by
    rw [initialPmm_keeps, markedUsed]
  rw [Available, hphys, initialPmm_bitmapSizeBytes, overlaps_bitmap_iff hvalid hplace,
    mem_usablePages]
  refine and_congr_left' (exists_congr fun e => and_congr_right fun he =>
    and_congr_right fun husable => ?_)
  exact (mem_entryPages hvalid he husable).symm

theorem mem_sparePages :
    page ∈ sparePages memmap physicalBase kernelSize host ↔
      page ∈ usablePages memmap ∧ page ∉ bitmapPages memmap host ∧
        page ∉ kernelPages physicalBase kernelSize := by
  simp only [sparePages, Finset.mem_filter, List.mem_toFinset, List.mem_append, not_or]
  exact and_congr_right fun _ => and_comm

/-- Visited pages that have a bit start out marked. -/
theorem clearIn_markedUsed_of_covers (hvalid : ValidMemmap memmap)
    (hcovers : BitmapCovers memmap physicalBase kernelSize) :
    clearIn (visitedPages memmap physicalBase kernelSize)
      (markedUsed ram memmap hhdm host) = 0 := by
  rw [clearIn, Finset.card_eq_zero, Finset.filter_eq_empty_iff]
  intro page hpage
  have hlt := (BitmapCovers.iff_pages hvalid).mp hcovers page (List.mem_toFinset.mp hpage)
  rw [bitmapTest_markedUsed, decide_eq_true hlt, Bool.true_or]
  decide

/-- If memory held only zeros, the visited pages without a bit count as clear. -/
theorem covers_of_clearIn_zero (hvalid : ValidMemmap memmap)
    (hzero : clearIn (visitedPages memmap physicalBase kernelSize)
      (markedUsed (fun _ => 0#8) memmap hhdm host) = 0) :
    BitmapCovers memmap physicalBase kernelSize := by
  rw [clearIn, Finset.card_eq_zero, Finset.filter_eq_empty_iff] at hzero
  refine (BitmapCovers.iff_pages hvalid).mpr fun page hpage => ?_
  have hset := hzero (List.mem_toFinset.mpr hpage)
  rw [bitmapTest_markedUsed] at hset
  by_contra hge
  rw [decide_eq_false hge, Bool.false_or, BitVec.getLsbD_zero] at hset
  exact hset rfl

/-- If memory held only ones, no visited page counts as clear. -/
theorem clearIn_markedUsed_ones :
    clearIn (visitedPages memmap physicalBase kernelSize)
      (markedUsed (fun _ => 0xFF#8) memmap hhdm host) = 0 := by
  rw [clearIn, Finset.card_eq_zero, Finset.filter_eq_empty_iff]
  intro page hpage
  have hmod : page % 8 < 8 := Nat.mod_lt _ (by decide)
  rw [bitmapTest_markedUsed, show (0xFF#8) = BitVec.allOnes 8 from rfl,
    BitVec.getLsbD_allOnes, decide_eq_true hmod, Bool.or_true]
  decide

/-! ### The condition is enough -/

/-- Under `PmmExact` the free pages below `total_pages` are the spare ones. -/
theorem bitmapTest_initialPmm_of_exact (hvalid : ValidMemmap memmap)
    (hexact : PmmExact memmap physicalBase kernelSize host) :
    page < usableCount memmap ∧
        (initialPmm ram memmap physicalBase kernelSize hhdm host).bitmapTest page = false ↔
      page ∈ sparePages memmap physicalBase kernelSize host := by
  rw [mem_sparePages, bitmapTest_initialPmm, bitmapTest_markedUsed]
  have hbytes := bitmapSizeBytes_eq hvalid
  constructor
  · rintro ⟨hlt, hclear⟩
    have hbit : page < 8 * bitmapSizeBytes memmap := by omega
    simp only [hbit, Bool.or_eq_false_iff, decide_eq_false_iff_not, List.mem_append, not_or,
      decide_true, Bool.true_or, Bool.and_true, Bool.not_eq_false', decide_eq_true_eq] at hclear
    exact ⟨hclear.2, hclear.1.2, hclear.1.1⟩
  · rintro ⟨husable, hbitmap, hkernel⟩
    exact ⟨hexact.numbered page husable hbitmap hkernel, by simp [husable, hbitmap, hkernel]⟩

theorem usedBits_add_clear (p : Pmm) :
    p.usedBits + clearIn (Finset.range p.totalPages) p = p.totalPages := by
  have hsplit := Finset.card_filter_add_card_filter_not (s := Finset.range p.totalPages)
    (fun i => p.bitmapTest i = true)
  rw [Finset.card_range] at hsplit
  rw [Pmm.usedBits, Nat.count_eq_card_filter_range, clearIn]
  simpa using hsplit

theorem consistent_of_exact (hvalid : ValidMemmap memmap) (hhhdm : hhdm < 2 ^ 64)
    (hplace : placeBitmap memmap = some host)
    (hexact : PmmExact memmap physicalBase kernelSize host) :
    (initialPmm ram memmap physicalBase kernelSize hhdm host).Consistent := by
  have htotal : (initialPmm ram memmap physicalBase kernelSize hhdm host).totalPages =
      usableCount memmap := initialPmm_totalPages hvalid
  have hle := usableCount_le hvalid
  have hsplit := usedBits_add_clear (initialPmm ram memmap physicalBase kernelSize hhdm host)
  have hclear : clearIn (Finset.range (usableCount memmap))
      (initialPmm ram memmap physicalBase kernelSize hhdm host) =
        (sparePages memmap physicalBase kernelSize host).card := by
    rw [clearIn]
    congr 1
    ext page
    rw [Finset.mem_filter, Finset.mem_range, bitmapTest_initialPmm_of_exact hvalid hexact]
  obtain ⟨hused, hbalance⟩ :=
    usedPages_initialPmm ram physicalBase kernelSize hhdm hvalid hplace
  rw [clearIn_markedUsed_of_covers hvalid hexact.covers] at hbalance
  rw [htotal, hclear] at hsplit
  refine ⟨?_, htotal.trans_le hle, ?_, fun hpos => ?_⟩
  · unfold wrap at hbalance
    omega
  · rw [initialPmm_keeps]
    exact hhhdm
  · rwa [initialPmm_lastSearchPos]

theorem delivers_of_exact (hvalid : ValidMemmap memmap) (hhhdm : hhdm < 2 ^ 64)
    (hplace : placeBitmap memmap = some host)
    (hexact : PmmExact memmap physicalBase kernelSize host) :
    (initialPmm ram memmap physicalBase kernelSize hhdm host).Delivers memmap physicalBase
      kernelSize := by
  have hcons : (initialPmm ram memmap physicalBase kernelSize hhdm host).Consistent :=
    consistent_of_exact hvalid hhhdm hplace hexact
  have havailable : ∀ page, Available memmap physicalBase kernelSize
      (initialPmm ram memmap physicalBase kernelSize hhdm host) page ↔
        page ∈ sparePages memmap physicalBase kernelSize host := by
    intro page
    rw [available_iff hvalid hplace, mem_sparePages]
    refine and_congr_right fun husable => ?_
    rw [and_comm]
    exact and_congr_right fun hbitmap => not_congr (hexact.kernel page husable hbitmap).symm
  refine ⟨fun page => ?_, ?_, fun history l run => (hcons.lend run).searchFrom_isSome_iff⟩
  · rw [hcons.canHandOut_iff, initialPmm_totalPages hvalid, havailable,
      bitmapTest_initialPmm_of_exact hvalid hexact]
  · have hset : {page | Available memmap physicalBase kernelSize
        (initialPmm ram memmap physicalBase kernelSize hhdm host) page} =
          ↑(sparePages memmap physicalBase kernelSize host) :=
      Set.ext havailable
    have hcard := card_sparePages_le physicalBase kernelSize host hvalid
    rw [hset, Set.ncard_coe_finset, freeCount_initialPmm ram physicalBase kernelSize hhdm hvalid
      hplace, clearIn_markedUsed_of_covers hvalid hexact.covers, sub64_of_le (by omega) (by omega),
      Nat.sub_zero]

/-! ### The condition is needed -/

/-- If the counter is right whatever memory held before, every visited page has a bit:
memory full of ones and memory full of zeros disagree about the others. -/
theorem covers_of_free_eq (hvalid : ValidMemmap memmap)
    (hplace : placeBitmap memmap = some host) {count : ℕ}
    (hfree : ∀ ram, sub64 (initialPmm ram memmap physicalBase kernelSize hhdm host).totalPages
      (initialPmm ram memmap physicalBase kernelSize hhdm host).usedPages = count) :
    BitmapCovers memmap physicalBase kernelSize ∧
      count = (sparePages memmap physicalBase kernelSize host).card := by
  have hcard := card_sparePages_le physicalBase kernelSize host hvalid
  have hzeros := hfree fun _ => 0#8
  have hones := hfree fun _ => 0xFF#8
  have hclear : clearIn (visitedPages memmap physicalBase kernelSize)
      (markedUsed (fun _ => 0#8) memmap hhdm host) ≤ 2 ^ 52 :=
    (Finset.card_filter_le _ _).trans (card_visitedPages_le physicalBase kernelSize hvalid)
  rw [freeCount_initialPmm _ _ _ _ hvalid hplace] at hzeros hones
  rw [clearIn_markedUsed_ones, sub64_of_le (by omega) (by omega), Nat.sub_zero] at hones
  have hzero : clearIn (visitedPages memmap physicalBase kernelSize)
      (markedUsed (fun _ => 0#8) memmap hhdm host) = 0 := by
    unfold sub64 wrap at hzeros
    omega
  exact ⟨covers_of_clearIn_zero hvalid hzero, hones.symm⟩

theorem exact_of_delivers (hvalid : ValidMemmap memmap) (hplace : placeBitmap memmap = some host)
    (hdelivers : ∀ ram, (initialPmm ram memmap physicalBase kernelSize hhdm host).Delivers memmap
      physicalBase kernelSize) :
    PmmExact memmap physicalBase kernelSize host := by
  have havailable : ∀ ram page, Available memmap physicalBase kernelSize
      (initialPmm ram memmap physicalBase kernelSize hhdm host) page ↔
        page ∈ usablePages memmap ∧ ¬ Overlaps page physicalBase kernelSize ∧
          page ∉ bitmapPages memmap host :=
    fun _ _ => available_iff hvalid hplace
  have hfree : ∀ ram, sub64 (initialPmm ram memmap physicalBase kernelSize hhdm host).totalPages
      (initialPmm ram memmap physicalBase kernelSize hhdm host).usedPages =
        Set.ncard {page | page ∈ usablePages memmap ∧
          ¬ Overlaps page physicalBase kernelSize ∧ page ∉ bitmapPages memmap host} := by
    intro ram
    rw [(hdelivers ram).free_eq]
    simp only [havailable]
  obtain ⟨hcovers, hcount⟩ := covers_of_free_eq hvalid hplace hfree
  -- every available page can be handed out, so it is numbered, spare and has its bit clear
  have hspare : ∀ page, (page ∈ usablePages memmap ∧ ¬ Overlaps page physicalBase kernelSize ∧
      page ∉ bitmapPages memmap host) →
        page < usableCount memmap ∧ page ∈ sparePages memmap physicalBase kernelSize host := by
    intro page hpage
    have hout := ((hdelivers fun _ => 0#8).canHandOut_iff page).mpr
      ((havailable _ page).mpr hpage)
    obtain ⟨hlt, hclear⟩ := hout.clear (by rw [initialPmm_lastSearchPos]; exact id)
    rw [initialPmm_totalPages hvalid] at hlt
    rw [bitmapTest_initialPmm, Bool.or_eq_false_iff, decide_eq_false_iff_not, List.mem_append,
      not_or] at hclear
    exact ⟨hlt, mem_sparePages.mpr ⟨hpage.1, hpage.2.2, hclear.1.1⟩⟩
  have hset : {page | page ∈ usablePages memmap ∧ ¬ Overlaps page physicalBase kernelSize ∧
      page ∉ bitmapPages memmap host} = ↑(sparePages memmap physicalBase kernelSize host) := by
    refine Set.eq_of_subset_of_ncard_le (fun page hpage => (hspare page hpage).2) ?_
    rw [Set.ncard_coe_finset, hcount]
  have hiff : ∀ page, (page ∈ usablePages memmap ∧ ¬ Overlaps page physicalBase kernelSize ∧
      page ∉ bitmapPages memmap host) ↔ page ∈ sparePages memmap physicalBase kernelSize host :=
    fun page => Set.ext_iff.mp hset page
  refine ⟨hcovers, fun page husable hbitmap => ?_, fun page husable hbitmap hkernel => ?_⟩
  · have hpage := hiff page
    simp only [mem_sparePages, husable, hbitmap, true_and, not_false_eq_true, and_true] at hpage
    exact (not_iff_not.mp hpage).symm
  · exact (hspare page ((hiff page).mpr (mem_sparePages.mpr ⟨husable, hbitmap, hkernel⟩))).1

/-- **What the allocator has after its setup.** For every valid memory map and every
kernel placement, `pmm_init` leaves an allocator that hands out the available pages
and counts them, whatever memory held before, exactly when it hangs for want of room or
the placement is exact. -/
theorem pmmInit_available_iff (hvalid : ValidMemmap memmap) :
    (∀ ram hhdm s, hhdm < 2 ^ 64 → pmmInit ram memmap physicalBase kernelSize hhdm = some s →
        s.pmm.Delivers memmap physicalBase kernelSize) ↔
      ∀ host, placeBitmap memmap = some host →
        PmmExact memmap physicalBase kernelSize host := by
  constructor
  · intro hdelivers host hplace
    exact exact_of_delivers hvalid hplace fun ram =>
      hdelivers ram 0 _ (by decide) (pmmInit_of_place hplace)
  · intro hexact ram hhdm s hhhdm hinit
    rw [pmmInit_eq] at hinit
    obtain ⟨host, hplace, rfl⟩ := Option.map_eq_some_iff.mp hinit
    exact delivers_of_exact hvalid hhhdm hplace (hexact host hplace)

theorem pmmInit_available_iff_sampleMemmap :
    (∀ ram hhdm s, hhdm < 2 ^ 64 →
        pmmInit ram sampleMemmap 0x7e00000 0x80000 hhdm = some s →
        s.pmm.Delivers sampleMemmap 0x7e00000 0x80000) ↔
      ∀ host, placeBitmap sampleMemmap = some host →
        PmmExact sampleMemmap 0x7e00000 0x80000 host :=
  pmmInit_available_iff sampleMemmap_valid

/-- On the sample machine page 32255 is available and is never handed out. -/
theorem pmmInit_sampleMemmap_withholds :
    ValidMemmap sampleMemmap ∧
      ∃ s, pmmInit (fun _ => 0) sampleMemmap 0x7e00000 0x80000 0xFFFF800000000000 = some s ∧
        Available sampleMemmap 0x7e00000 0x80000 s.pmm 32255 ∧ ¬ s.pmm.CanHandOut 32255 := by
  have hplace : placeBitmap sampleMemmap =
      some ⟨0x1000, 0x9e000, limineMemmapUsable⟩ := by
    rw [placeBitmap, wrap_bitmapSizePages sampleMemmap_valid,
      bitmapSizePages_eq sampleMemmap_valid, bitmapSizeBytes_eq sampleMemmap_valid]
    decide
  refine ⟨sampleMemmap_valid, _, pmmInit_of_place hplace, ?_, fun hout => ?_⟩
  · rw [available_iff sampleMemmap_valid hplace, mem_bitmapPages sampleMemmap_valid hplace,
      bitmapSizePages_eq sampleMemmap_valid, bitmapSizeBytes_eq sampleMemmap_valid]
    refine ⟨mem_usablePages.mpr ⟨⟨0x100000, 0x7d00000, limineMemmapUsable⟩, by decide,
      by decide, (mem_entryPages sampleMemmap_valid (by decide) (by decide)).mpr (by decide)⟩,
      ?_, by decide⟩
    rintro ⟨addr, hge, -, hdiv⟩
    rw [pageSize] at hdiv
    omega
  · have hlt := (hout.clear (by rw [initialPmm_lastSearchPos]; exact id)).1
    rw [initialPmm_totalPages sampleMemmap_valid] at hlt
    exact absurd hlt (by decide)

end Setup

end OpenIDP.Memory
