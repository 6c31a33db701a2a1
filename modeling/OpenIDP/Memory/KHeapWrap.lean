import OpenIDP.Memory.KHeapRuns

/-!
# Sizes that wrap in the kernel heap

`kmalloc` rounds a request up, adds the size of a header and rounds again, without a look at
whether the sums fit in 64 bits. Whatever comes out, the heap grows by a block at its old end, and
this block is what the caller gets.

## Main definitions

* `KHeap.extended` — the heap after the first writes of `heap_expand`, for any size
* `KHeap.growth` — the number of bytes by which the heap grows for a request
* `KHeap.Reached` — the heaps that calls with any sizes lead to

## Main results

* `Layout.heapExpand_any` — the last block of a heap that has grown is the new one
* `Layout.exists_kmalloc`, `Layout.kmalloc_ne_zero` — `kmalloc` faults or returns a block, but
  never `NULL`
* `Layout.kmalloc_enough_iff` — for which requests the block is large enough
* `Reached.inv` — the list of blocks stays in order whatever the sizes
-/

namespace OpenIDP.Memory

open OpenIDP.Math

namespace KHeap

variable {h : KHeap} {blocks : List ℕ} {c s size : ℕ}

/-- The heap after the first writes of `heap_expand`, with the new block not yet linked to the
last one. -/
def extended (h : KHeap) (s : ℕ) : KHeap :=
  { h with heapEnd := wrap (h.heapEnd + alignUp s pageSize) }.setBlock h.heapEnd
    { h.hdr h.heapEnd with
      magic := heapMagic
      size := sub64 (alignUp s pageSize) blockHeaderSize
      free := true
      next := 0 }

theorem next_extended : (h.extended s).next c = if c = h.heapEnd then 0 else h.next c :=
  setBlock_field HeapBlock.next

theorem prev_extended : (h.extended s).prev c = h.prev c :=
  setBlock_keeps HeapBlock.prev rfl

theorem size_extended : (h.extended s).size c =
    if c = h.heapEnd then sub64 (alignUp s pageSize) blockHeaderSize else h.size c :=
  setBlock_field HeapBlock.size

/-- The first byte behind the pages that are added. The page number of the last may wrap. -/
theorem growEnd_any (hend : h.heapEnd < 2 ^ 64) (s : ℕ) :
    h.growEnd ((alignUp s pageSize + pageSize - 1) / pageSize) =
        wrap (h.heapEnd + alignUp s pageSize) ∧
      sub64 (wrap (h.heapEnd + alignUp s pageSize)) (alignUp s pageSize) = h.heapEnd := by
  have haligned : alignUp s pageSize = wrap (s + 2 ^ 12 - 1) / 2 ^ 12 * 2 ^ 12 :=
    alignUp_eq (k := 12) (by decide) s
  have hlt := wrap_lt (s + 2 ^ 12 - 1)
  constructor
  · rw [growEnd_eq hend]
    congr 2
    rw [pageSize] at *
    omega
  · unfold sub64 wrap at *
    omega

theorem heapExpand_any (hend : h.heapEnd < 2 ^ 64) (hs : alignUp s pageSize ≠ 0) :
    h.heapExpand s = (h.extended s).getLastBlock.bind fun last =>
      if last ≠ 0 then some (((h.extended s).setPrev h.heapEnd last).setNext last h.heapEnd)
      else some { (h.extended s).setPrev h.heapEnd last with head := h.heapEnd } := by
  obtain ⟨hgrow, hblock⟩ := growEnd_any hend s
  rw [heapExpand]
  simp only [if_neg hs, hgrow, appendBlock, hblock]
  rfl

/-- A size that is rounded to nothing: the header is stored where nothing is mapped. -/
theorem heapExpand_of_zero (hs : alignUp s pageSize = 0) : h.heapExpand s = none := by
  rw [heapExpand]
  exact if_pos hs

theorem Layout.heapEnd_fresh (hl : h.Layout blocks) : ∀ c ∈ blocks, c ≠ h.heapEnd := by
  rintro c hc rfl
  have hbounds := hl.bounds hc
  rw [blockHeaderSize] at hbounds
  omega

theorem Layout.heapEnd_pos (hl : h.Layout blocks) : kheapStart ≤ h.heapEnd := hl.tiles.start_le

theorem Layout.getLastBlock_extended (hl : h.Layout blocks) (s : ℕ) :
    (h.extended s).getLastBlock = some (blocks.getLastD 0) := by
  have hlinked : Linked (h.extended s).next (h.extended s).prev 0 blocks 0 :=
    hl.linked.congr (fun c hc => by rw [next_extended, if_neg (hl.heapEnd_fresh c hc)])
      fun _ _ => prev_extended
  have hhead : (h.extended s).head = blocks.headD 0 := hl.head_eq
  rw [getLastBlock, hhead, search_eq hlinked hl.ne_zero hl.length_lt,
    hlinked.find_last hl.ne_zero]

/-- Whatever its size, the block that `heap_expand` makes is at the old end of the heap, and the
last one of the list. -/
theorem Layout.heapExpand_any (hl : h.Layout blocks) (hs : alignUp s pageSize ≠ 0) :
    ∃ h', h.heapExpand s = some h' ∧ h'.getLastBlock = some h.heapEnd ∧
      h'.size h.heapEnd = sub64 (alignUp s pageSize) blockHeaderSize ∧
      h'.heapEnd = wrap (h.heapEnd + alignUp s pageSize) := by
  have hstart := hl.heapEnd_pos
  have hne : h.heapEnd ≠ 0 := fun hzero => by
    rw [hzero] at hstart
    exact absurd hstart (by decide)
  rw [KHeap.heapExpand_any hl.end_lt hs, hl.getLastBlock_extended, Option.bind_some]
  -- `heap_expand` writes `next` of the last block only when there is one.
  cases blocks using List.reverseRecOn with
  | nil =>
    rw [List.getLastD_nil, if_neg (not_not_intro rfl)]
    refine ⟨_, rfl, ?_, size_setPrev.trans (size_extended.trans (if_pos rfl)), rfl⟩
    have hnext : ((h.extended s).setPrev h.heapEnd 0).next h.heapEnd = 0 :=
      next_setPrev.trans (next_extended.trans (if_pos rfl))
    have hsingle : Linked ((h.extended s).setPrev h.heapEnd 0).next
        ((h.extended s).setPrev h.heapEnd 0).prev 0 [h.heapEnd] 0 :=
      ⟨prev_setPrev.trans (if_pos rfl), hnext, trivial⟩
    have hnonzero : ∀ c ∈ [h.heapEnd], c ≠ 0 := by simpa using hne
    refine (search_eq hsingle hnonzero (Nat.one_lt_two_pow (by decide))).trans ?_
    exact congrArg some (hsingle.find_last hnonzero)
  | append_singleton xs a =>
    have hmem : a ∈ xs ++ [a] := by simp
    have ha := hl.ne_zero a hmem
    rw [List.getLastD_concat, if_pos ha]
    refine ⟨_, rfl, ?_, ?_, rfl⟩
    · have hlinked' : Linked (((h.extended s).setPrev h.heapEnd a).setNext a h.heapEnd).next
          (((h.extended s).setPrev h.heapEnd a).setNext a h.heapEnd).prev 0
          (xs ++ [a, h.heapEnd]) 0 := by
        have hnexta : h.next a = 0 := hl.next_eq
        refine hl.linked.insert_after hl.nodup (by simp)
          (fun hc => hl.heapEnd_fresh _ hc rfl) (fun c => ?_) fun c => ?_
        · rw [next_setNext, next_setPrev, next_extended, hnexta]
        · rw [prev_setNext, prev_setPrev, prev_extended, hnexta]
          simp
      have hnonzero : ∀ c ∈ xs ++ [a, h.heapEnd], c ≠ 0 := by
        intro c hc
        have hcut : c ∈ xs ++ [a] ∨ c = h.heapEnd := by simpa [or_assoc] using hc
        rcases hcut with hold | rfl
        · exact hl.ne_zero c hold
        · exact hne
      -- The search has fuel for every block: each takes 40 bytes below `2 ^ 64`.
      have hlength : (xs ++ [a, h.heapEnd]).length < maxBlocks := by
        have hblocks := hl.tiles.length_le (k := 40) fun c => Nat.le_add_right _ _
        have hend := hl.end_lt
        rw [List.length_append, List.length_singleton] at hblocks
        rw [List.length_append, List.length_cons, List.length_singleton, maxBlocks]
        omega
      have hhead' : (((h.extended s).setPrev h.heapEnd a).setNext a h.heapEnd).head =
          (xs ++ [a, h.heapEnd]).headD 0 := by
        have hold := hl.head_eq
        rw [headD_append] at hold ⊢
        exact hold
      rw [getLastBlock, hhead', search_eq hlinked' hnonzero hlength,
        hlinked'.find_last hnonzero]
      simp
    · rw [size_setNext, size_setPrev, size_extended, if_pos rfl]

/-- Growing the heap writes the headers of the new block and of the last one. -/
theorem Layout.heapExpand_hdr {h' : KHeap} (hl : h.Layout blocks)
    (hrun : h.heapExpand s = some h') (hce : c ≠ h.heapEnd) (hc : c ∉ blocks) :
    h'.hdr c = h.hdr c := by
  have hs : alignUp s pageSize ≠ 0 := fun hzero => by
    rw [heapExpand_of_zero hzero] at hrun
    cases hrun
  rw [KHeap.heapExpand_any hl.end_lt hs, hl.getLastBlock_extended, Option.bind_some] at hrun
  have hlast : blocks.getLastD 0 ≠ 0 → c ≠ blocks.getLastD 0 := by
    cases blocks using List.reverseRecOn with
    | nil => exact fun hne => absurd rfl hne
    | append_singleton xs z =>
      rw [List.getLastD_concat]
      exact fun _ e => hc (by simp [e])
  split_ifs at hrun with hne
  · obtain rfl := Option.some_inj.mp hrun
    simp only [setNext, setPrev, extended, setBlock, Function.update_of_ne hce,
      Function.update_of_ne (hlast hne)]
  · obtain rfl := Option.some_inj.mp hrun
    simp only [setPrev, extended, setBlock, Function.update_of_ne hce]

/-- The bytes that `heap_expand` adds for a request. -/
def growth (size : ℕ) : ℕ :=
  alignUp (wrap (alignUp size heapAlignment + blockHeaderSize)) pageSize

/-- `kmalloc` comes to an end, if a heap that has to grow does so. -/
theorem Layout.exists_kmalloc (hl : h.Layout blocks) (hgrowth : h.Grows size → growth size ≠ 0) :
    ∃ ptr h', h.kmalloc size = some (ptr, h') := by
  rw [KHeap.kmalloc]
  split_ifs with hsize
  · exact ⟨0, h, rfl⟩
  · simp only [hl.firstFit_eq, Option.bind_eq_bind, Option.bind_some]
    split_ifs with hfound
    · exact ⟨_, _, rfl⟩
    · have hgrows : h.Grows size :=
        ⟨hsize, (hl.firstFit_eq _).trans (congrArg some (not_not.mp hfound))⟩
      obtain ⟨h', hrun, hlast, -⟩ := hl.heapExpand_any (hgrowth hgrows)
      change ∃ ptr h'', ((h.heapExpand _).bind fun h₁ => h₁.getLastBlock.bind fun block => _) = _
      rw [hrun, Option.bind_some, hlast, Option.bind_some]
      exact ⟨_, _, rfl⟩

/-- A heap that has to grow by nothing faults. -/
theorem kmalloc_of_growth_eq_zero (hgrows : h.Grows size) (hzero : growth size = 0) :
    h.kmalloc size = none := by
  rw [KHeap.kmalloc, if_neg hgrows.1]
  simp only [hgrows.2, Option.bind_eq_bind, Option.bind_some, ne_eq, not_true_eq_false, if_false]
  rw [heapExpand_of_zero hzero, Option.bind_none]

/-- What `kmalloc` returns is the payload of a block, as long as there is room for a header at the
end of the heap. -/
theorem Layout.kmalloc_ne_zero {h' : KHeap} {ptr : ℕ} (hl : h.Layout blocks)
    (hend : h.heapEnd + blockHeaderSize < 2 ^ 64) (hsize : size ≠ 0)
    (hrun : h.kmalloc size = some (ptr, h')) : ptr ≠ 0 := by
  have hheader : blockHeaderSize = 40 := rfl
  rw [KHeap.kmalloc, if_neg hsize] at hrun
  simp only [hl.firstFit_eq, Option.bind_eq_bind, Option.bind_some] at hrun
  cases hfind : blocks.find? fun curr =>
      h.free curr && decide (h.size curr ≥ alignUp size heapAlignment) with
  | some a =>
    have hmem := List.mem_of_find?_eq_some hfind
    have hbounds := hl.bounds hmem
    rw [hfind, Option.getD_some, if_pos (hl.ne_zero a hmem), wrap_of_lt (by omega)] at hrun
    obtain ⟨rfl, -⟩ := Prod.mk.inj (Option.some_inj.mp hrun)
    omega
  | none =>
    rw [hfind, Option.getD_none, if_neg (not_not_intro rfl)] at hrun
    obtain ⟨h₁, hexpand, hrun⟩ := Option.bind_eq_some_iff.mp hrun
    obtain ⟨block, hblock, hrun⟩ := Option.bind_eq_some_iff.mp hrun
    obtain ⟨rfl, -⟩ := Prod.mk.inj (Option.some_inj.mp hrun)
    have hgrowth : growth size ≠ 0 := fun hzero => by
      rw [heapExpand_of_zero hzero] at hexpand
      cases hexpand
    obtain ⟨h₂, hexpand₂, hlast, -⟩ := hl.heapExpand_any hgrowth
    obtain rfl : h₂ = h₁ := Option.some_inj.mp (hexpand₂.symm.trans hexpand)
    obtain rfl : h.heapEnd = block := Option.some_inj.mp (hlast.symm.trans hblock)
    rw [wrap_of_lt hend]
    omega

/-! ## Which blocks are large enough -/

/-- The sizes for which rounding up and adding a header do not wrap. -/
theorem growth_enough_iff (hlt : size < 2 ^ 64) :
    size ≤ sub64 (growth size) blockHeaderSize ↔ size ≤ 2 ^ 64 - 48 := by
  have hround : alignUp size heapAlignment = wrap (size + 2 ^ 4 - 1) / 2 ^ 4 * 2 ^ 4 :=
    alignUp_eq (k := 4) (by decide) size
  have hpages : growth size =
      wrap (wrap (alignUp size heapAlignment + 40) + 2 ^ 12 - 1) / 2 ^ 12 * 2 ^ 12 :=
    alignUp_eq (k := 12) (by decide) _
  have hheader : blockHeaderSize = 40 := rfl
  rw [hpages, hround, hheader]
  unfold sub64 wrap
  omega

/-- The sizes for which the heap grows by nothing. -/
theorem growth_eq_zero_iff (hlt : size < 2 ^ 64) :
    growth size = 0 ↔ 2 ^ 64 - 4144 < size ∧ size ≤ 2 ^ 64 - 48 := by
  have hround : alignUp size heapAlignment = wrap (size + 2 ^ 4 - 1) / 2 ^ 4 * 2 ^ 4 :=
    alignUp_eq (k := 4) (by decide) size
  have hpages : growth size =
      wrap (wrap (alignUp size heapAlignment + 40) + 2 ^ 12 - 1) / 2 ^ 12 * 2 ^ 12 :=
    alignUp_eq (k := 12) (by decide) _
  rw [hpages, hround]
  unfold wrap
  omega

theorem alignUp_enough_iff (hlt : size < 2 ^ 64) :
    size ≤ alignUp size heapAlignment ↔ size ≤ 2 ^ 64 - 16 := by
  have hround : alignUp size heapAlignment = wrap (size + 2 ^ 4 - 1) / 2 ^ 4 * 2 ^ 4 :=
    alignUp_eq (k := 4) (by decide) size
  rw [hround]
  unfold wrap
  omega

/-- A free block that is taken has the rounded size if it was split, and keeps its own
otherwise. -/
theorem size_taken (hl : h.Layout blocks) (ha : c ∈ blocks) (hfit : s ≤ h.size c) :
    ((h.splitBlock c s).setFree c false).size c = s ∨
      ((h.splitBlock c s).setFree c false).size c = h.size c ∧
        h.size c < s + blockHeaderSize + minSplit := by
  have hbounds := hl.bounds ha
  have hend := hl.end_lt
  have hstart : kheapStart = 2 ^ 64 - 2 ^ 47 := by decide
  have hheader : blockHeaderSize = 40 := rfl
  have hmin : minSplit = 32 := rfl
  have hwrap : wrap (s + blockHeaderSize + minSplit) = s + blockHeaderSize + minSplit :=
    wrap_of_lt (by omega)
  rw [size_setFree]
  by_cases hsplit : s + blockHeaderSize + minSplit ≤ h.size c
  · left
    obtain ⟨-, -, hsizes, -⟩ := splitBlock_fields (hwrap.le.trans hsplit) rfl
    rw [hsizes, if_pos rfl]
  · right
    rw [splitBlock, hwrap, if_pos (Nat.not_le.mp hsplit)]
    exact ⟨rfl, Nat.not_le.mp hsplit⟩

/-- The block that `kmalloc` returns is large enough if and only if the request can be rounded up
and given a header without a wrap. -/
theorem Layout.kmalloc_enough_iff {h' : KHeap} {ptr : ℕ} (hl : h.Layout blocks)
    (hend : h.heapEnd + blockHeaderSize < 2 ^ 64) (hsize : size ≠ 0) (hlt : size < 2 ^ 64)
    (hrun : h.kmalloc size = some (ptr, h')) :
    size ≤ h'.size (sub64 ptr blockHeaderSize) ↔ size ≤ 2 ^ 64 - 48 := by
  have hheader : blockHeaderSize = 40 := rfl
  have hmin : minSplit = 32 := rfl
  have hstart : kheapStart = 2 ^ 64 - 2 ^ 47 := by decide
  have hback : ∀ a, a + blockHeaderSize < 2 ^ 64 →
      sub64 (wrap (a + blockHeaderSize)) blockHeaderSize = a := by
    intro a ha
    rw [wrap_of_lt ha, sub64_of_le (Nat.le_add_left _ _) ha, Nat.add_sub_cancel]
  rw [KHeap.kmalloc, if_neg hsize] at hrun
  simp only [hl.firstFit_eq, Option.bind_eq_bind, Option.bind_some] at hrun
  cases hfind : blocks.find? fun curr =>
      h.free curr && decide (h.size curr ≥ alignUp size heapAlignment) with
  | some a =>
    -- only a request that is rounded down to nothing fits and is too large
    have hmem := List.mem_of_find?_eq_some hfind
    have hbounds := hl.bounds hmem
    have hfit : alignUp size heapAlignment ≤ h.size a := by
      have hfound := List.find?_some hfind
      exact of_decide_eq_true (Bool.and_eq_true_iff.mp hfound).2
    rw [hfind, Option.getD_some, if_pos (hl.ne_zero a hmem)] at hrun
    obtain ⟨rfl, rfl⟩ := Prod.mk.inj (Option.some_inj.mp hrun)
    have hround := alignUp_enough_iff hlt
    have hlast := hl.end_lt
    rw [hback a (by omega)]
    rcases size_taken hl hmem hfit with htaken | ⟨htaken, hless⟩
    · rw [htaken]
      omega
    · rw [htaken]
      omega
  | none =>
    have hgrowth : growth size ≠ 0 := fun hzero => by
      rw [hfind, Option.getD_none, if_neg (not_not_intro rfl), heapExpand_of_zero hzero] at hrun
      cases hrun
    obtain ⟨h₁, hgrow, hlast, hnew, -⟩ := hl.heapExpand_any hgrowth
    rw [hfind, Option.getD_none, if_neg (not_not_intro rfl), hgrow, Option.bind_some, hlast,
      Option.bind_some] at hrun
    obtain ⟨rfl, rfl⟩ := Prod.mk.inj (Option.some_inj.mp hrun)
    rw [hback _ hend, size_setFree, hnew]
    exact growth_enough_iff hlt

/-- No free block is as large as the largest requests. -/
theorem Layout.grows_of_lt (hl : h.Layout blocks) (hlt : size < 2 ^ 64) (hlow : 2 ^ 48 ≤ size)
    (hle : size ≤ 2 ^ 64 - 16) : h.Grows size := by
  refine ⟨by omega, ?_⟩
  rw [hl.firstFit_eq]
  refine congrArg some ?_
  cases hfind : blocks.find? fun curr =>
      h.free curr && decide (h.size curr ≥ alignUp size heapAlignment) with
  | none => rfl
  | some a =>
    have hbounds := hl.bounds (List.mem_of_find?_eq_some hfind)
    have hend := hl.end_lt
    have hstart : kheapStart = 2 ^ 64 - 2 ^ 47 := by decide
    have hfound := List.find?_some hfind
    have hfit : alignUp size heapAlignment ≤ h.size a :=
      of_decide_eq_true (Bool.and_eq_true_iff.mp hfound).2
    have hround := (alignUp_enough_iff hlt).mpr hle
    omega

/-! ## Heaps that calls lead to -/

/-- The pointer is that of the payload of a used block of the list. -/
def InUse (h : KHeap) (ptr : ℕ) : Prop :=
  ∃ n, (∀ m ≤ n, h.next^[m] h.head ≠ 0) ∧ h.free (h.next^[n] h.head) = false ∧
    ptr = h.next^[n] h.head + blockHeaderSize

/-- If the heap has to grow for the request, the page of the new header is mapped, and the pages
lie below the end of the address space. -/
def HasPages (h : KHeap) (size : ℕ) : Prop :=
  h.Grows size → 0 < growth size ∧ h.heapEnd + growth size < 2 ^ 64

/-- The heaps that calls with live pointers and 64-bit sizes lead to. -/
inductive Reached : KHeap → Prop
  | init {h : KHeap} (hdr : ℕ → HeapBlock) : heapInit hdr = some h → Reached h
  | kmalloc {h h' : KHeap} {size ptr : ℕ} : Reached h → size < 2 ^ 64 → h.HasPages size →
      h.kmalloc size = some (ptr, h') → Reached h'
  | kfree {h h' : KHeap} {ptr : ℕ} : Reached h → h.InUse ptr → h.kfree ptr = some h' → Reached h'
  | krealloc {h h' : KHeap} {ptr size newptr : ℕ} : Reached h → h.InUse ptr → size < 2 ^ 64 →
      h.HasPages size → h.krealloc ptr size = some (newptr, h') → Reached h'

/-- What every call keeps. -/
structure Inv (h : KHeap) (blocks : List ℕ) : Prop where
  layout : h.Layout blocks
  separated : h.Separated blocks
  start_lt : kheapStart < h.heapEnd
  aligned : h.heapEnd % pageSize = 0

section Reached

variable {h' : KHeap} {ptr newptr a : ℕ}

theorem growth_aligned (size : ℕ) : growth size % pageSize = 0 := by
  have hpages : growth size =
      wrap (wrap (alignUp size heapAlignment + blockHeaderSize) + 2 ^ 12 - 1) / 2 ^ 12 * 2 ^ 12 :=
    alignUp_eq (k := 12) (by decide) _
  rw [hpages]
  exact Nat.mul_mod_left _ _

theorem Inv.end_lt (hi : h.Inv blocks) : h.heapEnd + blockHeaderSize < 2 ^ 64 := by
  have hlt := hi.layout.end_lt
  have haligned := hi.aligned
  rw [pageSize] at haligned
  rw [blockHeaderSize]
  omega

/-- A block of the list that the pointers lead to. -/
theorem Layout.mem_of_reached (hl : h.Layout blocks) {n : ℕ}
    (hnonzero : ∀ m ≤ n, h.next^[m] h.head ≠ 0) : h.next^[n] h.head ∈ blocks := by
  induction n with
  | zero =>
    have hfirst := hnonzero 0 le_rfl
    rw [Function.iterate_zero_apply, hl.head_eq] at *
    cases blocks with
    | nil => exact absurd rfl hfirst
    | cons a rest => exact List.mem_cons_self
  | succ n ih =>
    have hprevious := ih fun m hm => hnonzero m (Nat.le_succ_of_le hm)
    have hlast := hnonzero (n + 1) le_rfl
    rw [Function.iterate_succ_apply'] at hlast ⊢
    obtain ⟨xs, ys, hcut⟩ := List.append_of_mem hprevious
    have hnext : h.next (h.next^[n] h.head) = ys.headD 0 := by
      rw [hcut] at hl
      exact hl.next_eq
    rw [hnext] at hlast ⊢
    cases ys with
    | nil => exact absurd rfl hlast
    | cons y ys =>
      rw [hcut]
      simp

/-- A pointer in use is that of a used block. -/
theorem InUse.block (hl : h.Layout blocks) (hptr : h.InUse ptr) :
    ∃ a ∈ blocks, h.free a = false ∧ ptr = a + blockHeaderSize := by
  obtain ⟨n, hnonzero, hused, heq⟩ := hptr
  exact ⟨_, hl.mem_of_reached hnonzero, hused, heq⟩

/-- A split writes the headers of the block, of the rest, and of the next block. -/
theorem splitBlock_hdr {b : ℕ} (hb : wrap (a + blockHeaderSize + s) = b) (hca : c ≠ a)
    (hcb : c ≠ b) (hnext : h.next a ≠ 0 → c ≠ h.next a) :
    (h.splitBlock a s).hdr c = h.hdr c := by
  rw [splitBlock]
  split_ifs
  · rfl
  · dsimp only
    rw [hb, next_setBlock, if_pos rfl]
    split_ifs with hne
    · simp only [setSize, setNext, setPrev, setBlock, Function.update_of_ne hca,
        Function.update_of_ne (hnext hne), Function.update_of_ne hcb]
    · simp only [setSize, setNext, setBlock, Function.update_of_ne hca,
        Function.update_of_ne hcb]

/-- `kmalloc` with a size that may wrap makes one more block used, and writes the headers of
blocks only. -/
theorem Inv.kmalloc (hi : h.Inv blocks) (hsize : size ≠ 0) (hpages : h.HasPages size) :
    ∃ h' blocks' a, h.kmalloc size = some (a + blockHeaderSize, h') ∧
      Grants h blocks 0 a h' blocks' ∧ h'.Inv blocks' ∧
      ∀ c ∉ blocks', h'.hdr c = h.hdr c := by
  obtain ⟨hl, hsep, hstart, haligned⟩ := hi
  have hheader : blockHeaderSize = 40 := rfl
  have hmin : minSplit = 32 := rfl
  have hlow : kheapStart = 2 ^ 64 - 2 ^ 47 := by decide
  have hpage : pageSize = 4096 := rfl
  have hlast := hl.end_lt
  rw [KHeap.kmalloc, if_neg hsize]
  simp only [hl.firstFit_eq, Option.bind_eq_bind, Option.bind_some]
  cases hfind : blocks.find? fun curr =>
      h.free curr && decide (h.size curr ≥ alignUp size heapAlignment) with
  -- A block is found: it is split where the rest holds a header, or taken whole.
  | some a =>
    obtain ⟨htest, xs, ys, rfl, -⟩ := List.find?_eq_some_iff_append.mp hfind
    obtain ⟨hfree, hfit⟩ := Bool.and_eq_true_iff.mp htest
    have hfit := of_decide_eq_true hfit
    have hmem : a ∈ xs ++ a :: ys := by simp
    have hbounds := hl.bounds hmem
    rw [Option.getD_some, if_pos (hl.ne_zero a hmem), wrap_of_lt (by omega)]
    by_cases hsplit : alignUp size heapAlignment + blockHeaderSize + minSplit ≤ h.size a
    · have hg := (hl.grants_split hsep hfree hsplit).mono (Nat.zero_le _)
      have hend : ((h.splitBlock a (alignUp size heapAlignment)).setFree a false).heapEnd =
          h.heapEnd := splitBlock_heapEnd
      refine ⟨_, _, a, rfl, hg, ⟨hg.layout, hg.separated, hend ▸ hstart, hend ▸ haligned⟩,
        fun c hc => ?_⟩
      have hca : c ≠ a := fun e => hc (by simp [e])
      refine (Function.update_of_ne hca _ _).trans ?_
      refine splitBlock_hdr (wrap_of_lt (by omega)) hca (fun e => hc (by simp [e]))
        fun hnext e => ?_
      have hfollows := hl.next_eq
      cases ys with
      | nil => exact hnext hfollows
      | cons y ys => exact hc (by rw [e, hfollows]; simp)
    · have hwhole : h.splitBlock a (alignUp size heapAlignment) = h := by
        rw [KHeap.splitBlock, if_pos]
        rw [wrap_of_lt (by omega)]
        omega
      rw [hwhole]
      have hg := (hl.grants_whole hsep hfree hfit).mono (Nat.zero_le _)
      refine ⟨_, _, a, rfl, hg, ⟨hg.layout, hg.separated, hstart, haligned⟩, fun c hc => ?_⟩
      have hca : c ≠ a := fun e => hc (e ▸ hmem)
      exact Function.update_of_ne hca _ _
  -- Nothing fits: the heap grows, and `get_last_block` finds the new block.
  | none =>
    have hgrows : h.Grows size := ⟨hsize, by rw [hl.firstFit_eq, hfind, Option.getD_none]⟩
    obtain ⟨hpos, hroom⟩ := hpages hgrows
    have hwhole := growth_aligned size
    rw [hpage] at hwhole haligned
    have hleast : blockHeaderSize ≤ growth size := by omega
    rw [Option.getD_none, if_neg (not_not_intro rfl)]
    cases blocks using List.reverseRecOn with
    | nil => exact absurd hl.tiles (Nat.ne_of_lt hstart)
    | append_singleton xs z =>
      obtain ⟨h', hrun, hlast', hg, hend⟩ := hl.grants_grow
        (s := wrap (alignUp size heapAlignment + blockHeaderSize)) hsep hleast hroom
      have hg := hg.mono (Nat.zero_le _)
      have hend' : (h'.setFree h.heapEnd false).heapEnd = h.heapEnd + growth size := hend
      simp only [hrun, Option.bind_some, hlast']
      rw [wrap_of_lt (by omega)]
      refine ⟨_, _, h.heapEnd, rfl, hg, ⟨hg.layout, hg.separated, by omega, ?_⟩, fun c hc => ?_⟩
      · rw [hend', hpage]
        omega
      · have hce : c ≠ h.heapEnd := fun e => hc (by simp [e])
        refine (Function.update_of_ne hce _ _).trans (hl.heapExpand_hdr hrun hce fun hmem => ?_)
        exact hc (by simpa [or_assoc] using Or.inl (List.mem_append.mp hmem))

/-- `kfree` of a used block. -/
theorem Inv.kfree (hi : h.Inv blocks) (ha : a ∈ blocks) :
    ∃ h' blocks', h.kfree (a + blockHeaderSize) = some h' ∧ h'.Inv blocks' := by
  obtain ⟨h', blocks', hrun, hl', hsep', -, -, hend⟩ := hi.layout.kfree hi.separated ha
  exact ⟨h', blocks', hrun, hl', hsep', hend ▸ hi.start_lt, hend ▸ hi.aligned⟩

/-- The first block has four pages. -/
theorem heapInit_heapEnd {hdr : ℕ → HeapBlock} (hrun : heapInit hdr = some h) :
    h.heapEnd = kheapStart + 16384 := by
  have hstart : kheapStart < 2 ^ 64 := by decide
  have hempty : Layout ⟨hdr, 0, kheapStart⟩ [] :=
    ⟨rfl, trivial, rfl, List.forall_mem_nil _, hstart⟩
  obtain ⟨h₁, hexpand, -, -, hend⟩ := hempty.heapExpand_any (s := pageSize * 4) (by decide)
  obtain rfl : h₁ = h := Option.some_inj.mp (hexpand.symm.trans hrun)
  have hfour : wrap (kheapStart + alignUp (pageSize * 4) pageSize) = kheapStart + 16384 := by decide
  exact hend.trans hfour

/-- The list of blocks stays in order, whatever the sizes. -/
theorem Reached.inv (hr : h.Reached) : ∃ blocks, h.Inv blocks := by
  induction hr with
  | @init h hdr hrun =>
    obtain ⟨h', hrun', hl, -⟩ := heapInit_layout hdr
    obtain rfl : h' = h := Option.some_inj.mp (hrun'.symm.trans hrun)
    have hwhole : (kheapStart + 16384) % pageSize = 0 := by decide
    refine ⟨_, hl, .singleton _, ?_, ?_⟩
    · rw [heapInit_heapEnd hrun]
      exact Nat.lt_add_of_pos_right (by decide)
    · rw [heapInit_heapEnd hrun]
      exact hwhole
  | @kmalloc h h' size ptr _ _ hpages hrun ih =>
    obtain ⟨blocks, hi⟩ := ih
    by_cases hsize : size = 0
    · rw [KHeap.kmalloc, if_pos hsize] at hrun
      obtain ⟨-, rfl⟩ := Prod.mk.inj (Option.some_inj.mp hrun)
      exact ⟨blocks, hi⟩
    · obtain ⟨h₁, blocks', a, hrun', -, hi', -⟩ := hi.kmalloc hsize hpages
      rw [hrun] at hrun'
      obtain ⟨-, rfl⟩ := Prod.mk.inj (Option.some_inj.mp hrun')
      exact ⟨blocks', hi'⟩
  | @kfree h h' ptr _ hptr hrun ih =>
    obtain ⟨blocks, hi⟩ := ih
    obtain ⟨a, ha, -, rfl⟩ := hptr.block hi.layout
    obtain ⟨h₁, blocks', hrun', hi'⟩ := hi.kfree ha
    rw [hrun] at hrun'
    obtain rfl := Option.some_inj.mp hrun'
    exact ⟨blocks', hi'⟩
  | @krealloc h h' ptr size newptr _ hptr _ hpages hrun ih =>
    obtain ⟨blocks, hi⟩ := ih
    obtain ⟨a, ha, hused, rfl⟩ := hptr.block hi.layout
    have hne : a + blockHeaderSize ≠ 0 := by
      rw [blockHeaderSize]
      omega
    unfold KHeap.krealloc at hrun
    rw [if_neg hne] at hrun
    dsimp only at hrun
    split_ifs at hrun with hsize
    · obtain ⟨h₁, hfree, hrun⟩ := Option.bind_eq_some_iff.mp hrun
      obtain ⟨-, rfl⟩ := Prod.mk.inj (Option.some_inj.mp hrun)
      obtain ⟨h₂, blocks', hrun', hi'⟩ := hi.kfree ha
      rw [hfree] at hrun'
      obtain rfl := Option.some_inj.mp hrun'
      exact ⟨blocks', hi'⟩
    · obtain ⟨-, rfl⟩ := Prod.mk.inj (Option.some_inj.mp hrun)
      exact ⟨blocks, hi⟩
    · obtain ⟨h₁, blocks₁, b, hrun', hg, hi₁, -⟩ := hi.kmalloc hsize hpages
      have hne' : b + blockHeaderSize ≠ 0 := by
        rw [blockHeaderSize]
        omega
      simp only [hrun', Option.bind_eq_bind, Option.bind_some, if_neg hne'] at hrun
      -- the old block is still there to be freed
      have ha₁ := ((hg.used_iff a).mpr (Or.inr ⟨ha, hused⟩)).1
      obtain ⟨h₂, blocks₂, hfree, hi₂⟩ := hi₁.kfree ha₁
      rw [hfree, Option.bind_some] at hrun
      obtain ⟨-, rfl⟩ := Prod.mk.inj (Option.some_inj.mp hrun)
      exact ⟨blocks₂, hi₂⟩

end Reached

end KHeap

end OpenIDP.Memory
