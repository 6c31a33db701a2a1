import OpenIDP.Memory.KHeapWrap
import OpenIDP.Userspace.MallocRuns

/-!
# How large an allocated block is

Both allocators round a request up to a multiple of 16 without a look at the wrap. A request for
one of the last bytes of a word becomes one for nothing, and any free block will do. `malloc`
records the rounded size itself. `kmalloc` adds the size of a header and rounds to pages, and both
sums wrap a few bytes earlier. Where they wrap to nothing, or `sbrk` gets an increment that is not
positive, the header of the new block may lie where no page is mapped, and the call does not return.

## Main definitions

* `SbrkTimes` — what `sbrk(0)` returns in the course of a call of `malloc`
* `malloc` — one call
* `KmallocServes`, `MallocServes` — a caller gets `NULL` or a block that is large enough
* `MallocFits` — the list, or `sbrk`, can serve a request

## Main results

* `malloc_enough_iff` — for which requests a block of `malloc` is large enough
* `kmallocServes_iff`, `mallocServes_iff` — for which requests each of them serves its caller
* `allocators_enough_iff` — both
-/

namespace OpenIDP.Userspace

open OpenIDP.Math OpenIDP.Memory OpenIDP.Memory.KHeap

/-- The program break at the times at which a call of `malloc` reads it: others may move it. -/
structure SbrkTimes where
  /-- as the first block is looked for -/
  first : ℕ
  /-- in each round of the search -/
  rounds : ℕ → ℕ
  /-- as more memory is asked for -/
  last : ℕ

/-- The first block is looked for at the program break when nothing was allocated yet. -/
def firstTime (h : KHeap) (programBreak : ℕ) : KHeap :=
  if h.head = 0 then { h with head := programBreak } else h

/-- The program may write to the two ends of a header, so that it lies in pages that are mapped. -/
def HeaderMapped (vm : Vm) (root block : ℕ) : Prop :=
  ∀ x ∈ [block, wrap (block + blockHeaderSize - 1)], Canonical x ∧ UserWritable vm.mem root x

instance (vm : Vm) (root block : ℕ) : Decidable (HeaderMapped vm root block) :=
  inferInstanceAs (Decidable (∀ x ∈ [block, wrap (block + blockHeaderSize - 1)], _))

/-- `malloc`, with the block whose payload is returned; none stands for `NULL`. The header of a
block from `sbrk` is stored also where `sbrk` has mapped no page, and the handler of the page fault
does not return. -/
def malloc (h : KHeap) (times : SbrkTimes) (vm : Vm) (root size : ℕ) :
    Option (Option ℕ × KHeap × Vm) :=
  if size = 0 then
    some (none, h, vm)
  else do
    let h₁ := firstTime h times.first
    let (curr, last) ← findBlock h₁ times.rounds (blockSize size) maxBlocks 0 h₁.head 0
    if curr ≠ 0 then
      some (some curr, takeBlock h₁ curr (blockSize size), vm)
    else
      let (block, programBreak, vm₁) ← sysSbrk vm root times.last (toInt64 (totalReq size))
      let h₂ := { h₁ with heapEnd := programBreak }
      if block = sbrkFailed then
        some (none, h₂, vm₁)
      else if HeaderMapped vm₁ root block then
        some (some block, appendBlock h₂ last block (blockSize size), vm₁)
      else
        none

section Sizes

variable {h h' : KHeap} {times : SbrkTimes} {vm vm' : Vm} {root size block last s c ptr rounds i
  before : ℕ} {breaks : ℕ → ℕ} {blocks : List ℕ}

/-- The block that the search ends at is as large as what was looked for. -/
theorem findBlock_fits (hrun : findBlock h breaks s rounds i c before = some (block, last))
    (hfound : block ≠ 0) : s ≤ h.size block := by
  induction rounds generalizing i c before with
  | zero => cases hrun
  | succ rounds ih =>
    rw [findBlock] at hrun
    split_ifs at hrun with hend hmagic hfit
    · exact absurd (Prod.mk.inj (Option.some_inj.mp hrun)).1.symm hfound
    · exact absurd (Prod.mk.inj (Option.some_inj.mp hrun)).1.symm hfound
    · rw [← (Prod.mk.inj (Option.some_inj.mp hrun)).1]
      exact hfit.2
    · exact ih hrun

/-- A block that is taken has the size that was looked for, if it was split, and its own
otherwise. -/
theorem size_takeBlock (h : KHeap) (block s : ℕ) :
    (takeBlock h block s).size block = s ∨
      (takeBlock h block s).size block = h.size block ∧
        h.size block < wrap (s + blockHeaderSize + minSplit) := by
  rw [takeBlock, size_setFree, splitBlock]
  split_ifs with hless
  · exact Or.inr ⟨rfl, hless⟩
  · left
    rw [size_setSize, if_pos rfl]

theorem size_appendBlock (h : KHeap) (last block s : ℕ) :
    (appendBlock h last block s).size block = s := by
  unfold appendBlock
  dsimp only
  split_ifs
  · rw [size_setNext, size_setBlock, if_pos rfl]
  · exact size_setBlock.trans (if_pos rfl)

theorem blockSize_enough_iff (hlt : size < 2 ^ 64) :
    size ≤ blockSize size ↔ size ≤ 2 ^ 64 - 16 := alignUp_enough_iff hlt

/-- A request that is too large is rounded up to nothing. -/
theorem blockSize_of_gt (hlt : size < 2 ^ 64) (hgt : 2 ^ 64 - 16 < size) : blockSize size = 0 := by
  have hround : blockSize size = wrap (size + 2 ^ 4 - 1) / 2 ^ 4 * 2 ^ 4 :=
    alignUp_eq (k := 4) (by decide) size
  rw [hround]
  unfold wrap
  omega

/-- A block that `malloc` returns is large enough if and only if the request can be rounded up. -/
theorem malloc_enough_iff (hlt : size < 2 ^ 64)
    (hrun : malloc h times vm root size = some (some block, h', vm')) :
    size ≤ h'.size block ↔ size ≤ 2 ^ 64 - 16 := by
  have hheader : blockHeaderSize = 40 := rfl
  have hmin : minSplit = 32 := rfl
  have henough := blockSize_enough_iff hlt
  have hzero := blockSize_of_gt hlt
  unfold malloc at hrun
  split_ifs at hrun
  · cases hrun
  · obtain ⟨⟨curr, last⟩, hfind, hrun⟩ := Option.bind_eq_some_iff.mp hrun
    dsimp only at hrun
    split_ifs at hrun with hcurr
    · -- a free block: of the rounded size, or a little larger
      obtain ⟨hblock, hheap, -⟩ : curr = block ∧ takeBlock _ curr (blockSize size) = h' ∧ _ := by
        simpa only [Option.some.injEq, Prod.mk.injEq] using hrun
      rw [← hheap, ← hblock]
      have hfits := findBlock_fits hfind hcurr
      rcases size_takeBlock (firstTime h times.first) curr (blockSize size) with
        htaken | ⟨htaken, hless⟩
      · rw [htaken]
        exact henough
      · rw [htaken]
        constructor
        · intro hle
          by_contra hgt
          rw [hzero (Nat.not_le.mp hgt), wrap_of_lt (by omega)] at hless
          omega
        · exact fun hle => (henough.mpr hle).trans hfits
    · -- a block from `sbrk`, of the rounded size
      obtain ⟨⟨found, programBreak, vm₁⟩, -, hrun⟩ := Option.bind_eq_some_iff.mp hrun
      dsimp only at hrun
      split_ifs at hrun with hfailed hmapped
      · cases hrun
      · obtain ⟨hblock, hheap, -⟩ : found = block ∧ appendBlock _ last found (blockSize size) = h' ∧
            _ := by simpa only [Option.some.injEq, Prod.mk.injEq] using hrun
        rw [← hheap, ← hblock, size_appendBlock]
        exact henough

/-- A pointer that is returned is `NULL`, or that of a block of at least the size asked for. -/
def Gives (size ptr : ℕ) (h : KHeap) : Prop :=
  ptr = 0 ∨ size ≤ h.size (sub64 ptr blockHeaderSize)

instance (size ptr : ℕ) (h : KHeap) : Decidable (Gives size ptr h) :=
  inferInstanceAs (Decidable (_ ∨ _))

/-- `kmalloc` returns, and gives what was asked for. -/
def KmallocServes (h : KHeap) (size : ℕ) : Prop :=
  ∃ result ∈ h.kmalloc size, Gives size result.1 result.2

instance (h : KHeap) (size : ℕ) : Decidable (KmallocServes h size) :=
  inferInstanceAs (Decidable (∃ result ∈ h.kmalloc size, _))

/-- `malloc` returns `NULL` or a block of at least the size asked for. -/
def MallocServes (h : KHeap) (times : SbrkTimes) (vm : Vm) (root size : ℕ) : Prop :=
  ∃ result ∈ malloc h times vm root size, ∀ block ∈ result.1, size ≤ result.2.1.size block

instance (h : KHeap) (times : SbrkTimes) (vm : Vm) (root size : ℕ) :
    Decidable (MallocServes h times vm root size) :=
  inferInstanceAs (Decidable (∃ result ∈ malloc h times vm root size, _))

/-- In the kernel a request is served just when the rounded size, with a header and rounded up to
pages, fits in a word. -/
theorem kmallocServes_iff (hreached : h.Reached) (hlt : size < 2 ^ 64) :
    KmallocServes h size ↔ size ≤ 2 ^ 64 - 4144 := by
  obtain ⟨blocks, hinv⟩ := hreached.inv
  by_cases hsize : size = 0
  · rw [hsize]
    exact iff_of_true ⟨(0, h), rfl, Or.inl rfl⟩ (Nat.zero_le _)
  · constructor
    · rintro ⟨⟨ptr, h'⟩, hrun, hgives⟩
      have hne := hinv.layout.kmalloc_ne_zero hinv.end_lt hsize hrun
      have hle := (hinv.layout.kmalloc_enough_iff hinv.end_lt hsize hlt hrun).mp
        (hgives.resolve_left hne)
      by_contra hgt
      -- no free block is that large, and the heap grows by nothing
      have hzero := (growth_eq_zero_iff hlt).mpr ⟨Nat.not_le.mp hgt, hle⟩
      have hgrows : h.Grows size := hinv.layout.grows_of_lt hlt (by omega) (by omega)
      rw [kmalloc_of_growth_eq_zero hgrows hzero] at hrun
      cases hrun
    · intro hle
      have hgrowth : growth size ≠ 0 := fun hzero => by
        have hgt := ((growth_eq_zero_iff hlt).mp hzero).1
        omega
      obtain ⟨ptr, h', hrun⟩ := hinv.layout.exists_kmalloc fun _ : h.Grows size => hgrowth
      refine ⟨(ptr, h'), hrun, Or.inr ?_⟩
      exact (hinv.layout.kmalloc_enough_iff hinv.end_lt hsize hlt hrun).mpr (by omega)

/-- The blocks of a program, in a call of `malloc`. The list is empty when nothing was allocated
yet; then no header is found where the search begins. -/
structure Listed (h : KHeap) (times : SbrkTimes) (blocks : List ℕ) : Prop where
  head_eq : blocks ≠ [] → h.head = blocks.headD 0
  linked : Linked h.next h.prev 0 blocks 0
  pos : ∀ a ∈ blocks, 0 < a
  below : ∀ a ∈ blocks, ∀ i, a < times.rounds i
  magic_eq : ∀ a ∈ blocks, (h.hdr a).magic = mallocMagic
  length_lt : blocks.length < maxBlocks
  empty : blocks = [] → times.rounds 0 ≤ (firstTime h times.first).head ∨
    (h.hdr (firstTime h times.first).head).magic ≠ mallocMagic

/-- A free block of the list is large enough for the rounded request. -/
def HasBlock (h : KHeap) (blocks : List ℕ) (size : ℕ) : Prop :=
  ∃ c ∈ blocks, h.free c = true ∧ blockSize size ≤ h.size c

/-- `sbrk` refuses; or the request can be rounded up, and a header can be stored at the break that
`sbrk` returns. An increment that is negative or zero maps no page. -/
def SbrkServes (vm : Vm) (root programBreak size : ℕ) : Prop :=
  ∃ result ∈ sysSbrk vm root programBreak (toInt64 (totalReq size)),
    result.1 = sbrkFailed ∨ size ≤ 2 ^ 64 - 16 ∧ HeaderMapped result.2.2 root result.1

instance (vm : Vm) (root programBreak size : ℕ) :
    Decidable (SbrkServes vm root programBreak size) :=
  inferInstanceAs (Decidable (∃ result ∈ sysSbrk vm root programBreak (toInt64 (totalReq size)), _))

/-- The request is for nothing, or a block of the list serves it, or else `sbrk` does. -/
def MallocFits (h : KHeap) (blocks : List ℕ) (vm : Vm) (root programBreak size : ℕ) : Prop :=
  size = 0 ∨ HasBlock h blocks size ∧ size ≤ 2 ^ 64 - 16 ∨
    ¬HasBlock h blocks size ∧ SbrkServes vm root programBreak size

/-- The search ends at the first free block of the list that is large enough. -/
theorem Listed.findBlock (hlist : Listed h times blocks) (s : ℕ) :
    ∃ found last, findBlock (firstTime h times.first) times.rounds s maxBlocks 0
        (firstTime h times.first).head 0 = some (found, last) ∧
      (found ≠ 0 ↔ ∃ c ∈ blocks, h.free c = true ∧ s ≤ h.size c) := by
  have hfields : ∀ h : KHeap, ∀ brk, (firstTime h brk).hdr = h.hdr := fun h brk => by
    rw [firstTime]
    split_ifs <;> rfl
  have hhdr := hfields h times.first
  cases hblocks : blocks with
  | nil =>
    refine ⟨0, 0, ?_, iff_of_false (fun hne => hne rfl) (by simp)⟩
    have hrounds : maxBlocks = (2 ^ 64 - 1) + 1 := rfl
    rw [hrounds, Userspace.findBlock, hhdr]
    split_ifs with hend hmagic
    · rfl
    · rfl
    · exact absurd (hlist.empty hblocks)
        (not_or.mpr ⟨fun hle => hend (Or.inr hle), fun hne => hmagic hne⟩)
    · exact absurd (hlist.empty hblocks)
        (not_or.mpr ⟨fun hle => hend (Or.inr hle), fun hne => hmagic hne⟩)
  | cons a rest =>
    rw [← hblocks]
    have hsome : blocks ≠ [] := by simp [hblocks]
    have hhead : h.head ≠ 0 := by
      rw [hlist.head_eq hsome, hblocks]
      exact (hlist.pos a (by simp [hblocks])).ne'
    have hsame : firstTime h times.first = h := if_neg hhead
    obtain ⟨last, hfind, -⟩ := @Chain.findBlock_eq h blocks 0 s 0 maxBlocks 0 times.rounds
      hlist.linked hlist.pos hlist.below hlist.magic_eq hlist.length_lt
    rw [hsame, hlist.head_eq hsome]
    refine ⟨_, last, hfind, ?_⟩
    cases hfirst : blocks.find? fun c => h.free c && decide (s ≤ h.size c) with
    | none =>
      refine iff_of_false (fun hne => hne rfl) ?_
      rintro ⟨c, hc, hfree, hfit⟩
      have hnot := List.find?_eq_none.mp hfirst c hc
      simp [hfree, hfit] at hnot
    | some c =>
      have hmem := List.mem_of_find?_eq_some hfirst
      have htest := List.find?_some hfirst
      obtain ⟨hfree, hfit⟩ := Bool.and_eq_true_iff.mp htest
      exact iff_of_true (hlist.pos c hmem).ne' ⟨c, hmem, hfree, of_decide_eq_true hfit⟩

/-- A program is served just when the list or `sbrk` can serve it. -/
theorem mallocServes_iff (hlt : size < 2 ^ 64) (hlist : Listed h times blocks) :
    MallocServes h times vm root size ↔ MallocFits h blocks vm root times.last size := by
  by_cases hsize : size = 0
  · refine iff_of_true ⟨(none, h, vm), ?_, fun _ hnone => absurd hnone (Option.not_mem_none _)⟩
      (Or.inl hsize)
    rw [malloc, if_pos hsize]
    rfl
  obtain ⟨found, last, hfind, hfound⟩ := hlist.findBlock (blockSize size)
  have hrun : malloc h times vm root size = _ := if_neg hsize
  dsimp only at hrun
  rw [hfind, Option.bind_eq_bind, Option.bind_some] at hrun
  dsimp only at hrun
  rw [MallocFits, or_iff_right hsize]
  have hlarge : ∀ block h' vm', malloc h times vm root size = some (some block, h', vm') →
      (size ≤ h'.size block ↔ size ≤ 2 ^ 64 - 16) := fun _ _ _ => malloc_enough_iff hlt
  by_cases hblock : HasBlock h blocks size
  · rw [if_pos (hfound.mpr hblock)] at hrun
    rw [or_iff_left (fun hnot => hnot.1 hblock), and_iff_right hblock, ← hlarge _ _ _ hrun,
      MallocServes, hrun]
    simp
  · rw [if_neg (fun hne => hblock (hfound.mp hne))] at hrun
    rw [or_iff_right (fun hyes => hblock hyes.1), and_iff_right hblock, SbrkServes, MallocServes]
    cases hsbrk : sysSbrk vm root times.last (toInt64 (totalReq size)) with
    | none =>
      rw [hsbrk] at hrun
      rw [hrun]
      simp
    | some result =>
      obtain ⟨block, programBreak, vm₁⟩ := result
      rw [hsbrk, Option.bind_eq_bind, Option.bind_some] at hrun
      dsimp only at hrun
      split_ifs at hrun with hfailed hmapped
      · rw [hrun]
        simp [hfailed]
      · have henough := hlarge _ _ _ hrun
        rw [hrun]
        simp [hfailed, hmapped, henough]
      · rw [hrun]
        simp [hfailed, hmapped]

/-- For which sizes the two allocators return `NULL` or a block of at least that size. -/
theorem allocators_enough_iff (hlt : size < 2 ^ 64) :
    (∀ h : KHeap, h.Reached → (KmallocServes h size ↔ size ≤ 2 ^ 64 - 4144)) ∧
      ∀ h times blocks, Listed h times blocks → ∀ vm root,
        (MallocServes h times vm root size ↔ MallocFits h blocks vm root times.last size) :=
  ⟨fun _ hreached => kmallocServes_iff hreached hlt, fun _ _ _ hlist _ _ =>
    mallocServes_iff hlt hlist⟩

end Sizes

theorem sampleHeap_reached : sampleHeap.Reached := .init _ (Option.some_get _).symm

/-- A program that has allocated nothing, with its break at a page. -/
def emptyProgram : KHeap := ⟨fun _ => ⟨0, 0, false, 0, 0⟩, 0, 0x400000⟩

/-- The program break stays. -/
def sampleTimes : SbrkTimes := ⟨0x400000, fun _ => 0x400000, 0x400000⟩

theorem emptyProgram_listed : Listed emptyProgram sampleTimes [] where
  head_eq hne := absurd rfl hne
  linked := trivial
  pos := List.forall_mem_nil _
  below := List.forall_mem_nil _
  magic_eq := List.forall_mem_nil _
  length_lt := by decide
  empty _ := Or.inl (by decide)

/-- A request for all bytes of a word: `kmalloc` returns the first block of the heap, and `malloc` a
block of no bytes at the program break. -/
theorem allocators_give_nothing :
    (sampleHeap.kmalloc (2 ^ 64 - 1)).map (fun x => (x.1, decide (Gives (2 ^ 64 - 1) x.1 x.2))) =
        some (kheapStart + blockHeaderSize, false) ∧
      (malloc emptyProgram sampleTimes sampleVm 0x2000 (2 ^ 64 - 1)).map
          (fun x => (x.1, x.2.1.size 0x400000)) = some (some 0x400000, 0) := by
  decide +kernel

/-- The kernel and a program get blocks for a page. With 64 bytes less than a word can hold the
program asks `sbrk` for -24 bytes, and the header of its block lies where nothing is mapped. -/
theorem allocators_enough_iff_page :
    KmallocServes sampleHeap 4096 ∧ MallocServes emptyProgram sampleTimes sampleVm 0x2000 4096 ∧
      ¬KmallocServes sampleHeap (2 ^ 64 - 48) ∧
      ¬MallocServes emptyProgram sampleTimes sampleVm 0x2000 (2 ^ 64 - 64) := by
  obtain ⟨hkmalloc, hmalloc⟩ := @allocators_enough_iff 4096 (by decide)
  obtain ⟨hkmalloc', -⟩ := @allocators_enough_iff (2 ^ 64 - 48) (by decide)
  obtain ⟨-, hmalloc'⟩ := @allocators_enough_iff (2 ^ 64 - 64) (by decide)
  have hempty : ∀ size, ¬HasBlock emptyProgram [] size := fun _ ⟨_, hc, _⟩ =>
    absurd hc List.not_mem_nil
  refine ⟨(hkmalloc _ sampleHeap_reached).mpr (by decide),
    (hmalloc _ _ _ emptyProgram_listed _ _).mpr ?_,
    fun hserves => absurd ((hkmalloc' _ sampleHeap_reached).mp hserves) (by decide),
    fun hserves => ?_⟩
  · exact Or.inr (Or.inr ⟨hempty _, by decide +kernel⟩)
  · rcases (hmalloc' _ _ _ emptyProgram_listed _ _).mp hserves with hzero | hblock | hsbrk
    · exact absurd hzero (by decide)
    · exact hempty _ hblock.1
    · exact absurd hsbrk.2 (by decide +kernel)

end OpenIDP.Userspace
