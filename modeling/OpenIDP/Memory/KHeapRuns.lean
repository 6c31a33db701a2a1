import OpenIDP.Math.Reaches
import OpenIDP.Memory.KHeapLayout

/-!
# The kernel heap over whole runs

Clients call `kmalloc`, `kfree` and `krealloc` in any order. What they hold is recorded
next to the heap, and the list of blocks is compared with it: the used blocks are the
live allocations, whatever the order of the calls.

## Main definitions

* `HeapState`, `HeapCall`, `HeapState.step` — the heap, what its clients hold, and the calls
* `HeapStep` — a call with live pointers and a size that does not wrap
* `Intact` — blocks and live allocations agree

## Main results

* `Layout.kmalloc`, `Layout.kfree` — what the two calls do to the used blocks
* `HeapState.Sound.step` — every call ends and keeps the heap sound
* `kheap_runs_intact` — the account of whole runs
-/

namespace OpenIDP.Memory

open OpenIDP.Math

namespace KHeap

variable {h h' : KHeap} {blocks xs ys : List ℕ} {a b c s size : ℕ}

/-! ## One call -/

/-- The sizes `kmalloc` computes from the request do not wrap. -/
def Fits (size : ℕ) : Prop :=
  size + heapAlignment ≤ 2 ^ 64 ∧
    alignUp size heapAlignment + blockHeaderSize + pageSize ≤ 2 ^ 64

instance (size : ℕ) : Decidable (Fits size) := inferInstanceAs (Decidable (_ ∧ _))

/-- `kmalloc` finds no free block for the request and has to grow the heap. -/
def Grows (h : KHeap) (size : ℕ) : Prop :=
  size ≠ 0 ∧ h.firstFit (alignUp size heapAlignment) = some 0

/-- The end of the heap after it has grown for a request. -/
def grownEnd (h : KHeap) (size : ℕ) : ℕ :=
  h.heapEnd + alignUp (alignUp size heapAlignment + blockHeaderSize) pageSize

theorem le_alignUp_heapAlignment (hfits : Fits size) : size ≤ alignUp size heapAlignment := by
  have heq : alignUp size heapAlignment = wrap (size + 2 ^ 4 - 1) / 2 ^ 4 * 2 ^ 4 :=
    alignUp_eq (k := 4) (by decide) size
  have hlt := hfits.1
  rw [heapAlignment] at hlt
  rw [heq, wrap_of_lt (by omega)]
  omega

theorem le_alignUp_pageSize (hs : s + pageSize ≤ 2 ^ 64) : s ≤ alignUp s pageSize := by
  have heq : alignUp s pageSize = wrap (s + 2 ^ 12 - 1) / 2 ^ 12 * 2 ^ 12 :=
    alignUp_eq (k := 12) (by decide) s
  rw [pageSize] at hs
  rw [heq, wrap_of_lt (by omega)]
  omega

/-- What `kmalloc` does to the used blocks: it adds one, large enough for the request. -/
structure Grants (h : KHeap) (blocks : List ℕ) (size a : ℕ) (h' : KHeap)
    (blocks' : List ℕ) : Prop where
  layout : h'.Layout blocks'
  separated : h'.Separated blocks'
  fresh : ¬ (a ∈ blocks ∧ h.free a = false)
  enough : size ≤ h'.size a
  used_iff : ∀ c, c ∈ blocks' ∧ h'.free c = false ↔ c = a ∨ c ∈ blocks ∧ h.free c = false
  size_eq : ∀ c ∈ blocks, h.free c = false → h'.size c = h.size c
  end_le : h.heapEnd ≤ h'.heapEnd

/-- Using a free block makes no two free neighbours. -/
theorem Separated.setFree_false (hsep : h.Separated blocks) (a : ℕ) :
    (h.setFree a false).Separated blocks := by
  refine hsep.imp fun c d hnot hboth => hnot ?_
  simp only [free_setFree] at hboth
  constructor
  · by_contra hc
    simp [hc] at hboth
  · by_contra hd
    simp [hd] at hboth

/-- `kmalloc` takes a free block whole. -/
theorem Layout.grants_whole (hl : h.Layout (xs ++ a :: ys))
    (hsep : h.Separated (xs ++ a :: ys)) (hfree : h.free a = true) (hsize : s ≤ h.size a) :
    Grants h (xs ++ a :: ys) s a (h.setFree a false) (xs ++ a :: ys) where
  layout := hl.setFree false
  separated := hsep.setFree_false a
  fresh hused := by simp [hfree] at hused
  enough := by rwa [size_setFree]
  used_iff c := by
    rw [free_setFree]
    by_cases hc : c = a
    · simp [hc]
    · simp [hc]
  size_eq c _ _ := size_setFree
  end_le := le_rfl

/-- `kmalloc` splits a free block that is larger than it needs. -/
theorem Layout.grants_split (hl : h.Layout (xs ++ a :: ys))
    (hsep : h.Separated (xs ++ a :: ys)) (hfree : h.free a = true)
    (hsize : s + blockHeaderSize + minSplit ≤ h.size a) :
    Grants h (xs ++ a :: ys) s a ((h.splitBlock a s).setFree a false)
      (xs ++ a :: (a + blockHeaderSize + s) :: ys) := by
  have hheader : blockHeaderSize = 40 := rfl
  have ha : a ∈ xs ++ a :: ys := by simp
  have hfresh : a + blockHeaderSize + s ∉ xs ++ a :: ys :=
    hl.notMem_of_inside ha ⟨by omega, by omega⟩
  obtain ⟨hl', hsize', hfree'⟩ := hl.splitBlock hsize
  have hne : ∀ c ∈ xs ++ a :: ys, c ≠ a + blockHeaderSize + s := fun c hc e => hfresh (e ▸ hc)
  have hother : ∀ c ∈ xs ++ a :: ys, (h.splitBlock a s).free c = h.free c := by
    intro c hc
    rw [hfree', if_neg (hne c hc)]
  have hend : ((h.splitBlock a s).setFree a false).heapEnd = h.heapEnd :=
    splitBlock_heapEnd
  refine ⟨hl'.setFree false, ?_, fun hused => by simp [hfree] at hused, ?_, fun c => ?_, ?_,
    hend.ge⟩
  · -- the rest of the block is free; what follows it is used, because the block was free
    have hchain := List.isChain_split.mp hsep
    refine List.isChain_split.mpr ⟨?_, List.isChain_cons_cons.mpr ⟨?_, ?_⟩⟩
    · refine Separated.setFree_false (Separated.congr hchain.1 fun c hc => hother c ?_) a
      rw [List.mem_append, List.mem_singleton] at hc
      rw [List.mem_append, List.mem_cons]
      exact hc.imp_right Or.inl
    · simp
    · cases ys with
      | nil => exact .singleton _
      | cons y ys =>
        obtain ⟨hay, hys⟩ := List.isChain_cons_cons.mp hchain.2
        refine List.isChain_cons_cons.mpr ⟨fun hboth => hay ⟨hfree, ?_⟩, ?_⟩
        · have hya : y ≠ a := hl.ne_of_mem (by simp)
          have hy := hboth.2
          rwa [free_setFree, if_neg hya, hother y (by simp)] at hy
        · exact Separated.setFree_false (Separated.congr hys fun c hc => hother c (by
            rw [List.mem_append, List.mem_cons]
            exact Or.inr (Or.inr hc))) a
  · rw [size_setFree, hsize', if_pos rfl]
  · rw [free_setFree, hfree']
    -- The one taken and the rest of it apart, every block is as before.
    by_cases hca : c = a
    · simp [hca]
    · by_cases hcb : c = a + blockHeaderSize + s
      · rw [hcb] at hca ⊢
        rw [if_neg hca, if_pos rfl]
        constructor
        · rintro ⟨-, hfalse⟩
          exact Bool.noConfusion hfalse
        · rintro (heq | ⟨hmem, -⟩)
          · exact absurd heq hca
          · exact absurd hmem hfresh
      · simp [hca, hcb]
  · intro c hc hused
    have hca : c ≠ a := fun e => by simp [e, hfree] at hused
    rw [size_setFree, hsize', if_neg hca, if_neg (hne c hc)]

/-- `kmalloc` grows the heap and takes the new block whole. -/
theorem Layout.grants_grow (hl : h.Layout (xs ++ [a])) (hsep : h.Separated (xs ++ [a]))
    (hheader : blockHeaderSize ≤ alignUp s pageSize)
    (hroom : h.heapEnd + alignUp s pageSize < 2 ^ 64) :
    ∃ h', h.heapExpand s = some h' ∧ h'.getLastBlock = some h.heapEnd ∧
      Grants h (xs ++ [a]) (alignUp s pageSize - blockHeaderSize) h.heapEnd
        (h'.setFree h.heapEnd false) (xs ++ [a, h.heapEnd]) ∧
      h'.heapEnd = h.heapEnd + alignUp s pageSize := by
  obtain ⟨h', hrun, hl', hsize', hfree', hend'⟩ := hl.heapExpand hroom hheader
  have hfresh : ∀ c ∈ xs ++ [a], c ≠ h.heapEnd := by
    rintro c hc rfl
    have hbounds := hl.bounds hc
    rw [blockHeaderSize] at hbounds
    omega
  have hcut : xs ++ [a, h.heapEnd] = xs ++ [a] ++ [h.heapEnd] := by simp
  refine ⟨h', hrun, ?_, ⟨hl'.setFree false, ?_, ?_, ?_, fun c => ?_, fun c hc _ => ?_, ?_⟩, hend'⟩
  · rw [hl'.getLastBlock_eq, hcut, List.getLastD_concat]
  · rw [hcut]
    refine List.isChain_append.mpr ⟨?_, .singleton _, fun c _ d hd hboth => ?_⟩
    · refine Separated.setFree_false (hsep.congr fun c hc => ?_) _
      rw [hfree', if_neg (hfresh c hc)]
    · obtain rfl : h.heapEnd = d := by simpa using hd
      simp at hboth
  · exact fun hused => hfresh _ hused.1 rfl
  · rw [size_setFree, hsize', if_pos rfl]
  · rw [free_setFree, hfree', hcut]
    by_cases hc : c = h.heapEnd
    · simp [hc]
    · simp [hc]
  · rw [size_setFree, hsize', if_neg (hfresh c hc)]
  · change h.heapEnd ≤ h'.heapEnd
    omega

theorem Grants.mono {blocks' : List ℕ} (hg : Grants h blocks s a h' blocks') (hle : size ≤ s) :
    Grants h blocks size a h' blocks' :=
  { hg with enough := hle.trans hg.enough }

/-- `kmalloc` returns the payload of a block it has made used. -/
theorem Layout.kmalloc (hl : h.Layout blocks) (hsep : h.Separated blocks)
    (hstart : kheapStart < h.heapEnd) (hsize : size ≠ 0) (hfits : Fits size)
    (hroom : h.Grows size → h.grownEnd size < 2 ^ 64) :
    ∃ h' blocks' a, h.kmalloc size = some (a + blockHeaderSize, h') ∧
      Grants h blocks size a h' blocks' := by
  have hle := le_alignUp_heapAlignment hfits
  have hheader : blockHeaderSize = 40 := rfl
  have hmin : minSplit = 32 := rfl
  have hpage : pageSize = 4096 := rfl
  have hfits' := hfits.2
  rw [KHeap.kmalloc, if_neg hsize]
  simp only [hl.firstFit_eq, Option.bind_eq_bind, Option.bind_some]
  cases hfind : blocks.find? fun curr =>
      h.free curr && decide (h.size curr ≥ alignUp size heapAlignment) with
  | some a =>
    obtain ⟨htest, xs, ys, rfl, -⟩ := List.find?_eq_some_iff_append.mp hfind
    obtain ⟨hfree, hfit⟩ := Bool.and_eq_true_iff.mp htest
    have hfit := of_decide_eq_true hfit
    have hmem : a ∈ xs ++ a :: ys := by simp
    have hbounds := hl.bounds hmem
    have hend := hl.end_lt
    rw [Option.getD_some, if_pos (hl.ne_zero a hmem), wrap_of_lt (by omega)]
    by_cases hsplit : alignUp size heapAlignment + blockHeaderSize + minSplit ≤ h.size a
    · exact ⟨_, _, a, rfl, (hl.grants_split hsep hfree hsplit).mono hle⟩
    · have hwhole : h.splitBlock a (alignUp size heapAlignment) = h := by
        rw [KHeap.splitBlock, if_pos]
        rw [wrap_of_lt (by omega)]
        omega
      rw [hwhole]
      exact ⟨_, _, a, rfl, (hl.grants_whole hsep hfree hfit).mono hle⟩
  | none =>
    have hgrows : h.Grows size := ⟨hsize, by rw [hl.firstFit_eq, hfind, Option.getD_none]⟩
    have hend := hroom hgrows
    rw [Option.getD_none, if_neg (not_not_intro rfl), wrap_of_lt (by omega)]
    cases blocks using List.reverseRecOn with
    | nil => exact absurd hl.tiles (Nat.ne_of_lt hstart)
    | append_singleton xs z =>
      have hgrown := le_alignUp_pageSize (s := alignUp size heapAlignment + blockHeaderSize)
        (by omega)
      obtain ⟨h', hrun, hlast, hg, -⟩ := hl.grants_grow hsep (by omega) hend
      have hbounds := hg.layout.bounds (a := h.heapEnd) (by simp)
      have hend' := hg.layout.end_lt
      simp only [hrun, Option.bind_some, hlast]
      rw [wrap_of_lt (by omega)]
      exact ⟨_, _, h.heapEnd, rfl, hg.mono (by omega)⟩

/-- `kfree` takes one block away from the used ones. -/
theorem Layout.kfree (hl : h.Layout blocks) (hsep : h.Separated blocks) (ha : a ∈ blocks) :
    ∃ h' blocks', h.kfree (a + blockHeaderSize) = some h' ∧ h'.Layout blocks' ∧
      h'.Separated blocks' ∧
      (∀ c, c ∈ blocks' ∧ h'.free c = false ↔ c ≠ a ∧ c ∈ blocks ∧ h.free c = false) ∧
      (∀ c, c ≠ a → h.free c = false → h'.size c = h.size c) ∧
      h'.heapEnd = h.heapEnd := by
  have hbounds := hl.bounds ha
  have hend := hl.end_lt
  have hheader : blockHeaderSize = 40 := rfl
  have hblock : sub64 (a + blockHeaderSize) blockHeaderSize = a := by
    rw [sub64_of_le (by omega) (by omega)]
    omega
  obtain ⟨xs, ys, rfl⟩ := List.append_of_mem ha
  have hfree : ∀ c ∈ xs ++ ys, (h.setFree a true).free c = h.free c := by
    intro c hc
    rw [free_setFree, if_neg (hl.ne_of_mem hc)]
  have hxs : (h.setFree a true).Separated xs :=
    (Separated.congr (List.isChain_append.mp hsep).1) fun c hc =>
      hfree c (List.mem_append_left _ hc)
  have hys : (h.setFree a true).Separated ys :=
    (Separated.congr (List.isChain_append.mp hsep).2.1.tail) fun c hc =>
      hfree c (List.mem_append_right _ hc)
  obtain ⟨h', blocks', hrun, hl', hsep', hkeep⟩ :=
    (hl.setFree true).coalesce (free_setFree.trans (if_pos rfl)) hxs hys (2 ^ 64 - 2)
  refine ⟨h', blocks', ?_, hl', hsep', fun c => ?_, fun c hc hc' => ?_, hkeep.end_eq⟩
  · have hmagic : ¬ (h.hdr a).magic ≠ heapMagic := not_not_intro (hl.magic_eq a ha)
    rw [KHeap.kfree, if_neg (by omega)]
    simp only [hblock]
    rw [if_neg hmagic]
    exact hrun
  · rw [hkeep.used_iff, free_setFree]
    by_cases hc : c = a <;> simp [hc]
  · rw [hkeep.size_eq c, size_setFree]
    rw [free_setFree, if_neg hc, hc']

end KHeap

/-! ## Runs -/

/-- What a client holds: the pointer it was given and the size it asked for. -/
structure Allocation where
  ptr : ℕ
  size : ℕ

/-- The heap and the live allocations. -/
structure HeapState where
  heap : KHeap
  live : List Allocation

/-- A call of one of the three functions. -/
inductive HeapCall
  | kmalloc (size : ℕ)
  | kfree (ptr : ℕ)
  | krealloc (ptr size : ℕ)

/-- Records what `kmalloc` returned, if it is not `NULL`. -/
def grant (live : List Allocation) (ptr size : ℕ) : List Allocation :=
  if ptr = 0 then live else ⟨ptr, size⟩ :: live

/-- Forgets an allocation. -/
def revoke (live : List Allocation) (ptr : ℕ) : List Allocation :=
  live.filter (·.ptr ≠ ptr)

/-- A call, with what it changes for the clients. A `krealloc` that fails leaves the
old allocation as it is. -/
def HeapState.step (s : HeapState) : HeapCall → Option HeapState
  | .kmalloc size => do
    let (ptr, heap) ← s.heap.kmalloc size
    some ⟨heap, grant s.live ptr size⟩
  | .kfree ptr => do
    let heap ← s.heap.kfree ptr
    some ⟨heap, revoke s.live ptr⟩
  | .krealloc ptr size => do
    let (newptr, heap) ← s.heap.krealloc ptr size
    if size ≠ 0 ∧ newptr = 0 then
      some ⟨heap, s.live⟩
    else
      some ⟨heap, grant (revoke s.live ptr) newptr size⟩

/-- The pointer is `NULL` or that of a live allocation. -/
def HeapState.Live (s : HeapState) (ptr : ℕ) : Prop :=
  ptr = 0 ∨ ∃ l ∈ s.live, l.ptr = ptr

/-- The size for which a call makes the heap grow, if it does. -/
def HeapCall.Grows (h : KHeap) : HeapCall → ℕ → Prop
  | .kmalloc size, grown => grown = size ∧ h.Grows size
  | .kfree _, _ => False
  | .krealloc ptr size, grown =>
    grown = size ∧ (ptr = 0 ∨ h.size (sub64 ptr blockHeaderSize) < size) ∧ h.Grows size

/-- Only live pointers are passed, and sizes do not wrap. -/
def HeapCall.Legal (s : HeapState) : HeapCall → Prop
  | .kmalloc size => KHeap.Fits size
  | .kfree ptr => s.Live ptr
  | .krealloc ptr size => s.Live ptr ∧ KHeap.Fits size

/-- If the call makes the heap grow, its new end lies below the end of the address
space. -/
def HeapCall.HasRoom (h : KHeap) (call : HeapCall) : Prop :=
  ∀ size, call.Grows h size → h.grownEnd size < 2 ^ 64

/-- A legal call, while the address space has room for the heap. -/
def HeapStep (s : HeapState) (call : HeapCall) (s' : HeapState) : Prop :=
  call.Legal s ∧ call.HasRoom s.heap ∧ s.step call = some s'

/-- Blocks and live allocations agree. The payload of a block is what its size field
says; it has at least the bytes its client asked for. -/
structure Intact (h : KHeap) (live : List Allocation) (blocks : List ℕ) : Prop where
  head_eq : h.head = blocks.headD 0
  linked : Linked h.next h.prev 0 blocks 0
  tiles : Tiles (fun block => blockHeaderSize + h.size block) kheapStart blocks h.heapEnd
  separated : h.Separated blocks
  used_iff : ∀ ptr, (∃ block, block + blockHeaderSize = ptr ∧ block ∈ blocks ∧
    h.free block = false) ↔ ∃ l ∈ live, l.ptr = ptr
  nodup : (live.map Allocation.ptr).Nodup
  enough : ∀ l ∈ live, l.size ≤ h.size (l.ptr - blockHeaderSize)
  payloads_apart : live.Pairwise fun l l' =>
    l.ptr + h.size (l.ptr - blockHeaderSize) ≤ l'.ptr ∨
      l'.ptr + h.size (l'.ptr - blockHeaderSize) ≤ l.ptr
  headers_apart : ∀ l ∈ live, ∀ block ∈ blocks,
    block + blockHeaderSize ≤ l.ptr ∨ l.ptr + h.size (l.ptr - blockHeaderSize) ≤ block

/-- What every call keeps. -/
structure HeapState.Sound (s : HeapState) (blocks : List ℕ) : Prop where
  layout : s.heap.Layout blocks
  separated : s.heap.Separated blocks
  start_lt : kheapStart < s.heap.heapEnd
  used_iff : ∀ ptr, (∃ block, block + blockHeaderSize = ptr ∧ block ∈ blocks ∧
    s.heap.free block = false) ↔ ∃ l ∈ s.live, l.ptr = ptr
  nodup : (s.live.map Allocation.ptr).Nodup
  enough : ∀ l ∈ s.live, l.size ≤ s.heap.size (l.ptr - blockHeaderSize)

section Runs

variable {s s' : HeapState} {call : HeapCall} {blocks : List ℕ} {size ptr : ℕ}

/-- The block a live allocation lies in. -/
theorem HeapState.Sound.block (hs : s.Sound blocks) {l : Allocation} (hl : l ∈ s.live) :
    l.ptr - blockHeaderSize ∈ blocks ∧ s.heap.free (l.ptr - blockHeaderSize) = false ∧
      l.ptr - blockHeaderSize + blockHeaderSize = l.ptr := by
  obtain ⟨block, hptr, hmem, hfree⟩ := (hs.used_iff l.ptr).mpr ⟨l, hl, rfl⟩
  have hblock : l.ptr - blockHeaderSize = block := by omega
  rw [hblock]
  exact ⟨hmem, hfree, hptr⟩

theorem HeapState.Sound.ptr_ne_zero (hs : s.Sound blocks) {l : Allocation} (hl : l ∈ s.live) :
    l.ptr ≠ 0 := by
  have hblock := (hs.block hl).2.2
  rw [blockHeaderSize] at hblock
  omega

theorem HeapState.Sound.revoke_zero (hs : s.Sound blocks) : revoke s.live 0 = s.live :=
  List.filter_eq_self.mpr fun l hl => by simpa using hs.ptr_ne_zero hl

theorem HeapState.Sound.intact (hs : s.Sound blocks) : Intact s.heap s.live blocks where
  head_eq := hs.layout.head_eq
  linked := hs.layout.linked
  tiles := hs.layout.tiles
  separated := hs.separated
  used_iff := hs.used_iff
  nodup := hs.nodup
  enough := hs.enough
  payloads_apart := by
    have hnodup : s.live.Pairwise fun l l' => l.ptr ≠ l'.ptr := List.pairwise_map.mp hs.nodup
    refine hnodup.imp_of_mem fun {l l'} hl hl' hne => ?_
    obtain ⟨hmem, -, hptr⟩ := hs.block hl
    obtain ⟨hmem', -, hptr'⟩ := hs.block hl'
    have hapart := hs.layout.apart hmem hmem' (by omega)
    omega
  headers_apart := by
    intro l hl block hblock
    obtain ⟨hmem, -, hptr⟩ := hs.block hl
    by_cases hsame : l.ptr - blockHeaderSize = block
    · omega
    · have hapart := hs.layout.apart hmem hblock hsame
      omega

theorem HeapState.Sound.kmalloc (hs : s.Sound blocks) (hsize : size ≠ 0)
    (hfits : KHeap.Fits size) (hroom : s.heap.Grows size → s.heap.grownEnd size < 2 ^ 64) :
    ∃ newptr heap blocks', s.heap.kmalloc size = some (newptr, heap) ∧ newptr ≠ 0 ∧
      (∀ l ∈ s.live, l.ptr ≠ newptr) ∧
      HeapState.Sound ⟨heap, ⟨newptr, size⟩ :: s.live⟩ blocks' := by
  obtain ⟨heap, blocks', a, hrun, hg⟩ :=
    hs.layout.kmalloc hs.separated hs.start_lt hsize hfits hroom
  have hfresh : ∀ l ∈ s.live, l.ptr ≠ a + blockHeaderSize := by
    intro l hl hptr
    obtain ⟨hmem, hfree, -⟩ := hs.block hl
    rw [hptr, Nat.add_sub_cancel] at hmem hfree
    exact hg.fresh ⟨hmem, hfree⟩
  refine ⟨_, heap, blocks', hrun, by rw [blockHeaderSize]; omega, hfresh, hg.layout,
    hg.separated, hs.start_lt.trans_le hg.end_le, fun ptr => ?_, ?_, fun l hl => ?_⟩
  · simp only [hg.used_iff, List.exists_mem_cons_iff, ← hs.used_iff ptr]
    constructor
    · rintro ⟨block, hptr, rfl | hused⟩
      · exact Or.inl hptr
      · exact Or.inr ⟨block, hptr, hused⟩
    · rintro (hptr | ⟨block, hptr, hused⟩)
      · exact ⟨a, hptr, Or.inl rfl⟩
      · exact ⟨block, hptr, Or.inr hused⟩
  · refine List.nodup_cons.mpr ⟨fun hmem => ?_, hs.nodup⟩
    obtain ⟨l, hl, hptr⟩ := List.mem_map.mp hmem
    exact hfresh l hl hptr
  · rcases List.mem_cons.mp hl with rfl | hl
    · rw [Nat.add_sub_cancel]
      exact hg.enough
    · obtain ⟨hmem, hfree, -⟩ := hs.block hl
      change l.size ≤ heap.size _
      rw [hg.size_eq _ hmem hfree]
      exact hs.enough l hl

theorem HeapState.Sound.kfree (hs : s.Sound blocks) (hptr : s.Live ptr) :
    ∃ heap blocks', s.heap.kfree ptr = some heap ∧
      HeapState.Sound ⟨heap, revoke s.live ptr⟩ blocks' := by
  rcases hptr with rfl | ⟨l₀, hl₀, rfl⟩
  · exact ⟨s.heap, blocks, if_pos rfl, hs.revoke_zero.symm ▸ hs⟩
  · obtain ⟨hmem₀, -, hptr₀⟩ := hs.block hl₀
    obtain ⟨heap, blocks', hrun, hlayout, hsep, hused, hsize, hend⟩ :=
      hs.layout.kfree hs.separated hmem₀
    rw [hptr₀] at hrun
    refine ⟨heap, blocks', hrun, hlayout, hsep, hend ▸ hs.start_lt, fun ptr => ?_, ?_,
      fun l hl => ?_⟩
    · simp only [hused, revoke, List.mem_filter, decide_eq_true_eq]
      constructor
      · rintro ⟨block, hptr, hne, hblock⟩
        obtain ⟨l, hl, hlptr⟩ := (hs.used_iff ptr).mp ⟨block, hptr, hblock⟩
        exact ⟨l, ⟨hl, by omega⟩, hlptr⟩
      · rintro ⟨l, ⟨hl, hne⟩, hlptr⟩
        obtain ⟨block, hptr, hblock⟩ := (hs.used_iff ptr).mpr ⟨l, hl, hlptr⟩
        exact ⟨block, hptr, by omega, hblock⟩
    · exact hs.nodup.sublist (List.filter_sublist.map Allocation.ptr)
    · obtain ⟨hl, hne⟩ := List.mem_filter.mp hl
      have hne := of_decide_eq_true hne
      obtain ⟨-, hfree, hptr⟩ := hs.block hl
      change l.size ≤ heap.size _
      rw [hsize _ (by omega) hfree]
      exact hs.enough l hl

/-- With nothing live all blocks are free, and free neighbours do not occur. -/
theorem HeapState.Sound.one_block (hs : s.Sound blocks) (hlive : s.live = []) :
    blocks = [kheapStart] ∧ s.heap.free kheapStart = true ∧
      kheapStart + blockHeaderSize + s.heap.size kheapStart = s.heap.heapEnd := by
  have hfree : ∀ block ∈ blocks, s.heap.free block = true := by
    intro block hmem
    by_contra hused
    obtain ⟨l, hl, -⟩ := (hs.used_iff _).mp ⟨block, rfl, hmem, by simpa using hused⟩
    rw [hlive] at hl
    cases hl
  have htiles := hs.layout.tiles
  match blocks, hs with
  | [], hs => exact absurd htiles (Nat.ne_of_lt hs.start_lt)
  | [block], hs =>
    obtain ⟨rfl, hend⟩ := htiles
    refine ⟨rfl, hfree _ List.mem_cons_self, ?_⟩
    rw [Nat.add_assoc]
    exact hend
  | a :: b :: rest, hs =>
    have hab := (List.isChain_cons_cons.mp hs.separated).1
    exact absurd ⟨hfree a (by simp), hfree b (by simp)⟩ hab

/-- `krealloc` to a size the block already has. -/
theorem HeapState.Sound.resize (hs : s.Sound blocks) {l₀ : Allocation} (hl₀ : l₀ ∈ s.live)
    (hsize : size ≤ s.heap.size (l₀.ptr - blockHeaderSize)) :
    HeapState.Sound ⟨s.heap, ⟨l₀.ptr, size⟩ :: revoke s.live l₀.ptr⟩ blocks := by
  refine ⟨hs.layout, hs.separated, hs.start_lt, fun ptr => ?_, ?_, fun l hl => ?_⟩
  · rw [hs.used_iff ptr, List.exists_mem_cons_iff]
    constructor
    · rintro ⟨l, hl, hptr⟩
      by_cases hsame : l.ptr = l₀.ptr
      · exact Or.inl (hsame.symm.trans hptr)
      · exact Or.inr ⟨l, List.mem_filter.mpr ⟨hl, decide_eq_true hsame⟩, hptr⟩
    · rintro (hptr | ⟨l, hl, hptr⟩)
      · exact ⟨l₀, hl₀, hptr⟩
      · exact ⟨l, (List.mem_filter.mp hl).1, hptr⟩
  · refine List.nodup_cons.mpr ⟨fun hmem => ?_, ?_⟩
    · obtain ⟨l, hl, hptr⟩ := List.mem_map.mp hmem
      exact of_decide_eq_true (List.mem_filter.mp hl).2 hptr
    · exact hs.nodup.sublist (List.filter_sublist.map Allocation.ptr)
  · rcases List.mem_cons.mp hl with rfl | hl
    · exact hsize
    · exact hs.enough l (List.mem_filter.mp hl).1

/-- `krealloc` of a pointer that is not `NULL` to a larger size: a `kmalloc` and then a
`kfree`. -/
theorem HeapState.Sound.move (hs : s.Sound blocks) (hlive : s.Live ptr) (hsize : size ≠ 0)
    (hfits : KHeap.Fits size) (hroom : s.heap.Grows size → s.heap.grownEnd size < 2 ^ 64) :
    ∃ newptr heap₁ heap blocks', s.heap.kmalloc size = some (newptr, heap₁) ∧ newptr ≠ 0 ∧
      heap₁.kfree ptr = some heap ∧
      HeapState.Sound ⟨heap, ⟨newptr, size⟩ :: revoke s.live ptr⟩ blocks' := by
  obtain ⟨newptr, heap₁, blocks₁, hrun, hne, hfresh, hs₁⟩ := hs.kmalloc hsize hfits hroom
  have hlive₁ : HeapState.Live ⟨heap₁, ⟨newptr, size⟩ :: s.live⟩ ptr :=
    hlive.imp_right fun ⟨l, hl, hptr⟩ => ⟨l, List.mem_cons_of_mem _ hl, hptr⟩
  obtain ⟨heap, blocks', hfree, hs'⟩ := hs₁.kfree hlive₁
  have hother : newptr ≠ ptr := by
    rintro rfl
    rcases hlive with hzero | ⟨l, hl, hptr⟩
    · exact hne hzero
    · exact hfresh l hl hptr
  refine ⟨newptr, heap₁, heap, blocks', hrun, hne, hfree, ?_⟩
  have hrevoke : revoke (⟨newptr, size⟩ :: s.live) ptr =
      ⟨newptr, size⟩ :: revoke s.live ptr :=
    List.filter_cons_of_pos (decide_eq_true hother)
  rwa [hrevoke] at hs'

/-- Every legal call ends and keeps the heap sound. -/
theorem HeapState.Sound.step (hs : s.Sound blocks) (hlegal : call.Legal s)
    (hroom : call.HasRoom s.heap) :
    ∃ s' blocks', s.step call = some s' ∧ s'.Sound blocks' := by
  cases call with
  | kmalloc size =>
    by_cases hsize : size = 0
    · subst hsize
      exact ⟨s, blocks, rfl, hs⟩
    · obtain ⟨newptr, heap, blocks', hrun, hne, -, hs'⟩ :=
        hs.kmalloc hsize hlegal fun hgrows => hroom size ⟨rfl, hgrows⟩
      refine ⟨_, blocks', ?_, hs'⟩
      simp only [HeapState.step, hrun, Option.bind_eq_bind, Option.bind_some, grant, if_neg hne]
  | kfree ptr =>
    obtain ⟨heap, blocks', hrun, hs'⟩ := hs.kfree hlegal
    refine ⟨_, blocks', ?_, hs'⟩
    simp only [HeapState.step, hrun, Option.bind_eq_bind, Option.bind_some]
  -- `krealloc` of null is `kmalloc`, of size 0 `kfree`; else it stays or moves.
  | krealloc ptr size =>
    obtain ⟨hlive, hfits⟩ := hlegal
    simp only [HeapState.step, KHeap.krealloc, Option.bind_eq_bind]
    by_cases hptr : ptr = 0
    · subst hptr
      rw [if_pos rfl]
      by_cases hsize : size = 0
      · subst hsize
        refine ⟨s, blocks, ?_, hs⟩
        simp [KHeap.kmalloc, grant, hs.revoke_zero]
      · obtain ⟨newptr, heap, blocks', hrun, hne, -, hs'⟩ :=
          hs.kmalloc hsize hfits fun hgrows => hroom size ⟨rfl, Or.inl rfl, hgrows⟩
        refine ⟨_, blocks', ?_, hs'⟩
        simp [hrun, hne, grant, hs.revoke_zero]
    · rw [if_neg hptr]
      by_cases hsize : size = 0
      · subst hsize
        obtain ⟨heap, blocks', hrun, hs'⟩ := hs.kfree hlive
        refine ⟨_, blocks', ?_, hs'⟩
        simp [hrun, grant]
      · rw [if_neg hsize]
        obtain ⟨l₀, hl₀, rfl⟩ := hlive.resolve_left hptr
        have hblock : sub64 l₀.ptr blockHeaderSize = l₀.ptr - blockHeaderSize := by
          obtain ⟨hmem, -, hback⟩ := hs.block hl₀
          have hbounds := hs.layout.bounds hmem
          have hend := hs.layout.end_lt
          exact sub64_of_le (by omega) (by omega)
        simp only [hblock]
        by_cases hfit : s.heap.size (l₀.ptr - blockHeaderSize) ≥ size
        · refine ⟨_, blocks, ?_, hs.resize hl₀ hfit⟩
          simp [hfit, hptr, grant]
        · obtain ⟨newptr, heap₁, heap, blocks', hrun, hne, hfree, hs'⟩ :=
            hs.move (Or.inr ⟨l₀, hl₀, rfl⟩) hsize hfits fun hgrows =>
              hroom size ⟨rfl, Or.inr (by rw [hblock]; omega), hgrows⟩
          refine ⟨_, blocks', ?_, hs'⟩
          simp [hfit, hrun, hne, hfree, grant]

/-- **Integrity of the kernel heap.** After `heap_init`, and after every sequence of
legal calls for which the address space has room, the blocks tile the heap, are linked
both ways, and the used ones are the live allocations; the next legal call ends; and
with nothing live the heap is one free block. -/
theorem kheap_runs_intact (hdr : ℕ → HeapBlock) :
    ∃ h₀, KHeap.heapInit hdr = some h₀ ∧
      ∀ history s, Reaches HeapStep ⟨h₀, []⟩ history s →
        ∃ blocks, Intact s.heap s.live blocks ∧
          (∀ call : HeapCall, call.Legal s → call.HasRoom s.heap → (s.step call).isSome) ∧
          (s.live = [] → blocks = [kheapStart] ∧ s.heap.free kheapStart = true ∧
            kheapStart + blockHeaderSize + s.heap.size kheapStart = s.heap.heapEnd) := by
  obtain ⟨h₀, hinit, hlayout, hfree⟩ := KHeap.heapInit_layout hdr
  have hstart : HeapState.Sound ⟨h₀, []⟩ [kheapStart] := by
    have hbounds := hlayout.bounds List.mem_cons_self
    refine ⟨hlayout, .singleton _, ?_, fun ptr => ?_, .nil, fun l hl => by cases hl⟩
    · rw [blockHeaderSize] at hbounds
      change kheapStart < h₀.heapEnd
      omega
    · constructor
      · rintro ⟨block, -, hmem, hused⟩
        rw [List.mem_singleton.mp hmem, hfree] at hused
        exact Bool.noConfusion hused
      · rintro ⟨l, hl, -⟩
        cases hl
  refine ⟨h₀, hinit, fun history s run => ?_⟩
  obtain ⟨blocks, hs⟩ : ∃ blocks, s.Sound blocks := by
    refine run.invariant_state (I := fun s => ∃ blocks, HeapState.Sound s blocks)
      ⟨_, hstart⟩ ?_
    rintro s call s' ⟨blocks, hs⟩ ⟨hlegal, hroom, hstep⟩
    obtain ⟨t, blocks', ht, hsound⟩ := hs.step hlegal hroom
    rw [hstep] at ht
    exact ⟨blocks', Option.some_inj.mp ht ▸ hsound⟩
  refine ⟨blocks, hs.intact, fun call hlegal hroom => ?_, fun hlive => ?_⟩
  · obtain ⟨t, -, ht, -⟩ := hs.step hlegal hroom
    rw [ht]
    rfl
  · exact hs.one_block hlive

end Runs

/-! ### At the end of the address space -/

/-- The heap on a machine whose memory holds zeros. -/
def sampleHeap : KHeap := (KHeap.heapInit fun _ => ⟨0, 0, false, 0, 0⟩).get (by decide +kernel)

/-- A request that fills the address space exactly. -/
def sampleRequest : ℕ := 2 ^ 47 - 16384 - 48

/-- The request finds no block; `heap_end` wraps to `0`. -/
theorem kmalloc_sampleRequest :
    sampleHeap.kmalloc sampleRequest =
      (sampleHeap.appendBlock 0 (2 ^ 47 - 16384)).bind fun h₁ =>
        h₁.getLastBlock.bind fun block =>
          some (wrap (block + blockHeaderSize), h₁.setFree block false) := by
  have hfit : sampleHeap.firstFit (alignUp sampleRequest heapAlignment) = some 0 := by
    decide +kernel
  have hend : sampleHeap.heapEnd = kheapStart + 16384 := by decide +kernel
  have hsize : alignUp (wrap (alignUp sampleRequest heapAlignment + blockHeaderSize))
      pageSize = 2 ^ 47 - 16384 := by decide +kernel
  have hgrow : sampleHeap.heapExpand
      (wrap (alignUp sampleRequest heapAlignment + blockHeaderSize)) =
        sampleHeap.appendBlock 0 (2 ^ 47 - 16384) := by
    rw [KHeap.heapExpand, KHeap.growEnd_eq (by rw [hend]; decide), hsize, hend]
    rfl
  rw [KHeap.kmalloc, if_neg (by decide)]
  simp only [hfit, hgrow, Option.bind_eq_bind, Option.bind_some]
  rfl

/-- Two requests without a call to `kfree` in between return the same pointer: the first
moves `heap_end` to `0`, so the header of the block for the second lies at `NULL`. -/
theorem kmalloc_sampleRequest_twice :
    ∃ s₁ s₂, KHeap.heapInit (fun _ => ⟨0, 0, false, 0, 0⟩) = some sampleHeap ∧
      (HeapCall.kmalloc sampleRequest).Legal ⟨sampleHeap, []⟩ ∧
      HeapState.step ⟨sampleHeap, []⟩ (.kmalloc sampleRequest) = some s₁ ∧
      (HeapCall.kmalloc 20000).Legal s₁ ∧ s₁.step (.kmalloc 20000) = some s₂ ∧
      s₂.live.map Allocation.ptr = [0xFFFF800000004028, 0xFFFF800000004028] ∧
      ∀ blocks, ¬ Intact s₂.heap s₂.live blocks := by
  have hrun : ((HeapState.step ⟨sampleHeap, []⟩ (.kmalloc sampleRequest)).bind fun s₁ =>
      (s₁.step (.kmalloc 20000)).map fun s₂ => s₂.live.map Allocation.ptr) =
        some [0xFFFF800000004028, 0xFFFF800000004028] := by
    simp only [HeapState.step, kmalloc_sampleRequest]
    decide +kernel
  obtain ⟨s₁, hs₁, hrest⟩ := Option.bind_eq_some_iff.mp hrun
  obtain ⟨s₂, hs₂, hptrs⟩ := Option.map_eq_some_iff.mp hrest
  have hfits : KHeap.Fits sampleRequest ∧ KHeap.Fits 20000 := by decide
  refine ⟨s₁, s₂, (Option.some_get _).symm, hfits.1, hs₁, hfits.2, hs₂, hptrs, ?_⟩
  intro blocks hintact
  have hnodup := hintact.nodup
  rw [hptrs] at hnodup
  exact absurd hnodup (by decide)

end OpenIDP.Memory
