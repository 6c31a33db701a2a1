import OpenIDP.Math.Linked
import OpenIDP.Math.Word
import OpenIDP.Memory.Pmm

/-!
# The kernel heap

`src/memory/kheap.c` manages the virtual range from `KHEAP_START` on as a doubly linked
list of blocks, each with a header in front of its payload. A request is served by the
first free block that is large enough, which is split when enough is left over; when
there is none, the heap grows by whole pages. A freed block merges with its free
neighbours.

The heap is modelled by the headers at all addresses, the pointer to the first block,
and the end of the mapped range. Pointers are addresses and `0` is `NULL`. Traversals
of the list have no result when they do not end. What is stored in the payloads, and
the page tables through which the heap is mapped, play no part here:
`pmm_alloc_page` is taken to succeed.
-/

namespace OpenIDP.Memory

open OpenIDP.Math

/-- `HEAP_MAGIC` -/
def heapMagic : ℕ := 0xDEADBEEFCAFEBABE

/-- `ALIGNMENT` -/
def heapAlignment : ℕ := 16

/-- `MIN_SPLIT` -/
def minSplit : ℕ := 32

/-- `KHEAP_START` -/
def kheapStart : ℕ := 0xFFFF800000000000

/-- `heap_block_t` -/
structure HeapBlock where
  magic : ℕ
  size : ℕ
  free : Bool
  next : ℕ
  prev : ℕ

/-- `sizeof(heap_block_t)` -/
def blockHeaderSize : ℕ := 40

/-- The static variables of `kheap.c` and the headers they lead to. -/
structure KHeap where
  /-- the header at an address -/
  hdr : ℕ → HeapBlock
  head : ℕ
  heapEnd : ℕ

/-- The rounds after which a traversal has come back to a block it has already seen. -/
def maxBlocks : ℕ := 2 ^ 64

namespace KHeap

variable (h : KHeap)

/-- Writes the header of one block. -/
def setBlock (addr : ℕ) (b : HeapBlock) : KHeap :=
  { h with hdr := Function.update h.hdr addr b }

/-- `block->next` -/
def next (block : ℕ) : ℕ := (h.hdr block).next

/-- `block->prev` -/
def prev (block : ℕ) : ℕ := (h.hdr block).prev

/-- `block->size` -/
def size (block : ℕ) : ℕ := (h.hdr block).size

/-- `block->free` -/
def free (block : ℕ) : Bool := (h.hdr block).free

/-- `block->next = value` -/
def setNext (block value : ℕ) : KHeap := h.setBlock block { h.hdr block with next := value }

/-- `block->prev = value` -/
def setPrev (block value : ℕ) : KHeap := h.setBlock block { h.hdr block with prev := value }

/-- `block->size = value` -/
def setSize (block value : ℕ) : KHeap := h.setBlock block { h.hdr block with size := value }

/-- `block->free = value` -/
def setFree (block : ℕ) (value : Bool) : KHeap :=
  h.setBlock block { h.hdr block with free := value }

/-! ### Helper functions -/

/-- `get_last_block`; `NULL` when there is no block. -/
def getLastBlock : Option ℕ := search h.next (fun curr => h.next curr == 0) maxBlocks h.head

/-- `split_block` -/
def splitBlock (block size : ℕ) : KHeap :=
  if h.size block < wrap (size + blockHeaderSize + minSplit) then
    h
  else
    let newblock := wrap (block + blockHeaderSize + size)
    let h₁ := h.setBlock newblock
      { magic := heapMagic
        size := sub64 (sub64 (h.size block) size) blockHeaderSize
        free := true
        next := h.next block
        prev := block }
    let h₂ := if h₁.next newblock ≠ 0 then h₁.setPrev (h₁.next newblock) newblock else h₁
    (h₂.setNext block newblock).setSize block size

/-- The first half of `coalesce`: a free block that follows is swallowed. -/
def mergeForward (block : ℕ) : KHeap :=
  if h.next block ≠ 0 ∧ h.free (h.next block) then
    let h₁ := h.setSize block
      (wrap (h.size block + (blockHeaderSize + h.size (h.next block))))
    let h₂ := h₁.setNext block (h₁.next (h₁.next block))
    if h₂.next block ≠ 0 then h₂.setPrev (h₂.next block) block else h₂
  else
    h

/-- `coalesce`; the first argument bounds the depth of its recursion. -/
def coalesce : ℕ → KHeap → ℕ → Option KHeap
  | 0, _, _ => none
  | depth + 1, h, block =>
    let h₁ := h.mergeForward block
    if h₁.prev block ≠ 0 ∧ h₁.free (h₁.prev block) then
      coalesce depth h₁ (h₁.prev block)
    else
      some h₁

/-- The loop of `heap_expand`: each round maps one page and moves `heap_end`. -/
def growEnd (pages : ℕ) : ℕ := (fun heapEnd => wrap (heapEnd + pageSize))^[pages] h.heapEnd

/-- The second half of `heap_expand`: the last `size` bytes of the grown heap become a
free block behind the last one. -/
def appendBlock (heapEnd size : ℕ) : Option KHeap := do
  let block := sub64 heapEnd size
  let h₁ : KHeap := { h with heapEnd := heapEnd }
  let h₂ := h₁.setBlock block
    { h₁.hdr block with
      magic := heapMagic
      size := sub64 size blockHeaderSize
      free := true
      next := 0 }
  let last ← h₂.getLastBlock
  let h₃ := h₂.setPrev block last
  if last ≠ 0 then some (h₃.setNext last block) else some { h₃ with head := block }

/-- `heap_expand`. When the size is rounded to nothing no page is mapped, and the header is stored
behind the heap: the handler of the page fault does not return. -/
def heapExpand (size : ℕ) : Option KHeap :=
  let size := alignUp size pageSize
  if size = 0 then
    none
  else
    h.appendBlock (h.growEnd ((size + pageSize - 1) / pageSize)) size

/-! ### The functions of the header -/

/-- `heap_init`, called with the static variables as the program starts. -/
def heapInit (hdr : ℕ → HeapBlock) : Option KHeap :=
  heapExpand { hdr := hdr, head := 0, heapEnd := kheapStart } (pageSize * 4)

/-- The search of `kmalloc` for the first free block of at least `size` bytes. -/
def firstFit (size : ℕ) : Option ℕ :=
  search h.next (fun curr => h.free curr && decide (h.size curr ≥ size)) maxBlocks h.head

/-- `kmalloc` -/
def kmalloc (size : ℕ) : Option (ℕ × KHeap) :=
  if size = 0 then
    some (0, h)
  else do
    let size := alignUp size heapAlignment
    let curr ← h.firstFit size
    if curr ≠ 0 then
      some (wrap (curr + blockHeaderSize), (h.splitBlock curr size).setFree curr false)
    else
      let h₁ ← h.heapExpand (wrap (size + blockHeaderSize))
      let block ← h₁.getLastBlock
      some (wrap (block + blockHeaderSize), h₁.setFree block false)

/-- `kfree` -/
def kfree (ptr : ℕ) : Option KHeap :=
  if ptr = 0 then
    some h
  else
    let block := sub64 ptr blockHeaderSize
    if (h.hdr block).magic ≠ heapMagic then
      some h
    else
      coalesce maxBlocks (h.setFree block true) block

/-- `krealloc`. The bytes it copies lie in payloads. -/
def krealloc (ptr size : ℕ) : Option (ℕ × KHeap) :=
  if ptr = 0 then
    h.kmalloc size
  else if size = 0 then do
    let h₁ ← h.kfree ptr
    some (0, h₁)
  else
    let block := sub64 ptr blockHeaderSize
    if h.size block ≥ size then
      some (ptr, h)
    else do
      let (newptr, h₁) ← h.kmalloc size
      if newptr = 0 then
        some (0, h₁)
      else
        let h₂ ← h₁.kfree ptr
        some (newptr, h₂)

end KHeap

end OpenIDP.Memory
