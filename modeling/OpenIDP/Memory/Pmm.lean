import OpenIDP.Math.Word
import OpenIDP.Math.BitArray

/-!
# The physical page allocator

`src/memory/pmm.c` keeps one bit for each physical page: set means used. The bits
live in bytes, eight to a byte, next to a separate counter `used_pages` and the
position at which the next search for a free page starts.

A page is named by its number. The C functions hand out and take back higher-half
addresses `page * PAGE_SIZE + limine_hhdm`; the functions below with a `pmm` prefix
work on those addresses, and the ones without it on page numbers.

The bytes of the bitmap are a function on all of `ℕ`: what lies behind the last byte
of the bitmap is memory too, and the C code reads and writes it when it is given a
bit index that is too large.
-/

namespace OpenIDP.Memory

open OpenIDP.Math

/-- `PAGE_SIZE` -/
def pageSize : ℕ := 4096

/-- `BITS_PER_BYTE` -/
def bitsPerByte : ℕ := 8

/-- The static variables of `pmm.c`, with `last_search_pos` of `pmm_alloc_page`. -/
structure Pmm where
  /-- the byte at `pmm_bitmap + i` -/
  bitmap : Bytes
  bitmapPhys : ℕ
  totalPages : ℕ
  usedPages : ℕ
  bitmapSizeBytes : ℕ
  bitmapSizePages : ℕ
  hhdm : ℕ
  lastSearchPos : ℕ

namespace Pmm

variable (p : Pmm)

/-- `bitmap_set` -/
def bitmapSet (bit : ℕ) : Pmm := { p with bitmap := p.bitmap.setBit bit }

/-- `bitmap_clear` -/
def bitmapClear (bit : ℕ) : Pmm := { p with bitmap := p.bitmap.clearBit bit }

/-- `bitmap_test` -/
def bitmapTest (bit : ℕ) : Bool := p.bitmap.testBit bit

/-- The higher-half address of a page. -/
def pageAddr (page : ℕ) : ℕ := wrap (page * pageSize + p.hhdm)

/-- The page an address lies in, as `pmm_free_page` computes it. -/
def pageOf (addr : ℕ) : ℕ := sub64 addr p.hhdm / pageSize

/-! ### Single pages -/

/-- The `do … while` loop of `pmm_alloc_page`: the page it stops at, if any, and the
position it leaves in `last_search_pos`. The first argument bounds the rounds; as
many rounds as there are pages bring the position back to its start. -/
def searchFrom (startPos : ℕ) : ℕ → ℕ → Option ℕ × ℕ
  | 0, pos => (none, pos)
  | rounds + 1, pos =>
    if !p.bitmapTest pos then
      (some pos, pos)
    else
      let pos := (pos + 1) % p.totalPages
      if pos = startPos then (none, pos) else searchFrom startPos rounds pos

/-- `pmm_alloc_page` on page numbers. -/
def allocPage : Option ℕ × Pmm :=
  if p.usedPages ≥ p.totalPages then
    (none, p)
  else
    match p.searchFrom p.lastSearchPos p.totalPages p.lastSearchPos with
    | (some page, pos) =>
      (some page,
        { p.bitmapSet page with usedPages := wrap (p.usedPages + 1), lastSearchPos := pos })
    | (none, pos) => (none, { p with lastSearchPos := pos })

/-- `pmm_free_page` on page numbers: a page that is already free is left alone. -/
def freePage (page : ℕ) : Pmm :=
  if !p.bitmapTest page then
    p
  else
    { p.bitmapClear page with usedPages := sub64 p.usedPages 1 }

/-! ### Runs of pages -/

/-- The scan of `pmm_alloc_pages`; the first argument counts the pages still ahead. -/
def scanRun (count : ℕ) : ℕ → ℕ → ℕ → ℕ → Option ℕ
  | 0, _, _, _ => none
  | ahead + 1, i, consecutive, startPage =>
    if !p.bitmapTest i then
      let startPage := if consecutive = 0 then i else startPage
      let consecutive := consecutive + 1
      if consecutive = count then some startPage
      else scanRun count ahead (i + 1) consecutive startPage
    else
      scanRun count ahead (i + 1) 0 startPage

/-- Sets the bits `startPage, …, startPage + count - 1`. -/
def setRun (startPage : ℕ) : ℕ → Pmm
  | 0 => p
  | count + 1 => (setRun startPage count).bitmapSet (startPage + count)

/-- `pmm_alloc_pages` on page numbers. -/
def allocPages (count : ℕ) : Option ℕ × Pmm :=
  if count = 0 ∨ wrap (p.usedPages + count) > p.totalPages then
    (none, p)
  else
    match p.scanRun count p.totalPages 0 0 0 with
    | some startPage =>
      (some startPage,
        { p.setRun startPage count with usedPages := wrap (p.usedPages + count) })
    | none => (none, p)

/-- `pmm_free_pages` on page numbers. -/
def freePages (startPage : ℕ) : ℕ → Pmm
  | 0 => p
  | count + 1 => (freePages startPage count).freePage (wrap (startPage + count))

/-! ### The functions of the header, on addresses -/

/-- `pmm_alloc_page` -/
def pmmAllocPage : Option ℕ × Pmm :=
  match p.allocPage with
  | (page, p') => (page.map p.pageAddr, p')

/-- `pmm_free_page` -/
def pmmFreePage (addr : ℕ) : Pmm := p.freePage (p.pageOf addr)

/-- `pmm_alloc_pages` -/
def pmmAllocPages (count : ℕ) : Option ℕ × Pmm :=
  match p.allocPages count with
  | (startPage, p') => (startPage.map p.pageAddr, p')

/-- `pmm_free_pages` -/
def pmmFreePages (addr count : ℕ) : Pmm := p.freePages (p.pageOf addr) count

end Pmm

end OpenIDP.Memory
