import OpenIDP.Memory.Access
import OpenIDP.Memory.KHeap
import OpenIDP.Process.Task

/-!
# The ELF loader

`src/elf/kelf.c` reads the headers of a program file and loads its segments page by page: each
page is a fresh frame, mapped at an address that is counted from the start of the segment, cleared,
and filled from the file. The results of `pmm_alloc_page` and of the reads that fill pages are
not looked at.

The FatFs functions are a parameter. A read is described by its number, its position and its
length, and has a result and the bytes it stored. `FSIZE_t` has 32 bits, so positions are taken
modulo `2 ^ 32`.

A `NULL` that `pmm_alloc_page` returned and that is used nevertheless is an address like any
other: if the page at address 0 is not mapped, the handler of the page fault never returns. That
it is used is recorded.

## Main definitions

* `FatFile` — what the FatFs functions answer
* `Kernel` — the state that creating a process changes
* `Kernel.kmalloc` — the kernel heap, with the pages it grows by
* `Kernel.loadElfFile` — the loader
-/

namespace OpenIDP.Exec

open OpenIDP.Math OpenIDP.Memory OpenIDP.Process

/-! ## Files -/

/-- What the FatFs functions answer for a file name: whether `f_open` succeeds, and for the call
of `f_read` with the given number, position and length whether it succeeds, and the bytes it
stores. -/
structure FatFile where
  opens : Bool
  read : ℕ → ℕ → ℕ → Bool × List (BitVec 8)

/-- The number in `size` bytes from `offset` on. -/
def field (bytes : List (BitVec 8)) (offset size : ℕ) : ℕ :=
  littleEndian ((bytes.drop offset).take size)

/-- `sizeof(Elf64_Ehdr)` -/
def ehdrSize : ℕ := 64

/-- `sizeof(Elf64_Phdr)` -/
def phdrSize : ℕ := 56

/-- `PT_LOAD` -/
def ptLoad : ℕ := 1

/-- The fields of `Elf64_Ehdr` that are used. -/
structure Ehdr where
  entry : ℕ
  phoff : ℕ
  phnum : ℕ

/-- The fields of `Elf64_Phdr` that are used. -/
structure Phdr where
  type : ℕ
  offset : ℕ
  vaddr : ℕ
  filesz : ℕ
  memsz : ℕ
  deriving DecidableEq

/-- The ELF header in its bytes. -/
def Ehdr.parse (bytes : List (BitVec 8)) : Ehdr where
  entry := field bytes 24 8
  phoff := field bytes 32 8
  phnum := field bytes 56 2

/-- A program header in its bytes. -/
def Phdr.parse (bytes : List (BitVec 8)) : Phdr where
  type := field bytes 0 4
  offset := field bytes 8 8
  vaddr := field bytes 16 8
  filesz := field bytes 32 8
  memsz := field bytes 40 8

/-- The table of program headers in its bytes. -/
def phdrTable (bytes : List (BitVec 8)) (phnum : ℕ) : List Phdr :=
  (List.range phnum).map fun i => Phdr.parse (bytes.drop (i * phdrSize))

/-- `elf_verify_header` -/
def elfVerifyHeader (bytes : List (BitVec 8)) : Bool :=
  bytes.take 4 == [0x7F#8, 0x45#8, 0x4C#8, 0x46#8]

/-- The number of pages of a segment. -/
def Phdr.pagesNeeded (seg : Phdr) : ℕ := wrap (seg.memsz + 0xFFF) / pageSize

/-! ## The kernel -/

/-- What does not change: the kernel's page tables, and the framebuffer. -/
structure Platform where
  kernelPml4 : ℕ
  fbAddress : ℕ
  fbSize : ℕ

/-- The state that creating a process changes. -/
structure Kernel where
  vm : Vm
  heap : KHeap
  sched : Sched
  /-- the calls of `f_read` so far -/
  reads : ℕ
  /-- the result of an allocation that failed was used -/
  nullUsed : Bool

namespace Kernel

/-- The frame of the page at address 0, through which a `NULL` is used. -/
def nullPage (k : Kernel) : Option ℕ := frameOf k.vm.mem k.sched.cr3 0

/-- What `get_phys_addr` makes of the result of `pmm_alloc_page`. -/
def physOf (v : Vm) : Option ℕ → ℕ
  | some phys => phys
  | none => sub64 0 v.pmm.hhdm

/-- The loop of `heap_expand`, on the page tables. -/
def growHeap (p : Platform) : ℕ → ℕ → Kernel → Option Kernel
  | 0, _, k => some k
  | n + 1, heapEnd, k =>
    match k.vm.allocFrame with
    | (page, v₁) => do
      let v₂ ← v₁.vmmMapPage p.kernelPml4 heapEnd (physOf v₁ page) (vmmPresent ||| vmmWrite)
      growHeap p n (wrap (heapEnd + pageSize))
        { k with vm := v₂, nullUsed := k.nullUsed || page.isNone }

/-- `kmalloc`, with the pages by which the heap grows. -/
def kmalloc (p : Platform) (size : ℕ) (k : Kernel) : Option (ℕ × Kernel) := do
  let (ptr, heap) ← k.heap.kmalloc size
  let pages := sub64 heap.heapEnd k.heap.heapEnd / pageSize
  let k₁ ← growHeap p pages k.heap.heapEnd k
  some (ptr, { k₁ with heap := heap })

/-- `kfree` -/
def kfree (ptr : ℕ) (k : Kernel) : Option Kernel := do
  let heap ← k.heap.kfree ptr
  some { k with heap := heap }

/-! ## Loading -/

/-- The part of `elf_load_segments` that fills a page from the file. -/
def fillPage (file : FatFile) (seg : Phdr) (offset page : ℕ) (k : Kernel) : Kernel :=
  if offset < seg.filesz then
    let bytesToCopy := min (seg.filesz - offset) pageSize
    let data := (file.read k.reads (wrap (seg.offset + offset) % 2 ^ 32) bytesToCopy).2
    { k with vm := k.vm.writeBytes page (data.take bytesToCopy), reads := k.reads + 1 }
  else
    k

/-- One round of the inner loop of `elf_load_segments`. -/
def loadPage (file : FatFile) (pml4 : ℕ) (seg : Phdr) (pageIndex : ℕ) (k : Kernel) :
    Option Kernel :=
  let offset := pageIndex * pageSize
  match k.vm.allocFrame with
  | (page, v₁) => do
    let v₂ ← v₁.vmmMapPage pml4 (wrap (seg.vaddr + offset)) (physOf v₁ page)
      (vmmUser ||| vmmWrite ||| vmmPresent)
    let k₁ := { k with vm := v₂, nullUsed := k.nullUsed || page.isNone }
    let frame ← page <|> k₁.nullPage
    some (fillPage file seg offset frame { k₁ with vm := v₂.clearPage frame })

/-- The inner loop of `elf_load_segments`: `n` more pages. -/
def loadPages (file : FatFile) (pml4 : ℕ) (seg : Phdr) : ℕ → ℕ → Kernel → Option Kernel
  | 0, _, k => some k
  | n + 1, pageIndex, k => do
    let k₁ ← loadPage file pml4 seg pageIndex k
    loadPages file pml4 seg n (pageIndex + 1) k₁

/-- `elf_load_segments` -/
def elfLoadSegments (file : FatFile) (pml4 : ℕ) : List Phdr → ℕ → Kernel → Option (ℕ × Kernel)
  | [], maxVaddr, k => some (maxVaddr, k)
  | seg :: phdrs, maxVaddr, k =>
    if seg.type ≠ ptLoad then
      elfLoadSegments file pml4 phdrs maxVaddr k
    else do
      let k₁ ← loadPages file pml4 seg seg.pagesNeeded 0 k
      elfLoadSegments file pml4 phdrs (max maxVaddr (wrap (seg.vaddr + seg.memsz))) k₁

/-- `elf_read_header` -/
def elfReadHeader (file : FatFile) (k : Kernel) : Option Ehdr × Kernel :=
  match file.read k.reads 0 ehdrSize with
  | (ok, bytes) =>
    if ok ∧ bytes.length = ehdrSize ∧ elfVerifyHeader bytes then
      (some (.parse bytes), { k with reads := k.reads + 1 })
    else
      (none, { k with reads := k.reads + 1 })

/-- `elf_read_program_headers`: the table with the address of its block, or nothing. The result
of the read is not looked at, only its length. -/
def elfReadProgramHeaders (p : Platform) (file : FatFile) (header : Ehdr) (k : Kernel) :
    Option (Option (ℕ × List Phdr) × Kernel) := do
  let phSize := header.phnum * phdrSize
  let (ptr, k₁) ← k.kmalloc p phSize
  if ptr = 0 then
    some (none, k₁)
  else
    let bytes := (file.read k₁.reads (header.phoff % 2 ^ 32) phSize).2
    let k₂ := { k₁ with reads := k₁.reads + 1 }
    if bytes.length ≠ phSize then do
      let k₃ ← k₂.kfree ptr
      some (none, k₃)
    else
      some (some (ptr, phdrTable bytes header.phnum), k₂)

/-- `elf_load_result_t` -/
structure ElfLoadResult where
  entry : ℕ
  programBreak : ℕ

/-- `load_elf_file`: nothing when it returns -1. -/
def loadElfFile (p : Platform) (file : FatFile) (pml4 : ℕ) (k : Kernel) :
    Option (Option ElfLoadResult × Kernel) :=
  if file.opens then
    match elfReadHeader file k with
    | (none, k₁) => some (none, k₁)
    | (some header, k₁) => do
      let (found, k₂) ← elfReadProgramHeaders p file header k₁
      match found with
      | none => some (none, k₂)
      | some (ptr, phdrs) => do
        let (maxVaddr, k₃) ← elfLoadSegments file pml4 phdrs 0 k₂
        let k₄ ← k₃.kfree ptr
        some (some ⟨header.entry, wrap (maxVaddr + 0xFFF) &&& not64 0xFFF⟩, k₄)
  else
    some (none, k)

end Kernel

end OpenIDP.Exec
