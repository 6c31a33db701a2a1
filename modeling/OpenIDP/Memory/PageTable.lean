import OpenIDP.Memory.Pmm

/-!
# Page tables

`src/memory/vmm.c` maps pages in the four levels of tables the processor walks. A table
is a page frame of 512 words; the word at an index is an entry, with the frame it leads to
and flag bits. The kernel reaches every frame at its physical address plus `limine_hhdm`,
so memory is modelled by the words of the frame at a physical address; what programs and
files store in the pages that are mapped plays no part here.

The functions call `pmm_alloc_page` and `pmm_free_page`. Two things are recorded that the
code does not keep: which frames `pmm_alloc_page` has handed out, and which frames
`pmm_free_page` has been called for.

## Main definitions

* `Vm` — memory and the page allocator
* `Vm.getOrAllocTable`, `Vm.vmmMapPage` — mapping a page
* `Vm.vmmUnmapPage`, `vmmGetMapping` — taking a mapping away, and looking it up
* `translate` — what the processor finds for a page
-/

namespace OpenIDP.Memory

open OpenIDP.Math

/-! ## Entries -/

/-- `VMM_PRESENT` -/
def vmmPresent : ℕ := 1

/-- `VMM_WRITE` -/
def vmmWrite : ℕ := 2

/-- `VMM_USER` -/
def vmmUser : ℕ := 4

/-- `VMM_PWT` -/
def vmmPwt : ℕ := 8

/-- `VMM_PCD` -/
def vmmPcd : ℕ := 16

/-- `VMM_HUGE` -/
def vmmHuge : ℕ := 128

/-- `PAGE_ALIGN_MASK`, and `PAGE_ADDR_MASK` of `task.h` -/
def pageAlignMask : ℕ := 0x000FFFFFFFFFF000

/-- The frame an entry leads to. -/
def entryFrame (entry : ℕ) : ℕ := entry &&& pageAlignMask

/-- `entry & VMM_PRESENT` -/
def IsPresent (entry : ℕ) : Prop := entry &&& vmmPresent ≠ 0

/-- `entry & VMM_HUGE`: the processor's walk ends at this entry. -/
def IsHuge (entry : ℕ) : Prop := entry &&& vmmHuge ≠ 0

instance (entry : ℕ) : Decidable (IsPresent entry) := inferInstanceAs (Decidable (_ ≠ _))

instance (entry : ℕ) : Decidable (IsHuge entry) := inferInstanceAs (Decidable (_ ≠ _))

/-- Index `(x >> shift) & 0x1FF` into a table. -/
def tableIndex (shift virt : ℕ) : Fin 512 := Fin.ofNat 512 (virt >>> shift)

/-- `PML4_INDEX` -/
def pml4Index (virt : ℕ) : Fin 512 := tableIndex 39 virt

/-- `PDPT_INDEX` -/
def pdptIndex (virt : ℕ) : Fin 512 := tableIndex 30 virt

/-- `PD_INDEX` -/
def pdIndex (virt : ℕ) : Fin 512 := tableIndex 21 virt

/-- `PT_INDEX` -/
def ptIndex (virt : ℕ) : Fin 512 := tableIndex 12 virt

/-- Indices that lead from a PML4 to a table or a page. -/
abbrev Path := List (Fin 512)

/-- The indices of the page table of the last level. -/
def tablePath (virt : ℕ) : Path := [pml4Index virt, pdptIndex virt, pdIndex virt]

/-- The four indices of a page, from the PML4 down. -/
def indices (virt : ℕ) : Path :=
  [pml4Index virt, pdptIndex virt, pdIndex virt, ptIndex virt]

/-- The page lies in the lower half of the address space, the part of user programs. -/
def InUserHalf (virt : ℕ) : Prop := (pml4Index virt).val < 256

instance (virt : ℕ) : Decidable (InUserHalf virt) := inferInstanceAs (Decidable (_ < _))

/-! ## Memory -/

/-- The words of the page frames, by the physical address of the frame. -/
abbrev Frames := ℕ → Fin 512 → ℕ

/-- Memory and the page allocator. -/
structure Vm where
  mem : Frames
  pmm : Pmm
  /-- the frames handed out and not taken back -/
  lent : Set ℕ
  /-- the frames `pmm_free_page` was called for, latest first -/
  freed : List ℕ

namespace Vm

variable (v : Vm)

/-- `table[index] = word` -/
def setWord (table : ℕ) (index : Fin 512) (word : ℕ) : Vm :=
  { v with mem := Function.update v.mem table (Function.update (v.mem table) index word) }

/-- `memset(page, 0, PAGE_SIZE)` -/
def clearPage (frame : ℕ) : Vm := { v with mem := Function.update v.mem frame fun _ => 0 }

/-- `pmm_alloc_page`, with the physical address of the page. -/
def allocFrame : Option ℕ × Vm :=
  match v.pmm.pmmAllocPage with
  | (some addr, pmm) =>
    (some (sub64 addr v.pmm.hhdm),
      { v with pmm := pmm, lent := insert (sub64 addr v.pmm.hhdm) v.lent })
  | (none, pmm) => (none, { v with pmm := pmm })

/-- `pmm_free_page` for the page at a physical address. -/
def freeFrame (frame : ℕ) : Vm :=
  { v with
    pmm := v.pmm.pmmFreePage (wrap (frame + v.pmm.hhdm))
    lent := v.lent \ {frame}
    freed := frame :: v.freed }

/-- The loops that set up a new PML4: its lower half is cleared, and its upper half becomes
the kernel's. -/
def copyKernelHalf (pml4 kernelPml4 : ℕ) : Vm :=
  { v with mem := Function.update v.mem pml4 fun j =>
      if j.val < 256 then 0 else v.mem kernelPml4 j }

theorem mem_copyKernelHalf {pml4 kernelPml4 : ℕ} (j : Fin 512) :
    (v.copyKernelHalf pml4 kernelPml4).mem pml4 j =
      if j.val < 256 then 0 else v.mem kernelPml4 j := by
  simp only [copyKernelHalf, Function.update_self]

theorem mem_setWord {table word : ℕ} {index : Fin 512} (g : ℕ) (j : Fin 512) :
    (v.setWord table index word).mem g j =
      if g = table ∧ j = index then word else v.mem g j := by
  simp only [setWord, Function.update_apply]
  by_cases hg : g = table
  · rw [if_pos hg, hg, Function.update_apply]
    simp only [true_and]
  · rw [if_neg hg, if_neg fun h => hg h.1]

/-- `pmm_free_page` for several pages in a row. -/
def freeAll (frames : List ℕ) : Vm := frames.foldl freeFrame v

/-- `get_or_alloc_table`, with the physical address of the table. When memory runs out it
loops for ever. -/
def getOrAllocTable (table : ℕ) (index : Fin 512) : Option (ℕ × Vm) :=
  if IsPresent (v.mem table index) then
    let v₁ :=
      if v.mem table index &&& vmmUser = 0 then
        v.setWord table index (v.mem table index ||| vmmUser)
      else
        v
    some (entryFrame (v₁.mem table index), v₁)
  else
    match v.allocFrame with
    | (none, _) => none
    | (some newPhys, v₁) =>
      let v₂ := v₁.clearPage newPhys
      some (newPhys,
        v₂.setWord table index (newPhys ||| vmmPresent ||| vmmWrite ||| vmmUser))

/-- `vmm_map_page` -/
def vmmMapPage (pml4 virt phys flags : ℕ) : Option Vm := do
  let (pdpt, v₁) ← v.getOrAllocTable pml4 (pml4Index virt)
  let (pd, v₂) ← v₁.getOrAllocTable pdpt (pdptIndex virt)
  let (pt, v₃) ← v₂.getOrAllocTable pd (pdIndex virt)
  some (v₃.setWord pt (ptIndex virt) ((phys &&& pageAlignMask) ||| flags ||| vmmPresent))

theorem mem_clearPage {frame : ℕ} (g : ℕ) (j : Fin 512) :
    (v.clearPage frame).mem g j = if g = frame then 0 else v.mem g j := by
  simp only [clearPage, Function.update_apply]
  split_ifs <;> rfl

end Vm

/-- `get_table_noalloc`: the table an entry leads to, if it is present. -/
def nextTable (mem : Frames) (table : ℕ) (index : Fin 512) : Option ℕ :=
  if IsPresent (mem table index) then some (entryFrame (mem table index)) else none

/-- The page table of the last level that holds the entry for a page, as the three calls of
`get_table_noalloc` find it. -/
def pageTableOf (mem : Frames) (pml4 virt : ℕ) : Option ℕ := do
  let pdpt ← nextTable mem pml4 (pml4Index virt)
  let pd ← nextTable mem pdpt (pdptIndex virt)
  nextTable mem pd (pdIndex virt)

/-- `vmm_unmap_page` -/
def Vm.vmmUnmapPage (v : Vm) (pml4 virt : ℕ) : Vm :=
  match pageTableOf v.mem pml4 virt with
  | none => v
  | some pt => if IsPresent (v.mem pt (ptIndex virt)) then v.setWord pt (ptIndex virt) 0 else v

/-- `vmm_get_mapping` -/
def vmmGetMapping (mem : Frames) (pml4 virt : ℕ) : ℕ :=
  match pageTableOf mem pml4 virt with
  | none => 0
  | some pt => if IsPresent (mem pt (ptIndex virt)) then entryFrame (mem pt (ptIndex virt)) else 0

/-- The processor's walk along the given indices: the entry at which it ends, with the
indices that are left when it ends early at a huge page. -/
def translate (mem : Frames) : ℕ → List (Fin 512) → Option (List (Fin 512) × ℕ)
  | _, [] => none
  | table, index :: rest =>
    if IsPresent (mem table index) then
      if rest = [] ∨ IsHuge (mem table index) then some (rest, mem table index)
      else translate mem (entryFrame (mem table index)) rest
    else
      none

/-! ## What the flag bits of an entry say -/

section Entries

variable {entry frame flags phys : ℕ}

/-- The physical address of a page frame, as an entry can hold it. -/
def IsFrame (frame : ℕ) : Prop := entryFrame frame = frame

theorem isFrame_of_lt {page : ℕ} (hpage : page < 2 ^ 40) : IsFrame (page * pageSize) := by
  have hmask : pageAlignMask = 2 ^ 52 - 2 ^ 12 := rfl
  rw [pageSize, IsFrame, entryFrame, hmask, and_complMask (by decide) (by omega)]
  omega

theorem isFrame_entryFrame : IsFrame (entryFrame entry) := by
  rw [IsFrame, entryFrame, entryFrame, Nat.and_assoc, Nat.and_self]

theorem entryFrame_or : entryFrame (entry ||| flags) = entryFrame entry ||| entryFrame flags :=
  Nat.and_or_distrib_right ..

theorem isPresent_or : IsPresent (entry ||| flags) ↔ IsPresent entry ∨ IsPresent flags := by
  rw [IsPresent, IsPresent, IsPresent, Nat.and_or_distrib_right, Ne, Nat.or_eq_zero_iff]
  exact not_and_or

theorem isHuge_or : IsHuge (entry ||| flags) ↔ IsHuge entry ∨ IsHuge flags := by
  rw [IsHuge, IsHuge, IsHuge, Nat.and_or_distrib_right, Ne, Nat.or_eq_zero_iff]
  exact not_and_or

theorem IsFrame.not_isHuge (h : IsFrame frame) : ¬ IsHuge frame := by
  have hmask : pageAlignMask &&& vmmHuge = 0 := by decide
  rw [← h, IsHuge, entryFrame, Nat.and_assoc, hmask, Nat.and_zero]
  exact not_not_intro rfl

/-- Setting the user bit. -/
theorem entry_or_user :
    entryFrame (entry ||| vmmUser) = entryFrame entry ∧
      (IsPresent (entry ||| vmmUser) ↔ IsPresent entry) ∧
      (IsHuge (entry ||| vmmUser) ↔ IsHuge entry) := by
  have huser : entryFrame vmmUser = 0 ∧ ¬ IsPresent vmmUser ∧ ¬ IsHuge vmmUser := by decide
  rw [entryFrame_or, isPresent_or, isHuge_or, huser.1, Nat.or_zero, or_iff_left huser.2.1,
    or_iff_left huser.2.2]
  exact ⟨rfl, Iff.rfl, Iff.rfl⟩

/-- The entry that leads to a new table. -/
theorem entry_table (h : IsFrame frame) :
    entryFrame (frame ||| vmmPresent ||| vmmWrite ||| vmmUser) = frame ∧
      IsPresent (frame ||| vmmPresent ||| vmmWrite ||| vmmUser) ∧
      ¬ IsHuge (frame ||| vmmPresent ||| vmmWrite ||| vmmUser) := by
  rw [Nat.or_assoc, Nat.or_assoc]
  have hflags : entryFrame (vmmPresent ||| (vmmWrite ||| vmmUser)) = 0 ∧
      IsPresent (vmmPresent ||| (vmmWrite ||| vmmUser)) ∧
      ¬ IsHuge (vmmPresent ||| (vmmWrite ||| vmmUser)) := by decide
  rw [entryFrame_or, isPresent_or, isHuge_or, hflags.1, Nat.or_zero]
  exact ⟨h, Or.inr hflags.2.1, not_or.mpr ⟨h.not_isHuge, hflags.2.2⟩⟩

/-- User programs may read and write what is below a new table. -/
theorem entry_table_rights (frame : ℕ) :
    (frame ||| vmmPresent ||| vmmWrite ||| vmmUser) &&& vmmWrite ≠ 0 ∧
      (frame ||| vmmPresent ||| vmmWrite ||| vmmUser) &&& vmmUser ≠ 0 := by
  constructor <;> rw [Nat.or_assoc, Nat.or_assoc, Nat.and_or_distrib_right, Ne,
    Nat.or_eq_zero_iff]
  · exact fun h => absurd h.2 (by decide)
  · exact fun h => absurd h.2 (by decide)

/-- The entry for a page. -/
theorem entry_page (hflags : entryFrame flags = 0) :
    entryFrame ((phys &&& pageAlignMask) ||| flags ||| vmmPresent) = entryFrame phys ∧
      IsPresent ((phys &&& pageAlignMask) ||| flags ||| vmmPresent) := by
  have hpresent : entryFrame vmmPresent = 0 ∧ IsPresent vmmPresent := by decide
  rw [entryFrame_or, entryFrame_or, isPresent_or, hflags, hpresent.1, Nat.or_zero, Nat.or_zero]
  exact ⟨isFrame_entryFrame, Or.inr hpresent.2⟩

end Entries

end OpenIDP.Memory
