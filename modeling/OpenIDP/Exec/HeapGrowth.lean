import OpenIDP.Exec.ElfLoader
import OpenIDP.Memory.KHeapRuns
import OpenIDP.Memory.TaskMapping

/-!
# The kernel heap grows

When `kmalloc` finds no block, it maps fresh pages behind the end of the kernel heap. These go
into the kernel's own tables, so every page table keeps its place, and no program sees a change.

## Main definitions

* `GrowsHeap` — what growing keeps
* `HeapRoom`, `RoomToGrow` — the heap stays in its range when it grows for a request

## Main results

* `Kernel.growHeap_forest`, `Kernel.kmalloc_forest` — growing keeps the forest and the view
-/

namespace OpenIDP.Exec

open OpenIDP.Math OpenIDP.Memory OpenIDP.Process

/-- The number of pages by which the kernel heap grows for a request. -/
def heapPages (size : ℕ) : ℕ :=
  (alignUp (wrap (alignUp size heapAlignment + blockHeaderSize)) pageSize + pageSize - 1) / pageSize

/-- The kernel heap stays in its range when it grows for a request. -/
def HeapRoom (heap : KHeap) (size : ℕ) : Prop :=
  kheapStart ≤ heap.heapEnd ∧ heap.heapEnd + heapPages size * pageSize ≤ kheapMax

instance (heap : KHeap) (size : ℕ) : Decidable (HeapRoom heap size) :=
  inferInstanceAs (Decidable (_ ∧ _))

/-- The kernel heap ends at an address, and if it has to grow for a request it stays in its
range. -/
def RoomToGrow (heap : KHeap) (size : ℕ) : Prop :=
  heap.heapEnd < 2 ^ 64 ∧ (heap.Grows size → HeapRoom heap size)

section Growth

variable {roots : Set ℕ} {κ : ℕ} {fb : Set ℕ} {v v' : Vm} {place : Places}
variable {p : Platform} {k k' : Kernel} {n heapEnd size ptr : ℕ}

/-- What growing the kernel heap keeps. -/
structure GrowsHeap (κ : ℕ) (fb roots : Set ℕ) (place : Places) (k k' : Kernel) : Prop where
  forest : ∃ place', Forest κ fb k'.vm roots place' ∧ Grown k.vm place k'.vm place'
  view : SameView roots k.vm k'.vm
  lower : ∀ j : Fin 512, j.val < 256 → k'.vm.mem κ j = k.vm.mem κ j
  sched_eq : k'.sched = k.sched
  reads_eq : k'.reads = k.reads

/-- The loop of `heap_expand` keeps the forest, and no task sees it. -/
theorem Kernel.growHeap_forest (hF : Forest p.kernelPml4 fb k.vm roots place)
    (hlow : kheapStart ≤ heapEnd) (hhigh : heapEnd + n * pageSize ≤ kheapMax)
    (h : growHeap p n heapEnd k = some k') : GrowsHeap p.kernelPml4 fb roots place k k' := by
  induction n generalizing heapEnd k place with
  | zero =>
    obtain rfl := Option.some_inj.mp h
    exact ⟨⟨place, hF, .refl _ _⟩, .refl, fun _ _ => rfl, rfl, rfl⟩
  | succ n ih =>
    have hmax : kheapMax < 2 ^ 64 := by decide
    have hend : heapEnd + pageSize + n * pageSize ≤ kheapMax := by
      refine le_trans (le_of_eq ?_) hhigh
      ring
    have hfirst : heapEnd + pageSize ≤ kheapMax := (Nat.le_add_right _ _).trans hend
    have hpos : 0 < pageSize := by decide
    obtain ⟨⟨page, v₁⟩, halloc⟩ : ∃ x, x = k.vm.allocFrame := ⟨_, rfl⟩
    obtain ⟨hF₁, hgrown₁, hmem₁⟩ := hF.allocFrame halloc.symm
    rw [growHeap, ← halloc] at h
    obtain ⟨v₂, hmap, hrest⟩ := Option.bind_eq_some_iff.mp h
    obtain ⟨place₂, hF₂, hgrown₂, hview₂, hlower₂⟩ :=
      hF₁.mapHeapPage hlow (by omega) (by decide) hmap
    have hview₁ : SameView roots k.vm v₁ :=
      ⟨fun _ _ _ => by rw [hmem₁], fun _ _ _ _ _ => by rw [hmem₁]⟩
    rw [wrap_of_lt (by omega)] at hrest
    have hlater := ih (k := { k with vm := v₂, nullUsed := k.nullUsed || page.isNone }) hF₂
      (by omega) hend hrest
    obtain ⟨place', hF', hgrown'⟩ := hlater.forest
    refine ⟨⟨place', hF', (hgrown₁.trans hgrown₂).trans hgrown'⟩,
      (hview₁.trans hview₂).trans hlater.view, fun j hj => ?_, hlater.sched_eq, hlater.reads_eq⟩
    rw [hlater.lower j hj, hlower₂ j hj, hmem₁]

theorem HeapRoom.toGrow {heap : KHeap} (hroom : HeapRoom heap size) : RoomToGrow heap size := by
  have hmax : kheapMax < 2 ^ 64 := by decide
  refine ⟨?_, fun _ => hroom⟩
  obtain ⟨-, hhigh⟩ := hroom
  omega

/-- The heap ends where it did, or had to grow. -/
theorem kmalloc_heapEnd {h h' : KHeap} (hrun : h.kmalloc size = some (ptr, h')) :
    h'.heapEnd = h.heapEnd ∨ h.Grows size ∧ h'.heapEnd = h.growEnd (heapPages size) := by
  rw [KHeap.kmalloc] at hrun
  split_ifs at hrun with hsize
  · obtain ⟨-, rfl⟩ := Prod.mk.inj (Option.some_inj.mp hrun)
    exact Or.inl rfl
  · obtain ⟨curr, hfit, hrun⟩ := Option.bind_eq_some_iff.mp hrun
    split_ifs at hrun with hcurr
    · obtain ⟨-, rfl⟩ := Prod.mk.inj (Option.some_inj.mp hrun)
      exact Or.inl KHeap.splitBlock_heapEnd
    · obtain ⟨h₁, hexpand, hrun⟩ := Option.bind_eq_some_iff.mp hrun
      obtain ⟨block, -, hrun⟩ := Option.bind_eq_some_iff.mp hrun
      obtain ⟨-, rfl⟩ := Prod.mk.inj (Option.some_inj.mp hrun)
      refine Or.inr ⟨⟨hsize, not_not.mp hcurr ▸ hfit⟩, ?_⟩
      rw [KHeap.heapExpand] at hexpand
      have hexpand := (Option.ite_none_left_eq_some.mp hexpand).2
      obtain ⟨last, -, hlast⟩ := Option.bind_eq_some_iff.mp hexpand
      dsimp only at hlast
      split_ifs at hlast
      · obtain rfl := Option.some_inj.mp hlast
        rfl
      · obtain rfl := Option.some_inj.mp hlast
        rfl

/-- `kmalloc` grows the heap by whole pages, up to its new end. -/
theorem Kernel.kmalloc_pages (hroom : RoomToGrow k.heap size)
    (h : k.kmalloc p size = some (ptr, k')) :
    ∃ n k₁, Kernel.growHeap p n k.heap.heapEnd k = some k₁ ∧ k' = { k₁ with heap := k'.heap } ∧
      k'.heap.heapEnd = k.heap.heapEnd + n * pageSize ∧
      (0 < n → kheapStart ≤ k.heap.heapEnd ∧ k.heap.heapEnd + n * pageSize ≤ kheapMax) ∧
      sub64 k'.heap.heapEnd k.heap.heapEnd / pageSize = n := by
  obtain ⟨hend, hroom⟩ := hroom
  have hmax : kheapMax < 2 ^ 64 := by decide
  obtain ⟨⟨ptr', heap⟩, hmalloc, h⟩ := Option.bind_eq_some_iff.mp h
  obtain ⟨k₁, hgrow, h⟩ := Option.bind_eq_some_iff.mp h
  obtain ⟨-, rfl⟩ := Prod.mk.inj (Option.some_inj.mp h)
  rcases kmalloc_heapEnd hmalloc with hsame | ⟨hgrows, hgrown⟩
  · have hpages : sub64 heap.heapEnd k.heap.heapEnd / pageSize = 0 := by
      rw [hsame, sub64_of_le (Nat.le_refl _) hend, Nat.sub_self, Nat.zero_div]
    rw [hpages] at hgrow
    refine ⟨0, k₁, hgrow, rfl, ?_, fun hpos => absurd hpos (Nat.lt_irrefl 0), hpages⟩
    rw [Nat.zero_mul]
    exact hsame
  · obtain ⟨hlow, hhigh⟩ := hroom hgrows
    have hend : heap.heapEnd = k.heap.heapEnd + heapPages size * pageSize := by
      rw [hgrown, KHeap.growEnd_eq (by omega), wrap_of_lt (by omega)]
    have hpages : sub64 heap.heapEnd k.heap.heapEnd / pageSize = heapPages size := by
      rw [hend, sub64_of_le (by omega) (by omega), Nat.add_sub_cancel_left,
        Nat.mul_div_cancel _ (by decide)]
    rw [hpages] at hgrow
    exact ⟨_, k₁, hgrow, rfl, hend, fun _ => ⟨hlow, hhigh⟩, hpages⟩

/-- `kmalloc` keeps the forest, and no task sees it. -/
theorem Kernel.kmalloc_forest (hF : Forest p.kernelPml4 fb k.vm roots place)
    (hroom : RoomToGrow k.heap size) (h : k.kmalloc p size = some (ptr, k')) :
    GrowsHeap p.kernelPml4 fb roots place k k' := by
  obtain ⟨n, k₁, hgrow, hafter, -, hbounds, -⟩ := kmalloc_pages hroom h
  have hkeeps : GrowsHeap p.kernelPml4 fb roots place k k₁ := by
    cases n with
    | zero =>
      obtain rfl := Option.some_inj.mp hgrow
      exact ⟨⟨place, hF, .refl _ _⟩, .refl, fun _ _ => rfl, rfl, rfl⟩
    | succ n =>
      obtain ⟨hlow, hmax⟩ := hbounds (Nat.succ_pos n)
      exact growHeap_forest hF hlow hmax hgrow
  rw [hafter]
  exact ⟨hkeeps.forest, hkeeps.view, hkeeps.lower, hkeeps.sched_eq, hkeeps.reads_eq⟩

end Growth

end OpenIDP.Exec
