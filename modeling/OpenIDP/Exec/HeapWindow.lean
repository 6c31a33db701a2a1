import OpenIDP.Exec.HeapGrowth
import OpenIDP.Exec.Image
import OpenIDP.Memory.Walk

/-!
# The window of the kernel heap

The kernel heap has a fixed place in the upper half, and its pages are mapped into tables that come
from the boot loader. While the boot loader has mapped nothing in this window, growing the heap
takes no mapping away, steps on no huge page, and leaves every other page of the upper half as it
was.

## Main definitions

* `WindowClear` — nothing is mapped in a part of the window
* `copyBootloaderPml4` — where the kernel's tables come from
* `GrowsSafely` — what must hold of each page that is mapped

## Main results

* `growsSafely_run` — the heap grows safely as far as the window was clear
* `growsSafely_boot` — in the kernel's first tables, the boot loader has to leave it clear
* `growsSafely_not_hhdm` — it does not when the window holds the boot loader's huge pages
-/

namespace OpenIDP.Exec

open OpenIDP.Math OpenIDP.Memory OpenIDP.Process

/-- Nothing is mapped in the window between two addresses. -/
def WindowClear (mem : Frames) (pml4 start stop : ℕ) : Prop :=
  ∀ virt, start ≤ virt → virt < stop → virt < kheapMax →
    Memory.translate mem pml4 (indices virt) = none

/-- A page is mapped that was not mapped before. No huge page is followed as if it were a table, and
all other pages of the upper half are translated as before. -/
structure PageSafe (pml4 virt : ℕ) (mem mem' : Frames) : Prop where
  absent : Memory.translate mem pml4 (indices virt) = none
  plain : ∀ q i table, q ++ [i] <+: tablePath virt → follow mem pml4 q = some table →
    IsPresent (mem table i) → ¬ IsHuge (mem table i)
  others : ∀ path : Path, path.length = 4 → UpperPath path → path ≠ indices virt →
    Memory.translate mem' pml4 path = Memory.translate mem pml4 path

/-- Each page by which a call makes the heap grow is mapped safely. -/
def GrowsSafely (p : Platform) (k k' : Kernel) : Prop :=
  ∀ i < sub64 k'.heap.heapEnd k.heap.heapEnd / pageSize, ∃ k₁ k₂,
    Kernel.growHeap p i k.heap.heapEnd k = some k₁ ∧
      Kernel.growHeap p (i + 1) k.heap.heapEnd k = some k₂ ∧
      PageSafe p.kernelPml4 (k.heap.heapEnd + i * pageSize) k₁.vm.mem k₂.vm.mem

section Walk

variable {mem : Frames} {f t i : ℕ}

/-- A walk that finds nothing does not step on a huge page. -/
theorem not_isHuge_of_translate {q rest : Path} {j : Fin 512}
    (h : Memory.translate mem f (q ++ j :: rest) = none) (hq : follow mem f q = some t)
    (hpresent : IsPresent (mem t j)) : ¬ IsHuge (mem t j) := by
  induction q generalizing f with
  | nil =>
    obtain rfl := Option.some_inj.mp hq
    intro hhuge
    rw [List.nil_append, Memory.translate, if_pos hpresent, if_pos (Or.inr hhuge)] at h
    exact absurd h (Option.some_ne_none _)
  | cons a q ih =>
    obtain ⟨next, hnext, hrest⟩ := Option.bind_eq_some_iff.mp hq
    obtain ⟨hpres, rfl⟩ := nextTable_eq_some.mp hnext
    rw [List.cons_append, Memory.translate, if_pos hpres] at h
    split_ifs at h
    exact ih h hrest

/-- `copy_bootloader_pml4`: the entries of the boot loader's PML4 in an empty page. -/
def copyBootloaderPml4 (v : Vm) (bootPml4 kernelPml4 : ℕ) : Vm :=
  let v := v.clearPage kernelPml4
  { v with mem := Function.update v.mem kernelPml4 fun i =>
      if IsPresent (v.mem bootPml4 i) then v.mem bootPml4 i else v.mem kernelPml4 i }

/-- The kernel inherits the translations of the boot loader: its PML4 is not in use before. -/
theorem translate_copyBootloaderPml4 {v : Vm} {boot κ : ℕ} {path : Path}
    (hfresh : ∀ q, q <+: path → q ≠ path → follow v.mem boot q ≠ some κ) :
    Memory.translate (copyBootloaderPml4 v boot κ).mem κ path =
      Memory.translate v.mem boot path := by
  cases path with
  | nil => rfl
  | cons i path =>
    have hboot : boot ≠ κ := fun heq =>
      hfresh [] List.nil_prefix (List.cons_ne_nil i path).symm (congrArg some heq)
    have hother : ∀ g, g ≠ κ → (copyBootloaderPml4 v boot κ).mem g = v.mem g := by
      intro g hg
      rw [copyBootloaderPml4]
      simp only
      rw [Function.update_of_ne hg]
      funext j
      rw [Vm.mem_clearPage, if_neg hg]
    have hentry : (copyBootloaderPml4 v boot κ).mem κ i =
        if IsPresent (v.mem boot i) then v.mem boot i else 0 := by
      rw [copyBootloaderPml4]
      simp only
      rw [Function.update_self, Vm.mem_clearPage, if_neg hboot, Vm.mem_clearPage, if_pos rfl]
    by_cases hpresent : IsPresent (v.mem boot i)
    · rw [if_pos hpresent] at hentry
      rw [Memory.translate, Memory.translate, hentry, if_pos hpresent, if_pos hpresent]
      by_cases hends : path = [] ∨ IsHuge (v.mem boot i)
      · rw [if_pos hends, if_pos hends]
      · rw [if_neg hends, if_neg hends]
        refine translate_congr fun q j g hq hwalk => ?_
        rw [hother g]
        rintro rfl
        refine hfresh (i :: q) ?_ (fun heq => ?_) ?_
        · exact List.cons_prefix_cons.mpr ⟨rfl, (List.prefix_append q [j]).trans hq⟩
        · have hlen := hq.length_le
          rw [← (List.cons.inj heq).2, List.length_append] at hlen
          exact absurd hlen (by simp)
        · rw [follow, nextTable, if_pos hpresent]
          exact follow_of_walk hwalk
    · have hzero : ¬ IsPresent 0 := by decide
      rw [if_neg hpresent] at hentry
      rw [Memory.translate, Memory.translate, hentry, if_neg hpresent, if_neg hzero]

/-- When the boot loader maps nothing in the window, it is clear in the kernel's tables. -/
theorem windowClear_copyBootloaderPml4 {v : Vm} {boot κ start stop : ℕ}
    (hclear : WindowClear v.mem boot start stop)
    (hfresh : ∀ path : Path, path.length < 4 → follow v.mem boot path ≠ some κ) :
    WindowClear (copyBootloaderPml4 v boot κ).mem κ start stop := by
  intro virt hlow hstop hhigh
  rw [translate_copyBootloaderPml4 fun q hq hne => hfresh q ?_]
  · exact hclear virt hlow hstop hhigh
  · have hle : q.length ≤ 4 := hq.length_le
    refine hle.lt_of_ne fun heq => hne (hq.eq_of_length heq)

end Walk

section Growth

variable {roots fb : Set ℕ} {place : Places} {p : Platform} {k k' : Kernel}
  {n heapEnd stop size ptr : ℕ}

/-- Growing by several pages is growing by one page, and then by the others. -/
theorem growHeap_succ : Kernel.growHeap p (n + 1) heapEnd k =
    (Kernel.growHeap p 1 heapEnd k).bind (Kernel.growHeap p n (wrap (heapEnd + pageSize))) := by
  rw [Kernel.growHeap, Kernel.growHeap]
  simp only [Kernel.growHeap, Option.bind_eq_bind]
  rw [Option.bind_assoc]
  rfl

/-- Different pages behind the end of the heap have different indices. -/
theorem indices_ne {virt : ℕ} (hlow : kheapStart ≤ heapEnd) (hvirt : heapEnd + pageSize ≤ virt)
    (hhigh : virt < kheapMax) : indices virt ≠ indices heapEnd := by
  intro heq
  have hsame := indices_eq_iff.mp heq
  rw [SamePage] at hsame
  rw [kheapStart] at hlow
  rw [kheapMax] at hhigh
  rw [pageSize] at hvirt
  omega

theorem upperPath_indices {virt : ℕ} (hlow : kheapStart ≤ virt) (hhigh : virt < kheapMax) :
    UpperPath (indices virt) := by
  intro i hi
  obtain rfl := Option.some_inj.mp hi
  rw [pml4Index, tableIndex, Fin.val_ofNat, Nat.shiftRight_eq_div_pow]
  rw [kheapStart] at hlow
  rw [kheapMax] at hhigh
  omega

/-- One page is mapped in a window that is clear. -/
theorem growPage_safe (hF : Forest p.kernelPml4 fb k.vm roots place) (hlow : kheapStart ≤ heapEnd)
    (hhigh : heapEnd + pageSize ≤ kheapMax) (hstop : heapEnd + pageSize ≤ stop)
    (hclear : WindowClear k.vm.mem p.kernelPml4 heapEnd stop)
    (h : Kernel.growHeap p 1 heapEnd k = some k') :
    PageSafe p.kernelPml4 heapEnd k.vm.mem k'.vm.mem ∧
      (∃ place', Forest p.kernelPml4 fb k'.vm roots place') ∧
      WindowClear k'.vm.mem p.kernelPml4 (heapEnd + pageSize) stop := by
  have hend : heapEnd < kheapMax := by
    rw [pageSize] at hhigh
    omega
  have hbefore : heapEnd < stop := by
    rw [pageSize] at hstop
    omega
  obtain ⟨⟨page, v₁⟩, halloc⟩ : ∃ x, x = k.vm.allocFrame := ⟨_, rfl⟩
  have hF₁ : Forest p.kernelPml4 fb v₁ roots place ∧ v₁.mem = k.vm.mem := by
    cases page with
    | none => exact ⟨hF.alloc_none halloc.symm, (hF.sound.allocFrame_none halloc.symm).2.1⟩
    | some f => exact ⟨(hF.alloc halloc.symm).1, (hF.sound.allocFrame_some halloc.symm).2.2.1⟩
  obtain ⟨hF₁, hmem₁⟩ := hF₁
  rw [Kernel.growHeap, ← halloc] at h
  obtain ⟨v₂, hmap, hrest⟩ := Option.bind_eq_some_iff.mp h
  obtain rfl := Option.some_inj.mp hrest
  have hhalf : ¬ InUserHalf heapEnd := by
    have hup := upperPath_indices hlow hend (pml4Index heapEnd) rfl
    exact not_lt.mpr hup
  obtain ⟨place', hF', -, hupper, -⟩ := hF₁.vmmMapPage hF₁.kernel_place (iff_of_true rfl hhalf)
    (fun _ => ⟨hlow, hend⟩) (fun hne => absurd rfl hne) (by decide) hmap
  rw [hmem₁] at hupper
  have habsent := hclear heapEnd le_rfl hbefore hend
  have hothers : ∀ path : Path, path.length = 4 → UpperPath path → path ≠ indices heapEnd →
      Memory.translate v₂.mem p.kernelPml4 path = Memory.translate k.vm.mem p.kernelPml4 path :=
    fun path hlen hup hne => hupper _ (Or.inl rfl) path hlen hup fun hmem => hne hmem.2
  refine ⟨⟨habsent, fun q i table hpre hq hpresent => ?_, hothers⟩, ⟨place', hF'⟩,
    fun virt hvirt hvirt' hmax => ?_⟩
  · obtain ⟨rest, hrest⟩ := hpre
    rw [← tablePath_concat, ← hrest, List.append_assoc, List.append_assoc] at habsent
    exact not_isHuge_of_translate habsent hq hpresent
  · have hpos : 0 < pageSize := by decide
    rw [hothers _ rfl (upperPath_indices (by omega) hmax) (indices_ne hlow hvirt hmax)]
    exact hclear virt (by omega) hvirt' hmax

/-- All pages by which the heap grows are mapped safely. -/
theorem growHeap_safe (hF : Forest p.kernelPml4 fb k.vm roots place) (hlow : kheapStart ≤ heapEnd)
    (hhigh : heapEnd + n * pageSize ≤ kheapMax) (hstop : heapEnd + n * pageSize ≤ stop)
    (hclear : WindowClear k.vm.mem p.kernelPml4 heapEnd stop)
    (h : Kernel.growHeap p n heapEnd k = some k') :
    (∀ i < n, ∃ k₁ k₂, Kernel.growHeap p i heapEnd k = some k₁ ∧
        Kernel.growHeap p (i + 1) heapEnd k = some k₂ ∧
          PageSafe p.kernelPml4 (heapEnd + i * pageSize) k₁.vm.mem k₂.vm.mem) ∧
      (∃ place', Forest p.kernelPml4 fb k'.vm roots place') ∧
      WindowClear k'.vm.mem p.kernelPml4 (heapEnd + n * pageSize) stop := by
  induction n generalizing heapEnd k place with
  | zero =>
    obtain rfl := Option.some_inj.mp h
    refine ⟨fun i hi => absurd hi (Nat.not_lt_zero i), ⟨place, hF⟩, ?_⟩
    rwa [Nat.zero_mul, Nat.add_zero]
  | succ n ih =>
    have hmax : kheapMax < 2 ^ 64 := by decide
    have hend : heapEnd + pageSize + n * pageSize ≤ kheapMax := by
      refine le_trans (le_of_eq ?_) hhigh
      ring
    have hend' : heapEnd + pageSize + n * pageSize ≤ stop := by
      refine le_trans (le_of_eq ?_) hstop
      ring
    have hfirst : heapEnd + pageSize ≤ kheapMax := (Nat.le_add_right _ _).trans hend
    rw [growHeap_succ, wrap_of_lt (by omega)] at h
    obtain ⟨k₁, hpage, hrest⟩ := Option.bind_eq_some_iff.mp h
    obtain ⟨hsafe, ⟨place₁, hF₁⟩, hclear₁⟩ :=
      growPage_safe hF hlow hfirst ((Nat.le_add_right _ _).trans hend') hclear hpage
    obtain ⟨hall, hF', hclear'⟩ := ih hF₁ (by omega) hend hend' hclear₁ hrest
    refine ⟨fun i hi => ?_, hF', ?_⟩
    · cases i with
      | zero =>
        refine ⟨k, k₁, rfl, hpage, ?_⟩
        rwa [Nat.zero_mul, Nat.add_zero]
      | succ i =>
        obtain ⟨k₂, k₃, hk₂, hk₃, hpageSafe⟩ := hall i (by omega)
        refine ⟨k₂, k₃, ?_, ?_, ?_⟩
        · rw [growHeap_succ, wrap_of_lt (by omega), hpage, Option.bind_some, hk₂]
        · rw [growHeap_succ, wrap_of_lt (by omega), hpage, Option.bind_some, hk₃]
        · have hsum : heapEnd + (i + 1) * pageSize = heapEnd + pageSize + i * pageSize := by ring
          rwa [hsum]
    · have hsum : heapEnd + (n + 1) * pageSize = heapEnd + pageSize + n * pageSize := by ring
      rwa [hsum]

/-- One call of `kmalloc`. -/
def MallocStep (p : Platform) (k : Kernel) (size : ℕ) (k' : Kernel) : Prop :=
  ∃ ptr, k.kmalloc p size = some (ptr, k')

/-- The heap and its window, between the calls. -/
structure InWindow (p : Platform) (fb roots : Set ℕ) (stop : ℕ) (k : Kernel) : Prop where
  forest : ∃ place, Forest p.kernelPml4 fb k.vm roots place
  clear : WindowClear k.vm.mem p.kernelPml4 k.heap.heapEnd stop

/-- One call grows the heap safely, and leaves the rest of the window clear. -/
theorem InWindow.kmalloc (h : InWindow p fb roots stop k) (hroom : RoomToGrow k.heap size)
    (hstop : k'.heap.heapEnd ≤ stop) (hstep : MallocStep p k size k') :
    GrowsSafely p k k' ∧ InWindow p fb roots stop k' := by
  obtain ⟨ptr, hrun⟩ := hstep
  obtain ⟨⟨place, hF⟩, hclear⟩ := h
  obtain ⟨n, k₁, hgrow, hafter, hend, hbounds, hpages⟩ := Kernel.kmalloc_pages hroom hrun
  have hvm : k'.vm = k₁.vm := by rw [hafter]
  rw [hend] at hstop
  rw [GrowsSafely, hpages]
  suffices hsafe : _ ∧ (∃ place', Forest p.kernelPml4 fb k₁.vm roots place') ∧
      WindowClear k₁.vm.mem p.kernelPml4 (k.heap.heapEnd + n * pageSize) stop by
    refine ⟨hsafe.1, ?_, ?_⟩
    · rw [hvm]
      exact hsafe.2.1
    · rw [hvm, hend]
      exact hsafe.2.2
  cases n with
  | zero =>
    -- the heap stays as it is
    obtain rfl := Option.some_inj.mp hgrow
    refine ⟨fun i hi => absurd hi (Nat.not_lt_zero i), ⟨place, hF⟩, ?_⟩
    rwa [Nat.zero_mul, Nat.add_zero]
  | succ n =>
    obtain ⟨hlow, hmax⟩ := hbounds (Nat.succ_pos n)
    exact growHeap_safe hF hlow hmax hstop hclear hgrow

/-- The heap does not shrink. -/
theorem MallocStep.heapEnd_le (hroom : RoomToGrow k.heap size) (hstep : MallocStep p k size k') :
    k.heap.heapEnd ≤ k'.heap.heapEnd := by
  obtain ⟨ptr, hrun⟩ := hstep
  obtain ⟨n, -, -, -, hend, -⟩ := Kernel.kmalloc_pages hroom hrun
  rw [hend]
  exact Nat.le_add_right _ _

theorem InWindow.run {k₀ : Kernel} (h : InWindow p fb roots stop k₀)
    {trace : List (Transition Kernel ℕ)} (run : Reaches (Traced (MallocStep p)) k₀ trace k)
    (hroom : ∀ u ∈ trace, RoomToGrow u.before.heap u.label) (hstop : k.heap.heapEnd ≤ stop) :
    InWindow p fb roots stop k ∧ ∀ u ∈ trace, GrowsSafely p u.before u.after := by
  induction run with
  | start => exact ⟨h, fun u hu => absurd hu List.not_mem_nil⟩
  | snoc _ hlast ih =>
    obtain ⟨hbefore, hlabel⟩ := List.forall_mem_cons.mp hroom |>.symm
    obtain ⟨hsame, hafter, hstep⟩ := hlast
    rw [hsame] at hlabel
    obtain ⟨hwindow, hall⟩ := ih hbefore ((hstep.heapEnd_le hlabel).trans hstop)
    obtain ⟨hsafe, hwindow'⟩ := hwindow.kmalloc hlabel hstop hstep
    refine ⟨hwindow', List.forall_mem_cons.mpr ⟨?_, hall⟩⟩
    rw [hsame, hafter]
    exact hsafe

/-- In a run of `kmalloc` that stays in the window of the heap, every page is mapped safely: when
the kernel's tables are trees outside free memory, and map nothing in the part of the window that
the heap grows into. -/
theorem growsSafely_run {k₀ : Kernel} (hF : Forest p.kernelPml4 fb k₀.vm roots place)
    (hclear : WindowClear k₀.vm.mem p.kernelPml4 k₀.heap.heapEnd k.heap.heapEnd)
    {trace : List (Transition Kernel ℕ)} (run : Reaches (Traced (MallocStep p)) k₀ trace k)
    (hroom : ∀ u ∈ trace, RoomToGrow u.before.heap u.label) :
    ∀ u ∈ trace, GrowsSafely p u.before u.after := by
  have hstart : InWindow p fb roots k.heap.heapEnd k₀ := ⟨⟨place, hF⟩, hclear⟩
  exact (hstart.run run hroom (Nat.le_refl _)).2

/-- With the tables that come from the boot loader, it is the boot loader that has to leave this
part of the window clear. -/
theorem growsSafely_boot {k₀ : Kernel} {v : Vm} {boot : ℕ}
    (hF : Forest p.kernelPml4 fb k₀.vm roots place)
    (hboot : k₀.vm.mem = (copyBootloaderPml4 v boot p.kernelPml4).mem)
    (hfresh : ∀ path : Path, path.length < 4 → follow v.mem boot path ≠ some p.kernelPml4)
    (hclear : WindowClear v.mem boot k₀.heap.heapEnd k.heap.heapEnd)
    {trace : List (Transition Kernel ℕ)} (run : Reaches (Traced (MallocStep p)) k₀ trace k)
    (hroom : ∀ u ∈ trace, RoomToGrow u.before.heap u.label) :
    ∀ u ∈ trace, GrowsSafely p u.before u.after := by
  have hcopied := windowClear_copyBootloaderPml4 hclear hfresh
  rw [← hboot] at hcopied
  have hstart : InWindow p fb roots k.heap.heapEnd k₀ := ⟨⟨place, hF⟩, hcopied⟩
  exact (hstart.run run hroom (Nat.le_refl _)).2

end Growth

/-- The heap grows by a page in a window that is clear. -/
theorem growsSafely_run_sampleLoader : ∃ k, Reaches (Traced (MallocStep sampleBios)) sampleLoader
    [⟨sampleLoader, 4080, k⟩] k ∧ GrowsSafely sampleBios sampleLoader k ∧
      sampleLoader.heap.heapEnd < k.heap.heapEnd := by
  have hruns : ((sampleLoader.kmalloc sampleBios 4080).any fun x =>
      decide (sampleLoader.heap.heapEnd < x.2.heap.heapEnd)) = true := by decide +kernel
  obtain ⟨⟨ptr, k⟩, hrun, hgrows⟩ := (Option.any_eq_true _ _).mp hruns
  have run : Reaches (Traced (MallocStep sampleBios)) sampleLoader [⟨sampleLoader, 4080, k⟩] k :=
    Reaches.start.snoc ⟨rfl, rfl, ptr, hrun⟩
  have hzero : ¬ IsPresent 0 := by decide
  have hclear : WindowClear sampleLoader.vm.mem sampleBios.kernelPml4 sampleLoader.heap.heapEnd
      k.heap.heapEnd := fun virt _ _ _ => if_neg hzero
  have hroom : RoomToGrow sampleLoader.heap 4080 := HeapRoom.toGrow (by decide +kernel)
  have hF : Forest sampleBios.kernelPml4 ∅ sampleLoader.vm {0x2000} samplePlaces := sampleVm_forest
  have hall := growsSafely_run hF hclear run fun u hu => (List.mem_singleton.mp hu).symm ▸ hroom
  exact ⟨k, run, hall ⟨sampleLoader, 4080, k⟩ List.mem_cons_self, of_decide_eq_true hgrows⟩

/-- The boot loader maps physical memory at `0xFFFF800000000000`, with a page of 1 GiB. -/
def hhdmLoader : Kernel :=
  { sampleLoader with
    vm := { sampleVm with mem := fun f i =>
      if f = 0x1000 ∧ i.val = 256 then 0x3007 else if f = 0x3000 ∧ i.val = 0 then 0x83 else 0 }
    heap := { hdr := fun _ => ⟨0, 0, false, 0, 0⟩, head := 0, heapEnd := kheapStart } }

/-- Then the first page of the heap is mapped already, and the contents of physical memory are
overwritten as if the huge page were a table. -/
theorem growsSafely_not_hhdm : hhdmLoader.vm.pmm.hhdm = kheapStart ∧
    Memory.translate hhdmLoader.vm.mem sampleBios.kernelPml4 (indices kheapStart) =
      some ([0, 0], 0x83) ∧
    hhdmLoader.vm.mem 0 0 = 0 ∧
    (∃ k₁, hhdmLoader.growHeap sampleBios 1 kheapStart = some k₁ ∧ k₁.vm.mem 0 0 = 0x4007) ∧
    ∃ ptr k', hhdmLoader.kmalloc sampleBios 16 = some (ptr, k') ∧
      ¬ GrowsSafely sampleBios hhdmLoader k' := by
  have hmapped : Memory.translate hhdmLoader.vm.mem sampleBios.kernelPml4 (indices kheapStart) =
      some ([0, 0], 0x83) := by decide +kernel
  have hgrows : ((hhdmLoader.growHeap sampleBios 1 kheapStart).map fun k₁ => k₁.vm.mem 0 0) =
      some 0x4007 := by decide +kernel
  have hruns : ((hhdmLoader.kmalloc sampleBios 16).any fun x => decide
      (0 < sub64 x.2.heap.heapEnd hhdmLoader.heap.heapEnd / pageSize)) = true := by decide +kernel
  obtain ⟨⟨ptr, k'⟩, hrun, hfacts⟩ := (Option.any_eq_true _ _).mp hruns
  have hpages := of_decide_eq_true hfacts
  refine ⟨rfl, hmapped, rfl, Option.map_eq_some_iff.mp hgrows, ptr, k', hrun, fun hsafe => ?_⟩
  obtain ⟨k₁, k₂, hfirst, -, hpage⟩ := hsafe 0 hpages
  obtain rfl := Option.some_inj.mp hfirst
  have habsent := hpage.absent
  rw [Nat.zero_mul, Nat.add_zero] at habsent
  exact absurd (hmapped.symm.trans habsent) (Option.some_ne_none _)

end OpenIDP.Exec
