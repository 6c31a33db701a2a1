import OpenIDP.Memory.MapRuns
import OpenIDP.Memory.Teardown

/-!
# The lifetime of an address space

An address space begins with a PML4 from `pmm_alloc_page`. Pages are mapped in it, each to a
frame of its own, and in the end `destroy_user_memory` gives back what is below the PML4 and
`pmm_free_page` the PML4. Whatever was mapped, the page allocator is then as it was.

## Main definitions

* `Build`, `BuildStep` — mapping pages to frames from the page allocator
* `BuildInv` — every frame handed out is a table, a page, or waits to be mapped
* `Undone` — the teardown gave back everything, once, and kept to the lower half

## Main results

* `BuildInv.step` — what mapping a page keeps
* `teardown_undoes` — the teardown undoes the construction
-/

namespace OpenIDP.Memory

open OpenIDP.Math

/-- An address space under construction. -/
structure Build where
  vm : Vm
  /-- the frames handed out for pages that are not mapped yet -/
  pool : Set ℕ
  /-- the pages mapped so far -/
  pages : List ℕ

/-- What happened in a step. -/
inductive BuildEvent
  | alloc (frame : ℕ)
  | map (virt frame flags : ℕ)

/-- A frame is handed out, or mapped to a page that has not been mapped yet. -/
inductive BuildStep (root : ℕ) : Build → BuildEvent → Build → Prop
  | alloc {b : Build} {f : ℕ} {v' : Vm} (h : b.vm.allocFrame = (some f, v')) :
      BuildStep root b (.alloc f) ⟨v', insert f b.pool, b.pages⟩
  | map {b : Build} {virt f flags : ℕ} {v' : Vm} (hvirt : InUserHalf virt)
      (hnew : ∀ x ∈ b.pages, ¬ SamePage virt x) (hf : f ∈ b.pool) (hflags : entryFrame flags = 0)
      (h : b.vm.vmmMapPage root virt f flags = some v') :
      BuildStep root b (.map virt f flags) ⟨v', b.pool \ {f}, virt :: b.pages⟩

/-- An address space of which nothing is mapped yet. -/
def Build.start (v : Vm) (root kernelPml4 : ℕ) : Build :=
  ⟨v.copyKernelHalf root kernelPml4, ∅, []⟩

/-- The frames handed out since `v₀` are the tables and pages of the address space and those
that wait to be mapped. -/
structure BuildInv (v₀ : Vm) (root : ℕ) (b : Build) (given : List ℕ) : Prop where
  space : Space 4 root b.vm
  lends : Vm.Lends given v₀ b.vm
  mem_given : ∀ f, f ∈ given ↔
    (∃ q : Path, q.length ≤ 4 ∧ reach b.vm.mem root q = some f) ∨ f ∈ b.pool
  pool_apart : ∀ f ∈ b.pool, ∀ q : Path, q.length ≤ 4 → reach b.vm.mem root q ≠ some f
  mapped : ∀ virt, InUserHalf virt → (∀ x ∈ b.pages, ¬ SamePage virt x) →
    pageEntry b.vm.mem root virt = none

section Steps

variable {v₀ v v' : Vm} {root κ f : ℕ} {b b' : Build} {given : List ℕ} {event : BuildEvent}
variable {history : List BuildEvent}

theorem BuildInv.start (hv : v₀.Sound) (halloc : v₀.allocFrame = (some root, v)) (κ : ℕ) :
    BuildInv v₀ root (.start v root κ) [root] := by
  obtain ⟨hlends, -⟩ := hv.lends_alloc halloc
  have hlent : root ∈ v.lent := hlends.mem_lent (List.mem_singleton.mpr rfl)
  have hnone : ∀ i, lowerTable (v.copyKernelHalf root κ).mem root root i = none := by
    intro i
    rw [lowerTable]
    split_ifs with hupper
    · rfl
    · have hlow : i.val < 256 := Nat.not_le.mp fun hle => hupper ⟨rfl, hle⟩
      have hzero : (v.copyKernelHalf root κ).mem root i = 0 := by
        rw [Vm.mem_copyKernelHalf, if_pos hlow]
      rw [nextTable, hzero]
      rfl
  have hnil : ∀ {p : Path} {g}, reach (v.copyKernelHalf root κ).mem root p = some g →
      p = [] ∧ g = root := by
    intro p g hg
    cases p with
    | nil => exact ⟨rfl, (Option.some_inj.mp hg).symm⟩
    | cons i p =>
      rw [reach, descend_cons, hnone] at hg
      cases hg
  have hlends' : Vm.Lends [root] v₀ (v.copyKernelHalf root κ) := hlends.of_same rfl rfl rfl
  refine ⟨⟨hlends'.sound, by decide, .of_empty hnone, fun {p g} _ hg => ?_,
    fun {p g i} _ hg hlow hpresent => ?_⟩, hlends', fun g => ?_, fun g hg => hg.elim,
    fun virt hvirt _ => ?_⟩
  · rw [(hnil hg).2]
    exact hlends'.sound.not_free hlent
  · rw [(hnil hg).2] at hlow hpresent
    have habsent := hnone i
    change IsPresent ((v.copyKernelHalf root κ).mem root i) at hpresent
    rw [lowerTable_of_lower hlow, nextTable, if_pos hpresent] at habsent
    cases habsent
  · rw [List.mem_singleton]
    constructor
    · rintro rfl
      exact Or.inl ⟨[], Nat.zero_le _, rfl⟩
    · rintro (⟨q, -, hq⟩ | hpool)
      · exact (hnil hq).2
      · exact hpool.elim
  · rw [pageEntry, leafEntry, reach, tablePath, Build.start, descend_cons, hnone]
    rfl

theorem BuildInv.alloc (h : BuildInv v₀ root b given) (halloc : b.vm.allocFrame = (some f, v')) :
    BuildInv v₀ root ⟨v', insert f b.pool, b.pages⟩ ([f] ++ given) := by
  obtain ⟨hlends, hmem⟩ := h.space.sound.lends_alloc halloc
  have hfree : b.vm.pmm.Free f := hlends.free f (List.mem_singleton.mpr rfl)
  obtain ⟨hspace, -⟩ := h.space.congr hlends.sound
    (fun p g hp hg hfree' => h.space.not_free hp hg (hlends.free_iff.mp hfree').1)
    fun p g i _ _ => by rw [hmem]
  refine ⟨hspace, h.lends.trans hlends, fun g => ?_, ?_, ?_⟩
  · rw [List.singleton_append, List.mem_cons, h.mem_given, hmem, Set.mem_insert_iff]
    exact or_left_comm
  · rw [hmem]
    rintro g (rfl | hg) q hq hreach
    · exact h.space.not_free hq hreach hfree
    · exact h.pool_apart g hg q hq hreach
  · rw [hmem]
    exact h.mapped

theorem BuildInv.map (h : BuildInv v₀ root b given) {virt flags : ℕ} (hvirt : InUserHalf virt)
    (hnew : ∀ x ∈ b.pages, ¬ SamePage virt x) (hf : f ∈ b.pool) (hflags : entryFrame flags = 0)
    (hrun : b.vm.vmmMapPage root virt f flags = some v') :
    ∃ given', BuildInv v₀ root ⟨v', b.pool \ {f}, virt :: b.pages⟩ given' := by
  rw [Vm.vmmMapPage_eq] at hrun
  obtain ⟨⟨t, v₁⟩, hrun₁, rfl⟩ := Option.map_eq_some_iff.mp hrun
  obtain ⟨new, hgrows, ht⟩ := h.space.pageTableFor hvirt hrun₁
  have hgiven : ∀ {g}, g ∈ b.pool → g ∈ given := fun hg => (h.mem_given _).mpr (Or.inr hg)
  -- frames that wait are in use, so no table was put into them
  have hnotNew : ∀ {g}, g ∈ b.pool → g ∉ new := fun hg hg' =>
    h.space.sound.not_free (h.lends.mem_lent (hgiven hg)) (hgrows.lends.free _ hg')
  have hapart : ∀ g ∈ b.pool, ∀ q : Path, q.length ≤ 4 → reach v₁.mem root q ≠ some g := by
    intro g hg q hq hreach
    rcases hgrows.fresh hq hreach with hold | hmem
    · exact h.pool_apart g hg q hq hold
    · exact hnotNew hg hmem
  have hlent : f ∈ v₁.lent := hgrows.lends.lent_subset (h.lends.mem_lent (hgiven hf))
  have habsent : ¬ IsPresent (v₁.mem t (ptIndex virt)) := by
    have hentry : leafEntry v₁.mem root (tablePath virt) (ptIndex virt) = none :=
      (hgrows.leaf rfl _).trans (h.mapped virt hvirt hnew)
    rw [leafEntry, ht, Option.bind_some, presentEntry] at hentry
    intro hpresent
    rw [if_pos hpresent] at hentry
    cases hentry
  obtain ⟨hframe, hpresent⟩ := @entry_page flags f hflags
  have hisFrame : entryFrame f = f := hgrows.lends.sound.isFrame hlent
  obtain ⟨hspace, hreach⟩ := hgrows.space.linkPage (i := ptIndex virt) ht rfl habsent
    (hgrows.lends.sound.not_free hlent) (hapart f hf) (hframe.trans hisFrame) hpresent
  obtain ⟨-, -, -, hother⟩ := (hgrows.space.mono (by decide) (Nat.le_refl 3)).setEntry
    (i := ptIndex virt) ht rfl ((f &&& pageAlignMask) ||| flags ||| vmmPresent)
  refine ⟨new ++ given, hspace, (h.lends.trans hgrows.lends).of_same rfl rfl rfl, fun g => ?_,
    fun g hg q hq => ?_, fun x hx hxnew => ?_⟩
  · rw [List.mem_append, h.mem_given]
    constructor
    · have hold : ∀ {q : Path}, q.length ≤ 4 → reach v₁.mem root q = some g →
          (∃ q : Path, q.length ≤ 4 ∧ reach (v₁.setWord t (ptIndex virt)
            ((f &&& pageAlignMask) ||| flags ||| vmmPresent)).mem root q = some g) := by
        intro q hq hg
        refine ⟨q, hq, ?_⟩
        rw [hreach q hq, if_neg]
        · exact hg
        · rintro rfl
          rw [reach_concat ht] at hg
          exact habsent (lowerTable_eq_some.mp hg).2.1
      rintro (hg | ⟨q, hq, hg⟩ | hg)
      · obtain ⟨q, hq, hg⟩ := hgrows.tables g hg
        exact Or.inl (hold (by omega) hg)
      · exact Or.inl (hold hq (hgrows.keep hq hg))
      · by_cases hgf : g = f
        · refine Or.inl ⟨tablePath virt ++ [ptIndex virt], by simp [tablePath], ?_⟩
          rw [hreach _ (by simp [tablePath]), if_pos rfl, hgf]
        · exact Or.inr ⟨hg, hgf⟩
    · rintro (⟨q, hq, hg⟩ | hg)
      · rw [hreach q hq] at hg
        split_ifs at hg
        · rw [← Option.some_inj.mp hg]
          exact Or.inr (Or.inr hf)
        · rcases hgrows.fresh hq hg with hg | hg
          · exact Or.inr (Or.inl ⟨q, hq, hg⟩)
          · exact Or.inl hg
      · exact Or.inr (Or.inr hg.1)
  · rw [hreach q hq]
    split_ifs
    · exact fun e => hg.2 (Option.some_inj.mp e).symm
    · exact hapart g hg.1 q hq
  · have hpage : ¬ SamePage x virt := hxnew virt List.mem_cons_self
    refine (hother _ _ rfl fun hpath => ptIndex_ne hpage hpath).trans ?_
    refine (hgrows.leaf rfl _).trans (h.mapped x hx fun y hy => ?_)
    exact hxnew y (List.mem_cons_of_mem _ hy)

theorem BuildInv.step (h : BuildInv v₀ root b given) (hstep : BuildStep root b event b') :
    ∃ given', BuildInv v₀ root b' given' := by
  cases hstep with
  | alloc halloc => exact ⟨_, h.alloc halloc⟩
  | map hvirt hnew hf hflags hrun => exact h.map hvirt hnew hf hflags hrun

theorem BuildInv.run (hv : v₀.Sound) (halloc : v₀.allocFrame = (some root, v))
    (run : Reaches (BuildStep root) (.start v root κ) history b) :
    ∃ given, BuildInv v₀ root b given := by
  apply run.invariant_state (I := fun b => ∃ given, BuildInv v₀ root b given)
  · exact ⟨_, .start hv halloc κ⟩
  · rintro b event b' ⟨given, h⟩ hstep
    exact h.step hstep

end Steps

/-! ## Teardown -/

/-- After `destroy_user_memory` (`v₁`) and `pmm_free_page` for the PML4 (`v₂`), the frames of
the address space `v` have been given back, each once, and nothing else: the page allocator is
as it was in `v₀`. The upper half of the PML4 is as it was, and so are all other tables. -/
structure Undone (root : ℕ) (v₀ v v₁ v₂ : Vm) : Prop where
  freed : ∃ frames : List ℕ, v₂.freed = frames ++ v₀.freed ∧ frames.Nodup ∧
    ∀ f, f ∈ frames ↔ ∃ q : Path, q.length ≤ 4 ∧ reach v.mem root q = some f
  bitmap_eq : v₂.pmm.bitmap = v₀.pmm.bitmap
  usedPages_eq : v₂.pmm.usedPages = v₀.pmm.usedPages
  upper : ∀ j : Fin 512, 256 ≤ j.val → v₁.mem root j = v.mem root j
  outside : ∀ g, (∀ q : Path, q.length ≤ 3 → reach v.mem root q ≠ some g) → v₁.mem g = v.mem g

section Teardown

variable {v₀ v : Vm} {root κ : ℕ} {b : Build} {history : List BuildEvent} {given : List ℕ}

theorem BuildInv.undone (h : BuildInv v₀ root b given) (hv : v₀.Sound) (hpool : b.pool = ∅) :
    Undone root v₀ b.vm (b.vm.destroyUserMemory root)
      ((b.vm.destroyUserMemory root).freeFrame root) := by
  obtain ⟨htears, hupper⟩ := h.space.destroyUserMemory
  have htree : IsTree (lowerTable b.vm.mem root) 3 root := h.space.tree.mono (by decide)
  -- the PML4 is given back last
  obtain ⟨frames, hframes⟩ : ∃ frames, frames = lowerFrames b.vm.mem root ++ [root] := ⟨_, rfl⟩
  have hmem : ∀ f, f ∈ frames ↔ ∃ q : Path, q.length ≤ 4 ∧ reach b.vm.mem root q = some f := by
    intro f
    rw [hframes, List.mem_append, mem_lowerFrames htree, List.mem_singleton]
    constructor
    · rintro (⟨q, -, hq, hf⟩ | rfl)
      · exact ⟨q, hq, hf⟩
      · exact ⟨[], Nat.zero_le _, rfl⟩
    · rintro ⟨q, hq, hf⟩
      by_cases hnil : q = []
      · rw [hnil] at hf
        exact Or.inr (Option.some_inj.mp hf).symm
      · exact Or.inl ⟨q, hnil, hq, hf⟩
  have hnodup : frames.Nodup := by
    rw [hframes]
    refine List.nodup_append'.mpr ⟨nodup_lowerFrames h.space.tree, List.nodup_singleton _, ?_⟩
    intro f hf hroot
    obtain ⟨q, hne, hq, hreach⟩ := (mem_lowerFrames htree).mp hf
    exact hne ((h.space.root_iff hq hreach).mp (List.mem_singleton.mp hroot))
  have hgiven : ∀ f, f ∈ frames ↔ f ∈ given := by
    intro f
    rw [hmem, h.mem_given, hpool]
    exact (or_iff_left (Set.notMem_empty f)).symm
  have hreturns : Vm.Returns frames b.vm (b.vm.freeAll frames) := by
    refine h.space.sound.returns_freeAll fun f hf => ?_
    obtain ⟨page, hlt, heq, -⟩ :=
      h.space.sound.lent_used f (h.lends.mem_lent ((hgiven f).mp hf))
    exact ⟨page, hlt, heq⟩
  have hbooks : Vm.SameBooks (b.vm.freeAll frames)
      ((b.vm.destroyUserMemory root).freeFrame root) := by
    rw [hframes, Vm.freeAll_append]
    exact htears.books.freeFrame root
  obtain ⟨hbitmap, hused, -⟩ := h.lends.restored hreturns hv hgiven
  refine ⟨⟨frames.reverse, ?_, List.nodup_reverse.mpr hnodup, fun f => ?_⟩, ?_, ?_, hupper,
    fun g hg => htears.outside g fun ⟨q, hq, hf⟩ => hg q hq hf⟩
  · rw [hbooks.freed_eq, hreturns.freed_eq, h.lends.freed_eq]
  · rw [List.mem_reverse, hmem]
  · rw [hbooks.pmm_eq, hbitmap]
  · rw [hbooks.pmm_eq, hused]

/-- Teardown undoes construction. -/
theorem teardown_undoes (hv : v₀.Sound) (halloc : v₀.allocFrame = (some root, v))
    (run : Reaches (BuildStep root) (.start v root κ) history b) (hpool : b.pool = ∅) :
    Undone root v₀ b.vm (b.vm.destroyUserMemory root)
      ((b.vm.destroyUserMemory root).freeFrame root) := by
  obtain ⟨given, h⟩ := BuildInv.run hv halloc run
  exact h.undone hv hpool

/-- One page is mapped with the five free frames of the sample memory. -/
theorem teardown_undoes_sampleVm : ∃ (root : ℕ) (b : Build), b.pages = [0x400000] ∧
    Undone root sampleVm b.vm (b.vm.destroyUserMemory root)
      ((b.vm.destroyUserMemory root).freeFrame root) := by
  obtain ⟨root, v, hroot⟩ := sampleVm_sound.exists_allocFrame (by decide)
  have hstart := BuildInv.start sampleVm_sound hroot 0
  have hused := hstart.lends.used
  have htotal := hstart.lends.total
  have hsample : sampleVm.pmm.usedPages = 3 ∧ sampleVm.pmm.totalPages = 8 := by decide
  rw [hsample.1, List.length_singleton] at hused
  rw [hsample.2] at htotal
  obtain ⟨f, v₁, hf⟩ := hstart.space.sound.exists_allocFrame (by omega)
  have halloc : BuildStep root (.start v root 0) (.alloc f) ⟨v₁, insert f ∅, []⟩ := .alloc hf
  obtain ⟨hlends, -⟩ := hstart.space.sound.lends_alloc hf
  have hused₁ := hlends.used
  have htotal₁ := hlends.total
  rw [hused, List.length_singleton] at hused₁
  rw [htotal] at htotal₁
  obtain ⟨v₂, hmap, -⟩ := hlends.sound.exists_vmmMapPage (by omega) root 0x400000 f 7
  have hstep : BuildStep root ⟨v₁, insert f ∅, []⟩ (.map 0x400000 f 7)
      ⟨v₂, insert f ∅ \ {f}, [0x400000]⟩ :=
    .map (by decide) (fun x hx => absurd hx List.not_mem_nil) (Set.mem_insert _ _) (by decide) hmap
  refine ⟨root, _, rfl, teardown_undoes sampleVm_sound hroot
    ((Reaches.start.snoc halloc).snoc hstep) ?_⟩
  simp

end Teardown

end OpenIDP.Memory
