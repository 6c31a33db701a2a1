import OpenIDP.Math.Reaches
import OpenIDP.Memory.AddressSpace

/-!
# Sequences of mappings

What `vmm_map_page`, `vmm_unmap_page` and `vmm_get_mapping` promise of an address space that
starts with an empty PML4 and is changed by these functions only. Between the calls the rest
of the kernel may use memory and the page allocator as it likes, as long as it leaves the
tables of the address space alone.

## Main definitions

* `SamePage` — two addresses on one page
* `MapStep` — the calls, and what the rest of the kernel does in between
* `MapsCorrectly` — the promise

## Main results

* `Space.vmmMapPage`, `Space.vmmUnmapPage` — the effect of a call on every page
* `maps_correctly` — the promise holds in every state of a run
-/

namespace OpenIDP.Memory

open OpenIDP.Math

/-- The addresses agree in bits 12 to 47. -/
def SamePage (x virt : ℕ) : Prop := x / 2 ^ 12 % 2 ^ 36 = virt / 2 ^ 12 % 2 ^ 36

instance (x virt : ℕ) : Decidable (SamePage x virt) := inferInstanceAs (Decidable (_ = _))

section Pages

variable {depth root t virt x phys flags : ℕ} {v v' : Vm} {mem : Frames}

theorem tableIndex_eq_iff {shift : ℕ} : tableIndex shift x = tableIndex shift virt ↔
    x / 2 ^ shift % 512 = virt / 2 ^ shift % 512 := by
  rw [Fin.ext_iff, tableIndex, tableIndex, Fin.val_ofNat, Fin.val_ofNat,
    Nat.shiftRight_eq_div_pow, Nat.shiftRight_eq_div_pow]

/-- The four indices say which page an address is on. -/
theorem indices_eq_iff : indices x = indices virt ↔ SamePage x virt := by
  simp only [indices, List.cons.injEq, and_true, pml4Index, pdptIndex, pdIndex, ptIndex,
    tableIndex_eq_iff, SamePage]
  omega

theorem tablePath_concat (virt : ℕ) : tablePath virt ++ [ptIndex virt] = indices virt := rfl

/-- The entry of a page depends on the page only. -/
theorem pageEntry_congr (h : SamePage x virt) : pageEntry mem root x = pageEntry mem root virt := by
  have heq := indices_eq_iff.mpr h
  rw [← tablePath_concat, ← tablePath_concat] at heq
  obtain ⟨hpath, hindex⟩ := List.append_inj' heq rfl
  rw [pageEntry, pageEntry, hpath, List.singleton_inj.mp hindex]

theorem ptIndex_ne (h : ¬ SamePage x virt) (hpath : tablePath x = tablePath virt) :
    ptIndex x ≠ ptIndex virt := by
  intro hindex
  refine h (indices_eq_iff.mp ?_)
  rw [← tablePath_concat, ← tablePath_concat, hpath, hindex]

theorem inUserHalf_congr (h : SamePage x virt) : InUserHalf x ↔ InUserHalf virt := by
  have heq := (List.cons.inj (indices_eq_iff.mpr h)).1
  rw [InUserHalf, InUserHalf, heq]

/-- The last table of a page, as the code walks to it. -/
theorem pageTableOf_eq (hvirt : InUserHalf virt) (htree : IsTree (lowerTable mem root) 3 root) :
    pageTableOf mem root virt = reach mem root (tablePath virt) := by
  have hroot : lowerTable mem root root (pml4Index virt) = nextTable mem root (pml4Index virt) :=
    lowerTable_of_lower fun h => Nat.not_le.mpr hvirt h.2
  -- below the root there is no upper half
  have hbelow : ∀ {p : Path} {g} (j : Fin 512), p ≠ [] → p.length ≤ 3 →
      reach mem root p = some g → lowerTable mem root g j = nextTable mem g j := by
    intro p g j hne hp hg
    refine lowerTable_of_lower fun h => hne ?_
    exact htree hp (Nat.zero_le _) hg (congrArg some h.1.symm)
  rw [pageTableOf, reach, tablePath, descend_cons, hroot]
  refine Option.bind_congr fun pdpt hpdpt => ?_
  have hreach : reach mem root [pml4Index virt] = some pdpt := by
    rw [reach, descend_cons, hroot, hpdpt]
    rfl
  rw [descend_cons, hbelow _ (by simp) (by simp) hreach]
  refine Option.bind_congr fun pd hpd => ?_
  have hreach' : reach mem root ([pml4Index virt] ++ [pdptIndex virt]) = some pd := by
    rw [reach_concat hreach, hbelow _ (by simp) (by simp) hreach]
    exact hpd
  rw [descend_cons, hbelow _ (by simp) (by simp) hreach']
  exact (Option.bind_fun_some _).symm

/-! ## The calls -/

/-- `vmm_map_page`: the entry is found on the page, and no other page changes. -/
theorem Space.vmmMapPage (h : Space 3 root v) (hvirt : InUserHalf virt)
    (hrun : v.vmmMapPage root virt phys flags = some v') :
    Space 3 root v' ∧
      pageEntry v'.mem root virt = some ((phys &&& pageAlignMask) ||| flags ||| vmmPresent) ∧
      (∀ x, ¬ SamePage x virt → pageEntry v'.mem root x = pageEntry v.mem root x) ∧
      ∀ j : Fin 512, 256 ≤ j.val → v'.mem root j = v.mem root j := by
  rw [Vm.vmmMapPage_eq] at hrun
  obtain ⟨⟨t, v₁⟩, hrun₁, rfl⟩ := Option.map_eq_some_iff.mp hrun
  obtain ⟨new, hgrows, ht⟩ := h.pageTableFor hvirt hrun₁
  obtain ⟨hspace, -, hentry, hother⟩ := hgrows.space.setEntry (i := ptIndex virt) ht rfl
    ((phys &&& pageAlignMask) ||| flags ||| vmmPresent)
  refine ⟨hspace, hentry.trans ?_, fun x hx => ?_, fun j hj => ?_⟩
  · exact if_pos (isPresent_or.mpr (Or.inr (by decide)))
  · refine (hother _ _ rfl fun hpath => ptIndex_ne hx hpath).trans ?_
    exact hgrows.leaf rfl _
  · refine (Vm.mem_setWord _ _ _).trans ((if_neg fun e => ?_).trans (hgrows.upper j hj))
    -- the last table is not the PML4
    have hnil := (hgrows.space.root_iff (by simp [tablePath]) ht).mp e.1.symm
    simp [tablePath] at hnil

/-- `vmm_unmap_page`: nothing is found on the page, and no other page changes. -/
theorem Space.vmmUnmapPage (h : Space 3 root v) (hvirt : InUserHalf virt) :
    Space 3 root (v.vmmUnmapPage root virt) ∧
      pageEntry (v.vmmUnmapPage root virt).mem root virt = none ∧
      (∀ x, ¬ SamePage x virt →
        pageEntry (v.vmmUnmapPage root virt).mem root x = pageEntry v.mem root x) ∧
      ∀ j : Fin 512, 256 ≤ j.val → (v.vmmUnmapPage root virt).mem root j = v.mem root j := by
  rw [Vm.vmmUnmapPage, pageTableOf_eq hvirt h.tree]
  cases ht : reach v.mem root (tablePath virt) with
  | none =>
    refine ⟨h, ?_, fun _ _ => rfl, fun _ _ => rfl⟩
    rw [pageEntry, leafEntry, ht]
    rfl
  | some t =>
    by_cases hpresent : IsPresent (v.mem t (ptIndex virt))
    · simp only [if_pos hpresent]
      obtain ⟨hspace, -, hentry, hother⟩ := h.setEntry (i := ptIndex virt) ht rfl 0
      refine ⟨hspace, hentry.trans (if_neg (by decide)), fun x hx => ?_, fun j _ => ?_⟩
      · exact hother _ _ rfl fun hpath => ptIndex_ne hx hpath
      · refine (Vm.mem_setWord _ _ _).trans (if_neg fun e => ?_)
        have hnil := (h.root_iff (by simp [tablePath]) ht).mp e.1.symm
        simp [tablePath] at hnil
    · simp only [if_neg hpresent]
      refine ⟨h, ?_, fun _ _ => trivial, fun _ _ => trivial⟩
      rw [pageEntry, leafEntry, ht, Option.bind_some, presentEntry, if_neg hpresent]

/-- `vmm_get_mapping`: the frame of the entry, or `0`. -/
theorem Space.vmmGetMapping_eq (h : Space 3 root v) (hvirt : InUserHalf virt) :
    vmmGetMapping v.mem root virt = ((pageEntry v.mem root virt).map entryFrame).getD 0 := by
  rw [vmmGetMapping, pageTableOf_eq hvirt h.tree, pageEntry, leafEntry]
  cases ht : reach v.mem root (tablePath virt) with
  | none => rfl
  | some t =>
    rw [Option.bind_some, presentEntry]
    by_cases hpresent : IsPresent (v.mem t (ptIndex virt))
    · simp only [if_pos hpresent]
      rfl
    · simp only [if_neg hpresent]
      rfl

/-- As long as a page is left, a missing table can be added. -/
theorem Vm.Sound.exists_getOrAllocTable (hv : v.Sound)
    (hroom : v.pmm.usedPages < v.pmm.totalPages) (t : ℕ) (i : Fin 512) :
    ∃ c v', v.getOrAllocTable t i = some (c, v') ∧ v'.Sound ∧
      v'.pmm.usedPages ≤ v.pmm.usedPages + 1 ∧ v'.pmm.totalPages = v.pmm.totalPages := by
  by_cases hpresent : IsPresent (v.mem t i)
  · rw [Vm.getOrAllocTable, if_pos hpresent]
    refine ⟨_, _, rfl, ?_⟩
    split_ifs
    · exact ⟨hv.of_same rfl rfl, Nat.le_succ _, rfl⟩
    · exact ⟨hv, Nat.le_succ _, rfl⟩
  · obtain ⟨f, v₁, halloc⟩ := hv.exists_allocFrame hroom
    obtain ⟨hlends, -⟩ := hv.lends_alloc halloc
    rw [Vm.getOrAllocTable, if_neg hpresent, halloc]
    refine ⟨_, _, rfl, hlends.sound.of_same rfl rfl, ?_, hlends.total⟩
    exact hlends.used.le

/-- As long as three pages are left, a page can be mapped, and at most three are taken. -/
theorem Vm.Sound.exists_vmmMapPage (hv : v.Sound)
    (hroom : v.pmm.usedPages + 3 ≤ v.pmm.totalPages) (root virt phys flags : ℕ) :
    ∃ v', v.vmmMapPage root virt phys flags = some v' ∧ v'.Sound ∧
      v'.pmm.usedPages ≤ v.pmm.usedPages + 3 ∧ v'.pmm.totalPages = v.pmm.totalPages := by
  obtain ⟨pdpt, v₁, hrun₁, hv₁, hused₁, htotal₁⟩ :=
    hv.exists_getOrAllocTable (by omega) root (pml4Index virt)
  obtain ⟨pd, v₂, hrun₂, hv₂, hused₂, htotal₂⟩ :=
    hv₁.exists_getOrAllocTable (by omega) pdpt (pdptIndex virt)
  obtain ⟨pt, v₃, hrun₃, hv₃, hused₃, htotal₃⟩ :=
    hv₂.exists_getOrAllocTable (by omega) pd (pdIndex virt)
  simp only [Vm.vmmMapPage, Option.bind_eq_bind, hrun₁, hrun₂, hrun₃, Option.bind_some]
  refine ⟨_, rfl, hv₃.of_same rfl rfl, ?_, ?_⟩
  · change v₃.pmm.usedPages ≤ _
    omega
  · exact htotal₃.trans (htotal₂.trans htotal₁)

end Pages

/-! ## Runs -/

/-- What happened in a step. -/
inductive MapEvent
  | map (virt phys flags : ℕ)
  | unmap (virt : ℕ)
  | other

/-- One call for a page of the lower half, or something that leaves the tables alone. -/
inductive MapStep (root : ℕ) : Vm → MapEvent → Vm → Prop
  | map {v v' : Vm} {virt phys flags : ℕ} (hvirt : InUserHalf virt)
      (hflags : entryFrame flags = 0) (h : v.vmmMapPage root virt phys flags = some v') :
      MapStep root v (.map virt phys flags) v'
  | unmap {v : Vm} {virt : ℕ} (hvirt : InUserHalf virt) :
      MapStep root v (.unmap virt) (v.vmmUnmapPage root virt)
  | other {v v' : Vm} (hsound : v'.Sound)
      (h : ∀ p f, p.length ≤ 3 → descend (nextTable v.mem) root p = some f →
        v'.mem f = v.mem f ∧ ¬ v'.pmm.Free f) :
      MapStep root v .other v'

/-- A PML4 without entries, in a frame that is in use. -/
structure EmptyPml4 (root : ℕ) (v : Vm) : Prop where
  sound : v.Sound
  used : ¬ v.pmm.Free root
  empty : ∀ i, v.mem root i = 0

/-- The tables are a tree of frames in use, and the upper half is empty. -/
structure MapInv (root : ℕ) (v : Vm) : Prop where
  space : Space 3 root v
  upper : ∀ j : Fin 512, 256 ≤ j.val → v.mem root j = 0

/-- A mapping is found on its page, and a call changes no other page. Each table is
referenced by one entry. -/
structure MapsCorrectly (root : ℕ) (v : Vm) : Prop where
  map : ∀ virt phys flags v', InUserHalf virt → entryFrame flags = 0 →
    v.vmmMapPage root virt phys flags = some v' →
      entryFrame ((phys &&& pageAlignMask) ||| flags ||| vmmPresent) = phys &&& pageAlignMask ∧
      (∀ x, SamePage x virt → translate v'.mem root (indices x) =
        some ([], (phys &&& pageAlignMask) ||| flags ||| vmmPresent)) ∧
      ∀ x, ¬ SamePage x virt →
        translate v'.mem root (indices x) = translate v.mem root (indices x)
  unmap : ∀ virt, InUserHalf virt →
    (∀ x, SamePage x virt → translate (v.vmmUnmapPage root virt).mem root (indices x) = none) ∧
      ∀ x, ¬ SamePage x virt → translate (v.vmmUnmapPage root virt).mem root (indices x) =
        translate v.mem root (indices x)
  get : ∀ x rest entry, translate v.mem root (indices x) = some (rest, entry) →
    vmmGetMapping v.mem root x = entryFrame entry
  tree : ∀ ⦃p q f g i j t⦄, p.length < 3 → q.length < 3 →
    descend (nextTable v.mem) root p = some f → descend (nextTable v.mem) root q = some g →
      nextTable v.mem f i = some t → nextTable v.mem g j = some t → f = g ∧ i = j
  root_apart : ∀ ⦃p f i⦄, p.length < 3 → descend (nextTable v.mem) root p = some f →
    nextTable v.mem f i ≠ some root
  exists_map : v.pmm.usedPages + 3 ≤ v.pmm.totalPages → ∀ virt phys flags,
    ∃ v', v.vmmMapPage root virt phys flags = some v'

section Runs

variable {root virt x : ℕ} {v v₀ v' : Vm} {event : MapEvent} {history : List MapEvent}

theorem EmptyPml4.lowerTable_eq (h : EmptyPml4 root v) (i : Fin 512) :
    lowerTable v.mem root root i = none := by
  rw [lowerTable]
  split_ifs
  · rfl
  · rw [nextTable, h.empty i]
    rfl

theorem EmptyPml4.reach_eq_some (h : EmptyPml4 root v) {p : Path} {f : ℕ}
    (hf : reach v.mem root p = some f) : p = [] ∧ f = root := by
  cases p with
  | nil => exact ⟨rfl, (Option.some_inj.mp hf).symm⟩
  | cons i p =>
    rw [reach, descend_cons, h.lowerTable_eq] at hf
    cases hf

theorem EmptyPml4.mapInv (h : EmptyPml4 root v) : MapInv root v := by
  refine ⟨⟨h.sound, Nat.le_refl 3, .of_empty h.lowerTable_eq, fun _ hf => ?_,
    fun _ hf _ hpresent => ?_⟩, fun j _ => h.empty j⟩
  · rw [(h.reach_eq_some hf).2]
    exact h.used
  · rw [(h.reach_eq_some hf).2, h.empty] at hpresent
    exact absurd hpresent (by decide)

/-- With an empty upper half, the tables of the lower half are all there are. -/
theorem MapInv.lowerTable_eq (h : MapInv root v) : lowerTable v.mem root = nextTable v.mem := by
  funext t i
  rw [lowerTable]
  split_ifs with hupper
  · rw [hupper.1, nextTable, h.upper i hupper.2]
    rfl
  · rfl

theorem MapInv.translate_of_lower (h : MapInv root v) (hx : InUserHalf x) :
    translate v.mem root (indices x) = (pageEntry v.mem root x).map fun e => ([], e) :=
  h.space.translate_eq hx

theorem MapInv.translate_of_upper (h : MapInv root v) (hx : ¬ InUserHalf x) :
    translate v.mem root (indices x) = none := by
  rw [indices, translate, h.upper _ (Nat.not_lt.mp hx)]
  rfl

theorem MapInv.step (h : MapInv root v) (hstep : MapStep root v event v') : MapInv root v' := by
  cases hstep with
  | map hvirt hflags hrun =>
    obtain ⟨hspace, -, -, hupper⟩ := h.space.vmmMapPage hvirt hrun
    exact ⟨hspace, fun j hj => (hupper j hj).trans (h.upper j hj)⟩
  | unmap hvirt =>
    obtain ⟨hspace, -, -, hupper⟩ := h.space.vmmUnmapPage hvirt
    exact ⟨hspace, fun j hj => (hupper j hj).trans (h.upper j hj)⟩
  | other hsound hother =>
    rw [← h.lowerTable_eq] at hother
    obtain ⟨hspace, -⟩ := h.space.congr hsound (fun p f hp hf => (hother p f hp hf).2)
      fun p f i hp hf => congrFun (hother p f hp.le hf).1 i
    exact ⟨hspace, fun j hj =>
      (congrFun (hother [] root (Nat.zero_le _) rfl).1 j).trans (h.upper j hj)⟩

theorem MapInv.run (hstart : EmptyPml4 root v₀) (run : Reaches (MapStep root) v₀ history v) :
    MapInv root v :=
  run.invariant_state hstart.mapInv fun _ _ _ h hstep => h.step hstep

/-- A page whose entry is known, in a state before and one after. -/
theorem MapInv.translate_congr (h : MapInv root v) (h' : MapInv root v')
    (heq : pageEntry v'.mem root x = pageEntry v.mem root x) :
    translate v'.mem root (indices x) = translate v.mem root (indices x) := by
  by_cases hx : InUserHalf x
  · rw [h'.translate_of_lower hx, h.translate_of_lower hx, heq]
  · rw [h'.translate_of_upper hx, h.translate_of_upper hx]

/-- An address space built by the functions of `vmm.c` maps correctly at every time. -/
theorem maps_correctly (hstart : EmptyPml4 root v₀)
    (run : Reaches (MapStep root) v₀ history v) : MapsCorrectly root v := by
  have h := MapInv.run hstart run
  constructor
  · intro virt phys flags v' hvirt hflags hrun
    have h' : MapInv root v' := h.step (.map hvirt hflags hrun)
    obtain ⟨-, hentry, hother, -⟩ := h.space.vmmMapPage hvirt hrun
    refine ⟨(entry_page hflags).1, fun x hx => ?_, fun x hx => h.translate_congr h' (hother x hx)⟩
    rw [h'.translate_of_lower ((inUserHalf_congr hx).mpr hvirt), pageEntry_congr hx, hentry]
    rfl
  · intro virt hvirt
    have h' : MapInv root (v.vmmUnmapPage root virt) := h.step (.unmap hvirt)
    obtain ⟨-, hentry, hother, -⟩ := h.space.vmmUnmapPage hvirt
    refine ⟨fun x hx => ?_, fun x hx => h.translate_congr h' (hother x hx)⟩
    rw [h'.translate_of_lower ((inUserHalf_congr hx).mpr hvirt), pageEntry_congr hx, hentry]
    rfl
  · intro x rest entry htranslate
    by_cases hx : InUserHalf x
    · rw [h.translate_of_lower hx] at htranslate
      obtain ⟨e, hentry, heq⟩ := Option.map_eq_some_iff.mp htranslate
      rw [h.space.vmmGetMapping_eq hx, hentry, ← (Prod.mk.inj heq).2]
      rfl
    · rw [h.translate_of_upper hx] at htranslate
      cases htranslate
  · have htree := h.space.tree
    rw [h.lowerTable_eq] at htree
    exact fun p q f g i j t hp hq hf hg hfi hgj => htree.entry_inj hp hq hf hg hfi hgj
  · intro p f i hp hf hroot
    have htree := h.space.tree
    rw [h.lowerTable_eq] at htree
    have hpi : descend (nextTable v.mem) root (p ++ [i]) = some root := by
      rw [descend_concat, hf]
      exact hroot
    have hnil := htree (q := []) (by rw [List.length_append]; exact hp) (Nat.zero_le _) hpi rfl
    simp at hnil
  · intro hroom virt phys flags
    obtain ⟨v', hrun, -⟩ := h.space.sound.exists_vmmMapPage hroom root virt phys flags
    exact ⟨v', hrun⟩

/-- The sample memory with an empty PML4 in its third frame. -/
def sampleVm : Vm where
  mem _ _ := 0
  pmm := samplePmm
  lent := {0x2000}
  freed := []

theorem sampleVm_sound : sampleVm.Sound := by
  refine ⟨samplePmm_consistent, by decide, fun f hf => ⟨2, by decide, hf, by decide⟩⟩

theorem sampleVm_emptyPml4 : EmptyPml4 0x2000 sampleVm :=
  ⟨sampleVm_sound, sampleVm_sound.not_free rfl, fun _ => rfl⟩

/-- Mapping the second frame, and taking the mapping away, leaves an address space that maps
correctly. -/
theorem maps_correctly_sampleVm : ∃ v, sampleVm.vmmMapPage 0x2000 0x400000 0x1000 7 = some v ∧
    MapsCorrectly 0x2000 (v.vmmUnmapPage 0x2000 0x400000) := by
  obtain ⟨v, hrun, -⟩ := sampleVm_sound.exists_vmmMapPage (by decide) 0x2000 0x400000 0x1000 7
  have hmap : MapStep 0x2000 sampleVm (.map 0x400000 0x1000 7) v :=
    .map (by decide) (by decide) hrun
  exact ⟨v, hrun, maps_correctly sampleVm_emptyPml4
    ((Reaches.start.snoc hmap).snoc (.unmap (by decide)))⟩

end Runs

end OpenIDP.Memory
