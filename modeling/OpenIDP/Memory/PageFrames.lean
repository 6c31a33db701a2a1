import Mathlib.Data.Set.Insert
import OpenIDP.Memory.PageTable
import OpenIDP.Memory.PmmLending

/-!
# Page frames

What the functions on page tables need to know about the page allocator: a frame that is
handed out was free, and no other frame changes hands with it.

## Main definitions

* `Pmm.Free` — the frame can be handed out
* `Vm.Sound` — counter and bitmap agree, and frames handed out are marked used
* `Vm.Lends`, `Vm.Returns` — a list of frames is handed out or taken back, and nothing
  else changes hands

## Main results

* `Vm.Sound.allocFrame_some`, `Vm.Sound.freeFrame` — the two calls
* `Vm.Lends.restored` — handing out and taking back the same frames
-/

namespace OpenIDP.Memory

open OpenIDP.Math

/-- The frame can be handed out. -/
def Pmm.Free (p : Pmm) (frame : ℕ) : Prop :=
  ∃ page < p.totalPages, frame = page * pageSize ∧ p.bitmapTest page = false

/-- Counter and bitmap agree, physical addresses fit into page-table entries, and what is
handed out is marked used. -/
structure Vm.Sound (v : Vm) : Prop where
  consistent : v.pmm.Consistent
  totalPages_le : v.pmm.totalPages ≤ 2 ^ 40
  lent_used : ∀ f ∈ v.lent, ∃ page < v.pmm.totalPages, f = page * pageSize ∧
    v.pmm.bitmapTest page = true

section Allocator

variable {v v' : Vm} {f g : ℕ}

theorem Vm.Sound.not_free (hv : v.Sound) (hf : f ∈ v.lent) : ¬ v.pmm.Free f := by
  rintro ⟨page, -, rfl, hclear⟩
  obtain ⟨page', -, heq, hset⟩ := hv.lent_used _ hf
  have hpage : page = page' := Nat.eq_of_mul_eq_mul_right (by decide) heq
  rw [hpage, hset] at hclear
  exact Bool.noConfusion hclear

theorem Vm.Sound.isFrame (hv : v.Sound) (hf : f ∈ v.lent) : IsFrame f := by
  obtain ⟨page, hlt, rfl, -⟩ := hv.lent_used f hf
  exact isFrame_of_lt (hlt.trans_le hv.totalPages_le)

/-- Writing to memory does not count. -/
theorem Vm.Sound.of_same (hv : v.Sound) (hpmm : v'.pmm = v.pmm) (hlent : v'.lent = v.lent) :
    v'.Sound := by
  obtain ⟨hconsistent, hpages, hused⟩ := hv
  rw [← hpmm] at hconsistent hpages hused
  rw [← hlent] at hused
  exact ⟨hconsistent, hpages, hused⟩

/-- A frame is handed out: it was free, and is the only one that changes. -/
theorem Vm.Sound.allocFrame_some (hv : v.Sound) (h : v.allocFrame = (some f, v')) :
    v.pmm.Free f ∧ v'.Sound ∧ v'.mem = v.mem ∧ v'.lent = insert f v.lent ∧
      v'.freed = v.freed ∧ (∀ g, v'.pmm.Free g ↔ v.pmm.Free g ∧ g ≠ f) ∧
      v'.pmm.totalPages = v.pmm.totalPages ∧ v'.pmm.usedPages = v.pmm.usedPages + 1 ∧
      ∀ page, v'.pmm.bitmapTest page =
        (decide (page * pageSize = f) || v.pmm.bitmapTest page) := by
  unfold Vm.allocFrame at h
  split at h
  · next addr pmm halloc =>
    obtain ⟨hf, rfl⟩ := Prod.mk.inj h
    obtain ⟨found, hfound, haddr⟩ := Pmm.pmmAllocPage_eq halloc
    obtain ⟨page, rfl, rfl⟩ := Option.map_eq_some_iff.mp haddr.symm
    have hpage := hv.consistent.allocPage_lt hfound
    have hbound := hv.totalPages_le
    have hframe : f = page * pageSize := by
      rw [← Option.some_inj.mp hf, Pmm.pageAddr, sub64_wrap_add _ hv.consistent.hhdm_lt]
      rw [pageSize]
      omega
    have hcon := hv.consistent.allocPage hfound
    obtain ⟨hroom, hclear, hp'⟩ := Pmm.allocPage_some hfound
    have htest : ∀ j, pmm.bitmapTest j = (decide (j = page) || v.pmm.bitmapTest j) := by
      intro j
      rw [hp']
      exact Bytes.testBit_setBit
    have htotal : pmm.totalPages = v.pmm.totalPages := by rw [hp']
    have hused : pmm.usedPages = v.pmm.usedPages + 1 := by
      rw [hp']
      exact wrap_of_lt (by omega)
    refine ⟨⟨page, hpage, hframe, hclear⟩, ⟨hcon, htotal ▸ hbound, ?_⟩, rfl, ?_, rfl, ?_,
      htotal, hused, fun j => ?_⟩
    · rintro g (rfl | hg)
      · rw [Option.some_inj.mp hf]
        exact ⟨page, htotal ▸ hpage, hframe, by rw [htest]; simp⟩
      · obtain ⟨page', hlt, heq, hset⟩ := hv.lent_used g hg
        exact ⟨page', htotal ▸ hlt, heq, by rw [htest, hset, Bool.or_true]⟩
    · rw [Option.some_inj.mp hf]
    · intro g
      constructor
      · rintro ⟨page', hlt, rfl, hclear'⟩
        rw [htest, Bool.or_eq_false_iff] at hclear'
        refine ⟨⟨page', htotal ▸ hlt, rfl, hclear'.2⟩, fun heq => ?_⟩
        rw [hframe] at heq
        exact of_decide_eq_false hclear'.1 (Nat.eq_of_mul_eq_mul_right (by decide) heq)
      · rintro ⟨⟨page', hlt, rfl, hclear'⟩, hne⟩
        refine ⟨page', htotal ▸ hlt, rfl, ?_⟩
        rw [htest, hclear', Bool.or_false]
        exact decide_eq_false fun heq => hne (by rw [heq, hframe])
    · have hpos : pageSize ≠ 0 := by decide
      simp only [htest, hframe, Nat.mul_left_inj hpos]
  · simp at h

/-- Nothing is handed out: nothing changes but the position of the next search. -/
theorem Vm.Sound.allocFrame_none (hv : v.Sound) (h : v.allocFrame = (none, v')) :
    v'.Sound ∧ v'.mem = v.mem ∧ v'.lent = v.lent ∧ v'.freed = v.freed ∧
      ∀ g, v'.pmm.Free g ↔ v.pmm.Free g := by
  unfold Vm.allocFrame at h
  split at h
  · simp at h
  · next pmm halloc =>
    obtain ⟨-, rfl⟩ := Prod.mk.inj h
    obtain ⟨found, hfound, haddr⟩ := Pmm.pmmAllocPage_eq halloc
    obtain rfl := Option.map_eq_none_iff.mp haddr.symm
    have hcon := hv.consistent.allocPage hfound
    obtain ⟨pos, hp'⟩ := Pmm.allocPage_none hfound
    refine ⟨⟨hcon, ?_, ?_⟩, rfl, rfl, rfl, fun g => ?_⟩
    · rw [hp']
      exact hv.totalPages_le
    · rw [hp']
      exact hv.lent_used
    · rw [hp']
      rfl

/-- As long as a page is left, a frame is handed out. -/
theorem Pmm.Consistent.exists_allocFrame (hv : v.pmm.Consistent)
    (hroom : v.pmm.usedPages < v.pmm.totalPages) : ∃ f v', v.allocFrame = (some f, v') := by
  rw [hv.usedPages_eq, Pmm.usedBits, count_lt_iff] at hroom
  obtain ⟨i, hi, hclear⟩ := hroom
  obtain ⟨page, hpage⟩ := hv.allocPage_of_clear hi (by simpa using hclear)
  have halloc : v.pmm.pmmAllocPage = (some (v.pmm.pageAddr page), v.pmm.allocPage.2) := by
    rw [Pmm.pmmAllocPage, hpage]
    rfl
  have hframe : v.allocFrame.1 = some (sub64 (v.pmm.pageAddr page) v.pmm.hhdm) := by
    rw [Vm.allocFrame, halloc]
  exact ⟨_, v.allocFrame.2, Prod.ext hframe rfl⟩

theorem Vm.Sound.exists_allocFrame (hv : v.Sound) (hroom : v.pmm.usedPages < v.pmm.totalPages) :
    ∃ f v', v.allocFrame = (some f, v') :=
  hv.consistent.exists_allocFrame hroom

/-- A page frame is taken back, or was free before. -/
theorem Vm.Sound.freeFrame (hv : v.Sound) (hf : ∃ page < v.pmm.totalPages, f = page * pageSize) :
    (v.freeFrame f).Sound ∧ (v.freeFrame f).pmm.totalPages = v.pmm.totalPages ∧
      (∀ g, (v.freeFrame f).pmm.Free g ↔ v.pmm.Free g ∨ g = f) ∧
      ∀ page, (v.freeFrame f).pmm.bitmapTest page =
        (!decide (page * pageSize = f) && v.pmm.bitmapTest page) := by
  obtain ⟨page, hpage, rfl⟩ := hf
  -- `pmm_free_page` gets an address in the direct map, and subtracts the offset again.
  have hpageOf : v.pmm.pmmFreePage (wrap (page * pageSize + v.pmm.hhdm)) =
      v.pmm.freePage page := by
    rw [Pmm.pmmFreePage]
    exact congrArg v.pmm.freePage (hv.consistent.pageOf_pageAddr hpage)
  have htest : ∀ j, (v.freeFrame (page * pageSize)).pmm.bitmapTest j =
      (!decide (j = page) && v.pmm.bitmapTest j) := by
    intro j
    rw [Vm.freeFrame, hpageOf]
    exact Pmm.bitmapTest_freePage j
  have htotal : (v.freeFrame (page * pageSize)).pmm.totalPages = v.pmm.totalPages := by
    rw [Vm.freeFrame, hpageOf]
    exact Pmm.freePage_totalPages
  have hcon : (v.freeFrame (page * pageSize)).pmm.Consistent := by
    rw [Vm.freeFrame, hpageOf]
    exact hv.consistent.freePage hpage
  refine ⟨⟨hcon, htotal ▸ hv.totalPages_le, ?_⟩, htotal, fun g => ?_, fun j => ?_⟩
  · rintro g ⟨hg, hne⟩
    obtain ⟨page', hlt, rfl, hset'⟩ := hv.lent_used g hg
    refine ⟨page', htotal ▸ hlt, rfl, ?_⟩
    rw [htest, hset', Bool.and_true, Bool.not_eq_true']
    exact decide_eq_false fun heq => hne (by rw [heq]; rfl)
  · constructor
    · rintro ⟨page', hlt, rfl, hclear⟩
      rw [htest, Bool.and_eq_false_iff, Bool.not_eq_false', decide_eq_true_eq] at hclear
      rcases hclear with rfl | hclear
      · exact Or.inr rfl
      · exact Or.inl ⟨page', htotal ▸ hlt, rfl, hclear⟩
    · rintro (⟨page', hlt, rfl, hclear⟩ | rfl)
      · refine ⟨page', htotal ▸ hlt, rfl, ?_⟩
        rw [htest, hclear, Bool.and_false]
      · refine ⟨page, htotal ▸ hpage, rfl, ?_⟩
        rw [htest, decide_eq_true rfl]
        rfl
  · have hpos : pageSize ≠ 0 := by decide
    simp only [htest, Nat.mul_left_inj hpos]

end Allocator

/-! ## Several calls in a row -/

/-- The frames of `new` are handed out, and nothing else changes hands. -/
structure Vm.Lends (new : List ℕ) (v v' : Vm) : Prop where
  sound : v'.Sound
  nodup : new.Nodup
  free : ∀ f ∈ new, v.pmm.Free f
  lent_eq : v'.lent = v.lent ∪ {f | f ∈ new}
  freed_eq : v'.freed = v.freed
  bits : ∀ page, v'.pmm.bitmapTest page =
    (decide (page * pageSize ∈ new) || v.pmm.bitmapTest page)
  used : v'.pmm.usedPages = v.pmm.usedPages + new.length
  total : v'.pmm.totalPages = v.pmm.totalPages

/-- The frames of `frames` are taken back, and nothing else changes hands. -/
structure Vm.Returns (frames : List ℕ) (v v' : Vm) : Prop where
  sound : v'.Sound
  lent_eq : v'.lent = v.lent \ {f | f ∈ frames}
  freed_eq : v'.freed = frames.reverse ++ v.freed
  bits : ∀ page, v'.pmm.bitmapTest page =
    (!decide (page * pageSize ∈ frames) && v.pmm.bitmapTest page)
  total : v'.pmm.totalPages = v.pmm.totalPages

section Several

variable {v v' v'' : Vm} {new new' frames : List ℕ} {f g : ℕ}

namespace Vm.Lends

theorem refl (hv : v.Sound) : Lends [] v v :=
  ⟨hv, List.nodup_nil, fun _ h => absurd h List.not_mem_nil, by simp, rfl, by simp, rfl, rfl⟩

/-- A frame is free afterwards if it was free before and has not been handed out. -/
theorem free_iff (h : Lends new v v') : v'.pmm.Free g ↔ v.pmm.Free g ∧ g ∉ new := by
  constructor
  · rintro ⟨page, hlt, rfl, hclear⟩
    rw [h.bits, Bool.or_eq_false_iff] at hclear
    exact ⟨⟨page, h.total ▸ hlt, rfl, hclear.2⟩, of_decide_eq_false hclear.1⟩
  · rintro ⟨⟨page, hlt, rfl, hclear⟩, hnew⟩
    refine ⟨page, h.total ▸ hlt, rfl, ?_⟩
    rw [h.bits, hclear, Bool.or_false]
    exact decide_eq_false hnew

theorem trans (h : Lends new v v') (h' : Lends new' v' v'') : Lends (new' ++ new) v v'' := by
  refine ⟨h'.sound, ?_, ?_, ?_, h'.freed_eq.trans h.freed_eq, fun page => ?_, ?_,
    h'.total.trans h.total⟩
  · exact List.nodup_append'.mpr ⟨h'.nodup, h.nodup, fun f hf' hf =>
      (h.free_iff.mp (h'.free f hf')).2 hf⟩
  · intro f hf
    rcases List.mem_append.mp hf with hf | hf
    · exact (h.free_iff.mp (h'.free f hf)).1
    · exact h.free f hf
  · rw [h'.lent_eq, h.lent_eq]
    ext f
    simp only [Set.mem_union, Set.mem_ofPred_eq, List.mem_append]
    tauto
  · rw [h'.bits, h.bits, ← Bool.or_assoc, ← Bool.decide_or]
    simp only [List.mem_append]
  · rw [h'.used, h.used, List.length_append]
    omega

/-- Writing to memory does not count. -/
theorem of_same (h : Lends new v v') (hpmm : v''.pmm = v'.pmm) (hlent : v''.lent = v'.lent)
    (hfreed : v''.freed = v'.freed) : Lends new v v'' := by
  refine ⟨h.sound.of_same hpmm hlent, h.nodup, h.free, hlent.trans h.lent_eq,
    hfreed.trans h.freed_eq, ?_, ?_, ?_⟩
  · rw [hpmm]
    exact h.bits
  · rw [hpmm]
    exact h.used
  · rw [hpmm]
    exact h.total

theorem lent_subset (h : Lends new v v') : v.lent ⊆ v'.lent := by
  rw [h.lent_eq]
  exact Set.subset_union_left

theorem mem_lent (h : Lends new v v') (hf : f ∈ new) : f ∈ v'.lent := by
  rw [h.lent_eq]
  exact Or.inr hf

end Vm.Lends

theorem Vm.Sound.lends_alloc (hv : v.Sound) (h : v.allocFrame = (some f, v')) :
    Vm.Lends [f] v v' ∧ v'.mem = v.mem := by
  obtain ⟨hfree, hsound, hmem, hlent, hfreed, -, htotal, hused, hbits⟩ := hv.allocFrame_some h
  refine ⟨⟨hsound, List.nodup_singleton f, ?_, ?_, hfreed, ?_, hused, htotal⟩, hmem⟩
  · simpa using hfree
  · rw [hlent]
    ext g
    simp [or_comm]
  · simpa using hbits

/-- Taking back several page frames. -/
theorem Vm.Sound.returns_freeAll (hv : v.Sound)
    (hframes : ∀ f ∈ frames, ∃ page < v.pmm.totalPages, f = page * pageSize) :
    Vm.Returns frames v (v.freeAll frames) := by
  induction frames generalizing v with
  | nil => exact ⟨hv, by simp [Vm.freeAll], rfl, by simp [Vm.freeAll], rfl⟩
  | cons f frames ih =>
    obtain ⟨hsound, htotal, -, hbits⟩ := hv.freeFrame (hframes f List.mem_cons_self)
    have h := ih hsound fun g hg => htotal ▸ hframes g (List.mem_cons_of_mem _ hg)
    refine ⟨h.sound, h.lent_eq.trans ?_, h.freed_eq.trans ?_, fun page => (h.bits page).trans ?_,
      h.total.trans htotal⟩
    · ext g
      simp only [Vm.freeFrame, Set.mem_sdiff, Set.mem_singleton_iff, Set.mem_ofPred_eq,
        List.mem_cons, not_or]
      tauto
    · rw [List.reverse_cons, List.append_assoc]
      rfl
    · rw [hbits, ← Bool.and_assoc, ← Bool.not_or, Bool.or_comm, ← Bool.decide_or]
      simp only [List.mem_cons]

/-- What is handed out and taken back leaves the page allocator as it was, but for the
position of the next search. -/
theorem Vm.Lends.restored (h : Vm.Lends new v v') (h' : Vm.Returns frames v' v'') (hv : v.Sound)
    (hsame : ∀ f, f ∈ frames ↔ f ∈ new) :
    v''.pmm.bitmap = v.pmm.bitmap ∧ v''.pmm.usedPages = v.pmm.usedPages ∧
      v''.lent = v.lent := by
  have hbits : ∀ page, v''.pmm.bitmapTest page = v.pmm.bitmapTest page := by
    intro page
    rw [h'.bits, h.bits]
    by_cases hnew : page * pageSize ∈ new
    · obtain ⟨other, -, heq, hclear⟩ := h.free _ hnew
      have hpage : page = other := Nat.eq_of_mul_eq_mul_right (by decide) heq
      rw [decide_eq_true ((hsame _).mpr hnew), hpage, hclear]
      rfl
    · rw [decide_eq_false fun hmem => hnew ((hsame _).mp hmem), decide_eq_false hnew]
      rfl
  have hbitmap : v''.pmm.bitmap = v.pmm.bitmap := Bytes.ext_testBit hbits
  refine ⟨hbitmap, ?_, ?_⟩
  · rw [h'.sound.consistent.usedPages_eq, hv.consistent.usedPages_eq]
    exact Pmm.usedBits_congr hbitmap (h'.total.trans h.total)
  · rw [h'.lent_eq, h.lent_eq]
    ext f
    have hnot : f ∈ new → f ∉ v.lent := fun hf hlent => hv.not_free hlent (h.free f hf)
    simp only [Set.mem_sdiff, Set.mem_union, Set.mem_ofPred_eq, hsame]
    tauto

end Several

end OpenIDP.Memory
