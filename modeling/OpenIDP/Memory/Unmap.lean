import OpenIDP.Memory.MapRuns
import OpenIDP.Memory.PmmAvailable
import OpenIDP.Memory.Sbrk
import OpenIDP.Memory.Walk

/-!
# Unmapping a range

`sys_unmap` walks the page tables by hand for one address in each page, from the start of the range
in steps of a page. The size of the range is rounded up, but its start is not rounded down: when
the range ends in one page more than its size has, that page is left out. The addresses are not
checked either, and behind the lower half they lead to pages of the kernel.

## Main definitions

* `sysUnmap` — the system call
* `UnmapsRange` — the pages of the range are gone, and no other page has changed

## Main results

* `Space.sysUnmap` — what the walks do in the lower half
* `sysUnmap_exact` — when the range is unmapped exactly
-/

namespace OpenIDP.Memory

open OpenIDP.Math

/-- The body of the loop of `sys_unmap`: it goes on when a table is missing. -/
def Vm.unmapStep (pml4 : ℕ) (v : Vm) (currVaddr : ℕ) : Vm :=
  match nextTable v.mem pml4 (pml4Index currVaddr) with
  | none => v
  | some pdp =>
    match nextTable v.mem pdp (pdptIndex currVaddr) with
    | none => v
    | some pd =>
      match nextTable v.mem pd (pdIndex currVaddr) with
      | none => v
      | some pt =>
        if IsPresent (v.mem pt (ptIndex currVaddr)) then v.setWord pt (ptIndex currVaddr) 0
        else v

/-- What `sys_unmap` makes of the size. -/
def unmapSize (size : ℕ) : ℕ := alignUp size pageSize

/-- The addresses that `sys_unmap` looks at. -/
def unmapAddrs (vaddr size : ℕ) : List ℕ :=
  (List.range (unmapSize size / pageSize)).map fun i => wrap (vaddr + i * pageSize)

/-- `sys_unmap`, with the PML4 of the current task. -/
def sysUnmap (v : Vm) (pml4 vaddr size : ℕ) : Vm :=
  (unmapAddrs vaddr size).foldl (Vm.unmapStep pml4) v

/-- Of the pages that overlap the range none is there, and all others are as they were. -/
structure UnmapsRange (root vaddr size : ℕ) (v v' : Vm) : Prop where
  gone : ∀ x < 2 ^ 64, Canonical x → Overlaps (x / pageSize) vaddr size →
    translate v'.mem root (indices x) = none
  kept : ∀ x < 2 ^ 64, Canonical x → ¬ Overlaps (x / pageSize) vaddr size →
    translate v'.mem root (indices x) = translate v.mem root (indices x)

/-- The addresses that are looked at lie in the lower half, and nothing is mapped in the rest of
the range. -/
def UnmapFits (root vaddr size : ℕ) (v : Vm) : Prop :=
  vaddr / pageSize * pageSize + unmapSize size ≤ 2 ^ 47 ∧
    ∀ y, vaddr / pageSize * pageSize + unmapSize size ≤ y → vaddr ≤ y → y < vaddr + size →
      Canonical y → translate v.mem root (indices y) = none

/-! ## Words that are cleared -/

/-- Some words have become zero. -/
def Cleared (mem mem' : Frames) : Prop := ∀ f j, mem' f j = mem f j ∨ mem' f j = 0

section Cleared

variable {mem mem' mem'' : Frames} {t n root a virt : ℕ} {i : Fin 512} {v : Vm} {addrs : List ℕ}

theorem Cleared.refl (mem : Frames) : Cleared mem mem := fun _ _ => Or.inl rfl

theorem Cleared.trans (h : Cleared mem mem') (h' : Cleared mem' mem'') : Cleared mem mem'' := by
  intro f j
  rcases h' f j with hsame | hzero
  · rw [hsame]
    exact h f j
  · exact Or.inr hzero

/-- What is present has not been cleared. -/
theorem Cleared.eq_of_isPresent (h : Cleared mem mem') (hpresent : IsPresent (mem' t i)) :
    mem' t i = mem t i := by
  refine (h t i).resolve_right fun hzero => ?_
  rw [hzero] at hpresent
  exact absurd hpresent (by decide)

theorem Cleared.nextTable (h : Cleared mem mem') (hnext : nextTable mem' t i = some n) :
    nextTable mem t i = some n := by
  obtain ⟨hpresent, hframe⟩ := nextTable_eq_some.mp hnext
  have hsame := h.eq_of_isPresent hpresent
  rw [hsame] at hpresent hframe
  exact nextTable_eq_some.mpr ⟨hpresent, hframe⟩

theorem Cleared.pageTableOf (h : Cleared mem mem') (ht : pageTableOf mem' root virt = some t) :
    pageTableOf mem root virt = some t := by
  obtain ⟨pdpt, hpdpt, ht⟩ := Option.bind_eq_some_iff.mp ht
  obtain ⟨pd, hpd, ht⟩ := Option.bind_eq_some_iff.mp ht
  refine Option.bind_eq_some_iff.mpr ⟨pdpt, h.nextTable hpdpt, ?_⟩
  exact Option.bind_eq_some_iff.mpr ⟨pd, h.nextTable hpd, h.nextTable ht⟩

/-- A page that is there has been there before. -/
theorem Cleared.translate_some (h : Cleared mem mem') {q : Path} {r : Path × ℕ}
    (hsome : translate mem' t q = some r) : translate mem t q = some r := by
  induction q generalizing t with
  | nil => cases hsome
  | cons i rest ih =>
    rw [translate] at hsome
    split_ifs at hsome with hpresent hstop
    · have hsame := h.eq_of_isPresent hpresent
      rw [hsame] at hpresent hstop hsome
      rw [translate, if_pos hpresent, if_pos hstop, hsome]
    · have hsame := h.eq_of_isPresent hpresent
      rw [hsame] at hpresent hstop hsome
      rw [translate, if_pos hpresent, if_neg hstop]
      exact ih hsome

/-- The walk of the processor through four levels is the one of the code. -/
theorem pageTableOf_of_translate {e : ℕ} (h : translate mem root (indices virt) = some ([], e)) :
    ∃ t, pageTableOf mem root virt = some t ∧ IsPresent (mem t (ptIndex virt)) := by
  have hstep : ∀ {t i j rest}, translate mem t (i :: j :: rest) = some ([], e) →
      ∃ n, nextTable mem t i = some n ∧ translate mem n (j :: rest) = some ([], e) := by
    intro t i j rest h
    rw [translate] at h
    split_ifs at h with hpresent hstop
    · cases (Prod.mk.inj (Option.some_inj.mp h)).1
    · exact ⟨_, nextTable_eq_some.mpr ⟨hpresent, rfl⟩, h⟩
  obtain ⟨pdpt, hpdpt, h⟩ := hstep h
  obtain ⟨pd, hpd, h⟩ := hstep h
  obtain ⟨pt, hpt, h⟩ := hstep h
  refine ⟨pt, ?_, ?_⟩
  · rw [pageTableOf, hpdpt, Option.bind_eq_bind, Option.bind_some, hpd, Option.bind_some]
    exact hpt
  · rw [translate] at h
    split_ifs at h with hpresent hstop
    · exact hpresent
    · exact absurd (Or.inl rfl) hstop

/-- The loop does by hand what `vmm_unmap_page` does. -/
theorem Vm.unmapStep_eq (v : Vm) (pml4 virt : ℕ) :
    v.unmapStep pml4 virt = v.vmmUnmapPage pml4 virt := by
  rw [unmapStep, vmmUnmapPage, Memory.pageTableOf]
  cases nextTable v.mem pml4 (pml4Index virt) with
  | none => rfl
  | some pdp =>
    rw [Option.bind_eq_bind, Option.bind_some]
    simp only
    cases nextTable v.mem pdp (pdptIndex virt) with
    | none => rfl
    | some pd => rfl

theorem Vm.unmapStep_cleared (v : Vm) (root virt : ℕ) :
    Cleared v.mem (v.unmapStep root virt).mem := by
  rw [unmapStep_eq, vmmUnmapPage]
  split
  · exact .refl _
  · split_ifs
    · intro f j
      rw [mem_setWord]
      split_ifs
      · exact Or.inr rfl
      · exact Or.inl rfl
    · exact .refl _

theorem cleared_foldl (v : Vm) (root : ℕ) (addrs : List ℕ) :
    Cleared v.mem (addrs.foldl (Vm.unmapStep root) v).mem := by
  induction addrs generalizing v with
  | nil => exact .refl _
  | cons a addrs ih => exact (v.unmapStep_cleared root a).trans (ih _)

/-- After its step, a page of four levels is not there. -/
theorem translate_unmapStep {e : ℕ} (h : translate v.mem root (indices virt) = some ([], e)) :
    ¬ ∃ e', translate (v.unmapStep root virt).mem root (indices virt) = some ([], e') := by
  rintro ⟨e', h'⟩
  obtain ⟨t, ht, hpresent⟩ := pageTableOf_of_translate h
  obtain ⟨t', ht', hpresent'⟩ := pageTableOf_of_translate h'
  have hsame := (v.unmapStep_cleared root virt).pageTableOf ht'
  obtain rfl := Option.some_inj.mp (ht.symm.trans hsame)
  rw [Vm.unmapStep_eq, Vm.vmmUnmapPage, ht] at hpresent'
  simp only [if_pos hpresent] at hpresent'
  rw [Vm.mem_setWord, if_pos ⟨rfl, rfl⟩] at hpresent'
  exact absurd hpresent' (by decide)

end Cleared

/-! ## The lower half -/

section Lower

variable {root x virt : ℕ} {v : Vm}
variable {addrs : List ℕ}

/-- The walk for one page of the lower half: its entry is cleared, and the tables stay. -/
theorem Space.unmapStep (h : Space 3 root v) (hvirt : InUserHalf virt) :
    Space 3 root (v.unmapStep root virt) ∧
      (∀ q : Path, q.length ≤ 3 →
        reach (v.unmapStep root virt).mem root q = reach v.mem root q) ∧
      (∀ f j, (∀ q : Path, q.length = 3 → reach v.mem root q ≠ some f) →
        (v.unmapStep root virt).mem f j = v.mem f j) ∧
      ∀ x, pageEntry (v.unmapStep root virt).mem root x =
        if SamePage x virt then none else pageEntry v.mem root x := by
  have hentries : ∀ x, pageEntry (v.unmapStep root virt).mem root x =
      if SamePage x virt then none else pageEntry v.mem root x := by
    intro x
    obtain ⟨-, hgone, hother, -⟩ := h.vmmUnmapPage hvirt
    rw [Vm.unmapStep_eq]
    split_ifs with hx
    · rw [pageEntry_congr hx, hgone]
    · exact hother x hx
  rw [Vm.unmapStep_eq] at hentries ⊢
  rw [Vm.vmmUnmapPage, pageTableOf_eq hvirt h.tree] at hentries ⊢
  cases ht : reach v.mem root (tablePath virt) with
  | none =>
    rw [ht] at hentries
    exact ⟨h, fun _ _ => rfl, fun _ _ _ => rfl, hentries⟩
  | some t =>
    rw [ht] at hentries
    by_cases hpresent : IsPresent (v.mem t (ptIndex virt))
    · simp only [if_pos hpresent] at hentries ⊢
      obtain ⟨hspace, hreach, -, -⟩ := h.setEntry (i := ptIndex virt) ht rfl 0
      refine ⟨hspace, hreach, fun f j hf => ?_, hentries⟩
      refine (Vm.mem_setWord _ _ _).trans (if_neg fun e => ?_)
      exact hf (tablePath virt) rfl (e.1 ▸ ht)
    · simp only [if_neg hpresent] at hentries ⊢
      exact ⟨h, fun _ _ => trivial, fun _ _ _ => trivial, hentries⟩

/-- The walks for pages of the lower half clear the entries of these pages. -/
theorem Space.unmapAll (h : Space 3 root v) (haddrs : ∀ a ∈ addrs, InUserHalf a) :
    Space 3 root (addrs.foldl (Vm.unmapStep root) v) ∧
      (∀ f j, (∀ q : Path, q.length = 3 → reach v.mem root q ≠ some f) →
        (addrs.foldl (Vm.unmapStep root) v).mem f j = v.mem f j) ∧
      (∀ x, (∃ a ∈ addrs, SamePage x a) →
        pageEntry (addrs.foldl (Vm.unmapStep root) v).mem root x = none) ∧
      ∀ x, (∀ a ∈ addrs, ¬ SamePage x a) →
        pageEntry (addrs.foldl (Vm.unmapStep root) v).mem root x = pageEntry v.mem root x := by
  induction addrs generalizing v with
  | nil =>
    exact ⟨h, fun _ _ _ => rfl, fun x ⟨a, ha, _⟩ => absurd ha List.not_mem_nil, fun _ _ => rfl⟩
  | cons a addrs ih =>
    obtain ⟨ha, hrest⟩ := List.forall_mem_cons.mp haddrs
    obtain ⟨h₁, hreach₁, hwords₁, hentry₁⟩ := h.unmapStep ha
    obtain ⟨h', hwords, hgone, hkept⟩ := ih h₁ hrest
    refine ⟨h', fun f j hf => ?_, fun x hx => ?_, fun x hx => ?_⟩
    · refine (hwords f j fun q hq => ?_).trans (hwords₁ f j hf)
      rw [hreach₁ q hq.le]
      exact hf q hq
    · by_cases hlater : ∃ b ∈ addrs, SamePage x b
      · exact hgone x hlater
      · -- the page is the one of the first address
        have hnot : ∀ b ∈ addrs, ¬ SamePage x b := fun b hb hxb => hlater ⟨b, hb, hxb⟩
        obtain ⟨b, hb, hxb⟩ := hx
        have hfirst : SamePage x a := by
          rcases List.mem_cons.mp hb with rfl | hb
          · exact hxb
          · exact absurd hxb (hnot b hb)
        exact (hkept x hnot).trans ((hentry₁ x).trans (if_pos hfirst))
    · obtain ⟨hxa, hnot⟩ := List.forall_mem_cons.mp hx
      exact (hkept x hnot).trans ((hentry₁ x).trans (if_neg hxa))

/-- The upper half does not see the walks for pages of the lower half. -/
theorem Halves.unmapAll_upper (h : Halves root v) (haddrs : ∀ a ∈ addrs, InUserHalf a)
    (hx : ¬ InUserHalf x) :
    translate (addrs.foldl (Vm.unmapStep root) v).mem root (indices x) =
      translate v.mem root (indices x) := by
  -- the words that are cleared are in tables of the last level of the lower half
  obtain ⟨-, hwords, -, -⟩ := h.space.unmapAll haddrs
  refine translate_upper (fun j _ => hwords root j fun q hq hreach => ?_) (fun hi hq hf => ?_) hx
  · have hnil : reach v.mem root [] = some root := rfl
    rw [h.space.tree (q := []) hq.le (Nat.zero_le 3) hreach hnil] at hq
    cases hq
  · funext j
    exact hwords _ j fun q hq hreach => (h.upper hi ‹_› hf).plain ⟨q, hq.le, hreach⟩

end Lower

/-! ## The range -/

section Range

variable {root vaddr size : ℕ} {v : Vm}

theorem mem_unmapAddrs {a : ℕ} : a ∈ unmapAddrs vaddr size ↔
    ∃ i < unmapSize size / pageSize, a = wrap (vaddr + i * pageSize) := by
  simp only [unmapAddrs, List.mem_map, List.mem_range, eq_comm]

/-- The rounded size is what the size needs, or nothing when rounding wraps. -/
theorem unmapSize_bounds (hsize : size < 2 ^ 64) : unmapSize size % 4096 = 0 ∧
    unmapSize size < size + 4096 ∧ (unmapSize size = 0 ∨
      size ≤ unmapSize size) ∧ unmapSize size < 2 ^ 64 := by
  have heq : unmapSize size = wrap (size + 4095) / 4096 * 4096 :=
    @alignUp_eq 12 (by decide) size
  rw [heq]
  unfold wrap
  omega

/-- The addresses that are looked at, when they lie in the lower half. -/
theorem unmapAddrs_lower (hfits : vaddr / 4096 * 4096 + unmapSize size ≤ 2 ^ 47) {a : ℕ}
    (ha : a ∈ unmapAddrs vaddr size) : ∃ i, i * 4096 + 4096 ≤ unmapSize size ∧
      a = vaddr + i * 4096 ∧ a < 2 ^ 47 := by
  obtain ⟨i, hi, rfl⟩ := mem_unmapAddrs.mp ha
  rw [pageSize] at hi ⊢
  have hlast : (i + 1) * 4096 ≤ unmapSize size := Nat.mul_le_of_le_div 4096 (i + 1) _ hi
  rw [Nat.add_mul, Nat.one_mul] at hlast
  have hlt : vaddr + i * 4096 < 2 ^ 47 := by omega
  have hwrap : wrap (vaddr + i * 4096) = vaddr + i * 4096 := wrap_of_lt (by omega)
  rw [hwrap]
  exact ⟨i, hlast, rfl, hlt⟩

/-- A range that fits is unmapped exactly. -/
theorem Halves.unmapsRange (h : Halves root v)
    (hwrap : vaddr + size < 2 ^ 64) (hfits : UnmapFits root vaddr size v) :
    UnmapsRange root vaddr size v (sysUnmap v root vaddr size) := by
  obtain ⟨hend, hrest⟩ := hfits
  obtain ⟨hmod, hless, -, -⟩ := @unmapSize_bounds size (by omega)
  rw [pageSize] at hend
  simp only [pageSize] at hrest
  have haddrs : ∀ a ∈ unmapAddrs vaddr size, InUserHalf a := fun a ha => by
    obtain ⟨i, -, -, hlt⟩ := unmapAddrs_lower hend ha
    exact inUserHalf_of_lt hlt
  have hspace := h.space
  obtain ⟨hspace', -, hgone, hkept⟩ := hspace.unmapAll haddrs
  have hlower : ∀ x < 2 ^ 47, ∀ a ∈ unmapAddrs vaddr size,
      (SamePage x a ↔ x / 4096 = a / 4096) := fun x hx a ha => by
    obtain ⟨i, -, -, hlt⟩ := unmapAddrs_lower hend ha
    exact samePage_iff_of_lt (by omega) (by omega)
  rw [sysUnmap]
  constructor
  · rintro x hx hcanonical ⟨y, hlow, hhigh, hpage⟩
    rw [pageSize] at hpage
    have hsame : SamePage x y := by
      unfold SamePage
      omega
    rcases hcanonical with hlt | hupper
    · rw [hspace'.translate_eq (inUserHalf_of_lt hlt), Option.map_eq_none_iff]
      by_cases hvisited : ∃ a ∈ unmapAddrs vaddr size, SamePage x a
      · exact hgone x hvisited
      · -- the page was not looked at, and nothing is mapped there
        have hout : vaddr / 4096 * 4096 + unmapSize size ≤ y := by
          by_contra hin
          refine hvisited ⟨vaddr + (y - vaddr / 4096 * 4096) / 4096 * 4096,
            mem_unmapAddrs.mpr ⟨(y - vaddr / 4096 * 4096) / 4096, ?_, ?_⟩, ?_⟩
          · rw [pageSize]
            omega
          · rw [pageSize, wrap_of_lt (by omega)]
          · rw [samePage_iff_of_lt (by omega) (by omega), pageSize]
            omega
        have hnone := hrest y hout hlow hhigh (Or.inl (by omega))
        rw [← indices_eq_iff.mpr hsame, hspace.translate_eq (inUserHalf_of_lt hlt),
          Option.map_eq_none_iff] at hnone
        exact (hkept x fun a ha hxa => hvisited ⟨a, ha, hxa⟩).trans hnone
    · rw [h.unmapAll_upper haddrs (not_inUserHalf hupper hx), indices_eq_iff.mpr hsame]
      have hpow : 2 ^ 47 + 2 ^ 47 ≤ 2 ^ 64 - 2 ^ 47 := by decide
      exact hrest y (by omega) hlow hhigh (Or.inr (by omega))
  · intro x hx hcanonical hout
    rcases hcanonical with hlt | hupper
    · rw [hspace'.translate_eq (inUserHalf_of_lt hlt), hspace.translate_eq (inUserHalf_of_lt hlt)]
      refine congrArg _ (hkept x fun a ha hxa => hout ?_)
      have hpage := (hlower x hlt a ha).mp hxa
      obtain ⟨i, hi, rfl, -⟩ := unmapAddrs_lower hend ha
      exact ⟨vaddr + i * 4096, by omega, by omega, hpage.symm⟩
    · exact h.unmapAll_upper haddrs (not_inUserHalf hupper hx)

/-- Behind the lower half the walks come to the kernel heap. -/
theorem translate_sysUnmap_kheap (hvaddr : vaddr < 2 ^ 47) (hsize : size < 2 ^ 64)
    (hout : 2 ^ 47 < vaddr / 4096 * 4096 + unmapSize size)
    {e : ℕ} : translate (sysUnmap v root vaddr size).mem root (indices kheapStart) ≠
      some ([], e) := by
  intro hsome
  obtain ⟨hmod, -, -, -⟩ := unmapSize_bounds hsize
  have hheap : kheapStart = 2 ^ 64 - 2 ^ 47 := by decide
  have hmem : wrap (vaddr + (2 ^ 47 - vaddr / 4096 * 4096) / 4096 * pageSize) ∈
      unmapAddrs vaddr size := by
    refine mem_unmapAddrs.mpr ⟨_, ?_, rfl⟩
    rw [pageSize]
    omega
  have hsame : SamePage kheapStart
      (wrap (vaddr + (2 ^ 47 - vaddr / 4096 * 4096) / 4096 * pageSize)) := by
    rw [pageSize, wrap_of_lt (by omega), hheap]
    unfold SamePage
    omega
  obtain ⟨before, after, hsplit⟩ := List.append_of_mem hmem
  rw [sysUnmap, hsplit, List.foldl_append, List.foldl_cons] at hsome
  have hstep := (cleared_foldl _ root after).translate_some hsome
  rw [indices_eq_iff.mpr hsame] at hstep
  have hbefore := ((before.foldl (Vm.unmapStep root) v).unmapStep_cleared root _).translate_some
    hstep
  exact translate_unmapStep hbefore ⟨e, hstep⟩

/-- `sys_unmap` unmaps a range exactly when it fits. As soon as it looks at an address behind the
lower half, it takes the first page of the kernel heap away. -/
theorem sysUnmap_exact (h : Halves root v)
    (hvaddr : vaddr < 2 ^ 47) (hwrap : vaddr + size < 2 ^ 64) :
    (UnmapFits root vaddr size v →
        UnmapsRange root vaddr size v (sysUnmap v root vaddr size)) ∧
      (vaddr + size ≤ kheapStart →
        (∃ e, translate v.mem root (indices kheapStart) = some ([], e)) →
        UnmapsRange root vaddr size v (sysUnmap v root vaddr size) →
        UnmapFits root vaddr size v) := by
  refine ⟨h.unmapsRange hwrap, fun hrange ⟨e, he⟩ hunmaps => ?_⟩
  have hheap : kheapStart = 2 ^ 64 - 2 ^ 47 := by decide
  have hpage : pageSize = 4096 := rfl
  have hend : vaddr / 4096 * 4096 + unmapSize size ≤ 2 ^ 47 := by
    by_contra hout
    have hlost : translate (sysUnmap v root vaddr size).mem root (indices kheapStart) ≠
        some ([], e) := translate_sysUnmap_kheap hvaddr (by omega) (Nat.not_le.mp hout)
    refine hlost ?_
    rw [hunmaps.kept kheapStart (by decide) (by decide), he]
    rintro ⟨y, hlow, hhigh, hy⟩
    rw [hpage] at hy
    omega
  refine ⟨hend, fun y hlow hfirst hhigh hcanonical => ?_⟩
  rw [hpage] at hlow
  have hlt : y < 2 ^ 47 := hcanonical.resolve_right (by omega)
  have haddrs : ∀ a ∈ unmapAddrs vaddr size, InUserHalf a := fun a ha => by
    obtain ⟨i, -, -, hlt⟩ := unmapAddrs_lower hend ha
    exact inUserHalf_of_lt hlt
  have hspace := h.space
  obtain ⟨hspace', -, -, hkept⟩ := hspace.unmapAll haddrs
  have hgone := hunmaps.gone y (by omega) hcanonical ⟨y, hfirst, hhigh, rfl⟩
  rw [sysUnmap, hspace'.translate_eq (inUserHalf_of_lt hlt), hkept y fun a ha hya => ?_,
    ← hspace.translate_eq (inUserHalf_of_lt hlt)] at hgone
  · exact hgone
  · -- all pages that were looked at are below
    obtain ⟨i, hi, rfl, halt⟩ := unmapAddrs_lower hend ha
    rw [samePage_iff_of_lt (by omega) (by omega), hpage] at hya
    omega

/-- Seven of sixteen pages are used: a PML4 at `0x2000`, three tables and the first page of the
kernel heap, each behind the one before. -/
def kernelVm : Vm where
  mem f i :=
    if f = 0x2000 ∧ i.val = 256 ∨ (f = 0x3000 ∨ f = 0x4000 ∨ f = 0x5000) ∧ i.val = 0 then
      f + 0x1003
    else 0
  pmm :=
    { samplePmm with
      bitmap := fun i => if i = 0 then 0x7F#8 else 0#8
      totalPages := 16
      usedPages := 7
      bitmapSizeBytes := 2 }
  lent := {0x2000}
  freed := []

theorem kernelVm_sound : kernelVm.Sound :=
  ⟨⟨by decide, by decide, by decide, by decide⟩, by decide,
    fun f hf => ⟨2, by decide, hf, by decide⟩⟩

/-- The lower half is empty. -/
theorem kernelVm_lowerTable (i : Fin 512) : lowerTable kernelVm.mem 0x2000 0x2000 i = none := by
  rw [lowerTable]
  split_ifs with hupper
  · rfl
  · have hlower : ¬ 256 ≤ i.val := fun hi => hupper ⟨rfl, hi⟩
    have hzero : kernelVm.mem 0x2000 i = 0 := if_neg fun h => by
      rcases h with ⟨-, hi⟩ | ⟨h, -⟩
      · exact hlower hi.ge
      · exact absurd h (by decide)
    rw [nextTable, hzero]
    rfl

/-- The upper half leads from one frame to the next. -/
theorem kernelVm_walk {f g : ℕ} {q : Path} (hf : f = 0x3000 ∨ f = 0x4000 ∨ f = 0x5000 ∨ f = 0x6000)
    (hwalk : walk kernelVm.mem f q = some g) :
    g = 0x3000 ∨ g = 0x4000 ∨ g = 0x5000 ∨ g = 0x6000 := by
  induction q generalizing f with
  | nil => rwa [← Option.some_inj.mp hwalk]
  | cons i q ih =>
    rw [walk] at hwalk
    split_ifs at hwalk with hgoes
    refine ih ?_ hwalk
    by_cases hi : i = 0
    · subst hi
      rcases hf with rfl | rfl | rfl | rfl
      · decide
      · decide
      · decide
      · exact absurd hgoes (by decide)
    · have hzero : kernelVm.mem f i = 0 := if_neg fun h => by
        rcases h with ⟨rfl, -⟩ | ⟨-, hi'⟩
        · revert hf
          decide
        · exact hi (Fin.ext hi')
      rw [hzero] at hgoes
      exact absurd hgoes (by decide)

theorem kernelVm_halves : Halves 0x2000 kernelVm := by
  have hroot : ∀ {p f}, reach kernelVm.mem 0x2000 p = some f → p = [] ∧ f = 0x2000 := by
    intro p f hf
    cases p with
    | nil => exact ⟨rfl, (Option.some_inj.mp hf).symm⟩
    | cons i p =>
      rw [reach, descend_cons, kernelVm_lowerTable] at hf
      cases hf
  have hused : ¬ kernelVm.pmm.Free 0x2000 := kernelVm_sound.not_free rfl
  refine ⟨⟨kernelVm_sound, Nat.le_refl 3, .of_empty kernelVm_lowerTable, fun _ hf => ?_,
    fun {p f i} _ hf hlower hpresent => ?_⟩, fun {i q f} hi _ hwalk => ?_⟩
  · rw [(hroot hf).2]
    exact hused
  · obtain ⟨-, rfl⟩ := hroot hf
    have hnone := kernelVm_lowerTable i
    rw [lowerTable, if_neg hlower, nextTable, if_pos hpresent] at hnone
    cases hnone
  · rw [walk] at hwalk
    split_ifs at hwalk with hgoes
    have hfirst : i = 256 := by
      by_contra hne
      have hzero : kernelVm.mem 0x2000 i = 0 := if_neg fun h => by
        rcases h with ⟨-, hi'⟩ | ⟨h, -⟩
        · exact hne (Fin.ext hi')
        · exact absurd h (by decide)
      rw [hzero] at hgoes
      exact absurd hgoes (by decide)
    subst hfirst
    have hframe := kernelVm_walk (f := entryFrame (kernelVm.mem 0x2000 256)) (by decide) hwalk
    refine ⟨?_, ?_⟩
    · rintro ⟨page, hpage, hpageFrame, hclear⟩
      have hlow : page < 7 := by
        rw [pageSize] at hpageFrame
        omega
      have hset : ∀ page < 7, kernelVm.pmm.bitmapTest page = true := by decide
      rw [hset page hlow] at hclear
      cases hclear
    · rintro ⟨q, -, hreach⟩
      rw [(hroot hreach).2] at hframe
      revert hframe
      decide

/-- A program that has two pages unmaps the first of them, and the second stays. A range that
begins at the second page and ends at the kernel heap takes the heap's first page away. -/
theorem sysUnmap_exact_kernelVm : ∃ v,
    sysSbrk kernelVm 0x2000 0x400000 0x2000 = some (0x400000, 0x402000, v) ∧
      UnmapsRange 0x2000 0x400000 0x1000 v (sysUnmap v 0x2000 0x400000 0x1000) ∧
      (translate v.mem 0x2000 (indices 0x400000)).isSome ∧
      (translate (sysUnmap v 0x2000 0x400000 0x1000).mem 0x2000 (indices 0x401000)).isSome ∧
      ¬ UnmapsRange 0x2000 0x401000 (kheapStart - 0x401000) v
        (sysUnmap v 0x2000 0x401000 (kheapStart - 0x401000)) := by
  have hruns : ((sysSbrk kernelVm 0x2000 0x400000 0x2000).any fun x =>
      decide (x.1 = 0x400000 ∧ x.2.1 = 0x402000 ∧
        (translate x.2.2.mem 0x2000 (indices 0x400000)).isSome ∧
        (translate (sysUnmap x.2.2 0x2000 0x400000 0x1000).mem 0x2000 (indices 0x401000)).isSome))
          = true := by decide +kernel
  obtain ⟨⟨result, programBreak, v⟩, hrun, hfacts⟩ := (Option.any_eq_true _ _).mp hruns
  obtain ⟨hresult, hbreak, hthere, hstays⟩ := of_decide_eq_true hfacts
  obtain rfl : result = 0x400000 := hresult
  obtain rfl : programBreak = 0x402000 := hbreak
  obtain ⟨hhalves, hupper⟩ := kernelVm_halves.mapsOnly
    (kernelVm_halves.space.sysSbrk_mapsOnly ∅ (by decide) hrun) fun f hf => absurd hf (by simp)
  have hheap : translate v.mem 0x2000 (indices kheapStart) = some ([], 0x6003) := by
    rw [hupper kheapStart (by decide)]
    decide
  refine ⟨v, hrun, (sysUnmap_exact hhalves (by decide) (by decide)).1 ?_, hthere, hstays,
    fun hunmaps => ?_⟩
  · exact ⟨by decide, fun y hlow _ hhigh _ => absurd (hlow.trans_lt hhigh) (by decide)⟩
  · have hfits := (sysUnmap_exact hhalves (by decide) (by decide)).2 (by decide) ⟨_, hheap⟩ hunmaps
    exact absurd hfits.1 (by decide)

/-- A program has two pages and unmaps as many bytes as one page has, from the middle of the first
on. The second page stays. -/
theorem sysUnmap_leaves_page : ∃ v,
    sysSbrk sampleVm 0x2000 0x400000 0x2000 = some (0x400000, 0x402000, v) ∧
      ¬ UnmapsRange 0x2000 0x400800 0x1000 v (sysUnmap v 0x2000 0x400800 0x1000) := by
  have hruns : ((sysSbrk sampleVm 0x2000 0x400000 0x2000).any fun x =>
      decide (x.1 = 0x400000 ∧ x.2.1 = 0x402000 ∧
        (translate (sysUnmap x.2.2 0x2000 0x400800 0x1000).mem 0x2000 (indices 0x401000)).isSome))
          = true := by decide +kernel
  obtain ⟨⟨result, programBreak, v⟩, hrun, hfacts⟩ := (Option.any_eq_true _ _).mp hruns
  obtain ⟨hresult, hbreak, hthere⟩ := of_decide_eq_true hfacts
  obtain rfl : result = 0x400000 := hresult
  obtain rfl : programBreak = 0x402000 := hbreak
  refine ⟨v, hrun, fun hunmaps => ?_⟩
  have hgone := hunmaps.gone 0x401000 (by decide) (Or.inl (by decide))
    ⟨0x401000, by decide, by decide, rfl⟩
  rw [hgone] at hthere
  exact Bool.false_ne_true hthere

end Range

end OpenIDP.Memory
