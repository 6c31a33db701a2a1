import OpenIDP.Math.Reaches
import OpenIDP.Memory.Access

/-!
# The program break

`sys_sbrk` moves the end of a program's heap. When the rounded break rises, a fresh page is
mapped and cleared for each page in between. The break is not compared with any bound, and it
may wrap around.

A growing call does what its caller expects when the heap it asks for ends within the user half
of the address space, and when the page in which an unaligned break lies is mapped for the
program: the rest of this page is handed out without a look at it.

## Main definitions

* `growPages`, `sysSbrk` — the system call
* `Extends` — fresh pages are mapped in a range, and nothing else changes
* `Heap.Grants` — what the caller of a growing call expects
* `Heap.Careful` — the condition on the state before

## Main results

* `Spaces.growPages` — the loop extends the address space
* `sbrk_runs_grant` — in careful runs the caller gets what it expects, and a call that is not
  careful never does
-/

namespace OpenIDP.Memory

open OpenIDP.Math

/-- The loop of `sys_sbrk`: `n` more pages, the next of them with number `i`. The result says
whether all pages could be mapped. -/
def growPages (pml4 oldPageTop : ℕ) : ℕ → ℕ → Vm → Option (Bool × Vm)
  | 0, _, v => some (true, v)
  | n + 1, i, v =>
    match v.allocFrame with
    | (none, v₁) => some (false, v₁)
    | (some phys, v₁) => do
      let mapAddr := wrap (oldPageTop + i * pageSize)
      let v₂ ← v₁.vmmMapPage pml4 mapAddr phys 7
      let v₃ ← v₂.memsetPage pml4 mapAddr
      growPages pml4 oldPageTop n (i + 1) (v₃.clearPage phys)

/-- `(void*)-1` -/
def sbrkFailed : ℕ := 2 ^ 64 - 1

/-- `sys_sbrk`, with the result, the new program break and the new state of memory. -/
def sysSbrk (v : Vm) (pml4 programBreak : ℕ) (inc : ℤ) : Option (ℕ × ℕ × Vm) :=
  if inc = 0 then
    some (programBreak, programBreak, v)
  else
    let newBreak := wrap (programBreak + toU64 inc)
    let oldPageTop := alignUp programBreak pageSize
    let newPageTop := alignUp newBreak pageSize
    if oldPageTop < newPageTop then do
      let (done, v₁) ← growPages pml4 oldPageTop ((newPageTop - oldPageTop) / pageSize) 0 v
      if done then some (programBreak, newBreak, v₁) else some (sbrkFailed, programBreak, v₁)
    else
      some (programBreak, newBreak, v)

/-! ## Fresh pages in a range -/

/-- In the address space `r` the pages from `lo` to `hi` are fresh pages of zeros that the
program may write to. No other page changes, and no frame in use but tables of `r`. -/
structure Extends (roots : Set ℕ) (r lo hi : ℕ) (v v' : Vm) : Prop where
  spaces : Spaces roots v'
  other : ∀ s ∈ roots, ∀ x < 2 ^ 47, (s = r → x < lo ∨ hi ≤ x) →
    pageEntry v'.mem s x = pageEntry v.mem s x
  page : ∀ x, lo ≤ x → x < hi → ∃ e, pageEntry v'.mem r x = some e ∧ Allows e ∧
    v.pmm.Free (entryFrame e) ∧ v'.mem (entryFrame e) = fun _ => 0
  mem_eq : ∀ g, ¬ v.pmm.Free g → ¬ IsTable v.mem r g → v'.mem g = v.mem g
  tables : ∀ s ∈ roots, ∀ f, IsTable v'.mem s f → IsTable v.mem s f ∨ s = r ∧ v.pmm.Free f
  free : ∀ g, v'.pmm.Free g → v.pmm.Free g

section Loop

variable {roots : Set ℕ} {r lo mid hi base i n inc brk : ℕ} {v v' v'' : Vm}

theorem Extends.refl (h : Spaces roots v) : Extends roots r lo lo v v :=
  ⟨h, fun _ _ _ _ _ => rfl, fun _ hlo hhi => absurd hhi (Nat.not_lt.mpr hlo),
    fun _ _ _ => rfl, fun _ _ _ => Or.inl, fun _ => id⟩

/-- Two ranges, one after the other. -/
theorem Extends.trans (hr : r ∈ roots)
    (h : Extends roots r lo mid v v') (h' : Extends roots r mid hi v' v'') (hmid : lo ≤ mid)
    (hhi : mid ≤ hi) (hbound : hi ≤ 2 ^ 47) : Extends roots r lo hi v v'' := by
  have hused : ∀ g, ¬ v.pmm.Free g → ¬ v'.pmm.Free g := fun g hg hg' => hg (h.free g hg')
  refine ⟨h'.spaces, fun s hs x hx hout => ?_, fun x hlo hx => ?_, fun g hg hnot => ?_,
    fun s hs f hf => ?_, fun g hg => h.free g (h'.free g hg)⟩
  · rw [h'.other s hs x hx fun hsr => ?_, h.other s hs x hx fun hsr => ?_]
    · exact (hout hsr).imp_right fun hle => hhi.trans hle
    · exact (hout hsr).imp_left fun hlt => hlt.trans_le hmid
  · by_cases hx' : x < mid
    · -- the page is there already, and the later pages leave its frame alone
      obtain ⟨e, he, hallows, hfree, hzero⟩ := h.page x hlo hx'
      have hplain : ¬ v'.pmm.Free (entryFrame e) ∧ ¬ IsTable v'.mem r (entryFrame e) :=
        ⟨h.spaces.page_used r hr _ _ e rfl he, h.spaces.page_plain r hr r hr _ _ e rfl he⟩
      refine ⟨e, ?_, hallows, hfree, ?_⟩
      · rw [h'.other r hr x (hx.trans_le hbound) fun _ => Or.inl hx', he]
      · rw [h'.mem_eq _ hplain.1 hplain.2, hzero]
    · obtain ⟨e, he, hallows, hfree, hzero⟩ := h'.page x (Nat.not_lt.mp hx') hx
      exact ⟨e, he, hallows, h.free _ hfree, hzero⟩
  · have hnot' : ¬ IsTable v'.mem r g := fun hg' =>
      (h.tables r hr g hg').elim hnot fun hfree => hg hfree.2
    rw [h'.mem_eq g (hused g hg) hnot', h.mem_eq g hg hnot]
  · rcases h'.tables s hs f hf with hf' | ⟨hsr, hfree⟩
    · exact h.tables s hs f hf'
    · exact Or.inr ⟨hsr, h.free f hfree⟩

/-- A frame is taken, mapped and cleared. -/
theorem Spaces.growPage (h : Spaces roots v) (hr : r ∈ roots) {virt f : ℕ} {v₁ v₂ v₃ : Vm}
    (hvirt : virt + pageSize ≤ 2 ^ 47) (haligned : virt % pageSize = 0)
    (halloc : v.allocFrame = (some f, v₁)) (hmap : v₁.vmmMapPage r virt f 7 = some v₂)
    (hclear : v₂.memsetPage r virt = some v₃) :
    Extends roots r virt (virt + pageSize) v (v₃.clearPage f) := by
  have hlt : virt < 2 ^ 47 := (Nat.lt_add_of_pos_right (by decide)).trans_le hvirt
  obtain ⟨h₁, hmem₁, hlends, hplain, hpages⟩ := h.alloc halloc
  have hfree : v.pmm.Free f := hlends.free f (List.mem_singleton.mpr rfl)
  have hframe : entryFrame f = f := by
    refine h₁.sound.isFrame ?_
    rw [hlends.lent_eq]
    exact Or.inr (List.mem_singleton.mpr rfl)
  obtain ⟨h₂, htouches, new, hlends'⟩ := h₁.vmmMapPage hr (inUserHalf_of_lt hlt)
    (hframe.symm ▸ hplain) (by decide) hmap
  obtain ⟨hentry, -⟩ := @entry_page 7 f (by decide)
  rw [hframe] at hentry
  -- the frame is cleared twice, through the new page and through the kernel's own mapping
  rw [(h₂.space r hr).memsetPage_eq hlt htouches.entry_eq, hentry] at hclear
  have hcleared : ∀ g, (v₃.clearPage f).mem g = if g = f then fun _ => 0 else v₂.mem g := by
    intro g
    rw [← Option.some_inj.mp hclear]
    funext j
    rw [Vm.mem_clearPage, Vm.mem_clearPage]
    split_ifs <;> rfl
  have hkept : ∀ g, g ≠ f → (v₃.clearPage f).mem g = v₂.mem g := fun g hg => by
    rw [hcleared, if_neg hg]
  have hpmm : (v₃.clearPage f).pmm = v₂.pmm := by
    rw [← Option.some_inj.mp hclear]
    rfl
  have hlent : (v₃.clearPage f).lent = v₂.lent := by
    rw [← Option.some_inj.mp hclear]
    rfl
  have hnot : ∀ s ∈ roots, ¬ IsTable v₂.mem s f := fun s hs hf =>
    (htouches.tables s hs f hf).elim (hplain.plain s hs) fun hfree' => hplain.used hfree'.2
  obtain ⟨h₃, hsame, htables⟩ := h₂.write hnot hkept hpmm hlent
  have hused : ∀ g, ¬ v.pmm.Free g → ¬ v₁.pmm.Free g := fun g hg hg' =>
    hg (hlends.free_iff.mp hg').1
  have hpage : ∀ x < 2 ^ 47, SamePage x virt ↔ virt ≤ x ∧ x < virt + pageSize := by
    intro x hx
    exact samePage_iff_of_aligned haligned hx hlt
  refine ⟨h₃, fun s hs x hx hout => ?_, fun x hlo hhi => ?_, fun g hg hg' => ?_,
    fun s hs g hg => ?_, fun g hg => ?_⟩
  · rw [hsame s hs, htouches.other s hs x fun hsr hxv => ?_, hmem₁]
    have hin := (hpage x hx).mp hxv
    rcases hout hsr with hlo | hhi
    · exact Nat.not_lt.mpr hin.1 hlo
    · exact Nat.not_lt.mpr hhi hin.2
  · have hxv : SamePage x virt := (hpage x (hhi.trans_le hvirt)).mpr ⟨hlo, hhi⟩
    refine ⟨_, ?_, allows_entry, hentry.symm ▸ hfree, ?_⟩
    · rw [hsame r hr, pageEntry_congr hxv]
      exact htouches.entry_eq
    · rw [hentry, hcleared, if_pos rfl]
  · have hgf : g ≠ f := fun e => hg (e ▸ hfree)
    rw [hkept g hgf, htouches.mem_eq g (hused g hg) (by rwa [hmem₁]), hmem₁]
  · rcases htouches.tables s hs g ((htables s hs g).mp hg) with hg' | ⟨hsr, hg'⟩
    · exact Or.inl (by rwa [hmem₁] at hg')
    · exact Or.inr ⟨hsr, (hlends.free_iff.mp hg').1⟩
  · rw [hpmm] at hg
    exact (hlends.free_iff.mp (hlends'.free_iff.mp hg).1).1

/-- The loop extends the address space, as far as it gets. An address that is neither in the
user half nor canonical stops it. -/
theorem Spaces.growPages (h : Spaces roots v) (hr : r ∈ roots) {done : Bool}
    (haligned : base % pageSize = 0) (hbase : base + i * pageSize ≤ 2 ^ 63)
    (hrun : growPages r base n i v = some (done, v')) :
    ∃ m ≤ n, (done = true → m = n) ∧ (0 < m → base + (i + m) * pageSize ≤ 2 ^ 47) ∧
      Extends roots r (base + i * pageSize) (base + (i + m) * pageSize) v v' := by
  -- Induction on the pages still to map; `i` counts those that are.
  induction n generalizing i v with
  | zero =>
    obtain ⟨-, rfl⟩ := Prod.mk.inj (Option.some_inj.mp hrun)
    exact ⟨0, Nat.le_refl 0, fun _ => rfl, fun hlt => absurd hlt (by decide), .refl h⟩
  | succ n ih =>
    rw [Memory.growPages] at hrun
    split at hrun
    · next v₁ halloc =>
      obtain ⟨rfl, rfl⟩ := Prod.mk.inj (Option.some_inj.mp hrun)
      obtain ⟨hsound, hmem, hlent, -, hfree⟩ := h.sound.allocFrame_none halloc
      obtain ⟨h₁, hreach, hleaf⟩ := h.congr hsound (fun g hg => (hfree g).mp hg)
        fun s _ g _ => by rw [hmem]
      refine ⟨0, Nat.zero_le _, fun hdone => absurd hdone (by decide),
        fun hlt => absurd hlt (by decide), ⟨h₁, fun s _ x _ _ => by rw [hmem],
        fun x hlo hhi => absurd hhi (Nat.not_lt.mpr hlo), fun g _ _ => by rw [hmem],
        fun s _ g hg => Or.inl (by rwa [hmem] at hg), fun g hg => (hfree g).mp hg⟩⟩
    · next f v₁ halloc =>
      have hwrap : wrap (base + i * pageSize) = base + i * pageSize := wrap_of_lt (by omega)
      rw [hwrap] at hrun
      obtain ⟨v₂, hmap, hrun⟩ := Option.bind_eq_some_iff.mp hrun
      obtain ⟨v₃, hclear, hrun⟩ := Option.bind_eq_some_iff.mp hrun
      -- The page is cleared at its virtual address, which must therefore be canonical.
      have hvirt : base + i * pageSize < 2 ^ 47 := by
        by_contra hle
        have hcanonical : ¬ Canonical (base + i * pageSize) := by
          unfold Canonical
          omega
        rw [Vm.memsetPage, if_neg hcanonical] at hclear
        cases hclear
      have hstep : base + i * pageSize + pageSize = base + (i + 1) * pageSize := by ring
      have hend : base + (i + 1) * pageSize ≤ 2 ^ 47 := by
        rw [pageSize] at haligned hvirt ⊢
        omega
      have haligned' : (base + i * pageSize) % pageSize = 0 := by
        rw [Nat.add_mul_mod_self_right, haligned]
      have hfirst := h.growPage hr (hstep.le.trans hend) haligned' halloc hmap hclear
      rw [hstep] at hfirst
      have hbase' : base + (i + 1) * pageSize ≤ 2 ^ 63 := by omega
      obtain ⟨m, hm, hdone, hbound, hrest⟩ := ih hfirst.spaces hbase' hrun
      have hnum : i + 1 + m = i + (m + 1) := by ring
      rw [hnum] at hbound hrest
      have hlast : base + (i + (m + 1)) * pageSize ≤ 2 ^ 47 := by
        by_cases hm0 : 0 < m
        · exact hbound hm0
        · rwa [Nat.eq_zero_of_not_pos hm0]
      refine ⟨m + 1, Nat.succ_le_succ hm, fun h => by rw [hdone h], fun _ => hlast, ?_⟩
      have hmono : base + (i + 1) * pageSize ≤ base + (i + (m + 1)) * pageSize := by
        rw [pageSize]
        omega
      exact hfirst.trans hr hrest (Nat.le_add_right _ _ |>.trans hstep.le) hmono hlast

/-- A call that succeeds returns the old break. -/
theorem sysSbrk_result {inc : ℤ} {result brk' : ℕ}
    (hrun : sysSbrk v r brk inc = some (result, brk', v')) (hsuccess : result ≠ sbrkFailed) :
    result = brk := by
  unfold sysSbrk at hrun
  dsimp only at hrun
  split_ifs at hrun
  · exact (Prod.mk.inj (Option.some_inj.mp hrun)).1.symm
  · obtain ⟨⟨done, v₁⟩, -, hrun⟩ := Option.bind_eq_some_iff.mp hrun
    cases done with
    | false => exact absurd (Prod.mk.inj (Option.some_inj.mp hrun)).1.symm hsuccess
    | true => exact (Prod.mk.inj (Option.some_inj.mp hrun)).1.symm
  · exact (Prod.mk.inj (Option.some_inj.mp hrun)).1.symm

/-- A call that fails leaves the break. -/
theorem sysSbrk_failed {inc : ℤ} {brk' : ℕ} (hbrk : brk ≠ sbrkFailed)
    (hrun : sysSbrk v r brk inc = some (sbrkFailed, brk', v')) : brk' = brk := by
  unfold sysSbrk at hrun
  dsimp only at hrun
  split_ifs at hrun
  · exact absurd (Prod.mk.inj (Option.some_inj.mp hrun)).1 hbrk
  · obtain ⟨⟨done, v₁⟩, -, hrun⟩ := Option.bind_eq_some_iff.mp hrun
    cases done with
    | false => exact (Prod.mk.inj (Prod.mk.inj (Option.some_inj.mp hrun)).2).1.symm
    | true => exact absurd (Prod.mk.inj (Option.some_inj.mp hrun)).1 hbrk
  · exact absurd (Prod.mk.inj (Option.some_inj.mp hrun)).1 hbrk

theorem alignUp_page (x : ℕ) :
    alignUp x pageSize = wrap (x + 4095) / 4096 * 4096 := @alignUp_eq 12 (by decide) x

/-- All pages that the loop has mapped have canonical addresses. -/
theorem canonical_of_growPages (hrun : growPages r base n i v = some (true, v')) {k : ℕ}
    (hk : k < n) : Canonical (wrap (base + (i + k) * pageSize)) := by
  induction n generalizing i k v with
  | zero => exact absurd hk (Nat.not_lt_zero k)
  | succ n ih =>
    rw [growPages] at hrun
    split at hrun
    · cases hrun
    · next f v₁ halloc =>
      obtain ⟨v₂, hmap, hrun⟩ := Option.bind_eq_some_iff.mp hrun
      obtain ⟨v₃, hclear, hrun⟩ := Option.bind_eq_some_iff.mp hrun
      cases k with
      | zero =>
        by_contra hcanonical
        rw [Nat.add_zero] at hcanonical
        rw [Vm.memsetPage, if_neg hcanonical] at hclear
        cases hclear
      | succ k =>
        have hnum : i + (k + 1) = i + 1 + k := by ring
        rw [hnum]
        exact ih hrun (Nat.lt_of_succ_lt_succ hk)

/-- A growing call that succeeds moves the break by what was asked for, within the user half. -/
theorem sysSbrk_grow {inc : ℤ} {result brk' : ℕ} (hbrk : brk ≤ 2 ^ 47) (hpos : 0 < inc)
    (hhigh : inc < 2 ^ 63) (hrun : sysSbrk v r brk inc = some (result, brk', v'))
    (hsuccess : result ≠ sbrkFailed) :
    result = brk ∧ brk' = brk + inc.toNat ∧ brk' ≤ 2 ^ 47 := by
  have hresult := sysSbrk_result hrun hsuccess
  have hnew : wrap (brk + toU64 inc) = brk + inc.toNat := by
    unfold wrap toU64
    omega
  unfold sysSbrk at hrun
  dsimp only at hrun
  rw [if_neg hpos.ne', hnew, alignUp_page, alignUp_page, wrap_of_lt (by omega),
    wrap_of_lt (by omega)] at hrun
  split_ifs at hrun with hgrow
  · obtain ⟨⟨done, v₁⟩, hloop, hrun⟩ := Option.bind_eq_some_iff.mp hrun
    cases done with
    | false => exact absurd (Prod.mk.inj (Option.some_inj.mp hrun)).1.symm hsuccess
    | true =>
      have hend := (Prod.mk.inj (Prod.mk.inj (Option.some_inj.mp hrun)).2).1
      refine ⟨hresult, hend.symm, Nat.not_lt.mp fun hlt => ?_⟩
      -- the page at the end of the user half would have been mapped
      have hpage := canonical_of_growPages hloop
        (k := (2 ^ 47 - (brk + 4095) / 4096 * 4096) / 4096) (by rw [pageSize]; omega)
      have haddr : (brk + 4095) / 4096 * 4096 +
          (0 + (2 ^ 47 - (brk + 4095) / 4096 * 4096) / 4096) * pageSize = 2 ^ 47 := by
        rw [pageSize]
        omega
      rw [haddr] at hpage
      exact absurd hpage (by decide)
  · have hend := (Prod.mk.inj (Prod.mk.inj (Option.some_inj.mp hrun)).2).1
    exact ⟨hresult, hend.symm, by omega⟩

/-- A call extends the address space at the rounded break. A growing call that succeeds does so
up to the new rounded break. -/
theorem Spaces.sysSbrk (h : Spaces roots v) (hr : r ∈ roots) {inc : ℤ} {result brk' : ℕ}
    (hbrk : brk < 2 ^ 64) (hlow : -2 ^ 63 ≤ inc) (hhigh : inc < 2 ^ 63)
    (hcareful : 0 < inc → brk + inc ≤ 2 ^ 47)
    (hrun : sysSbrk v r brk inc = some (result, brk', v')) :
    brk' < 2 ^ 64 ∧ ∃ hi, Extends roots r (alignUp brk pageSize) hi v v' ∧
      (0 < inc → result ≠ sbrkFailed → hi = (brk + inc.toNat + 4095) / 4096 * 4096) := by
  unfold Memory.sysSbrk at hrun
  dsimp only at hrun
  split_ifs at hrun with hzero hgrow
  · obtain ⟨rfl, rfl, rfl⟩ : result = brk ∧ brk' = brk ∧ v' = v := by simpa using hrun.symm
    exact ⟨hbrk, _, .refl h, fun hpos => absurd hzero hpos.ne'⟩
  · -- pages are mapped from the rounded break on, which is below the middle of the addresses
    obtain ⟨⟨done, v₁⟩, hloop, hrun⟩ := Option.bind_eq_some_iff.mp hrun
    rw [alignUp_page, alignUp_page] at hgrow hloop
    have haligned : wrap (brk + 4095) / 4096 * 4096 % pageSize = 0 := Nat.mul_mod_left _ _
    have hbase : wrap (brk + 4095) / 4096 * 4096 + 0 * pageSize ≤ 2 ^ 63 := by
      unfold wrap toU64 at *
      omega
    obtain ⟨m, hm, hdone, -, hextends⟩ := h.growPages hr haligned hbase hloop
    rw [Nat.zero_add, Nat.zero_mul, Nat.add_zero] at hextends
    rw [alignUp_page]
    -- Out of frames, the pages mapped so far stay, and the break does not move.
    cases done with
    | false =>
      obtain ⟨rfl, rfl, rfl⟩ : result = sbrkFailed ∧ brk' = brk ∧ v' = v₁ := by
        simpa using hrun.symm
      exact ⟨hbrk, _, hextends, fun _ hne => absurd rfl hne⟩
    | true =>
      obtain ⟨rfl, rfl, rfl⟩ :
          result = brk ∧ brk' = wrap (brk + toU64 inc) ∧ v' = v₁ := by
        simpa using hrun.symm
      refine ⟨wrap_lt _, _, hextends, fun hpos _ => ?_⟩
      have hbound := hcareful hpos
      rw [hdone rfl, pageSize]
      unfold wrap toU64 at *
      omega
  · obtain ⟨rfl, rfl, rfl⟩ : result = brk ∧ brk' = wrap (brk + toU64 inc) ∧ v' = v := by
      simpa using hrun.symm
    refine ⟨wrap_lt _, _, .refl h, fun hpos _ => ?_⟩
    have hbound := hcareful hpos
    rw [alignUp_page, alignUp_page] at hgrow
    rw [alignUp_page]
    unfold wrap toU64 at *
    omega

end Loop

/-! ## Runs -/

/-- Memory, and the end of a program's heap. -/
structure Heap where
  vm : Vm
  programBreak : ℕ

/-- A call of `sys_sbrk` with its result. -/
structure SbrkCall where
  inc : ℤ
  result : ℕ

/-- A program with the PML4 `root` calls `sys_sbrk`, which returns. -/
inductive SbrkStep (root : ℕ) : Heap → SbrkCall → Heap → Prop
  | call {heap : Heap} {inc : ℤ} {result programBreak : ℕ} {vm : Vm} :
      -2 ^ 63 ≤ inc → inc < 2 ^ 63 →
      sysSbrk heap.vm root heap.programBreak inc = some (result, programBreak, vm) →
      SbrkStep root heap ⟨inc, result⟩ ⟨vm, programBreak⟩

theorem SbrkStep.result_eq {root : ℕ} {heap heap' : Heap} {call : SbrkCall}
    (hstep : SbrkStep root heap call heap') (hsuccess : call.result ≠ sbrkFailed) :
    call.result = heap.programBreak := by
  cases hstep with
  | call _ _ hrun => exact sysSbrk_result hrun hsuccess

namespace Heap

/-- The call asked for more memory and succeeded. -/
def Grown (t : Transition Heap SbrkCall) : Prop :=
  0 < t.label.inc ∧ t.label.result ≠ sbrkFailed

/-- What the caller expects of the call that returned `b`: the bytes from `b` on are in the user
half and can be written, pages that were added hold zeros, and no byte below `b` changes. -/
structure Grants (root : ℕ) (t : Transition Heap SbrkCall) : Prop where
  mapped : ∀ k < t.label.inc.toNat, t.label.result + k < 2 ^ 47 ∧
    UserWritable t.after.vm.mem root (t.label.result + k)
  fresh : ∀ x < 2 ^ 47,
    translate t.after.vm.mem root (indices x) ≠ translate t.before.vm.mem root (indices x) →
      readByte t.after.vm.mem root x = some 0
  kept : ∀ x < t.label.result, ∀ byte, readByte t.before.vm.mem root x = some byte →
    readByte t.after.vm.mem root x = some byte

/-- A growing call asks for memory up to the end of the user half at most, and the page of an
unaligned break is there. -/
def Careful (root : ℕ) (t : Transition Heap SbrkCall) : Prop :=
  0 < t.label.inc → t.before.programBreak + t.label.inc ≤ 2 ^ 47 ∧
    (t.before.programBreak % pageSize ≠ 0 →
      UserWritable t.before.vm.mem root t.before.programBreak)

/-- The PML4 of the program is one of several address spaces. -/
structure Valid (roots : Set ℕ) (root : ℕ) (heap : Heap) : Prop where
  mem_roots : root ∈ roots
  spaces : Spaces roots heap.vm
  break_lt : heap.programBreak < 2 ^ 64

section Runs

variable {roots : Set ℕ} {root lo hi x : ℕ} {heap heap₀ heap' : Heap} {call : SbrkCall}
variable {t : Transition Heap SbrkCall} {trace : List (Transition Heap SbrkCall)}

/-- What a call does that asks for memory within the user half, or for less. -/
theorem Valid.sbrkStep (h : Valid roots root heap) (hstep : SbrkStep root heap call heap')
    (hbound : 0 < call.inc → heap.programBreak + call.inc ≤ 2 ^ 47) :
    Valid roots root heap' ∧
      ∃ hi, Extends roots root (alignUp heap.programBreak pageSize) hi heap.vm heap'.vm ∧
        (0 < call.inc → call.result ≠ sbrkFailed →
          hi = (heap.programBreak + call.inc.toNat + 4095) / 4096 * 4096) := by
  cases hstep with
  | call hlow hhigh hrun =>
    obtain ⟨hbreak, hi, hextends, hhi⟩ :=
      h.spaces.sysSbrk h.mem_roots h.break_lt hlow hhigh hbound hrun
    exact ⟨⟨h.mem_roots, hextends.spaces, hbreak⟩, hi, hextends, hhi⟩

/-- Whether the program can write to a page outside the range does not change. -/
theorem Valid.userWritable_congr (h : Valid roots root heap)
    (hextends : Extends roots root lo hi heap.vm heap'.vm) (hx : x < lo) (hlt : x < 2 ^ 47) :
    UserWritable heap'.vm.mem root x ↔ UserWritable heap.vm.mem root x := by
  have hroot := h.mem_roots
  rw [(hextends.spaces.space root hroot).userWritable_iff (inUserHalf_of_lt hlt),
    (h.spaces.space root hroot).userWritable_iff (inUserHalf_of_lt hlt),
    hextends.other root hroot x hlt fun _ => Or.inl hx]

/-- A careful call that succeeds gives its caller what it expects. -/
theorem Valid.grants (h : Valid roots root t.before)
    (hstep : SbrkStep root t.before t.label t.after) (hcareful : Careful root t)
    (hgrown : Grown t) : Grants root t := by
  obtain ⟨hpos, hsuccess⟩ := hgrown
  obtain ⟨hbound, hpage⟩ := hcareful hpos
  obtain ⟨-, hi, hextends, hhi⟩ := h.sbrkStep hstep fun _ => hbound
  have hresult := hstep.result_eq hsuccess
  have hroot := h.mem_roots
  have hspace := h.spaces.space root hroot
  have hspace' := hextends.spaces.space root hroot
  have hlo : alignUp t.before.programBreak pageSize =
      (t.before.programBreak + 4095) / 4096 * 4096 := by
    rw [alignUp_page, wrap_of_lt (by omega)]
  rw [hlo] at hextends
  constructor
  · intro k hk
    rw [hresult]
    have hlt : t.before.programBreak + k < 2 ^ 47 := by omega
    refine ⟨hlt, ?_⟩
    by_cases hin : (t.before.programBreak + 4095) / 4096 * 4096 ≤ t.before.programBreak + k
    · obtain ⟨e, he, hallows, -⟩ := hextends.page _ hin (by rw [hhi hpos hsuccess]; omega)
      exact (hspace'.userWritable_iff (inUserHalf_of_lt hlt)).mpr ⟨e, he, hallows⟩
    · -- the rest of the page in which the break lies
      have hsame : SamePage (t.before.programBreak + k) t.before.programBreak := by
        rw [samePage_iff_of_lt (by omega) (by omega), pageSize]
        omega
      have hwritable := hpage (by rw [pageSize]; omega)
      rw [hspace.userWritable_iff (inUserHalf_of_lt (by omega)), ← pageEntry_congr hsame,
        ← hspace.userWritable_iff (inUserHalf_of_lt hlt)] at hwritable
      exact (h.userWritable_congr hextends (Nat.not_le.mp hin) hlt).mpr hwritable
  · intro x hx hchanged
    have hin : (t.before.programBreak + 4095) / 4096 * 4096 ≤ x ∧ x < hi := by
      by_contra hout
      rw [hspace.translate_eq (inUserHalf_of_lt hx), hspace'.translate_eq (inUserHalf_of_lt hx),
        hextends.other root hroot x hx fun _ => by omega] at hchanged
      exact hchanged rfl
    obtain ⟨e, he, -, -, hzero⟩ := hextends.page x hin.1 hin.2
    rw [hspace'.readByte_eq (inUserHalf_of_lt hx), he, Option.map_some, frameByte, hzero, byteOf,
      Nat.zero_div, Nat.zero_mod]
  · intro x hx byte hread
    rw [hresult] at hx
    have hlt : x < 2 ^ 47 := by omega
    rw [hspace.readByte_eq (inUserHalf_of_lt hlt)] at hread
    rw [hspace'.readByte_eq (inUserHalf_of_lt hlt),
      hextends.other root hroot x hlt fun _ => Or.inl (by omega)]
    obtain ⟨e, he, hbyte⟩ := Option.map_eq_some_iff.mp hread
    have hframe := hextends.mem_eq (entryFrame e) (h.spaces.page_used root hroot _ _ e rfl he)
      (h.spaces.page_plain root hroot root hroot _ _ e rfl he)
    rw [he, Option.map_some, frameByte, hframe]
    exact congrArg some hbyte

/-- A call that gives its caller what it expects is careful. -/
theorem Valid.careful_of_grants (h : Valid roots root t.before)
    (hstep : SbrkStep root t.before t.label t.after) (hgrown : Grown t)
    (hgrants : Grants root t) : Careful root t := by
  intro hpos
  have hbreak := hstep.result_eq hgrown.2
  have hlast := (hgrants.mapped (t.label.inc.toNat - 1) (by omega)).1
  have hbound : t.before.programBreak + t.label.inc ≤ 2 ^ 47 := by omega
  refine ⟨hbound, fun hunaligned => ?_⟩
  rw [pageSize] at hunaligned
  obtain ⟨-, hi, hextends, -⟩ := h.sbrkStep hstep fun _ => hbound
  rw [alignUp_page, wrap_of_lt (by omega)] at hextends
  have hfirst := (hgrants.mapped 0 (by omega)).2
  rw [Nat.add_zero, hbreak] at hfirst
  exact (h.userWritable_congr hextends (by omega) (by omega)).mp hfirst

theorem Valid.run (hstart : Valid roots root heap₀)
    (run : Reaches (Traced (SbrkStep root)) heap₀ trace heap)
    (hcareful : ∀ t ∈ trace, Careful root t) : Valid roots root heap := by
  induction run with
  | start => exact hstart
  | @snoc older s s' t _ hlast ih =>
    obtain ⟨rfl, rfl, hstep⟩ := hlast
    have hlater := List.forall_mem_cons.mp hcareful
    exact ((ih hlater.2).sbrkStep hstep fun hpos => (hlater.1 hpos).1).1

/-- In a run of careful calls, the growing calls that succeed give their caller what it expects.
After such a run, a growing call that is not careful does not. -/
theorem sbrk_runs_grant (hstart : Valid roots root heap₀)
    (run : Reaches (Traced (SbrkStep root)) heap₀ trace heap) :
    ((∀ t ∈ trace, Careful root t) → ∀ t ∈ trace, Grown t → Grants root t) ∧
      ∀ t older, trace = t :: older → (∀ u ∈ older, Careful root u) → Grown t →
        (Grants root t ↔ Careful root t) := by
  have hiff : ∀ {t older s}, Reaches (Traced (SbrkStep root)) heap₀ (t :: older) s →
      (∀ u ∈ older, Careful root u) → Grown t → (Grants root t ↔ Careful root t) := by
    intro t older s run hcareful hgrown
    obtain ⟨s', run', rfl, rfl, hstep⟩ := Reaches.cons_iff.mp run
    have hvalid := hstart.run run' hcareful
    exact ⟨hvalid.careful_of_grants hstep hgrown, fun h => hvalid.grants hstep h hgrown⟩
  constructor
  · intro hcareful
    induction run with
    | start => exact List.forall_mem_nil _
    | snoc hrun hlast ih =>
      have hlater := List.forall_mem_cons.mp hcareful
      refine List.forall_mem_cons.mpr ⟨fun hgrown => ?_, ih hlater.2⟩
      exact (hiff (hrun.snoc hlast) hlater.2 hgrown).mpr hlater.1
  · rintro t older rfl hcareful hgrown
    exact hiff run hcareful hgrown

/-- A program that has one page, at `0x400000`. -/
def sampleHeap : Heap :=
  ⟨(sampleVm.vmmMapPage 0x2000 0x400000 0x1000 7).getD sampleVm, 0x401000⟩

theorem sampleHeap_valid : Valid {0x2000} 0x2000 sampleHeap := by
  have hspaces := sampleVm_emptyPml4.spaces
  obtain ⟨v, hrun, -⟩ := sampleVm_sound.exists_vmmMapPage (by decide) 0x2000 0x400000 0x1000 7
  have hplain : PlainFrame {0x2000} sampleVm (entryFrame 0x1000) := by
    refine ⟨?_, fun s hs htable => ?_⟩
    · rintro ⟨page, hpage, hframe, hclear⟩
      have hone : page = 1 := Nat.eq_of_mul_eq_mul_right (by decide) (hframe.symm.trans (by decide))
      rw [hone] at hclear
      exact absurd hclear (by decide)
    · obtain rfl := Set.mem_singleton_iff.mp hs
      exact absurd (sampleVm_emptyPml4.isTable_iff.mp htable) (by decide)
  obtain ⟨hspaces', -, -⟩ := hspaces.vmmMapPage rfl (by decide) hplain (by decide) hrun
  refine ⟨rfl, ?_, by decide⟩
  rw [sampleHeap, hrun]
  exact hspaces'

/-- The program asks for one more page, and gets it. -/
theorem sbrk_runs_grant_sampleHeap : ∃ t : Transition Heap SbrkCall, t.before = sampleHeap ∧
    t.label = ⟨0x1000, 0x401000⟩ ∧ Grants 0x2000 t := by
  obtain ⟨⟨result, programBreak, v⟩, hrun, hresult⟩ : ∃ x,
      sysSbrk sampleHeap.vm 0x2000 sampleHeap.programBreak 0x1000 = some x ∧ x.1 = 0x401000 :=
    Option.map_eq_some_iff.mp (by decide +kernel)
  obtain rfl : result = 0x401000 := hresult
  have run := Reaches.start.next (SbrkStep.call (by decide) (by decide) hrun)
  obtain ⟨hgrants, -⟩ := sbrk_runs_grant sampleHeap_valid run
  have hgrown : (0 : ℤ) < 0x1000 ∧ 0x401000 ≠ sbrkFailed := by decide
  have hbound : ((0x401000 : ℕ) : ℤ) + 0x1000 ≤ 2 ^ 47 := by decide
  refine ⟨_, rfl, rfl, hgrants (fun t ht => ?_) _ (List.mem_singleton.mpr rfl) hgrown⟩
  obtain rfl := List.mem_singleton.mp ht
  have haligned : sampleHeap.programBreak % pageSize = 0 := by decide
  exact fun _ => ⟨hbound, fun hunaligned => absurd haligned hunaligned⟩

/-- The program gives back all its memory and one byte more, and asks for this byte. It gets an
address that is not mapped. -/
theorem sbrk_grants_unmapped : ∃ trace heap,
    Reaches (Traced (SbrkStep 0x2000)) sampleHeap trace heap ∧
      trace.map Transition.label = [⟨1, 0x3FFFFF⟩, ⟨-0x1001, 0x401000⟩] ∧
      ∃ t ∈ trace, Grown t ∧ ¬ Grants 0x2000 t := by
  have hshrink : sysSbrk sampleHeap.vm 0x2000 sampleHeap.programBreak (-0x1001) =
      some (0x401000, 0x3FFFFF, sampleHeap.vm) := by
    rw [sysSbrk, if_neg (by decide)]
    exact if_neg (by decide)
  have hgrow : sysSbrk sampleHeap.vm 0x2000 0x3FFFFF 1 =
      some (0x3FFFFF, 0x400000, sampleHeap.vm) := by
    rw [sysSbrk, if_neg (by decide)]
    exact if_neg (by decide)
  have run := (Reaches.start.next (SbrkStep.call (by decide) (by decide) hshrink)).next
    (SbrkStep.call (by decide) (by decide) hgrow)
  have hgrown : (0 : ℤ) < 1 ∧ 0x3FFFFF ≠ sbrkFailed := by decide
  refine ⟨_, _, run, rfl, _, List.mem_cons_self, hgrown, fun hgrants => ?_⟩
  have hunmapped : ¬ UserWritable sampleHeap.vm.mem 0x2000 0x3FFFFF := by decide +kernel
  exact hunmapped (hgrants.mapped 0 (by decide)).2

end Runs

end Heap

end OpenIDP.Memory
