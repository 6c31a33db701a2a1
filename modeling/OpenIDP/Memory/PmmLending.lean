import OpenIDP.Memory.PmmRuns

/-!
# Lending pages

Clients of the allocator hold the pages they were given and free only those. Which
pages `pmm_alloc_page` can ever hand out is a question about all such runs.

## Main definitions

* `Lending`, `LendStep` — the allocator with the pages its clients hold
* `Pmm.CanHandOut` — some run ends with `pmm_alloc_page` returning the page

## Main results

* `Pmm.CanHandOut.clear` — only pages that are free at the start are handed out
* `Pmm.Consistent.canHandOut_iff` — with the counter right, all of them are
* `Pmm.Consistent.searchFrom_isSome_iff` — with the counter right, the check at the top of
  `pmm_alloc_page` and the search below it agree
-/

namespace OpenIDP.Memory

open OpenIDP.Math

/-- The allocator and the pages its clients hold. -/
structure Lending where
  pmm : Pmm
  held : Set ℕ

/-- What passes between the allocator and its clients. -/
inductive Exchange
  | alloc (page : Option ℕ)
  | free (page : ℕ)

/-- One call of `pmm_alloc_page`, or of `pmm_free_page` on a page that is held. -/
inductive LendStep : Lending → Exchange → Lending → Prop
  | alloc {p p' : Pmm} {page : ℕ} (held : Set ℕ) (h : p.allocPage = (some page, p')) :
      LendStep ⟨p, held⟩ (.alloc (some page)) ⟨p', insert page held⟩
  | fail {p p' : Pmm} (held : Set ℕ) (h : p.allocPage = (none, p')) :
      LendStep ⟨p, held⟩ (.alloc none) ⟨p', held⟩
  | free {p : Pmm} {held : Set ℕ} {page : ℕ} (h : page ∈ held) :
      LendStep ⟨p, held⟩ (.free page) ⟨p.freePage page, held \ {page}⟩

namespace Pmm

variable {p p' : Pmm} {page : ℕ}

/-- Some run of allocations and frees, from clients that hold nothing, ends with
`pmm_alloc_page` returning `page`. -/
def CanHandOut (p : Pmm) (page : ℕ) : Prop :=
  ∃ history l p', Reaches LendStep ⟨p, ∅⟩ history l ∧ l.pmm.allocPage = (some page, p')

/-! ### The search -/

/-- Going round one page at a time comes back to the start after all pages only. -/
private theorem all_round {start k n : ℕ} (hstart : start < n) (hk : k < n)
    (hback : ((start + k) % n + 1) % n = start) : k + 1 = n := by
  rw [Nat.mod_add_mod] at hback
  rcases Nat.lt_or_ge (start + k + 1) n with hlt | hge
  · rw [Nat.mod_eq_of_lt hlt] at hback
    omega
  · rw [Nat.mod_eq_sub_mod hge, Nat.mod_eq_of_lt (by omega)] at hback
    omega

/-- A search that has come `k` pages from its start and fails has found set bits all
the way round. -/
theorem searchFrom_none {start rounds k : ℕ} (hrounds : k + rounds = p.totalPages)
    (h : (p.searchFrom start rounds ((start + k) % p.totalPages)).1 = none)
    (hstart : start < p.totalPages) (j : ℕ) (hkj : k ≤ j) (hj : j < p.totalPages) :
    p.bitmapTest ((start + j) % p.totalPages) = true := by
  induction rounds generalizing k with
  | zero => omega
  | succ rounds ih =>
    simp only [searchFrom] at h
    split_ifs at h with hclear hback
    · have hlast := all_round hstart (by omega) hback
      rw [show j = k by omega]
      simpa using hclear
    · rcases Nat.eq_or_lt_of_le hkj with rfl | hlt
      · simpa using hclear
      · rw [Nat.mod_add_mod, Nat.add_assoc] at h
        exact ih (by omega) h hlt

/-- The search finds a page whenever one is free. -/
theorem searchFrom_isSome {i : ℕ} (hi : i < p.totalPages) (hclear : p.bitmapTest i = false)
    (hlast : p.lastSearchPos < p.totalPages) :
    ((p.searchFrom p.lastSearchPos p.totalPages p.lastSearchPos).1).isSome := by
  by_contra hnone
  rw [Option.not_isSome_iff_eq_none] at hnone
  have hpos : 0 < p.totalPages := by omega
  have hset := searchFrom_none (k := 0) (Nat.zero_add p.totalPages)
    (by rw [Nat.add_zero, Nat.mod_eq_of_lt hlast]; exact hnone) hlast
    ((i + (p.totalPages - p.lastSearchPos)) % p.totalPages) (Nat.zero_le _)
    (Nat.mod_lt _ hpos)
  rw [Nat.add_mod_mod, show p.lastSearchPos + (i + (p.totalPages - p.lastSearchPos)) =
    i + p.totalPages by omega, Nat.add_mod_right, Nat.mod_eq_of_lt hi, hclear] at hset
  exact Bool.noConfusion hset

/-- With the counter right, the check at the top of `pmm_alloc_page` passes exactly when
the search below it finds a page. -/
theorem Consistent.searchFrom_isSome_iff (hp : p.Consistent) :
    (p.searchFrom p.lastSearchPos p.totalPages p.lastSearchPos).1.isSome ↔
      p.usedPages < p.totalPages := by
  rw [hp.usedPages_eq, usedBits, count_lt_iff]
  constructor
  · intro hfound
    obtain ⟨page, hpage⟩ := Option.isSome_iff_exists.mp hfound
    have hpos : 0 < p.totalPages := by
      by_contra hzero
      rw [show p.totalPages = 0 by omega] at hpage
      simp [searchFrom] at hpage
    have hlast : (p.searchFrom p.lastSearchPos p.totalPages p.lastSearchPos).2 <
        p.totalPages := searchFrom_lt (hp.lastSearchPos_lt hpos)
    obtain ⟨hclear, heq⟩ := searchFrom_some (Prod.ext hpage rfl)
    exact ⟨page, heq ▸ hlast, by simp [hclear]⟩
  · rintro ⟨i, hi, hclear⟩
    exact searchFrom_isSome hi (by simpa using hclear) (hp.lastSearchPos_lt (by omega))

/-- With the counter right, `pmm_alloc_page` succeeds whenever a page is free. -/
theorem Consistent.allocPage_of_clear (hp : p.Consistent) {i : ℕ} (hi : i < p.totalPages)
    (hclear : p.bitmapTest i = false) :
    ∃ page, p.allocPage = (some page, p.allocPage.2) := by
  have hfree : p.usedPages < p.totalPages := by
    rw [hp.usedPages_eq]
    exact count_lt_iff.mpr ⟨i, hi, by simp [hclear]⟩
  have hfound := hp.searchFrom_isSome_iff.mpr hfree
  rw [Pmm.allocPage, if_neg (by omega)]
  split
  · exact ⟨_, rfl⟩
  · next pos hsearch =>
    rw [hsearch] at hfound
    exact Bool.noConfusion hfound

/-! ### Which pages are handed out -/

/-- What a client holds, and what is free during a run, was free at its start. -/
structure WithinFree (p : Pmm) (l : Lending) : Prop where
  totalPages_eq : l.pmm.totalPages = p.totalPages
  lastSearchPos_lt : 0 < p.totalPages → l.pmm.lastSearchPos < p.totalPages
  clear : ∀ i, l.pmm.bitmapTest i = false → p.bitmapTest i = false
  held : ∀ i ∈ l.held, p.bitmapTest i = false

theorem WithinFree.step {l l' : Lending} {event : Exchange} (hl : WithinFree p l)
    (h : LendStep l event l') : WithinFree p l' := by
  obtain ⟨htotal, hlast, hclear, hheld⟩ := hl
  cases h with
  | @alloc q q' page held h =>
    obtain ⟨-, hpage, hq'⟩ := allocPage_some h
    refine ⟨(allocPage_totalPages h).trans htotal, fun h0 => ?_, fun i hi => ?_, ?_⟩
    · exact htotal ▸ allocPage_lastSearchPos_lt (htotal.symm ▸ hlast h0) h
    · refine hclear i ?_
      rw [bitmapTest, hq', Bytes.testBit_setBit] at hi
      exact (Bool.or_eq_false_iff.mp hi).2
    · rintro i (rfl | hi)
      · exact hclear _ hpage
      · exact hheld i hi
  | @fail q q' held h =>
    refine ⟨(allocPage_totalPages h).trans htotal, fun h0 => ?_, fun i hi => ?_, hheld⟩
    · exact htotal ▸ allocPage_lastSearchPos_lt (htotal.symm ▸ hlast h0) h
    · obtain ⟨pos, rfl⟩ := allocPage_none h
      exact hclear i hi
  | @free q held page h =>
    refine ⟨by simpa using htotal, by simpa using hlast, fun i hi => ?_,
      fun i hi => hheld i hi.1⟩
    rw [bitmapTest_freePage] at hi
    rcases Bool.and_eq_false_iff.mp hi with hpage | hbit
    · rw [show i = page by simpa using hpage]
      exact hheld page h
    · exact hclear i hbit

/-- Only pages below `total_pages` that were free at the start are handed out. -/
theorem CanHandOut.clear (hlast : 0 < p.totalPages → p.lastSearchPos < p.totalPages)
    (h : p.CanHandOut page) : page < p.totalPages ∧ p.bitmapTest page = false := by
  obtain ⟨history, l, p', run, halloc⟩ := h
  have hl : WithinFree p l := run.invariant_state
    ⟨rfl, hlast, fun _ h => h, fun _ h => absurd h (Set.notMem_empty _)⟩
    fun _ _ _ hl hstep => hl.step hstep
  have hlt := allocPage_lt (hl.totalPages_eq ▸ hl.lastSearchPos_lt) halloc
  exact ⟨hl.totalPages_eq ▸ hlt, hl.clear page (allocPage_some halloc).2.1⟩

/-- Allocating again and again reaches every free page, by induction on how many
pages are free. -/
theorem Consistent.reaches_page (hp : p.Consistent) (hpage : page < p.totalPages)
    (hclear : p.bitmapTest page = false) (held : Set ℕ) :
    ∃ history l p', Reaches LendStep ⟨p, held⟩ history l ∧
      l.pmm.allocPage = (some page, p') := by
  obtain ⟨free, hfree⟩ : ∃ free, p.totalPages - p.usedPages = free := ⟨_, rfl⟩
  induction free generalizing p held with
  | zero =>
    have hlt : p.usedPages < p.totalPages := by
      rw [hp.usedPages_eq]
      exact count_lt_iff.mpr ⟨page, hpage, by simp [hclear]⟩
    omega
  | succ free ih =>
    obtain ⟨first, halloc⟩ := hp.allocPage_of_clear hpage hclear
    by_cases hne : page = first
    · exact ⟨[], ⟨p, held⟩, _, .start, hne ▸ halloc⟩
    · obtain ⟨hused, -, hp'⟩ := allocPage_some halloc
      have htotal := allocPage_totalPages halloc
      have hbit : (p.allocPage.2).bitmapTest page = false := by
        rw [bitmapTest, hp', Bytes.testBit_setBit, decide_eq_false hne, Bool.false_or]
        exact hclear
      have hcount : (p.allocPage.2).usedPages = p.usedPages + 1 := by
        rw [hp']
        have hle := hp.totalPages_le
        exact wrap_of_lt (by omega)
      obtain ⟨history, l, p', run, hlast⟩ := ih (hp.allocPage halloc) (htotal ▸ hpage) hbit
        (insert first held) (by omega)
      exact ⟨_, l, p', (Reaches.start.snoc (.alloc held halloc)).trans run, hlast⟩

/-- With the counter right, the pages handed out are those free at the start. -/
theorem Consistent.canHandOut_iff (hp : p.Consistent) :
    p.CanHandOut page ↔ page < p.totalPages ∧ p.bitmapTest page = false :=
  ⟨CanHandOut.clear hp.lastSearchPos_lt,
    fun ⟨hpage, hclear⟩ => hp.reaches_page hpage hclear ∅⟩

/-- Clients that free only what they hold keep the counter right. -/
theorem Consistent.lend {history : List Exchange} {l : Lending} (hp : p.Consistent)
    (run : Reaches LendStep ⟨p, ∅⟩ history l) : l.pmm.Consistent := by
  have hinv : l.pmm.Consistent ∧ ∀ i ∈ l.held, i < l.pmm.totalPages := by
    refine run.invariant_state (I := fun l =>
      l.pmm.Consistent ∧ ∀ i ∈ l.held, i < l.pmm.totalPages)
      ⟨hp, fun _ h => absurd h (Set.notMem_empty _)⟩ ?_
    rintro _ _ _ ⟨hcons, hheld⟩ hstep
    cases hstep with
    | @alloc q q' page held h =>
      refine ⟨hcons.allocPage h, ?_⟩
      rintro i (rfl | hi)
      · exact (allocPage_totalPages h).symm ▸ hcons.allocPage_lt h
      · exact (allocPage_totalPages h).symm ▸ hheld i hi
    | @fail q q' held h =>
      exact ⟨hcons.allocPage h, fun i hi => (allocPage_totalPages h).symm ▸ hheld i hi⟩
    | @free q held page h =>
      exact ⟨hcons.freePage (hheld page h), fun i hi => by simpa using hheld i hi.1⟩
  exact hinv.1

end Pmm

end OpenIDP.Memory
