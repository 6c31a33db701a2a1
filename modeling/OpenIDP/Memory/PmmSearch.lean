import OpenIDP.Memory.PmmRuns

/-!
# The searches for free pages

`pmm_alloc_page` goes around the ring of pages from the place where the last search ended, and
`pmm_alloc_pages` scans for the first run that is long enough. Both find what they look for when it
is there, also when `used_pages + count` wraps.

## Main definitions

* `Pmm.SearchLoop` — the loop of `pmm_alloc_page`, as it runs
* `Pmm.FirstClearFrom` — the free page that comes first, going around
* `Pmm.ClearRun` — a run of free pages

## Main results

* `Pmm.pmmAllocPage_firstClear` — the search around the ring is complete
* `Pmm.pmmAllocPages_firstFit` — the scan for a run is exact first fit
-/

namespace OpenIDP.Memory

open OpenIDP.Math

namespace Pmm

variable {p : Pmm} {page startPage count : ℕ}

/-- The `do … while` loop of `pmm_alloc_page` from a position on, with the page it stops at and
the position it leaves: one rule for each way in which a round can end. -/
inductive SearchLoop (p : Pmm) (startPos : ℕ) : ℕ → Option ℕ × ℕ → Prop
  | found {pos : ℕ} : p.bitmapTest pos = false → SearchLoop p startPos pos (some pos, pos)
  | back {pos : ℕ} : p.bitmapTest pos = true → (pos + 1) % p.totalPages = startPos →
      SearchLoop p startPos pos (none, startPos)
  | next {pos : ℕ} {result : Option ℕ × ℕ} : p.bitmapTest pos = true →
      (pos + 1) % p.totalPages ≠ startPos →
      SearchLoop p startPos ((pos + 1) % p.totalPages) result → SearchLoop p startPos pos result

/-- `page` is clear, and all pages from `pos` up to it are used, going around. -/
def FirstClearFrom (p : Pmm) (pos page : ℕ) : Prop :=
  p.bitmapTest page = false ∧ ∃ d < p.totalPages, page = (pos + d) % p.totalPages ∧
    ∀ e < d, p.bitmapTest ((pos + e) % p.totalPages) = true

/-- All `count` pages from `startPage` on are clear. -/
def ClearRun (p : Pmm) (startPage count : ℕ) : Prop :=
  ∀ j, startPage ≤ j → j < startPage + count → p.bitmapTest j = false

/-! ### Around the ring -/

/-- Going around, the start comes back after a whole turn and not before. -/
theorem ring_eq_start_iff {start k n : ℕ} (hstart : start < n) (hk : k < n) :
    (start + k + 1) % n = start ↔ k + 1 = n := by
  constructor
  · intro hback
    by_contra hne
    rcases Nat.lt_or_ge (start + k + 1) n with hlt | hge
    · rw [Nat.mod_eq_of_lt hlt] at hback
      omega
    · rw [Nat.mod_eq_sub_mod hge, Nat.mod_eq_of_lt (by omega)] at hback
      omega
  · intro hturn
    rw [Nat.add_assoc, hturn, Nat.add_mod_right, Nat.mod_eq_of_lt hstart]

/-- After `k` rounds, the loop has seen `k` used pages, and `rounds` are left. -/
theorem searchFrom_loop {startPos k rounds : ℕ} (hstart : startPos < p.totalPages)
    (hk : k < p.totalPages) (hrounds : k + rounds = p.totalPages)
    (hseen : ∀ e < k, p.bitmapTest ((startPos + e) % p.totalPages) = true) :
    let result := p.searchFrom startPos rounds ((startPos + k) % p.totalPages)
    SearchLoop p startPos ((startPos + k) % p.totalPages) result ∧
      result.2 < p.totalPages ∧
      (∀ page, result.1 = some page → result.2 = page ∧ p.FirstClearFrom startPos page) ∧
      (result.1 = none →
        ∀ e < p.totalPages, p.bitmapTest ((startPos + e) % p.totalPages) = true) := by
  induction rounds generalizing k with
  | zero => omega
  | succ rounds ih =>
    have hlt : (startPos + k) % p.totalPages < p.totalPages := Nat.mod_lt _ (by omega)
    have hnext : ((startPos + k) % p.totalPages + 1) % p.totalPages =
        (startPos + k + 1) % p.totalPages := Nat.mod_add_mod _ _ _
    rw [searchFrom]
    cases hbit : p.bitmapTest ((startPos + k) % p.totalPages) with
    | false =>
      rw [Bool.not_false, if_pos rfl]
      refine ⟨.found hbit, hlt, fun page hpage => ?_,
        fun hnone => absurd hnone (Option.some_ne_none _)⟩
      obtain rfl := Option.some_inj.mp hpage
      exact ⟨rfl, hbit, k, hk, rfl, hseen⟩
    | true =>
      rw [Bool.not_true, if_neg Bool.false_ne_true]
      simp only [hnext]
      have hseen' : ∀ e < k + 1, p.bitmapTest ((startPos + e) % p.totalPages) = true := by
        intro e he
        rcases Nat.lt_succ_iff_lt_or_eq.mp he with hlt | rfl
        · exact hseen e hlt
        · exact hbit
      by_cases hback : (startPos + k + 1) % p.totalPages = startPos
      · -- the turn is complete
        have hturn := (ring_eq_start_iff hstart hk).mp hback
        rw [if_pos hback, hback]
        refine ⟨.back hbit (hnext.trans hback), hstart,
          fun page hpage => absurd hpage.symm (Option.some_ne_none page), fun _ e he => ?_⟩
        exact hseen' e (hturn ▸ he)
      · have hturn : k + 1 ≠ p.totalPages := fun hturn =>
          hback ((ring_eq_start_iff hstart hk).mpr hturn)
        rw [if_neg hback]
        obtain ⟨hloop, hrest⟩ := ih (k := k + 1) (by omega) (by omega) hseen'
        refine ⟨.next hbit (hnext.trans_ne hback) ?_, hrest⟩
        rw [hnext]
        exact hloop

/-- Every page is on the ring. -/
theorem exists_ring {start n : ℕ} (hstart : start < n) (hpage : page < n) :
    ∃ e < n, (start + e) % n = page := by
  rcases Nat.lt_or_ge page start with hlt | hge
  · refine ⟨n - start + page, by omega, ?_⟩
    have hsum : start + (n - start + page) = page + n := by omega
    rw [hsum, Nat.add_mod_right, Nat.mod_eq_of_lt hpage]
  · refine ⟨page - start, by omega, ?_⟩
    rw [Nat.add_sub_cancel' hge, Nat.mod_eq_of_lt hpage]

/-- The counter says whether a page is clear. -/
theorem usedBits_eq_totalPages_iff :
    p.usedBits = p.totalPages ↔ ∀ page < p.totalPages, p.bitmapTest page = true := by
  rw [usedBits, Nat.count_eq_card_filter_range]
  constructor
  · intro hcard page hpage
    have hall := Finset.filter_card_eq (hcard.trans (Finset.card_range _).symm)
    exact hall page (Finset.mem_range.mpr hpage)
  · intro hall
    rw [Finset.filter_true_of_mem fun page hpage => hall page (Finset.mem_range.mp hpage),
      Finset.card_range]

/-- `pmm_alloc_page` comes to an end, fails just when every page is used, and otherwise takes the
first clear page from `last_search_pos` on. -/
theorem pmmAllocPage_firstClear (hpos : 0 < p.totalPages) (htotal : p.totalPages < 2 ^ 64)
    (hlast : p.lastSearchPos < p.totalPages) (hused : p.usedPages = p.usedBits) :
    SearchLoop p p.lastSearchPos p.lastSearchPos
        (p.searchFrom p.lastSearchPos p.totalPages p.lastSearchPos) ∧
      (p.pmmAllocPage.1 = none ↔ ∀ page < p.totalPages, p.bitmapTest page = true) ∧
      p.pmmAllocPage.2.lastSearchPos < p.totalPages ∧
      ∀ addr, p.pmmAllocPage.1 = some addr → ∃ page < p.totalPages, addr = p.pageAddr page ∧
        p.FirstClearFrom p.lastSearchPos page ∧
        (∀ j, p.pmmAllocPage.2.bitmapTest j = (decide (j = page) || p.bitmapTest j)) ∧
        p.pmmAllocPage.2 = { p with
          bitmap := p.pmmAllocPage.2.bitmap
          usedPages := p.usedPages + 1
          lastSearchPos := page } := by
  have hzero : (p.lastSearchPos + 0) % p.totalPages = p.lastSearchPos := Nat.mod_eq_of_lt hlast
  have hsearch := searchFrom_loop hlast hpos (Nat.zero_add _) fun e he => absurd he e.not_lt_zero
  simp only [hzero] at hsearch
  obtain ⟨hloop, hsearchLt, hsome, hnone⟩ := hsearch
  have hall : p.usedPages = p.totalPages ↔ ∀ page < p.totalPages, p.bitmapTest page = true := by
    rw [hused]
    exact usedBits_eq_totalPages_iff
  have hle : p.usedPages ≤ p.totalPages := hused ▸ p.usedBits_le
  refine ⟨hloop, ?_⟩
  rw [pmmAllocPage, allocPage]
  split_ifs with hfull
  · exact ⟨⟨fun _ => hall.mp (by omega), fun _ => rfl⟩, hlast, nofun⟩
  · cases hresult : p.searchFrom p.lastSearchPos p.totalPages p.lastSearchPos with
    | mk found pos =>
      rw [hresult] at hsearchLt hsome hnone
      cases found with
      | none =>
        -- the counter says that there is a clear page, and the search has seen every page
        refine absurd (hall.mpr fun page hpage => ?_) (by omega)
        obtain ⟨e, he, rfl⟩ := exists_ring hlast hpage
        exact hnone rfl e he
      | some page =>
        obtain ⟨hpage, hfirst⟩ := hsome page rfl
        obtain rfl : pos = page := hpage
        refine ⟨⟨nofun, fun hused => ?_⟩, hsearchLt, fun addr haddr => ?_⟩
        · exact absurd (hall.mpr hused) (by omega)
        · refine ⟨_, hsearchLt, (Option.some_inj.mp haddr).symm, hfirst,
            bitmapTest_bitmapSet _, ?_⟩
          rw [wrap_of_lt (by omega)]
          rfl

/-- The first three pages are used, and the fourth is taken. -/
theorem pmmAllocPage_firstClear_samplePmm :
    samplePmm.pmmAllocPage.1 = some 0xFFFF800000003000 ∧
      ∃ page < 8, samplePmm.pageAddr page = 0xFFFF800000003000 ∧
        samplePmm.FirstClearFrom 0 page := by
  have haddr : samplePmm.pmmAllocPage.1 = some 0xFFFF800000003000 := by decide
  obtain ⟨-, -, -, hsome⟩ := pmmAllocPage_firstClear (p := samplePmm) (by decide) (by decide)
    (by decide) (by decide)
  obtain ⟨page, hpage, heq, hfirst, -⟩ := hsome _ haddr
  exact ⟨haddr, page, hpage, heq.symm, hfirst⟩

/-! ### Runs -/

/-- The scan with `consecutive` clear pages behind it, too few for a run: no run starts before
these pages, nor before the run that is found. -/
theorem scanRun_least {ahead i consecutive first : ℕ} (hless : consecutive < count)
    (hfirst : consecutive ≠ 0 → first + consecutive = i) (hle : consecutive ≤ i)
    (hblocked : ∀ t < i - consecutive, ¬ p.ClearRun t count) :
    (∀ s, p.scanRun count ahead i consecutive first = some s → ∀ t < s, ¬ p.ClearRun t count) ∧
      (p.scanRun count ahead i consecutive first = none →
        ∀ t, t + count ≤ i + ahead → ¬ p.ClearRun t count) := by
  induction ahead generalizing i consecutive first with
  | zero =>
    refine ⟨fun s hs => absurd hs.symm (Option.some_ne_none s), fun _ t ht => hblocked t ?_⟩
    omega
  | succ ahead ih =>
    have hnum : i + 1 + ahead = i + (ahead + 1) := by omega
    cases hbit : p.bitmapTest i with
    | true =>
      simp only [scanRun, hbit, Bool.not_true, Bool.false_eq_true, if_false]
      rw [← hnum]
      apply ih (Nat.zero_lt_of_lt hless) (fun h => absurd rfl h) (Nat.zero_le _)
      intro t ht hrun
      -- a run that starts among the clear pages has the used page in it
      by_cases hbefore : t < i - consecutive
      · exact hblocked t hbefore hrun
      · exact Bool.false_ne_true ((hrun i (by omega) (by omega)).symm.trans hbit)
    | false =>
      simp only [scanRun, hbit, Bool.not_false, if_true]
      obtain ⟨first', hdef⟩ : ∃ first', first' = if consecutive = 0 then i else first :=
        ⟨_, rfl⟩
      rw [← hdef]
      have hlast : first' + consecutive = i := by
        rw [hdef]
        split_ifs with hzero
        · omega
        · exact hfirst hzero
      split_ifs with hdone
      · refine ⟨fun s hs => ?_, False.elim⟩
        obtain rfl := Option.some_inj.mp hs
        exact fun t ht => hblocked t (by omega)
      · rw [← hnum]
        apply ih (by omega) (fun _ => by omega) (by omega)
        exact fun t ht => hblocked t (by omega)

/-- A run of clear pages fits behind the counter. -/
theorem ClearRun.add_le (hrun : p.ClearRun startPage count)
    (hlt : startPage + count ≤ p.totalPages) : p.usedBits + count ≤ p.totalPages := by
  have htotal : (p.setRun startPage count).totalPages = p.totalPages := by rw [setRun_eq]
  rw [← usedBits_setRun hlt hrun, ← htotal]
  exact usedBits_le _

/-- `pmm_alloc_pages` fails just when nothing is asked for or there is no run that long, and
otherwise takes the lowest run. -/
theorem pmmAllocPages_firstFit (htotal : p.totalPages < 2 ^ 64) (hused : p.usedPages = p.usedBits)
    (hcount : count < 2 ^ 64) :
    ((p.pmmAllocPages count).1 = none ↔
        count = 0 ∨ ¬∃ s, s + count ≤ p.totalPages ∧ p.ClearRun s count) ∧
      ∀ addr, (p.pmmAllocPages count).1 = some addr → ∃ s, addr = p.pageAddr s ∧
        s + count ≤ p.totalPages ∧ p.ClearRun s count ∧ (∀ t < s, ¬ p.ClearRun t count) ∧
        (∀ j, (p.pmmAllocPages count).2.bitmapTest j =
          (decide (s ≤ j ∧ j < s + count) || p.bitmapTest j)) ∧
        (p.pmmAllocPages count).2 = { p with
          bitmap := (p.pmmAllocPages count).2.bitmap
          usedPages := p.usedPages + count } := by
  have hle : p.usedPages ≤ p.totalPages := hused ▸ p.usedBits_le
  rw [pmmAllocPages, allocPages]
  split_ifs with hrefuse
  · refine ⟨⟨fun _ => ?_, fun _ => rfl⟩, nofun⟩
    refine hrefuse.imp_right fun hmany ⟨s, hs, hrun⟩ => ?_
    have hfit := hrun.add_le hs
    rw [← hused] at hfit
    rw [wrap_of_lt (by omega)] at hmany
    omega
  · rw [not_or] at hrefuse
    obtain ⟨hcount₀, hfew⟩ := hrefuse
    have hleast := @scanRun_least p count p.totalPages 0 0 0 (by omega) (fun h => absurd rfl h)
      (Nat.le_refl 0) fun t ht => absurd ht t.not_lt_zero
    cases hscan : p.scanRun count p.totalPages 0 0 0 with
    | none =>
      refine ⟨⟨fun _ => Or.inr ?_, fun _ => rfl⟩, nofun⟩
      rintro ⟨s, hs, hrun⟩
      exact hleast.2 hscan s (by omega) hrun
    | some s =>
      obtain ⟨hend, hrun⟩ := scanRun_some (by simp) (by omega) hscan
      have hend' : s + count ≤ p.totalPages := by omega
      have hfit := ClearRun.add_le hrun hend'
      rw [← hused] at hfit
      refine ⟨⟨nofun, fun h => ?_⟩, fun addr haddr => ?_⟩
      · exact absurd ⟨s, hend', hrun⟩ (h.resolve_left hcount₀)
      · refine ⟨s, (Option.some_inj.mp haddr).symm, hend', hrun, hleast.1 s hscan,
          bitmapTest_setRun, ?_⟩
        rw [wrap_of_lt (by omega)]
        simp only
        rw [setRun_eq]

/-- Three pages in a row are to be had behind the first three. -/
theorem pmmAllocPages_firstFit_samplePmm :
    (samplePmm.pmmAllocPages 3).1 = some 0xFFFF800000003000 ∧
      ∃ s, samplePmm.pageAddr s = 0xFFFF800000003000 ∧ samplePmm.ClearRun s 3 ∧
        ∀ t < s, ¬ samplePmm.ClearRun t 3 := by
  have haddr : (samplePmm.pmmAllocPages 3).1 = some 0xFFFF800000003000 := by decide
  obtain ⟨-, hsome⟩ := @pmmAllocPages_firstFit samplePmm 3 (by decide) (by decide) (by decide)
  obtain ⟨s, heq, -, hrun, hleast, -⟩ := hsome _ haddr
  exact ⟨haddr, s, heq.symm, hrun, hleast⟩

end Pmm

end OpenIDP.Memory
