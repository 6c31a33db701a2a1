import OpenIDP.Math.Count
import OpenIDP.Math.Reaches
import OpenIDP.Memory.Pmm

/-!
# The page allocator over whole runs

The bitmap and the counter `used_pages` are two records of the same thing. Each
operation of the allocator changes them in step, whatever is asked of it: a request
that cannot be served, a count that makes `used_pages + count` wrap, a page that is
already free.

## Main definitions

* `Pmm.usedBits` — the number of set bits below `total_pages`
* `Pmm.Consistent` — counter and bitmap agree, and the search position is a page
* `PmmCall`, `PmmStep` — the four operations as labelled steps

## Main results

* `allocPage_some`, `allocPages_some` — what a successful allocation did
* `PmmStep.consistent` — every call keeps the two records in agreement
* `pmm_runs_consistent` — the account of whole runs
-/

namespace OpenIDP.Memory

open OpenIDP.Math

namespace Pmm

variable {p p' : Pmm} {page startPage count : ℕ}

/-- The number of pages below `total_pages` whose bit is set. -/
def usedBits (p : Pmm) : ℕ := Nat.count (fun i => p.bitmapTest i = true) p.totalPages

/-- Counter and bitmap agree. The two remaining bounds are those of the machine:
page numbers belong to 64-bit physical addresses, and `last_search_pos` is either its
initial zero or a remainder modulo `total_pages`. -/
structure Consistent (p : Pmm) : Prop where
  usedPages_eq : p.usedPages = p.usedBits
  totalPages_le : p.totalPages ≤ 2 ^ 52
  hhdm_lt : p.hhdm < 2 ^ 64
  lastSearchPos_lt : 0 < p.totalPages → p.lastSearchPos < p.totalPages

theorem usedBits_le (p : Pmm) : p.usedBits ≤ p.totalPages := Nat.count_le _

theorem Consistent.usedPages_le (hp : p.Consistent) : p.usedPages ≤ p.totalPages :=
  hp.usedPages_eq ▸ p.usedBits_le

theorem Consistent.usedPages_lt (hp : p.Consistent) : p.usedPages < 2 ^ 64 :=
  lt_of_le_of_lt (hp.usedPages_le.trans hp.totalPages_le) (by decide)

/-! ### Single bits -/

@[simp] theorem bitmapTest_bitmapSet (bit j : ℕ) :
    (p.bitmapSet bit).bitmapTest j = (decide (j = bit) || p.bitmapTest j) :=
  Bytes.testBit_setBit

@[simp] theorem bitmapTest_bitmapClear (bit j : ℕ) :
    (p.bitmapClear bit).bitmapTest j = (!decide (j = bit) && p.bitmapTest j) :=
  Bytes.testBit_clearBit

theorem usedBits_bitmapSet (hpage : page < p.totalPages) (hclear : p.bitmapTest page = false) :
    (p.bitmapSet page).usedBits = p.usedBits + 1 := by
  refine count_insert hpage (by simp [hclear]) fun j => ?_
  simp

theorem usedBits_bitmapClear (hpage : page < p.totalPages) (hset : p.bitmapTest page = true) :
    (p.bitmapClear page).usedBits + 1 = p.usedBits := by
  refine (count_insert hpage (by simp) fun j => ?_).symm
  by_cases hj : j = page <;> simp [hj, hset]

/-- The number of set bits depends on the bitmap and `total_pages` only. -/
theorem usedBits_congr {q : Pmm} (hbitmap : q.bitmap = p.bitmap)
    (htotal : q.totalPages = p.totalPages) : q.usedBits = p.usedBits := by
  unfold usedBits
  rw [htotal]
  exact count_congr fun j _ => by rw [bitmapTest, bitmapTest, hbitmap]

/-! ### Allocating one page -/

theorem searchFrom_lt {startPos rounds pos : ℕ} (hpos : pos < p.totalPages) :
    (p.searchFrom startPos rounds pos).2 < p.totalPages := by
  induction rounds generalizing pos with
  | zero => exact hpos
  | succ rounds ih =>
    have hnext : (pos + 1) % p.totalPages < p.totalPages :=
      Nat.mod_lt _ (Nat.lt_of_le_of_lt (Nat.zero_le _) hpos)
    simp only [searchFrom]
    split_ifs with hclear hback
    · exact hpos
    · exact hnext
    · exact ih hnext

/-- A page the search stops at is clear, and is where `last_search_pos` stays. -/
theorem searchFrom_some {startPos rounds pos last : ℕ}
    (h : p.searchFrom startPos rounds pos = (some page, last)) :
    p.bitmapTest page = false ∧ last = page := by
  induction rounds generalizing pos with
  | zero => simp [searchFrom] at h
  | succ rounds ih =>
    simp only [searchFrom] at h
    split_ifs at h with hclear hback
    · obtain ⟨hpage, rfl⟩ := Prod.mk.inj h
      obtain rfl := Option.some_inj.mp hpage
      exact ⟨by simpa using hclear, rfl⟩
    · simp at h
    · exact ih h

/-- What a successful `pmm_alloc_page` did. -/
theorem allocPage_some (h : p.allocPage = (some page, p')) :
    p.usedPages < p.totalPages ∧ p.bitmapTest page = false ∧
      p' = { p with
        bitmap := p.bitmap.setBit page
        usedPages := wrap (p.usedPages + 1)
        lastSearchPos := page } := by
  unfold allocPage at h
  split_ifs at h with hfull
  · simp at h
  · split at h
    · next q pos hsearch =>
      obtain ⟨hclear, rfl⟩ := searchFrom_some hsearch
      obtain ⟨hpage, rfl⟩ := Prod.mk.inj h
      obtain rfl := Option.some_inj.mp hpage
      exact ⟨by omega, hclear, rfl⟩
    · simp at h

/-- A failed `pmm_alloc_page` moves the search position at most. -/
theorem allocPage_none (h : p.allocPage = (none, p')) :
    ∃ pos, p' = { p with lastSearchPos := pos } := by
  unfold allocPage at h
  split_ifs at h with hfull
  · exact ⟨p.lastSearchPos, (Prod.mk.inj h).2.symm⟩
  · split at h
    · simp at h
    · exact ⟨_, (Prod.mk.inj h).2.symm⟩

theorem allocPage_totalPages {found : Option ℕ} (h : p.allocPage = (found, p')) :
    p'.totalPages = p.totalPages := by
  cases found with
  | none => obtain ⟨pos, rfl⟩ := allocPage_none h; rfl
  | some page => obtain ⟨-, -, rfl⟩ := allocPage_some h; rfl

theorem allocPage_hhdm {found : Option ℕ} (h : p.allocPage = (found, p')) :
    p'.hhdm = p.hhdm := by
  cases found with
  | none => obtain ⟨pos, rfl⟩ := allocPage_none h; rfl
  | some page => obtain ⟨-, -, rfl⟩ := allocPage_some h; rfl

theorem allocPage_lastSearchPos_lt {found : Option ℕ}
    (hlast : p.lastSearchPos < p.totalPages) (h : p.allocPage = (found, p')) :
    p'.lastSearchPos < p.totalPages := by
  have hsearch : (p.searchFrom p.lastSearchPos p.totalPages p.lastSearchPos).2 < p.totalPages :=
    searchFrom_lt hlast
  unfold allocPage at h
  split_ifs at h with hfull
  · obtain ⟨-, rfl⟩ := Prod.mk.inj h
    exact hlast
  · split at h
    · next q pos hfound =>
      obtain ⟨-, rfl⟩ := Prod.mk.inj h
      rwa [hfound] at hsearch
    · next pos hfound =>
      obtain ⟨-, rfl⟩ := Prod.mk.inj h
      rwa [hfound] at hsearch

/-- The page of a successful allocation lies below `total_pages`. -/
theorem allocPage_lt (hlast : 0 < p.totalPages → p.lastSearchPos < p.totalPages)
    (h : p.allocPage = (some page, p')) : page < p.totalPages := by
  obtain ⟨hfull, -, hp'⟩ := allocPage_some h
  have hlast' := allocPage_lastSearchPos_lt (hlast (by omega)) h
  rwa [hp'] at hlast'

theorem Consistent.allocPage_lt (hp : p.Consistent) (h : p.allocPage = (some page, p')) :
    page < p.totalPages :=
  Pmm.allocPage_lt hp.lastSearchPos_lt h

theorem Consistent.allocPage {found : Option ℕ} (hp : p.Consistent)
    (h : p.allocPage = (found, p')) : p'.Consistent := by
  have htotal := allocPage_totalPages h
  refine ⟨?_, htotal ▸ hp.totalPages_le, allocPage_hhdm h ▸ hp.hhdm_lt,
    htotal ▸ fun hpos => allocPage_lastSearchPos_lt (hp.lastSearchPos_lt hpos) h⟩
  cases found with
  | none =>
    obtain ⟨pos, rfl⟩ := allocPage_none h
    exact hp.usedPages_eq
  | some page =>
    have hpage := hp.allocPage_lt h
    obtain ⟨-, hclear, hp'⟩ := allocPage_some h
    have hbits : p'.usedBits = (p.bitmapSet page).usedBits :=
      usedBits_congr (by rw [hp']; rfl) htotal
    have hcount := usedBits_bitmapSet hpage hclear
    have hle := p'.usedBits_le
    have hbound := hp.totalPages_le
    have hused : p'.usedPages = wrap (p.usedPages + 1) := by rw [hp']
    rw [hused, hp.usedPages_eq, hbits, hcount, wrap_of_lt (by omega)]

/-! ### Freeing one page -/

theorem freePage_of_clear (hclear : p.bitmapTest page = false) : p.freePage page = p := by
  simp [freePage, hclear]

theorem freePage_of_set (hset : p.bitmapTest page = true) :
    p.freePage page = { p with
      bitmap := p.bitmap.clearBit page
      usedPages := sub64 p.usedPages 1 } := by
  simp [freePage, hset, bitmapClear]

@[simp] theorem bitmapTest_freePage (j : ℕ) :
    (p.freePage page).bitmapTest j = (!decide (j = page) && p.bitmapTest j) := by
  cases hset : p.bitmapTest page with
  | false =>
    rw [freePage_of_clear hset]
    by_cases hj : j = page <;> simp [hj, hset]
  | true =>
    rw [freePage_of_set hset]
    simp [bitmapTest]

@[simp] theorem freePage_totalPages : (p.freePage page).totalPages = p.totalPages := by
  unfold freePage; split_ifs <;> rfl

@[simp] theorem freePage_hhdm : (p.freePage page).hhdm = p.hhdm := by
  unfold freePage; split_ifs <;> rfl

@[simp] theorem freePage_lastSearchPos :
    (p.freePage page).lastSearchPos = p.lastSearchPos := by
  unfold freePage; split_ifs <;> rfl

theorem Consistent.freePage (hp : p.Consistent) (hpage : page < p.totalPages) :
    (p.freePage page).Consistent := by
  refine ⟨?_, by simpa using hp.totalPages_le, by simpa using hp.hhdm_lt,
    by simpa using hp.lastSearchPos_lt⟩
  cases hset : p.bitmapTest page with
  | false =>
    rw [freePage_of_clear hset]
    exact hp.usedPages_eq
  | true =>
    have hcount := usedBits_bitmapClear hpage hset
    have hused := hp.usedPages_eq
    have hbits : (p.freePage page).usedBits = (p.bitmapClear page).usedBits :=
      usedBits_congr (by rw [freePage_of_set hset]; rfl) freePage_totalPages
    have hfree : (p.freePage page).usedPages = sub64 p.usedPages 1 := by
      rw [freePage_of_set hset]
    rw [hfree, hbits, sub64_of_le (by omega) hp.usedPages_lt]
    omega

/-! ### Runs of pages -/

@[simp] theorem bitmapTest_setRun (j : ℕ) :
    (p.setRun startPage count).bitmapTest j =
      (decide (startPage ≤ j ∧ j < startPage + count) || p.bitmapTest j) := by
  induction count with
  | zero =>
    have hempty : ¬ (startPage ≤ j ∧ j < startPage + 0) := by omega
    rw [setRun, decide_eq_false hempty, Bool.false_or]
  | succ count ih =>
    rw [setRun, bitmapTest_bitmapSet, ih, ← Bool.or_assoc, ← Bool.decide_or]
    congr 2
    apply propext
    omega

theorem setRun_eq : p.setRun startPage count =
    { p with bitmap := (p.setRun startPage count).bitmap } := by
  induction count with
  | zero => rfl
  | succ count ih => rw [setRun, bitmapSet, ih]

theorem usedBits_setRun (hlt : startPage + count ≤ p.totalPages)
    (hclear : ∀ j, startPage ≤ j → j < startPage + count → p.bitmapTest j = false) :
    (p.setRun startPage count).usedBits = p.usedBits + count := by
  induction count with
  | zero => rfl
  | succ count ih =>
    have htotal : (p.setRun startPage count).totalPages = p.totalPages := by rw [setRun_eq]
    have hshorter := ih (by omega) fun j h₁ h₂ => hclear j h₁ (by omega)
    have hlast : (p.setRun startPage count).bitmapTest (startPage + count) = false := by
      simp [hclear (startPage + count) (by omega) (by omega)]
    rw [setRun, usedBits_bitmapSet (by omega) hlast, hshorter]
    omega

/-- The run a scan finds is clear and lies inside the scanned pages, given that the
pages counted in `consecutive` are the clear ones just behind the scan. -/
theorem scanRun_some {ahead i consecutive first : ℕ}
    (hfirst : consecutive ≠ 0 → first + consecutive = i)
    (hclear : ∀ j, first ≤ j → j < first + consecutive → p.bitmapTest j = false)
    (h : p.scanRun count ahead i consecutive first = some startPage) :
    startPage + count ≤ i + ahead ∧
      ∀ j, startPage ≤ j → j < startPage + count → p.bitmapTest j = false := by
  induction ahead generalizing i consecutive first with
  | zero => simp [scanRun] at h
  | succ ahead ih =>
    cases hbit : p.bitmapTest i with
    | true =>
      simp only [scanRun, hbit, Bool.not_true, Bool.false_eq_true, if_false] at h
      obtain ⟨hend, hrun⟩ := ih (by simp) (by omega) h
      exact ⟨by omega, hrun⟩
    | false =>
      simp only [scanRun, hbit, Bool.not_false, if_true] at h
      -- the start of the run that page `i` extends or begins
      obtain ⟨first', hdef⟩ : ∃ first', first' = if consecutive = 0 then i else first :=
        ⟨_, rfl⟩
      rw [← hdef] at h
      have hlast : first' + consecutive = i := by
        rw [hdef]
        split_ifs with hzero
        · omega
        · exact hfirst hzero
      have hclear' : ∀ j, first' ≤ j → j < first' + (consecutive + 1) →
          p.bitmapTest j = false := by
        intro j h₁ h₂
        by_cases hj : j = i
        · rw [hj, hbit]
        · have hne : consecutive ≠ 0 := by omega
          rw [if_neg hne] at hdef
          exact hclear j (hdef ▸ h₁) (by omega)
      split_ifs at h with hdone
      · obtain rfl := Option.some_inj.mp h
        exact ⟨by omega, hdone ▸ hclear'⟩
      · obtain ⟨hend, hrun⟩ := ih (fun _ => by omega) hclear' h
        exact ⟨by omega, hrun⟩

/-- What a successful `pmm_alloc_pages` did. -/
theorem allocPages_some (h : p.allocPages count = (some startPage, p')) :
    0 < count ∧ startPage + count ≤ p.totalPages ∧
      (∀ j, startPage ≤ j → j < startPage + count → p.bitmapTest j = false) ∧
      p' = { p with
        bitmap := (p.setRun startPage count).bitmap
        usedPages := wrap (p.usedPages + count) } := by
  unfold allocPages at h
  split_ifs at h with hrefuse
  · simp at h
  · split at h
    · next q hscan =>
      obtain ⟨hstart, rfl⟩ := Prod.mk.inj h
      obtain rfl := Option.some_inj.mp hstart
      obtain ⟨hend, hclear⟩ := scanRun_some (by simp) (by omega) hscan
      refine ⟨by omega, by omega, hclear, ?_⟩
      rw [setRun_eq]
    · simp at h

/-- A failed `pmm_alloc_pages` changes nothing. -/
theorem allocPages_none (h : p.allocPages count = (none, p')) : p' = p := by
  unfold allocPages at h
  split_ifs at h with hrefuse
  · exact (Prod.mk.inj h).2.symm
  · split at h
    · simp at h
    · exact (Prod.mk.inj h).2.symm

/-- Also for a count that makes `used_pages + count` wrap: no run that long exists. -/
theorem Consistent.allocPages {found : Option ℕ} (hp : p.Consistent)
    (h : p.allocPages count = (found, p')) : p'.Consistent := by
  cases found with
  | none => exact allocPages_none h ▸ hp
  | some startPage =>
    obtain ⟨-, hend, hclear, hp'⟩ := allocPages_some h
    have htotal : p'.totalPages = p.totalPages := by rw [hp']
    have hhhdm : p'.hhdm = p.hhdm := by rw [hp']
    have hlast : p'.lastSearchPos = p.lastSearchPos := by rw [hp']
    refine ⟨?_, htotal ▸ hp.totalPages_le, hhhdm ▸ hp.hhdm_lt,
      htotal ▸ hlast ▸ hp.lastSearchPos_lt⟩
    have hbits : p'.usedBits = (p.setRun startPage count).usedBits :=
      usedBits_congr (by rw [hp']) (by rw [htotal, setRun_eq])
    have hcount := usedBits_setRun hend hclear
    have hle := p'.usedBits_le
    have hbound := hp.totalPages_le
    have hused : p'.usedPages = wrap (p.usedPages + count) := by rw [hp']
    rw [hused, hp.usedPages_eq, hbits, hcount, wrap_of_lt (by omega)]

theorem freePages_succ :
    p.freePages startPage (count + 1) =
      (p.freePages startPage count).freePage (wrap (startPage + count)) := rfl

@[simp] theorem freePages_totalPages :
    (p.freePages startPage count).totalPages = p.totalPages := by
  induction count with
  | zero => rfl
  | succ count ih => rw [freePages_succ, freePage_totalPages, ih]

@[simp] theorem freePages_hhdm : (p.freePages startPage count).hhdm = p.hhdm := by
  induction count with
  | zero => rfl
  | succ count ih => rw [freePages_succ, freePage_hhdm, ih]

theorem bitmapTest_freePages (hlt : startPage + count ≤ 2 ^ 64) (j : ℕ) :
    (p.freePages startPage count).bitmapTest j =
      (!decide (startPage ≤ j ∧ j < startPage + count) && p.bitmapTest j) := by
  induction count with
  | zero =>
    have hempty : ¬ (startPage ≤ j ∧ j < startPage + 0) := by omega
    rw [freePages, decide_eq_false hempty, Bool.not_false, Bool.true_and]
  | succ count ih =>
    rw [freePages_succ, bitmapTest_freePage, ih (by omega), wrap_of_lt (by omega),
      ← Bool.and_assoc, ← Bool.not_or, ← Bool.decide_or]
    congr 3
    apply propext
    omega

theorem Consistent.freePages (hp : p.Consistent) (hlt : startPage + count ≤ p.totalPages) :
    (p.freePages startPage count).Consistent := by
  have hbound := hp.totalPages_le
  induction count with
  | zero => exact hp
  | succ count ih =>
    rw [freePages_succ, wrap_of_lt (by omega)]
    exact (ih (by omega)).freePage (by rw [freePages_totalPages]; omega)

/-- Freeing a batch of pages that are all free already does nothing. -/
theorem freePages_of_clear (hlt : startPage + count ≤ 2 ^ 64)
    (hclear : ∀ j, startPage ≤ j → j < startPage + count → p.bitmapTest j = false) :
    p.freePages startPage count = p := by
  induction count with
  | zero => rfl
  | succ count ih =>
    rw [freePages_succ, ih (by omega) fun j h₁ h₂ => hclear j h₁ (by omega),
      wrap_of_lt (by omega), freePage_of_clear (hclear _ (by omega) (by omega))]

/-! ### Addresses -/

/-- The address of a page names that page again. -/
theorem Consistent.pageOf_pageAddr (hp : p.Consistent) (hpage : page < p.totalPages) :
    p.pageOf (p.pageAddr page) = page := by
  have hbound := hp.totalPages_le
  rw [pageOf, pageAddr, sub64_wrap_add (by unfold pageSize; omega) hp.hhdm_lt, pageSize]
  omega

theorem pmmAllocPage_eq {result : Option ℕ} (h : p.pmmAllocPage = (result, p')) :
    ∃ found, p.allocPage = (found, p') ∧ result = found.map p.pageAddr := by
  obtain ⟨hresult, rfl⟩ := Prod.mk.inj h
  exact ⟨p.allocPage.1, rfl, hresult.symm⟩

theorem pmmAllocPages_eq {result : Option ℕ} (h : p.pmmAllocPages count = (result, p')) :
    ∃ found, p.allocPages count = (found, p') ∧ result = found.map p.pageAddr := by
  obtain ⟨hresult, rfl⟩ := Prod.mk.inj h
  exact ⟨(p.allocPages count).1, rfl, hresult.symm⟩

end Pmm

/-! ## Runs of calls -/

/-- A call of the page allocator with its arguments. -/
inductive PmmCall
  | allocPage
  | allocPages (count : UInt64)
  | freePage (addr : ℕ)
  | freePages (addr : ℕ) (count : UInt64)

/-- Result, if it is a page address, and new state of a call. -/
def Pmm.perform (p : Pmm) : PmmCall → Option ℕ × Pmm
  | .allocPage => p.pmmAllocPage
  | .allocPages count => p.pmmAllocPages count.toNat
  | .freePage addr => (none, p.pmmFreePage addr)
  | .freePages addr count => (none, p.pmmFreePages addr count.toNat)

/-- The pages a call frees or tries to free. -/
def PmmCall.Frees (p : Pmm) : PmmCall → ℕ → Prop
  | .allocPage, _ => False
  | .allocPages _, _ => False
  | .freePage addr, page => page = p.pageOf addr
  | .freePages addr count, page =>
    p.pageOf addr ≤ page ∧ page < p.pageOf addr + count.toNat

/-- The pages a call hands out when it returns `result`. -/
def PmmCall.HandsOut (p : Pmm) : PmmCall → Option ℕ → ℕ → Prop
  | .allocPage, some addr, page => page = p.pageOf addr
  | .allocPages count, some addr, page =>
    p.pageOf addr ≤ page ∧ page < p.pageOf addr + count.toNat
  | _, _, _ => False

/-- One call of the allocator that frees only pages below `total_pages`. The label
records the call and its result. -/
def PmmStep (p : Pmm) (event : PmmCall × Option ℕ) (p' : Pmm) : Prop :=
  (∀ page, event.1.Frees p page → page < p.totalPages) ∧
    p.perform event.1 = (event.2, p')

section Steps

variable {p p' : Pmm} {call : PmmCall} {result : Option ℕ} {page : ℕ}

/-- The last page of a batch that may be freed bounds the whole batch. -/
theorem PmmStep.freePages_le {addr : ℕ} {count : UInt64}
    (h : PmmStep p (.freePages addr count, result) p') (hcount : count.toNat ≠ 0) :
    p.pageOf addr + count.toNat ≤ p.totalPages := by
  have hlast := h.1 (p.pageOf addr + count.toNat - 1) ⟨by omega, by omega⟩
  omega

/-- Every call keeps counter and bitmap in agreement. -/
theorem PmmStep.consistent (hp : p.Consistent) (h : PmmStep p (call, result) p') :
    p'.Consistent := by
  cases call with
  | allocPage =>
    obtain ⟨found, hfound, -⟩ := Pmm.pmmAllocPage_eq h.2
    exact hp.allocPage hfound
  | allocPages count =>
    obtain ⟨found, hfound, -⟩ := Pmm.pmmAllocPages_eq h.2
    exact hp.allocPages hfound
  | freePage addr =>
    obtain ⟨-, rfl⟩ := Prod.mk.inj h.2
    exact hp.freePage (h.1 _ rfl)
  | freePages addr count =>
    obtain ⟨-, rfl⟩ := Prod.mk.inj h.2
    by_cases hcount : count.toNat = 0
    · rw [Pmm.pmmFreePages, hcount]
      exact hp
    · exact hp.freePages (h.freePages_le hcount)

theorem PmmStep.totalPages_eq (h : PmmStep p (call, result) p') :
    p'.totalPages = p.totalPages := by
  cases call with
  | allocPage =>
    obtain ⟨found, hfound, -⟩ := Pmm.pmmAllocPage_eq h.2
    exact Pmm.allocPage_totalPages hfound
  | allocPages count =>
    obtain ⟨found, hfound, -⟩ := Pmm.pmmAllocPages_eq h.2
    cases found with
    | none => rw [Pmm.allocPages_none hfound]
    | some first => obtain ⟨-, -, -, rfl⟩ := Pmm.allocPages_some hfound; rfl
  | freePage addr =>
    obtain ⟨-, rfl⟩ := Prod.mk.inj h.2
    exact Pmm.freePage_totalPages
  | freePages addr count =>
    obtain ⟨-, rfl⟩ := Prod.mk.inj h.2
    exact Pmm.freePages_totalPages

theorem PmmStep.hhdm_eq (h : PmmStep p (call, result) p') : p'.hhdm = p.hhdm := by
  cases call with
  | allocPage =>
    obtain ⟨found, hfound, -⟩ := Pmm.pmmAllocPage_eq h.2
    exact Pmm.allocPage_hhdm hfound
  | allocPages count =>
    obtain ⟨found, hfound, -⟩ := Pmm.pmmAllocPages_eq h.2
    cases found with
    | none => rw [Pmm.allocPages_none hfound]
    | some first => obtain ⟨-, -, -, rfl⟩ := Pmm.allocPages_some hfound; rfl
  | freePage addr =>
    obtain ⟨-, rfl⟩ := Prod.mk.inj h.2
    exact Pmm.freePage_hhdm
  | freePages addr count =>
    obtain ⟨-, rfl⟩ := Prod.mk.inj h.2
    exact Pmm.freePages_hhdm

/-- A page that is handed out was clear and is set afterwards. -/
theorem PmmStep.handsOut (hp : p.Consistent) (h : PmmStep p (call, result) p')
    (hout : call.HandsOut p result page) :
    page < p.totalPages ∧ p.bitmapTest page = false ∧ p'.bitmapTest page = true := by
  cases call with
  | freePage addr => cases result <;> exact hout.elim
  | freePages addr count => cases result <;> exact hout.elim
  | allocPage =>
    obtain ⟨found, hfound, rfl⟩ := Pmm.pmmAllocPage_eq h.2
    cases found with
    | none => exact hout.elim
    | some q =>
      have hq := hp.allocPage_lt hfound
      obtain rfl : page = q := hout.trans (hp.pageOf_pageAddr hq)
      obtain ⟨-, hclear, rfl⟩ := Pmm.allocPage_some hfound
      exact ⟨hq, hclear, by simp [Pmm.bitmapTest]⟩
  | allocPages count =>
    obtain ⟨found, hfound, rfl⟩ := Pmm.pmmAllocPages_eq h.2
    cases found with
    | none => exact hout.elim
    | some first =>
      obtain ⟨hpos, hend, hclear, rfl⟩ := Pmm.allocPages_some hfound
      obtain ⟨hge, hlt⟩ := hout
      rw [hp.pageOf_pageAddr (by omega)] at hge hlt
      refine ⟨by omega, hclear page hge hlt, ?_⟩
      change (p.setRun first count.toNat).bitmapTest page = true
      simp [hge, hlt]

/-- A used page stays used unless the call frees it. -/
theorem PmmStep.bitmapTest_of_not_frees (hp : p.Consistent)
    (h : PmmStep p (call, result) p') (hkeep : ¬ call.Frees p page)
    (hset : p.bitmapTest page = true) : p'.bitmapTest page = true := by
  cases call with
  | allocPage =>
    obtain ⟨found, hfound, -⟩ := Pmm.pmmAllocPage_eq h.2
    cases found with
    | none =>
      obtain ⟨pos, rfl⟩ := Pmm.allocPage_none hfound
      exact hset
    | some q =>
      obtain ⟨-, -, rfl⟩ := Pmm.allocPage_some hfound
      change (p.bitmapSet q).bitmapTest page = true
      simp [hset]
  | allocPages count =>
    obtain ⟨found, hfound, -⟩ := Pmm.pmmAllocPages_eq h.2
    cases found with
    | none => rwa [Pmm.allocPages_none hfound]
    | some first =>
      obtain ⟨-, -, -, rfl⟩ := Pmm.allocPages_some hfound
      change (p.setRun first count.toNat).bitmapTest page = true
      simp [hset]
  | freePage addr =>
    obtain ⟨-, rfl⟩ := Prod.mk.inj h.2
    have hne : page ≠ p.pageOf addr := hkeep
    rw [Pmm.pmmFreePage, Pmm.bitmapTest_freePage, decide_eq_false hne, hset]
    rfl
  | freePages addr count =>
    obtain ⟨-, rfl⟩ := Prod.mk.inj h.2
    by_cases hcount : count.toNat = 0
    · rwa [Pmm.pmmFreePages, hcount]
    · have hle := h.freePages_le hcount
      have hbound := hp.totalPages_le
      have hout : ¬ (p.pageOf addr ≤ page ∧ page < p.pageOf addr + count.toNat) := hkeep
      rw [Pmm.pmmFreePages, Pmm.bitmapTest_freePages (by omega), decide_eq_false hout, hset]
      rfl

/-- A call that frees only pages that are free already does nothing. -/
theorem PmmStep.double_free (hp : p.Consistent) (h : PmmStep p (call, result) p')
    (hfree : ∃ page, call.Frees p page)
    (hdouble : ∀ page, call.Frees p page → p.bitmapTest page = false) : p' = p := by
  obtain ⟨page, hpage⟩ := hfree
  cases call with
  | allocPage => exact hpage.elim
  | allocPages count => exact hpage.elim
  | freePage addr =>
    obtain ⟨-, rfl⟩ := Prod.mk.inj h.2
    exact Pmm.freePage_of_clear (hdouble _ rfl)
  | freePages addr count =>
    obtain ⟨-, rfl⟩ := Prod.mk.inj h.2
    have hle := h.freePages_le (by have := hpage; simp only [PmmCall.Frees] at this; omega)
    have hbound := hp.totalPages_le
    exact Pmm.freePages_of_clear (by omega) fun j h₁ h₂ => hdouble j ⟨h₁, h₂⟩

/-- Freeing the page an allocation returned takes the allocation back. -/
theorem pmmFreePage_pmmAllocPage {addr : ℕ} (hp : p.Consistent)
    (h : p.pmmAllocPage = (some addr, p')) :
    (p'.pmmFreePage addr).bitmap = p.bitmap ∧
      (p'.pmmFreePage addr).usedPages = p.usedPages := by
  obtain ⟨found, hfound, hresult⟩ := Pmm.pmmAllocPage_eq h
  cases found with
  | none => simp at hresult
  | some page =>
    obtain rfl := Option.some_inj.mp hresult
    have hpage := hp.allocPage_lt hfound
    obtain ⟨hfull, hclear, hp'⟩ := Pmm.allocPage_some hfound
    have hset : p'.bitmapTest page = true := by rw [hp']; simp [Pmm.bitmapTest]
    have hname : p'.pageOf (p.pageAddr page) = page := by
      rw [hp']; exact hp.pageOf_pageAddr hpage
    have hbound := hp.usedPages_lt
    have hle := hp.totalPages_le
    rw [Pmm.pmmFreePage, hname, Pmm.freePage_of_set hset, hp']
    refine ⟨Bytes.ext_testBit fun j => Bytes.testBit_clearBit_setBit hclear, ?_⟩
    dsimp only
    rw [wrap_of_lt (by omega), sub64_of_le (by omega) (by omega), Nat.add_sub_cancel]

/-- Freeing the run an allocation returned takes the allocation back. -/
theorem pmmFreePages_pmmAllocPages {addr count : ℕ} (hp : p.Consistent)
    (h : p.pmmAllocPages count = (some addr, p')) :
    (p'.pmmFreePages addr count).bitmap = p.bitmap ∧
      (p'.pmmFreePages addr count).usedPages = p.usedPages := by
  obtain ⟨found, hfound, hresult⟩ := Pmm.pmmAllocPages_eq h
  cases found with
  | none => simp at hresult
  | some first =>
    obtain rfl := Option.some_inj.mp hresult
    obtain ⟨hpos, hend, hclear, hp'⟩ := Pmm.allocPages_some hfound
    have hname : p'.pageOf (p.pageAddr first) = first := by
      rw [hp']; exact hp.pageOf_pageAddr (by omega)
    have htotal : p'.totalPages = p.totalPages := by rw [hp']
    have hbound := hp.totalPages_le
    have hbits : (p'.freePages first count).bitmap = p.bitmap := by
      refine Bytes.ext_testBit fun j => ?_
      change (p'.freePages first count).bitmapTest j = p.bitmapTest j
      have hrun : p'.bitmapTest j = (p.setRun first count).bitmapTest j := by rw [hp']; rfl
      rw [Pmm.bitmapTest_freePages (by omega), hrun, Pmm.bitmapTest_setRun]
      by_cases hj : first ≤ j ∧ j < first + count
      · simp [hj, hclear j hj.1 hj.2]
      · simp only [decide_eq_false hj, Bool.not_false, Bool.true_and, Bool.false_or]
    -- both counters are the number of set bits of the same bitmap
    have hend' : first + count ≤ p'.totalPages := by omega
    have hfreed := (hp.allocPages hfound).freePages hend'
    rw [Pmm.pmmFreePages, hname]
    refine ⟨hbits, ?_⟩
    rw [hfreed.usedPages_eq, hp.usedPages_eq]
    exact Pmm.usedBits_congr hbits (by rw [Pmm.freePages_totalPages, htotal])

theorem PmmCall.handsOut_congr {q : Pmm} (hbase : q.hhdm = p.hhdm) :
    call.HandsOut q result page ↔ call.HandsOut p result page := by
  cases call <;> cases result <;> simp only [HandsOut, Pmm.pageOf, hbase]

theorem PmmCall.frees_congr {q : Pmm} (hbase : q.hhdm = p.hhdm) :
    call.Frees q page ↔ call.Frees p page := by
  cases call <;> simp only [Frees, Pmm.pageOf, hbase]

end Steps

section Runs

variable {p₀ p : Pmm} {history : List (PmmCall × Option ℕ)} {page : ℕ}

theorem PmmStep.run_consistent (hp₀ : p₀.Consistent) (run : Reaches PmmStep p₀ history p) :
    p.Consistent :=
  run.invariant_state hp₀ fun _ _ _ hp h => PmmStep.consistent hp h

/-- A used page stays used through every run that does not free it. -/
theorem PmmStep.run_bitmapTest (hp₀ : p₀.Consistent) (run : Reaches PmmStep p₀ history p)
    (hset : p₀.bitmapTest page = true)
    (hkeep : ∀ event ∈ history, ¬ event.1.Frees p₀ page) :
    p.hhdm = p₀.hhdm ∧ p.bitmapTest page = true := by
  induction run with
  | start => exact ⟨rfl, hset⟩
  | @snoc history s t event hrun hlast ih =>
    obtain ⟨hbase, hbit⟩ := ih fun event hevent => hkeep event (List.mem_cons_of_mem _ hevent)
    have hs := PmmStep.run_consistent hp₀ hrun
    have hnot : ¬ event.1.Frees s page := fun hfrees =>
      hkeep event List.mem_cons_self ((PmmCall.frees_congr hbase).mp hfrees)
    exact ⟨hlast.hhdm_eq.trans hbase, PmmStep.bitmapTest_of_not_frees hs hlast hnot hbit⟩

/-- No page is handed out a second time before it is freed. -/
theorem PmmStep.not_handsOut_again {p₁ p₂ p₃ : Pmm} {call call' : PmmCall}
    {result result' : Option ℕ} {later : List (PmmCall × Option ℕ)} (hp : p.Consistent)
    (first : PmmStep p (call, result) p₁) (hout : call.HandsOut p result page)
    (run : Reaches PmmStep p₁ later p₂) (hkeep : ∀ event ∈ later, ¬ event.1.Frees p page)
    (second : PmmStep p₂ (call', result') p₃) : ¬ call'.HandsOut p result' page := by
  intro hagain
  obtain ⟨-, -, hset⟩ := first.handsOut hp hout
  have hp₁ := first.consistent hp
  have hbase := first.hhdm_eq
  obtain ⟨hbase', hbit⟩ := PmmStep.run_bitmapTest hp₁ run hset fun event hevent hfrees =>
    hkeep event hevent ((PmmCall.frees_congr hbase).mp hfrees)
  obtain ⟨-, hclear, -⟩ := second.handsOut (PmmStep.run_consistent hp₁ run)
    ((PmmCall.handsOut_congr (hbase'.trans hbase)).mpr hagain)
  rw [hbit] at hclear
  exact Bool.noConfusion hclear

/-- **The allocator over whole runs.** Start from any state in which `used_pages` is
the number of set bits and make any calls that free only pages below `total_pages`.
In the state reached counter and bitmap agree; what the next call hands out was free;
a page is not handed out again before it is freed; a double free does nothing; and
freeing what an allocation returned restores bitmap and counter. -/
theorem pmm_runs_consistent (hp₀ : p₀.Consistent) (run : Reaches PmmStep p₀ history p) :
    p.usedPages = p.usedBits ∧ p.usedPages ≤ p.totalPages ∧
      (∀ call result p' page, PmmStep p (call, result) p' → call.HandsOut p result page →
        page < p.totalPages ∧ p.bitmapTest page = false) ∧
      (∀ call result p₁ page later p₂ call' result' p₃,
        PmmStep p (call, result) p₁ → call.HandsOut p result page →
        Reaches PmmStep p₁ later p₂ → (∀ event ∈ later, ¬ event.1.Frees p page) →
        PmmStep p₂ (call', result') p₃ → ¬ call'.HandsOut p result' page) ∧
      (∀ call result p', PmmStep p (call, result) p' → (∃ page, call.Frees p page) →
        (∀ page, call.Frees p page → p.bitmapTest page = false) → p' = p) ∧
      (∀ addr p', p.pmmAllocPage = (some addr, p') →
        (p'.pmmFreePage addr).bitmap = p.bitmap ∧
          (p'.pmmFreePage addr).usedPages = p.usedPages) ∧
      (∀ count addr p', p.pmmAllocPages count = (some addr, p') →
        (p'.pmmFreePages addr count).bitmap = p.bitmap ∧
          (p'.pmmFreePages addr count).usedPages = p.usedPages) := by
  have hp := PmmStep.run_consistent hp₀ run
  refine ⟨hp.usedPages_eq, hp.usedPages_le, ?_, ?_, ?_, ?_, ?_⟩
  · intro call result p' page hstep hout
    obtain ⟨hlt, hclear, -⟩ := hstep.handsOut hp hout
    exact ⟨hlt, hclear⟩
  · intro call result p₁ page later p₂ call' result' p₃ first hout hrun hkeep second
    exact first.not_handsOut_again hp hout hrun hkeep second
  · intro call result p' hstep hfree hdouble
    exact hstep.double_free hp hfree hdouble
  · intro addr p' h
    exact pmmFreePage_pmmAllocPage hp h
  · intro count addr p' h
    exact pmmFreePages_pmmAllocPages hp h

/-- Eight pages, the first three of them used. -/
def samplePmm : Pmm where
  bitmap i := if i = 0 then 0x07#8 else 0xFF#8
  bitmapPhys := 0
  totalPages := 8
  usedPages := 3
  bitmapSizeBytes := 1
  bitmapSizePages := 1
  hhdm := 0xFFFF800000000000
  lastSearchPos := 0

theorem samplePmm_consistent : samplePmm.Consistent :=
  ⟨by decide, by decide, by decide, by decide⟩

/-- A page is allocated, and then page 1 is freed twice. -/
theorem pmm_runs_consistent_samplePmm :
    ∃ history p, history.length = 3 ∧ Reaches PmmStep samplePmm history p ∧
      p.usedPages = p.usedBits ∧ p.usedPages ≤ p.totalPages := by
  let addr := samplePmm.pageAddr 1
  let p₁ := (samplePmm.perform .allocPage).2
  have halloc : PmmStep samplePmm (.allocPage, (samplePmm.perform .allocPage).1) p₁ :=
    ⟨fun _ h => h.elim, rfl⟩
  have hfree : PmmStep p₁ (.freePage addr, none) (p₁.pmmFreePage addr) :=
    ⟨fun _ h => h ▸ by decide, rfl⟩
  have hagain : PmmStep (p₁.pmmFreePage addr) (.freePage addr, none)
      ((p₁.pmmFreePage addr).pmmFreePage addr) :=
    ⟨fun _ h => h ▸ by decide, rfl⟩
  have run := ((Reaches.start.snoc halloc).snoc hfree).snoc hagain
  obtain ⟨hused, hle, -⟩ := pmm_runs_consistent samplePmm_consistent run
  exact ⟨_, _, rfl, run, hused, hle⟩

end Runs

end OpenIDP.Memory
