import OpenIDP.Exec.Entries
import OpenIDP.Userspace.WmDraw

/-!
# The buffers of windows

A new window gets a buffer for the whole screen, which `sys_share_mem` maps page by page. When the
window is deleted, `sys_unmap` is called for as many bytes as its tile has by then. Here the pages
that were mapped for each window are remembered.

## Main definitions

* `sharedPages` — the addresses at which `sys_share_mem` maps pages for its caller
* `Wm.killUnmap` — the call of `sys_unmap` when the focused window is killed
* `Desk` — the window manager, with the pages of each window
* `Releases`, `TileFills` — all pages are looked at, and the tile has as many pages as the screen

## Main results

* `mem_shareEntries_iff_of_returns` — the pages of a region, by the loop that maps them
* `kill_releases_iff` — when the pages of a window are unmapped
* `kill_leaves_pages` — a window with half of the screen
-/

namespace OpenIDP.Userspace

open OpenIDP.Math OpenIDP.Memory OpenIDP.Process

/-- `buffer_size` in `wm_handle_new_client` -/
def Screen.bufferSize (screen : Screen) : ℕ := wrap (wrap (screen.fbWidth * screen.fbHeight) * 4)

/-- `size` in `wm_delete_node` -/
def Window.bufferSize (win : Window) : ℕ := toU64 (int32 (int32 (win.width * win.height) * 4))

/-- The addresses at which `sys_share_mem` maps pages for its caller. -/
def sharedPages (myVaddr size : ℕ) : List ℕ :=
  (List.range (alignUp size pageSize / pageSize)).map fun i => wrap (myVaddr + i * pageSize)

/-- A call of `sys_share_mem` that returns has mapped these pages for its caller, and those of the
other region for the target. -/
theorem mem_shareEntries_iff_of_returns {myPml4 theirPml4 myVaddr theirVaddr size a : ℕ} {v v' : Vm}
    (hrun : Exec.sharePages myPml4 myVaddr theirPml4 theirVaddr (alignUp size pageSize / pageSize)
      0 v = some v') :
    a ∈ Exec.shareEntries myPml4 myVaddr theirPml4 theirVaddr (alignUp size pageSize / pageSize)
      v ↔ a ∈ sharedPages myVaddr size ∨ a ∈ sharedPages theirVaddr size := by
  rw [Exec.mem_shareEntries_iff]
  simp only [sharedPages, List.mem_map, List.mem_range]
  constructor
  · rintro ⟨i, hi, -, -, -, -, -, rfl | ⟨rfl, -⟩⟩
    · exact Or.inl ⟨i, hi, rfl⟩
    · exact Or.inr ⟨i, hi, rfl⟩
  · intro ha
    obtain ⟨i, hi, ha⟩ : ∃ i < alignUp size pageSize / pageSize,
        a = wrap (myVaddr + i * pageSize) ∨ a = wrap (theirVaddr + i * pageSize) := by
      rcases ha with ⟨i, hi, rfl⟩ | ⟨i, hi, rfl⟩
      · exact ⟨i, hi, Or.inl rfl⟩
      · exact ⟨i, hi, Or.inr rfl⟩
    -- the rounds before this one have come to an end, and so has this one
    obtain ⟨v₁, hbefore, v₂, hround⟩ := Exec.sharePages_round hi hrun
    rw [Exec.sharePage] at hround
    obtain ⟨⟨page, v₃⟩, halloc⟩ : ∃ x, x = v₁.allocFrame := ⟨_, rfl⟩
    rw [← halloc] at hround
    cases page with
    | none => cases hround
    | some phys =>
      obtain ⟨v₄, hmap, -⟩ := Option.bind_eq_some_iff.mp hround
      exact ⟨i, hi, v₁, hbefore, phys, v₃, halloc.symm,
        ha.imp_right fun ha => ⟨ha, Option.ne_none_iff_exists'.mpr ⟨v₄, hmap⟩⟩⟩

/-- The tile of a window has as many pages as the screen, and its bytes are counted by an `int`. -/
def TileFills (screen : Screen) (win : Window) : Prop :=
  win.width * win.height * 4 < 2 ^ 31 ∧
    (win.width * win.height * 4 + 4095) / 4096 =
      ((screen.fbWidth : ℤ) * screen.fbHeight * 4 + 4095) / 4096

section Pages

variable {ptr n m i j a : ℕ} {screen : Screen} {win : Window}

/-- The pages from an address on are different as long as they do not go around. -/
theorem page_inj (hi : i < 2 ^ 52) (hj : j < 2 ^ 52)
    (h : wrap (ptr + i * pageSize) = wrap (ptr + j * pageSize)) : i = j := by
  rw [pageSize] at h
  unfold wrap at h
  omega

theorem mem_pages : a ∈ (List.range n).map (fun i => wrap (ptr + i * pageSize)) ↔
    ∃ i < n, wrap (ptr + i * pageSize) = a := by
  simp only [List.mem_map, List.mem_range]

/-- Two numbers of pages from an address on are the same pages only when the numbers are equal. -/
theorem pages_eq_iff (hn : n ≤ 2 ^ 52) (hm : m ≤ 2 ^ 52) :
    (∀ a, a ∈ (List.range n).map (fun i => wrap (ptr + i * pageSize)) ↔
      a ∈ (List.range m).map fun i => wrap (ptr + i * pageSize)) ↔ n = m := by
  constructor
  · intro h
    simp only [mem_pages] at h
    rcases lt_trichotomy n m with hlt | heq | hlt
    · obtain ⟨i, hi, hsame⟩ := (h _).mpr ⟨n, hlt, rfl⟩
      have := page_inj (by omega) (by omega) hsame
      omega
    · exact heq
    · obtain ⟨i, hi, hsame⟩ := (h _).mp ⟨m, hlt, rfl⟩
      have := page_inj (by omega) (by omega) hsame
      omega
  · rintro rfl a
    exact Iff.rfl

/-- The number of pages that a size is rounded up to. -/
theorem pages_of_size (size : ℕ) :
    alignUp size pageSize / pageSize = wrap (size + 4095) / 4096 := by
  have heq : alignUp size pageSize = wrap (size + 4095) / 4096 * 4096 :=
    @alignUp_eq 12 (by decide) size
  rw [heq]
  exact Nat.mul_div_cancel _ (by decide)

/-- A tile in the screen has at most its area. -/
theorem tile_area (hw : 0 ≤ win.width ∧ win.width ≤ screen.fbWidth)
    (hh : 0 ≤ win.height ∧ win.height ≤ screen.fbHeight) :
    0 ≤ win.width * win.height ∧
      win.width * win.height ≤ ((screen.fbWidth * screen.fbHeight : ℕ) : ℤ) := by
  refine ⟨Int.mul_nonneg hw.1 hh.1, ?_⟩
  rw [Nat.cast_mul]
  exact mul_le_mul hw.2 hh.2 hh.1 (by omega)

/-- A tile in the screen has as many pages as the screen in the calculation of `wm_delete_node`
exactly when its bytes are counted by an `int` and fill the pages. -/
theorem sizes_iff (hwidth : screen.fbWidth < 2 ^ 31) (hheight : screen.fbHeight < 2 ^ 31)
    (hw : 0 ≤ win.width ∧ win.width ≤ screen.fbWidth)
    (hh : 0 ≤ win.height ∧ win.height ≤ screen.fbHeight) :
    alignUp win.bufferSize pageSize / pageSize = alignUp screen.bufferSize pageSize / pageSize ↔
      TileFills screen win := by
  obtain ⟨hpos, harea⟩ := tile_area hw hh
  have hmax : screen.fbWidth * screen.fbHeight ≤ (2 ^ 31 - 1) * (2 ^ 31 - 1) :=
    Nat.mul_le_mul (by omega) (by omega)
  rw [pages_of_size, pages_of_size, TileFills, Window.bufferSize, Screen.bufferSize,
    ← Nat.cast_mul]
  generalize win.width * win.height = p at harea hpos ⊢
  generalize screen.fbWidth * screen.fbHeight = q at harea hmax ⊢
  unfold toU64 int32 wrap
  omega

/-- When the bytes of the screen are counted by an `int`, a tile has at most as many pages. -/
theorem sizes_le (hw : 0 ≤ win.width ∧ win.width ≤ screen.fbWidth)
    (hh : 0 ≤ win.height ∧ win.height ≤ screen.fbHeight)
    (hsmall : screen.fbWidth * screen.fbHeight * 4 < 2 ^ 31) :
    alignUp win.bufferSize pageSize / pageSize ≤ alignUp screen.bufferSize pageSize / pageSize ∧
      alignUp screen.bufferSize pageSize / pageSize ≤ 2 ^ 36 := by
  obtain ⟨hpos, harea⟩ := tile_area hw hh
  rw [pages_of_size, pages_of_size, Window.bufferSize, Screen.bufferSize]
  generalize win.width * win.height = p at harea hpos ⊢
  generalize screen.fbWidth * screen.fbHeight = q at harea hsmall ⊢
  unfold toU64 int32 wrap
  omega

/-- The pages that `sys_unmap` takes away from an address space are those at some addresses. -/
def UnmapsExactly (v : Vm) (root ptr size : ℕ) (pages : List ℕ) : Prop :=
  ∀ x, (pageEntry v.mem root x ≠ none ∧ pageEntry (sysUnmap v root ptr size).mem root x = none) ↔
    ∃ a ∈ pages, SamePage x a

/-- The addresses that `sys_unmap` looks at are some addresses. -/
def Releases (ptr size : ℕ) (pages : List ℕ) : Prop := ∀ a, a ∈ unmapAddrs ptr size ↔ a ∈ pages

/-- Pages of the lower half that are mapped are taken away when they are looked at. -/
theorem unmapped_iff {v : Vm} {root x : ℕ} {addrs : List ℕ} (h : Space 3 root v)
    (haddrs : ∀ a ∈ addrs, InUserHalf a ∧ pageEntry v.mem root a ≠ none) :
    (pageEntry v.mem root x ≠ none ∧
      pageEntry (addrs.foldl (Vm.unmapStep root) v).mem root x = none) ↔
        ∃ a ∈ addrs, SamePage x a := by
  obtain ⟨-, -, hgone, hkept⟩ := h.unmapAll fun a ha => (haddrs a ha).1
  constructor
  · rintro ⟨hmapped, hlost⟩
    by_contra hnot
    rw [hkept x fun a ha hxa => hnot ⟨a, ha, hxa⟩] at hlost
    exact hmapped hlost
  · rintro ⟨a, ha, hxa⟩
    refine ⟨?_, hgone x ⟨a, ha, hxa⟩⟩
    rw [pageEntry_congr hxa]
    exact (haddrs a ha).2

theorem not_samePage (hlt : i < j) (hj : j < 2 ^ 36) :
    ¬SamePage (wrap (ptr + j * pageSize)) (wrap (ptr + i * pageSize)) := by
  rw [pageSize]
  unfold SamePage wrap
  omega

/-- Of a number of pages that are mapped, the first ones are taken away. -/
theorem unmapsExactly_iff {v : Vm} {root size : ℕ} (h : Space 3 root v)
    (hn : alignUp size pageSize / pageSize ≤ m) (hm : m ≤ 2 ^ 36)
    (hpages : ∀ a ∈ (List.range m).map (fun i => wrap (ptr + i * pageSize)),
      InUserHalf a ∧ pageEntry v.mem root a ≠ none) :
    UnmapsExactly v root ptr size ((List.range m).map fun i => wrap (ptr + i * pageSize)) ↔
      alignUp size pageSize / pageSize = m := by
  have haddrs : ∀ a ∈ unmapAddrs ptr size, InUserHalf a ∧ pageEntry v.mem root a ≠ none := by
    intro a ha
    obtain ⟨i, hi, rfl⟩ := mem_pages.mp ha
    exact hpages _ (mem_pages.mpr ⟨i, hi.trans_le hn, rfl⟩)
  have hlost : ∀ x, _ ↔ ∃ a ∈ unmapAddrs ptr size, SamePage x a := fun x => unmapped_iff h haddrs
  constructor
  · intro hexact
    by_contra hne
    -- the page after those that were looked at is still there
    obtain ⟨a, ha, hsame⟩ := (hlost _).mp ((hexact _).mpr
      ⟨_, mem_pages.mpr ⟨alignUp size pageSize / pageSize, lt_of_le_of_ne hn hne, rfl⟩, rfl⟩)
    obtain ⟨i, hi, rfl⟩ := mem_pages.mp ha
    exact not_samePage hi ((lt_of_le_of_ne hn hne).trans_le hm) hsame
  · intro heq x
    refine (hlost x).trans ?_
    rw [unmapAddrs, unmapSize, heq]

end Pages

namespace Wm

/-- The call of `sys_unmap` in `wm_delete_node`: the address and the size. -/
def unmapCall (s : Wm) (index : ℕ) : Option (ℕ × ℕ) :=
  if (s.nodes index).isLeaf then
    (s.winOf index).bind fun w =>
      if (s.windows w).bufferWmPtr ≠ 0 then
        some ((s.windows w).bufferWmPtr, (s.windows w).bufferSize)
      else none
  else none

theorem unmapCall_eq {s : Wm} {index slot : ℕ} (hleaf : (s.nodes index).isLeaf = true)
    (hwin : s.winOf index = some slot) (hptr : (s.windows slot).bufferWmPtr ≠ 0) :
    s.unmapCall index = some ((s.windows slot).bufferWmPtr, (s.windows slot).bufferSize) := by
  rw [unmapCall, if_pos hleaf, hwin, Option.bind_some, if_pos hptr]

/-- The window of the focused leaf. -/
def focusedWindow (s : Wm) : Option ℕ := s.focusedNode.bind s.winOf

/-- The call of `sys_unmap` when the focused window is killed. -/
def killUnmap (s : Wm) : Option (ℕ × ℕ) :=
  s.focusedNode.bind fun node => (s.winOf node).bind fun slot =>
    (s.setWindow slot { s.windows slot with alive := false }).unmapCall node

end Wm

/-- The window manager, with the pages that `sys_share_mem` has mapped for the window in each
slot. -/
structure Desk where
  wm : Wm
  pages : ℕ → List ℕ

namespace Desk

/-- Nothing has happened yet. -/
def start : Desk := ⟨Wm.start, fun _ => []⟩

/-- The pages of the windows after an event: a new window gets those for the whole screen. -/
def pagesAfter (d : Desk) (screen : Screen) : Wm.Event → ℕ → List ℕ
  | .newClient _ shared =>
    if shared.1 = 0 then d.pages
    else d.wm.freeSlot.elim d.pages fun slot =>
      Function.update d.pages slot (sharedPages shared.1 screen.bufferSize)
  | .kill => d.pages
  | .focusNext => d.pages
  | .splitMode _ => d.pages

/-- The window manager handles an event, and the pages that are mapped are remembered. -/
def Handles (screen : Screen) (d : Desk) (e : Wm.Event) (d' : Desk) : Prop :=
  Wm.Handles screen d.wm e d'.wm ∧ d'.pages = d.pagesAfter screen e

/-- The pages of a window that is alive, which has a tile in the screen. -/
structure HasPages (screen : Screen) (win : Window) (pages : List ℕ) : Prop where
  ptr_ne : win.bufferWmPtr ≠ 0
  pages : pages = sharedPages win.bufferWmPtr screen.bufferSize
  inside : win.rect.Inside screen.rect

/-- The invariant: the windows that are alive have their pages. -/
structure Kept (screen : Screen) (d : Desk) : Prop where
  tree : ∃ tree, d.wm.WindowTree tree
  windows : ∀ slot < maxWindows, (d.wm.windows slot).alive = true →
    HasPages screen (d.wm.windows slot) (d.pages slot)

variable {screen : Screen} {d d' : Desk} {s s' : Wm} {slot : ℕ}

/-- A tile of a tree that was laid out is in the screen. -/
theorem laidOut_inside {b : BinTree} {r : Rect} (hr : r.Inside r) (h : s.LaidOut s' b r)
    {i : ℕ} (hi : i ∈ b.leaves) (hwin : s.winOf i = some slot) :
    (s'.windows slot).rect.Inside r := by
  have hfst : (tileRects s.dirs b r).map Prod.fst = b.leaves := tileRects_fst b r
  obtain ⟨q, hq, rfl⟩ := List.mem_map.mp (hfst.symm ▸ hi)
  rw [h.placed q hq slot hwin]
  exact tileRects_inside hr q hq

/-- The layout leaves the windows their pages, and gives them tiles in the screen. -/
theorem laidOut_hasPages {b : BinTree} {pages : ℕ → List ℕ} (hr : screen.rect.Inside screen.rect)
    (htree : s.WindowTree (some b)) (hlaid : s.LaidOut s' b screen.rect)
    (hpages : ∀ slot < maxWindows, (s.windows slot).alive = true →
      (s.windows slot).bufferWmPtr ≠ 0 ∧
        pages slot = sharedPages (s.windows slot).bufferWmPtr screen.bufferSize) :
    ∀ slot < maxWindows, (s'.windows slot).alive = true →
      HasPages screen (s'.windows slot) (pages slot) := by
  intro slot hslot halive
  have hmoved := hlaid.moved.windows slot
  have hbefore : (s.windows slot).alive = true := by
    rw [hmoved] at halive
    exact halive
  obtain ⟨i, hi, hwin⟩ := htree.shows.alive slot hslot hbefore
  obtain ⟨hptr, hsame⟩ := hpages slot hslot hbefore
  have hptr' : (s'.windows slot).bufferWmPtr = (s.windows slot).bufferWmPtr := by
    rw [hmoved]
    rfl
  exact ⟨hptr' ▸ hptr, hptr' ▸ hsame, laidOut_inside hr hlaid hi hwin⟩

/-- Windows and pages have not changed. -/
theorem Kept.congr (h : Kept screen d) (htree : ∃ tree, d'.wm.WindowTree tree)
    (hwindows : d'.wm.windows = d.wm.windows) (hpages : d'.pages = d.pages) : Kept screen d' := by
  refine ⟨htree, ?_⟩
  rw [hwindows, hpages]
  exact h.windows

theorem Kept.newClient (hr : screen.rect.Inside screen.rect) (h : Kept screen d) {pid : ℤ}
    {shared : ℕ × ℕ} (hstep : Handles screen d (.newClient pid shared) d') : Kept screen d' := by
  obtain ⟨⟨posts, hwm⟩, hpages⟩ := hstep
  obtain ⟨tree, htree⟩ := h.tree
  rw [Wm.handle, Wm.handleNewClient, Wm.addClient] at hwm
  rw [pagesAfter] at hpages
  cases hfree : d.wm.freeSlot with
  | none =>
    rw [hfree] at hwm hpages
    obtain ⟨hsame, -⟩ := Prod.mk.inj (Option.some_inj.mp hwm)
    rw [Option.elim_none, ite_self] at hpages
    exact h.congr ⟨tree, hsame ▸ htree⟩ (congrArg Wm.windows hsame.symm) hpages
  | some slot =>
    rw [hfree] at hwm hpages
    by_cases hshared : shared.1 = 0
    · simp only [if_pos hshared] at hwm hpages
      obtain ⟨hsame, -⟩ := Prod.mk.inj (Option.some_inj.mp hwm)
      exact h.congr ⟨tree, hsame ▸ htree⟩ (congrArg Wm.windows hsame.symm) hpages
    · obtain ⟨hslot, hdead⟩ := Wm.freeSlot_eq hfree
      obtain ⟨s₁, b, hinsert, htree₁, hwindows₁⟩ := htree.insert hslot hdead
        ((d.wm.windows slot).setup slot pid shared) rfl
      obtain ⟨s₂, hlayout, hlaid, htree₂⟩ := htree₁.updateLayout screen
      simp only [if_neg hshared, hinsert, Option.map_some, Option.bind_eq_bind, Option.bind_some,
        hlayout] at hwm
      obtain ⟨hsame, -⟩ := Prod.mk.inj (Option.some_inj.mp hwm)
      rw [if_neg hshared, Option.elim_some] at hpages
      refine ⟨⟨some b, hsame ▸ htree₂⟩, hsame ▸ laidOut_hasPages hr htree₁ hlaid ?_⟩
      intro slot' hslot' halive
      rw [hwindows₁] at halive ⊢
      rw [hpages]
      by_cases hnew : slot' = slot
      · rw [hnew, Function.update_self, Function.update_self]
        exact ⟨hshared, rfl⟩
      · rw [Function.update_of_ne hnew] at halive ⊢
        rw [Function.update_of_ne hnew]
        have hold := h.windows slot' hslot' halive
        exact ⟨hold.ptr_ne, hold.pages⟩

theorem Kept.kill (hr : screen.rect.Inside screen.rect) (h : Kept screen d)
    (hstep : Handles screen d .kill d') : Kept screen d' := by
  obtain ⟨⟨posts, hwm⟩, hpages⟩ := hstep
  obtain ⟨tree, htree⟩ := h.tree
  rw [Wm.handle] at hwm
  rcases htree.killFocused screen with ⟨-, heq⟩ |
    ⟨slot, s₁, s₂, tree', posts', hslot, -, htree₁, hwindows₁, hlaid, htree₂, heq⟩
  · obtain ⟨hsame, -⟩ := Prod.mk.inj (Option.some_inj.mp (heq.symm.trans hwm))
    exact h.congr ⟨tree, hsame ▸ htree⟩ (congrArg Wm.windows hsame.symm) hpages
  · obtain ⟨hsame, -⟩ := Prod.mk.inj (Option.some_inj.mp (heq.symm.trans hwm))
    have hrest : ∀ slot' < maxWindows, (s₁.windows slot').alive = true →
        s₁.windows slot' = d.wm.windows slot' ∧ (d.wm.windows slot').alive = true := by
      intro slot' _ halive
      rw [hwindows₁] at halive ⊢
      by_cases hkilled : slot' = slot
      · rw [hkilled, Function.update_self] at halive
        exact absurd halive Bool.false_ne_true
      · rw [Function.update_of_ne hkilled] at halive ⊢
        exact ⟨rfl, halive⟩
    rcases hlaid with ⟨-, hsame₁, -⟩ | ⟨b, hb, hlaid, -⟩
    · refine ⟨⟨tree', hsame ▸ htree₂⟩, fun slot' hslot' halive => ?_⟩
      rw [← hsame, hsame₁] at halive ⊢
      obtain ⟨hwin, hbefore⟩ := hrest slot' hslot' halive
      rw [hwin, hpages]
      exact h.windows slot' hslot' hbefore
    · refine ⟨⟨tree', hsame ▸ htree₂⟩, hsame ▸ laidOut_hasPages hr (hb ▸ htree₁) hlaid ?_⟩
      intro slot' hslot' halive
      obtain ⟨hwin, hbefore⟩ := hrest slot' hslot' halive
      have hold := h.windows slot' hslot' hbefore
      rw [hwin, hpages]
      exact ⟨hold.ptr_ne, hold.pages⟩

/-- One event: windows that are alive keep their pages. -/
theorem Kept.handle (hr : screen.rect.Inside screen.rect) (h : Kept screen d) {e : Wm.Event}
    (hstep : Handles screen d e d') : Kept screen d' := by
  cases e with
  | newClient pid shared => exact h.newClient hr hstep
  | kill => exact h.kill hr hstep
  | focusNext =>
    obtain ⟨⟨posts, hwm⟩, hpages⟩ := hstep
    obtain ⟨tree, htree⟩ := h.tree
    obtain ⟨s', heq, htree', hfocus⟩ := htree.focusNext
    rw [Wm.handle, heq] at hwm
    obtain ⟨rfl, -⟩ := Prod.mk.inj (Option.some_inj.mp hwm)
    refine h.congr ⟨tree, htree'⟩ ?_ hpages
    rw [hfocus]
  | splitMode mode =>
    obtain ⟨hwm, hpages⟩ := hstep
    obtain ⟨tree, htree⟩ := h.tree
    obtain ⟨s', posts', tree', heq, htree'⟩ := htree.handle screen (.splitMode mode)
    obtain ⟨posts, hwm⟩ := hwm
    obtain ⟨hsame, -⟩ := Prod.mk.inj (Option.some_inj.mp (heq.symm.trans hwm))
    refine h.congr ⟨tree', hsame ▸ htree'⟩ ?_ hpages
    obtain ⟨hsame', -⟩ := Prod.mk.inj (Option.some_inj.mp hwm)
    rw [← hsame']

theorem kept_start : Kept screen start where
  tree := ⟨none, Wm.windowTree_start⟩
  windows _ _ halive := absurd halive Bool.false_ne_true

/-- In every run the windows that are alive have their pages. -/
theorem kept_of_run (hr : screen.rect.Inside screen.rect) {history : List Wm.Event}
    (run : Reaches (Handles screen) start history d) : Kept screen d :=
  run.invariant_state (I := Kept screen) kept_start fun _ _ _ h hstep => h.handle hr hstep

/-- The focused window is alive, and killing it unmaps its buffer with the size of its tile. -/
theorem Kept.killUnmap_eq (h : Kept screen d) (hfocused : d.wm.focusedWindow = some slot) :
    slot < maxWindows ∧ (d.wm.windows slot).alive = true ∧
      d.wm.killUnmap = some ((d.wm.windows slot).bufferWmPtr, (d.wm.windows slot).bufferSize) := by
  obtain ⟨i, hi, hwin⟩ := Option.bind_eq_some_iff.mp hfocused
  obtain ⟨tree, htree⟩ := h.tree
  cases tree with
  | none =>
    rw [htree.holds.unfocused rfl] at hi
    exact absurd hi (Option.some_ne_none i).symm
  | some b =>
    obtain ⟨j, hj, hfocus⟩ := htree.holds.focused b rfl
    obtain rfl := Option.some_inj.mp (hfocus.symm.trans hi)
    obtain ⟨slot', hslot, hwin', halive⟩ := htree.shows.windows j hj
    obtain rfl := Option.some_inj.mp (hwin'.symm.trans hwin)
    refine ⟨hslot, halive, ?_⟩
    have hleaf : (d.wm.nodes j).isLeaf = true := htree.holds.isLeaf hj
    have hptr := (h.windows slot' hslot halive).ptr_ne
    obtain ⟨s, hs⟩ : ∃ s, s = d.wm.setWindow slot' { d.wm.windows slot' with alive := false } :=
      ⟨_, rfl⟩
    have hsame : (s.windows slot').bufferWmPtr = (d.wm.windows slot').bufferWmPtr ∧
        (s.windows slot').bufferSize = (d.wm.windows slot').bufferSize := by
      rw [hs, Wm.setWindow_self]
      exact ⟨rfl, rfl⟩
    have hcall : s.unmapCall j = _ :=
      Wm.unmapCall_eq (hs ▸ hleaf) (hs ▸ hwin) (hsame.1.trans_ne hptr)
    rw [Wm.killUnmap, hi, Option.bind_some, hwin, Option.bind_some, ← hs, hcall, hsame.1, hsame.2]

/-- When the focused window is killed, in any state that can be reached: the pages that `sys_unmap`
looks at are the pages that `sys_share_mem` has mapped for the window exactly when its tile has as
many pages as the screen. The same goes for the pages that `sys_unmap` takes away from an address
space that has all pages of the window. -/
theorem kill_releases_iff (hwidth : screen.fbWidth < 2 ^ 31) (hheight : screen.fbHeight < 2 ^ 31)
    {history : List Wm.Event} (run : Reaches (Handles screen) start history d)
    (hfocused : d.wm.focusedWindow = some slot) :
    ∃ ptr size, d.wm.killUnmap = some (ptr, size) ∧
      (Releases ptr size (d.pages slot) ↔ TileFills screen (d.wm.windows slot)) ∧
      ∀ v root, Space 3 root v →
        (∀ a ∈ d.pages slot, InUserHalf a ∧ pageEntry v.mem root a ≠ none) →
        screen.fbWidth * screen.fbHeight * 4 < 2 ^ 31 →
        (UnmapsExactly v root ptr size (d.pages slot) ↔
          TileFills screen (d.wm.windows slot)) := by
  have hrect : screen.rect = ⟨0, 0, screen.fbWidth, screen.fbHeight⟩ := by
    rw [Screen.rect, toInt32_of_lt hwidth, toInt32_of_lt hheight]
  have hr : screen.rect.Inside screen.rect := by
    rw [hrect]
    exact .refl (Int.natCast_nonneg _) (Int.natCast_nonneg _)
  have hkept := kept_of_run hr run
  obtain ⟨hslot, halive, hcall⟩ := hkept.killUnmap_eq hfocused
  obtain ⟨-, hpages, hinside⟩ := hkept.windows slot hslot halive
  obtain ⟨hleft, hright, htop, hbottom, hw, hh⟩ := hrect ▸ hinside
  simp only [Window.rect] at hleft hright htop hbottom hw hh
  have hsizes := sizes_iff hwidth hheight ⟨hw, by omega⟩ ⟨hh, by omega⟩
  have hcount : ∀ size, alignUp size pageSize / pageSize ≤ 2 ^ 52 := fun size => by
    have hlt := wrap_lt (size + 4095)
    rw [pages_of_size]
    omega
  refine ⟨_, _, hcall, ?_, fun v root hspace hmapped hsmall => ?_⟩
  · rw [hpages]
    exact (pages_eq_iff (hcount _) (hcount _)).trans hsizes
  · rw [hpages] at hmapped ⊢
    obtain ⟨hle, hcount⟩ := sizes_le ⟨hw, by omega⟩ ⟨hh, by omega⟩ hsmall
    exact (unmapsExactly_iff hspace hle hcount hmapped).trans hsizes

/-- The events as a run, with the pages of the windows. -/
theorem exists_of_replay {history : List Wm.Event} (h : Wm.replay screen history = some s) :
    ∃ d, Reaches (Handles screen) start history d ∧ d.wm = s := by
  induction history generalizing s with
  | nil =>
    obtain rfl := Option.some_inj.mp h
    exact ⟨start, .start, rfl⟩
  | cons e history ih =>
    obtain ⟨s₁, hreplay, hlast⟩ := Option.bind_eq_some_iff.mp h
    obtain ⟨⟨s₂, posts⟩, hhandle, rfl⟩ := Option.map_eq_some_iff.mp hlast
    obtain ⟨d, run, rfl⟩ := ih hreplay
    exact ⟨⟨s₂, d.pagesAfter screen e⟩, run.snoc ⟨⟨posts, hhandle⟩, rfl⟩, rfl⟩

theorem kill_releases_iff_oneWindow : ∃ d, Reaches (Handles ⟨64, 48⟩) start
    [.newClient 7 (0x10000, 0x800000000)] d ∧
    ∃ ptr size, d.wm.killUnmap = some (ptr, size) ∧ Releases ptr size (d.pages 0) := by
  have hsome : ((Wm.replay ⟨64, 48⟩ [.newClient 7 (0x10000, 0x800000000)]).any fun s => decide
      (s.focusedWindow = some 0 ∧ s.OneWindow 64 48)) = true := by decide +kernel
  obtain ⟨s, hreplay, hs⟩ := (Option.any_eq_true _ _).mp hsome
  obtain ⟨hfocused, -, -, -, hw, hh⟩ := of_decide_eq_true hs
  obtain ⟨d, run, rfl⟩ := exists_of_replay hreplay
  obtain ⟨ptr, size, hcall, hreleases, -⟩ :=
    kill_releases_iff (by decide) (by decide) run hfocused
  refine ⟨d, run, ptr, size, hcall, hreleases.mpr ?_⟩
  rw [TileFills, hw, hh]
  exact ⟨by decide, by decide⟩

/-- The second window has half of the screen, two pages of four. The rest of its buffer stays. -/
theorem kill_leaves_pages : ∃ d, Reaches (Handles ⟨64, 64⟩) start
    [.newClient 8 (0x20000, 0x800000000), .newClient 7 (0x10000, 0x800000000)] d ∧
    d.wm.focusedWindow = some 1 ∧ d.wm.killUnmap = some (0x20000, 8192) ∧
    d.pages 1 = [0x20000, 0x21000, 0x22000, 0x23000] ∧
    ¬Releases 0x20000 8192 (d.pages 1) := by
  have hsome : ((Wm.replay ⟨64, 64⟩ [.newClient 8 (0x20000, 0x800000000),
      .newClient 7 (0x10000, 0x800000000)]).any fun s => decide
        (s.focusedWindow = some 1 ∧ s.killUnmap = some (0x20000, 8192) ∧
          (s.windows 1).bufferWmPtr = 0x20000)) = true := by decide +kernel
  obtain ⟨s, hreplay, hs⟩ := (Option.any_eq_true _ _).mp hsome
  obtain ⟨hfocused, hcall, hptr⟩ := of_decide_eq_true hs
  obtain ⟨d, run, rfl⟩ := exists_of_replay hreplay
  have hr : (⟨64, 64⟩ : Screen).rect.Inside (⟨64, 64⟩ : Screen).rect :=
    .refl (by decide) (by decide)
  have hkept := kept_of_run hr run
  obtain ⟨hslot, halive, -⟩ := hkept.killUnmap_eq hfocused
  have hpages : d.pages 1 = [0x20000, 0x21000, 0x22000, 0x23000] := by
    rw [(hkept.windows 1 hslot halive).pages, hptr]
    decide +kernel
  refine ⟨d, run, hfocused, hcall, hpages, fun h => ?_⟩
  have hlast := (h 0x23000).mpr (by
    rw [hpages]
    decide)
  exact absurd hlast (by decide +kernel)

end Desk

end OpenIDP.Userspace
