import OpenIDP.Memory.MapRuns

/-!
# Several address spaces

The tables of different address spaces are different frames, and no page of one is a table of
any. So a page that is mapped in one address space changes no other page anywhere, and what is
stored in the pages stays as it is.

## Main definitions

* `Spaces` — the tables of several PML4s are disjoint trees, and their pages are in use
* `Touches` — one page of one address space changes

## Main results

* `Spaces.alloc` — a frame from `pmm_alloc_page` is no table and no page
* `Spaces.vmmMapPage` — a page is mapped
* `Spaces.write` — storing into a page
-/

namespace OpenIDP.Memory

open OpenIDP.Math

/-- A frame is a table of the address space. -/
def IsTable (mem : Frames) (root f : ℕ) : Prop :=
  ∃ q : Path, q.length ≤ 3 ∧ reach mem root q = some f

/-- The tables of the PML4s in `roots` are disjoint trees, and their pages lead to frames that
are in use and hold no tables. -/
structure Spaces (roots : Set ℕ) (v : Vm) : Prop where
  sound : v.Sound
  space : ∀ r ∈ roots, Space 3 r v
  apart : ∀ r ∈ roots, ∀ s ∈ roots, ∀ f, IsTable v.mem r f → IsTable v.mem s f → r = s
  page_used : ∀ r ∈ roots, ∀ q i e, q.length = 3 → leafEntry v.mem r q i = some e →
    ¬ v.pmm.Free (entryFrame e)
  page_plain : ∀ r ∈ roots, ∀ s ∈ roots, ∀ q i e, q.length = 3 →
    leafEntry v.mem r q i = some e → ¬ IsTable v.mem s (entryFrame e)

/-- A frame that is in use and holds no table. -/
structure PlainFrame (roots : Set ℕ) (v : Vm) (f : ℕ) : Prop where
  used : ¬ v.pmm.Free f
  plain : ∀ s ∈ roots, ¬ IsTable v.mem s f

/-- In the address space `r` the page of `virt` has the entry given afterwards, and nothing
else changes: no other page, no frame in use but tables of `r`, and no entry of the upper half
of `r`. -/
structure Touches (roots : Set ℕ) (r virt : ℕ) (entry : Option ℕ) (v v' : Vm) : Prop where
  entry_eq : pageEntry v'.mem r virt = entry
  other : ∀ s ∈ roots, ∀ x, (s = r → ¬ SamePage x virt) →
    pageEntry v'.mem s x = pageEntry v.mem s x
  mem_eq : ∀ g, ¬ v.pmm.Free g → ¬ IsTable v.mem r g → v'.mem g = v.mem g
  upper : ∀ j : Fin 512, 256 ≤ j.val → v'.mem r j = v.mem r j
  tables : ∀ s ∈ roots, ∀ f, IsTable v'.mem s f → IsTable v.mem s f ∨ s = r ∧ v.pmm.Free f
  keep : ∀ s ∈ roots, ∀ f, IsTable v.mem s f → IsTable v'.mem s f

namespace Spaces

variable {roots : Set ℕ} {r s f g t virt x phys flags w : ℕ} {v v' : Vm} {q : Path}
variable {i : Fin 512} {e : ℕ} {new : List ℕ}

theorem table_used (h : Spaces roots v) (hr : r ∈ roots) (hf : IsTable v.mem r f) :
    ¬ v.pmm.Free f := by
  obtain ⟨q, hq, hreach⟩ := hf
  exact (h.space r hr).not_free hq hreach

/-- The same tables with the same entries, all of them in use. -/
theorem congr (h : Spaces roots v) (hsound : v'.Sound)
    (hfree : ∀ g, v'.pmm.Free g → v.pmm.Free g)
    (hmem : ∀ s ∈ roots, ∀ f, IsTable v.mem s f → v'.mem f = v.mem f) :
    Spaces roots v' ∧
      (∀ s ∈ roots, ∀ q : Path, q.length ≤ 3 → reach v'.mem s q = reach v.mem s q) ∧
      ∀ s ∈ roots, ∀ q i, q.length = 3 → leafEntry v'.mem s q i = leafEntry v.mem s q i := by
  have hspace := fun s hs => (h.space s hs).congr hsound
    (fun p f hp hf hfree' => (h.space s hs).not_free hp hf (hfree f hfree'))
    fun p f i hp hf => congrFun (hmem s hs f ⟨p, hp.le, hf⟩) i
  have hreach : ∀ s ∈ roots, ∀ q : Path, q.length ≤ 3 → reach v'.mem s q = reach v.mem s q :=
    fun s hs => (hspace s hs).2
  have htable : ∀ s ∈ roots, ∀ f, IsTable v'.mem s f ↔ IsTable v.mem s f := fun s hs f =>
    exists_congr fun q => and_congr_right fun hq => by rw [hreach s hs q hq]
  have hleaf : ∀ s ∈ roots, ∀ q i, q.length = 3 →
      leafEntry v'.mem s q i = leafEntry v.mem s q i := by
    intro s hs q i hq
    rw [leafEntry, leafEntry, hreach s hs q hq.le]
    cases hg : reach v.mem s q with
    | none => rfl
    | some g => rw [Option.bind_some, Option.bind_some, hmem s hs g ⟨q, hq.le, hg⟩]
  refine ⟨⟨hsound, fun s hs => (hspace s hs).1, fun r hr s hs f hf hf' => ?_,
    fun r hr q i e hq he hfree' => ?_, fun r hr s hs q i e hq he ht => ?_⟩, hreach, hleaf⟩
  · exact h.apart r hr s hs f ((htable r hr f).mp hf) ((htable s hs f).mp hf')
  · rw [hleaf r hr q i hq] at he
    exact h.page_used r hr q i e hq he (hfree _ hfree')
  · rw [hleaf r hr q i hq] at he
    exact h.page_plain r hr s hs q i e hq he ((htable s hs _).mp ht)

/-- A frame from `pmm_alloc_page` is no table and no page. -/
theorem alloc (h : Spaces roots v) (halloc : v.allocFrame = (some f, v')) :
    Spaces roots v' ∧ v'.mem = v.mem ∧ Vm.Lends [f] v v' ∧ PlainFrame roots v' f ∧
      ∀ s ∈ roots, ∀ x e, pageEntry v.mem s x = some e → entryFrame e ≠ f := by
  obtain ⟨hlends, hmem⟩ := h.sound.lends_alloc halloc
  have hfree : v.pmm.Free f := hlends.free f (List.mem_singleton.mpr rfl)
  obtain ⟨h', -, -⟩ := h.congr hlends.sound (fun g hg => (hlends.free_iff.mp hg).1)
    fun s _ f _ => by rw [hmem]
  refine ⟨h', hmem, hlends, ⟨fun hg => ?_, fun s hs hf => ?_⟩, fun s hs x e he heq => ?_⟩
  · exact (hlends.free_iff.mp hg).2 (List.mem_singleton.mpr rfl)
  · rw [hmem] at hf
    exact h.table_used hs hf hfree
  · exact h.page_used s hs _ _ e rfl he (heq ▸ hfree)

/-- The missing tables for a page are added. -/
theorem pageTableFor (h : Spaces roots v) (hr : r ∈ roots) (hvirt : InUserHalf virt)
    (hrun : v.pageTableFor r virt = some (t, v')) :
    ∃ new, Grows 3 r new v v' ∧ Spaces roots v' ∧ reach v'.mem r (tablePath virt) = some t ∧
      (∀ s ∈ roots, ∀ q i, q.length = 3 → leafEntry v'.mem s q i = leafEntry v.mem s q i) ∧
      (∀ s ∈ roots, ∀ f, IsTable v'.mem s f → IsTable v.mem s f ∨ s = r ∧ v.pmm.Free f) ∧
      ∀ s ∈ roots, ∀ f, IsTable v.mem s f → IsTable v'.mem s f := by
  obtain ⟨new, hgrows, ht⟩ := (h.space r hr).pageTableFor hvirt hrun
  have hfree : ∀ g, v'.pmm.Free g → v.pmm.Free g := fun g hg => (hgrows.lends.free_iff.mp hg).1
  -- the tables of the other address spaces are left alone
  have hmem : ∀ s ∈ roots, s ≠ r → ∀ f, IsTable v.mem s f → v'.mem f = v.mem f := by
    intro s hs hsr f hf
    refine hgrows.outside f (h.table_used hs hf) fun q hq hreach => hsr ?_
    exact h.apart s hs r hr f hf ⟨q, hq.le, hreach⟩
  have hspace : ∀ s ∈ roots, s ≠ r → Space 3 s v' ∧
      ∀ q : Path, q.length ≤ 3 → reach v'.mem s q = reach v.mem s q := fun s hs hsr =>
    (h.space s hs).congr hgrows.lends.sound
      (fun p f hp hf hfree' => (h.space s hs).not_free hp hf (hfree f hfree'))
      fun p f i hp hf => congrFun (hmem s hs hsr f ⟨p, hp.le, hf⟩) i
  have htable : ∀ s ∈ roots, ∀ f, IsTable v'.mem s f →
      IsTable v.mem s f ∨ s = r ∧ v.pmm.Free f := by
    rintro s hs f ⟨q, hq, hreach⟩
    by_cases hsr : s = r
    · subst hsr
      rcases hgrows.fresh hq hreach with hold | hnew
      · exact Or.inl ⟨q, hq, hold⟩
      · exact Or.inr ⟨rfl, hgrows.lends.free f hnew⟩
    · rw [(hspace s hs hsr).2 q hq] at hreach
      exact Or.inl ⟨q, hq, hreach⟩
  have hkeep : ∀ s ∈ roots, ∀ f, IsTable v.mem s f → IsTable v'.mem s f := by
    rintro s hs f ⟨q, hq, hreach⟩
    by_cases hsr : s = r
    · subst hsr
      exact ⟨q, hq, hgrows.keep hq hreach⟩
    · exact ⟨q, hq, by rwa [(hspace s hs hsr).2 q hq]⟩
  have hleaf : ∀ s ∈ roots, ∀ q i, q.length = 3 →
      leafEntry v'.mem s q i = leafEntry v.mem s q i := by
    intro s hs q i hq
    by_cases hsr : s = r
    · rw [hsr]
      exact hgrows.leaf hq i
    · rw [leafEntry, leafEntry, (hspace s hs hsr).2 q hq.le]
      cases hg : reach v.mem s q with
      | none => rfl
      | some g => rw [Option.bind_some, Option.bind_some, hmem s hs hsr g ⟨q, hq.le, hg⟩]
  refine ⟨new, hgrows, ⟨hgrows.lends.sound, fun s hs => ?_, fun a ha c hc f hf hf' => ?_,
    fun s hs q i e hq he hfree' => ?_, fun s hs c hc q i e hq he hf => ?_⟩, ht, hleaf, htable,
    hkeep⟩
  · by_cases hsr : s = r
    · rw [hsr]
      exact hgrows.space
    · exact (hspace s hs hsr).1
  · rcases htable a ha f hf with hold | ⟨har, hfree'⟩ <;>
      rcases htable c hc f hf' with hold' | ⟨hcr, hfree''⟩
    · exact h.apart a ha c hc f hold hold'
    · exact absurd hfree'' (h.table_used ha hold)
    · exact absurd hfree' (h.table_used hc hold')
    · rw [har, hcr]
  · rw [hleaf s hs q i hq] at he
    exact h.page_used s hs q i e hq he (hfree _ hfree')
  · rw [hleaf s hs q i hq] at he
    rcases htable c hc _ hf with hold | ⟨-, hfree'⟩
    · exact h.page_plain s hs c hc q i e hq he hold
    · exact h.page_used s hs q i e hq he hfree'

/-- The entry of one page is written. -/
theorem setEntry (h : Spaces roots v) (hr : r ∈ roots)
    (ht : reach v.mem r (tablePath virt) = some t)
    (hw : ∀ e, presentEntry w = some e → PlainFrame roots v (entryFrame e)) :
    Spaces roots (v.setWord t (ptIndex virt) w) ∧
      Touches roots r virt (presentEntry w) v (v.setWord t (ptIndex virt) w) := by
  obtain ⟨hspace, hreach, hentry, hother⟩ :=
    (h.space r hr).setEntry (i := ptIndex virt) ht rfl w
  have htable : IsTable v.mem r t := ⟨tablePath virt, Nat.le_refl 3, ht⟩
  have hsound : (v.setWord t (ptIndex virt) w).Sound := h.sound.of_same rfl rfl
  have hmem : ∀ s ∈ roots, s ≠ r → ∀ f, IsTable v.mem s f →
      (v.setWord t (ptIndex virt) w).mem f = v.mem f := by
    intro s hs hsr f hf
    refine Function.update_of_ne ?_ _ _
    rintro rfl
    exact hsr (h.apart s hs r hr f hf htable)
  have hspaces : ∀ s ∈ roots, s ≠ r → Space 3 s (v.setWord t (ptIndex virt) w) ∧
      ∀ q : Path, q.length ≤ 3 →
        reach (v.setWord t (ptIndex virt) w).mem s q = reach v.mem s q := fun s hs hsr =>
    (h.space s hs).congr hsound (fun p f hp hf => (h.space s hs).not_free hp hf)
      fun p f i hp hf => congrFun (hmem s hs hsr f ⟨p, hp.le, hf⟩) i
  have hreach' : ∀ s ∈ roots, ∀ q : Path, q.length ≤ 3 →
      reach (v.setWord t (ptIndex virt) w).mem s q = reach v.mem s q := by
    intro s hs q hq
    by_cases hsr : s = r
    · rw [hsr]
      exact hreach q hq
    · exact (hspaces s hs hsr).2 q hq
  have hiff : ∀ s ∈ roots, ∀ f, IsTable (v.setWord t (ptIndex virt) w).mem s f ↔
      IsTable v.mem s f := fun s hs f =>
    exists_congr fun q => and_congr_right fun hq => by rw [hreach' s hs q hq]
  have hleaf : ∀ s ∈ roots, ∀ q i, q.length = 3 →
      (s = r → q = tablePath virt → i ≠ ptIndex virt) →
      leafEntry (v.setWord t (ptIndex virt) w).mem s q i = leafEntry v.mem s q i := by
    intro s hs q i hq hne
    by_cases hsr : s = r
    · rw [hsr]
      exact hother q i hq (hne hsr)
    · rw [leafEntry, leafEntry, hreach' s hs q hq.le]
      cases hg : reach v.mem s q with
      | none => rfl
      | some g => rw [Option.bind_some, Option.bind_some, hmem s hs hsr g ⟨q, hq.le, hg⟩]
  -- an entry is the one written, or was there before
  have hcases : ∀ s ∈ roots, ∀ q i e, q.length = 3 →
      leafEntry (v.setWord t (ptIndex virt) w).mem s q i = some e →
        presentEntry w = some e ∨ leafEntry v.mem s q i = some e := by
    intro s hs q i e hq he
    by_cases hhere : s = r ∧ q = tablePath virt ∧ i = ptIndex virt
    · obtain ⟨rfl, rfl, rfl⟩ := hhere
      rw [hentry] at he
      exact Or.inl he
    · rw [hleaf s hs q i hq fun hsr hqp hi => hhere ⟨hsr, hqp, hi⟩] at he
      exact Or.inr he
  refine ⟨⟨hsound, fun s hs => ?_, fun a ha c hc f hf hf' => ?_, fun s hs q i e hq he hfree => ?_,
    fun s hs c hc q i e hq he hf => ?_⟩, ⟨hentry, fun s hs x hx => ?_, fun g hg hnot => ?_,
    fun j hj => ?_, fun s hs f hf => Or.inl ((hiff s hs f).mp hf), fun s hs f hf =>
      (hiff s hs f).mpr hf⟩⟩
  · by_cases hsr : s = r
    · rw [hsr]
      exact hspace
    · exact (hspaces s hs hsr).1
  · exact h.apart a ha c hc f ((hiff a ha f).mp hf) ((hiff c hc f).mp hf')
  · rcases hcases s hs q i e hq he with hnew | hold
    · exact (hw e hnew).used hfree
    · exact h.page_used s hs q i e hq hold hfree
  · rw [hiff c hc] at hf
    rcases hcases s hs q i e hq he with hnew | hold
    · exact (hw e hnew).plain c hc hf
    · exact h.page_plain s hs c hc q i e hq hold hf
  · exact hleaf s hs _ _ rfl fun hsr hpath => ptIndex_ne (hx hsr) hpath
  · refine Function.update_of_ne ?_ _ _
    rintro rfl
    exact hnot htable
  · refine (Vm.mem_setWord _ _ _).trans (if_neg fun e => ?_)
    have hnil := ((h.space r hr).root_iff (by simp [tablePath]) ht).mp e.1.symm
    simp [tablePath] at hnil

/-- `vmm_map_page`, for a page of the lower half and a frame that is in use and holds no
table. -/
theorem vmmMapPage (h : Spaces roots v) (hr : r ∈ roots) (hvirt : InUserHalf virt)
    (hphys : PlainFrame roots v (entryFrame phys)) (hflags : entryFrame flags = 0)
    (hrun : v.vmmMapPage r virt phys flags = some v') :
    Spaces roots v' ∧
      Touches roots r virt (some ((phys &&& pageAlignMask) ||| flags ||| vmmPresent)) v v' ∧
      ∃ new, Vm.Lends new v v' := by
  rw [Vm.vmmMapPage_eq] at hrun
  obtain ⟨⟨t, v₁⟩, hrun₁, rfl⟩ := Option.map_eq_some_iff.mp hrun
  obtain ⟨new, hgrows, h₁, ht, hleaf, htables, hkeep⟩ := h.pageTableFor hr hvirt hrun₁
  obtain ⟨hframe, hpresent⟩ := @entry_page flags phys hflags
  obtain ⟨w, hw⟩ : ∃ w, w = (phys &&& pageAlignMask) ||| flags ||| vmmPresent := ⟨_, rfl⟩
  rw [← hw] at hframe hpresent ⊢
  have hentry : presentEntry w = some w := if_pos hpresent
  have hplain : ∀ e, presentEntry w = some e → PlainFrame roots v₁ (entryFrame e) := by
    intro e he
    rw [← Option.some_inj.mp (hentry.symm.trans he), hframe]
    refine ⟨fun hfree => hphys.used (hgrows.lends.free_iff.mp hfree).1, fun s hs hf => ?_⟩
    rcases htables s hs _ hf with hold | ⟨-, hfree⟩
    · exact hphys.plain s hs hold
    · exact hphys.used hfree
  obtain ⟨h₂, htouches⟩ := h₁.setEntry hr ht hplain
  rw [hentry] at htouches
  refine ⟨h₂, ⟨htouches.entry_eq, fun s hs x hx => ?_, fun g hg hnot => ?_, fun j hj => ?_,
    fun s hs f hf => ?_, fun s hs f hf => htouches.keep s hs f (hkeep s hs f hf)⟩,
    ⟨new, hgrows.lends.of_same rfl rfl rfl⟩⟩
  · exact (htouches.other s hs x hx).trans (hleaf s hs _ _ rfl)
  · have hused : ¬ v₁.pmm.Free g := fun hfree => hg (hgrows.lends.free_iff.mp hfree).1
    have hnot' : ¬ IsTable v₁.mem r g := fun hf =>
      (htables r hr g hf).elim hnot fun hfree => hg hfree.2
    rw [htouches.mem_eq g hused hnot']
    exact hgrows.outside g hg fun q hq hreach => hnot ⟨q, hq.le, hreach⟩
  · exact (htouches.upper j hj).trans (hgrows.upper j hj)
  · rcases htouches.tables s hs f hf with hold | ⟨hsr, hfree⟩
    · exact htables s hs f hold
    · exact Or.inr ⟨hsr, (hgrows.lends.free_iff.mp hfree).1⟩

/-- Storing into a frame that holds no table. -/
theorem write (h : Spaces roots v) (hf : ∀ s ∈ roots, ¬ IsTable v.mem s f)
    (hmem : ∀ g, g ≠ f → v'.mem g = v.mem g) (hpmm : v'.pmm = v.pmm) (hlent : v'.lent = v.lent) :
    Spaces roots v' ∧
      (∀ s ∈ roots, ∀ x, pageEntry v'.mem s x = pageEntry v.mem s x) ∧
      ∀ s ∈ roots, ∀ g, IsTable v'.mem s g ↔ IsTable v.mem s g := by
  have hsound : v'.Sound := h.sound.of_same hpmm hlent
  obtain ⟨h', hreach, hleaf⟩ := h.congr hsound (fun g hg => by rwa [← hpmm]) fun s hs g hg =>
    hmem g fun e => hf s hs (e ▸ hg)
  refine ⟨h', fun s hs x => hleaf s hs _ _ rfl, fun s hs g => ?_⟩
  exact exists_congr fun q => and_congr_right fun hq => by rw [hreach s hs q hq]

end Spaces

/-- An empty PML4 is its only table. -/
theorem EmptyPml4.isTable_iff {root f : ℕ} {v : Vm} (h : EmptyPml4 root v) :
    IsTable v.mem root f ↔ f = root := by
  constructor
  · rintro ⟨q, -, hreach⟩
    exact (h.reach_eq_some hreach).2
  · rintro rfl
    exact ⟨[], Nat.zero_le _, rfl⟩

/-- An address space with an empty PML4. -/
theorem EmptyPml4.spaces {root : ℕ} {v : Vm} (h : EmptyPml4 root v) : Spaces {root} v := by
  have hnone : ∀ (q : Path) i, q.length = 3 → leafEntry v.mem root q i = none := by
    intro q i hq
    rw [leafEntry]
    cases hf : reach v.mem root q with
    | none => rfl
    | some f => exact absurd hq (by rw [(h.reach_eq_some hf).1]; decide)
  refine ⟨h.sound, ?_, ?_, ?_, ?_⟩
  · rintro s rfl
    exact h.mapInv.space
  · rintro s rfl t rfl f - -
    rfl
  · rintro s rfl q i e hq he
    rw [hnone q i hq] at he
    cases he
  · rintro s rfl t - q i e hq he
    rw [hnone q i hq] at he
    cases he

end OpenIDP.Memory
