import OpenIDP.Memory.Forest

/-!
# Mapping a page

`vmm_map_page` goes down three levels of tables, adds the tables that are missing, and
writes the entry for the page. In a forest this adds places and takes none away, and the
processor finds what it found before for every page of the upper half, except the one that
is mapped there.

## Main definitions

* `Grown` — tables and frames in use are only added
* `UpperSame` — the translation of the pages of the upper half stays
* `SameView` — the pages of the tasks stay, with their contents

## Main results

* `Forest.upperSame` — writes the upper half does not see
* `Forest.getOrAllocTable`, `Forest.vmmMapPage` — the functions of `vmm.c`
* `Forest.mapHeapPage` — a page of the kernel heap, which no task sees
-/

namespace OpenIDP.Memory

open OpenIDP.Math

/-- Tables are added at frames that were free, and no frame in use is taken back. -/
structure Grown (v : Vm) (place : Places) (v' : Vm) (place' : Places) : Prop where
  keep : ∀ {f x}, place f = some x → place' f = some x
  fresh : ∀ {f}, place f = none → place' f ≠ none → v.pmm.Free f
  free : ∀ {f}, v'.pmm.Free f → v.pmm.Free f
  lent : v.lent ⊆ v'.lent
  freed : v'.freed = v.freed

/-- The first index lies in the upper half of a PML4. -/
def UpperPath (path : Path) : Prop := ∀ i ∈ path.head?, 256 ≤ i.val

/-- For every page of the upper half but the excepted ones, the processor finds the same
from the kernel's PML4 and from those of the tasks. -/
def UpperSame (κ : ℕ) (roots : Set ℕ) (except : Set Path) (mem mem' : Frames) : Prop :=
  ∀ x, x = κ ∨ x ∈ roots → ∀ path : Path, path.length = 4 → UpperPath path → path ∉ except →
    translate mem' x path = translate mem x path

section Relations

variable {κ : ℕ} {roots : Set ℕ} {except except' : Set Path} {mem mem' mem'' : Frames}
variable {v v' v'' : Vm} {place place' place'' : Places} {f : ℕ}

theorem Grown.refl (v : Vm) (place : Places) : Grown v place v place :=
  ⟨id, fun h h' => absurd h h', id, subset_rfl, rfl⟩

theorem Grown.trans (h : Grown v place v' place') (h' : Grown v' place' v'' place'') :
    Grown v place v'' place'' := by
  refine ⟨fun hf => h'.keep (h.keep hf), fun {f} hf hf' => ?_, fun hf => h.free (h'.free hf),
    h.lent.trans h'.lent, h'.freed.trans h.freed⟩
  by_cases hmid : place' f = none
  · exact h.free (h'.fresh hmid hf')
  · exact h.fresh hf hmid

/-- What is in use and holds no table never holds one. -/
theorem Grown.place_none (h : Grown v place v' place') (hf : place f = none)
    (hused : ¬ v.pmm.Free f) : place' f = none := by
  by_contra hne
  exact hused (h.fresh hf hne)

theorem UpperSame.refl (κ : ℕ) (roots : Set ℕ) (mem : Frames) : UpperSame κ roots ∅ mem mem :=
  fun _ _ _ _ _ _ => rfl

theorem UpperSame.trans (h : UpperSame κ roots except mem mem')
    (h' : UpperSame κ roots except' mem' mem'') :
    UpperSame κ roots (except ∪ except') mem mem'' := by
  intro x hx path hlen hup hnot
  rw [h' x hx path hlen hup fun hmem => hnot (Or.inr hmem),
    h x hx path hlen hup fun hmem => hnot (Or.inl hmem)]

theorem UpperSame.mono (h : UpperSame κ roots except mem mem') (hsub : except ⊆ except') :
    UpperSame κ roots except' mem mem' :=
  fun x hx path hlen hup hnot => h x hx path hlen hup fun hmem => hnot (hsub hmem)

end Relations

namespace Forest

variable {κ : ℕ} {fb roots : Set ℕ} {v v' : Vm} {place : Places} {except : Set Path}
variable {f c t r virt phys flags : ℕ} {p q : Path} {i : Fin 512} {mem' : Frames}

/-! ## What the upper half does not see -/

/-- A word of a table changes in a way that no walk notices: not at all, in bits that do not
matter above the last level, or by leading to an empty table where nothing was. -/
def Harmless (mem mem' : Frames) (p : Path) (f : ℕ) (i : Fin 512) : Prop :=
  mem' f i = mem f i ∨ p.length < 3 ∧
    (¬ IsHuge (mem f i) ∧ SameEntry (mem f i) (mem' f i) ∨
      ¬ IsPresent (mem f i) ∧ ¬ IsHuge (mem' f i) ∧
        ∀ j, ¬ IsPresent (mem' (entryFrame (mem' f i)) j))

/-- The walk from a table of the kernel. -/
theorem translate_eq (hF : Forest κ fb v roots place) (hexcept : ∀ h ∈ except, h.length = 4)
    (hkept : ∀ g p j, place g = some (κ, p) → (p = [] → 256 ≤ j.val) → p ++ [j] ∉ except →
      Harmless v.mem mem' p g j)
    (hf : place f = some (κ, p)) (hlen : p.length + q.length = 4) (hup : p = [] → UpperPath q)
    (hnot : p ++ q ∉ except) : translate mem' f q = translate v.mem f q := by
  induction q generalizing f p with
  | nil => rfl
  | cons i rest ih =>
    rw [List.length_cons] at hlen
    have hhalf : Half κ κ p i := fun hp => iff_of_true rfl (hup hp i rfl)
    have hhere : p ++ [i] ∉ except := by
      by_cases hrest : rest = []
      · rwa [hrest] at hnot
      · intro hmem
        have hfour := hexcept _ hmem
        have hpos := List.length_pos_iff.mpr hrest
        rw [List.length_append, List.length_singleton] at hfour
        omega
    have hstep : ∀ next, place next = some (κ, p ++ [i]) →
        translate mem' next rest = translate v.mem next rest := by
      intro next hnext
      refine ih hnext ?_ (fun hnil => absurd hnil (by simp)) ?_
      · rw [List.length_append, List.length_singleton]
        omega
      · rwa [List.append_assoc]
    rw [translate, translate]
    rcases hkept f p i hf (fun hp => hup hp i rfl) hhere with hsame | ⟨hp, hchange⟩
    · rw [hsame]
      split_ifs with hpresent hstop
      · rfl
      · obtain ⟨hrest, hhuge⟩ := not_or.mp hstop
        have hpos := List.length_pos_iff.mpr hrest
        exact hstep _ (hF.table_entry hf hhalf (by omega) hpresent fun _ => hhuge)
      · rfl
    · have hrest : rest ≠ [] := by
        rintro rfl
        rw [List.length_nil] at hlen
        omega
      rcases hchange with ⟨hhuge, hframe, hpresent, hhuge'⟩ | ⟨habsent, hhuge', hempty⟩
      · simp only [hpresent, hhuge', hrest, hhuge, or_self, if_false, hframe]
        split_ifs with hpres
        · exact hstep _ (hF.table_entry hf hhalf hp hpres fun _ => hhuge)
        · rfl
      · -- the new table is empty, so the walk finds nothing there
        rw [if_neg habsent]
        split_ifs with hpresent hstop
        · exact absurd hstop (not_or.mpr ⟨hrest, hhuge'⟩)
        · cases rest with
          | nil => exact absurd rfl hrest
          | cons j rest => rw [translate, if_neg (hempty j)]
        · rfl

theorem upperSame (hF : Forest κ fb v roots place) (hexcept : ∀ h ∈ except, h.length = 4)
    (hkept : ∀ g p j, place g = some (κ, p) → (p = [] → 256 ≤ j.val) → p ++ [j] ∉ except →
      Harmless v.mem mem' p g j)
    (hroots : ∀ r ∈ roots, ∀ j : Fin 512, 256 ≤ j.val → mem' r j = v.mem r j) :
    UpperSame κ roots except v.mem mem' := by
  rintro x (rfl | hx) path hlen hup hnot
  · refine hF.translate_eq hexcept hkept hF.kernel_place ?_ (fun _ => hup) ?_
    · rw [List.length_nil, hlen]
    · rwa [List.nil_append]
  · cases path with
    | nil => cases hlen
    | cons i rest =>
      have hi : 256 ≤ i.val := hup i rfl
      rw [List.length_cons] at hlen
      rw [translate, translate, hroots x hx i hi]
      split_ifs with hpres hstop
      · rfl
      · -- the PML4 of a task leads into the kernel's tables
        obtain ⟨hpresent, hframe, hhuge⟩ := hF.shared x hx i hi hpres
        have hplain := fun h => (not_or.mp hstop).2 (hhuge.mpr h)
        have hnext := hF.table_entry hF.kernel_place (fun _ => iff_of_true rfl hi) (by decide)
          hpresent fun _ => hplain
        rw [hframe]
        refine hF.translate_eq hexcept hkept hnext ?_ (fun hnil => by simp at hnil) hnot
        rw [List.nil_append, List.length_singleton]
        omega
      · rfl

/-! ## The functions -/

theorem ne_of_length_ne (hf : place f = some (r, p)) {g s : ℕ} (hg : place g = some (s, q))
    (hne : p.length ≠ q.length) : f ≠ g := by
  rintro rfl
  obtain ⟨-, rfl⟩ := Prod.mk.inj (Option.some_inj.mp (hf.symm.trans hg))
  exact hne rfl

/-- One level down: the table found or added has its place behind the entry. -/
theorem getOrAllocTable (hF : Forest κ fb v roots place) (ht : place t = some (r, p))
    (hp : p.length < 3) (hhalf : Half κ r p i)
    (hplain : r = κ → IsPresent (v.mem t i) → ¬ IsHuge (v.mem t i))
    (h : v.getOrAllocTable t i = some (c, v')) :
    ∃ place', Forest κ fb v' roots place' ∧ Grown v place v' place' ∧
      UpperSame κ roots ∅ v.mem v'.mem ∧ place' c = some (r, p ++ [i]) ∧
      nextTable v'.mem t i = some c ∧
      ∀ g j, ¬ v.pmm.Free g → (g = t → j ≠ i) → v'.mem g j = v.mem g j := by
  -- the entry written is not one of the upper half of a task's PML4
  have hlow : ∀ s ∈ roots, ∀ j : Fin 512, 256 ≤ j.val → s = t → j ≠ i := by
    rintro s hs j hj rfl rfl
    obtain ⟨rfl, rfl⟩ := Prod.mk.inj (Option.some_inj.mp ((hF.root_place s hs).symm.trans ht))
    exact hF.kernel_notMem ((hhalf rfl).mpr hj ▸ hs)
  by_cases hpresent : IsPresent (v.mem t i)
  · -- the table is there, and becomes accessible to user programs
    obtain ⟨v₁, hv₁⟩ : ∃ v₁, v₁ = if v.mem t i &&& vmmUser = 0 then
        v.setWord t i (v.mem t i ||| vmmUser) else v := ⟨_, rfl⟩
    rw [Vm.getOrAllocTable, if_pos hpresent, ← hv₁] at h
    obtain ⟨rfl, rfl⟩ := Prod.mk.inj (Option.some_inj.mp h)
    have hentry : SameEntry (v.mem t i) (v₁.mem t i) ∧
        (∀ g j, (g = t → j ≠ i) → v₁.mem g j = v.mem g j) ∧
        v₁.pmm = v.pmm ∧ v₁.lent = v.lent ∧ v₁.freed = v.freed := by
      rw [hv₁]
      split_ifs
      · refine ⟨?_, fun g j hgj => ?_, rfl, rfl, rfl⟩
        · rw [Vm.mem_setWord, if_pos ⟨rfl, rfl⟩]
          exact sameEntry_user _
        · rw [Vm.mem_setWord, if_neg fun hgt => hgj hgt.1 hgt.2]
      · exact ⟨SameEntry.refl _, fun _ _ _ => rfl, rfl, rfl, rfl⟩
    obtain ⟨hsame, hkept, hpmm, hlent, hfreed⟩ := hentry
    have hall : ∀ g j, SameEntry (v.mem g j) (v₁.mem g j) := by
      intro g j
      by_cases hhere : g = t ∧ j = i
      · rw [hhere.1, hhere.2]
        exact hsame
      · rw [hkept g j fun hgt hji => hhere ⟨hgt, hji⟩]
        exact SameEntry.refl _
    have hF₁ : Forest κ fb v₁ roots place := by
      refine hF.congr (hF.sound.of_same hpmm hlent) ?_ hlent.ge ?_ fun g _ j => hall g j
      · rw [hpmm]
        exact fun g hg => hg
      · rw [hlent]
        exact hF.fb_not_lent
    refine ⟨place, hF₁, ⟨id, fun hf hf' => absurd hf hf', ?_, hlent.ge, hfreed⟩, ?_, ?_, ?_,
      fun g j _ hgj => hkept g j hgj⟩
    · rw [hpmm]
      exact id
    · refine hF.upperSame (fun _ h => absurd h (Set.notMem_empty _)) (fun g q j hg _ _ => ?_)
        fun s hs j hj => hkept s j (hlow s hs j hj)
      by_cases hhere : g = t ∧ j = i
      · obtain ⟨rfl, rfl⟩ := hhere
        obtain ⟨rfl, rfl⟩ := Prod.mk.inj (Option.some_inj.mp (ht.symm.trans hg))
        exact Or.inr ⟨hp, Or.inl ⟨hplain rfl hpresent, hsame⟩⟩
      · exact Or.inl (hkept g j fun hgt hji => hhere ⟨hgt, hji⟩)
    · rw [hsame.1]
      exact hF.table_entry ht hhalf hp hpresent fun hr => hplain hr hpresent
    · exact nextTable_eq_some.mpr ⟨hsame.2.1.mpr hpresent, rfl⟩
  · -- a new table is added
    rw [Vm.getOrAllocTable, if_neg hpresent] at h
    split at h
    · cases h
    · next f v₁ halloc =>
      obtain ⟨rfl, rfl⟩ := Prod.mk.inj (Option.some_inj.mp h)
      obtain ⟨hfree, -, hmem, hlent, hfreed, hfree', -⟩ := hF.sound.allocFrame_some halloc
      obtain ⟨hF₁, hunseen, hf⟩ := hF.alloc halloc
      have hw := entry_table (hF₁.sound.isFrame hf)
      have hrights := entry_table_rights f
      have hF₂ := hF₁.newTable hunseen hf ht hp hhalf (by rwa [hmem])
        ⟨hw.1, hw.2.1, hrights.1, hrights.2, hw.2.2⟩
      have hne : ∀ {g}, place g ≠ none → g ≠ f := fun hg e => hg (e ▸ hunseen.1)
      have hkept : ∀ g j, g ≠ f → (g = t → j ≠ i) → ((v₁.clearPage f).setWord t i
          (f ||| vmmPresent ||| vmmWrite ||| vmmUser)).mem g j = v.mem g j := by
        intro g j hg hgj
        rw [Vm.mem_setWord, if_neg fun hgt => hgj hgt.1 hgt.2, Vm.clearPage, hmem]
        exact congrFun (Function.update_of_ne hg _ _) j
      have htf : t ≠ f := hne (by rw [ht]; exact Option.some_ne_none _)
      have hword : ((v₁.clearPage f).setWord t i
          (f ||| vmmPresent ||| vmmWrite ||| vmmUser)).mem t i =
            f ||| vmmPresent ||| vmmWrite ||| vmmUser := by
        rw [Vm.mem_setWord, if_pos ⟨rfl, rfl⟩]
      have hempty : ∀ j, ¬ IsPresent (((v₁.clearPage f).setWord t i
          (f ||| vmmPresent ||| vmmWrite ||| vmmUser)).mem f j) := by
        intro j
        rw [Vm.mem_setWord, if_neg fun h => htf h.1.symm, Vm.clearPage]
        simp [IsPresent]
      refine ⟨_, hF₂, ⟨fun {g x} hg => ?_, fun {g} hg hg' => ?_, fun {g} hg => ?_, ?_, hfreed⟩,
        ?_, Function.update_self _ _ _, nextTable_eq_some.mpr ?_, fun g j hg hgj =>
          hkept g j (fun e => hg (e ▸ hfree)) hgj⟩
      · have hgf : g ≠ f := hne (by rw [hg]; exact Option.some_ne_none _)
        rw [Function.update_of_ne hgf]
        exact hg
      · by_cases hgf : g = f
        · rw [hgf]
          exact hfree
        · rw [Function.update_of_ne hgf] at hg'
          exact absurd hg hg'
      · exact ((hfree' g).mp hg).1
      · change v.lent ⊆ v₁.lent
        rw [hlent]
        exact Set.subset_insert _ _
      · refine hF.upperSame (fun _ h => absurd h (Set.notMem_empty _)) (fun g q j hg _ _ => ?_)
          fun s hs j hj => hkept s j (hne ?_) (hlow s hs j hj)
        · have hgf : g ≠ f := hne (by rw [hg]; exact Option.some_ne_none _)
          by_cases hhere : g = t ∧ j = i
          · obtain ⟨rfl, rfl⟩ := hhere
            obtain ⟨rfl, rfl⟩ := Prod.mk.inj (Option.some_inj.mp (ht.symm.trans hg))
            refine Or.inr ⟨hp, Or.inr ⟨hpresent, ?_, ?_⟩⟩
            · rw [hword]
              exact hw.2.2
            · rw [hword, hw.1]
              exact hempty
          · exact Or.inl (hkept g j hgf fun hgt hji => hhere ⟨hgt, hji⟩)
        · rw [hF.root_place s hs]
          exact Option.some_ne_none _
      · rw [hword]
        exact ⟨hw.2.1, hw.1⟩

/-- `vmm_map_page`, for a page of the lower half in the tables of a task, or for a page of
the kernel heap in those of the kernel. -/
theorem vmmMapPage (hF : Forest κ fb v roots place) (hr : place r = some (r, []))
    (hhalf : r = κ ↔ ¬ InUserHalf virt)
    (hheap : r = κ → kheapStart ≤ virt ∧ virt < kheapMax)
    (hpage : r ≠ κ → place (entryFrame phys) = none ∧
      (entryFrame phys ∈ v.lent ∨ entryFrame phys ∈ fb))
    (hflags : entryFrame flags = 0) (h : v.vmmMapPage r virt phys flags = some v') :
    ∃ place', Forest κ fb v' roots place' ∧ Grown v place v' place' ∧
      UpperSame κ roots {path | r = κ ∧ path = indices virt} v.mem v'.mem ∧
      follow v'.mem r (indices virt) = some (entryFrame phys) ∧
      (∀ g, ¬ v.pmm.Free g → (∀ q, place g ≠ some (r, q)) → v'.mem g = v.mem g) ∧
      ∀ j, j ≠ pml4Index virt → v'.mem r j = v.mem r j := by
  have hhalf₄ : Half κ r [] (pml4Index virt) := fun _ => hhalf.trans Nat.not_lt
  have hhalf' : ∀ (p : Path) (i j : Fin 512), Half κ r (p ++ [i]) j := fun p i j hnil =>
    absurd hnil (by simp)
  -- in the range of the kernel heap there are no huge pages to step on
  have hplain : ∀ {u : Vm} {pl : Places} {g : ℕ} {q : Path} {j : Fin 512},
      Forest κ fb u roots pl → pl g = some (r, q) → q.length < 3 → q ++ [j] <+: indices virt →
        r = κ → IsPresent (u.mem g j) → ¬ IsHuge (u.mem g j) := by
    intro u pl g q j hu hg hq hpre hrκ
    rw [hrκ] at hg
    exact hu.heap_plain hg hq ⟨virt, (hheap hrκ).1, (hheap hrκ).2, hpre⟩
  simp only [Vm.vmmMapPage, Option.bind_eq_bind, Option.bind_eq_some_iff, Prod.exists,
    Option.some_inj] at h
  obtain ⟨pdpt, v₁, hstep₁, pd, v₂, hstep₂, pt, v₃, hstep₃, rfl⟩ := h
  obtain ⟨place₁, hF₁, hgrown₁, hupper₁, hpdpt, hnext₁, hkept₁⟩ :=
    hF.getOrAllocTable hr (by decide) hhalf₄
      (hplain hF hr (by decide) ⟨[pdptIndex virt, pdIndex virt, ptIndex virt], rfl⟩) hstep₁
  obtain ⟨place₂, hF₂, hgrown₂, hupper₂, hpd, hnext₂, hkept₂⟩ :=
    hF₁.getOrAllocTable hpdpt (by simp) (hhalf' [] _ _)
      (hplain hF₁ hpdpt (by simp) ⟨[pdIndex virt, ptIndex virt], rfl⟩) hstep₂
  obtain ⟨place₃, hF₃, hgrown₃, hupper₃, hpt, hnext₃, hkept₃⟩ :=
    hF₂.getOrAllocTable hpd (by simp) (hhalf' _ _ _)
      (hplain hF₂ hpd (by simp) ⟨[ptIndex virt], rfl⟩) hstep₃
  have hgrown := (hgrown₁.trans hgrown₂).trans hgrown₃
  have hentry := @entry_page flags phys hflags
  have hF' := hF₃.setPage (i := ptIndex virt)
    (w := (phys &&& pageAlignMask) ||| flags ||| vmmPresent) hpt (by simp) (fun hrκ _ => by
      obtain ⟨hnone, hin⟩ := hpage hrκ
      rw [hentry.1]
      refine ⟨hgrown.place_none hnone fun hfree => ?_, hin.imp_left fun h => hgrown.lent h⟩
      rcases hin with hlent | hfb
      · exact hF.sound.not_free hlent hfree
      · exact hF.fb_not_free _ hfb hfree)
  have hr₁ : place₁ r = some (r, []) := hgrown₁.keep hr
  have hr₂ : place₂ r = some (r, []) := hgrown₂.keep hr₁
  refine ⟨place₃, hF', ?_, ?_, ?_, fun g hg hplace => ?_, fun j hj => ?_⟩
  · exact ⟨hgrown.keep, hgrown.fresh, hgrown.free, hgrown.lent, hgrown.freed⟩
  · have hleaf : UpperSame κ roots {path | r = κ ∧ path = indices virt} v₃.mem
        (v₃.setWord pt (ptIndex virt)
          ((phys &&& pageAlignMask) ||| flags ||| vmmPresent)).mem := by
      refine hF₃.upperSame ?_ (fun g q j hg _ hnot => Or.inl ?_) fun s hs j _ => ?_
      · rintro path ⟨-, rfl⟩
        rfl
      · rw [Vm.mem_setWord]
        refine if_neg ?_
        rintro ⟨rfl, rfl⟩
        obtain ⟨rfl, rfl⟩ := Prod.mk.inj (Option.some_inj.mp (hpt.symm.trans hg))
        exact hnot ⟨rfl, rfl⟩
      · rw [Vm.mem_setWord]
        exact if_neg fun hsp => ne_of_length_ne (hF₃.root_place s hs) hpt (by simp) hsp.1
    exact (((hupper₁.trans hupper₂).trans hupper₃).trans hleaf).mono (by simp)
  · -- the tables of the three levels are different frames, so each entry stays as written
    have hpdpt₂ := hgrown₂.keep hpdpt
    have hword : ∀ {g : ℕ} {q : Path}, place₃ g = some (r, q) → q.length < 3 → ∀ j,
        (v₃.setWord pt (ptIndex virt)
          ((phys &&& pageAlignMask) ||| flags ||| vmmPresent)).mem g j = v₃.mem g j := by
      intro g q hg hq j
      rw [Vm.mem_setWord]
      refine if_neg fun hgp => ne_of_length_ne hg hpt ?_ hgp.1
      simp only [List.length_append, List.length_cons, List.length_nil]
      omega
    have hlast : nextTable (v₃.setWord pt (ptIndex virt)
        ((phys &&& pageAlignMask) ||| flags ||| vmmPresent)).mem pt (ptIndex virt) =
          some (entryFrame phys) := by
      rw [nextTable_eq_some, Vm.mem_setWord, if_pos ⟨rfl, rfl⟩]
      exact ⟨hentry.2, hentry.1⟩
    have hthird : nextTable (v₃.setWord pt (ptIndex virt)
        ((phys &&& pageAlignMask) ||| flags ||| vmmPresent)).mem pd (pdIndex virt) = some pt := by
      rw [nextTable, hword (hgrown₃.keep hpd) (by simp)]
      exact hnext₃
    have hsecond : nextTable (v₃.setWord pt (ptIndex virt)
        ((phys &&& pageAlignMask) ||| flags ||| vmmPresent)).mem pdpt (pdptIndex virt) =
          some pd := by
      rw [nextTable, hword (hgrown₃.keep hpdpt₂) (by simp),
        hkept₃ _ _ (hF₂.not_free hpdpt₂) fun e => absurd e (ne_of_length_ne hpdpt₂ hpd (by simp))]
      exact hnext₂
    have hfirst : nextTable (v₃.setWord pt (ptIndex virt)
        ((phys &&& pageAlignMask) ||| flags ||| vmmPresent)).mem r (pml4Index virt) =
          some pdpt := by
      rw [nextTable, hword (hgrown₃.keep hr₂) (by decide),
        hkept₃ _ _ (hF₂.not_free hr₂) fun e => absurd e (ne_of_length_ne hr₂ hpd (by simp)),
        hkept₂ _ _ (hF₁.not_free hr₁) fun e => absurd e (ne_of_length_ne hr₁ hpdpt (by simp))]
      exact hnext₁
    simp only [indices, follow, hfirst, hsecond, hthird, hlast, Option.bind_some]
  · -- a frame in use that is none of the tables written to
    have hne : ∀ {u : Vm} {pl : Places} {t : ℕ} {q : Path}, Grown v place u pl →
        pl t = some (r, q) → g ≠ t := by
      rintro u pl t q hgrow ht rfl
      cases hold : place g with
      | none => exact hg (hgrow.fresh hold (by rw [ht]; exact Option.some_ne_none _))
      | some x =>
        obtain rfl := Option.some_inj.mp ((hgrow.keep hold).symm.trans ht)
        exact hplace q hold
    have hg₁ : ¬ v₁.pmm.Free g := fun hfree => hg (hgrown₁.free hfree)
    have hg₂ : ¬ v₂.pmm.Free g := fun hfree => hg₁ (hgrown₂.free hfree)
    funext j
    rw [Vm.mem_setWord, if_neg fun e => hne hgrown hpt e.1,
      hkept₃ g j hg₂ fun e => absurd e (hne (hgrown₁.trans hgrown₂) hpd),
      hkept₂ g j hg₁ fun e => absurd e (hne hgrown₁ hpdpt),
      hkept₁ g j hg fun e => absurd e (hne (Grown.refl v place) hr)]
  · rw [Vm.mem_setWord, if_neg fun e => ne_of_length_ne (hgrown₃.keep hr₂) hpt (by simp) e.1,
      hkept₃ _ _ (hF₂.not_free hr₂) fun e => absurd e (ne_of_length_ne hr₂ hpd (by simp)),
      hkept₂ _ _ (hF₁.not_free hr₁) fun e => absurd e (ne_of_length_ne hr₁ hpdpt (by simp)),
      hkept₁ _ _ (hF.not_free hr) fun _ => hj]

end Forest

/-! ## The kernel heap grows -/

/-- The pages of the PML4s in `roots` are the same, with the same contents. -/
structure SameView (roots : Set ℕ) (v v' : Vm) : Prop where
  entry_eq : ∀ s ∈ roots, ∀ x, pageEntry v'.mem s x = pageEntry v.mem s x
  page_eq : ∀ s ∈ roots, ∀ x e, pageEntry v.mem s x = some e →
    v'.mem (entryFrame e) = v.mem (entryFrame e)

section Growth

variable {roots : Set ℕ} {κ : ℕ} {fb : Set ℕ} {v v' v'' : Vm} {place : Places}
variable {virt phys flags : ℕ}

theorem SameView.refl : SameView roots v v := ⟨fun _ _ _ => rfl, fun _ _ _ _ _ => rfl⟩

theorem SameView.trans (h : SameView roots v v') (h' : SameView roots v' v'') :
    SameView roots v v'' := by
  refine ⟨fun s hs x => (h'.entry_eq s hs x).trans (h.entry_eq s hs x), fun s hs x e he => ?_⟩
  exact (h'.page_eq s hs x e ((h.entry_eq s hs x).trans he)).trans (h.page_eq s hs x e he)

/-- What changes only tables of the kernel and free frames is not seen. -/
theorem Forest.sameView (hF : Forest κ fb v roots place) (hsound : v'.Sound)
    (hfree : ∀ g, v'.pmm.Free g → v.pmm.Free g)
    (hmem : ∀ g, ¬ v.pmm.Free g → (∀ q, place g ≠ some (κ, q)) → v'.mem g = v.mem g) :
    SameView roots v v' := by
  have hspaces := hF.spaces
  have htask : ∀ s ∈ roots, ∀ f, IsTable v.mem s f → v'.mem f = v.mem f := by
    intro s hs f hf
    obtain ⟨q, hq⟩ := hF.place_of_isTable hs hf
    refine hmem f (hF.not_free hq) fun q' hq' => hF.kernel_notMem ?_
    obtain ⟨rfl, -⟩ := Prod.mk.inj (Option.some_inj.mp (hq'.symm.trans hq))
    exact hs
  obtain ⟨-, -, hleaf⟩ := hspaces.congr hsound hfree htask
  refine ⟨fun s hs x => hleaf s hs _ _ rfl, fun s hs x e he => ?_⟩
  refine hmem _ (hspaces.page_used s hs _ _ e rfl he) fun q hq => ?_
  rw [(hF.place_of_leaf hs rfl he).1] at hq
  cases hq

/-- A page of the kernel heap is mapped. -/
theorem Forest.mapHeapPage (hF : Forest κ fb v roots place) (hlow : kheapStart ≤ virt)
    (hhigh : virt < kheapMax) (hflags : entryFrame flags = 0)
    (h : v.vmmMapPage κ virt phys flags = some v') :
    ∃ place', Forest κ fb v' roots place' ∧ Grown v place v' place' ∧ SameView roots v v' ∧
      ∀ j : Fin 512, j.val < 256 → v'.mem κ j = v.mem κ j := by
  have hhalf : ¬ InUserHalf virt := by
    rw [InUserHalf, pml4Index, tableIndex, Fin.val_ofNat, Nat.shiftRight_eq_div_pow]
    rw [kheapStart] at hlow
    rw [kheapMax] at hhigh
    omega
  obtain ⟨place', hF', hgrown, -, -, hmem, hroot⟩ := hF.vmmMapPage hF.kernel_place
    (iff_of_true rfl hhalf) (fun _ => ⟨hlow, hhigh⟩) (fun hne => absurd rfl hne) hflags h
  refine ⟨place', hF', hgrown, hF.sameView hF'.sound (fun g hg => hgrown.free hg) hmem,
    fun j hj => hroot j ?_⟩
  rintro rfl
  exact hhalf hj

end Growth

end OpenIDP.Memory
