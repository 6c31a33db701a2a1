import OpenIDP.Memory.KHeap
import OpenIDP.Memory.Spaces

/-!
# Who owns which page table

Every page-table frame has one place: a PML4 and the indices that lead to it. The
kernel's PML4 owns the tables of the upper half of the address space, the PML4 of a task
owns those of the lower half, and the upper half of a task's PML4 leads into the kernel's
tables. That each frame has one place is what makes the tables of different tasks
disjoint, and it is a condition on single entries, so that one write is easy to check.

## Main definitions

* `Forest` — the tables and their places

## Main results

* `Forest.newTable`, `Forest.setPage`, `Forest.addRoot` — the changes that keep the places
* `Forest.follow_table` — what the tables of a task lead to
* `Forest.spaces` — the tables of the tasks are disjoint trees
-/

namespace OpenIDP.Memory

open OpenIDP.Math

/-- The PML4 a table belongs to, and how it is reached from there. -/
abbrev Places := ℕ → Option (ℕ × Path)

/-- The end of the range set aside for the kernel heap: `KHEAP_MAX`. -/
def kheapMax : ℕ := 0xFFFF800100000000

/-- The first indices of a page in the range of the kernel heap. -/
def HeapPath (path : Path) : Prop :=
  ∃ virt, kheapStart ≤ virt ∧ virt < kheapMax ∧ path <+: indices virt

/-- The kernel owns the upper half of its PML4, a task the lower half of its own. -/
def Half (κ r : ℕ) (path : Path) (index : Fin 512) : Prop :=
  path = [] → (r = κ ↔ 256 ≤ index.val)

/-- Page tables and their places. `κ` is the kernel's PML4, `fb` are the frames of the
framebuffer, which the page allocator does not manage, and `roots` the PML4s of tasks. -/
structure Forest (κ : ℕ) (fb : Set ℕ) (v : Vm) (roots : Set ℕ) (place : Places) : Prop where
  sound : v.Sound
  kernel_place : place κ = some (κ, [])
  root_place : ∀ r ∈ roots, place r = some (r, [])
  kernel_notMem : κ ∉ roots
  root_mem : ∀ {f r p}, place f = some (r, p) → r ≠ κ → r ∈ roots
  top : ∀ {f r}, place f = some (r, []) → f = r
  length_le : ∀ {f r p}, place f = some (r, p) → p.length ≤ 3
  kernel_not_free : ∀ {f p}, place f = some (κ, p) → ¬ v.pmm.Free f
  task_lent : ∀ {f r p}, place f = some (r, p) → r ≠ κ → f ∈ v.lent
  fb_not_free : ∀ f ∈ fb, ¬ v.pmm.Free f
  fb_not_lent : ∀ f ∈ fb, f ∉ v.lent
  table_entry : ∀ {f r p i}, place f = some (r, p) → Half κ r p i → p.length < 3 →
    IsPresent (v.mem f i) → (r = κ → ¬ IsHuge (v.mem f i)) →
      place (entryFrame (v.mem f i)) = some (r, p ++ [i])
  page_entry : ∀ {f r p i}, place f = some (r, p) → r ≠ κ → p.length = 3 →
    IsPresent (v.mem f i) → place (entryFrame (v.mem f i)) = none ∧
      (entryFrame (v.mem f i) ∈ v.lent ∨ entryFrame (v.mem f i) ∈ fb)
  task_plain : ∀ {f r p i}, place f = some (r, p) → r ≠ κ → (p = [] → i.val < 256) →
    p.length < 3 → IsPresent (v.mem f i) → TableEntry (v.mem f i)
  shared : ∀ r ∈ roots, ∀ i : Fin 512, 256 ≤ i.val → IsPresent (v.mem r i) →
    IsPresent (v.mem κ i) ∧ entryFrame (v.mem r i) = entryFrame (v.mem κ i) ∧
      (IsHuge (v.mem r i) ↔ IsHuge (v.mem κ i))
  heap_plain : ∀ {f p i}, place f = some (κ, p) → p.length < 3 → HeapPath (p ++ [i]) →
    IsPresent (v.mem f i) → ¬ IsHuge (v.mem f i)

namespace Forest

variable {κ : ℕ} {fb roots : Set ℕ} {v v' : Vm} {place : Places}
variable {f g t r : ℕ} {p q : Path} {i : Fin 512} {w : ℕ}

/-- A frame that no table and no page of a task occupies. -/
def Unseen (κ : ℕ) (v : Vm) (place : Places) (f : ℕ) : Prop :=
  place f = none ∧ ∀ t r p i, place t = some (r, p) → r ≠ κ → p.length = 3 →
    IsPresent (v.mem t i) → entryFrame (v.mem t i) ≠ f

theorem not_free (hF : Forest κ fb v roots place) (hf : place f = some (r, p)) :
    ¬ v.pmm.Free f := by
  by_cases hr : r = κ
  · exact hF.kernel_not_free (hr ▸ hf)
  · exact hF.sound.not_free (hF.task_lent hf hr)

theorem unseen_of_free (hF : Forest κ fb v roots place) (hf : v.pmm.Free f) :
    Unseen κ v place f := by
  constructor
  · cases hplace : place f with
    | none => rfl
    | some x => exact absurd hf (hF.not_free hplace)
  · rintro t r p i ht hr hp hpresent rfl
    rcases (hF.page_entry ht hr hp hpresent).2 with hlent | hfb
    · exact hF.sound.not_free hlent hf
    · exact hF.fb_not_free _ hfb hf

/-- Entries that lead to the same frame in the same way, the second with all the rights of the
first. -/
def SameEntry (e e' : ℕ) : Prop :=
  entryFrame e' = entryFrame e ∧ (IsPresent e' ↔ IsPresent e) ∧ (IsHuge e' ↔ IsHuge e) ∧
    ∀ flag, e &&& flag ≠ 0 → e' &&& flag ≠ 0

theorem SameEntry.refl (e : ℕ) : SameEntry e e := ⟨rfl, Iff.rfl, Iff.rfl, fun _ => id⟩

theorem sameEntry_user (e : ℕ) : SameEntry e (e ||| vmmUser) := by
  obtain ⟨hframe, hpresent, hhuge⟩ := @entry_or_user e
  refine ⟨hframe, hpresent, hhuge, fun flag hflag => ?_⟩
  rw [Nat.and_or_distrib_right, Ne, Nat.or_eq_zero_iff]
  exact fun hzero => hflag hzero.1

theorem SameEntry.tableEntry {e e' : ℕ} (h : SameEntry e e') (he : TableEntry e) :
    TableEntry e' :=
  ⟨h.2.2.2 _ he.write, h.2.2.2 _ he.user, fun hhuge => he.not_huge (h.2.2.1.mp hhuge)⟩

/-- The forest stays when frames are handed out and entries change in other bits. -/
theorem congr (hF : Forest κ fb v roots place) (hsound : v'.Sound)
    (hfree : ∀ g, v'.pmm.Free g → v.pmm.Free g) (hlent : v.lent ⊆ v'.lent)
    (hfb : ∀ g ∈ fb, g ∉ v'.lent)
    (hmem : ∀ f, place f ≠ none → ∀ i, SameEntry (v.mem f i) (v'.mem f i)) :
    Forest κ fb v' roots place := by
  have hsome : ∀ {f x}, place f = some x → ∀ i, SameEntry (v.mem f i) (v'.mem f i) :=
    fun h i => hmem _ (by rw [h]; exact Option.some_ne_none _) i
  refine ⟨hsound, hF.kernel_place, hF.root_place, hF.kernel_notMem, hF.root_mem, hF.top,
    hF.length_le, fun h hg => hF.kernel_not_free h (hfree _ hg),
    fun h hr => hlent (hF.task_lent h hr), fun g hg hg' => hF.fb_not_free g hg (hfree _ hg'),
    hfb, ?_, ?_, ?_, ?_, ?_⟩
  · intro f r p i hf hhalf hp hpresent hhuge
    obtain ⟨hframe, hpres, hhug, -⟩ := hsome hf i
    rw [hframe]
    rw [hpres] at hpresent
    rw [hhug] at hhuge
    exact hF.table_entry hf hhalf hp hpresent hhuge
  · intro f r p i hf hr hp hpresent
    obtain ⟨hframe, hpres, -⟩ := hsome hf i
    rw [hpres] at hpresent
    rw [hframe]
    obtain ⟨hnone, hpage⟩ := hF.page_entry hf hr hp hpresent
    exact ⟨hnone, hpage.imp_left fun h => hlent h⟩
  · intro f r p i hf hr hlow hp hpresent
    have hsame := hsome hf i
    rw [hsame.2.1] at hpresent
    exact hsame.tableEntry (hF.task_plain hf hr hlow hp hpresent)
  · intro r hr i hi hpresent
    obtain ⟨hframe, hpres, hhug, -⟩ := hsome (hF.root_place r hr) i
    obtain ⟨hframe', hpres', hhug', -⟩ := hsome hF.kernel_place i
    rw [hpres] at hpresent
    rw [hframe, hframe', hpres', hhug, hhug']
    exact hF.shared r hr i hi hpresent
  · intro f p i hf hp hheap hpresent
    obtain ⟨-, hpres, hhug, -⟩ := hsome hf i
    rw [hpres] at hpresent
    rw [hhug]
    exact hF.heap_plain hf hp hheap hpresent

/-- A frame is handed out; so far nothing points to it. -/
theorem alloc (hF : Forest κ fb v roots place) (h : v.allocFrame = (some f, v')) :
    Forest κ fb v' roots place ∧ Unseen κ v' place f ∧ f ∈ v'.lent := by
  obtain ⟨hfree, hsound, hmem, hlent, -, hfree', -⟩ := hF.sound.allocFrame_some h
  have hunseen := hF.unseen_of_free hfree
  refine ⟨hF.congr hsound (fun g hg => ((hfree' g).mp hg).1) ?_ ?_ fun g _ i => ?_, ?_, ?_⟩
  · rw [hlent]
    exact Set.subset_insert _ _
  · rw [hlent]
    rintro g hg (rfl | hg')
    · exact hF.fb_not_free g hg hfree
    · exact hF.fb_not_lent g hg hg'
  · rw [hmem]
    exact SameEntry.refl _
  · rw [Unseen, hmem]
    exact hunseen
  · rw [hlent]
    exact Set.mem_insert _ _

theorem alloc_none (hF : Forest κ fb v roots place) (h : v.allocFrame = (none, v')) :
    Forest κ fb v' roots place := by
  obtain ⟨hsound, hmem, hlent, -, hfree⟩ := hF.sound.allocFrame_none h
  refine hF.congr hsound (fun g hg => (hfree g).mp hg) hlent.ge ?_ fun f _ i => ?_
  · rw [hlent]
    exact hF.fb_not_lent
  · rw [hmem]
    exact SameEntry.refl _

/-- A new, empty table at an entry that was not present. -/
theorem newTable (hF : Forest κ fb v roots place) (hf : Unseen κ v place f) (hlent : f ∈ v.lent)
    (ht : place t = some (r, p)) (hp : p.length < 3) (hhalf : Half κ r p i)
    (habsent : ¬ IsPresent (v.mem t i)) (hw : entryFrame w = f ∧ IsPresent w ∧ TableEntry w) :
    Forest κ fb ((v.clearPage f).setWord t i w) roots
      (Function.update place f (some (r, p ++ [i]))) := by
  obtain ⟨hframe, hpresent, hentry⟩ := hw
  have hzero : ¬ IsPresent 0 := by decide
  have hne : ∀ {g x}, place g = some x → g ≠ f := fun hg e => by
    rw [e, hf.1] at hg
    cases hg
  have hold : ∀ {g}, g ≠ f → Function.update place f (some (r, p ++ [i])) g = place g :=
    fun hg => Function.update_of_ne hg _ _
  have hnew : Function.update place f (some (r, p ++ [i])) f = some (r, p ++ [i]) :=
    Function.update_self _ _ _
  -- what the words are now
  have hword : ((v.clearPage f).setWord t i w).mem t i = w := by simp [Vm.setWord]
  have hempty : ∀ j, ((v.clearPage f).setWord t i w).mem f j = 0 := by
    intro j
    simp [Vm.setWord, Vm.clearPage, (hne ht).symm]
  have hkept : ∀ g j, g ≠ f → (g = t → j ≠ i) →
      ((v.clearPage f).setWord t i w).mem g j = v.mem g j := by
    intro g j hg hj
    by_cases hgt : g = t
    · subst hgt
      simp [Vm.setWord, Vm.clearPage, hg, hj rfl]
    · simp [Vm.setWord, Vm.clearPage, hg, hgt]
  refine ⟨hF.sound.of_same rfl rfl, ?_, ?_,
    hF.kernel_notMem, ?_, ?_, ?_, ?_, ?_, hF.fb_not_free, hF.fb_not_lent, ?_, ?_, ?_, ?_, ?_⟩
  · rw [hold (hne hF.kernel_place)]
    exact hF.kernel_place
  · intro r' hr'
    rw [hold (hne (hF.root_place r' hr'))]
    exact hF.root_place r' hr'
  · intro g r' p' hg hr'
    by_cases hgf : g = f
    · rw [hgf, hnew] at hg
      obtain ⟨rfl, -⟩ := Prod.mk.inj (Option.some_inj.mp hg)
      exact hF.root_mem ht hr'
    · rw [hold hgf] at hg
      exact hF.root_mem hg hr'
  · intro g r' hg
    by_cases hgf : g = f
    · rw [hgf, hnew] at hg
      simp at hg
    · rw [hold hgf] at hg
      exact hF.top hg
  · intro g r' p' hg
    by_cases hgf : g = f
    · rw [hgf, hnew] at hg
      obtain ⟨-, rfl⟩ := Prod.mk.inj (Option.some_inj.mp hg)
      rw [List.length_append]
      exact hp
    · rw [hold hgf] at hg
      exact hF.length_le hg
  · intro g p' hg
    by_cases hgf : g = f
    · rw [hgf]
      exact hF.sound.not_free hlent
    · rw [hold hgf] at hg
      exact hF.kernel_not_free hg
  · intro g r' p' hg hr'
    by_cases hgf : g = f
    · rw [hgf]
      exact hlent
    · rw [hold hgf] at hg
      exact hF.task_lent hg hr'
  · intro g r' p' j hg hhalf' hp' hpresent' hhuge'
    by_cases hgf : g = f
    · rw [hgf, hempty] at hpresent'
      exact absurd hpresent' hzero
    · rw [hold hgf] at hg
      by_cases hhere : g = t ∧ j = i
      · obtain ⟨rfl, rfl⟩ := hhere
        obtain ⟨rfl, rfl⟩ := Prod.mk.inj (Option.some_inj.mp (hg.symm.trans ht))
        rw [hword, hframe]
        exact hnew
      · have hsame := hkept g j hgf fun hgt hji => hhere ⟨hgt, hji⟩
        rw [hsame] at hpresent' hhuge' ⊢
        have hchild := hF.table_entry hg hhalf' hp' hpresent' hhuge'
        rw [hold (hne hchild)]
        exact hchild
  · intro g r' p' j hg hr' hp' hpresent'
    by_cases hgf : g = f
    · rw [hgf, hempty] at hpresent'
      exact absurd hpresent' hzero
    · rw [hold hgf] at hg
      have hgt : g ≠ t := by
        rintro rfl
        obtain ⟨-, rfl⟩ := Prod.mk.inj (Option.some_inj.mp (hg.symm.trans ht))
        omega
      have hsame := hkept g j hgf fun heq => absurd heq hgt
      rw [hsame] at hpresent' ⊢
      obtain ⟨hnone, hpage⟩ := hF.page_entry hg hr' hp' hpresent'
      rw [hold (hf.2 g r' p' j hg hr' hp' hpresent')]
      exact ⟨hnone, hpage⟩
  · intro g r' p' j hg hr' hlow hp' hpresent'
    by_cases hgf : g = f
    · rw [hgf, hempty] at hpresent'
      exact absurd hpresent' hzero
    · rw [hold hgf] at hg
      by_cases hhere : g = t ∧ j = i
      · obtain ⟨rfl, rfl⟩ := hhere
        rwa [hword]
      · have hsame := hkept g j hgf fun hgt hji => hhere ⟨hgt, hji⟩
        rw [hsame] at hpresent' ⊢
        exact hF.task_plain hg hr' hlow hp' hpresent'
  · intro r' hr' j hj hpresent'
    have hroot := hF.root_place r' hr'
    have hsame := hkept r' j (hne hroot) (by
      rintro rfl rfl
      obtain ⟨rfl, rfl⟩ := Prod.mk.inj (Option.some_inj.mp (hroot.symm.trans ht))
      exact hF.kernel_notMem ((hhalf rfl).mpr hj ▸ hr'))
    rw [hsame] at hpresent' ⊢
    obtain ⟨hpresentκ, hrest⟩ := hF.shared r' hr' j hj hpresent'
    have hsameκ := hkept κ j (hne hF.kernel_place) (by
      rintro rfl rfl
      exact habsent hpresentκ)
    rw [hsameκ]
    exact ⟨hpresentκ, hrest⟩
  · intro g p' j hg hp' hheap hpresent'
    by_cases hgf : g = f
    · rw [hgf, hempty] at hpresent'
      exact absurd hpresent' hzero
    · rw [hold hgf] at hg
      by_cases hhere : g = t ∧ j = i
      · obtain ⟨rfl, rfl⟩ := hhere
        rw [hword]
        exact hentry.not_huge
      · have hsame := hkept g j hgf fun hgt hji => hhere ⟨hgt, hji⟩
        rw [hsame] at hpresent' ⊢
        exact hF.heap_plain hg hp' hheap hpresent'

/-- A new entry for a page, or none, in a table of the last level. -/
theorem setPage (hF : Forest κ fb v roots place) (ht : place t = some (r, p)) (hp : p.length = 3)
    (hw : r ≠ κ → IsPresent w →
      place (entryFrame w) = none ∧ (entryFrame w ∈ v.lent ∨ entryFrame w ∈ fb)) :
    Forest κ fb (v.setWord t i w) roots place := by
  have hword : (v.setWord t i w).mem t i = w := by simp [Vm.setWord]
  have hkept : ∀ g j, (g = t → j ≠ i) → (v.setWord t i w).mem g j = v.mem g j := by
    intro g j hj
    by_cases hgt : g = t
    · subst hgt
      simp [Vm.setWord, hj rfl]
    · simp [Vm.setWord, hgt]
  -- tables nearer to a PML4 do not change
  have hhigh : ∀ {g r' p'}, place g = some (r', p') → p'.length < 3 → ∀ j,
      (v.setWord t i w).mem g j = v.mem g j := by
    intro g r' p' hg hp' j
    refine hkept g j fun hgt => ?_
    subst hgt
    obtain ⟨-, rfl⟩ := Prod.mk.inj (Option.some_inj.mp (hg.symm.trans ht))
    omega
  refine ⟨hF.sound.of_same rfl rfl, hF.kernel_place,
    hF.root_place, hF.kernel_notMem, hF.root_mem, hF.top, hF.length_le, hF.kernel_not_free,
    hF.task_lent, hF.fb_not_free, hF.fb_not_lent, ?_, ?_, ?_, ?_, ?_⟩
  · intro g r' p' j hg hhalf hp' hpresent hhuge
    rw [hhigh hg hp'] at hpresent hhuge ⊢
    exact hF.table_entry hg hhalf hp' hpresent hhuge
  · intro g r' p' j hg hr' hp' hpresent
    by_cases hhere : g = t ∧ j = i
    · obtain ⟨rfl, rfl⟩ := hhere
      obtain ⟨rfl, rfl⟩ := Prod.mk.inj (Option.some_inj.mp (hg.symm.trans ht))
      rw [hword] at hpresent ⊢
      exact hw hr' hpresent
    · rw [hkept g j fun hgt hji => hhere ⟨hgt, hji⟩] at hpresent ⊢
      exact hF.page_entry hg hr' hp' hpresent
  · intro g r' p' j hg hr' hlow hp' hpresent
    rw [hhigh hg hp'] at hpresent ⊢
    exact hF.task_plain hg hr' hlow hp' hpresent
  · intro r' hr' j hj hpresent
    rw [hhigh (hF.root_place r' hr') (by decide)] at hpresent ⊢
    rw [hhigh hF.kernel_place (by decide)]
    exact hF.shared r' hr' j hj hpresent
  · intro g p' j hg hp' hheap hpresent
    rw [hhigh hg hp'] at hpresent ⊢
    exact hF.heap_plain hg hp' hheap hpresent

/-- A new PML4 for a task: its lower half is empty, and its upper half is the kernel's. -/
theorem addRoot (hF : Forest κ fb v roots place) (hf : Unseen κ v place f) (hlent : f ∈ v.lent)
    (hmem : v'.mem = Function.update v.mem f fun j => if j.val < 256 then 0 else v.mem κ j)
    (hrest : v'.pmm = v.pmm ∧ v'.lent = v.lent) :
    Forest κ fb v' (insert f roots) (Function.update place f (some (f, []))) := by
  obtain ⟨hpmm, hlent'⟩ := hrest
  -- The new frame has no place yet, so no frame with a place is it.
  have hne : ∀ {g x}, place g = some x → g ≠ f := fun hg e => by
    rw [e, hf.1] at hg
    cases hg
  have hold : ∀ {g}, g ≠ f → Function.update place f (some (f, [])) g = place g :=
    fun hg => Function.update_of_ne hg _ _
  have hnew : Function.update place f (some (f, [])) f = some (f, []) :=
    Function.update_self _ _ _
  have hκ : κ ≠ f := hne hF.kernel_place
  have hkept : ∀ g, g ≠ f → v'.mem g = v.mem g := fun g hg => by
    rw [hmem, Function.update_of_ne hg]
  have hword : ∀ j, v'.mem f j = if j.val < 256 then 0 else v.mem κ j := fun j => by
    rw [hmem, Function.update_self]
  -- Every field splits on whether the frame is the new root.
  refine ⟨hF.sound.of_same hpmm hlent', ?_, ?_, ?_, ?_, ?_, ?_, ?_, ?_, hpmm ▸ hF.fb_not_free,
    hlent' ▸ hF.fb_not_lent, ?_, ?_, ?_, ?_, ?_⟩
  · rw [hold hκ]
    exact hF.kernel_place
  · rintro r (rfl | hr)
    · exact hnew
    · rw [hold (hne (hF.root_place r hr))]
      exact hF.root_place r hr
  · rintro (heq | hmem')
    · exact hκ heq
    · exact hF.kernel_notMem hmem'
  · intro g r p hg hr
    by_cases hgf : g = f
    · rw [hgf, hnew] at hg
      obtain ⟨rfl, -⟩ := Prod.mk.inj (Option.some_inj.mp hg)
      exact Set.mem_insert _ _
    · rw [hold hgf] at hg
      exact Set.mem_insert_of_mem _ (hF.root_mem hg hr)
  · intro g r hg
    by_cases hgf : g = f
    · rw [hgf, hnew] at hg
      obtain ⟨rfl, -⟩ := Prod.mk.inj (Option.some_inj.mp hg)
      exact hgf
    · rw [hold hgf] at hg
      exact hF.top hg
  · intro g r p hg
    by_cases hgf : g = f
    · rw [hgf, hnew] at hg
      obtain ⟨-, rfl⟩ := Prod.mk.inj (Option.some_inj.mp hg)
      exact Nat.zero_le _
    · rw [hold hgf] at hg
      exact hF.length_le hg
  · intro g p hg
    have hgf : g ≠ f := by
      rintro rfl
      rw [hnew] at hg
      exact hκ (Prod.mk.inj (Option.some_inj.mp hg)).1.symm
    rw [hold hgf] at hg
    rw [hpmm]
    exact hF.kernel_not_free hg
  · intro g r p hg hr
    rw [hlent']
    by_cases hgf : g = f
    · rw [hgf]
      exact hlent
    · rw [hold hgf] at hg
      exact hF.task_lent hg hr
  · intro g r p j hg hhalf hp hpresent hhuge
    by_cases hgf : g = f
    · rw [hgf, hnew] at hg
      obtain ⟨rfl, rfl⟩ := Prod.mk.inj (Option.some_inj.mp hg)
      have hlow : j.val < 256 := by
        by_contra hhigh
        exact hκ ((hhalf rfl).mpr (Nat.le_of_not_lt hhigh)).symm
      rw [hgf, hword, if_pos hlow] at hpresent
      exact absurd hpresent (by decide)
    · rw [hold hgf] at hg
      rw [hkept g hgf] at hpresent hhuge ⊢
      have hchild := hF.table_entry hg hhalf hp hpresent hhuge
      rw [hold (hne hchild)]
      exact hchild
  · intro g r p j hg hr hp hpresent
    have hgf : g ≠ f := by
      rintro rfl
      rw [hnew] at hg
      obtain ⟨-, rfl⟩ := Prod.mk.inj (Option.some_inj.mp hg)
      simp at hp
    rw [hold hgf] at hg
    rw [hkept g hgf] at hpresent ⊢
    rw [hold (hf.2 g r p j hg hr hp hpresent), hlent']
    exact hF.page_entry hg hr hp hpresent
  · intro g r p j hg hr hlow hp hpresent
    by_cases hgf : g = f
    · rw [hgf, hnew] at hg
      obtain ⟨-, rfl⟩ := Prod.mk.inj (Option.some_inj.mp hg)
      rw [hgf, hword, if_pos (hlow rfl)] at hpresent
      exact absurd hpresent (by decide)
    · rw [hold hgf] at hg
      rw [hkept g hgf] at hpresent ⊢
      exact hF.task_plain hg hr hlow hp hpresent
  · rintro r (rfl | hr) j hj hpresent
    · rw [hword, if_neg (Nat.not_lt.mpr hj)] at hpresent ⊢
      rw [hkept κ hκ]
      exact ⟨hpresent, rfl, Iff.rfl⟩
    · rw [hkept r (hne (hF.root_place r hr))] at hpresent ⊢
      rw [hkept κ hκ]
      exact hF.shared r hr j hj hpresent
  · intro g p j hg hp hheap hpresent
    have hgf : g ≠ f := by
      rintro rfl
      rw [hnew] at hg
      exact hκ (Prod.mk.inj (Option.some_inj.mp hg)).1.symm
    rw [hold hgf] at hg
    rw [hkept g hgf] at hpresent ⊢
    exact hF.heap_plain hg hp hheap hpresent

end Forest

/-! ## What a task's tables lead to -/

/-- The frame that present entries lead to along the given indices. -/
def follow (mem : Frames) : ℕ → Path → Option ℕ
  | frame, [] => some frame
  | frame, index :: rest => (nextTable mem frame index).bind fun next => follow mem next rest

/-- The first index lies in the lower half of a PML4. -/
def LowerPath (path : Path) : Prop := ∀ i ∈ path.head?, i.val < 256

namespace Forest

variable {κ : ℕ} {fb roots : Set ℕ} {v : Vm} {place : Places} {f g r : ℕ} {p q : Path}

/-- Fewer than four indices lead to a table with its place. -/
theorem follow_table (hF : Forest κ fb v roots place) (hr : r ≠ κ) (hf : place f = some (r, p))
    (hlen : p.length + q.length ≤ 3) (hlow : p = [] → LowerPath q)
    (h : follow v.mem f q = some g) : place g = some (r, p ++ q) := by
  induction q generalizing f p with
  | nil =>
    obtain rfl := Option.some_inj.mp h
    rwa [List.append_nil]
  | cons i q ih =>
    obtain ⟨next, hnext, hrest⟩ := Option.bind_eq_some_iff.mp h
    obtain ⟨hpresent, rfl⟩ := nextTable_eq_some.mp hnext
    have hhalf : Half κ r p i := fun hp =>
      iff_of_false hr (Nat.not_le.mpr (hlow hp i rfl))
    rw [List.length_cons] at hlen
    have hchild := hF.table_entry hf hhalf (by omega) hpresent fun e => absurd e hr
    have hplace := ih hchild (by rw [List.length_append, List.length_singleton]; omega)
      (fun hnil => absurd hnil (by simp)) hrest
    rwa [List.append_assoc] at hplace

/-! ## The address spaces of the tasks -/

/-- The tables of a task are where its paths lead. -/
theorem place_of_reach (hF : Forest κ fb v roots place) (hr : r ∈ roots) (hq : q.length ≤ 3)
    (h : reach v.mem r q = some f) : place f = some (r, q) := by
  have hκ : r ≠ κ := fun e => hF.kernel_notMem (e ▸ hr)
  induction q using List.reverseRecOn generalizing f with
  | nil =>
    obtain rfl := Option.some_inj.mp h
    exact hF.root_place _ hr
  | append_singleton q i ih =>
    rw [List.length_append, List.length_singleton] at hq
    obtain ⟨t, ht, hchild⟩ := exists_of_descend_concat h
    have hplace := ih (by omega) ht
    obtain ⟨hlow, hpresent, rfl⟩ := lowerTable_eq_some.mp hchild
    refine hF.table_entry hplace (fun hnil => ?_) (by omega) hpresent fun e => absurd e hκ
    obtain rfl : t = r := by
      rw [hnil] at hplace
      exact hF.top hplace
    exact iff_of_false hκ fun hle => hlow ⟨rfl, hle⟩

theorem place_of_isTable (hF : Forest κ fb v roots place) (hr : r ∈ roots)
    (h : IsTable v.mem r f) : ∃ q, place f = some (r, q) := by
  obtain ⟨q, hq, hreach⟩ := h
  exact ⟨q, hF.place_of_reach hr hq hreach⟩

/-- A page of a task is no table, but handed out or of the framebuffer. -/
theorem place_of_leaf (hF : Forest κ fb v roots place) (hr : r ∈ roots) (hq : q.length = 3)
    {i : Fin 512} {e : ℕ} (he : leafEntry v.mem r q i = some e) :
    place (entryFrame e) = none ∧ (entryFrame e ∈ v.lent ∨ entryFrame e ∈ fb) := by
  obtain ⟨t, ht, he⟩ := Option.bind_eq_some_iff.mp he
  obtain ⟨hpresent, rfl⟩ : IsPresent (v.mem t i) ∧ v.mem t i = e := by
    rw [presentEntry] at he
    split_ifs at he with hpresent
    exact ⟨hpresent, Option.some_inj.mp he⟩
  have hκ : r ≠ κ := fun e => hF.kernel_notMem (e ▸ hr)
  exact hF.page_entry (hF.place_of_reach hr hq.le ht) hκ hq hpresent

/-- The tables of the tasks are disjoint trees. -/
theorem spaces (hF : Forest κ fb v roots place) : Spaces roots v := by
  have hκ : ∀ r ∈ roots, r ≠ κ := fun r hr e => hF.kernel_notMem (e ▸ hr)
  refine ⟨hF.sound, fun r hr => ⟨hF.sound, Nat.le_refl 3, ?_, fun {p f} hp hf => ?_,
    fun {p f i} hp hf hlow hpresent => ?_⟩, fun r hr s hs f hf hf' => ?_,
    fun r hr q i e hq he hfree => ?_, fun r hr s hs q i e hq he hf => ?_⟩
  · intro p q f hp hq hf hf'
    have heq := (hF.place_of_reach hr hp hf).symm.trans (hF.place_of_reach hr hq hf')
    exact (Prod.mk.inj (Option.some_inj.mp heq)).2
  · exact hF.not_free (hF.place_of_reach hr hp hf)
  · have hplace := hF.place_of_reach hr hp.le hf
    refine hF.task_plain hplace (hκ r hr) (fun hnil => ?_) hp hpresent
    rw [hnil] at hplace
    exact Nat.not_le.mp fun hle => hlow ⟨hF.top hplace, hle⟩
  · obtain ⟨q, hq⟩ := hF.place_of_isTable hr hf
    obtain ⟨q', hq'⟩ := hF.place_of_isTable hs hf'
    exact (Prod.mk.inj (Option.some_inj.mp (hq.symm.trans hq'))).1
  · rcases (hF.place_of_leaf hr hq he).2 with hlent | hfb
    · exact hF.sound.not_free hlent hfree
    · exact hF.fb_not_free _ hfb hfree
  · obtain ⟨p, hp⟩ := hF.place_of_isTable hs hf
    rw [(hF.place_of_leaf hr hq he).1] at hp
    cases hp

end Forest

/-- The two PML4s are all the tables. -/
def samplePlaces : Places := fun f => if f = 0x1000 ∨ f = 0x2000 then some (f, []) else none

theorem sampleVm_forest : Forest 0x1000 ∅ sampleVm {0x2000} samplePlaces := by
  have hplace : ∀ {f r : ℕ} {p : Path}, samplePlaces f = some (r, p) →
      f = r ∧ p = [] ∧ (r = 0x1000 ∨ r = 0x2000) := by
    intro f r p h
    rw [samplePlaces] at h
    split_ifs at h with hf
    obtain ⟨rfl, rfl⟩ := Prod.mk.inj (Option.some_inj.mp h)
    exact ⟨rfl, rfl, hf⟩
  have hzero : ¬ IsPresent 0 := by decide
  have habsent : ∀ f i, ¬ IsPresent (sampleVm.mem f i) := fun _ _ => hzero
  refine ⟨sampleVm_sound, rfl, fun r hr => ?_, by decide, fun {f r p} h hr => ?_, fun h => ?_,
    fun h => ?_, fun {f p} h => ?_, fun {f r p} h hr => ?_,
    fun f hf => absurd hf (Set.notMem_empty f), fun f hf => absurd hf (Set.notMem_empty f),
    fun {f r p i} _ _ _ h => absurd h (habsent f i),
    fun {f r p i} _ _ _ h => absurd h (habsent f i),
    fun {f r p i} _ _ _ _ h => absurd h (habsent f i),
    fun r _ i _ h => absurd h (habsent r i), fun {f p i} _ _ _ h => absurd h (habsent f i)⟩
  · rw [Set.mem_singleton_iff.mp hr]
    rfl
  · exact (hplace h).2.2.resolve_left hr
  · exact (hplace h).1
  · rw [(hplace h).2.1]
    exact Nat.zero_le 3
  · rintro ⟨page, hpage, hframe, hclear⟩
    have hone : page = 1 := by
      have hf := (hplace h).1
      rw [hf, pageSize] at hframe
      omega
    rw [hone] at hclear
    exact absurd hclear (by decide)
  · obtain ⟨rfl, -, hcases⟩ := hplace h
    exact hcases.resolve_left hr

end OpenIDP.Memory
