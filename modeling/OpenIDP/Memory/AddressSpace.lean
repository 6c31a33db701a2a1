import OpenIDP.Math.RadixTree
import OpenIDP.Memory.PageFrames

/-!
# Address spaces

The tables of the lower half of an address space are a tree: no table is reached on two
paths of indices. So a table that is added behind an empty entry changes what one path
leads to, and an entry written for a page is found for that page alone.

The depth down to which the frames are a tree is a parameter. With depth 3 only the tables
count, and entries for pages may lead anywhere; with depth 4 the frames of the pages are
distinct too.

## Main definitions

* `lowerTable`, `reach` — the tables of the lower half, and the one a path leads to
* `Space` — they are a tree of frames in use
* `Grows` — tables are added, and the pages stay as they are

## Main results

* `Space.translate_eq` — what the processor finds is the entry of the last table
* `Space.getOrAllocTable`, `Space.pageTableFor` — going down, adding what is missing
* `Space.setEntry` — writing the entry for a page
-/

namespace OpenIDP.Memory

open OpenIDP.Math

/-- The children of the tables of the lower half. -/
def lowerTable (mem : Frames) (root table : ℕ) (index : Fin 512) : Option ℕ :=
  if table = root ∧ 256 ≤ index.val then none else nextTable mem table index

/-- The frame a path of the lower half leads to. -/
abbrev reach (mem : Frames) (root : ℕ) (path : Path) : Option ℕ :=
  descend (lowerTable mem root) root path

/-- The entry of a page table, if it is present. -/
def presentEntry (entry : ℕ) : Option ℕ := if IsPresent entry then some entry else none

/-- The entry for the page with index `i` in the table that `path` leads to. -/
def leafEntry (mem : Frames) (root : ℕ) (path : Path) (i : Fin 512) : Option ℕ :=
  (reach mem root path).bind fun table => presentEntry (mem table i)

/-- The entry for a page. -/
def pageEntry (mem : Frames) (root virt : ℕ) : Option ℕ :=
  leafEntry mem root (tablePath virt) (ptIndex virt)

/-- An entry that leads to a table lets user programs read and write what is below. -/
structure TableEntry (entry : ℕ) : Prop where
  write : entry &&& vmmWrite ≠ 0
  user : entry &&& vmmUser ≠ 0
  not_huge : ¬ IsHuge entry

/-- The tables of the lower half are a tree of frames in use. -/
structure Space (depth root : ℕ) (v : Vm) : Prop where
  sound : v.Sound
  depth_le : 3 ≤ depth
  tree : IsTree (lowerTable v.mem root) depth root
  not_free : ∀ {p f}, p.length ≤ depth → reach v.mem root p = some f → ¬ v.pmm.Free f
  plain : ∀ {p f i}, p.length < 3 → reach v.mem root p = some f →
    ¬ (f = root ∧ 256 ≤ i.val) → IsPresent (v.mem f i) → TableEntry (v.mem f i)

/-- The part of `vmm_map_page` that goes down to the page table of the last level. -/
def Vm.pageTableFor (v : Vm) (pml4 virt : ℕ) : Option (ℕ × Vm) := do
  let (pdpt, v₁) ← v.getOrAllocTable pml4 (pml4Index virt)
  let (pd, v₂) ← v₁.getOrAllocTable pdpt (pdptIndex virt)
  v₂.getOrAllocTable pd (pdIndex virt)

section Basic

variable {depth root f t virt : ℕ} {v v' : Vm} {mem : Frames} {p q : Path} {i : Fin 512}

theorem Vm.vmmMapPage_eq (v : Vm) (pml4 virt phys flags : ℕ) :
    v.vmmMapPage pml4 virt phys flags = (v.pageTableFor pml4 virt).map fun x =>
      x.2.setWord x.1 (ptIndex virt) ((phys &&& pageAlignMask) ||| flags ||| vmmPresent) := by
  simp only [vmmMapPage, pageTableFor, Option.bind_eq_bind, Option.map_eq_bind,
    Option.bind_assoc]
  rfl

theorem nextTable_eq_some {table next : ℕ} :
    nextTable mem table i = some next ↔
      IsPresent (mem table i) ∧ entryFrame (mem table i) = next := by
  unfold nextTable
  split_ifs with hpresent
  · simp [hpresent]
  · simp [hpresent]

theorem lowerTable_eq_some {table next : ℕ} : lowerTable mem root table i = some next ↔
    ¬ (table = root ∧ 256 ≤ i.val) ∧ IsPresent (mem table i) ∧
      entryFrame (mem table i) = next := by
  unfold lowerTable
  split_ifs with hupper
  · simp [hupper]
  · rw [nextTable_eq_some]
    simp [hupper]

theorem lowerTable_of_lower (hlow : ¬ (t = root ∧ 256 ≤ i.val)) :
    lowerTable mem root t i = nextTable mem t i :=
  if_neg hlow

theorem lowerTable_congr {mem' : Frames} (h : mem' t i = mem t i) :
    lowerTable mem' root t i = lowerTable mem root t i := by
  rw [lowerTable, lowerTable, nextTable, nextTable, h]

theorem reach_concat (ht : reach mem root p = some t) :
    reach mem root (p ++ [i]) = lowerTable mem root t i := by
  rw [reach, descend_concat, show descend (lowerTable mem root) root p = some t from ht]
  rfl

theorem reach_append (ht : reach mem root p = some t) :
    reach mem root (p ++ q) = descend (lowerTable mem root) t q := by
  rw [reach, descend_append, show descend (lowerTable mem root) root p = some t from ht]
  rfl

/-- The root is reached on the empty path only. -/
theorem Space.root_iff (h : Space depth root v) (hp : p.length ≤ depth)
    (ht : reach v.mem root p = some t) : t = root ↔ p = [] := by
  constructor
  · rintro rfl
    exact h.tree hp (Nat.zero_le _) ht rfl
  · rintro rfl
    exact (Option.some_inj.mp ht).symm

/-- An entry below the root, or in its lower half. -/
theorem Space.lower (h : Space depth root v) (hp : p.length ≤ depth)
    (ht : reach v.mem root p = some t) (hi : p = [] → i.val < 256) :
    ¬ (t = root ∧ 256 ≤ i.val) := by
  rintro ⟨hroot, hle⟩
  exact Nat.not_le.mpr (hi ((h.root_iff hp ht).mp hroot)) hle

/-! ## Translation -/

/-- From a table of the lower half, the processor's walk ends at the entry of the last
table. -/
theorem Space.translate_from (h : Space depth root v) (hlen : p.length + q.length = 3)
    (ht : reach v.mem root p = some t) (hlow : p = [] → ∀ j ∈ q.head?, j.val < 256)
    (i : Fin 512) :
    translate v.mem t (q ++ [i]) = (leafEntry v.mem root (p ++ q) i).map fun e => ([], e) := by
  have hdepth := h.depth_le
  induction q generalizing p t with
  | nil =>
    rw [List.append_nil, leafEntry, ht, Option.bind_some, List.nil_append, translate,
      presentEntry]
    by_cases hpresent : IsPresent (v.mem t i)
    · rw [if_pos hpresent, if_pos hpresent, if_pos (Or.inl rfl)]
      rfl
    · rw [if_neg hpresent, if_neg hpresent]
      rfl
  | cons j q ih =>
    rw [List.length_cons] at hlen
    have hj : ¬ (t = root ∧ 256 ≤ j.val) :=
      h.lower (by omega) ht fun hp => hlow hp j rfl
    rw [List.cons_append, translate]
    by_cases hpresent : IsPresent (v.mem t j)
    · have hplain := h.plain (by omega) ht hj hpresent
      have hnext : reach v.mem root (p ++ [j]) = some (entryFrame (v.mem t j)) := by
        rw [reach_concat ht, lowerTable_eq_some]
        exact ⟨hj, hpresent, rfl⟩
      have hstop : ¬ (q ++ [i] = [] ∨ IsHuge (v.mem t j)) :=
        not_or.mpr ⟨List.concat_ne_nil i q, hplain.not_huge⟩
      have hrest := ih (p := p ++ [j]) (by rw [List.length_append, List.length_singleton]; omega)
        hnext fun hnil => absurd hnil (by simp)
      rw [if_pos hpresent, if_neg hstop, hrest, List.append_assoc]
      rfl
    · -- nothing is reached through an entry that is not present
      have hnone : reach v.mem root (p ++ j :: q) = none := by
        rw [reach_append ht, descend_cons, lowerTable_of_lower hj, nextTable, if_neg hpresent]
        rfl
      rw [if_neg hpresent, leafEntry, hnone]
      rfl

/-- What the processor finds for a page of the lower half. -/
theorem Space.translate_eq (h : Space depth root v) (hvirt : InUserHalf virt) :
    translate v.mem root (indices virt) =
      (pageEntry v.mem root virt).map fun e => ([], e) := by
  refine h.translate_from (p := []) (q := tablePath virt) rfl rfl (fun _ j hj => ?_) _
  rwa [← Option.some_inj.mp hj]

/-- A tree stays when its tables are left alone and in use. -/
theorem Space.congr (h : Space depth root v) (hsound : v'.Sound)
    (hfree : ∀ p f, p.length ≤ depth → reach v.mem root p = some f → ¬ v'.pmm.Free f)
    (hmem : ∀ p f i, p.length < depth → reach v.mem root p = some f →
      v'.mem f i = v.mem f i) :
    Space depth root v' ∧
      ∀ p, p.length ≤ depth → reach v'.mem root p = reach v.mem root p := by
  have hreach : ∀ p : Path, p.length ≤ depth → reach v'.mem root p = reach v.mem root p :=
    fun p hp => descend_congr fun q f i hq hf => lowerTable_congr (hmem q f i (by omega) hf)
  have hdepth := h.depth_le
  refine ⟨⟨hsound, hdepth, ?_, fun {p f} hp hf => ?_, fun {p f i} hp hf hlow hpresent => ?_⟩,
    hreach⟩
  · exact h.tree.congr fun q f i hq hf => lowerTable_congr (hmem q f i hq hf)
  · rw [hreach p hp] at hf
    exact hfree p f hp hf
  · rw [hreach p (by omega)] at hf
    have hsame := hmem p f i (by omega) hf
    rw [hsame] at hpresent ⊢
    exact h.plain hp hf hlow hpresent

end Basic

/-! ## Going down -/

/-- The frames of `new` become tables of the space. Whatever was reached is still reached, and
the entries for pages stay. -/
structure Grows (depth root : ℕ) (new : List ℕ) (v v' : Vm) : Prop where
  lends : Vm.Lends new v v'
  space : Space depth root v'
  keep : ∀ {q f}, q.length ≤ depth → reach v.mem root q = some f → reach v'.mem root q = some f
  fresh : ∀ {q f}, q.length ≤ depth → reach v'.mem root q = some f →
    reach v.mem root q = some f ∨ f ∈ new
  tables : ∀ f ∈ new, ∃ q, q.length ≤ 3 ∧ reach v'.mem root q = some f
  leaf : ∀ {q}, q.length = 3 → ∀ i, leafEntry v'.mem root q i = leafEntry v.mem root q i
  outside : ∀ f, ¬ v.pmm.Free f → (∀ q, q.length < 3 → reach v.mem root q ≠ some f) →
    v'.mem f = v.mem f
  upper : ∀ j : Fin 512, 256 ≤ j.val → v'.mem root j = v.mem root j

section Descent

variable {depth root c f t virt : ℕ} {new new' : List ℕ} {v v' v'' : Vm} {p q : Path}
variable {i : Fin 512}

theorem Grows.refl (h : Space depth root v) : Grows depth root [] v v :=
  ⟨.refl h.sound, h, fun _ => id, fun _ => Or.inl, fun _ hf => absurd hf List.not_mem_nil,
    fun _ _ => rfl, fun _ _ _ => rfl, fun _ _ => rfl⟩

theorem Grows.trans (h : Grows depth root new v v') (h' : Grows depth root new' v' v'') :
    Grows depth root (new' ++ new) v v'' := by
  have hdepth := h.space.depth_le
  refine ⟨h.lends.trans h'.lends, h'.space, fun hq hf => h'.keep hq (h.keep hq hf), ?_, ?_,
    fun hq i => (h'.leaf hq i).trans (h.leaf hq i), ?_, fun j hj => (h'.upper j hj).trans
      (h.upper j hj)⟩
  · intro q f hq hf
    rcases h'.fresh hq hf with hf | hf
    · exact (h.fresh hq hf).imp_right fun hf => List.mem_append_right _ hf
    · exact Or.inr (List.mem_append_left _ hf)
  · intro f hf
    rcases List.mem_append.mp hf with hf | hf
    · exact h'.tables f hf
    · obtain ⟨q, hq, hreach⟩ := h.tables f hf
      exact ⟨q, hq, h'.keep (by omega) hreach⟩
  · intro f hused hnot
    have hused' : ¬ v'.pmm.Free f := fun hfree => hused (h.lends.free_iff.mp hfree).1
    rw [h'.outside f hused' fun q hq hf => ?_, h.outside f hused hnot]
    rcases h.fresh (by omega) hf with hf | hf
    · exact hnot q hq hf
    · exact hused (h.lends.free f hf)

/-- A frame handed out becomes an empty table behind an entry that was not present. -/
theorem Space.newTable (h : Space depth root v) (ht : reach v.mem root p = some t)
    (hp : p.length < 3) (hlow : ¬ (t = root ∧ 256 ≤ i.val)) (habsent : ¬ IsPresent (v.mem t i))
    (hlends : Vm.Lends [f] v v') (hmem : v'.mem = v.mem) {w : ℕ} (hframe : entryFrame w = f)
    (hpresent : IsPresent w) (hentry : TableEntry w) :
    Grows depth root [f] v ((v'.clearPage f).setWord t i w) ∧
      reach ((v'.clearPage f).setWord t i w).mem root (p ++ [i]) = some f := by
  have hdepth := h.depth_le
  have hfree : v.pmm.Free f := hlends.free f (List.mem_singleton.mpr rfl)
  have hnew : ∀ q : Path, q.length ≤ depth → reach v.mem root q ≠ some f := fun q hq hf =>
    h.not_free hq hf hfree
  have hne : ∀ {q : Path} {g}, q.length ≤ depth → reach v.mem root q = some g → g ≠ f :=
    fun hq hg e => hnew _ hq (e ▸ hg)
  have htf : t ≠ f := hne (by omega) ht
  have hroot : root ≠ f := hne (q := []) (Nat.zero_le _) rfl
  -- what the words are now
  have hword : ∀ g j, ((v'.clearPage f).setWord t i w).mem g j =
      if g = t ∧ j = i then w else if g = f then 0 else v.mem g j := by
    intro g j
    rw [Vm.mem_setWord, Vm.mem_clearPage, hmem]
  have hhere : ((v'.clearPage f).setWord t i w).mem t i = w := by
    rw [hword, if_pos ⟨rfl, rfl⟩]
  have hempty : ∀ j, ((v'.clearPage f).setWord t i w).mem f j = 0 := fun j => by
    rw [hword, if_neg fun e => htf e.1.symm, if_pos rfl]
  have hkept : ∀ g j, g ≠ f → (g = t → j ≠ i) →
      ((v'.clearPage f).setWord t i w).mem g j = v.mem g j := fun g j hg hgj => by
    rw [hword, if_neg fun e => hgj e.1 e.2, if_neg hg]
  have hlink : lowerTable ((v'.clearPage f).setWord t i w).mem root t i = some f := by
    rw [lowerTable_eq_some, hhere]
    exact ⟨hlow, hpresent, hframe⟩
  have hleaf : ∀ j, lowerTable ((v'.clearPage f).setWord t i w).mem root f j = none := by
    intro j
    rw [lowerTable_of_lower fun e => hroot e.1.symm, nextTable, hempty]
    rfl
  have hold : ∀ (q : Path) g j, q.length < depth → reach v.mem root q = some g →
      (g = t → j ≠ i) → lowerTable ((v'.clearPage f).setWord t i w).mem root g j =
        lowerTable v.mem root g j := fun q g j hq hg hgj =>
    lowerTable_congr (hkept g j (hne hq.le hg) hgj)
  have hnone : lowerTable v.mem root t i = none := by
    rw [lowerTable_of_lower hlow, nextTable, if_neg habsent]
  have hreach : ∀ q : Path, q.length ≤ depth →
      reach ((v'.clearPage f).setWord t i w).mem root q =
        if q = p ++ [i] then some f else reach v.mem root q := fun q hq =>
    h.tree.descend_link (by omega) ht hnone hlink (fun _ => hleaf) hold hq
  have hlen : (p ++ [i]).length = p.length + 1 := List.length_append
  refine ⟨⟨hlends.of_same rfl rfl rfl, ⟨?_, hdepth, ?_, fun {q g} hq hg => ?_,
    fun {q g j} hq hg hlow' hpresent' => ?_⟩, fun {q g} hq hg => ?_, fun {q g} hq hg => ?_,
    fun g hg => ?_, fun {q} hq j => ?_, fun g hused hnot => ?_, fun j hj => ?_⟩, ?_⟩
  · exact hlends.sound.of_same rfl rfl
  · exact h.tree.link (by omega) ht hnone hlink (fun _ => hleaf) hold hnew
  · rw [hreach q hq] at hg
    change ¬ v'.pmm.Free g
    rw [hlends.free_iff, List.mem_singleton]
    split_ifs at hg
    · exact fun hf => hf.2 (Option.some_inj.mp hg).symm
    · exact fun hf => h.not_free hq hg hf.1
  · rw [hreach q (by omega)] at hg
    split_ifs at hg
    · rw [← Option.some_inj.mp hg, hempty] at hpresent'
      exact absurd hpresent' (by decide)
    · by_cases hgj : g = t ∧ j = i
      · rwa [hgj.1, hgj.2, hhere]
      · have hsame := hkept g j (hne (by omega) hg) fun hgt hji => hgj ⟨hgt, hji⟩
        rw [hsame] at hpresent' ⊢
        exact h.plain hq hg hlow' hpresent'
  · rw [hreach q hq, if_neg]
    · exact hg
    · rintro rfl
      rw [reach_concat ht, hnone] at hg
      cases hg
  · rw [hreach q hq] at hg
    split_ifs at hg
    · exact Or.inr (List.mem_singleton.mpr (Option.some_inj.mp hg).symm)
    · exact Or.inl hg
  · refine ⟨p ++ [i], by omega, ?_⟩
    rw [hreach _ (by omega), if_pos rfl, List.mem_singleton.mp hg]
  · rw [leafEntry, leafEntry, hreach q (by omega)]
    split_ifs with hqp
    · -- the new table has no entries, and nothing was there before
      rw [hqp, reach_concat ht, hnone, Option.bind_some, hempty]
      rfl
    · cases hg : reach v.mem root q with
      | none => rfl
      | some g =>
        have hgt : g ≠ t := by
          rintro rfl
          have hqp' := h.tree (by omega) (by omega) hg ht
          rw [hqp'] at hq
          omega
        rw [Option.bind_some, Option.bind_some,
          hkept g j (hne (by omega) hg) fun e => absurd e hgt]
  · have hgf : g ≠ f := fun e => hused (e ▸ hfree)
    have hgt : g ≠ t := by
      rintro rfl
      exact hnot p hp ht
    funext j
    exact hkept g j hgf fun e => absurd e hgt
  · refine hkept root j hroot ?_
    rintro rfl rfl
    exact hlow ⟨rfl, hj⟩
  · rw [hreach _ (by omega), if_pos rfl]

/-- One level down: the table found or added is the one behind the entry. -/
theorem Space.getOrAllocTable (h : Space depth root v) (ht : reach v.mem root p = some t)
    (hp : p.length < 3) (hi : p = [] → i.val < 256)
    (hrun : v.getOrAllocTable t i = some (c, v')) :
    ∃ new, Grows depth root new v v' ∧ reach v'.mem root (p ++ [i]) = some c := by
  have hdepth := h.depth_le
  have hlow := h.lower (by omega) ht hi
  by_cases hpresent : IsPresent (v.mem t i)
  · -- the table is there, and user programs may use it already
    have hplain := h.plain hp ht hlow hpresent
    rw [Vm.getOrAllocTable, if_pos hpresent, if_neg hplain.user] at hrun
    obtain ⟨rfl, rfl⟩ := Prod.mk.inj (Option.some_inj.mp hrun)
    refine ⟨[], .refl h, ?_⟩
    rw [reach_concat ht, lowerTable_eq_some]
    exact ⟨hlow, hpresent, rfl⟩
  · rw [Vm.getOrAllocTable, if_neg hpresent] at hrun
    split at hrun
    · cases hrun
    · next f v₁ halloc =>
      obtain ⟨rfl, rfl⟩ := Prod.mk.inj (Option.some_inj.mp hrun)
      obtain ⟨hlends, hmem⟩ := h.sound.lends_alloc halloc
      have hlent : f ∈ v₁.lent := hlends.mem_lent (List.mem_singleton.mpr rfl)
      obtain ⟨hframe, hpres, hhuge⟩ := entry_table (hlends.sound.isFrame hlent)
      obtain ⟨hwrite, huser⟩ := entry_table_rights f
      exact ⟨[f], h.newTable ht hp hlow hpresent hlends hmem hframe hpres ⟨hwrite, huser, hhuge⟩⟩

/-- The way down to the last table, adding what is missing. -/
theorem Space.pageTableFor (h : Space depth root v) (hvirt : InUserHalf virt)
    (hrun : v.pageTableFor root virt = some (t, v')) :
    ∃ new, Grows depth root new v v' ∧ reach v'.mem root (tablePath virt) = some t := by
  simp only [Vm.pageTableFor, Option.bind_eq_bind, Option.bind_eq_some_iff, Prod.exists] at hrun
  obtain ⟨pdpt, v₁, hrun₁, pd, v₂, hrun₂, hrun₃⟩ := hrun
  obtain ⟨new₁, hgrows₁, hpdpt⟩ :=
    h.getOrAllocTable (p := []) rfl (by decide) (fun _ => hvirt) hrun₁
  obtain ⟨new₂, hgrows₂, hpd⟩ :=
    hgrows₁.space.getOrAllocTable hpdpt (by simp) (fun hnil => absurd hnil (by simp)) hrun₂
  obtain ⟨new₃, hgrows₃, hpt⟩ :=
    hgrows₂.space.getOrAllocTable hpd (by simp) (fun hnil => absurd hnil (by simp)) hrun₃
  exact ⟨_, (hgrows₁.trans hgrows₂).trans hgrows₃, hpt⟩

/-! ## Entries for pages -/

/-- Writing the entry for a page: it is found for that page, and no other changes. -/
theorem Space.setEntry (h : Space 3 root v) (ht : reach v.mem root p = some t)
    (hp : p.length = 3) (w : ℕ) :
    Space 3 root (v.setWord t i w) ∧
      (∀ q : Path, q.length ≤ 3 → reach (v.setWord t i w).mem root q = reach v.mem root q) ∧
      leafEntry (v.setWord t i w).mem root p i = presentEntry w ∧
      ∀ q j, q.length = 3 → (q = p → j ≠ i) →
        leafEntry (v.setWord t i w).mem root q j = leafEntry v.mem root q j := by
  have hne : ∀ {q : Path} {g}, q.length ≤ 3 → reach v.mem root q = some g → g = t → q = p := by
    rintro q g hq hg rfl
    exact h.tree hq hp.le hg ht
  have hsound : (v.setWord t i w).Sound := h.sound.of_same rfl rfl
  obtain ⟨hspace, hreach⟩ := h.congr hsound (fun q f hq hf => h.not_free hq hf)
    fun q f j hq hf => by
    rw [Vm.mem_setWord]
    refine if_neg fun e => ?_
    have hqp := hne hq.le hf e.1
    rw [hqp, hp] at hq
    exact absurd hq (Nat.lt_irrefl 3)
  refine ⟨hspace, hreach, ?_, fun q j hq hqj => ?_⟩
  · rw [leafEntry, hreach p hp.le, ht, Option.bind_some, Vm.mem_setWord, if_pos ⟨rfl, rfl⟩]
  · rw [leafEntry, leafEntry, hreach q hq.le]
    cases hg : reach v.mem root q with
    | none => rfl
    | some g =>
      rw [Option.bind_some, Option.bind_some, Vm.mem_setWord,
        if_neg fun e => hqj (hne hq.le hg e.1) e.2]

theorem Space.mono {depth' : ℕ} (h : Space depth root v) (hle : depth' ≤ depth)
    (hdepth : 3 ≤ depth') : Space depth' root v :=
  ⟨h.sound, hdepth, h.tree.mono hle, fun hp hf => h.not_free (hp.trans hle) hf, h.plain⟩

/-- A frame becomes a page behind an entry that was not present. -/
theorem Space.linkPage (h : Space 4 root v) (ht : reach v.mem root p = some t)
    (hp : p.length = 3) (habsent : ¬ IsPresent (v.mem t i)) (hused : ¬ v.pmm.Free f)
    (hnew : ∀ q : Path, q.length ≤ 4 → reach v.mem root q ≠ some f) {w : ℕ}
    (hframe : entryFrame w = f) (hpresent : IsPresent w) :
    Space 4 root (v.setWord t i w) ∧ ∀ q : Path, q.length ≤ 4 →
      reach (v.setWord t i w).mem root q = if q = p ++ [i] then some f else reach v.mem root q := by
  have hlow : ¬ (t = root ∧ 256 ≤ i.val) := h.lower (by omega) ht fun hnil => by
    rw [hnil] at hp
    cases hp
  have hnone : lowerTable v.mem root t i = none := by
    rw [lowerTable_of_lower hlow, nextTable, if_neg habsent]
  have hlink : lowerTable (v.setWord t i w).mem root t i = some f := by
    rw [lowerTable_eq_some, Vm.mem_setWord, if_pos ⟨rfl, rfl⟩]
    exact ⟨hlow, hpresent, hframe⟩
  have hkept : ∀ g j, (g = t → j ≠ i) → (v.setWord t i w).mem g j = v.mem g j := fun g j hgj => by
    rw [Vm.mem_setWord, if_neg fun e => hgj e.1 e.2]
  have hold : ∀ (q : Path) g j, q.length < 4 → reach v.mem root q = some g → (g = t → j ≠ i) →
      lowerTable (v.setWord t i w).mem root g j = lowerTable v.mem root g j :=
    fun q g j _ _ hgj => lowerTable_congr (hkept g j hgj)
  have hdeep : p.length + 1 < 4 → ∀ j, lowerTable (v.setWord t i w).mem root f j = none :=
    fun hlt => absurd hlt (by omega)
  have hreach : ∀ q : Path, q.length ≤ 4 →
      reach (v.setWord t i w).mem root q = if q = p ++ [i] then some f else reach v.mem root q :=
    fun q hq => h.tree.descend_link (by omega) ht hnone hlink hdeep hold hq
  have hlen : (p ++ [i]).length = 4 := by rw [List.length_append, hp, List.length_singleton]
  refine ⟨⟨h.sound.of_same rfl rfl, h.depth_le,
    h.tree.link (by omega) ht hnone hlink hdeep hold hnew, fun {q g} hq hg => ?_,
    fun {q g j} hq hg hlow' hpresent' => ?_⟩, hreach⟩
  · rw [hreach q hq] at hg
    split_ifs at hg
    · rw [← Option.some_inj.mp hg]
      exact hused
    · exact h.not_free hq hg
  · have hne : q ≠ p ++ [i] := fun e => by
      rw [e, hlen] at hq
      exact absurd hq (by decide)
    rw [hreach q (by omega), if_neg hne] at hg
    have hsame := hkept g j fun hgt => by
      rw [hgt] at hg
      have hqp := h.tree (by omega) (by omega) hg ht
      rw [hqp, hp] at hq
      exact absurd hq (Nat.lt_irrefl 3)
    rw [hsame] at hpresent' ⊢
    exact h.plain hq hg hlow' hpresent'

end Descent

end OpenIDP.Memory
