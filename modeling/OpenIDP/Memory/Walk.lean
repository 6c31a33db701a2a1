import OpenIDP.Memory.Access
import OpenIDP.Memory.Forest
import OpenIDP.Memory.MapRuns
import OpenIDP.Memory.Sbrk

/-!
# The tables of one address space

The processor goes through tables until it comes to a page. What it finds depends on the words of
these tables only. In an address space the tables of the lower half are a tree, and none of them is
one of the tables that the upper half leads to. That is all that mapping and unmapping pages needs:
the pages themselves may be anything, also frames that were given back long ago.

## Main definitions

* `walk` — the table that entries lead to
* `Halves` — the tables of the two halves of an address space
* `MapsOnly` — what may change while pages of the lower half are mapped and filled
* `NullApart` — what a `NULL` leads to is not among these tables

## Main results

* `translate_congr` — what the processor finds depends on the tables it goes through
* `Forest.halves`, `Forest.nullApart` — the tables of a task in a kernel where each has its place
* `Halves.mapsOnly`, `NullApart.mapsOnly` — mapping pages keeps them, and the upper half
-/

namespace OpenIDP.Memory

open OpenIDP.Math

/-- The table that present entries lead to, none of them the one of a huge page. -/
def walk (mem : Frames) : ℕ → Path → Option ℕ
  | table, [] => some table
  | table, index :: rest =>
    if IsPresent (mem table index) ∧ ¬ IsHuge (mem table index) then
      walk mem (entryFrame (mem table index)) rest
    else
      none

section Walk

variable {mem mem' : Frames} {root : ℕ} {q : Path}

/-- The walk looks at the entries of the tables that it comes to. -/
theorem walk_congr (h : ∀ p i f, p ++ [i] <+: q → walk mem root p = some f → mem' f i = mem f i) :
    walk mem' root q = walk mem root q := by
  induction q generalizing root with
  | nil => rfl
  | cons i rest ih =>
    have hword : mem' root i = mem root i := h [] i root (by simp) rfl
    rw [walk, walk, hword]
    split_ifs with hgoes
    · refine ih fun p j f hp hf => h (i :: p) j f ?_ ?_
      · exact List.cons_prefix_cons.mpr ⟨rfl, hp⟩
      · rw [walk, if_pos hgoes, hf]
    · rfl

/-- What the processor finds depends on the tables that it goes through. -/
theorem translate_congr
    (h : ∀ p i f, p ++ [i] <+: q → walk mem root p = some f → mem' f i = mem f i) :
    translate mem' root q = translate mem root q := by
  induction q generalizing root with
  | nil => rfl
  | cons i rest ih =>
    have hword : mem' root i = mem root i := h [] i root (by simp) rfl
    rw [translate, translate, hword]
    split_ifs with hpresent hstop
    · rfl
    · have hgoes : IsPresent (mem root i) ∧ ¬ IsHuge (mem root i) :=
        ⟨hpresent, (not_or.mp hstop).2⟩
      refine ih fun p j f hp hf => h (i :: p) j f ?_ ?_
      · exact List.cons_prefix_cons.mpr ⟨rfl, hp⟩
      · rw [walk, if_pos hgoes, hf]
    · rfl

end Walk

/-- The frame is in use, and none of the tables of the lower half. -/
structure Apart (root : ℕ) (v : Vm) (f : ℕ) : Prop where
  used : ¬ v.pmm.Free f
  plain : ¬ IsTable v.mem root f

/-- The tables of an address space: those of the lower half are a tree, and the upper half leads to
others. -/
structure Halves (root : ℕ) (v : Vm) : Prop where
  space : Space 3 root v
  upper : ∀ {i : Fin 512} {q : Path} {f}, 256 ≤ i.val → q.length ≤ 2 →
    walk v.mem root (i :: q) = some f → Apart root v f

/-- Pages of the lower half are mapped: tables are added, and frames that were free or are in
`pages` may have other contents. -/
structure MapsOnly (root : ℕ) (pages : Set ℕ) (v v' : Vm) : Prop where
  space : Space 3 root v'
  free : ∀ g, v'.pmm.Free g → v.pmm.Free g
  kept : ∀ g, Apart root v g → g ∉ pages → v'.mem g = v.mem g
  upper : ∀ j : Fin 512, 256 ≤ j.val → v'.mem root j = v.mem root j
  tables : ∀ g, IsTable v'.mem root g → IsTable v.mem root g ∨ v.pmm.Free g

/-- The tables through which the processor finds the page at address 0, and the page itself, are
none of the tables of the address space `root`. -/
structure NullApart (root cr3 : ℕ) (v : Vm) : Prop where
  tables : ∀ {p : Path} {i f}, p ++ [i] <+: indices 0 → walk v.mem cr3 p = some f → Apart root v f
  page : ∀ {f}, frameOf v.mem cr3 0 = some f → Apart root v f ∧
    (∀ {p : Path} {i}, p ++ [i] <+: indices 0 → walk v.mem cr3 p ≠ some f) ∧
    ∀ {i : Fin 512} {q : Path}, 256 ≤ i.val → q.length ≤ 2 → walk v.mem root (i :: q) ≠ some f

section Halves

variable {root cr3 virt phys flags f x : ℕ} {pages : Set ℕ} {v v' v'' : Vm}

theorem not_inUserHalf (hlow : 2 ^ 64 - 2 ^ 47 ≤ x) (hx : x < 2 ^ 64) : ¬ InUserHalf x := by
  rw [InUserHalf, pml4Index, tableIndex, Fin.val_ofNat, Nat.shiftRight_eq_div_pow]
  omega

/-- The upper half sees the words of its own tables, and of the upper half of the PML4. -/
theorem translate_upper (hroot : ∀ j : Fin 512, 256 ≤ j.val → v'.mem root j = v.mem root j)
    (hkept : ∀ {i : Fin 512} {q : Path} {f}, 256 ≤ i.val → q.length ≤ 2 →
      walk v.mem root (i :: q) = some f → v'.mem f = v.mem f) (hx : ¬ InUserHalf x) :
    translate v'.mem root (indices x) = translate v.mem root (indices x) := by
  refine translate_congr fun p i f hp hf => ?_
  have hlen : (p ++ [i]).length ≤ 4 := hp.length_le
  rw [List.length_append, List.length_singleton] at hlen
  cases p with
  | nil =>
    obtain rfl := Option.some_inj.mp hf
    obtain rfl : i = pml4Index x := (List.cons_prefix_cons.mp hp).1
    exact hroot _ (Nat.not_lt.mp hx)
  | cons j q =>
    obtain rfl : j = pml4Index x := (List.cons_prefix_cons.mp hp).1
    rw [List.length_cons] at hlen
    rw [hkept (Nat.not_lt.mp hx) (by omega) hf]

/-- Tables of the upper half that keep their words stay the tables of the upper half. -/
theorem walk_upper (hroot : ∀ j : Fin 512, 256 ≤ j.val → v'.mem root j = v.mem root j)
    (hkept : ∀ {i : Fin 512} {q : Path} {f}, 256 ≤ i.val → q.length ≤ 2 →
      walk v.mem root (i :: q) = some f → v'.mem f = v.mem f)
    {i : Fin 512} {q : Path} (hi : 256 ≤ i.val) (hq : q.length ≤ 2) :
    walk v'.mem root (i :: q) = walk v.mem root (i :: q) := by
  refine walk_congr fun p j f hp hf => ?_
  have hlen := hp.length_le
  rw [List.length_append, List.length_singleton, List.length_cons] at hlen
  cases p with
  | nil =>
    obtain rfl := Option.some_inj.mp hf
    obtain rfl : j = i := (List.cons_prefix_cons.mp hp).1
    exact hroot _ hi
  | cons j' q' =>
    obtain rfl : j' = i := (List.cons_prefix_cons.mp hp).1
    rw [List.length_cons] at hlen
    rw [hkept hi (by omega) hf]

theorem MapsOnly.refl (h : Space 3 root v) : MapsOnly root pages v v :=
  ⟨h, fun _ => id, fun _ _ _ => rfl, fun _ _ => rfl, fun _ => Or.inl⟩

/-- What is apart stays so. -/
theorem MapsOnly.apart (h : MapsOnly root pages v v') (hf : Apart root v f) : Apart root v' f :=
  ⟨fun hfree => hf.used (h.free f hfree), fun htable =>
    (h.tables f htable).elim hf.plain hf.used⟩

theorem MapsOnly.trans (h : MapsOnly root pages v v') (h' : MapsOnly root pages v' v'') :
    MapsOnly root pages v v'' := by
  refine ⟨h'.space, fun g hg => h.free g (h'.free g hg), fun g hg hpage => ?_, fun j hj => ?_,
    fun g hg => ?_⟩
  · exact (h'.kept g (h.apart hg) hpage).trans (h.kept g hg hpage)
  · exact (h'.upper j hj).trans (h.upper j hj)
  · rcases h'.tables g hg with htable | hfree
    · exact h.tables g htable
    · exact Or.inr (h.free g hfree)

/-- Mapping pages keeps the two halves apart, and the upper half does not see it. -/
theorem Halves.mapsOnly (h : Halves root v) (hmaps : MapsOnly root pages v v')
    (hpages : ∀ f ∈ pages, ∀ {i : Fin 512} {q : Path}, 256 ≤ i.val → q.length ≤ 2 →
      walk v.mem root (i :: q) ≠ some f) :
    Halves root v' ∧ ∀ x, ¬ InUserHalf x →
      translate v'.mem root (indices x) = translate v.mem root (indices x) := by
  have hkept : ∀ {i : Fin 512} {q : Path} {f}, 256 ≤ i.val → q.length ≤ 2 →
      walk v.mem root (i :: q) = some f → v'.mem f = v.mem f := fun hi hq hf =>
    hmaps.kept _ (h.upper hi hq hf) fun hpage => hpages _ hpage hi hq hf
  refine ⟨⟨hmaps.space, fun hi hq hf => ?_⟩, fun x hx => translate_upper hmaps.upper hkept hx⟩
  rw [walk_upper hmaps.upper hkept hi hq] at hf
  exact hmaps.apart (h.upper hi hq hf)

/-- Mapping pages, and filling them or the page at address 0, leaves that page where it is. -/
theorem NullApart.mapsOnly (h : NullApart root cr3 v) (hhalves : Halves root v)
    (hmaps : MapsOnly root {f | frameOf v.mem cr3 0 = some f} v v') :
    frameOf v'.mem cr3 0 = frameOf v.mem cr3 0 ∧ NullApart root cr3 v' := by
  have hwords : ∀ {p : Path} {i f}, p ++ [i] <+: indices 0 → walk v.mem cr3 p = some f →
      v'.mem f = v.mem f := fun hp hf =>
    hmaps.kept _ (h.tables hp hf) fun hpage => (h.page hpage).2.1 hp hf
  have hwalk : ∀ {p : Path} {i}, p ++ [i] <+: indices 0 →
      walk v'.mem cr3 p = walk v.mem cr3 p := fun {p i} hp =>
    walk_congr fun q j f hq hf => by
      have hlong : q ++ [j] <+: indices 0 := hq.trans ((List.prefix_append p [i]).trans hp)
      rw [hwords hlong hf]
  have hframe : frameOf v'.mem cr3 0 = frameOf v.mem cr3 0 := by
    rw [frameOf, frameOf, translate_congr fun p i f hp hf => by rw [hwords hp hf]]
  have hupper : ∀ {i : Fin 512} {q : Path}, 256 ≤ i.val → q.length ≤ 2 →
      walk v'.mem root (i :: q) = walk v.mem root (i :: q) := fun hi hq =>
    walk_upper hmaps.upper (fun hi hq hf => hmaps.kept _ (hhalves.upper hi hq hf)
      fun hpage => (h.page hpage).2.2 hi hq hf) hi hq
  refine ⟨hframe, fun hp hf => ?_, fun hf => ?_⟩
  · rw [hwalk hp] at hf
    exact hmaps.apart (h.tables hp hf)
  · rw [hframe] at hf
    obtain ⟨hapart, htables, hother⟩ := h.page hf
    refine ⟨hmaps.apart hapart, fun hp hwalks => ?_, fun hi hq hwalks => ?_⟩
    · rw [hwalk hp] at hwalks
      exact htables hp hwalks
    · rw [hupper hi hq] at hwalks
      exact hother hi hq hwalks

/-! ## Frames that are taken, mapped and filled -/

/-- A frame is taken, or there is none. -/
theorem Space.alloc_mapsOnly (pages : Set ℕ) {page : Option ℕ} (h : Space 3 root v)
    (halloc : v.allocFrame = (page, v')) :
    MapsOnly root pages v v' ∧ v'.mem = v.mem ∧
      ∀ f ∈ page, v.pmm.Free f ∧ ¬ v'.pmm.Free f ∧ entryFrame f = f := by
  obtain ⟨hsound, hmem, hfree, hpage⟩ : v'.Sound ∧ v'.mem = v.mem ∧
      (∀ g, v'.pmm.Free g → v.pmm.Free g) ∧
      ∀ f ∈ page, v.pmm.Free f ∧ ¬ v'.pmm.Free f ∧ entryFrame f = f := by
    cases page with
    | none =>
      obtain ⟨hsound, hmem, -, -, hfree⟩ := h.sound.allocFrame_none halloc
      exact ⟨hsound, hmem, fun g => (hfree g).mp, fun f hf => absurd hf (Option.not_mem_none f)⟩
    | some f =>
      obtain ⟨hfree, hsound, hmem, hlent, -, hfree', -⟩ := h.sound.allocFrame_some halloc
      refine ⟨hsound, hmem, fun g hg => ((hfree' g).mp hg).1, fun g hg => ?_⟩
      obtain rfl := Option.some_inj.mp hg
      exact ⟨hfree, fun hg => ((hfree' f).mp hg).2 rfl,
        hsound.isFrame (hlent ▸ Set.mem_insert _ _)⟩
  obtain ⟨hspace, -⟩ := h.congr hsound (fun p f hp hf hg => h.not_free hp hf (hfree f hg))
    fun p f i _ _ => by rw [hmem]
  exact ⟨⟨hspace, hfree, fun _ _ _ => by rw [hmem], fun _ _ => by rw [hmem],
    fun g hg => Or.inl (by rwa [hmem] at hg)⟩, hmem, hpage⟩

/-- A page of the lower half is mapped. -/
theorem Space.map_mapsOnly (pages : Set ℕ) (h : Space 3 root v) (hvirt : InUserHalf virt)
    (hrun : v.vmmMapPage root virt phys flags = some v') : MapsOnly root pages v v' := by
  obtain ⟨hspace, -, -, hupper⟩ := h.vmmMapPage hvirt hrun
  rw [Vm.vmmMapPage_eq] at hrun
  obtain ⟨⟨t, v₁⟩, hrun₁, rfl⟩ := Option.map_eq_some_iff.mp hrun
  obtain ⟨new, hgrows, ht⟩ := h.pageTableFor hvirt hrun₁
  obtain ⟨-, hreach, -⟩ := hgrows.space.setEntry (i := ptIndex virt) ht rfl
    ((phys &&& pageAlignMask) ||| flags ||| vmmPresent)
  have hlength : (tablePath virt).length ≤ 3 := by simp [tablePath]
  have hfresh : ∀ {q : Path} {g}, q.length ≤ 3 → reach v₁.mem root q = some g →
      IsTable v.mem root g ∨ v.pmm.Free g := fun hq hg =>
    (hgrows.fresh hq hg).imp (fun hold => ⟨_, hq, hold⟩) fun hnew => hgrows.lends.free _ hnew
  refine ⟨hspace, fun g hg => (hgrows.lends.free_iff.mp hg).1, fun g hg _ => ?_, hupper,
    fun g hg => ?_⟩
  · funext j
    have hgt : g ≠ t := fun e => (hfresh hlength (e ▸ ht)).elim hg.plain hg.used
    refine (Vm.mem_setWord _ _ _).trans ((if_neg fun e => hgt e.1).trans ?_)
    rw [hgrows.outside g hg.used fun q hq hreach => hg.plain ⟨q, by omega, hreach⟩]
  · obtain ⟨q, hq, hg⟩ := hg
    rw [hreach q hq] at hg
    exact hfresh hq hg

/-- A frame that is no table is written. -/
theorem Space.write_mapsOnly (h : Space 3 root v) (hf : ¬ IsTable v.mem root f)
    (hkept : ∀ g, g ≠ f → v'.mem g = v.mem g) (hpmm : v'.pmm = v.pmm) (hlent : v'.lent = v.lent) :
    Space 3 root v' ∧ (∀ q : Path, q.length ≤ 3 → reach v'.mem root q = reach v.mem root q) ∧
      (∀ x, pageEntry v'.mem root x = pageEntry v.mem root x) ∧
      ∀ j, v'.mem root j = v.mem root j := by
  have hwords : ∀ p g, p.length ≤ 3 → reach v.mem root p = some g → v'.mem g = v.mem g :=
    fun p g hp hg => hkept g fun e => hf (e ▸ ⟨p, hp, hg⟩)
  obtain ⟨hspace, hreach⟩ := h.congr (h.sound.of_same hpmm hlent)
    (fun p g hp hg => by rw [hpmm]; exact h.not_free hp hg)
    fun p g i hp hg => by rw [hwords p g (by omega) hg]
  refine ⟨hspace, hreach, fun x => ?_, fun j => by rw [hwords [] root (Nat.zero_le _) rfl]⟩
  have hlength : (tablePath x).length ≤ 3 := by simp [tablePath]
  rw [pageEntry, pageEntry, leafEntry, leafEntry, hreach _ hlength]
  cases ht : reach v.mem root (tablePath x) with
  | none => rfl
  | some t => rw [Option.bind_some, Option.bind_some, hwords _ t hlength ht]

/-- A frame is taken, mapped and cleared. -/
theorem Space.growPage_mapsOnly (pages : Set ℕ) {v₁ v₂ v₃ : Vm} (h : Space 3 root v)
    (hvirt : virt < 2 ^ 47)
    (halloc : v.allocFrame = (some f, v₁)) (hmap : v₁.vmmMapPage root virt f 7 = some v₂)
    (hclear : v₂.memsetPage root virt = some v₃) :
    MapsOnly root pages v (v₃.clearPage f) := by
  have huser := inUserHalf_of_lt hvirt
  obtain ⟨hfirst, hmem₁, hpage⟩ := h.alloc_mapsOnly pages halloc
  obtain ⟨hfree, hused, hframe⟩ := hpage f rfl
  have hsecond := hfirst.space.map_mapsOnly pages huser hmap
  have hnot : ¬ IsTable v₂.mem root f := fun htable => by
    rcases hsecond.tables f htable with htable | hfree'
    · obtain ⟨q, hq, hreach⟩ := htable
      rw [hmem₁] at hreach
      exact h.not_free hq hreach hfree
    · exact hused hfree'
  obtain ⟨-, hentry, -, -⟩ := hfirst.space.vmmMapPage huser hmap
  rw [hsecond.space.memsetPage_eq hvirt hentry, (@entry_page 7 f (by decide)).1, hframe] at hclear
  obtain rfl := Option.some_inj.mp hclear
  have hkept : ∀ g, g ≠ f → ((v₂.clearPage f).clearPage f).mem g = v₂.mem g := fun g hg => by
    funext j
    rw [Vm.mem_clearPage, if_neg hg, Vm.mem_clearPage, if_neg hg]
  obtain ⟨hspace, hreach, -, hroot⟩ := hsecond.space.write_mapsOnly hnot hkept rfl rfl
  obtain ⟨-, hfree', hkept', hupper, htables⟩ := hfirst.trans hsecond
  refine ⟨hspace, hfree', fun g hg hpage => ?_, fun j hj => (hroot j).trans (hupper j hj),
    fun g hg => ?_⟩
  · exact (hkept g fun e => hg.used (e ▸ hfree)).trans (hkept' g hg hpage)
  · obtain ⟨q, hq, hg⟩ := hg
    exact htables g ⟨q, hq, hreach q hq ▸ hg⟩

/-- A heap that grows within the lower half. -/
theorem Space.growPages_mapsOnly {base n i : ℕ} {done : Bool} (h : Space 3 root v)
    (hbound : base + (i + n) * pageSize ≤ 2 ^ 47)
    (hrun : growPages root base n i v = some (done, v')) : MapsOnly root pages v v' := by
  induction n generalizing i v with
  | zero =>
    obtain ⟨-, rfl⟩ := Prod.mk.inj (Option.some_inj.mp hrun)
    exact .refl h
  | succ n ih =>
    rw [growPages] at hrun
    split at hrun
    · next v₁ halloc =>
      obtain ⟨-, rfl⟩ := Prod.mk.inj (Option.some_inj.mp hrun)
      exact (h.alloc_mapsOnly pages halloc).1
    · next f v₁ halloc =>
      have hrest : base + (i + 1 + n) * pageSize ≤ 2 ^ 47 := by
        rwa [Nat.add_assoc, Nat.add_comm 1 n]
      have hlt : base + i * pageSize < 2 ^ 47 := by
        rw [pageSize] at hbound ⊢
        omega
      rw [wrap_of_lt (hlt.trans (by decide))] at hrun
      obtain ⟨v₂, hmap, hrun⟩ := Option.bind_eq_some_iff.mp hrun
      obtain ⟨v₃, hclear, hrun⟩ := Option.bind_eq_some_iff.mp hrun
      have hfirst := h.growPage_mapsOnly pages hlt halloc hmap hclear
      exact hfirst.trans (ih hfirst.space hrest hrun)

/-- A call of `sys_sbrk` that stays within the lower half. -/
theorem Space.sysSbrk_mapsOnly (pages : Set ℕ) {programBreak result newBreak : ℕ} {inc : ℤ}
    (h : Space 3 root v)
    (hbound : alignUp (wrap (programBreak + toU64 inc)) pageSize ≤ 2 ^ 47)
    (hrun : sysSbrk v root programBreak inc = some (result, newBreak, v')) :
    MapsOnly root pages v v' := by
  rw [sysSbrk] at hrun
  dsimp only at hrun
  split_ifs at hrun with hzero hgrow
  · obtain ⟨-, -, rfl⟩ : programBreak = result ∧ programBreak = newBreak ∧ v = v' := by
      simpa using hrun
    exact .refl h
  · obtain ⟨⟨done, v₁⟩, hloop, hrun⟩ := Option.bind_eq_some_iff.mp hrun
    obtain rfl : v₁ = v' := by
      cases done with
      | false => exact (Prod.mk.inj (Prod.mk.inj (Option.some_inj.mp hrun)).2).2
      | true => exact (Prod.mk.inj (Prod.mk.inj (Option.some_inj.mp hrun)).2).2
    refine h.growPages_mapsOnly ?_ hloop
    rw [pageSize] at hgrow hbound ⊢
    omega
  · exact (Prod.mk.inj (Prod.mk.inj (Option.some_inj.mp hrun)).2).2 ▸ .refl h

/-- The part of a huge page that is looked for is a frame. -/
theorem frameOf_aligned {mem : Frames} (h : frameOf mem cr3 x = some f) : f % pageSize = 0 := by
  obtain ⟨⟨rest, entry⟩, -, rfl⟩ := Option.map_eq_some_iff.mp h
  change (entryFrame entry / (pageSize * 512 ^ rest.length) * (pageSize * 512 ^ rest.length) +
    x % (pageSize * 512 ^ rest.length) / pageSize * pageSize) % pageSize = 0
  rw [Nat.mul_comm pageSize, ← Nat.mul_assoc, ← Nat.add_mul, Nat.mul_mod_left]

end Halves

/-! ## Kernels in which each table has its place -/

section Forest

variable {κ root cr3 f g : ℕ} {fb roots : Set ℕ} {place : Places} {v : Vm} {p q : Path}

/-- The kernel's tables lead to tables of the kernel. -/
theorem Forest.walk_kernel (hF : Forest κ fb v roots place) (hf : place f = some (κ, p))
    (hp : p ≠ []) (hlen : p.length + q.length ≤ 3) (hwalk : walk v.mem f q = some g) :
    place g = some (κ, p ++ q) := by
  induction q generalizing f p with
  | nil =>
    obtain rfl := Option.some_inj.mp hwalk
    rwa [List.append_nil]
  | cons i q ih =>
    rw [walk] at hwalk
    rw [List.length_cons] at hlen
    split_ifs at hwalk with hgoes
    have hchild := hF.table_entry hf (fun hnil => absurd hnil hp) (by omega) hgoes.1
      fun _ => hgoes.2
    have hplace := ih hchild (by simp) (by rw [List.length_append, List.length_singleton]; omega)
      hwalk
    rwa [List.append_assoc] at hplace

/-- The upper half of a task's PML4 leads into the kernel's tables. -/
theorem Forest.walk_upper (hF : Forest κ fb v roots place) (hroot : root ∈ roots) {i : Fin 512}
    (hi : 256 ≤ i.val) (hq : q.length ≤ 2) (hwalk : walk v.mem root (i :: q) = some f) :
    place f = some (κ, i :: q) := by
  rw [walk] at hwalk
  split_ifs at hwalk with hgoes
  obtain ⟨hpresent, hframe, hhuge⟩ := hF.shared root hroot i hi hgoes.1
  rw [hframe] at hwalk
  have hchild := hF.table_entry hF.kernel_place (fun _ => iff_of_true rfl hi) (by decide) hpresent
    fun _ h => hgoes.2 (hhuge.mpr h)
  exact hF.walk_kernel hchild (by simp) (by simpa using Nat.add_le_add_left hq 1) hwalk

/-- A table of the kernel is none of a task. -/
theorem Forest.apart (hF : Forest κ fb v roots place) (hroot : root ∈ roots)
    (hf : place f = some (g, q)) (hne : g ≠ root) : Apart root v f := by
  refine ⟨hF.not_free hf, fun htable => hne ?_⟩
  obtain ⟨q', hq'⟩ := hF.place_of_isTable hroot htable
  exact (Prod.mk.inj (Option.some_inj.mp (hf.symm.trans hq'))).1

/-- The tables of a task and of the kernel. -/
theorem Forest.halves (hF : Forest κ fb v roots place) (hroot : root ∈ roots) : Halves root v :=
  ⟨hF.spaces.space root hroot, fun hi hq hwalk =>
    hF.apart hroot (hF.walk_upper hroot hi hq hwalk) fun e => hF.kernel_notMem (e ▸ hroot)⟩

theorem follow_of_walk {mem : Frames} (h : walk mem f q = some g) : follow mem f q = some g := by
  induction q generalizing f with
  | nil => exact h
  | cons i q ih =>
    rw [walk] at h
    split_ifs at h with hgoes
    rw [follow, nextTable, if_pos hgoes.1]
    exact ih h

/-- The page at address 0 of one task, and the tables of another. -/
theorem Forest.nullApart (hF : Forest κ fb v roots place) (hroot : root ∈ roots)
    (hcr3 : cr3 ∈ roots) (hne : cr3 ≠ root) : NullApart root cr3 v := by
  have hκ : cr3 ≠ κ := fun e => hF.kernel_notMem (e ▸ hcr3)
  have hplace : ∀ {p : Path} {i f}, p ++ [i] <+: indices 0 → walk v.mem cr3 p = some f →
      place f = some (cr3, p) := by
    intro p i f hp hwalk
    have hlen : (p ++ [i]).length ≤ 4 := hp.length_le
    rw [List.length_append, List.length_singleton] at hlen
    refine hF.follow_table hκ (hF.root_place cr3 hcr3) ?_ (fun _ => ?_) (follow_of_walk hwalk)
    · rw [List.length_nil]
      omega
    · obtain ⟨rest, hrest⟩ := (List.prefix_append p [i]).trans hp
      intro j hj
      cases p with
      | nil => cases hj
      | cons j' p =>
        obtain rfl : j' = pml4Index 0 := (List.cons.inj hrest).1
        obtain rfl := Option.some_inj.mp hj
        decide
  refine ⟨fun hp hwalk => hF.apart hroot (hplace hp hwalk) hne, fun {f} hpage => ?_⟩
  rw [(hF.spaces.space cr3 hcr3).frameOf_eq (by decide)] at hpage
  obtain ⟨e, he, rfl⟩ := Option.map_eq_some_iff.mp hpage
  obtain ⟨hnone, hwhere⟩ := hF.place_of_leaf hcr3 rfl he
  have hnot : ∀ {x}, place (entryFrame e) ≠ some x := fun h => by
    rw [hnone] at h
    cases h
  refine ⟨⟨hwhere.elim hF.sound.not_free (hF.fb_not_free _), fun htable => ?_⟩,
    fun hp hwalk => hnot (hplace hp hwalk),
    fun hi hq hwalk => hnot (hF.walk_upper hroot hi hq hwalk)⟩
  obtain ⟨q, hq⟩ := hF.place_of_isTable hroot htable
  exact hnot hq

/-- While the kernel's own PML4 is loaded, a `NULL` leads nowhere if it has no table for it. -/
theorem Forest.nullApart_kernel (hF : Forest κ fb v roots place) (hroot : root ∈ roots)
    (habsent : ¬ IsPresent (v.mem κ (pml4Index 0))) : NullApart root κ v := by
  refine ⟨fun {p i f} hp hwalk => ?_, fun {f} hpage => ?_⟩
  · cases p with
    | nil =>
      obtain rfl := Option.some_inj.mp hwalk
      exact hF.apart hroot hF.kernel_place fun e => hF.kernel_notMem (e ▸ hroot)
    | cons j p =>
      obtain rfl : j = pml4Index 0 := (List.cons_prefix_cons.mp hp).1
      rw [walk, if_neg fun h => habsent h.1] at hwalk
      cases hwalk
  · rw [frameOf, indices, translate, if_neg habsent] at hpage
    cases hpage

end Forest

end OpenIDP.Memory
