import OpenIDP.Memory.Access
import OpenIDP.Memory.Mapping

/-!
# Pages of a task in the forest

A page that is mapped in the lower half of a task's tables changes the view of that page only,
and the forest stays. Frames that hold no table can be written without the forest noticing.

## Main results

* `Forest.mapTaskPage` — a page is mapped in the tables of a task
* `Forest.write` — a frame without a table is written
* `Forest.mapFresh` — a frame that was free is mapped
-/

namespace OpenIDP.Memory

open OpenIDP.Math

section TaskPages

variable {κ : ℕ} {fb roots : Set ℕ} {place : Places} {v v' v₁ : Vm}
variable {r f g virt phys flags : ℕ} {page : Option ℕ}

namespace Forest

/-- Handing out a frame adds no table. -/
theorem allocFrame (hF : Forest κ fb v roots place) (h : v.allocFrame = (page, v')) :
    Forest κ fb v' roots place ∧ Grown v place v' place ∧ v'.mem = v.mem := by
  cases page with
  | none =>
    obtain ⟨-, hmem, hlent, hfreed, hfree⟩ := hF.sound.allocFrame_none h
    exact ⟨hF.alloc_none h, ⟨id, fun hf hf' => absurd hf hf', fun hg => (hfree _).mp hg,
      hlent.ge, hfreed⟩, hmem⟩
  | some f =>
    obtain ⟨-, -, hmem, hlent, hfreed, hfree, -⟩ := hF.sound.allocFrame_some h
    refine ⟨(hF.alloc h).1, ⟨id, fun hf hf' => absurd hf hf', fun hg => ((hfree _).mp hg).1, ?_,
      hfreed⟩, hmem⟩
    rw [hlent]
    exact Set.subset_insert _ _

/-- A frame of a page, or one that could become one. -/
def Mappable (fb : Set ℕ) (v : Vm) (place : Places) (f : ℕ) : Prop :=
  place f = none ∧ (f ∈ v.lent ∨ f ∈ fb)

theorem Mappable.used (hF : Forest κ fb v roots place) (hf : Mappable fb v place f) :
    ¬ v.pmm.Free f := by
  rcases hf.2 with hlent | hfb
  · exact hF.sound.not_free hlent
  · exact hF.fb_not_free f hfb

theorem Mappable.plainFrame (hF : Forest κ fb v roots place) (hf : Mappable fb v place f) :
    PlainFrame roots v f := by
  refine ⟨hf.used hF, fun s hs htable => ?_⟩
  obtain ⟨q, hq⟩ := hF.place_of_isTable hs htable
  exact Option.some_ne_none _ (hq.symm.trans hf.1)

theorem Mappable.grown {place' : Places} (hF : Forest κ fb v roots place)
    (hf : Mappable fb v place f) (hgrown : Grown v place v' place') : Mappable fb v' place' f :=
  ⟨hgrown.place_none hf.1 (hf.used hF), hf.2.imp_left fun hlent => hgrown.lent hlent⟩

/-- A page is mapped in the tables of a task. -/
theorem mapTaskPage (hF : Forest κ fb v roots place) (hr : r ∈ roots) (hvirt : InUserHalf virt)
    (hphys : Mappable fb v place (entryFrame phys)) (hflags : entryFrame flags = 0)
    (h : v.vmmMapPage r virt phys flags = some v') :
    ∃ place', Forest κ fb v' roots place' ∧ Grown v place v' place' ∧
      Touches roots r virt (some ((phys &&& pageAlignMask) ||| flags ||| vmmPresent)) v v' := by
  have hκ : r ≠ κ := fun e => hF.kernel_notMem (e ▸ hr)
  obtain ⟨place', hF', hgrown, -⟩ := hF.vmmMapPage (hF.root_place r hr)
    (iff_of_false hκ (not_not_intro hvirt)) (fun e => absurd e hκ) (fun _ => hphys) hflags h
  obtain ⟨-, htouches, -⟩ := hF.spaces.vmmMapPage hr hvirt (hphys.plainFrame hF) hflags h
  exact ⟨place', hF', hgrown, htouches⟩

/-- A frame without a table is written. -/
theorem write (hF : Forest κ fb v roots place) (hf : place f = none)
    (hmem : ∀ g, g ≠ f → v'.mem g = v.mem g) (hpmm : v'.pmm = v.pmm) (hlent : v'.lent = v.lent) :
    Forest κ fb v' roots place := by
  refine hF.congr (hF.sound.of_same hpmm hlent) (fun g hg => by rwa [← hpmm]) hlent.ge ?_
    fun g hg i => ?_
  · rw [hlent]
    exact hF.fb_not_lent
  · rw [hmem g fun e => hg (e ▸ hf)]
    exact SameEntry.refl _

/-- A frame that was free is mapped in the tables of a task. -/
theorem mapFresh (hF : Forest κ fb v roots place) (hr : r ∈ roots) (hvirt : InUserHalf virt)
    (halloc : v.allocFrame = (some f, v₁)) (h : v₁.vmmMapPage r virt f 7 = some v') :
    ∃ place', Forest κ fb v' roots place' ∧ Grown v place v' place' ∧
      Mappable fb v' place' f ∧ v.pmm.Free f ∧ f % pageSize = 0 ∧
      (∃ e, pageEntry v'.mem r virt = some e ∧ entryFrame e = f ∧ Allows e) ∧
      (∀ s ∈ roots, ∀ x, (s = r → ¬ SamePage x virt) →
        pageEntry v'.mem s x = pageEntry v.mem s x) ∧
      ∀ g, ¬ v.pmm.Free g → place g = none → v'.mem g = v.mem g := by
  obtain ⟨hF₁, hunseen, hlent⟩ := hF.alloc halloc
  obtain ⟨-, hgrown₁, hmem₁⟩ := hF.allocFrame halloc
  obtain ⟨hfree, -⟩ := hF.sound.allocFrame_some halloc
  have hframe : entryFrame f = f := hF₁.sound.isFrame hlent
  have hmappable : Mappable fb v₁ place f := ⟨hunseen.1, Or.inl hlent⟩
  obtain ⟨place', hF', hgrown', htouches⟩ := hF₁.mapTaskPage hr hvirt (hframe.symm ▸ hmappable)
    (by decide) h
  obtain ⟨hentry, -⟩ := @entry_page 7 f (by decide)
  refine ⟨place', hF', hgrown₁.trans hgrown', hmappable.grown hF₁ hgrown', hfree, ?_,
    ⟨_, htouches.entry_eq, hentry.trans hframe, allows_entry⟩, fun s hs x hx => ?_,
    fun g hg hplace => ?_⟩
  · rw [← hframe, ← entryFrame_page f, Nat.mul_mod_left]
  · rw [htouches.other s hs x hx, hmem₁]
  · have hne : g ≠ f := fun e => hg (e ▸ hfree)
    have hused : ¬ v₁.pmm.Free g := fun hg' => hg (hgrown₁.free hg')
    rw [htouches.mem_eq g hused, hmem₁]
    intro htable
    obtain ⟨q, hq⟩ := hF₁.place_of_isTable hr htable
    exact Option.some_ne_none _ (hq.symm.trans hplace)

end Forest

end TaskPages

end OpenIDP.Memory
