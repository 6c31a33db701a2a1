import Mathlib.Data.List.Pairwise
import Mathlib.Data.List.Nodup
import Mathlib.Algebra.Order.Monoid.Unbundled.Basic

/-!
# Tilings of an interval

A list of addresses tiles an interval when the first tile lies at its start, each
tile begins where the one before it ends, and the last one ends at its stop. The width
of a tile is a function of its address, as the size field of a block header is.

## Main results

* `tiles_append` — a tiling cut in two is two tilings that meet
* `Tiles.pairwise` — tiles do not overlap
* `Tiles.length_le` — a bound on the number of tiles
* `Tiles.split`, `Tiles.merge`, `Tiles.snoc` — the edits of a tiling
-/

namespace OpenIDP.Math

variable {width width' : ℕ → ℕ} {start stop a : ℕ} {xs ys tiles : List ℕ}

/-- The tiles cover `[start, stop)` in order, without gaps or overlaps. -/
def Tiles (width : ℕ → ℕ) : ℕ → List ℕ → ℕ → Prop
  | start, [], stop => start = stop
  | start, a :: rest, stop => a = start ∧ Tiles width (a + width a) rest stop

theorem tiles_append :
    Tiles width start (xs ++ ys) stop ↔
      ∃ mid, Tiles width start xs mid ∧ Tiles width mid ys stop := by
  induction xs generalizing start with
  | nil => exact ⟨fun h => ⟨start, rfl, h⟩, fun ⟨_, hmid, h⟩ => hmid ▸ h⟩
  | cons x xs ih =>
    rw [List.cons_append, Tiles, ih]
    constructor
    · rintro ⟨hx, mid, hxs, hys⟩
      exact ⟨mid, ⟨hx, hxs⟩, hys⟩
    · rintro ⟨mid, ⟨hx, hxs⟩, hys⟩
      exact ⟨hx, mid, hxs, hys⟩

/-- A tiling only depends on the widths of its own tiles. -/
theorem Tiles.congr (h : Tiles width start tiles stop)
    (hwidth : ∀ c ∈ tiles, width' c = width c) : Tiles width' start tiles stop := by
  induction tiles generalizing start with
  | nil => exact h
  | cons c rest ih =>
    refine ⟨h.1, ?_⟩
    rw [hwidth c List.mem_cons_self]
    exact ih h.2 fun d hd => hwidth d (List.mem_cons_of_mem _ hd)

theorem Tiles.start_le (h : Tiles width start tiles stop) : start ≤ stop := by
  induction tiles generalizing start with
  | nil => exact Nat.le_of_eq h
  | cons c rest ih =>
    have hrest := ih h.2
    have hc := h.1
    omega

theorem Tiles.bounds (h : Tiles width start tiles stop) (ha : a ∈ tiles) :
    start ≤ a ∧ a + width a ≤ stop := by
  induction tiles generalizing start with
  | nil => cases ha
  | cons c rest ih =>
    obtain ⟨hc, hrest⟩ := h
    rcases List.mem_cons.mp ha with rfl | ha
    · exact ⟨Nat.le_of_eq hc.symm, hrest.start_le⟩
    · have hbounds := ih hrest ha
      omega

/-- Tiles further back in the list begin after the end of those before them. -/
theorem Tiles.pairwise (h : Tiles width start tiles stop) :
    tiles.Pairwise fun a b => a + width a ≤ b := by
  induction tiles generalizing start with
  | nil => exact .nil
  | cons c rest ih => exact .cons (fun b hb => (h.2.bounds hb).1) (ih h.2)

/-- Intervals that follow one another lie apart. -/
theorem apart_of_pairwise {b : ℕ} (h : tiles.Pairwise fun a b => a + width a ≤ b)
    (ha : a ∈ tiles) (hb : b ∈ tiles) (hne : a ≠ b) : a + width a ≤ b ∨ b + width b ≤ a := by
  have hsymm : ∀ x y : ℕ, (x ≠ y → x + width x ≤ y ∨ y + width y ≤ x) →
      (y ≠ x → y + width y ≤ x ∨ x + width x ≤ y) :=
    fun x y hxy hyx => (hxy hyx.symm).symm
  have hall := (h.imp fun {x y} hxy (_ : x ≠ y) =>
    (Or.inl hxy : x + width x ≤ y ∨ y + width y ≤ x))
  exact hall.forall_of_forall_of_flip (fun x _ hx => absurd rfl hx)
    (hall.imp fun {x y} => hsymm x y) ha hb hne

/-- Any two different tiles lie apart. -/
theorem Tiles.apart {b : ℕ} (h : Tiles width start tiles stop) (ha : a ∈ tiles)
    (hb : b ∈ tiles) (hne : a ≠ b) : a + width a ≤ b ∨ b + width b ≤ a :=
  apart_of_pairwise h.pairwise ha hb hne

theorem Tiles.nodup (h : Tiles width start tiles stop) (hpos : ∀ c, 0 < width c) :
    tiles.Nodup :=
  h.pairwise.imp fun {a b} hab => by
    have ha := hpos a
    omega

/-- Tiles of at least `k` bytes each: there is only room for so many. -/
theorem Tiles.length_le {k : ℕ} (h : Tiles width start tiles stop)
    (hleast : ∀ c, k ≤ width c) : tiles.length * k ≤ stop - start := by
  induction tiles generalizing start with
  | nil => simp
  | cons c rest ih =>
    have hrest := ih h.2
    have hc := hleast c
    have hle := h.2.start_le
    rw [List.length_cons, Nat.add_mul, Nat.one_mul]
    have hstart := h.1
    omega

/-! ## Edits -/

variable {b : ℕ}

/-- A tile gives up its end to a new tile. -/
theorem Tiles.split (h : Tiles width start (xs ++ a :: ys) stop) (hb : a + width' a = b)
    (hsum : width' a + width' b = width a) (hother : ∀ c ∈ xs ++ ys, width' c = width c) :
    Tiles width' start (xs ++ a :: b :: ys) stop := by
  obtain ⟨mid, hxs, ha, hys⟩ := tiles_append.mp h
  refine tiles_append.mpr ⟨mid, hxs.congr ?_, ha, hb.symm, ?_⟩
  · exact fun c hc => hother c (List.mem_append_left _ hc)
  · rw [← hb, Nat.add_assoc, hb, hsum]
    exact hys.congr fun c hc => hother c (List.mem_append_right _ hc)

/-- A tile swallows the one behind it. -/
theorem Tiles.merge (h : Tiles width start (xs ++ a :: b :: ys) stop)
    (hsum : width' a = width a + width b) (hother : ∀ c ∈ xs ++ ys, width' c = width c) :
    Tiles width' start (xs ++ a :: ys) stop := by
  obtain ⟨mid, hxs, ha, hb, hys⟩ := tiles_append.mp h
  refine tiles_append.mpr ⟨mid, hxs.congr ?_, ha, ?_⟩
  · exact fun c hc => hother c (List.mem_append_left _ hc)
  · rw [hsum, ← Nat.add_assoc, ← hb]
    exact hys.congr fun c hc => hother c (List.mem_append_right _ hc)

/-- A new tile behind the last one. -/
theorem Tiles.snoc (h : Tiles width start xs stop) (hother : ∀ c ∈ xs, width' c = width c) :
    Tiles width' start (xs ++ [stop]) (stop + width' stop) :=
  tiles_append.mpr ⟨stop, h.congr hother, rfl, rfl⟩

end OpenIDP.Math
