import Mathlib.Algebra.GroupWithZero.Nat
import Mathlib.Algebra.BigOperators.Group.List.Basic
import Mathlib.Data.Nat.Basic

/-!
# Lists cut at separators

The parts of a list between separators, without the empty ones. Each is read off the front of the
list: separators are skipped, and a part ends at the next separator or with the list.

## Main results

* `segments_separator`, `segments_word`, `segments_last` — reading off the front
* `exists_first_segment` — what a list with a first part looks like
* `mem_segments` — what the parts look like
* `segments_weight_le`, `length_segments_le` — their lengths and their number
* `exists_segmentsFrom`, `SegmentsFrom.spec` — the parts by their places, as the longest runs
  without a separator
-/

namespace OpenIDP.Math

variable {α : Type*} (sep : α → Bool)

/-- The parts of a list of which `part` was already read. -/
def segmentsFrom : List α → List α → List (List α)
  | part, [] => if part = [] then [] else [part]
  | part, c :: s =>
    if sep c then
      if part = [] then segmentsFrom [] s else part :: segmentsFrom [] s
    else segmentsFrom (part ++ [c]) s

/-- The parts of a list between separators that are not empty. -/
def segments (s : List α) : List (List α) := segmentsFrom sep [] s

variable {sep} {c : α} {s w part : List α} {ws : List (List α)}

@[simp] theorem segments_nil : segments sep ([] : List α) = [] := rfl

theorem segmentsFrom_append (hw : ∀ c ∈ w, sep c = false) :
    segmentsFrom sep part (w ++ s) = segmentsFrom sep (part ++ w) s := by
  induction w generalizing part with
  | nil => rw [List.nil_append, List.append_nil]
  | cons c w ih =>
    obtain ⟨hc, hrest⟩ := List.forall_mem_cons.mp hw
    rw [List.cons_append, segmentsFrom, hc, if_neg Bool.false_ne_true, ih hrest,
      List.append_assoc, List.singleton_append]

/-- Separators in front are skipped. -/
theorem segments_separator (hc : sep c = true) : segments sep (c :: s) = segments sep s := by
  rw [segments, segmentsFrom, if_pos hc, if_pos rfl, segments]

/-- A part ends at a separator. -/
theorem segments_word (hw : ∀ c ∈ w, sep c = false) (hne : w ≠ []) (hc : sep c = true) :
    segments sep (w ++ c :: s) = w :: segments sep s := by
  rw [segments, segmentsFrom_append hw, List.nil_append, segmentsFrom, if_pos hc, if_neg hne,
    segments]

/-- The last part may end with the list. -/
theorem segments_last (hw : ∀ c ∈ w, sep c = false) (hne : w ≠ []) : segments sep w = [w] := by
  have happend : segmentsFrom sep [] (w ++ []) = segmentsFrom sep ([] ++ w) [] :=
    segmentsFrom_append hw
  rw [List.append_nil, List.nil_append] at happend
  rw [segments, happend, segmentsFrom, if_neg hne]

theorem segments_skip (hw : ∀ c ∈ w, sep c = true) : segments sep (w ++ s) = segments sep s := by
  induction w with
  | nil => rfl
  | cons c w ih =>
    obtain ⟨hc, hrest⟩ := List.forall_mem_cons.mp hw
    rw [List.cons_append, segments_separator hc, ih hrest]

/-- A list begins with what has a property, up to the end or to something without it. -/
theorem exists_prefix (p : α → Bool) (s : List α) :
    ∃ w rest, s = w ++ rest ∧ (∀ c ∈ w, p c = true) ∧
      (rest = [] ∨ ∃ c later, rest = c :: later ∧ p c = false) := by
  induction s with
  | nil => exact ⟨[], [], rfl, fun c hc => absurd hc List.not_mem_nil, Or.inl rfl⟩
  | cons c s ih =>
    cases hc : p c with
    | false =>
      refine ⟨[], c :: s, rfl, fun c hc => absurd hc List.not_mem_nil, Or.inr ⟨c, s, rfl, hc⟩⟩
    | true =>
      obtain ⟨w, rest, hs, hw, hrest⟩ := ih
      refine ⟨c :: w, rest, ?_, List.forall_mem_cons.mpr ⟨hc, hw⟩, hrest⟩
      rw [List.cons_append, ← hs]

/-- A list is separators, a part, and nothing or a separator and more; or only separators. -/
theorem exists_first_segment (sep : α → Bool) (s : List α) :
    (segments sep s = [] ∧ ∀ c ∈ s, sep c = true) ∨
      ∃ before w rest, s = before ++ (w ++ rest) ∧ (∀ c ∈ before, sep c = true) ∧ w ≠ [] ∧
        (∀ c ∈ w, sep c = false) ∧
        (rest = [] ∧ segments sep s = [w] ∨
          ∃ c later, rest = c :: later ∧ sep c = true ∧
            segments sep s = w :: segments sep later) := by
  obtain ⟨before, s₁, rfl, hbefore, hs₁⟩ := exists_prefix sep s
  rw [segments_skip hbefore]
  rcases hs₁ with rfl | ⟨c, later, rfl, hc⟩
  · rw [List.append_nil]
    exact Or.inl ⟨rfl, hbefore⟩
  · obtain ⟨w, rest, hw, hplain, hrest⟩ := exists_prefix (fun c => !sep c) later
    subst hw
    have hword : ∀ d ∈ c :: w, sep d = false :=
      List.forall_mem_cons.mpr ⟨hc, fun d hd => by simpa using hplain d hd⟩
    refine Or.inr ⟨before, c :: w, rest, rfl, hbefore, List.cons_ne_nil c w, hword, ?_⟩
    rcases hrest with rfl | ⟨d, after, rfl, hd⟩
    · rw [List.append_nil, segments_last hword (List.cons_ne_nil c w)]
      exact Or.inl ⟨rfl, rfl⟩
    · have hsep : sep d = true := by simpa using hd
      rw [← List.cons_append, segments_word hword (List.cons_ne_nil c w) hsep]
      exact Or.inr ⟨d, after, rfl, hsep, rfl⟩

/-- No part is empty or has a separator, and all it holds is of the list. -/
theorem mem_segments (hw : w ∈ segments sep s) :
    w ≠ [] ∧ (∀ c ∈ w, sep c = false) ∧ ∀ c ∈ w, c ∈ s := by
  induction hn : s.length using Nat.strongRecOn generalizing s with
  | _ n ih =>
    rcases exists_first_segment sep s with ⟨hnil, -⟩ |
      ⟨before, w', rest, hs, -, hne, hplain, ⟨-, hall⟩ | ⟨c, later, hrest, -, hall⟩⟩
    · rw [hnil] at hw
      exact absurd hw List.not_mem_nil
    · rw [hall, List.mem_singleton] at hw
      rw [hw, hs]
      exact ⟨hne, hplain, fun c hc => List.mem_append_right _ (List.mem_append_left _ hc)⟩
    · rw [hall] at hw
      rcases List.mem_cons.mp hw with rfl | hw
      · rw [hs]
        exact ⟨hne, hplain, fun c hc => List.mem_append_right _ (List.mem_append_left _ hc)⟩
      · have hlt : later.length < n := by
          rw [← hn, hs, hrest, List.length_append, List.length_append, List.length_cons]
          omega
        obtain ⟨hne', hplain', hmem⟩ := ih _ hlt hw rfl
        refine ⟨hne', hplain', fun c hc => ?_⟩
        rw [hs, hrest]
        exact List.mem_append_right _ (List.mem_append_right _ (List.mem_cons_of_mem _ (hmem c hc)))

/-- The parts, each with a separator, are not longer than the list and one more separator. -/
theorem segments_weight_le (s : List α) :
    ((segments sep s).map fun w => w.length + 1).sum ≤ s.length + 1 := by
  induction hn : s.length using Nat.strongRecOn generalizing s with
  | _ n ih =>
    rcases exists_first_segment sep s with ⟨hnil, -⟩ |
      ⟨before, w, rest, hs, -, -, -, ⟨hrest, hall⟩ | ⟨c, later, hrest, -, hall⟩⟩
    · rw [hnil]
      exact Nat.zero_le _
    · rw [hall, List.map_singleton, List.sum_singleton, ← hn, hs, List.length_append,
        List.length_append]
      omega
    · have hlength : s.length = before.length + (w.length + (later.length + 1)) := by
        rw [hs, hrest, List.length_append, List.length_append, List.length_cons]
      have hlater := ih later.length (by omega) later rfl
      rw [hall, List.map_cons, List.sum_cons]
      omega

theorem length_segments_le (s : List α) : (segments sep s).length ≤ s.length := by
  have hweight : ((segments sep s).map fun w => w.length + 1).sum ≤ s.length + 1 :=
    segments_weight_le s
  have hcount : ∀ ws : List (List α), (∀ w ∈ ws, w ≠ []) →
      2 * ws.length ≤ (ws.map fun w => w.length + 1).sum := by
    intro ws hws
    induction ws with
    | nil => exact le_rfl
    | cons w ws ih =>
      obtain ⟨hw, hrest⟩ := List.forall_mem_cons.mp hws
      have hpos := List.length_pos_iff.mpr hw
      have hlater := ih hrest
      rw [List.map_cons, List.sum_cons, List.length_cons]
      omega
  have hdouble := hcount (segments sep s) fun w hw => (mem_segments hw).1
  omega

/-! ### Parts by their places -/

/-- The places from `a` to `b` are a longest run without a separator, and not empty. -/
structure IsSegment (sep : α → Bool) (s : List α) (a b : ℕ) : Prop where
  nonempty : a < b
  le : b ≤ s.length
  plain : ∀ k, a ≤ k → k < b → s[k]?.map sep = some false
  left : a = 0 ∨ s[a - 1]?.map sep = some true
  right : b = s.length ∨ s[b]?.map sep = some true

theorem IsSegment.congr {sep' : α → Bool} {a b : ℕ} (hsame : ∀ c ∈ s, sep c = sep' c)
    (h : IsSegment sep s a b) : IsSegment sep' s a b := by
  have hmap : ∀ k, s[k]?.map sep' = s[k]?.map sep := fun k =>
    Option.map_congr fun c hc => (hsame c (List.mem_of_getElem? hc)).symm
  refine ⟨h.nonempty, h.le, fun k hk hlt => ?_, ?_, ?_⟩
  · rw [hmap]
    exact h.plain k hk hlt
  · rw [hmap]
    exact h.left
  · rw [hmap]
    exact h.right

/-- From each place on there is a run of separators, or of others, that ends with the list or at
something else. -/
theorem exists_run (p : Bool) {j : ℕ} (hj : j ≤ s.length) :
    ∃ a, j ≤ a ∧ a ≤ s.length ∧ (∀ k, j ≤ k → k < a → s[k]?.map sep = some p) ∧
      (a = s.length ∨ s[a]?.map sep = some (!p)) := by
  induction hn : s.length - j generalizing j with
  | zero => exact ⟨j, le_rfl, hj, fun k _ _ => by omega, Or.inl (by omega)⟩
  | succ n ih =>
    have hlt : j < s.length := by omega
    have hhere : s[j]?.map sep = some (sep s[j]) := by
      rw [List.getElem?_eq_getElem hlt, Option.map_some]
    by_cases hp : sep s[j] = p
    · obtain ⟨a, hja, ha, hrun, hend⟩ := ih (j := j + 1) (by omega) (by omega)
      refine ⟨a, by omega, ha, fun k hjk hka => ?_, hend⟩
      rcases hjk.eq_or_lt with rfl | hlater
      · rw [hhere, hp]
      · exact hrun k hlater hka
    · refine ⟨j, le_rfl, hj, fun k _ _ => by omega, Or.inr ?_⟩
      rw [hhere, Bool.eq_not.mpr hp]

/-- The parts from the place `j` on, each with the place behind it. -/
def SegmentsFrom (sep : α → Bool) (s : List α) : ℕ → List (ℕ × ℕ) → Prop
  | j, [] => ∀ k, j ≤ k → k < s.length → s[k]?.map sep = some true
  | j, (a, b) :: rest =>
    (j ≤ a ∧ a < b ∧ b ≤ s.length) ∧ (∀ k, j ≤ k → k < a → s[k]?.map sep = some true) ∧
      (∀ k, a ≤ k → k < b → s[k]?.map sep = some false) ∧
      (b = s.length ∨ s[b]?.map sep = some true) ∧ SegmentsFrom sep s (b + 1) rest

theorem exists_segmentsFrom (sep : α → Bool) (s : List α) (j : ℕ) :
    ∃ parts, SegmentsFrom sep s j parts := by
  induction hn : s.length - j using Nat.strongRecOn generalizing j with
  | ind n ih =>
    by_cases hj : j ≤ s.length
    · obtain ⟨a, hja, ha, hskip, hstart⟩ := exists_run true hj
      rcases hstart with rfl | hstart
      · exact ⟨[], hskip⟩
      · have hlt : a < s.length := by
          by_contra hge
          rw [List.getElem?_eq_none (by omega)] at hstart
          cases hstart
        obtain ⟨b, hab, hb, hplain, hend⟩ := exists_run false ha
        have hne : a ≠ b := by
          rintro rfl
          rcases hend with hend | hend
          · omega
          · exact Bool.noConfusion (Option.some_inj.mp (hstart.symm.trans hend))
        obtain ⟨rest, hrest⟩ := ih (s.length - (b + 1)) (by omega) (b + 1) rfl
        exact ⟨(a, b) :: rest, ⟨hja, by omega, hb⟩, hskip, hplain, hend, hrest⟩
    · exact ⟨[], fun k hjk hk => by omega⟩

section Places

variable {j a b a' b' : ℕ} {parts : List (ℕ × ℕ)}

/-- A part behind some separators is the next one, or lies behind it. -/
theorem IsSegment.eq_or_behind (h : IsSegment sep s a' b') (hj : j ≤ a')
    (hab : a < b) (hb : b ≤ s.length) (hskip : ∀ k, j ≤ k → k < a → s[k]?.map sep = some true)
    (hplain : ∀ k, a ≤ k → k < b → s[k]?.map sep = some false)
    (hend : b = s.length ∨ s[b]?.map sep = some true) : a' = a ∧ b' = b ∨ b < a' := by
  have hclash : ∀ {k : ℕ}, s[k]?.map sep = some true → s[k]?.map sep = some false → False :=
    fun htrue hfalse => Bool.noConfusion (Option.some_inj.mp (htrue.symm.trans hfalse))
  have hnonempty := h.nonempty
  have hle := h.le
  have ha : a ≤ a' := by
    by_contra hlt
    exact hclash (hskip a' hj (by omega)) (h.plain a' le_rfl hnonempty)
  by_cases hlate : b < a'
  · exact Or.inr hlate
  · have hstart : a' = a := by
      by_contra hne
      rcases h.left with hzero | hleft
      · omega
      · exact hclash hleft (hplain (a' - 1) (by omega) (by omega))
    subst hstart
    refine Or.inl ⟨rfl, ?_⟩
    rcases Nat.lt_trichotomy b' b with hlt | heq | hgt
    · rcases h.right with hlast | hright
      · omega
      · exact absurd (hplain b' hnonempty.le hlt) (hclash hright)
    · exact heq
    · rcases hend with hlast | hright
      · omega
      · exact absurd (h.plain b hab.le hgt) (hclash hright)

/-- The parts by their places are all the longest runs without a separator, in order. -/
theorem SegmentsFrom.spec (h : SegmentsFrom sep s j parts)
    (hj : j = 0 ∨ s[j - 1]?.map sep = some true ∨ s.length < j) :
    (parts.Pairwise fun x y => x.2 < y.1) ∧
      ∀ a b, (a, b) ∈ parts ↔ IsSegment sep s a b ∧ j ≤ a := by
  induction parts generalizing j with
  | nil =>
    refine ⟨.nil, fun a b => ?_⟩
    refine iff_of_false List.not_mem_nil fun ⟨hseg, hle⟩ => ?_
    have hsep := h a hle (hseg.nonempty.trans_le hseg.le)
    exact Bool.noConfusion
      (Option.some_inj.mp (hsep.symm.trans (hseg.plain a le_rfl hseg.nonempty)))
  | cons x rest ih =>
    obtain ⟨a₀, b₀⟩ := x
    obtain ⟨⟨hja, hab, hb⟩, hskip, hplain, hend, hrest⟩ := h
    have hnext : b₀ + 1 = 0 ∨ s[b₀ + 1 - 1]?.map sep = some true ∨ s.length < b₀ + 1 := by
      rcases hend with hlast | hright
      · exact Or.inr (Or.inr (by omega))
      · exact Or.inr (Or.inl hright)
    obtain ⟨hpairwise, hmem⟩ := ih hrest hnext
    refine ⟨List.pairwise_cons.mpr ⟨fun y hy => ?_, hpairwise⟩, fun a b => ?_⟩
    · exact ((hmem y.1 y.2).mp hy).2
    · rw [List.mem_cons, hmem]
      constructor
      · rintro (heq | ⟨hseg, hle⟩)
        · obtain ⟨rfl, rfl⟩ := Prod.mk.inj heq
          refine ⟨⟨hab, hb, hplain, ?_, hend⟩, hja⟩
          rcases hja.eq_or_lt with rfl | hlt
          · rcases hj with hzero | hleft | hlong
            · exact Or.inl hzero
            · exact Or.inr hleft
            · omega
          · exact Or.inr (hskip (a - 1) (by omega) (by omega))
        · exact ⟨hseg, by omega⟩
      · rintro ⟨hseg, hle⟩
        rcases hseg.eq_or_behind hle hab hb hskip hplain hend with ⟨rfl, rfl⟩ | hlate
        · exact Or.inl rfl
        · exact Or.inr ⟨hseg, hlate⟩

end Places

end OpenIDP.Math
