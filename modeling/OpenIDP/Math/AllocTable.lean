import Mathlib.Data.Finset.Card
import Mathlib.Data.List.Nodup
import Mathlib.Logic.Function.Basic

/-!
# Chains in an allocation table

A table gives a link to every cell: the cell is free, the last of a chain, or followed by
another cell. A store that hands out cells keeps a list of chains that are disjoint and have all
the cells that are not free.

## Main definitions

* `Link` — what a table has for a cell
* `Links`, `Chain` — cells that are linked in order, and a chain of them
* `Holds` — a table has some chains, and nothing else

## Main results

* `Holds.start`, `Holds.extend`, `Holds.cut`, `Holds.release` — what keeps the chains apart
* `Holds.card_free_add` — a cell is free or in a chain
-/

namespace OpenIDP.Math

/-- What a table has for a cell. -/
inductive Link (α : Type*)
  | free
  | last
  | next (a : α)
deriving DecidableEq

@[simp] theorem Link.last_ne_free {α : Type*} : (Link.last : Link α) ≠ .free := fun h => by cases h

@[simp] theorem Link.next_ne_free {α : Type*} (a : α) : Link.next a ≠ .free := fun h => by cases h

variable {α : Type*} {t t' : α → Link α} {e e' : Link α} {a b : α} {l xs ys : List α}

/-- A link to the first of some cells, or `e` when there are none. -/
def linkTo (e : Link α) : List α → Link α
  | [] => e
  | a :: _ => .next a

/-- Cells that are linked in order. The last one has the link `e`. -/
def Links (t : α → Link α) : List α → Link α → Prop
  | [], _ => True
  | a :: l, e => t a = linkTo e l ∧ Links t l e

/-- Cells from the first to the last one of a chain. -/
def Chain (t : α → Link α) (l : List α) : Prop := l ≠ [] ∧ Links t l .last

theorem linkTo_append (e : Link α) (xs ys : List α) :
    linkTo e (xs ++ ys) = linkTo (linkTo e ys) xs := by
  cases xs <;> rfl

theorem links_append : Links t (xs ++ ys) e ↔ Links t xs (linkTo e ys) ∧ Links t ys e := by
  induction xs with
  | nil => exact (and_iff_right trivial).symm
  | cons x xs ih => rw [List.cons_append, Links, Links, ih, linkTo_append, and_assoc]

@[simp] theorem links_singleton : Links t [a] e ↔ t a = e := and_iff_left trivial

/-- Links only depend on the cells. -/
theorem Links.congr (h : Links t l e) (heq : ∀ c ∈ l, t' c = t c) : Links t' l e := by
  induction l with
  | nil => trivial
  | cons a l ih =>
    obtain ⟨ha, hl⟩ := List.forall_mem_cons.mp heq
    exact ⟨ha.trans h.1, ih h.2 hl⟩

/-- Two cells that follow each other. -/
theorem Links.next {i : ℕ} (h : Links t l e) (ha : l[i]? = some a) (hb : l[i + 1]? = some b) :
    t a = .next b := by
  induction l generalizing i with
  | nil => cases ha
  | cons x l ih =>
    cases i with
    | zero =>
      obtain rfl := Option.some.inj ha
      cases l with
      | nil => cases hb
      | cons y l =>
        obtain rfl := Option.some.inj hb
        exact h.1
    | succ i => exact ih h.2 ha hb

/-- No cell of a chain is free. -/
theorem Links.ne_free (h : Links t l e) (he : e ≠ .free) : ∀ c ∈ l, t c ≠ .free := by
  induction l with
  | nil => exact List.forall_mem_nil _
  | cons a l ih =>
    refine List.forall_mem_cons.mpr ⟨?_, ih h.2⟩
    rw [h.1]
    cases l with
    | nil => exact he
    | cons b l => exact Link.next_ne_free b

theorem Chain.congr (h : Chain t l) (heq : ∀ c ∈ l, t' c = t c) : Chain t' l :=
  ⟨h.1, h.2.congr heq⟩

theorem Chain.ne_free (h : Chain t l) : ∀ c ∈ l, t c ≠ .free := h.2.ne_free Link.last_ne_free

/-- The link at a place in a chain. -/
theorem Chain.link_eq (h : Chain t (xs ++ a :: ys)) : t a = linkTo .last ys :=
  (links_append.mp h.2).2.1

/-- A table has some chains, and no other cells are in use. -/
structure Holds (t : α → Link α) (cells : Finset α) (chains : List (List α)) : Prop where
  nodup : chains.flatten.Nodup
  chain : ∀ l ∈ chains, Chain t l
  mem_iff : ∀ a, a ∈ chains.flatten ↔ a ∈ cells ∧ t a ≠ .free

namespace Holds

variable {cells : Finset α} {chains : List (List α)} {ls rs : List (List α)}

/-- Only the links of the cells matter. -/
theorem congr (h : Holds t cells chains) (heq : ∀ c ∈ cells, t' c = t c) :
    Holds t' cells chains := by
  refine ⟨h.nodup, fun l hl => ?_, fun c => ?_⟩
  · apply (h.chain l hl).congr
    exact fun c hc => heq c ((h.mem_iff c).mp (List.mem_flatten_of_mem hl hc)).1
  · rw [h.mem_iff]
    exact and_congr_right fun hc => by rw [heq c hc]

theorem mem_flatten_cons : a ∈ (ls ++ l :: rs).flatten ↔ a ∈ l ∨ a ∈ (ls ++ rs).flatten := by
  simp only [List.flatten_append, List.flatten_cons, List.mem_append]
  exact or_left_comm

theorem nodup_flatten_cons : (ls ++ l :: rs).flatten.Nodup ↔
    l.Nodup ∧ (ls ++ rs).flatten.Nodup ∧ ∀ c ∈ l, c ∉ (ls ++ rs).flatten := by
  have hperm : (ls ++ l :: rs).flatten.Perm (l ++ (ls ++ rs).flatten) := by
    simp only [List.flatten_append, List.flatten_cons]
    rw [← List.append_assoc, ← List.append_assoc]
    exact List.perm_append_comm.append_right _
  rw [hperm.nodup_iff, List.nodup_append']
  exact Iff.rfl

/-- The chain at a place gets other cells. This is what the edits below have in common. -/
theorem replace {l' : List α} (h : Holds t cells (ls ++ l :: rs))
    (hsame : ∀ c ∈ (ls ++ rs).flatten, t' c = t c) (hnodup : l'.Nodup)
    (hfresh : ∀ c ∈ l', c ∉ (ls ++ rs).flatten) (hl' : l' ≠ [] → Chain t' l')
    (hmem : ∀ c, c ∉ (ls ++ rs).flatten → (c ∈ l' ↔ c ∈ cells ∧ t' c ≠ .free)) :
    Holds t' cells (if l' = [] then ls ++ rs else ls ++ l' :: rs) := by
  obtain ⟨-, hrest, -⟩ := nodup_flatten_cons.mp h.nodup
  have hchain : ∀ k ∈ ls ++ rs, Chain t' k := by
    intro k hk
    have hk' : k ∈ ls ++ l :: rs :=
      (List.mem_append.mp hk).elim (List.mem_append_left _)
        fun hk => List.mem_append_right _ (List.mem_cons_of_mem _ hk)
    exact (h.chain k hk').congr fun c hc => hsame c (List.mem_flatten_of_mem hk hc)
  have hother : ∀ c ∈ (ls ++ rs).flatten, c ∈ cells ∧ t' c ≠ .free := by
    intro c hc
    rw [hsame c hc]
    exact (h.mem_iff c).mp (mem_flatten_cons.mpr (Or.inr hc))
  have hmem' : ∀ c, c ∈ l' ∨ c ∈ (ls ++ rs).flatten ↔ c ∈ cells ∧ t' c ≠ .free := by
    intro c
    by_cases hc : c ∈ (ls ++ rs).flatten
    · exact iff_of_true (Or.inr hc) (hother c hc)
    · rw [or_iff_left hc]
      exact hmem c hc
  by_cases hempty : l' = []
  · rw [if_pos hempty]
    refine ⟨hrest, hchain, fun c => ?_⟩
    rw [← hmem' c, hempty, or_iff_right List.not_mem_nil]
  · rw [if_neg hempty]
    refine ⟨nodup_flatten_cons.mpr ⟨hnodup, hrest, hfresh⟩, fun k hk => ?_, fun c => ?_⟩
    · rcases List.mem_append.mp hk with hk | hk
      · exact hchain k (List.mem_append_left _ hk)
      · rcases List.mem_cons.mp hk with rfl | hk
        · exact hl' hempty
        · exact hchain k (List.mem_append_right _ hk)
    · rw [mem_flatten_cons]
      exact hmem' c

/-- A free cell becomes a chain. -/
theorem start (h : Holds t cells chains) (hb : b ∈ cells) (hfree : t b = .free)
    (hlast : t' b = .last) (hsame : ∀ c ∈ cells, c ≠ b → t' c = t c) :
    Holds t' cells ([b] :: chains) := by
  have hout : b ∉ chains.flatten := fun hmem => ((h.mem_iff b).mp hmem).2 hfree
  refine ⟨?_, ?_, fun c => ?_⟩
  · rw [List.flatten_cons, List.singleton_append]
    exact List.nodup_cons.mpr ⟨hout, h.nodup⟩
  · refine List.forall_mem_cons.mpr ⟨⟨List.cons_ne_nil _ _, links_singleton.mpr hlast⟩, ?_⟩
    intro l hl
    apply (h.chain l hl).congr
    intro c hc
    have hmem := List.mem_flatten_of_mem hl hc
    exact hsame c ((h.mem_iff c).mp hmem).1 (ne_of_mem_of_not_mem hmem hout)
  · rw [List.flatten_cons, List.singleton_append, List.mem_cons, h.mem_iff]
    by_cases hcb : c = b
    · subst hcb
      rw [hlast]
      exact iff_of_true (Or.inl rfl) ⟨hb, Link.last_ne_free⟩
    · rw [or_iff_right hcb]
      exact and_congr_right fun hc => by rw [hsame c hc hcb]

/-- A free cell is linked behind the last one of a chain. -/
theorem extend (h : Holds t cells (ls ++ (l ++ [a]) :: rs)) (hb : b ∈ cells)
    (hfree : t b = .free) (hnext : t' a = .next b) (hlast : t' b = .last)
    (hsame : ∀ c ∈ cells, c ≠ a → c ≠ b → t' c = t c) :
    Holds t' cells (ls ++ (l ++ [a, b]) :: rs) := by
  obtain ⟨hl, -, hfresh⟩ := nodup_flatten_cons.mp h.nodup
  have hchain : Chain t (l ++ [a]) := h.chain _ (List.mem_append_right _ List.mem_cons_self)
  have hmem : ∀ c, c ∈ l ++ [a] ∨ c ∈ (ls ++ rs).flatten ↔ c ∈ cells ∧ t c ≠ .free := by
    intro c
    rw [← h.mem_iff, mem_flatten_cons]
  have hb' : b ∉ l ++ [a] := fun hmem' => ((hmem b).mp (Or.inl hmem')).2 hfree
  have hbo : b ∉ (ls ++ rs).flatten := fun hmem' => ((hmem b).mp (Or.inr hmem')).2 hfree
  have ha : a ∈ l ++ [a] := List.mem_append_right _ List.mem_cons_self
  have hal : a ∉ l := fun hmem' => (List.nodup_append'.mp hl).2.2 hmem' List.mem_cons_self
  have hassoc : l ++ [a, b] = (l ++ [a]) ++ [b] := (List.append_assoc l [a] [b]).symm
  have hne : l ++ [a, b] ≠ [] := List.append_ne_nil_of_right_ne_nil _ (List.cons_ne_nil _ _)
  have hnew : Holds t' cells
      (if l ++ [a, b] = [] then ls ++ rs else ls ++ (l ++ [a, b]) :: rs) := by
    apply h.replace
    · exact fun c hc => hsame c ((hmem c).mp (Or.inr hc)).1 (fun hca => hfresh c (hca ▸ ha) hc)
        (ne_of_mem_of_not_mem hc hbo)
    · rw [hassoc, List.nodup_append']
      exact ⟨hl, List.nodup_singleton b, fun c hc hcb => hb' (List.mem_singleton.mp hcb ▸ hc)⟩
    · intro c hc
      rw [hassoc, List.mem_append, List.mem_singleton] at hc
      rcases hc with hc | rfl
      · exact hfresh c hc
      · exact hbo
    · refine fun _ => ⟨hne, links_append.mpr ⟨?_, hnext, links_singleton.mpr hlast⟩⟩
      apply (links_append.mp hchain.2).1.congr
      intro c hc
      have hcl := List.mem_append_left [a] hc
      exact hsame c ((hmem c).mp (Or.inl hcl)).1 (ne_of_mem_of_not_mem hc hal)
        (ne_of_mem_of_not_mem hcl hb')
    · intro c hc
      rw [hassoc, List.mem_append, List.mem_singleton]
      by_cases hcb : c = b
      · rw [hcb, hlast]
        exact iff_of_true (Or.inr rfl) ⟨hb, Link.last_ne_free⟩
      rw [or_iff_left hcb]
      by_cases hca : c = a
      · rw [hca, hnext]
        exact iff_of_true ha ⟨((hmem a).mp (Or.inl ha)).1, Link.next_ne_free b⟩
      · rw [← or_iff_left (a := c ∈ l ++ [a]) hc, hmem c]
        exact and_congr_right fun hcell => by rw [hsame c hcell hca hcb]
  rwa [if_neg hne] at hnew

/-- The cells behind one of a chain are freed. -/
theorem cut (h : Holds t cells (ls ++ (l ++ a :: ys) :: rs)) (hlast : t' a = .last)
    (hfree : ∀ c ∈ ys, t' c = .free) (hsame : ∀ c ∈ cells, c ≠ a → c ∉ ys → t' c = t c) :
    Holds t' cells (ls ++ (l ++ [a]) :: rs) := by
  obtain ⟨hl, -, hfresh⟩ := nodup_flatten_cons.mp h.nodup
  have hchain : Chain t (l ++ a :: ys) := h.chain _ (List.mem_append_right _ List.mem_cons_self)
  have hmem : ∀ c, c ∈ l ++ a :: ys ∨ c ∈ (ls ++ rs).flatten ↔ c ∈ cells ∧ t c ≠ .free := by
    intro c
    rw [← h.mem_iff, mem_flatten_cons]
  obtain ⟨hln, hays, hdisj⟩ := List.nodup_append'.mp hl
  have ha : a ∈ l ++ a :: ys := List.mem_append_right _ List.mem_cons_self
  have hpart : ∀ c, c ∈ l ++ [a] → c ∈ l ++ a :: ys ∧ c ∉ ys := by
    intro c hc
    rcases List.mem_append.mp hc with hc | hc
    · exact ⟨List.mem_append_left _ hc, fun hys => hdisj hc (List.mem_cons_of_mem _ hys)⟩
    · rw [List.mem_singleton.mp hc]
      exact ⟨ha, (List.nodup_cons.mp hays).1⟩
  have hother : ∀ c ∈ (ls ++ rs).flatten, t' c = t c := by
    intro c hc
    apply hsame c ((hmem c).mp (Or.inr hc)).1
    · exact fun hca => hfresh c (hca ▸ ha) hc
    · exact fun hys => hfresh c (List.mem_append_right _ (List.mem_cons_of_mem _ hys)) hc
  have hne : l ++ [a] ≠ [] := List.append_ne_nil_of_right_ne_nil _ (List.cons_ne_nil _ _)
  have hnew : Holds t' cells (if l ++ [a] = [] then ls ++ rs else ls ++ (l ++ [a]) :: rs) := by
    apply h.replace hother
    · rw [List.nodup_append']
      exact ⟨hln, List.nodup_singleton a, fun c hc hca =>
        hdisj hc (List.mem_singleton.mp hca ▸ List.mem_cons_self)⟩
    · exact fun c hc => hfresh c (hpart c hc).1
    · refine fun _ => ⟨hne, links_append.mpr ⟨?_, links_singleton.mpr hlast⟩⟩
      apply (links_append.mp hchain.2).1.congr
      intro c hc
      apply hsame c ((hmem c).mp (Or.inl (List.mem_append_left _ hc))).1
      · exact fun hca => hdisj hc (hca ▸ List.mem_cons_self)
      · exact fun hys => hdisj hc (List.mem_cons_of_mem _ hys)
    · intro c hc
      by_cases hca : c = a
      · rw [hca, hlast]
        exact iff_of_true (List.mem_append_right _ List.mem_cons_self)
          ⟨((hmem a).mp (Or.inl ha)).1, Link.last_ne_free⟩
      by_cases hys : c ∈ ys
      · exact iff_of_false (fun hc' => (hpart c hc').2 hys) fun hc' => hc'.2 (hfree c hys)
      · have hmem' := hmem c
        rw [or_iff_left hc] at hmem'
        simp only [List.mem_append, List.mem_cons, hys, or_false, List.not_mem_nil] at hmem' ⊢
        rw [hmem']
        exact and_congr_right fun hcell => by rw [hsame c hcell hca hys]
  rwa [if_neg hne] at hnew

/-- All cells of a chain are freed. -/
theorem release (h : Holds t cells (ls ++ l :: rs)) (hfree : ∀ c ∈ l, t' c = .free)
    (hsame : ∀ c ∈ cells, c ∉ l → t' c = t c) : Holds t' cells (ls ++ rs) := by
  obtain ⟨-, -, hfresh⟩ := nodup_flatten_cons.mp h.nodup
  have hnew : Holds t' cells (if ([] : List α) = [] then ls ++ rs else ls ++ [] :: rs) := by
    apply h.replace
    · exact fun c hc => hsame c ((h.mem_iff c).mp (mem_flatten_cons.mpr (Or.inr hc))).1
        fun hl => hfresh c hl hc
    · exact List.nodup_nil
    · exact fun c hc => absurd hc List.not_mem_nil
    · exact fun hne => absurd rfl hne
    · intro c hc
      refine iff_of_false List.not_mem_nil fun hused => ?_
      by_cases hl : c ∈ l
      · exact hused.2 (hfree c hl)
      · rw [hsame c hused.1 hl, ← h.mem_iff, mem_flatten_cons] at hused
        exact hused.elim hl hc
  exact hnew

/-- A cell is free or in a chain. -/
theorem card_free_add [DecidableEq α] (h : Holds t cells chains) :
    (cells.filter fun a => t a = .free).card + chains.flatten.length = cells.card := by
  have hused : (cells.filter fun a => ¬t a = .free) = chains.flatten.toFinset := by
    ext a
    rw [Finset.mem_filter, List.mem_toFinset, h.mem_iff]
  rw [← List.toFinset_card_of_nodup h.nodup, ← hused]
  exact Finset.card_filter_add_card_filter_not _

end Holds

end OpenIDP.Math
