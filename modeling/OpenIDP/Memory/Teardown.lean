import Mathlib.Data.List.FinRange
import OpenIDP.Memory.AddressSpace

/-!
# Giving back the memory of an address space

`destroy_user_memory` walks the lower half of a PML4 and gives back every page and every
table it comes to, clearing the entries on the way. It works on the tables while it reads
them, so what it gives back is known only because the tables are a tree: what it clears
below one entry is not read again below another.

## Main definitions

* `Vm.freePageTableLevel`, `Vm.destroyUserMemory` — the functions of `task.c`
* `below`, `lowerFrames` — the frames below a table, and those of an address space
* `Tears` — frames are given back in order, and tables outside a set stay

## Main results

* `mem_below`, `nodup_below` — each frame below a table is listed once
* `Space.destroyUserMemory` — these frames are given back, and other tables stay
-/

namespace OpenIDP.Memory

open OpenIDP.Math

namespace Vm

/-- The body of the two loops: what a present entry leads to is given back, after
everything below it, and the entry is cleared. -/
def freeEntry (below : ℕ → Vm → Vm) (table : ℕ) (v : Vm) (index : Fin 512) : Vm :=
  if IsPresent (v.mem table index) then
    let child := entryFrame (v.mem table index)
    ((below child v).freeFrame child).setWord table index 0
  else
    v

/-- `free_page_table_level`. At level 1 the entries lead to pages, with nothing below. -/
def freePageTableLevel : ℕ → ℕ → Vm → Vm
  | 0, _, v => v
  | level + 1, table, v =>
    (List.finRange 512).foldl (freeEntry (freePageTableLevel level) table) v

/-- The entries of the lower half of a PML4. -/
def lowerIndices : List (Fin 512) := (List.finRange 512).filter (·.val < 256)

theorem mem_lowerIndices {i : Fin 512} : i ∈ lowerIndices ↔ i.val < 256 := by
  simp [lowerIndices]

theorem nodup_lowerIndices : lowerIndices.Nodup := (List.nodup_finRange 512).filter _

/-- `destroy_user_memory` -/
def destroyUserMemory (v : Vm) (pml4 : ℕ) : Vm :=
  lowerIndices.foldl (freeEntry (freePageTableLevel 3) pml4) v

end Vm

/-! ## The frames below a table -/

/-- What is given back for one entry. -/
def entryFrames (below : ℕ → List ℕ) (mem : Frames) (table : ℕ) (index : Fin 512) : List ℕ :=
  match nextTable mem table index with
  | none => []
  | some child => below child ++ [child]

/-- The frames below a table, in the order in which they are given back. -/
def below (mem : Frames) : ℕ → ℕ → List ℕ
  | 0, _ => []
  | level + 1, table => (List.finRange 512).flatMap (entryFrames (below mem level) mem table)

/-- The frames of the lower half of an address space. -/
def lowerFrames (mem : Frames) (root : ℕ) : List ℕ :=
  Vm.lowerIndices.flatMap (entryFrames (below mem 3) mem root)

/-- The tables at or below a table of the given level. -/
def Subtree (mem : Frames) (level table : ℕ) : Set ℕ :=
  {g | ∃ q : Path, q.length < level ∧ descend (nextTable mem) table q = some g}

section Below

variable {mem mem' : Frames} {level t c f root : ℕ} {i : Fin 512} {p q : Path}

theorem mem_entryFrames {frames : ℕ → List ℕ} : f ∈ entryFrames frames mem t i ↔
    ∃ c, nextTable mem t i = some c ∧ (f ∈ frames c ∨ f = c) := by
  rw [entryFrames]
  cases nextTable mem t i with
  | none => simp
  | some c => simp

theorem mem_below : f ∈ below mem level t ↔
    ∃ q : Path, q ≠ [] ∧ q.length ≤ level ∧ descend (nextTable mem) t q = some f := by
  induction level generalizing t with
  | zero =>
    refine iff_of_false List.not_mem_nil ?_
    rintro ⟨q, hne, hlen, -⟩
    exact hne (List.length_eq_zero_iff.mp (Nat.le_zero.mp hlen))
  | succ level ih =>
    rw [below, List.mem_flatMap]
    constructor
    · rintro ⟨i, -, hi⟩
      obtain ⟨c, hc, hf⟩ := mem_entryFrames.mp hi
      rcases hf with hf | rfl
      · obtain ⟨q, -, hlen, hq⟩ := ih.mp hf
        refine ⟨i :: q, List.cons_ne_nil _ _, Nat.succ_le_succ hlen, ?_⟩
        rw [descend_cons, hc]
        exact hq
      · refine ⟨[i], List.cons_ne_nil _ _, Nat.succ_le_succ (Nat.zero_le _), ?_⟩
        rw [descend_cons, hc]
        rfl
    · rintro ⟨q, hne, hlen, hq⟩
      cases q with
      | nil => exact absurd rfl hne
      | cons i q =>
        obtain ⟨c, hc, hrest⟩ := Option.bind_eq_some_iff.mp hq
        refine ⟨i, List.mem_finRange i, mem_entryFrames.mpr ⟨c, hc, ?_⟩⟩
        by_cases hnil : q = []
        · rw [hnil] at hrest
          exact Or.inr (Option.some_inj.mp hrest).symm
        · exact Or.inl (ih.mpr ⟨q, hnil, Nat.succ_le_succ_iff.mp hlen, hrest⟩)

theorem descend_child (hc : nextTable mem t i = some c) :
    descend (nextTable mem) t (i :: q) = descend (nextTable mem) c q := by
  rw [descend_cons, hc]
  rfl

end Below

/-! ## Trees below some entries of a table -/

/-- The children of the tables, where for one table only some entries count. -/
def onlyEntries (P : Fin 512 → Prop) [DecidablePred P] (mem : Frames) (t : ℕ) (table : ℕ)
    (index : Fin 512) : Option ℕ :=
  if table = t ∧ ¬ P index then none else nextTable mem table index

section Only

variable {P : Fin 512 → Prop} [DecidablePred P] {mem mem' : Frames} {n t c d f g root : ℕ}
variable {i j : Fin 512} {p q : Path}

theorem lowerTable_eq_onlyEntries : lowerTable mem root = onlyEntries (·.val < 256) mem root := by
  funext table index
  simp only [lowerTable, onlyEntries, Nat.not_lt]

theorem onlyEntries_true : onlyEntries (fun _ => True) mem t = nextTable mem := by
  funext table index
  exact if_neg fun h => h.2 trivial

/-- What is below an entry that counts is not restricted any further. -/
theorem descend_onlyEntries (h : IsTree (onlyEntries P mem t) n t) (hi : P i)
    (hc : nextTable mem t i = some c) (hq : q.length ≤ n) :
    descend (onlyEntries P mem t) t (i :: q) = descend (nextTable mem) c q := by
  have hfirst : onlyEntries P mem t t i = some c := (if_neg fun h => h.2 hi).trans hc
  induction q using List.reverseRecOn with
  | nil =>
    rw [descend_cons, hfirst]
    rfl
  | append_singleton q j ih =>
    rw [List.length_append, List.length_singleton] at hq
    have hq' := ih (by omega)
    rw [← List.cons_append, descend_concat, descend_concat, hq']
    cases hg : descend (nextTable mem) c q with
    | none => rfl
    | some g =>
      -- the table itself is not reached again
      refine if_neg fun hgt => ?_
      rw [hg, hgt.1] at hq'
      have hnil := h (q := []) (by rw [List.length_cons]; omega) (Nat.zero_le _) hq' rfl
      cases hnil

/-- Below an entry of a tree there is a tree. -/
theorem isTree_child (h : IsTree (onlyEntries P mem t) (n + 1) t) (hi : P i)
    (hc : nextTable mem t i = some c) : IsTree (nextTable mem) n c := by
  intro p q f hp hq hpf hqf
  rw [← descend_onlyEntries h hi hc (Nat.le_succ_of_le hp)] at hpf
  rw [← descend_onlyEntries h hi hc (Nat.le_succ_of_le hq)] at hqf
  exact (List.cons.inj (h (Nat.succ_le_succ hp) (Nat.succ_le_succ hq) hpf hqf)).2

/-- The trees below distinct entries are disjoint. -/
theorem child_apart (h : IsTree (onlyEntries P mem t) (n + 1) t) (hi : P i) (hj : P j)
    (hc : nextTable mem t i = some c) (hd : nextTable mem t j = some d) (hp : p.length ≤ n)
    (hq : q.length ≤ n) (hpf : descend (nextTable mem) c p = some f)
    (hqf : descend (nextTable mem) d q = some f) : i = j := by
  rw [← descend_onlyEntries h hi hc (Nat.le_succ_of_le hp)] at hpf
  rw [← descend_onlyEntries h hj hd (Nat.le_succ_of_le hq)] at hqf
  exact (List.cons.inj (h (Nat.succ_le_succ hp) (Nat.succ_le_succ hq) hpf hqf)).1

/-- The table itself is not below its entries. -/
theorem child_ne (h : IsTree (onlyEntries P mem t) (n + 1) t) (hi : P i)
    (hc : nextTable mem t i = some c) (hp : p.length ≤ n)
    (hpf : descend (nextTable mem) c p = some f) : f ≠ t := by
  rintro rfl
  rw [← descend_onlyEntries h hi hc (Nat.le_succ_of_le hp)] at hpf
  have hnil := h (p := i :: p) (q := []) (Nat.succ_le_succ hp) (Nat.zero_le _) hpf rfl
  cases hnil

/-- The frames behind distinct entries are listed once, if those below each entry are. -/
theorem nodup_flatMap_entryFrames {indices : List (Fin 512)} (hnodup : indices.Nodup)
    (hindices : ∀ i ∈ indices, P i) (h : IsTree (onlyEntries P mem t) (n + 1) t)
    (hbelow : ∀ c, IsTree (nextTable mem) n c → (below mem n c).Nodup) :
    (indices.flatMap (entryFrames (below mem n) mem t)).Nodup := by
  rw [List.nodup_flatMap]
  constructor
  · intro i hi
    rw [entryFrames]
    cases hc : nextTable mem t i with
    | none => exact List.nodup_nil
    | some c =>
      have htree := isTree_child h (hindices i hi) hc
      refine List.nodup_append'.mpr ⟨hbelow c htree, List.nodup_singleton c, ?_⟩
      intro f hf hfc
      obtain ⟨q, hne, hlen, hq⟩ := mem_below.mp hf
      rw [List.mem_singleton.mp hfc] at hq
      exact hne (htree (q := []) hlen (Nat.zero_le _) hq rfl)
  · refine hnodup.imp_of_mem fun {i j} hi hj hij f hfi hfj => hij ?_
    obtain ⟨c, hc, hfc⟩ := mem_entryFrames.mp hfi
    obtain ⟨d, hd, hfd⟩ := mem_entryFrames.mp hfj
    have hpath : ∀ {e}, f ∈ below mem n e ∨ f = e →
        ∃ p : Path, p.length ≤ n ∧ descend (nextTable mem) e p = some f := by
      rintro e (hf | rfl)
      · obtain ⟨p, -, hp, hpf⟩ := mem_below.mp hf
        exact ⟨p, hp, hpf⟩
      · exact ⟨[], Nat.zero_le _, rfl⟩
    obtain ⟨p, hp, hpf⟩ := hpath hfc
    obtain ⟨q, hq, hqf⟩ := hpath hfd
    exact child_apart h (hindices i hi) (hindices j hj) hc hd hp hq hpf hqf

/-- In a tree every frame below a table is listed once. -/
theorem nodup_below (h : IsTree (nextTable mem) n t) : (below mem n t).Nodup := by
  induction n generalizing t with
  | zero => exact List.nodup_nil
  | succ n ih =>
    rw [← onlyEntries_true (t := t)] at h
    exact nodup_flatMap_entryFrames (List.nodup_finRange 512) (fun _ _ => trivial) h
      fun c hc => ih hc

/-- What is below a table depends on the tables there. -/
theorem below_congr (h : ∀ g ∈ Subtree mem n t, mem' g = mem g) :
    below mem' n t = below mem n t := by
  induction n generalizing t with
  | zero => rfl
  | succ n ih =>
    have ht : mem' t = mem t := h t ⟨[], Nat.succ_pos n, rfl⟩
    have hentry : entryFrames (below mem' n) mem' t = entryFrames (below mem n) mem t := by
      funext i
      have hnext : nextTable mem' t i = nextTable mem t i := by
        rw [nextTable, nextTable, ht]
      rw [entryFrames, entryFrames, hnext]
      cases hc : nextTable mem t i with
      | none => rfl
      | some c =>
        have hchild : below mem' n c = below mem n c := by
          refine ih fun g hg => ?_
          obtain ⟨q, hq, hqg⟩ := hg
          exact h g ⟨i :: q, Nat.succ_lt_succ hq, (descend_child hc).trans hqg⟩
        change below mem' n c ++ [c] = below mem n c ++ [c]
        rw [hchild]
    rw [below, below, hentry]

theorem descend_nextTable_congr (h : ∀ g ∈ Subtree mem n t, mem' g = mem g) (hq : q.length ≤ n) :
    descend (nextTable mem') t q = descend (nextTable mem) t q := by
  refine descend_congr fun p f i hp hf => ?_
  rw [nextTable, nextTable, h f ⟨p, by omega, hf⟩]

/-- The frames of an address space, by the paths that lead to them. -/
theorem mem_lowerFrames (h : IsTree (lowerTable mem root) 3 root) : f ∈ lowerFrames mem root ↔
    ∃ q : Path, q ≠ [] ∧ q.length ≤ 4 ∧ reach mem root q = some f := by
  rw [lowerTable_eq_onlyEntries] at h
  simp only [reach, lowerTable_eq_onlyEntries]
  rw [lowerFrames, List.mem_flatMap]
  constructor
  · rintro ⟨i, hi, hf⟩
    obtain ⟨c, hc, hfc⟩ := mem_entryFrames.mp hf
    have hq : ∃ q : Path, q.length ≤ 3 ∧ descend (nextTable mem) c q = some f := by
      rcases hfc with hfc | rfl
      · obtain ⟨q, -, hlen, hq⟩ := mem_below.mp hfc
        exact ⟨q, hlen, hq⟩
      · exact ⟨[], Nat.zero_le _, rfl⟩
    obtain ⟨q, hlen, hq⟩ := hq
    refine ⟨i :: q, List.cons_ne_nil _ _, Nat.succ_le_succ hlen, ?_⟩
    rw [descend_onlyEntries h (Vm.mem_lowerIndices.mp hi) hc hlen, hq]
  · rintro ⟨q, hne, hlen, hq⟩
    cases q with
    | nil => exact absurd rfl hne
    | cons i q =>
      obtain ⟨c, hc, -⟩ := Option.bind_eq_some_iff.mp hq
      rw [← lowerTable_eq_onlyEntries] at hc
      obtain ⟨hlow, hpresent, hframe⟩ := lowerTable_eq_some.mp hc
      have hi : i.val < 256 := Nat.not_le.mp fun hle => hlow ⟨rfl, hle⟩
      have hnext := nextTable_eq_some.mpr ⟨hpresent, hframe⟩
      have hlen' : q.length ≤ 3 := Nat.succ_le_succ_iff.mp hlen
      rw [descend_onlyEntries h hi hnext hlen'] at hq
      refine ⟨i, Vm.mem_lowerIndices.mpr hi, mem_entryFrames.mpr ⟨c, hnext, ?_⟩⟩
      by_cases hnil : q = []
      · rw [hnil] at hq
        exact Or.inr (Option.some_inj.mp hq).symm
      · exact Or.inl (mem_below.mpr ⟨q, hnil, hlen', hq⟩)

theorem nodup_lowerFrames (h : IsTree (lowerTable mem root) 4 root) :
    (lowerFrames mem root).Nodup := by
  rw [lowerTable_eq_onlyEntries] at h
  exact nodup_flatMap_entryFrames Vm.nodup_lowerIndices (fun i hi => Vm.mem_lowerIndices.mp hi) h
    fun c hc => nodup_below hc

end Only

/-! ## The functions -/

namespace Vm

/-- The page allocator, and what is recorded about it, are the same. -/
structure SameBooks (v w : Vm) : Prop where
  pmm_eq : w.pmm = v.pmm
  lent_eq : w.lent = v.lent
  freed_eq : w.freed = v.freed

/-- The frames of a list are given back in order, and tables outside a set stay. -/
structure Tears (touched : Set ℕ) (frames : List ℕ) (v v' : Vm) : Prop where
  books : SameBooks (v.freeAll frames) v'
  outside : ∀ g, g ∉ touched → v'.mem g = v.mem g

section Tears

variable {touched touched' : Set ℕ} {frames frames' : List ℕ} {v v' v'' w : Vm} {n t c f : ℕ}
variable {P : Fin 512 → Prop} [DecidablePred P] {i : Fin 512}

theorem SameBooks.refl (v : Vm) : SameBooks v v := ⟨rfl, rfl, rfl⟩

theorem SameBooks.trans (h : SameBooks v v') (h' : SameBooks v' v'') : SameBooks v v'' :=
  ⟨h'.pmm_eq.trans h.pmm_eq, h'.lent_eq.trans h.lent_eq, h'.freed_eq.trans h.freed_eq⟩

theorem SameBooks.freeFrame (h : SameBooks v w) (f : ℕ) :
    SameBooks (v.freeFrame f) (w.freeFrame f) := by
  refine ⟨?_, ?_, ?_⟩
  · rw [Vm.freeFrame, Vm.freeFrame, h.pmm_eq]
  · rw [Vm.freeFrame, Vm.freeFrame, h.lent_eq]
  · rw [Vm.freeFrame, Vm.freeFrame, h.freed_eq]

theorem SameBooks.freeAll (h : SameBooks v w) (frames : List ℕ) :
    SameBooks (v.freeAll frames) (w.freeAll frames) := by
  induction frames generalizing v w with
  | nil => exact h
  | cons f frames ih => exact ih (h.freeFrame f)

theorem freeAll_append :
    v.freeAll (frames ++ frames') = (v.freeAll frames).freeAll frames' :=
  List.foldl_append

theorem Tears.refl : Tears touched [] v v := ⟨.refl v, fun _ _ => rfl⟩

theorem Tears.trans (h : Tears touched frames v v') (h' : Tears touched' frames' v' v'') :
    Tears (touched ∪ touched') (frames ++ frames') v v'' := by
  refine ⟨?_, fun g hg => ?_⟩
  · rw [freeAll_append]
    exact (h.books.freeAll frames').trans h'.books
  · rw [h'.outside g fun hg' => hg (Or.inr hg'), h.outside g fun hg' => hg (Or.inl hg')]

theorem Tears.mono (h : Tears touched frames v v') (hsub : touched ⊆ touched') :
    Tears touched' frames v v' :=
  ⟨h.books, fun g hg => h.outside g fun hg' => hg (hsub hg')⟩

/-- Giving back a frame and clearing the entry that led to it. -/
theorem tears_freeFrame (v : Vm) (c t : ℕ) (i : Fin 512) :
    Tears {t} [c] v ((v.freeFrame c).setWord t i 0) :=
  ⟨⟨rfl, rfl, rfl⟩, fun _ hg => Function.update_of_ne hg _ _⟩

/-- What is known about the tables below an entry that counts. -/
theorem subtree_child {mem : Frames} (h : IsTree (onlyEntries P mem t) n t) (hi : P i)
    (hc : nextTable mem t i = some c) :
    IsTree (nextTable mem) (n - 1) c ∧ t ∉ Subtree mem n c ∧
      ∀ j d g, P j → nextTable mem t j = some d → g ∈ Subtree mem n c → g ∈ Subtree mem n d →
        i = j := by
  cases n with
  | zero =>
    refine ⟨fun p q f hp hq _ _ => ?_, fun ⟨q, hq, _⟩ => absurd hq (Nat.not_lt_zero _),
      fun j d g _ _ ⟨q, hq, _⟩ => absurd hq (Nat.not_lt_zero _)⟩
    rw [List.length_eq_zero_iff.mp (Nat.le_zero.mp hp),
      List.length_eq_zero_iff.mp (Nat.le_zero.mp hq)]
  | succ n =>
    refine ⟨isTree_child h hi hc, fun ⟨q, hq, hreach⟩ => ?_,
      fun j d g hj hd ⟨p, hp, hpg⟩ ⟨q, hq, hqg⟩ => ?_⟩
    · exact child_ne h hi hc (Nat.lt_succ_iff.mp hq) hreach rfl
    · exact child_apart h hi hj hc hd (Nat.lt_succ_iff.mp hp) (Nat.lt_succ_iff.mp hq) hpg hqg

/-- The loop over the entries of a table: what is below distinct entries is apart, so each
round finds what was there at the start. -/
theorem tears_foldl (v : Vm)
    (hrec : ∀ c w, IsTree (nextTable w.mem) (n - 1) c →
      Tears (Subtree w.mem n c) (below w.mem n c) w (freePageTableLevel n c w))
    (h : IsTree (onlyEntries P v.mem t) n t) {indices : List (Fin 512)} (hnodup : indices.Nodup)
    (hindices : ∀ i ∈ indices, P i) :
    Tears ({t} ∪ {g | ∃ i ∈ indices, ∃ c, nextTable v.mem t i = some c ∧ g ∈ Subtree v.mem n c})
        (indices.flatMap (entryFrames (below v.mem n) v.mem t)) v
        (indices.foldl (freeEntry (freePageTableLevel n) t) v) ∧
      ∀ j, j ∉ indices → (indices.foldl (freeEntry (freePageTableLevel n) t) v).mem t j =
        v.mem t j := by
  induction indices using List.reverseRecOn with
  | nil => exact ⟨.refl, fun _ _ => rfl⟩
  | append_singleton indices i ih =>
    have hni : i ∉ indices := fun hi =>
      (List.nodup_append'.mp hnodup).2.2 hi (List.mem_singleton.mpr rfl)
    obtain ⟨htears, hkept⟩ := ih (List.nodup_append'.mp hnodup).1 fun j hj =>
      hindices j (List.mem_append_left _ hj)
    have hi := hindices i (List.mem_append_right _ (List.mem_singleton.mpr rfl))
    obtain ⟨w, hw⟩ : ∃ w, w = indices.foldl (freeEntry (freePageTableLevel n) t) v := ⟨_, rfl⟩
    rw [← hw] at htears hkept
    rw [List.foldl_append, List.flatMap_append, ← hw, List.foldl_cons, List.foldl_nil,
      List.flatMap_singleton]
    have hword : w.mem t i = v.mem t i := hkept i hni
    have hsub : ∀ g, (∃ i ∈ indices, ∃ c, nextTable v.mem t i = some c ∧ g ∈ Subtree v.mem n c) →
        ∃ j ∈ indices ++ [i], ∃ c, nextTable v.mem t j = some c ∧ g ∈ Subtree v.mem n c :=
      fun g ⟨j, hj, hrest⟩ => ⟨j, List.mem_append_left _ hj, hrest⟩
    by_cases hpresent : IsPresent (v.mem t i)
    · have hc : nextTable v.mem t i = some (entryFrame (v.mem t i)) := if_pos hpresent
      obtain ⟨hchild, hnotMem, hapart⟩ := subtree_child h hi hc
      -- below this entry nothing has changed so far
      have hsame : ∀ g ∈ Subtree v.mem n (entryFrame (v.mem t i)), w.mem g = v.mem g := by
        intro g hg
        refine htears.outside g ?_
        rintro (rfl | ⟨j, hj, d, hd, hgd⟩)
        · exact hnotMem hg
        · exact hni (hapart j d g (hindices j (List.mem_append_left _ hj)) hd hg hgd ▸ hj)
      have hbelow := below_congr hsame
      have hsubtree : Subtree w.mem n (entryFrame (v.mem t i)) =
          Subtree v.mem n (entryFrame (v.mem t i)) := by
        ext g
        refine exists_congr fun q => and_congr_right fun hq => ?_
        rw [descend_nextTable_congr hsame hq.le]
      have htree : IsTree (nextTable w.mem) (n - 1) (entryFrame (v.mem t i)) :=
        hchild.congr fun q g j hq hg => by
          rw [nextTable, nextTable, hsame g ⟨q, by omega, hg⟩]
      have hstep := (hrec _ w htree).trans (tears_freeFrame _ (entryFrame (v.mem t i)) t i)
      rw [hbelow, hsubtree] at hstep
      have hentry : entryFrames (below v.mem n) v.mem t i =
          below v.mem n (entryFrame (v.mem t i)) ++ [entryFrame (v.mem t i)] := by
        rw [entryFrames, hc]
      rw [freeEntry, hword, if_pos hpresent, hentry]
      refine ⟨(htears.trans hstep).mono ?_, fun j hj => ?_⟩
      · rintro g ((hg | hg) | hg | hg)
        · exact Or.inl hg
        · exact Or.inr (hsub g hg)
        · exact Or.inr ⟨i, by simp, _, hc, hg⟩
        · exact Or.inl hg
      · rw [List.mem_append, List.mem_singleton, not_or] at hj
        refine (mem_setWord _ _ _).trans ((if_neg fun e => hj.2 e.2).trans ?_)
        have houtside := (hrec _ w htree).outside t (by rwa [hsubtree])
        exact (congrFun houtside j).trans (hkept j hj.1)
    · have hentry : entryFrames (below v.mem n) v.mem t i = [] := by
        rw [entryFrames, nextTable, if_neg hpresent]
      rw [freeEntry, hword, if_neg hpresent, hentry, List.append_nil]
      exact ⟨htears.mono fun g hg => hg.imp_right (hsub g), fun j hj =>
        hkept j fun hmem => hj (List.mem_append_left _ hmem)⟩

/-- `free_page_table_level` gives back what is below a table. -/
theorem tears_freePageTableLevel (n t : ℕ) (v : Vm) (h : IsTree (nextTable v.mem) (n - 1) t) :
    Tears (Subtree v.mem n t) (below v.mem n t) v (freePageTableLevel n t v) := by
  induction n generalizing t v with
  | zero => exact .refl
  | succ n ih =>
    rw [Nat.add_sub_cancel, ← onlyEntries_true (t := t)] at h
    refine (tears_foldl v ih h (List.nodup_finRange 512) fun _ _ => trivial).1.mono ?_
    rintro g (rfl | ⟨i, -, c, hc, q, hq, hg⟩)
    · exact ⟨[], Nat.succ_pos n, rfl⟩
    · exact ⟨i :: q, Nat.succ_lt_succ hq, (descend_child hc).trans hg⟩

end Tears

end Vm

/-- `destroy_user_memory` gives back the frames of an address space and leaves everything
but its tables alone. -/
theorem Space.destroyUserMemory {depth root : ℕ} {v : Vm} (h : Space depth root v) :
    Vm.Tears {g | ∃ q : Path, q.length ≤ 3 ∧ reach v.mem root q = some g}
        (lowerFrames v.mem root) v (v.destroyUserMemory root) ∧
      ∀ j : Fin 512, 256 ≤ j.val → (v.destroyUserMemory root).mem root j = v.mem root j := by
  have htree : IsTree (onlyEntries (·.val < 256) v.mem root) 3 root := by
    rw [← lowerTable_eq_onlyEntries]
    exact h.tree.mono h.depth_le
  have hlow : ∀ i ∈ Vm.lowerIndices, i.val < 256 := fun i hi => Vm.mem_lowerIndices.mp hi
  obtain ⟨htears, hkept⟩ := Vm.tears_foldl v
    (fun c w => Vm.tears_freePageTableLevel 3 c w) htree Vm.nodup_lowerIndices hlow
  rw [Vm.destroyUserMemory]
  refine ⟨htears.mono ?_, fun j hj => hkept j fun hmem =>
    Nat.not_lt.mpr hj (Vm.mem_lowerIndices.mp hmem)⟩
  rintro g (rfl | ⟨i, hi, c, hc, q, hq, hg⟩)
  · exact ⟨[], Nat.zero_le _, rfl⟩
  · refine ⟨i :: q, Nat.succ_le_of_lt hq, ?_⟩
    rw [reach, lowerTable_eq_onlyEntries, descend_onlyEntries htree
      (Vm.mem_lowerIndices.mp hi) hc hq.le, hg]

end OpenIDP.Memory
