import Mathlib.Data.List.Chain
import OpenIDP.Math.Tiling
import OpenIDP.Memory.KHeap

/-!
# What the heap operations do to the list of blocks

The blocks of the heap, in the order of the list, tile the mapped range and are linked
both ways. Each operation on headers edits that list: a split inserts a block, a merge
removes one, the growth of the heap appends one.

## Main definitions

* `KHeap.Layout` — the blocks are linked and tile the heap
* `KHeap.Separated` — no two neighbours are both free

## Main results

* `Layout.firstFit_eq`, `Layout.getLastBlock_eq` — the traversals end, and where
* `Layout.splitBlock`, `Layout.mergeForward`, `Layout.heapExpand` — the three edits
* `Layout.coalesce` — a freed block ends up between used ones
-/

namespace OpenIDP.Memory

open OpenIDP.Math

namespace KHeap

/-- The blocks are linked both ways from `heap_head` on and tile the heap. -/
structure Layout (h : KHeap) (blocks : List ℕ) : Prop where
  head_eq : h.head = blocks.headD 0
  linked : Linked h.next h.prev 0 blocks 0
  tiles : Tiles (fun block => blockHeaderSize + h.size block) kheapStart blocks h.heapEnd
  magic_eq : ∀ block ∈ blocks, (h.hdr block).magic = heapMagic
  end_lt : h.heapEnd < 2 ^ 64

/-- No two neighbouring blocks are both free. -/
def Separated (h : KHeap) (blocks : List ℕ) : Prop :=
  blocks.IsChain fun a b => ¬ (h.free a = true ∧ h.free b = true)

variable {h h' : KHeap} {blocks xs ys : List ℕ} {a b c s : ℕ} {block : HeapBlock}

/-! ### Reading an edited heap -/

section Fields

variable {α : Type*} {value : ℕ} {flag : Bool}

theorem setBlock_field (f : HeapBlock → α) :
    f ((h.setBlock a block).hdr c) = if c = a then f block else f (h.hdr c) := by
  simp only [setBlock, Function.update_apply]
  split_ifs <;> rfl

/-- A field that the new header has in common with the old one keeps its value. -/
theorem setBlock_keeps (f : HeapBlock → α) (hf : f block = f (h.hdr a)) :
    f ((h.setBlock a block).hdr c) = f (h.hdr c) := by
  rw [setBlock_field f, hf]
  split_ifs with hc
  · rw [hc]
  · rfl

@[simp] theorem next_setNext :
    (h.setNext a value).next c = if c = a then value else h.next c :=
  setBlock_field HeapBlock.next

@[simp] theorem next_setPrev : (h.setPrev a value).next c = h.next c :=
  setBlock_keeps HeapBlock.next rfl

@[simp] theorem next_setSize : (h.setSize a value).next c = h.next c :=
  setBlock_keeps HeapBlock.next rfl

@[simp] theorem next_setFree : (h.setFree a flag).next c = h.next c :=
  setBlock_keeps HeapBlock.next rfl

@[simp] theorem prev_setNext : (h.setNext a value).prev c = h.prev c :=
  setBlock_keeps HeapBlock.prev rfl

@[simp] theorem prev_setPrev :
    (h.setPrev a value).prev c = if c = a then value else h.prev c :=
  setBlock_field HeapBlock.prev

@[simp] theorem prev_setSize : (h.setSize a value).prev c = h.prev c :=
  setBlock_keeps HeapBlock.prev rfl

@[simp] theorem prev_setFree : (h.setFree a flag).prev c = h.prev c :=
  setBlock_keeps HeapBlock.prev rfl

@[simp] theorem size_setNext : (h.setNext a value).size c = h.size c :=
  setBlock_keeps HeapBlock.size rfl

@[simp] theorem size_setPrev : (h.setPrev a value).size c = h.size c :=
  setBlock_keeps HeapBlock.size rfl

@[simp] theorem size_setSize :
    (h.setSize a value).size c = if c = a then value else h.size c :=
  setBlock_field HeapBlock.size

@[simp] theorem size_setFree : (h.setFree a flag).size c = h.size c :=
  setBlock_keeps HeapBlock.size rfl

@[simp] theorem free_setNext : (h.setNext a value).free c = h.free c :=
  setBlock_keeps HeapBlock.free rfl

@[simp] theorem free_setPrev : (h.setPrev a value).free c = h.free c :=
  setBlock_keeps HeapBlock.free rfl

@[simp] theorem free_setSize : (h.setSize a value).free c = h.free c :=
  setBlock_keeps HeapBlock.free rfl

@[simp] theorem free_setFree :
    (h.setFree a flag).free c = if c = a then flag else h.free c :=
  setBlock_field HeapBlock.free

@[simp] theorem magic_setNext : ((h.setNext a value).hdr c).magic = (h.hdr c).magic :=
  setBlock_keeps HeapBlock.magic rfl

@[simp] theorem magic_setPrev : ((h.setPrev a value).hdr c).magic = (h.hdr c).magic :=
  setBlock_keeps HeapBlock.magic rfl

@[simp] theorem magic_setSize : ((h.setSize a value).hdr c).magic = (h.hdr c).magic :=
  setBlock_keeps HeapBlock.magic rfl

@[simp] theorem magic_setFree : ((h.setFree a flag).hdr c).magic = (h.hdr c).magic :=
  setBlock_keeps HeapBlock.magic rfl

@[simp] theorem next_setBlock :
    (h.setBlock a block).next c = if c = a then block.next else h.next c :=
  setBlock_field HeapBlock.next

@[simp] theorem prev_setBlock :
    (h.setBlock a block).prev c = if c = a then block.prev else h.prev c :=
  setBlock_field HeapBlock.prev

@[simp] theorem size_setBlock :
    (h.setBlock a block).size c = if c = a then block.size else h.size c :=
  setBlock_field HeapBlock.size

@[simp] theorem free_setBlock :
    (h.setBlock a block).free c = if c = a then block.free else h.free c :=
  setBlock_field HeapBlock.free

@[simp] theorem magic_setBlock :
    ((h.setBlock a block).hdr c).magic = if c = a then block.magic else (h.hdr c).magic :=
  setBlock_field HeapBlock.magic

end Fields

/-! ### Where blocks lie -/

theorem Layout.bounds (hl : h.Layout blocks) (ha : a ∈ blocks) :
    kheapStart ≤ a ∧ a + blockHeaderSize + h.size a ≤ h.heapEnd := by
  have hbounds := hl.tiles.bounds ha
  omega

theorem Layout.ne_zero (hl : h.Layout blocks) : ∀ c ∈ blocks, c ≠ 0 := by
  intro c hc hzero
  have hbounds := (hl.bounds hc).1
  rw [hzero] at hbounds
  exact absurd hbounds (by decide)

theorem Layout.nodup (hl : h.Layout blocks) : blocks.Nodup :=
  hl.tiles.nodup fun c => by
    rw [blockHeaderSize]
    omega

theorem Layout.length_lt (hl : h.Layout blocks) : blocks.length < maxBlocks := by
  have hlength := hl.tiles.length_le (k := 40) fun c => Nat.le_add_right _ _
  have hend := hl.end_lt
  rw [maxBlocks]
  omega

/-- Payloads of different blocks, and headers and payloads, do not overlap. -/
theorem Layout.apart (hl : h.Layout blocks) (ha : a ∈ blocks) (hb : b ∈ blocks)
    (hne : a ≠ b) :
    a + blockHeaderSize + h.size a ≤ b ∨ b + blockHeaderSize + h.size b ≤ a := by
  have hapart := hl.tiles.apart ha hb hne
  omega

/-! ### The traversals -/

theorem Layout.firstFit_eq (hl : h.Layout blocks) (s : ℕ) :
    h.firstFit s =
      some ((blocks.find? fun curr => h.free curr && decide (h.size curr ≥ s)).getD 0) := by
  rw [firstFit, hl.head_eq]
  exact search_eq hl.linked hl.ne_zero hl.length_lt

theorem Layout.getLastBlock_eq (hl : h.Layout blocks) :
    h.getLastBlock = some (blocks.getLastD 0) := by
  rw [getLastBlock, hl.head_eq, search_eq hl.linked hl.ne_zero hl.length_lt,
    hl.linked.find_last hl.ne_zero]

/-! ### Splitting a block -/

/-- What `split_block` writes, when the rest is large enough for a block. -/
theorem splitBlock_fields (hsize : wrap (s + blockHeaderSize + minSplit) ≤ h.size a)
    (hb : wrap (a + blockHeaderSize + s) = b) :
    (∀ c, (h.splitBlock a s).next c =
        if c = a then b else if c = b then h.next a else h.next c) ∧
      (∀ c, (h.splitBlock a s).prev c =
        if h.next a ≠ 0 ∧ c = h.next a then b else if c = b then a else h.prev c) ∧
      (∀ c, (h.splitBlock a s).size c =
        if c = a then s
        else if c = b then sub64 (sub64 (h.size a) s) blockHeaderSize else h.size c) ∧
      (∀ c, (h.splitBlock a s).free c = if c = b then true else h.free c) ∧
      (∀ c, ((h.splitBlock a s).hdr c).magic = if c = b then heapMagic else (h.hdr c).magic) ∧
      (h.splitBlock a s).head = h.head ∧ (h.splitBlock a s).heapEnd = h.heapEnd := by
  rw [splitBlock, if_neg (Nat.not_lt.mpr hsize), hb]
  simp only [next_setBlock, if_pos]
  by_cases hnext : h.next a = 0
  · simp only [hnext, ne_eq, not_true_eq_false, if_false]
    refine ⟨?_, ?_, ?_, ?_, ?_, rfl, rfl⟩ <;> intro c <;> simp
  · simp only [hnext, ne_eq, not_false_eq_true, if_true]
    refine ⟨?_, ?_, ?_, ?_, ?_, rfl, rfl⟩ <;> intro c <;> simp

theorem splitBlock_heapEnd : (h.splitBlock a s).heapEnd = h.heapEnd := by
  unfold splitBlock
  split_ifs
  · rfl
  · dsimp only
    split_ifs <;> rfl

theorem Layout.next_eq (hl : h.Layout (xs ++ a :: ys)) : h.next a = ys.headD 0 :=
  hl.linked.next_eq

theorem Layout.prev_eq (hl : h.Layout (xs ++ a :: ys)) : h.prev a = xs.getLastD 0 :=
  hl.linked.prev_eq

theorem Layout.ne_of_mem (hl : h.Layout (xs ++ a :: ys)) (hc : c ∈ xs ++ ys) : c ≠ a := by
  rintro rfl
  exact (List.nodup_cons.mp (List.nodup_middle.mp hl.nodup)).1 hc

theorem mem_of_mem_sides (hc : c ∈ xs ++ ys) : c ∈ xs ++ a :: ys :=
  List.mem_append.mpr ((List.mem_append.mp hc).imp_right (List.mem_cons_of_mem a))

theorem mem_cons_of_mem_sides (hc : c ∈ xs ++ a :: ys) : c ∈ xs ++ a :: b :: ys := by
  simp only [List.mem_append, List.mem_cons] at hc ⊢
  tauto

/-- An address inside the payload of a block is not that of any block. -/
theorem Layout.notMem_of_inside (hl : h.Layout blocks) (ha : a ∈ blocks)
    (hb : a < b ∧ b < a + blockHeaderSize + h.size a) : b ∉ blocks := by
  intro hmem
  have hapart := hl.apart ha hmem (by omega)
  omega

/-- `split_block` inserts the rest behind the block. -/
theorem Layout.splitBlock (hl : h.Layout (xs ++ a :: ys))
    (hsize : s + blockHeaderSize + minSplit ≤ h.size a) :
    (h.splitBlock a s).Layout (xs ++ a :: (a + blockHeaderSize + s) :: ys) ∧
      (∀ c, (h.splitBlock a s).size c =
        if c = a then s
        else if c = a + blockHeaderSize + s then h.size a - s - blockHeaderSize
        else h.size c) ∧
      (∀ c, (h.splitBlock a s).free c =
        if c = a + blockHeaderSize + s then true else h.free c) := by
  have ha : a ∈ xs ++ a :: ys := List.mem_append_right xs List.mem_cons_self
  have hbounds := hl.bounds ha
  have hend := hl.end_lt
  have hheader : blockHeaderSize = 40 := rfl
  have hmin : minSplit = 32 := rfl
  -- the new block lies inside the old one, so it is none of the others
  have hfresh : a + blockHeaderSize + s ∉ xs ++ a :: ys :=
    hl.notMem_of_inside ha ⟨by omega, by omega⟩
  obtain ⟨hnext', hprev', hsize', hfree', hmagic', hhead', hend'⟩ :=
    splitBlock_fields (h := h) (a := a) (s := s) (b := a + blockHeaderSize + s)
      (by rw [wrap_of_lt (by omega)]; exact hsize) (wrap_of_lt (by omega))
  rw [sub64_of_le (b := s) (by omega) (by omega), sub64_of_le (by omega) (by omega)] at hsize'
  refine ⟨⟨?_, ?_, ?_, ?_, ?_⟩, hsize', hfree'⟩
  · rw [hhead', hl.head_eq, headD_append, headD_append]
    rfl
  · exact hl.linked.insert_after hl.nodup
      (fun c hc => hl.ne_zero c (List.mem_append_right _ (List.mem_cons_of_mem _ hc))) hfresh
      hnext' hprev'
  · rw [hend']
    refine hl.tiles.split ?_ ?_ fun c hc => ?_
    · rw [hsize', if_pos rfl, Nat.add_assoc]
    · rw [hsize', hsize', if_pos rfl, if_neg (by omega), if_pos rfl]
      omega
    · have hcb : c ≠ a + blockHeaderSize + s := fun e => hfresh (e ▸ mem_of_mem_sides hc)
      rw [hsize', if_neg (hl.ne_of_mem hc), if_neg hcb]
  · intro c hc
    rw [hmagic']
    split_ifs with hcb
    · rfl
    · refine hl.magic_eq c ?_
      simpa [hcb] using hc
  · rw [hend']
    exact hend

/-! ### Merging blocks -/

/-- What the first half of `coalesce` writes when the next block is free. -/
theorem mergeForward_fields (hb : h.next a = b) (hne : b ≠ 0) (hfree : h.free b = true) :
    (∀ c, (h.mergeForward a).next c = if c = a then h.next b else h.next c) ∧
      (∀ c, (h.mergeForward a).prev c =
        if h.next b ≠ 0 ∧ c = h.next b then a else h.prev c) ∧
      (∀ c, (h.mergeForward a).size c =
        if c = a then wrap (h.size a + (blockHeaderSize + h.size b)) else h.size c) ∧
      (∀ c, (h.mergeForward a).free c = h.free c) ∧
      (∀ c, ((h.mergeForward a).hdr c).magic = (h.hdr c).magic) ∧
      (h.mergeForward a).head = h.head ∧ (h.mergeForward a).heapEnd = h.heapEnd := by
  rw [mergeForward, hb, if_pos ⟨hne, hfree⟩]
  simp only [next_setNext, next_setSize, if_pos, hb]
  by_cases hnext : h.next b = 0
  · simp only [hnext, ne_eq, not_true_eq_false, if_false]
    refine ⟨?_, ?_, ?_, ?_, ?_, rfl, rfl⟩ <;> intro c <;> simp
  · simp only [hnext, ne_eq, not_false_eq_true, if_true]
    refine ⟨?_, ?_, ?_, ?_, ?_, rfl, rfl⟩ <;> intro c <;> simp

/-- The first half of `coalesce` removes a free block that follows. -/
theorem Layout.mergeForward (hl : h.Layout (xs ++ a :: b :: ys)) (hfree : h.free b = true) :
    (h.mergeForward a).Layout (xs ++ a :: ys) ∧
      (∀ c, (h.mergeForward a).size c =
        if c = a then h.size a + (blockHeaderSize + h.size b) else h.size c) ∧
      (∀ c, (h.mergeForward a).free c = h.free c) := by
  have hb : b ∈ xs ++ a :: b :: ys := by simp
  have ha : a ∈ xs ++ a :: b :: ys := by simp
  have hends : a + (blockHeaderSize + h.size a) + (blockHeaderSize + h.size b) ≤ h.heapEnd := by
    obtain ⟨mid, -, -, hba, hys⟩ := tiles_append.mp hl.tiles
    have hstart : b = a + (blockHeaderSize + h.size a) := hba
    have hstop : b + (blockHeaderSize + h.size b) ≤ h.heapEnd := hys.start_le
    omega
  have hend := hl.end_lt
  have hnext : h.next a = b := hl.next_eq
  obtain ⟨hnext', hprev', hsize', hfree', hmagic', hhead', hend'⟩ :=
    mergeForward_fields hnext (hl.ne_zero b hb) hfree
  rw [wrap_of_lt (by omega)] at hsize'
  refine ⟨⟨?_, ?_, ?_, ?_, ?_⟩, hsize', hfree'⟩
  · rw [hhead', hl.head_eq, headD_append, headD_append]
    rfl
  · exact hl.linked.unlink_after hl.nodup (fun c hc => hl.ne_zero c (by simp [hc])) hnext' hprev'
  · rw [hend']
    refine hl.tiles.merge ?_ fun c hc => ?_
    · rw [hsize', if_pos rfl]
      omega
    · rw [hsize', if_neg (hl.ne_of_mem (mem_of_mem_sides hc))]
  · intro c hc
    rw [hmagic']
    exact hl.magic_eq c (mem_cons_of_mem_sides hc)
  · rw [hend']
    exact hend

/-- With no free block behind it, the first half of `coalesce` leaves a block alone. -/
theorem mergeForward_of_not (hnot : ¬ (h.next a ≠ 0 ∧ h.free (h.next a) = true)) :
    h.mergeForward a = h :=
  if_neg hnot

theorem Layout.setFree (hl : h.Layout blocks) (flag : Bool) :
    (h.setFree a flag).Layout blocks where
  head_eq := hl.head_eq
  linked := hl.linked.congr (fun _ _ => next_setFree) fun _ _ => prev_setFree
  tiles := hl.tiles.congr fun c _ => by rw [size_setFree]
  magic_eq c hc := magic_setFree.trans (hl.magic_eq c hc)
  end_lt := hl.end_lt

/-- Which blocks are free matters for the blocks of a list only. -/
theorem Separated.congr (hsep : h.Separated blocks) (hfree : ∀ c ∈ blocks, h'.free c = h.free c) :
    h'.Separated blocks :=
  hsep.imp_of_mem_imp fun c d hc hd hnot => by rwa [hfree c hc, hfree d hd]

/-- The first half of `coalesce` leaves no free block behind the free block `a`. -/
theorem Layout.mergeForward_separated (hl : h.Layout (xs ++ a :: ys)) (ha : h.free a = true)
    (hys : h.Separated ys) :
    ∃ ys', (h.mergeForward a).Layout (xs ++ a :: ys') ∧ h.Separated (a :: ys') ∧
      (∀ c, (h.mergeForward a).free c = h.free c) ∧
      (∀ c, h.free c = false → (c ∈ ys' ↔ c ∈ ys) ∧
        (h.mergeForward a).size c = h.size c) ∧
      (h.mergeForward a).heapEnd = h.heapEnd := by
  have hnext := hl.next_eq
  by_cases hb : h.next a ≠ 0 ∧ h.free (h.next a) = true
  · cases ys with
    | nil => exact absurd hnext hb.1
    | cons b ys =>
      have hbfree : h.free b = true := by
        rw [← show h.next a = b from hnext]
        exact hb.2
      obtain ⟨hl', hsize, hfree⟩ := hl.mergeForward hbfree
      refine ⟨ys, hl', ?_, hfree, fun c hc => ⟨?_, ?_⟩, ?_⟩
      · -- the block behind `b` is used, because `b` was free
        cases ys with
        | nil => exact .singleton a
        | cons d ys =>
          obtain ⟨hbd, hrest⟩ := List.isChain_cons_cons.mp hys
          exact List.isChain_cons_cons.mpr ⟨fun had => hbd ⟨hbfree, had.2⟩, hrest⟩
      · have hcb : c ≠ b := fun e => by simp [e, hbfree] at hc
        simp [hcb]
      · have hca : c ≠ a := fun e => by simp [e, ha] at hc
        rw [hsize, if_neg hca]
      · exact (mergeForward_fields (show h.next a = b from hnext)
          (hl.ne_zero b (by simp)) hbfree).2.2.2.2.2.2
  · rw [mergeForward_of_not hb]
    refine ⟨ys, hl, ?_, fun _ => rfl, fun _ _ => ⟨Iff.rfl, rfl⟩, rfl⟩
    cases ys with
    | nil => exact .singleton a
    | cons b ys =>
      refine List.isChain_cons_cons.mpr ⟨fun hab => hb ?_, hys⟩
      rw [show h.next a = b from hnext]
      exact ⟨hl.ne_zero b (by simp), hab.2⟩

/-- What an operation keeps that changes no used block: the used blocks, their sizes,
and the end of the heap. -/
structure KeepsUsed (h : KHeap) (blocks : List ℕ) (h' : KHeap) (blocks' : List ℕ) : Prop where
  used_iff : ∀ c, c ∈ blocks' ∧ h'.free c = false ↔ c ∈ blocks ∧ h.free c = false
  size_eq : ∀ c, h.free c = false → h'.size c = h.size c
  end_eq : h'.heapEnd = h.heapEnd

/-- `coalesce`, called on a free block between two parts of the list that are in
order, restores the order of the whole. Its recursion goes at most one block back. -/
theorem Layout.coalesce (hl : h.Layout (xs ++ a :: ys)) (ha : h.free a = true)
    (hxs : h.Separated xs) (hys : h.Separated ys) (depth : ℕ) :
    ∃ h' blocks', coalesce (depth + 2) h a = some h' ∧ h'.Layout blocks' ∧
      h'.Separated blocks' ∧ KeepsUsed h (xs ++ a :: ys) h' blocks' := by
  obtain ⟨ys₁, hl₁, hsep₁, hfree₁, hkeep₁, hend₁⟩ := hl.mergeForward_separated ha hys
  have hused₁ : ∀ c, c ∈ xs ++ a :: ys₁ ∧ (h.mergeForward a).free c = false ↔
      c ∈ xs ++ a :: ys ∧ h.free c = false := by
    intro c
    rw [hfree₁]
    refine and_congr_left fun hc => ?_
    simp only [List.mem_append, List.mem_cons, (hkeep₁ c hc).1]
  have hprev := hl₁.prev_eq
  rw [KHeap.coalesce]
  by_cases hback : (h.mergeForward a).prev a ≠ 0 ∧
      (h.mergeForward a).free ((h.mergeForward a).prev a) = true
  · rw [if_pos hback]
    cases xs using List.reverseRecOn with
    | nil => exact absurd hprev hback.1
    | append_singleton xs z =>
      rw [List.getLastD_concat] at hprev
      rw [hprev] at hback ⊢
      have hcut : xs ++ [z] ++ a :: ys₁ = xs ++ z :: a :: ys₁ := by simp
      rw [hcut] at hl₁
      obtain ⟨ys₂, hl₂, hsep₂, hfree₂, hkeep₂, hend₂⟩ :=
        hl₁.mergeForward_separated hback.2 (hsep₁.congr fun c _ => hfree₁ c)
      have hz : h.free z = true := (hfree₁ z).symm.trans hback.2
      -- the block before the free block `z` is used, so the recursion ends here
      have hstop : ¬ (((h.mergeForward a).mergeForward z).prev z ≠ 0 ∧
          ((h.mergeForward a).mergeForward z).free
            (((h.mergeForward a).mergeForward z).prev z) = true) := by
        rintro ⟨hne, hy⟩
        rw [hl₂.prev_eq] at hne hy
        cases xs using List.reverseRecOn with
        | nil => exact hne rfl
        | append_singleton xs y =>
          rw [List.getLastD_concat, hfree₂, hfree₁] at hy
          have hyz := List.isChain_append.mp hxs
          exact hyz.2.2 y (by simp) z (by simp) ⟨hy, hz⟩
      rw [KHeap.coalesce, if_neg hstop]
      refine ⟨_, _, rfl, hl₂, ?_, ?_, ?_, hend₂.trans hend₁⟩
      · have hchain : h.Separated (xs ++ z :: ys₂) := by
          refine List.isChain_split.mpr ⟨hxs, ?_⟩
          exact Separated.congr hsep₂ fun c _ => (hfree₁ c).symm
        exact hchain.congr fun c _ => (hfree₂ c).trans (hfree₁ c)
      · intro c
        rw [← hused₁, hcut, hfree₂]
        refine and_congr_left fun hc => ?_
        simp only [List.mem_append, List.mem_cons, (hkeep₂ c hc).1]
      · intro c hc
        rw [(hkeep₂ c ((hfree₁ c).trans hc)).2, (hkeep₁ c hc).2]
  · rw [if_neg hback]
    refine ⟨_, _, rfl, hl₁, ?_, hused₁, fun c hc => (hkeep₁ c hc).2, hend₁⟩
    have hchain : h.Separated (xs ++ a :: ys₁) := by
      refine List.isChain_append.mpr ⟨hxs, hsep₁, fun z hz b hb hboth => ?_⟩
      obtain rfl : a = b := by simpa using hb
      cases xs using List.reverseRecOn with
      | nil => simp at hz
      | append_singleton xs y =>
        obtain rfl : y = z := by simpa using hz
        rw [List.getLastD_concat] at hprev
        refine hback ?_
        rw [hprev, hfree₁]
        exact ⟨hl₁.ne_zero y (by simp), hboth.1⟩
    exact hchain.congr fun c _ => hfree₁ c

/-! ### Growing the heap -/

theorem growEnd_eq (hend : h.heapEnd < 2 ^ 64) (pages : ℕ) :
    h.growEnd pages = wrap (h.heapEnd + pages * pageSize) := by
  induction pages with
  | zero => rw [growEnd, Function.iterate_zero_apply, Nat.zero_mul, Nat.add_zero, wrap_of_lt hend]
  | succ pages ih =>
    rw [growEnd] at ih
    rw [growEnd, Function.iterate_succ_apply', ih, Nat.add_mul, Nat.one_mul]
    unfold wrap
    omega

/-- The end of the heap after it has grown by whole pages. -/
theorem growEnd_of_lt (hend : h.heapEnd < 2 ^ 64)
    (hroom : h.heapEnd + alignUp s pageSize < 2 ^ 64) :
    h.growEnd ((alignUp s pageSize + pageSize - 1) / pageSize) =
      h.heapEnd + alignUp s pageSize := by
  have haligned : alignUp s pageSize = wrap (s + 2 ^ 12 - 1) / 2 ^ 12 * 2 ^ 12 :=
    alignUp_eq (k := 12) (by decide) s
  rw [growEnd_eq hend, wrap_of_lt]
  all_goals
    rw [pageSize] at *
    omega

/-- The heap after the first writes of `heap_expand`, with the new block not yet linked
to the last one. -/
def grown (h : KHeap) (s : ℕ) : KHeap :=
  { h with heapEnd := h.heapEnd + alignUp s pageSize }.setBlock h.heapEnd
    { h.hdr h.heapEnd with
      magic := heapMagic
      size := alignUp s pageSize - blockHeaderSize
      free := true
      next := 0 }

theorem next_grown : (h.grown s).next c = if c = h.heapEnd then 0 else h.next c :=
  setBlock_field HeapBlock.next

theorem prev_grown : (h.grown s).prev c = h.prev c :=
  setBlock_keeps HeapBlock.prev rfl

theorem size_grown : (h.grown s).size c =
    if c = h.heapEnd then alignUp s pageSize - blockHeaderSize else h.size c :=
  setBlock_field HeapBlock.size

theorem free_grown : (h.grown s).free c = if c = h.heapEnd then true else h.free c :=
  setBlock_field HeapBlock.free

theorem magic_grown : ((h.grown s).hdr c).magic =
    if c = h.heapEnd then heapMagic else (h.hdr c).magic :=
  setBlock_field HeapBlock.magic

/-- `heap_expand` when the heap does not reach the end of the address space. -/
theorem heapExpand_eq (hend : h.heapEnd < 2 ^ 64)
    (hroom : h.heapEnd + alignUp s pageSize < 2 ^ 64)
    (hsize : blockHeaderSize ≤ alignUp s pageSize) :
    h.heapExpand s = (h.grown s).getLastBlock.bind fun last =>
      if last ≠ 0 then some (((h.grown s).setPrev h.heapEnd last).setNext last h.heapEnd)
      else some { (h.grown s).setPrev h.heapEnd last with head := h.heapEnd } := by
  have hblock : sub64 (h.heapEnd + alignUp s pageSize) (alignUp s pageSize) = h.heapEnd := by
    rw [sub64_of_le (by omega) hroom]
    omega
  have hrest : sub64 (alignUp s pageSize) blockHeaderSize =
      alignUp s pageSize - blockHeaderSize := sub64_of_le hsize (by omega)
  have hpos : alignUp s pageSize ≠ 0 := by
    rw [blockHeaderSize] at hsize
    omega
  rw [heapExpand]
  simp only [if_neg hpos, growEnd_of_lt hend hroom, appendBlock, hblock, hrest]
  rfl

/-- `heap_expand` appends one free block behind the last one. -/
theorem Layout.heapExpand (hl : h.Layout (xs ++ [a]))
    (hroom : h.heapEnd + alignUp s pageSize < 2 ^ 64)
    (hsize : blockHeaderSize ≤ alignUp s pageSize) :
    ∃ h', h.heapExpand s = some h' ∧ h'.Layout (xs ++ [a, h.heapEnd]) ∧
      (∀ c, h'.size c =
        if c = h.heapEnd then alignUp s pageSize - blockHeaderSize else h.size c) ∧
      (∀ c, h'.free c = if c = h.heapEnd then true else h.free c) ∧
      h'.heapEnd = h.heapEnd + alignUp s pageSize := by
  have hfresh : ∀ c ∈ xs ++ [a], c ≠ h.heapEnd := by
    rintro c hc rfl
    have hbounds := hl.bounds hc
    rw [blockHeaderSize] at hbounds
    omega
  -- The header is written before the search: the list of blocks does not hold it yet.
  have hlast : (h.grown s).getLastBlock = some a := by
    have hlinked : Linked (h.grown s).next (h.grown s).prev 0 (xs ++ [a]) 0 :=
      hl.linked.congr (fun c hc => by rw [next_grown, if_neg (hfresh c hc)])
        fun _ _ => prev_grown
    have hhead : (h.grown s).head = (xs ++ [a]).headD 0 := hl.head_eq
    rw [getLastBlock, hhead, search_eq hlinked hl.ne_zero hl.length_lt,
      hlinked.find_last hl.ne_zero, List.getLastD_concat]
  have ha : a ≠ 0 := hl.ne_zero a (by simp)
  have hne : h.heapEnd ≠ a := (hfresh a (by simp)).symm
  rw [heapExpand_eq hl.end_lt hroom hsize, hlast, Option.bind_some, if_pos ha]
  refine ⟨_, rfl, ⟨?_, ?_, ?_, fun c hc => ?_, hroom⟩, fun c => ?_, fun c => ?_, rfl⟩
  · have hhead := hl.head_eq
    rw [headD_append] at hhead ⊢
    exact hhead
  · have hnexta : h.next a = 0 := hl.next_eq
    refine hl.linked.insert_after hl.nodup (by simp) (fun hc => hfresh _ hc rfl) ?_ ?_
    · intro c
      rw [next_setNext, next_setPrev, next_grown, hnexta]
    · intro c
      rw [prev_setNext, prev_setPrev, prev_grown, hnexta]
      simp
  · have htiles : Tiles (fun block => blockHeaderSize +
        (((h.grown s).setPrev h.heapEnd a).setNext a h.heapEnd).size block) kheapStart
        (xs ++ [a] ++ [h.heapEnd]) _ := hl.tiles.snoc fun c hc => by
      rw [size_setNext, size_setPrev, size_grown, if_neg (hfresh c hc)]
    have hsum : h.heapEnd + (blockHeaderSize +
        (((h.grown s).setPrev h.heapEnd a).setNext a h.heapEnd).size h.heapEnd) =
          h.heapEnd + alignUp s pageSize := by
      rw [size_setNext, size_setPrev, size_grown, if_pos rfl]
      omega
    rw [hsum, List.append_assoc] at htiles
    exact htiles
  · rw [magic_setNext, magic_setPrev, magic_grown]
    split_ifs with hce
    · rfl
    · refine hl.magic_eq c ?_
      simpa [hce] using hc
  · rw [size_setNext, size_setPrev, size_grown]
  · rw [free_setNext, free_setPrev, free_grown]

/-- `heap_init` makes one free block of the whole heap. -/
theorem heapInit_layout (hdr : ℕ → HeapBlock) :
    ∃ h, heapInit hdr = some h ∧ h.Layout [kheapStart] ∧ h.free kheapStart = true := by
  let h₀ : KHeap := { hdr := hdr, head := 0, heapEnd := kheapStart }
  have hsize : alignUp (pageSize * 4) pageSize = 16384 := by decide
  have hlast : (h₀.grown (pageSize * 4)).getLastBlock = some 0 := by
    have hempty : Linked (h₀.grown (pageSize * 4)).next (h₀.grown (pageSize * 4)).prev 0 [] 0 :=
      trivial
    exact search_eq hempty (fun c hc => by cases hc) (Nat.two_pow_pos 64)
  have hend : kheapStart < 2 ^ 64 := by decide
  have hroom : kheapStart + alignUp (pageSize * 4) pageSize < 2 ^ 64 := by decide
  have hrun : heapInit hdr =
      some { (h₀.grown (pageSize * 4)).setPrev kheapStart 0 with head := kheapStart } := by
    rw [heapInit, heapExpand_eq hend hroom (by decide)]
    change (h₀.grown (pageSize * 4)).getLastBlock.bind _ = _
    rw [hlast]
    rfl
  refine ⟨_, hrun, ⟨rfl, ⟨?_, ?_, trivial⟩, ⟨rfl, ?_⟩, fun c hc => ?_, hroom⟩, ?_⟩
  · exact prev_setPrev.trans (if_pos rfl)
  · exact next_setPrev.trans (next_grown.trans (if_pos rfl))
  · have hfirst : ((h₀.grown (pageSize * 4)).setPrev kheapStart 0).size kheapStart =
        alignUp (pageSize * 4) pageSize - blockHeaderSize :=
      size_setPrev.trans (size_grown.trans (if_pos rfl))
    change kheapStart + (blockHeaderSize +
      ((h₀.grown (pageSize * 4)).setPrev kheapStart 0).size kheapStart) = kheapStart + _
    rw [hfirst, hsize]
    rfl
  · rw [List.mem_singleton.mp hc]
    exact magic_setPrev.trans (magic_grown.trans (if_pos rfl))
  · exact free_setPrev.trans (free_grown.trans (if_pos rfl))

end KHeap

end OpenIDP.Memory
