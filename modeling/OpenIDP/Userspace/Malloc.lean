import Mathlib.Data.List.Perm.Subperm
import OpenIDP.Memory.KHeapRuns

/-!
# malloc and free

`userspace/libc/heap.c` keeps the memory it gets from `sbrk` as a list of blocks, like the kernel
heap does, and merges a freed block with free neighbours in the list. Other parts of the program
and other programs may move the program break between two calls of `sbrk`, so neighbours in the
list need not be neighbours in memory.

The headers and the pointer to the first block are those of a kernel heap, whose end stands for
the program break; `coalesce` is the same function.

## Main definitions

* `splitBlock`, `findBlock`, `appendBlock`, `free` — the parts of `malloc`, and `free`
* `Chain` — blocks linked in the order of their addresses, with gaps in between

## Main results

* `Chain.findBlock_eq` — where the search of `malloc` ends
* `Chain.splitBlock`, `Chain.appendBlock` — the two ways to get a block
* `Chain.free` — freeing a block whose free neighbours are next to it in memory
-/

namespace OpenIDP.Userspace

open OpenIDP.Math OpenIDP.Memory OpenIDP.Memory.KHeap

/-- `HEAP_MAGIC` -/
def mallocMagic : ℕ := 0xCAFEBABE

/-- `split_block` -/
def splitBlock (h : KHeap) (block size : ℕ) : KHeap :=
  if h.size block < wrap (size + blockHeaderSize + minSplit) then
    h
  else
    let newblock := wrap (block + blockHeaderSize + size)
    let h₁ := h.setBlock newblock
      { magic := mallocMagic
        size := sub64 (sub64 (h.size block) size) blockHeaderSize
        free := true
        next := h.next block
        prev := block }
    let h₂ := if h₁.next newblock ≠ 0 then h₁.setPrev (h₁.next newblock) newblock else h₁
    (h₂.setNext block newblock).setSize block size

/-- The loop of `malloc` that looks for a free block. `breaks` are the results of `sbrk(0)`. The
result is the block, or `0`, and the block before it. -/
def findBlock (h : KHeap) (breaks : ℕ → ℕ) (size : ℕ) : ℕ → ℕ → ℕ → ℕ → Option (ℕ × ℕ)
  | 0, _, _, _ => none
  | rounds + 1, i, curr, last =>
    if curr = 0 ∨ breaks i ≤ curr then some (0, last)
    else if (h.hdr curr).magic ≠ mallocMagic then some (0, last)
    else if h.free curr ∧ size ≤ h.size curr then some (curr, last)
    else findBlock h breaks size rounds (i + 1) (h.next curr) curr

/-- The part of `malloc` that takes a block it has found. -/
def takeBlock (h : KHeap) (block size : ℕ) : KHeap := (splitBlock h block size).setFree block false

/-- The part of `malloc` that makes a block of what `sbrk` returned. -/
def appendBlock (h : KHeap) (last block size : ℕ) : KHeap :=
  let h₁ := h.setBlock block
    { magic := mallocMagic, size := size, free := false, next := 0, prev := last }
  if last ≠ 0 then h₁.setNext last block else { h₁ with head := block }

/-- `free` -/
def free (h : KHeap) (ptr : ℕ) : Option KHeap :=
  if ptr = 0 then
    some h
  else
    let block := sub64 ptr blockHeaderSize
    if (h.hdr block).magic ≠ mallocMagic then
      some h
    else
      coalesce maxBlocks (h.setFree block true) block

/-! ## Chains of blocks -/

/-- The blocks are linked both ways from `heap_head` on, in the order of their addresses. -/
structure Chain (h : KHeap) (blocks : List ℕ) : Prop where
  head_eq : blocks ≠ [] → h.head = blocks.headD 0
  linked : Linked h.next h.prev 0 blocks 0
  order : blocks.Pairwise fun a b => a + blockHeaderSize + h.size a ≤ b
  pos : ∀ a ∈ blocks, 0 < a
  end_le : ∀ a ∈ blocks, a + blockHeaderSize + h.size a ≤ 2 ^ 47
  magic_eq : ∀ a ∈ blocks, (h.hdr a).magic = mallocMagic

/-- The address lies in a block, or in its header. -/
def Covers (h : KHeap) (blocks : List ℕ) (x : ℕ) : Prop :=
  ∃ a ∈ blocks, a ≤ x ∧ x < a + blockHeaderSize + h.size a

section Blocks

variable {h h' : KHeap} {blocks xs ys : List ℕ} {a b c s : ℕ}

namespace Chain

theorem ne_zero (hc : Chain h blocks) : ∀ a ∈ blocks, a ≠ 0 := fun a ha => (hc.pos a ha).ne'

theorem nodup (hc : Chain h blocks) : blocks.Nodup :=
  hc.order.imp fun {a b} hab heq => by
    rw [heq, blockHeaderSize] at hab
    omega

theorem length_lt (hc : Chain h blocks) : blocks.length < maxBlocks := by
  have hsub : blocks ⊆ List.range (2 ^ 47) := fun a ha => by
    have hend := hc.end_le a ha
    rw [blockHeaderSize] at hend
    exact List.mem_range.mpr (by omega)
  have hlength := (List.subperm_of_subset hc.nodup hsub).length_le
  rw [List.length_range] at hlength
  exact hlength.trans_lt (by rw [maxBlocks]; omega)

theorem next_eq (hc : Chain h (xs ++ a :: ys)) : h.next a = ys.headD 0 := hc.linked.next_eq

theorem prev_eq (hc : Chain h (xs ++ a :: ys)) : h.prev a = xs.getLastD 0 := hc.linked.prev_eq

theorem ne_of_mem (hc : Chain h (xs ++ a :: ys)) (hmem : c ∈ xs ++ ys) : c ≠ a := by
  rintro rfl
  exact (List.nodup_cons.mp (List.nodup_middle.mp hc.nodup)).1 hmem

/-- Two blocks lie apart. -/
theorem apart (hc : Chain h blocks) (ha : a ∈ blocks) (hb : b ∈ blocks) (hne : a ≠ b) :
    a + blockHeaderSize + h.size a ≤ b ∨ b + blockHeaderSize + h.size b ≤ a := by
  have horder : blocks.Pairwise fun x y => x + (blockHeaderSize + h.size x) ≤ y := by
    simpa only [Nat.add_assoc] using hc.order
  have hapart := apart_of_pairwise horder ha hb hne
  omega

/-- The search of `malloc`, on a part of the chain. -/
theorem findBlock_eq {before rounds i : ℕ} {breaks : ℕ → ℕ}
    (hlinked : Linked h.next h.prev before blocks 0) (hpos : ∀ a ∈ blocks, 0 < a)
    (hbreaks : ∀ a ∈ blocks, ∀ i, a < breaks i)
    (hmagic : ∀ a ∈ blocks, (h.hdr a).magic = mallocMagic) (hrounds : blocks.length < rounds) :
    ∃ last, findBlock h breaks s rounds i (blocks.headD 0) b =
        some ((blocks.find? fun c => h.free c && decide (s ≤ h.size c)).getD 0, last) ∧
      ((blocks.find? fun c => h.free c && decide (s ≤ h.size c)) = none →
        last = blocks.getLastD b) := by
  induction blocks generalizing before rounds i b with
  | nil =>
    cases rounds with
    | zero => exact absurd hrounds (Nat.lt_irrefl 0)
    | succ rounds => exact ⟨b, rfl, fun _ => rfl⟩
  | cons c rest ih =>
    cases rounds with
    | zero => exact absurd hrounds (Nat.not_lt_zero _)
    | succ rounds =>
      have hc : c ∈ c :: rest := List.mem_cons_self
      have hstay : ¬ (c = 0 ∨ breaks i ≤ c) :=
        not_or.mpr ⟨(hpos c hc).ne', Nat.not_le.mpr (hbreaks c hc i)⟩
      rw [List.headD_cons, findBlock, if_neg hstay, if_neg (not_not_intro (hmagic c hc)),
        List.find?_cons]
      by_cases htest : h.free c = true ∧ s ≤ h.size c
      · have hfound : (h.free c && decide (s ≤ h.size c)) = true := by simpa using htest
        rw [if_pos htest, hfound]
        exact ⟨b, rfl, fun hnone => nomatch hnone⟩
      · have hnot : (h.free c && decide (s ≤ h.size c)) = false := by
          rw [← Bool.not_eq_true, Bool.and_eq_true, decide_eq_true_eq]
          exact htest
        rw [if_neg htest, hnot, hlinked.2.1, List.getLastD_cons]
        exact ih hlinked.2.2 (fun d hd => hpos d (List.mem_cons_of_mem c hd))
          (fun d hd => hbreaks d (List.mem_cons_of_mem c hd))
          (fun d hd => hmagic d (List.mem_cons_of_mem c hd)) (Nat.lt_of_succ_lt_succ hrounds)

/-! ### Merging -/

/-- The first half of `coalesce` removes a free block that follows in the list and in memory. -/
theorem mergeForward (hc : Chain h (xs ++ a :: b :: ys)) (hfree : h.free b = true)
    (hadjacent : a + blockHeaderSize + h.size a = b) :
    Chain (h.mergeForward a) (xs ++ a :: ys) ∧
      (∀ c, (h.mergeForward a).size c =
        if c = a then h.size a + (blockHeaderSize + h.size b) else h.size c) ∧
      (∀ c, (h.mergeForward a).free c = h.free c) ∧ (h.mergeForward a).heapEnd = h.heapEnd := by
  have hb : b ∈ xs ++ a :: b :: ys := by simp
  have hend := hc.end_le b hb
  have hnext : h.next a = b := hc.next_eq
  obtain ⟨hnext', hprev', hsize', hfree', hmagic', hhead', hend'⟩ :=
    mergeForward_fields hnext (hc.ne_zero b hb) hfree
  rw [wrap_of_lt (by omega)] at hsize'
  have hsub : (xs ++ a :: ys).Sublist (xs ++ a :: b :: ys) :=
    (List.Sublist.refl xs).append ((List.sublist_cons_self b ys).cons_cons a)
  have horder := List.pairwise_append.mp hc.order
  have hbehind : ∀ c ∈ ys, b + blockHeaderSize + h.size b ≤ c :=
    (List.pairwise_cons.mp (List.pairwise_cons.mp horder.2.1).2).1
  refine ⟨⟨fun _ => ?_, ?_, ?_, fun c hcm => hc.pos c (hsub.subset hcm), fun c hcm => ?_,
    fun c hcm => ?_⟩, hsize', hfree', hend'⟩
  · rw [hhead', hc.head_eq (by simp), headD_append, headD_append]
    rfl
  · exact hc.linked.unlink_after hc.nodup (fun c hcm => hc.ne_zero c (by simp [hcm])) hnext' hprev'
  · have hold := List.pairwise_append.mp (hc.order.sublist hsub)
    refine List.pairwise_append.mpr ⟨?_, List.pairwise_cons.mpr ⟨fun d hd => ?_, ?_⟩,
      fun c hcx d hd => ?_⟩
    · refine hold.1.imp_of_mem fun {c d} hcx _ hle => ?_
      rw [hsize', if_neg (hc.ne_of_mem (List.mem_append_left _ hcx))]
      exact hle
    · have hle := hbehind d hd
      rw [hsize', if_pos rfl]
      omega
    · refine (List.pairwise_cons.mp hold.2.1).2.imp_of_mem fun {c d} hcy _ hle => ?_
      rw [hsize', if_neg (hc.ne_of_mem (List.mem_append_right _ (List.mem_cons_of_mem b hcy)))]
      exact hle
    · rw [hsize', if_neg (hc.ne_of_mem (List.mem_append_left _ hcx))]
      exact hold.2.2 c hcx d hd
  · rw [hsize']
    split_ifs with hca
    · rw [hca]
      omega
    · exact hc.end_le c (hsub.subset hcm)
  · rw [hmagic']
    exact hc.magic_eq c (hsub.subset hcm)

/-- The first half of `coalesce` leaves no free block behind the block `a`. -/
theorem mergeForward_separated (hc : Chain h (xs ++ a :: ys)) (hys : h.Separated ys)
    (hadjacent : h.next a ≠ 0 → h.free (h.next a) = true →
      a + blockHeaderSize + h.size a = h.next a) :
    ∃ ys', Chain (h.mergeForward a) (xs ++ a :: ys') ∧ h.Separated (a :: ys') ∧
      (∀ c, (h.mergeForward a).free c = h.free c) ∧
      (∀ c, c ≠ a → (h.mergeForward a).size c = h.size c) ∧
      (∀ c, h.free c = false → (c ∈ ys' ↔ c ∈ ys)) ∧
      (h.mergeForward a).heapEnd = h.heapEnd ∧
      ∀ x, Covers (h.mergeForward a) (xs ++ a :: ys') x → Covers h (xs ++ a :: ys) x := by
  have hnext := hc.next_eq
  by_cases hb : h.next a ≠ 0 ∧ h.free (h.next a) = true
  · cases ys with
    | nil => exact absurd hnext hb.1
    | cons b ys =>
      rw [List.headD_cons] at hnext
      rw [hnext] at hb hadjacent
      obtain ⟨hc', hsize, hfree, hend⟩ := hc.mergeForward hb.2 (hadjacent hb.1 hb.2)
      refine ⟨ys, hc', ?_, hfree, fun c hca => ?_, fun c hused => ?_, hend, ?_⟩
      · -- the block behind `b` is used, because `b` was free
        cases ys with
        | nil => exact .singleton a
        | cons d ys =>
          obtain ⟨hbd, hrest⟩ := List.isChain_cons_cons.mp hys
          exact List.isChain_cons_cons.mpr ⟨fun had => hbd ⟨hb.2, had.2⟩, hrest⟩
      · rw [hsize, if_neg hca]
      · have hcb : c ≠ b := fun e => by simp [e, hb.2] at hused
        simp [hcb]
      · rintro x ⟨c, hcm, hle, hlt⟩
        rw [hsize] at hlt
        have hadj := hadjacent hb.1 hb.2
        by_cases hca : c = a
        · rw [if_pos hca] at hlt
          by_cases hx : x < b
          · exact ⟨a, by simp, by omega, by omega⟩
          · exact ⟨b, by simp, by omega, by omega⟩
        · rw [if_neg hca] at hlt
          exact ⟨c, mem_cons_of_mem_sides hcm, hle, hlt⟩
  · rw [mergeForward_of_not hb]
    refine ⟨ys, hc, ?_, fun _ => rfl, fun _ _ => rfl, fun _ _ => Iff.rfl, rfl, fun _ => id⟩
    cases ys with
    | nil => exact .singleton a
    | cons b ys =>
      refine List.isChain_cons_cons.mpr ⟨fun hab => hb ?_, hys⟩
      rw [show h.next a = b from hnext]
      exact ⟨hc.ne_zero b (by simp), hab.2⟩

/-- The free neighbours of a block in the list are its neighbours in memory. -/
def Adjacent (h : KHeap) (a : ℕ) : Prop :=
  (h.next a ≠ 0 → h.free (h.next a) = true → a + blockHeaderSize + h.size a = h.next a) ∧
    (h.prev a ≠ 0 → h.free (h.prev a) = true →
      h.prev a + blockHeaderSize + h.size (h.prev a) = a)

/-- `coalesce`, called on a free block between two parts of the chain that are in order. -/
theorem coalesce (hc : Chain h (xs ++ a :: ys)) (ha : h.free a = true) (hxs : h.Separated xs)
    (hys : h.Separated ys) (hadjacent : Adjacent h a) (depth : ℕ) :
    ∃ h' blocks', coalesce (depth + 2) h a = some h' ∧ Chain h' blocks' ∧ h'.Separated blocks' ∧
      blocks' ≠ [] ∧ KeepsUsed h (xs ++ a :: ys) h' blocks' ∧
      ∀ x, Covers h' blocks' x → Covers h (xs ++ a :: ys) x := by
  obtain ⟨ys₁, hc₁, hsep₁, hfree₁, hsize₁, hmem₁, hend₁, hcovers₁⟩ :=
    hc.mergeForward_separated hys hadjacent.1
  have hkept : ∀ c, h.free c = false → (h.mergeForward a).size c = h.size c := fun c hused =>
    hsize₁ c fun e => by simp [e, ha] at hused
  have hused₁ : ∀ c, c ∈ xs ++ a :: ys₁ ∧ (h.mergeForward a).free c = false ↔
      c ∈ xs ++ a :: ys ∧ h.free c = false := by
    intro c
    rw [hfree₁]
    refine and_congr_left fun hused => ?_
    simp only [List.mem_append, List.mem_cons, hmem₁ c hused]
  have hprev := hc₁.prev_eq
  rw [KHeap.coalesce]
  by_cases hback : (h.mergeForward a).prev a ≠ 0 ∧
      (h.mergeForward a).free ((h.mergeForward a).prev a) = true
  · rw [if_pos hback]
    cases xs using List.reverseRecOn with
    | nil => exact absurd hprev hback.1
    | append_singleton xs z =>
      rw [List.getLastD_concat] at hprev
      rw [hprev] at hback ⊢
      have hcut : ∀ zs : List ℕ, xs ++ [z] ++ a :: zs = xs ++ z :: a :: zs := by simp
      have hz : h.free z = true := (hfree₁ z).symm.trans hback.2
      have hza : z ≠ a := hc.ne_of_mem (by simp)
      have hprev_a : h.prev a = z := by
        rw [hc.prev_eq, List.getLastD_concat]
      rw [hcut] at hc₁
      have hnext_z : (h.mergeForward a).next z = a := hc₁.next_eq
      obtain ⟨ys₂, hc₂, hsep₂, hfree₂, hsize₂, hmem₂, hend₂, hcovers₂⟩ :=
        hc₁.mergeForward_separated (hsep₁.congr fun c _ => hfree₁ c) fun _ _ => by
          have hjoin := hadjacent.2
          rw [hprev_a] at hjoin
          rw [hnext_z, hsize₁ z hza]
          exact hjoin hback.1 hz
      -- the block before the free block `z` is used, so the recursion ends here
      have hstop : ¬ (((h.mergeForward a).mergeForward z).prev z ≠ 0 ∧
          ((h.mergeForward a).mergeForward z).free
            (((h.mergeForward a).mergeForward z).prev z) = true) := by
        rintro ⟨hne, hy⟩
        rw [hc₂.prev_eq] at hne hy
        cases xs using List.reverseRecOn with
        | nil => exact hne rfl
        | append_singleton xs y =>
          rw [List.getLastD_concat, hfree₂, hfree₁] at hy
          have hyz := List.isChain_append.mp hxs
          exact hyz.2.2 y (by simp) z (by simp) ⟨hy, hz⟩
      rw [KHeap.coalesce, if_neg hstop]
      refine ⟨_, _, rfl, hc₂, ?_, by simp, ⟨?_, ?_, hend₂.trans hend₁⟩, fun x hx => ?_⟩
      · have hchain : h.Separated (xs ++ z :: ys₂) := by
          refine List.isChain_split.mpr ⟨hxs, ?_⟩
          exact Separated.congr hsep₂ fun c _ => (hfree₁ c).symm
        exact hchain.congr fun c _ => (hfree₂ c).trans (hfree₁ c)
      · intro c
        rw [← hused₁, hcut, hfree₂]
        refine and_congr_left fun hused => ?_
        simp only [List.mem_append, List.mem_cons, hmem₂ c hused]
      · intro c hused
        have hcz : c ≠ z := fun e => by simp [e, hz] at hused
        rw [hsize₂ c hcz, hkept c hused]
      · have hx' := hcovers₂ x hx
        rw [← hcut] at hx'
        exact hcovers₁ x hx'
  · rw [if_neg hback]
    refine ⟨_, _, rfl, hc₁, ?_, by simp, ⟨hused₁, hkept, hend₁⟩, hcovers₁⟩
    have hchain : h.Separated (xs ++ a :: ys₁) := by
      refine List.isChain_append.mpr ⟨hxs, hsep₁, fun z hz b hb hboth => ?_⟩
      obtain rfl : a = b := by simpa using hb
      cases xs using List.reverseRecOn with
      | nil => simp at hz
      | append_singleton xs y =>
        obtain rfl : y = z := by simpa using hz
        rw [List.getLastD_concat] at hprev
        refine hback ?_
        rw [hprev, hfree₁]
        exact ⟨hc₁.ne_zero y (by simp), hboth.1⟩
    exact hchain.congr fun c _ => hfree₁ c

theorem setFree (hc : Chain h blocks) (a : ℕ) (flag : Bool) : Chain (h.setFree a flag) blocks where
  head_eq := hc.head_eq
  linked := hc.linked.congr (fun _ _ => next_setFree) fun _ _ => prev_setFree
  order := hc.order.imp fun {_ _} hle => by rwa [size_setFree]
  pos := hc.pos
  end_le c hcm := by
    rw [size_setFree]
    exact hc.end_le c hcm
  magic_eq c hcm := magic_setFree.trans (hc.magic_eq c hcm)

/-- `free` takes one block away from the used ones. -/
theorem free (hc : Chain h blocks) (hsep : h.Separated blocks) (ha : a ∈ blocks)
    (hadjacent : Adjacent h a) :
    ∃ h' blocks', free h (a + blockHeaderSize) = some h' ∧ Chain h' blocks' ∧
      h'.Separated blocks' ∧ blocks' ≠ [] ∧
      (∀ c, c ∈ blocks' ∧ h'.free c = false ↔ c ≠ a ∧ c ∈ blocks ∧ h.free c = false) ∧
      (∀ c, c ≠ a → h.free c = false → h'.size c = h.size c) ∧ h'.heapEnd = h.heapEnd ∧
      ∀ x, Covers h' blocks' x → Covers h blocks x := by
  have hend := hc.end_le a ha
  have hheader : blockHeaderSize = 40 := rfl
  -- The pointer that `free` gets is one header behind the block.
  have hblock : sub64 (a + blockHeaderSize) blockHeaderSize = a := by
    rw [sub64_of_le (by omega) (by omega)]
    omega
  obtain ⟨xs, ys, rfl⟩ := List.append_of_mem ha
  have hfree : ∀ c ∈ xs ++ ys, (h.setFree a true).free c = h.free c := by
    intro c hcm
    rw [free_setFree, if_neg (hc.ne_of_mem hcm)]
  have hxs : (h.setFree a true).Separated xs :=
    (Separated.congr (List.isChain_append.mp hsep).1) fun c hcm =>
      hfree c (List.mem_append_left _ hcm)
  have hys : (h.setFree a true).Separated ys :=
    (Separated.congr (List.isChain_append.mp hsep).2.1.tail) fun c hcm =>
      hfree c (List.mem_append_right _ hcm)
  -- A block is not its own neighbour, so marking it free keeps what `Adjacent` reads.
  have hsides : h.next a ≠ a ∧ h.prev a ≠ a := by
    rw [hc.next_eq, hc.prev_eq]
    constructor
    · cases ys with
      | nil => exact (hc.ne_zero a (by simp)).symm
      | cons y ys => exact hc.ne_of_mem (by simp)
    · cases xs using List.reverseRecOn with
      | nil => exact (hc.ne_zero a (by simp)).symm
      | append_singleton xs z =>
        rw [List.getLastD_concat]
        exact hc.ne_of_mem (by simp)
  have hadjacent' : Adjacent (h.setFree a true) a := by
    rw [Adjacent, next_setFree, prev_setFree, free_setFree, free_setFree, if_neg hsides.1,
      if_neg hsides.2, size_setFree, size_setFree]
    exact hadjacent
  obtain ⟨h', blocks', hrun, hc', hsep', hne, hkeep, hcovers⟩ :=
    (hc.setFree a true).coalesce (free_setFree.trans (if_pos rfl)) hxs hys hadjacent' (2 ^ 64 - 2)
  refine ⟨h', blocks', ?_, hc', hsep', hne, fun c => ?_, fun c hca hused => ?_, hkeep.end_eq,
    fun x hx => ?_⟩
  · have hmagic : ¬ (h.hdr a).magic ≠ mallocMagic := not_not_intro (hc.magic_eq a ha)
    rw [Userspace.free, if_neg (by omega)]
    simp only [hblock]
    rw [if_neg hmagic]
    exact hrun
  · rw [hkeep.used_iff, free_setFree]
    by_cases hca : c = a <;> simp [hca]
  · rw [hkeep.size_eq c, size_setFree]
    rw [free_setFree, if_neg hca, hused]
  · obtain ⟨c, hcm, hle, hlt⟩ := hcovers x hx
    rw [size_setFree] at hlt
    exact ⟨c, hcm, hle, hlt⟩

/-! ### Getting a block -/

/-- What `split_block` writes, when the rest is large enough for a block. -/
theorem splitBlock_fields (hsize : wrap (s + blockHeaderSize + minSplit) ≤ h.size a)
    (hb : wrap (a + blockHeaderSize + s) = b) :
    (∀ c, (splitBlock h a s).next c =
        if c = a then b else if c = b then h.next a else h.next c) ∧
      (∀ c, (splitBlock h a s).prev c =
        if h.next a ≠ 0 ∧ c = h.next a then b else if c = b then a else h.prev c) ∧
      (∀ c, (splitBlock h a s).size c =
        if c = a then s
        else if c = b then sub64 (sub64 (h.size a) s) blockHeaderSize else h.size c) ∧
      (∀ c, (splitBlock h a s).free c = if c = b then true else h.free c) ∧
      (∀ c, ((splitBlock h a s).hdr c).magic = if c = b then mallocMagic else (h.hdr c).magic) ∧
      (splitBlock h a s).head = h.head ∧ (splitBlock h a s).heapEnd = h.heapEnd := by
  rw [splitBlock, if_neg (Nat.not_lt.mpr hsize), hb]
  simp only [next_setBlock, if_pos]
  by_cases hnext : h.next a = 0
  · simp only [hnext, ne_eq, not_true_eq_false, if_false]
    refine ⟨?_, ?_, ?_, ?_, ?_, rfl, rfl⟩ <;> intro c <;> simp
  · simp only [hnext, ne_eq, not_false_eq_true, if_true]
    refine ⟨?_, ?_, ?_, ?_, ?_, rfl, rfl⟩ <;> intro c <;> simp

/-- `split_block` inserts the rest behind the block. -/
theorem splitBlock (hc : Chain h (xs ++ a :: ys))
    (hsize : s + blockHeaderSize + minSplit ≤ h.size a) :
    a + blockHeaderSize + s ∉ xs ++ a :: ys ∧
      Chain (splitBlock h a s) (xs ++ a :: (a + blockHeaderSize + s) :: ys) ∧
      (∀ c, (splitBlock h a s).size c =
        if c = a then s
        else if c = a + blockHeaderSize + s then h.size a - s - blockHeaderSize
        else h.size c) ∧
      (∀ c, (splitBlock h a s).free c =
        if c = a + blockHeaderSize + s then true else h.free c) ∧
      (splitBlock h a s).heapEnd = h.heapEnd := by
  obtain ⟨b, hb⟩ : ∃ b, b = a + blockHeaderSize + s := ⟨_, rfl⟩
  have ha : a ∈ xs ++ a :: ys := List.mem_append_right xs List.mem_cons_self
  have hend := hc.end_le a ha
  have hheader : blockHeaderSize = 40 := rfl
  have hmin : minSplit = 32 := rfl
  -- the new block lies inside the old one, so it is none of the others
  have hfresh : b ∉ xs ++ a :: ys := fun hmem => by
    have hapart := hc.apart ha hmem (by omega)
    omega
  obtain ⟨hnext', hprev', hsize', hfree', hmagic', hhead', hend'⟩ :=
    splitBlock_fields (h := h) (a := a) (s := s) (b := b)
      (by rw [wrap_of_lt (by omega)]; exact hsize) (by rw [hb, wrap_of_lt (by omega)])
  rw [sub64_of_le (b := s) (by omega) (by omega), sub64_of_le (by omega) (by omega)] at hsize'
  rw [← hb]
  have hne : ∀ c ∈ xs ++ a :: ys, c ≠ b := fun c hcm e => hfresh (e ▸ hcm)
  have horder := List.pairwise_append.mp hc.order
  have hays := List.pairwise_cons.mp horder.2.1
  have hold : ∀ c ∈ xs ++ ys, (Userspace.splitBlock h a s).size c = h.size c := fun c hcm => by
    rw [hsize', if_neg (hc.ne_of_mem hcm), if_neg (hne c (mem_of_mem_sides hcm))]
  have hcases : ∀ c ∈ xs ++ a :: b :: ys, c = a ∨ c = b ∨ c ∈ xs ++ ys := fun c hcm => by
    simp only [List.mem_append, List.mem_cons] at hcm ⊢
    tauto
  refine ⟨hfresh, ⟨fun _ => ?_, ?_, ?_, fun c hcm => ?_, fun c hcm => ?_, fun c hcm => ?_⟩, hsize',
    hfree', hend'⟩
  · rw [hhead', hc.head_eq (by simp), headD_append, headD_append]
    rfl
  · exact hc.linked.insert_after hc.nodup
      (fun c hcm => hc.ne_zero c (List.mem_append_right _ (List.mem_cons_of_mem _ hcm))) hfresh
      hnext' hprev'
  · refine List.pairwise_append.mpr ⟨?_,
      List.pairwise_cons.mpr ⟨?_, List.pairwise_cons.mpr ⟨?_, ?_⟩⟩, ?_⟩
    · refine horder.1.imp_of_mem fun {c d} hcx _ hle => ?_
      rwa [hold c (List.mem_append_left _ hcx)]
    · rw [hsize', if_pos rfl]
      rintro d (_ | ⟨_, hd⟩)
      · exact hb.ge
      · have hle := hays.1 d hd
        omega
    · intro d hd
      have hle := hays.1 d hd
      rw [hsize', if_neg (by omega), if_pos rfl]
      omega
    · refine hays.2.imp_of_mem fun {c d} hcy _ hle => ?_
      rwa [hold c (List.mem_append_right _ hcy)]
    · intro c hcx d hd
      rw [hold c (List.mem_append_left _ hcx)]
      have hle := horder.2.2 c hcx a List.mem_cons_self
      rcases List.mem_cons.mp hd with rfl | hd
      · exact hle
      · rcases List.mem_cons.mp hd with rfl | hd
        · omega
        · exact horder.2.2 c hcx d (List.mem_cons_of_mem a hd)
  · rcases hcases c hcm with rfl | rfl | hcm
    · exact hc.pos c ha
    · omega
    · exact hc.pos c (mem_of_mem_sides hcm)
  · rcases hcases c hcm with rfl | rfl | hcm
    · rw [hsize', if_pos rfl]
      omega
    · rw [hsize', if_neg (by omega), if_pos rfl]
      omega
    · rw [hold c hcm]
      exact hc.end_le c (mem_of_mem_sides hcm)
  · rw [hmagic']
    split_ifs with hcb
    · rfl
    · refine hc.magic_eq c ?_
      rcases hcases c hcm with rfl | rfl | hcm
      · exact ha
      · exact absurd rfl hcb
      · exact mem_of_mem_sides hcm

/-- What `malloc` does to the blocks: one more is used, large enough for the request. -/
structure Grants (h : KHeap) (blocks : List ℕ) (size a : ℕ) (h' : KHeap) (blocks' : List ℕ) :
    Prop where
  chain : Chain h' blocks'
  separated : h'.Separated blocks'
  fresh : ¬ (a ∈ blocks ∧ h.free a = false)
  enough : size ≤ h'.size a
  used_iff : ∀ c, c ∈ blocks' ∧ h'.free c = false ↔ c = a ∨ c ∈ blocks ∧ h.free c = false
  size_eq : ∀ c ∈ blocks, h.free c = false → h'.size c = h.size c

/-- `malloc` takes a free block that is large enough. -/
theorem takeBlock (hc : Chain h (xs ++ a :: ys)) (hsep : h.Separated (xs ++ a :: ys))
    (hfree : h.free a = true) (hsize : s ≤ h.size a) :
    ∃ blocks', Grants h (xs ++ a :: ys) s a (takeBlock h a s) blocks' ∧
      (takeBlock h a s).heapEnd = h.heapEnd ∧
      ∀ x, Covers (takeBlock h a s) blocks' x → Covers h (xs ++ a :: ys) x := by
  have hheader : blockHeaderSize = 40 := rfl
  have hmin : minSplit = 32 := rfl
  have hend := hc.end_le a (by simp)
  by_cases hlarge : s + blockHeaderSize + minSplit ≤ h.size a
  · obtain ⟨hfresh, hc', hsize', hfree', hend'⟩ := hc.splitBlock hlarge
    have hne : ∀ c ∈ xs ++ a :: ys, c ≠ a + blockHeaderSize + s := fun c hcm e => hfresh (e ▸ hcm)
    have hother : ∀ c ∈ xs ++ a :: ys, (Userspace.splitBlock h a s).free c = h.free c :=
      fun c hcm => by rw [hfree', if_neg (hne c hcm)]
    rw [Userspace.takeBlock]
    refine ⟨_, ⟨hc'.setFree a false, ?_, fun hused => by simp [hfree] at hused, ?_, fun c => ?_,
      fun c hcm hused => ?_⟩, hend', fun x hx => ?_⟩
    · -- the rest of the block is free; what follows it is used, because the block was free
      have hchain := List.isChain_split.mp hsep
      refine List.isChain_split.mpr ⟨?_, List.isChain_cons_cons.mpr ⟨?_, ?_⟩⟩
      · refine Separated.setFree_false (Separated.congr hchain.1 fun c hcm => hother c ?_) a
        rw [List.mem_append, List.mem_singleton] at hcm
        rw [List.mem_append, List.mem_cons]
        exact hcm.imp_right Or.inl
      · simp
      · cases ys with
        | nil => exact .singleton _
        | cons y ys =>
          obtain ⟨hay, hys⟩ := List.isChain_cons_cons.mp hchain.2
          refine List.isChain_cons_cons.mpr ⟨fun hboth => hay ⟨hfree, ?_⟩, ?_⟩
          · have hya : y ≠ a := hc.ne_of_mem (by simp)
            have hy := hboth.2
            rwa [free_setFree, if_neg hya, hother y (by simp)] at hy
          · exact Separated.setFree_false (Separated.congr hys fun c hcm => hother c (by
              rw [List.mem_append, List.mem_cons]
              exact Or.inr (Or.inr hcm))) a
    · rw [size_setFree, hsize', if_pos rfl]
    · rw [free_setFree, hfree']
      by_cases hca : c = a
      · simp [hca]
      · by_cases hcb : c = a + blockHeaderSize + s
        · rw [hcb] at hca ⊢
          rw [if_neg hca, if_pos rfl]
          constructor
          · rintro ⟨-, hfalse⟩
            exact Bool.noConfusion hfalse
          · rintro (heq | ⟨hmem, -⟩)
            · exact absurd heq hca
            · exact absurd hmem hfresh
        · simp [hca, hcb]
    · have hca : c ≠ a := fun e => by simp [e, hfree] at hused
      rw [size_setFree, hsize', if_neg hca, if_neg (hne c hcm)]
    · obtain ⟨c, hcm, hle, hlt⟩ := hx
      rw [size_setFree, hsize'] at hlt
      by_cases hca : c = a
      · rw [if_pos hca] at hlt
        exact ⟨a, by simp, by omega, by omega⟩
      · rw [if_neg hca] at hlt
        by_cases hcb : c = a + blockHeaderSize + s
        · rw [if_pos hcb] at hlt
          exact ⟨a, by simp, by omega, by omega⟩
        · rw [if_neg hcb] at hlt
          refine ⟨c, ?_, hle, hlt⟩
          simp only [List.mem_append, List.mem_cons] at hcm ⊢
          tauto
  · have hwhole : Userspace.splitBlock h a s = h := by
      rw [Userspace.splitBlock, if_pos]
      rw [wrap_of_lt (by omega)]
      omega
    have heq : Userspace.takeBlock h a s = h.setFree a false := by
      rw [Userspace.takeBlock, hwhole]
    rw [heq]
    refine ⟨_, ⟨hc.setFree a false, hsep.setFree_false a, fun hused => by simp [hfree] at hused,
      by rwa [size_setFree], fun c => ?_, fun c _ _ => size_setFree⟩, rfl, fun x hx => ?_⟩
    · rw [free_setFree]
      by_cases hca : c = a
      · simp [hca]
      · simp [hca]
    · obtain ⟨c, hcm, hle, hlt⟩ := hx
      rw [size_setFree] at hlt
      exact ⟨c, hcm, hle, hlt⟩

/-- `malloc` appends a block behind the last one. -/
theorem appendBlock (hc : Chain h blocks) (hsep : h.Separated blocks)
    (hbehind : ∀ a ∈ blocks, a + blockHeaderSize + h.size a ≤ b) (hpos : 0 < b)
    (hend : b + blockHeaderSize + s ≤ 2 ^ 47) :
    Grants h blocks s b (appendBlock h (blocks.getLastD 0) b s) (blocks ++ [b]) ∧
      (appendBlock h (blocks.getLastD 0) b s).heapEnd = h.heapEnd ∧
      ∀ x, Covers (appendBlock h (blocks.getLastD 0) b s) (blocks ++ [b]) x →
        Covers h blocks x ∨ b ≤ x ∧ x < b + blockHeaderSize + s := by
  obtain ⟨h', hh'⟩ : ∃ h', h' = Userspace.appendBlock h (blocks.getLastD 0) b s := ⟨_, rfl⟩
  have hfresh : ∀ c ∈ blocks, c ≠ b := by
    rintro c hcm rfl
    have hle := hbehind c hcm
    rw [blockHeaderSize] at hle
    omega
  -- The writes to `next` of the last block leave these fields of every block.
  have hfields : (∀ c, h'.size c = if c = b then s else h.size c) ∧
      (∀ c, h'.free c = if c = b then false else h.free c) ∧
      (∀ c, (h'.hdr c).magic = if c = b then mallocMagic else (h.hdr c).magic) ∧
      h'.heapEnd = h.heapEnd := by
    rw [hh', Userspace.appendBlock]
    split_ifs
    · refine ⟨fun c => ?_, fun c => ?_, fun c => ?_, rfl⟩ <;> simp
    · exact ⟨fun c => size_setBlock, fun c => free_setBlock, fun c => magic_setBlock, rfl⟩
  obtain ⟨hsize', hfree', hmagic', hend'⟩ := hfields
  have hlinked : Linked h'.next h'.prev 0 (blocks ++ [b]) 0 ∧
      h'.head = (blocks ++ [b]).headD 0 := by
    -- The first block becomes the head; a later one is linked behind the last.
    cases blocks using List.reverseRecOn with
    | nil =>
      rw [hh', Userspace.appendBlock]
      have hnext : (h.setBlock b ⟨mallocMagic, s, false, 0, 0⟩).next b = 0 := by simp
      have hprev : (h.setBlock b ⟨mallocMagic, s, false, 0, 0⟩).prev b = 0 := by simp
      exact ⟨⟨hprev, hnext, trivial⟩, rfl⟩
    | append_singleton xs z =>
      have hz : z ≠ 0 := hc.ne_zero z (by simp)
      have hzb : b ≠ z := (hfresh z (by simp)).symm
      have hnext : h.next z = 0 := hc.next_eq
      rw [List.getLastD_concat] at hh'
      rw [hh', Userspace.appendBlock, if_pos hz]
      refine ⟨?_, ?_⟩
      · have hcut : xs ++ [z] ++ [b] = xs ++ z :: b :: [] := by simp
        rw [hcut]
        refine hc.linked.insert_after hc.nodup (by simp) (fun hmem => hfresh b hmem rfl) ?_ ?_
        · intro c
          rw [next_setNext, next_setBlock, hnext]
        · intro c
          rw [prev_setNext, prev_setBlock, hnext]
          simp
      · have hhead := hc.head_eq (by simp)
        rw [headD_append] at hhead
        rw [List.append_assoc, headD_append]
        exact hhead
  rw [← hh']
  have hcases : ∀ c ∈ blocks ++ [b], c ∈ blocks ∨ c = b := fun c hcm => by simpa using hcm
  refine ⟨⟨⟨fun _ => hlinked.2, hlinked.1, ?_, fun c hcm => ?_, fun c hcm => ?_, fun c hcm => ?_⟩,
    ?_, fun hused => hfresh b hused.1 rfl, ?_, fun c => ?_, fun c hcm _ => ?_⟩, hend',
    fun x hx => ?_⟩
  · refine List.pairwise_append.mpr ⟨?_, List.pairwise_singleton _ _, fun c hcm d hd => ?_⟩
    · refine hc.order.imp_of_mem fun {c d} hcm _ hle => ?_
      rwa [hsize', if_neg (hfresh c hcm)]
    · rw [List.mem_singleton.mp hd, hsize', if_neg (hfresh c hcm)]
      exact hbehind c hcm
  · rcases hcases c hcm with hcm | rfl
    · exact hc.pos c hcm
    · exact hpos
  · rw [hsize']
    split_ifs with hcb
    · rwa [hcb]
    · exact hc.end_le c ((hcases c hcm).resolve_right hcb)
  · rw [hmagic']
    split_ifs with hcb
    · rfl
    · exact hc.magic_eq c ((hcases c hcm).resolve_right hcb)
  · refine List.isChain_append.mpr ⟨?_, .singleton _, fun c _ d hd hboth => ?_⟩
    · refine hsep.congr fun c hcm => ?_
      rw [hfree', if_neg (hfresh c hcm)]
    · obtain rfl : b = d := by simpa using hd
      rw [hfree', hfree', if_pos rfl] at hboth
      exact Bool.noConfusion hboth.2
  · rw [hsize', if_pos rfl]
  · rw [hfree']
    by_cases hcb : c = b
    · simp [hcb]
    · simp [hcb]
  · rw [hsize', if_neg (hfresh c hcm)]
  · obtain ⟨c, hcm, hle, hlt⟩ := hx
    rw [hsize'] at hlt
    by_cases hcb : c = b
    · rw [if_pos hcb] at hlt
      exact Or.inr ⟨hcb ▸ hle, hcb ▸ hlt⟩
    · rw [if_neg hcb] at hlt
      exact Or.inl ⟨c, (hcases c hcm).resolve_right hcb, hle, hlt⟩

end Chain

end Blocks

end OpenIDP.Userspace
