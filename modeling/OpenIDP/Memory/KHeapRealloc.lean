import OpenIDP.Memory.KHeapWrap

/-!
# The contents of blocks that move

`krealloc` gets a new block when the old one is too small, copies the payload of the old block
byte by byte, and frees the old block. The length is read from the old header after `kmalloc` has
split, linked or added blocks. Headers lie between payloads, so none of this touches the bytes of
a block in use.

## Main definitions

* `HeapMem` — the heap with the bytes it lies in
* `WritesHeaders` — what the bytes can be after headers were written
* `KreallocStep` — a call of `krealloc`

## Main results

* `KreallocStep.krealloc_eq` — a call changes the headers as the model without bytes says
* `Layout.payload_kept` — writing headers changes no byte of a used block
* `krealloc_preserves` — the bytes of the old block are those of the new one, and all others stay
-/

namespace OpenIDP.Memory

open OpenIDP.Math

namespace KHeap

/-- The bytes that a heap lies in. -/
abbrev HeapBytes := ℕ → BitVec 8

/-- A heap with the bytes it lies in, of which the payloads are looked at here. -/
structure HeapMem where
  heap : KHeap
  bytes : HeapBytes

/-- Of the bytes up to the old end of the heap only those of headers that change are written. The
pages that are added behind it may hold anything. -/
def WritesHeaders (h : KHeap) (bytes : HeapBytes) (h' : KHeap) (bytes' : HeapBytes) : Prop :=
  ∀ x < h.heapEnd, (∀ c, c ≤ x → x < c + blockHeaderSize → h'.hdr c = h.hdr c) →
    bytes' x = bytes x

/-- `for (i = 0; i < n; i++) dst[i] = src[i]` -/
def copyBytes (dst src : ℕ) : ℕ → HeapBytes → HeapBytes
  | 0, bytes => bytes
  | n + 1, bytes =>
    let copied := copyBytes dst src n bytes
    Function.update copied (dst + n) (copied (src + n))

/-- A call of `krealloc` with a pointer that is not `NULL` and a size that is not zero, and the
pointer that it returns. -/
inductive KreallocStep (ptr size : ℕ) : HeapMem → ℕ → HeapMem → Prop
  | kept {m : HeapMem} (hfits : size ≤ m.heap.size (sub64 ptr blockHeaderSize)) :
      KreallocStep ptr size m ptr m
  | failed {m : HeapMem} {h₁ : KHeap} {bytes₁ : HeapBytes}
      (hless : m.heap.size (sub64 ptr blockHeaderSize) < size)
      (hmalloc : m.heap.kmalloc size = some (0, h₁))
      (hbytes : WritesHeaders m.heap m.bytes h₁ bytes₁) :
      KreallocStep ptr size m 0 ⟨h₁, bytes₁⟩
  | moved {m : HeapMem} {newptr : ℕ} {h₁ h₂ : KHeap} {bytes₁ bytes₂ : HeapBytes}
      (hless : m.heap.size (sub64 ptr blockHeaderSize) < size)
      (hmalloc : m.heap.kmalloc size = some (newptr, h₁)) (hne : newptr ≠ 0)
      (hbytes₁ : WritesHeaders m.heap m.bytes h₁ bytes₁) (hfree : h₁.kfree ptr = some h₂)
      (hbytes₂ : WritesHeaders h₁
        (copyBytes newptr ptr (h₁.size (sub64 ptr blockHeaderSize)) bytes₁) h₂ bytes₂) :
      KreallocStep ptr size m newptr ⟨h₂, bytes₂⟩

section Headers

variable {h h' : KHeap} {blocks : List ℕ} {a c dst src n i x ptr size newptr : ℕ}
variable {bytes bytes' : HeapBytes} {m m' : HeapMem}

/-- The headers change as `krealloc` says. -/
theorem KreallocStep.krealloc_eq (hptr : ptr ≠ 0) (hsize : size ≠ 0)
    (hstep : KreallocStep ptr size m newptr m') :
    m.heap.krealloc ptr size = some (newptr, m'.heap) := by
  unfold KHeap.krealloc
  rw [if_neg hptr, if_neg hsize]
  dsimp only
  cases hstep with
  | kept hfits => rw [if_pos hfits]
  | failed hless hmalloc _ =>
    rw [if_neg (Nat.not_le.mpr hless), hmalloc]
    rfl
  | moved hless hmalloc hne _ hfree _ =>
    rw [if_neg (Nat.not_le.mpr hless), hmalloc]
    simp only [Option.bind_eq_bind, Option.bind_some, if_neg hne, hfree]

/-- After the loop the destination holds what the source held, and the other bytes are unchanged,
when the two ranges are apart. -/
theorem copyBytes_eq (hapart : dst + n ≤ src ∨ src + n ≤ dst) :
    (∀ i < n, copyBytes dst src n bytes (dst + i) = bytes (src + i)) ∧
      ∀ x, x < dst ∨ dst + n ≤ x → copyBytes dst src n bytes x = bytes x := by
  induction n with
  | zero => exact ⟨nofun, fun _ _ => rfl⟩
  | succ n ih =>
    obtain ⟨hcopied, hkept⟩ := ih (by omega)
    refine ⟨fun i hi => ?_, fun x hx => ?_⟩
    · rw [copyBytes]
      by_cases hlast : i = n
      · -- the byte that is read was not written before
        rw [hlast, Function.update_self]
        exact hkept _ (by omega)
      · rw [Function.update_of_ne (by omega)]
        exact hcopied i (by omega)
    · rw [copyBytes, Function.update_of_ne (by omega)]
      exact hkept x (by omega)

/-- Writing the headers of blocks changes no byte in a payload between them. -/
theorem Layout.payload_kept {k : KHeap} (hl : k.Layout blocks) (hc : c ∈ blocks)
    (hhdr : ∀ d ∉ blocks, h'.hdr d = h.hdr d) (hbytes : WritesHeaders h bytes h' bytes')
    (hend : c + blockHeaderSize + i < h.heapEnd) (hi : i < k.size c) :
    bytes' (c + blockHeaderSize + i) = bytes (c + blockHeaderSize + i) := by
  refine hbytes _ hend fun d hle hlt => ?_
  by_contra hchanged
  have hd : d ∈ blocks := by
    by_contra hd
    exact hchanged (hhdr d hd)
  by_cases hcd : c = d
  · omega
  · have hapart := hl.apart hc hd hcd
    omega

/-! ### The headers that `kfree` writes -/

/-- A set of blocks that no pointer but `NULL` leads out of. -/
def Closed (h : KHeap) (S : Set ℕ) : Prop :=
  ∀ c ∈ S, (h.next c ≠ 0 → h.next c ∈ S) ∧ (h.prev c ≠ 0 → h.prev c ∈ S)

theorem Layout.closed (hl : h.Layout blocks) : h.Closed {c | c ∈ blocks} := by
  intro c hc
  obtain ⟨xs, ys, rfl⟩ := List.append_of_mem hc
  constructor
  · rw [hl.next_eq]
    intro hne
    cases ys with
    | nil => exact absurd rfl hne
    | cons y ys => simp
  · rw [hl.prev_eq]
    intro hne
    cases xs using List.reverseRecOn with
    | nil => exact absurd rfl hne
    | append_singleton xs z =>
      rw [List.getLastD_concat]
      simp

/-- The first half of `coalesce` stays among the blocks, and so do the pointers. -/
theorem Closed.mergeForward {S : Set ℕ} (hclosed : h.Closed S) (ha : a ∈ S) :
    (h.mergeForward a).Closed S ∧ ∀ c ∉ S, (h.mergeForward a).hdr c = h.hdr c := by
  by_cases hb : h.next a ≠ 0 ∧ h.free (h.next a) = true
  · obtain ⟨hnext', hprev', -⟩ := mergeForward_fields rfl hb.1 hb.2
    have hbS := (hclosed a ha).1 hb.1
    refine ⟨fun c hc => ⟨?_, ?_⟩, fun c hc => ?_⟩
    · rw [hnext']
      split_ifs
      · exact (hclosed _ hbS).1
      · exact (hclosed c hc).1
    · rw [hprev']
      split_ifs
      · exact fun _ => ha
      · exact (hclosed c hc).2
    · have hca : c ≠ a := fun e => hc (e ▸ ha)
      have hcd : h.next (h.next a) ≠ 0 → c ≠ h.next (h.next a) := fun hne e =>
        hc (e ▸ (hclosed _ hbS).1 hne)
      rw [KHeap.mergeForward, if_pos hb]
      simp only [next_setNext, next_setSize, if_pos]
      split_ifs with hne
      · simp only [setPrev, setNext, setSize, setBlock, Function.update_of_ne hca,
          Function.update_of_ne (hcd hne)]
      · simp only [setNext, setSize, setBlock, Function.update_of_ne hca]
  · rw [mergeForward_of_not hb]
    exact ⟨hclosed, fun _ _ => rfl⟩

theorem Closed.coalesce {S : Set ℕ} {depth : ℕ} (hclosed : h.Closed S) (ha : a ∈ S)
    (hrun : coalesce depth h a = some h') : ∀ c ∉ S, h'.hdr c = h.hdr c := by
  induction depth generalizing h a with
  | zero => cases hrun
  | succ depth ih =>
    obtain ⟨hclosed₁, hkept⟩ := hclosed.mergeForward ha
    rw [KHeap.coalesce] at hrun
    intro c hc
    split_ifs at hrun with hback
    · rw [ih hclosed₁ ((hclosed₁ a ha).2 hback.1) hrun c hc, hkept c hc]
    · rw [← Option.some_inj.mp hrun, hkept c hc]

/-- `kfree` writes the headers of blocks only. -/
theorem Layout.kfree_hdr (hl : h.Layout blocks) (ha : a ∈ blocks)
    (hrun : h.kfree (a + blockHeaderSize) = some h') : ∀ c ∉ blocks, h'.hdr c = h.hdr c := by
  have hbounds := hl.bounds ha
  have hend := hl.end_lt
  have hheader : blockHeaderSize = 40 := rfl
  have hblock : sub64 (a + blockHeaderSize) blockHeaderSize = a := by
    rw [sub64_of_le (by omega) (by omega)]
    omega
  rw [KHeap.kfree, if_neg (by omega)] at hrun
  simp only [hblock] at hrun
  rw [if_neg (not_not_intro (hl.magic_eq a ha))] at hrun
  intro c hc
  have hca : c ≠ a := fun e => hc (e ▸ ha)
  rw [(hl.setFree true).closed.coalesce ha hrun c hc]
  exact Function.update_of_ne hca _ _

end Headers

section Realloc

variable {m m' : HeapMem} {blocks : List ℕ} {a size newptr : ℕ}

/-- What the caller of `krealloc` expects: the pointer is that of a block in use of at least `size`
bytes, which hold the old contents as far as they go. If the block has moved, the old one is freed.
The other blocks in use keep their sizes and their contents. -/
structure Preserves (m : HeapMem) (blocks : List ℕ) (a size newptr : ℕ) (m' : HeapMem)
    (blocks' : List ℕ) (b : ℕ) : Prop where
  inv : m'.heap.Inv blocks'
  result : newptr = b + blockHeaderSize
  live : b ∈ blocks' ∧ m'.heap.free b = false
  enough : size ≤ m'.heap.size b
  contents : ∀ i < min (m.heap.size a) size,
    m'.bytes (b + blockHeaderSize + i) = m.bytes (a + blockHeaderSize + i)
  freed : newptr ≠ a + blockHeaderSize → ¬ (a ∈ blocks' ∧ m'.heap.free a = false)
  others : ∀ c ∈ blocks, m.heap.free c = false → c ≠ a →
    c ∈ blocks' ∧ m'.heap.free c = false ∧ m'.heap.size c = m.heap.size c ∧
      ∀ i < m.heap.size c, m'.bytes (c + blockHeaderSize + i) = m.bytes (c + blockHeaderSize + i)

/-- The pointer to a payload leads back to its header. -/
theorem Layout.sub64_ptr {h : KHeap} (hl : h.Layout blocks) (ha : a ∈ blocks) :
    sub64 (a + blockHeaderSize) blockHeaderSize = a := by
  have hbounds := hl.bounds ha
  have hend := hl.end_lt
  rw [sub64_of_le (Nat.le_add_left _ _) (by omega), Nat.add_sub_cancel]

/-- A block of the old list that is in use keeps its payload while `kmalloc` writes headers. -/
theorem payload_kept_kmalloc {h₁ : KHeap} {bytes₁ : HeapBytes} {blocks₁ : List ℕ} {b c i : ℕ}
    (hi : m.heap.Inv blocks) (hg : Grants m.heap blocks 0 b h₁ blocks₁)
    (hhdr : ∀ c ∉ blocks₁, h₁.hdr c = m.heap.hdr c)
    (hbytes : WritesHeaders m.heap m.bytes h₁ bytes₁) (hc : c ∈ blocks)
    (hused : m.heap.free c = false) (hlt : i < m.heap.size c) :
    bytes₁ (c + blockHeaderSize + i) = m.bytes (c + blockHeaderSize + i) := by
  have hbounds := hi.layout.bounds hc
  have hc₁ := ((hg.used_iff c).mpr (Or.inr ⟨hc, hused⟩)).1
  exact hg.layout.payload_kept hc₁ hhdr hbytes (by omega)
    (by rwa [hg.size_eq c hc hused])

/-- A block that moves: its contents are copied, and it is freed. -/
theorem krealloc_moved (hi : m.heap.Inv blocks) (ha : a ∈ blocks) (hused : m.heap.free a = false)
    (hsize : size ≠ 0) (hle : size ≤ 2 ^ 64 - 48) (hpages : m.heap.HasPages size)
    (hless : m.heap.size a < size) {h₁ h₂ : KHeap} {bytes₁ bytes₂ : HeapBytes}
    (hmalloc : m.heap.kmalloc size = some (newptr, h₁))
    (hbytes₁ : WritesHeaders m.heap m.bytes h₁ bytes₁)
    (hfree : h₁.kfree (a + blockHeaderSize) = some h₂)
    (hbytes₂ : WritesHeaders h₁
      (copyBytes newptr (a + blockHeaderSize) (h₁.size a) bytes₁) h₂ bytes₂) :
    ∃ blocks' b, Preserves m blocks a size newptr ⟨h₂, bytes₂⟩ blocks' b := by
  have hheader : blockHeaderSize = 40 := rfl
  obtain ⟨h', blocks₁, b, hrun, hg, hi₁, hhdr₁⟩ := hi.kmalloc hsize hpages
  have henough := (hi.layout.kmalloc_enough_iff hi.end_lt hsize (by omega) hrun).mpr hle
  rw [hmalloc] at hrun
  obtain ⟨rfl, rfl⟩ := Prod.mk.inj (Option.some_inj.mp hrun)
  obtain ⟨hb₁, hb_used⟩ := (hg.used_iff b).mpr (Or.inl rfl)
  obtain ⟨ha₁, ha_used⟩ := (hg.used_iff a).mpr (Or.inr ⟨ha, hused⟩)
  rw [hi₁.layout.sub64_ptr hb₁] at henough
  have hba : b ≠ a := fun e => hg.fresh (e ▸ ⟨ha, hused⟩)
  have hsame : h₁.size a = m.heap.size a := hg.size_eq a ha hused
  rw [hsame] at hbytes₂
  -- the copy lies in the payload of the new block, apart from all other blocks
  have hapart := hi₁.layout.apart hb₁ ha₁ hba
  obtain ⟨hcopied, hkept⟩ := @copyBytes_eq (b + blockHeaderSize) (a + blockHeaderSize)
    (m.heap.size a) bytes₁ (by omega)
  obtain ⟨h₃, blocks₂, hrun₂, hl₂, hsep₂, hused₂, hsize₂, hend₂⟩ :=
    hi₁.layout.kfree hi₁.separated ha₁
  rw [hfree] at hrun₂
  obtain rfl := Option.some_inj.mp hrun₂
  have hhdr₂ := hi₁.layout.kfree_hdr ha₁ hfree
  have hpayload : ∀ c ∈ blocks₁, ∀ i < h₁.size c,
      bytes₂ (c + blockHeaderSize + i) = copyBytes (b + blockHeaderSize) (a + blockHeaderSize)
        (m.heap.size a) bytes₁ (c + blockHeaderSize + i) := by
    intro c hc i hlt
    have hbounds := hi₁.layout.bounds hc
    exact hi₁.layout.payload_kept hc hhdr₂ hbytes₂ (by omega) hlt
  refine ⟨blocks₂, b, ⟨hl₂, hsep₂, hend₂ ▸ hi₁.start_lt, hend₂ ▸ hi₁.aligned⟩, rfl,
    (hused₂ b).mpr ⟨hba, hb₁, hb_used⟩, (hsize₂ b hba hb_used).symm ▸ henough, fun i hlt => ?_,
    fun _ hstill => ((hused₂ a).mp hstill).1 rfl, fun c hc hc_used hca => ?_⟩
  · have hlt' : i < m.heap.size a := hlt.trans_le (min_le_left _ _)
    change bytes₂ _ = _
    rw [hpayload b hb₁ i (by omega), hcopied i hlt',
      payload_kept_kmalloc hi hg hhdr₁ hbytes₁ ha hused hlt']
  · obtain ⟨hc₁, hc₁_used⟩ := (hg.used_iff c).mpr (Or.inr ⟨hc, hc_used⟩)
    have hcb : c ≠ b := fun e => hg.fresh (e ▸ ⟨hc, hc_used⟩)
    have hc_size : h₁.size c = m.heap.size c := hg.size_eq c hc hc_used
    obtain ⟨hc₂, hc₂_used⟩ := (hused₂ c).mpr ⟨hca, hc₁, hc₁_used⟩
    refine ⟨hc₂, hc₂_used, (hsize₂ c hca hc₁_used).trans hc_size, fun i hlt => ?_⟩
    have hfar := hi₁.layout.apart hc₁ hb₁ hcb
    change bytes₂ _ = _
    rw [hpayload c hc₁ i (by omega), hkept _ (by omega),
      payload_kept_kmalloc hi hg hhdr₁ hbytes₁ hc hc_used hlt]

/-- `krealloc` of a block in use, to a size that does not wrap and for which there is memory,
returns, and whatever it returns holds the old contents. -/
theorem krealloc_preserves (hi : m.heap.Inv blocks) (ha : a ∈ blocks)
    (hused : m.heap.free a = false) (hsize : size ≠ 0) (hle : size ≤ 2 ^ 64 - 48)
    (hpages : m.heap.HasPages size) :
    (∃ newptr m', KreallocStep (a + blockHeaderSize) size m newptr m') ∧
      ∀ newptr m', KreallocStep (a + blockHeaderSize) size m newptr m' →
        ∃ blocks' b, Preserves m blocks a size newptr m' blocks' b := by
  have hback := hi.layout.sub64_ptr ha
  constructor
  · by_cases hfits : size ≤ m.heap.size a
    · exact ⟨_, m, .kept (by rwa [hback])⟩
    · obtain ⟨h₁, blocks₁, b, hrun, hg, hi₁, -⟩ := hi.kmalloc hsize hpages
      have ha₁ := ((hg.used_iff a).mpr (Or.inr ⟨ha, hused⟩)).1
      obtain ⟨h₂, blocks₂, hfree, -⟩ := hi₁.kfree ha₁
      have hne : b + blockHeaderSize ≠ 0 := by
        rw [blockHeaderSize]
        omega
      exact ⟨_, ⟨h₂, _⟩, .moved (by rwa [hback, ← Nat.not_le]) hrun hne (fun _ _ _ => rfl) hfree
        fun _ _ _ => rfl⟩
  · intro newptr m' hstep
    cases hstep with
    | kept hfits =>
      rw [hback] at hfits
      exact ⟨blocks, a, hi, rfl, ⟨ha, hused⟩, hfits, fun _ _ => rfl, fun hne => absurd rfl hne,
        fun c hc hc_used _ => ⟨hc, hc_used, rfl, fun _ _ => rfl⟩⟩
    | failed hless hmalloc _ =>
      -- `kmalloc` does not return `NULL` for a size that is not zero
      exact absurd rfl (hi.layout.kmalloc_ne_zero hi.end_lt hsize hmalloc)
    | moved hless hmalloc hne hbytes₁ hfree hbytes₂ =>
      rw [hback] at hless hbytes₂
      exact krealloc_moved hi ha hused hsize hle hpages hless hmalloc hbytes₁ hfree hbytes₂

end Realloc

/-- The heap as it was made, with one block of 16 bytes in use. -/
def sampleUsed : KHeap := ((sampleHeap.kmalloc 16).getD (0, sampleHeap)).2

theorem sampleUsed_reached : sampleUsed.Reached := by
  have hsome : (sampleHeap.kmalloc 16).isSome := by decide +kernel
  obtain ⟨⟨ptr, h⟩, hrun⟩ := Option.isSome_iff_exists.mp hsome
  have hused : sampleUsed = h := by
    rw [sampleUsed, hrun]
    rfl
  have hfits : ¬ sampleHeap.Grows 16 := fun hgrows => absurd hgrows.2 (by decide +kernel)
  rw [hused]
  exact .kmalloc (.init _ (Option.some_get _).symm) (by decide) (fun hgrows => absurd hgrows hfits)
    hrun

/-- A block of sevens grows to 64 bytes. -/
theorem krealloc_preserves_sampleUsed : ∃ blocks newptr m',
    KreallocStep (kheapStart + blockHeaderSize) 64 ⟨sampleUsed, fun _ => 7#8⟩ newptr m' ∧
      ∃ blocks' b,
        Preserves ⟨sampleUsed, fun _ => 7#8⟩ blocks kheapStart 64 newptr m' blocks' b := by
  obtain ⟨blocks, hi⟩ := sampleUsed_reached.inv
  have hfirst : sampleUsed.head = kheapStart ∧ sampleUsed.free kheapStart = false := by
    decide +kernel
  have hmem : kheapStart ∈ blocks := by
    have hreached := hi.layout.mem_of_reached (n := 0) fun m hm => by
      rw [Nat.le_zero.mp hm, Function.iterate_zero_apply, hfirst.1]
      decide
    rwa [Function.iterate_zero_apply, hfirst.1] at hreached
  have hfits : ¬ sampleUsed.Grows 64 := fun hgrows => absurd hgrows.2 (by decide +kernel)
  have hpages : sampleUsed.HasPages 64 := fun hgrows => absurd hgrows hfits
  obtain ⟨⟨newptr, m', hstep⟩, hall⟩ := krealloc_preserves (m := ⟨sampleUsed, fun _ => 7#8⟩)
    hi hmem hfirst.2 (by decide : 64 ≠ 0) (by decide) hpages
  exact ⟨blocks, newptr, m', hstep, hall newptr m' hstep⟩

end KHeap

end OpenIDP.Memory
