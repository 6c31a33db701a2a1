import OpenIDP.Memory.Sbrk
import OpenIDP.Userspace.Malloc

/-!
# Runs of a program that allocates memory

A program calls `malloc` and `free`, writes to its memory, and shares memory with other programs,
and other programs share memory with it. Each sharing moves the program break, also between two
system calls of the same `malloc`; so a call of `malloc` is several steps, up to its first
`sbrk(0)`, its search, and the request to `sbrk`. A program that shares memory with itself takes
two such steps.

Three sets of addresses are kept: what `malloc` got from `sbrk`, what was shared, and what is
allocated.

## Main definitions

* `Program`, `MallocEvent`, `MallocStep` — the runs
* `Protected` — what the program can rely on
* `Careful` — the condition on each step

## Main results

* `ProgramInv.step` — what a careful step keeps
* `malloc_runs_protected` — careful runs keep the allocated memory apart
-/

namespace OpenIDP.Userspace

open OpenIDP.Math OpenIDP.Memory OpenIDP.Memory.KHeap

/-- How far a call of `malloc` has come: it looks for a block, or asks `sbrk` for one that is to
be linked behind the block `last`. -/
inductive Pending
  | search (requested : ℕ)
  | request (requested last : ℕ)

/-- A program with its heap. The end of the heap is the program break. -/
structure Program where
  heap : KHeap
  /-- what `malloc` got from `sbrk` -/
  owned : Set ℕ
  /-- the regions that were shared -/
  shared : Set ℕ
  live : List Allocation
  pending : Option Pending

/-- The size for which `malloc` looks. -/
def blockSize (requested : ℕ) : ℕ := alignUp requested 16

/-- What `malloc` asks `sbrk` for. -/
def totalReq (requested : ℕ) : ℕ := wrap (blockSize requested + blockHeaderSize)

namespace Program

variable (p : Program)

/-- `malloc` up to its search. -/
def enter (requested : ℕ) : Program :=
  { p with
    heap := if p.heap.head = 0 then { p.heap with head := p.heap.heapEnd } else p.heap
    pending := some (.search requested) }

/-- The search of `malloc` ended at a block, or at the end of the list. -/
def searched (requested block last : ℕ) : Program :=
  if block = 0 then
    { p with pending := some (.request requested last) }
  else
    { p with
      heap := takeBlock p.heap block (blockSize requested)
      live := ⟨wrap (block + blockHeaderSize), requested⟩ :: p.live
      pending := none }

/-- `sbrk` returned `block`, and moved the program break. -/
def requested (requested last block programBreak : ℕ) : Program :=
  let heap := { p.heap with heapEnd := programBreak }
  if block = sbrkFailed then
    { p with heap := heap, pending := none }
  else
    { p with
      heap := appendBlock heap last block (blockSize requested)
      owned := p.owned ∪ {x | block ≤ x ∧ x < block + totalReq requested}
      live := ⟨wrap (block + blockHeaderSize), requested⟩ :: p.live
      pending := none }

/-- The program break is rounded up, and moved by the rounded size of a shared region. -/
def share (size : ℕ) : Program :=
  let start := alignUp p.heap.heapEnd pageSize
  { p with
    heap := { p.heap with heapEnd := wrap (start + alignUp size pageSize) }
    shared := p.shared ∪ {x | start ≤ x ∧ x < start + alignUp size pageSize} }

/-- The address belongs to `malloc` alone: it is in memory from `sbrk`, and not allocated. -/
def Private (x : ℕ) : Prop :=
  x ∈ p.owned ∧ ∀ l ∈ p.live, ¬ (l.ptr ≤ x ∧ x < l.ptr + l.size)

end Program

/-- What happens in a step. -/
inductive MallocEvent
  | malloc (requested : ℕ)
  | search (breaks : ℕ → ℕ)
  | request
  | free (ptr : ℕ)
  | share (size : ℕ)
  | write

/-- One step of a program, or of another one that shares memory with it. Only live pointers are
freed, and what belongs to `malloc` alone is not written to. While `malloc` searches, others may
move the program break, so `sbrk(0)` returns what `breaks` says. -/
inductive MallocStep : Program → MallocEvent → Program → Prop
  | malloc {p : Program} {requested : ℕ} (hidle : p.pending = none) (hsize : requested ≠ 0) :
      MallocStep p (.malloc requested) (p.enter requested)
  | search {p : Program} {requested block last : ℕ} {breaks : ℕ → ℕ}
      (hpending : p.pending = some (.search requested))
      (h : findBlock p.heap breaks (blockSize requested) maxBlocks 0 p.heap.head 0 =
        some (block, last)) :
      MallocStep p (.search breaks) (p.searched requested block last)
  | request {p : Program} {requested last root block programBreak : ℕ} {vm vm' : Vm}
      (hpending : p.pending = some (.request requested last))
      (h : sysSbrk vm root p.heap.heapEnd (toInt64 (totalReq requested)) =
        some (block, programBreak, vm')) :
      MallocStep p .request (p.requested requested last block programBreak)
  | free {p : Program} {ptr : ℕ} {heap : KHeap} (hidle : p.pending = none)
      (hlive : ptr = 0 ∨ ∃ l ∈ p.live, l.ptr = ptr) (h : free p.heap ptr = some heap) :
      MallocStep p (.free ptr) { p with heap := heap, live := revoke p.live ptr }
  | share {p : Program} (size : ℕ) : MallocStep p (.share size) (p.share size)
  | write {p : Program} {hdr : ℕ → HeapBlock}
      (h : ∀ c, (∀ x, c ≤ x → x < c + blockHeaderSize → p.Private x) → hdr c = p.heap.hdr c) :
      MallocStep p .write { p with heap := { p.heap with hdr := hdr } }

/-- The block is in the list. -/
def Program.Listed (p : Program) (block : ℕ) : Prop :=
  ∃ n, (∀ m ≤ n, p.heap.next^[m] p.heap.head ≠ 0) ∧ p.heap.next^[n] p.heap.head = block

/-- Allocated memory comes from `sbrk`, and overlaps no other allocated memory, no shared region,
and no header of a block. -/
structure Protected (p : Program) : Prop where
  owned : ∀ l ∈ p.live, ∀ x, l.ptr ≤ x → x < l.ptr + l.size → x ∈ p.owned
  disjoint : p.live.Pairwise fun l l' =>
    l.ptr + l.size ≤ l'.ptr ∨ l'.ptr + l'.size ≤ l.ptr
  shared : ∀ l ∈ p.live, ∀ x, l.ptr ≤ x → x < l.ptr + l.size → x ∉ p.shared
  headers : ∀ l ∈ p.live, ∀ c, p.Listed c →
    c + blockHeaderSize ≤ l.ptr ∨ l.ptr + l.size ≤ c

/-- The condition on a step: requests fit into a signed word; while `malloc` searches, the break
does not go back, and what the first search of all sees does not look like a block; the free
neighbours of a freed block in the list are its neighbours in memory; and shared regions stay in
the user half. -/
def Careful (t : Transition Program MallocEvent) : Prop :=
  match t.label with
  | .malloc requested => requested + 15 + blockHeaderSize < 2 ^ 63
  | .search breaks => (∀ i, t.before.heap.heapEnd ≤ breaks i) ∧
      (t.before.owned = ∅ → breaks 0 ≤ t.before.heap.head ∨
        (t.before.heap.hdr t.before.heap.head).magic ≠ mallocMagic)
  | .free ptr => ptr ≠ 0 → Chain.Adjacent t.before.heap (sub64 ptr blockHeaderSize)
  | .share size =>
      alignUp t.before.heap.heapEnd pageSize + alignUp size pageSize ≤ 2 ^ 47
  | _ => True

/-- What holds in every state of a careful run. -/
structure ProgramInv (p : Program) (blocks : List ℕ) : Prop where
  chain : Chain p.heap blocks
  separated : p.heap.Separated blocks
  live_nil : blocks = [] → p.live = []
  owned_nil : blocks = [] → p.owned = ∅
  covered : ∀ x, Covers p.heap blocks x → x ∈ p.owned
  below : ∀ x, x ∈ p.owned ∨ x ∈ p.shared → x < p.heap.heapEnd
  apart : ∀ x ∈ p.owned, x ∉ p.shared
  live : ∀ l ∈ p.live, ∃ a ∈ blocks, l.ptr = a + blockHeaderSize ∧ p.heap.free a = false ∧
    l.size ≤ p.heap.size a
  distinct : p.live.Pairwise fun l l' => l.ptr ≠ l'.ptr
  break_pos : 0 < p.heap.heapEnd
  break_le : p.heap.heapEnd ≤ 2 ^ 47
  search_lt : ∀ size, p.pending = some (.search size) → size + 15 + blockHeaderSize < 2 ^ 63
  request_lt : ∀ size last, p.pending = some (.request size last) →
    size + 15 + blockHeaderSize < 2 ^ 63 ∧ last = blocks.getLastD 0

section Runs

variable {p p₀ p' : Program} {blocks : List ℕ} {event : MallocEvent} {n size ptr c : ℕ}
variable {t : Transition Program MallocEvent} {trace : List (Transition Program MallocEvent)}

theorem blockSize_eq (hsize : n + 15 + blockHeaderSize < 2 ^ 63) :
    n ≤ blockSize n ∧ totalReq n = blockSize n + blockHeaderSize ∧
      totalReq n < 2 ^ 63 := by
  have heq : blockSize n = wrap (n + 2 ^ 4 - 1) / 2 ^ 4 * 2 ^ 4 :=
    alignUp_eq (k := 4) (by decide) n
  rw [wrap_of_lt (by omega)] at heq
  rw [totalReq, wrap_of_lt (by omega)]
  omega

theorem Chain.congr {h h' : KHeap} (hc : Chain h blocks) (hhead : h'.head = h.head)
    (hhdr : ∀ c ∈ blocks, h'.hdr c = h.hdr c) : Chain h' blocks := by
  have hsize : ∀ c ∈ blocks, h'.size c = h.size c := fun c hcm => by rw [size, size, hhdr c hcm]
  refine ⟨fun hne => hhead.trans (hc.head_eq hne), ?_, ?_, hc.pos, fun c hcm => ?_, fun c hcm => ?_⟩
  · refine hc.linked.congr (fun c hcm => ?_) fun c hcm => ?_
    · rw [next, next, hhdr c hcm]
    · rw [prev, prev, hhdr c hcm]
  · refine hc.order.imp_of_mem fun {c d} hcm _ hle => ?_
    rwa [hsize c hcm]
  · rw [hsize c hcm]
    exact hc.end_le c hcm
  · rw [hhdr c hcm]
    exact hc.magic_eq c hcm

/-- A block in the list is one of the chain. -/
theorem Chain.mem_of_listed (hc : Chain p.heap blocks) (hne : blocks ≠ []) (hlisted : p.Listed c) :
    c ∈ blocks := by
  obtain ⟨n, hnonzero, rfl⟩ := hlisted
  induction n with
  | zero =>
    rw [Function.iterate_zero_apply, hc.head_eq hne]
    cases blocks with
    | nil => exact absurd rfl hne
    | cons a rest => exact List.mem_cons_self
  | succ n ih =>
    have hprevious := ih fun m hm => hnonzero m (Nat.le_succ_of_le hm)
    have hlast := hnonzero (n + 1) (Nat.le_refl _)
    rw [Function.iterate_succ_apply'] at hlast ⊢
    obtain ⟨xs, ys, hcut⟩ := List.append_of_mem hprevious
    have hnext : p.heap.next (p.heap.next^[n] p.heap.head) = ys.headD 0 := by
      rw [hcut] at hc
      exact hc.next_eq
    rw [hnext] at hlast ⊢
    cases ys with
    | nil => exact absurd rfl hlast
    | cons y ys =>
      rw [hcut]
      simp

namespace ProgramInv

/-- The payloads of allocated blocks and the headers of all blocks lie apart. -/
theorem allocated (h : ProgramInv p blocks) : Protected p := by
  have hheader : blockHeaderSize = 40 := rfl
  constructor
  · intro l hl x hle hlt
    obtain ⟨a, ha, hptr, -, hsize⟩ := h.live l hl
    exact h.covered x ⟨a, ha, by omega, by omega⟩
  · refine h.distinct.imp_of_mem fun {l l'} hl hl' hne => ?_
    obtain ⟨a, ha, hptr, -, hsize⟩ := h.live l hl
    obtain ⟨a', ha', hptr', -, hsize'⟩ := h.live l' hl'
    have hapart := h.chain.apart ha ha' fun e => hne (by rw [hptr, hptr', e])
    omega
  · intro l hl x hle hlt
    obtain ⟨a, ha, hptr, -, hsize⟩ := h.live l hl
    exact h.apart x (h.covered x ⟨a, ha, by omega, by omega⟩)
  · intro l hl c hlisted
    obtain ⟨a, ha, hptr, -, hsize⟩ := h.live l hl
    have hc := h.chain.mem_of_listed (List.ne_nil_of_mem ha) hlisted
    by_cases hac : a = c
    · omega
    · have hapart := h.chain.apart ha hc hac
      omega

theorem enter (h : ProgramInv p blocks) (hsize : n + 15 + blockHeaderSize < 2 ^ 63) :
    ProgramInv (p.enter n) blocks := by
  have hheap : Chain (p.enter n).heap blocks ∧
      (p.enter n).heap.hdr = p.heap.hdr ∧
      (p.enter n).heap.heapEnd = p.heap.heapEnd := by
    rw [Program.enter]
    dsimp only
    split_ifs with hhead
    · refine ⟨⟨fun hne => ?_, h.chain.linked, h.chain.order, h.chain.pos, h.chain.end_le,
        h.chain.magic_eq⟩, rfl, rfl⟩
      -- a list that is not empty has a first block
      cases blocks with
      | nil => exact absurd rfl hne
      | cons a rest =>
        have hfirst := h.chain.head_eq hne
        rw [hhead] at hfirst
        exact absurd hfirst.symm (h.chain.ne_zero a List.mem_cons_self)
    · exact ⟨h.chain, rfl, rfl⟩
  obtain ⟨hchain, hhdr, hend⟩ := hheap
  have hfree : (p.enter n).heap.free = p.heap.free := by
    funext c
    rw [KHeap.free, KHeap.free, hhdr]
  have hsizes : (p.enter n).heap.size = p.heap.size := by
    funext c
    rw [KHeap.size, KHeap.size, hhdr]
  refine ⟨hchain, h.separated.congr fun c _ => congrFun hfree c, h.live_nil, h.owned_nil,
    fun x hx => h.covered x ?_, fun x hx => ?_, h.apart, fun l hl => ?_, h.distinct, ?_, ?_,
    fun size hpending => ?_, fun size last hpending => ?_⟩
  · obtain ⟨a, ha, hle, hlt⟩ := hx
    rw [hsizes] at hlt
    exact ⟨a, ha, hle, hlt⟩
  · rw [hend]
    exact h.below x hx
  · rw [hfree, hsizes]
    exact h.live l hl
  · rw [hend]
    exact h.break_pos
  · rw [hend]
    exact h.break_le
  · cases hpending
    exact hsize
  · cases hpending

/-- A block that is granted is allocated. -/
theorem grant {heap : KHeap} {blocks' : List ℕ} (h : ProgramInv p blocks)
    (hgrants : Chain.Grants p.heap blocks (blockSize n) c heap blocks')
    (hsize : n + 15 + blockHeaderSize < 2 ^ 63) :
    (∀ l ∈ (⟨wrap (c + blockHeaderSize), n⟩ :: p.live : List Allocation),
      ∃ a ∈ blocks', l.ptr = a + blockHeaderSize ∧ heap.free a = false ∧ l.size ≤ heap.size a) ∧
    (⟨wrap (c + blockHeaderSize), n⟩ :: p.live : List Allocation).Pairwise fun l l' =>
      l.ptr ≠ l'.ptr := by
  obtain ⟨hmem, hused⟩ := (hgrants.used_iff c).mpr (Or.inl rfl)
  have hend := hgrants.chain.end_le c hmem
  have hptr : wrap (c + blockHeaderSize) = c + blockHeaderSize := wrap_of_lt (by omega)
  rw [hptr]
  constructor
  · refine List.forall_mem_cons.mpr ⟨⟨c, hmem, rfl, hused, ?_⟩, fun l hl => ?_⟩
    · exact (blockSize_eq hsize).1.trans hgrants.enough
    · obtain ⟨a, ha, hl_ptr, hl_used, hl_size⟩ := h.live l hl
      obtain ⟨ha', hused'⟩ := (hgrants.used_iff a).mpr (Or.inr ⟨ha, hl_used⟩)
      exact ⟨a, ha', hl_ptr, hused', hl_size.trans (hgrants.size_eq a ha hl_used).ge⟩
  · refine List.pairwise_cons.mpr ⟨fun l hl heq => ?_, h.distinct⟩
    -- the block was not used before, those of the list are
    obtain ⟨a, ha, hl_ptr, hl_used, -⟩ := h.live l hl
    have hac : a = c := Nat.add_right_cancel (hl_ptr.symm.trans heq.symm)
    exact hgrants.fresh ⟨hac ▸ ha, hac ▸ hl_used⟩

/-- The search of `malloc`. -/
theorem searched {breaks : ℕ → ℕ} {block last : ℕ} (h : ProgramInv p blocks)
    (hpending : p.pending = some (.search n)) (hbreaks : ∀ i, p.heap.heapEnd ≤ breaks i)
    (hfirst : p.owned = ∅ → breaks 0 ≤ p.heap.head ∨ (p.heap.hdr p.heap.head).magic ≠ mallocMagic)
    (hrun : findBlock p.heap breaks (blockSize n) maxBlocks 0 p.heap.head 0 =
      some (block, last)) :
    ∃ blocks', ProgramInv (p.searched n block last) blocks' := by
  have hsize := h.search_lt n hpending
  have hrequest : last = blocks.getLastD 0 →
      ProgramInv { p with pending := some (.request n last) } blocks := by
    intro hlast
    refine { h with
      search_lt := fun size hpending => ?_
      request_lt := fun size last' hpending => ?_ }
    · cases hpending
    · cases hpending
      exact ⟨hsize, hlast⟩
  cases blocks with
  | nil =>
    -- nothing was got from `sbrk` yet, so the search ends where it starts
    obtain ⟨rfl, rfl⟩ : block = 0 ∧ last = 0 := by
      rw [show maxBlocks = maxBlocks - 1 + 1 from rfl, findBlock] at hrun
      split_ifs at hrun with hend hmagic hfound
      · cases hrun
        exact ⟨rfl, rfl⟩
      · cases hrun
        exact ⟨rfl, rfl⟩
      · rcases hfirst (h.owned_nil rfl) with hle | hne
        · exact absurd (Or.inr hle) hend
        · exact absurd hne hmagic
      · rcases hfirst (h.owned_nil rfl) with hle | hne
        · exact absurd (Or.inr hle) hend
        · exact absurd hne hmagic
    rw [Program.searched, if_pos rfl]
    exact ⟨[], hrequest rfl⟩
  | cons first rest =>
    have hbelow : ∀ a ∈ first :: rest, ∀ i, a < breaks i := fun a ha i =>
      (h.below a (Or.inl (h.covered a ⟨a, ha, Nat.le_refl a, by
        rw [blockHeaderSize]
        omega⟩))).trans_le (hbreaks i)
    obtain ⟨last', heq, hlast'⟩ :=
      Chain.findBlock_eq (b := 0) (s := blockSize n) (i := 0) h.chain.linked h.chain.pos
        hbelow h.chain.magic_eq h.chain.length_lt
    rw [← h.chain.head_eq (List.cons_ne_nil first rest), hrun] at heq
    obtain ⟨hblock, rfl⟩ := Prod.mk.inj (Option.some_inj.mp heq)
    cases hfind : (first :: rest).find? fun c =>
        p.heap.free c && decide (blockSize n ≤ p.heap.size c) with
    | none =>
      rw [hfind] at hblock
      rw [Program.searched, if_pos (show block = 0 from hblock)]
      exact ⟨_, hrequest (hlast' hfind)⟩
    | some a =>
      rw [hfind] at hblock
      have hfound := List.find?_some hfind
      have ha := List.mem_of_find?_eq_some hfind
      rw [Bool.and_eq_true, decide_eq_true_eq] at hfound
      obtain rfl : block = a := hblock
      obtain ⟨xs, ys, hcut⟩ := List.append_of_mem ha
      obtain ⟨blocks', hgrants, hend, hcovers⟩ :=
        (hcut ▸ h.chain).takeBlock (hcut ▸ h.separated) hfound.1 hfound.2
      rw [← hcut] at hgrants hcovers
      obtain ⟨hlive, hdistinct⟩ := h.grant hgrants hsize
      have hmem := ((hgrants.used_iff block).mpr (Or.inl rfl)).1
      rw [Program.searched, if_neg (h.chain.ne_zero block ha)]
      refine ⟨blocks', hgrants.chain, hgrants.separated, fun hnil => ?_, fun hnil => ?_,
        fun x hx => h.covered x (hcovers x hx), fun x hx => ?_, h.apart, hlive, hdistinct, ?_, ?_,
        fun size hpending => ?_, fun size last hpending => ?_⟩
      · exact absurd hnil (List.ne_nil_of_mem hmem)
      · exact absurd hnil (List.ne_nil_of_mem hmem)
      · exact (h.below x hx).trans_le hend.ge
      · exact h.break_pos.trans_le hend.ge
      · exact hend.le.trans h.break_le
      · cases hpending
      · cases hpending

/-- `malloc` makes a block of what `sbrk` returned. -/
theorem requested {v v' : Vm} {root block last programBreak : ℕ} (h : ProgramInv p blocks)
    (hpending : p.pending = some (.request n last))
    (hrun : sysSbrk v root p.heap.heapEnd (toInt64 (totalReq n)) =
      some (block, programBreak, v')) :
    ∃ blocks', ProgramInv (p.requested n last block programBreak) blocks' := by
  obtain ⟨hsize, rfl⟩ := h.request_lt n _ hpending
  obtain ⟨-, htotal, hlt⟩ := blockSize_eq hsize
  have hheader : blockHeaderSize = 40 := rfl
  rw [toInt64_of_lt hlt] at hrun
  by_cases hfail : block = sbrkFailed
  · -- a break that is not moved
    subst hfail
    have hbreak : programBreak = p.heap.heapEnd := by
      refine sysSbrk_failed (fun hend => ?_) hrun
      have hle := h.break_le
      rw [hend] at hle
      exact absurd hle (by decide)
    rw [Program.requested, if_pos rfl, hbreak]
    refine ⟨blocks, { h with
      search_lt := fun size hpending => ?_
      request_lt := fun size last hpending => ?_ }⟩
    · cases hpending
    · cases hpending
  · obtain ⟨rfl, hbreak, hle⟩ := sysSbrk_grow h.break_le (by omega) (by omega) hrun hfail
    rw [Int.toNat_natCast] at hbreak
    have hbehind : ∀ a ∈ blocks, a + blockHeaderSize + p.heap.size a ≤ p.heap.heapEnd := by
      intro a ha
      have hlast := h.below (a + blockHeaderSize + p.heap.size a - 1)
        (Or.inl (h.covered _ ⟨a, ha, by omega, by omega⟩))
      omega
    have hchain : Chain { p.heap with heapEnd := programBreak } blocks :=
      h.chain.congr rfl fun _ _ => rfl
    obtain ⟨hgrants, hend, hcovers⟩ := hchain.appendBlock (b := p.heap.heapEnd) (s := blockSize n)
      h.separated hbehind h.break_pos (by omega)
    obtain ⟨hlive, hdistinct⟩ := h.grant ⟨hgrants.chain, hgrants.separated, hgrants.fresh,
      hgrants.enough, hgrants.used_iff, hgrants.size_eq⟩ hsize
    have hgrow : p.heap.heapEnd ≤ programBreak := by omega
    have hnew : programBreak = p.heap.heapEnd + totalReq n := hbreak
    rw [Program.requested, if_neg hfail]
    refine ⟨blocks ++ [p.heap.heapEnd], hgrants.chain, hgrants.separated, fun hnil => ?_,
      fun hnil => ?_, fun x hx => ?_, fun x hx => ?_, fun x howned hshared => ?_, hlive, hdistinct,
      ?_, ?_, fun size hpending => ?_, fun size last hpending => ?_⟩
    · exact absurd hnil (by simp)
    · exact absurd hnil (by simp)
    · rcases hcovers x hx with hold | ⟨hle, hlt⟩
      · exact Or.inl (h.covered x hold)
      · exact Or.inr ⟨hle, by omega⟩
    · refine lt_of_lt_of_le ?_ hend.ge
      rcases hx with (howned | hgot) | hshared
      · exact (h.below x (Or.inl howned)).trans_le hgrow
      · exact hgot.2.trans_le hnew.ge
      · exact (h.below x (Or.inr hshared)).trans_le hgrow
    · rcases howned with howned | hgot
      · exact h.apart x howned hshared
      · exact absurd (h.below x (Or.inr hshared)) (Nat.not_lt.mpr hgot.1)
    · exact (h.break_pos.trans_le hgrow).trans_le hend.ge
    · exact hend.le.trans hle
    · cases hpending
    · cases hpending

/-- The program frees what it allocated. -/
theorem freed {heap : KHeap} (h : ProgramInv p blocks) (hidle : p.pending = none)
    (hlive : ptr = 0 ∨ ∃ l ∈ p.live, l.ptr = ptr)
    (hadjacent : ptr ≠ 0 → Chain.Adjacent p.heap (sub64 ptr blockHeaderSize))
    (hrun : free p.heap ptr = some heap) :
    ∃ blocks', ProgramInv { p with heap := heap, live := revoke p.live ptr } blocks' := by
  have hnone : ∀ pending : Pending, p.pending ≠ some pending := fun pending heq => by
    rw [hidle] at heq
    cases heq
  by_cases hzero : ptr = 0
  · subst hzero
    obtain rfl : p.heap = heap := Option.some_inj.mp hrun
    have hsame : revoke p.live 0 = p.live := List.filter_eq_self.mpr fun l hl => by
      obtain ⟨a, -, hptr, -⟩ := h.live l hl
      rw [blockHeaderSize] at hptr
      exact decide_eq_true (by omega)
    rw [hsame]
    exact ⟨blocks, h⟩
  · obtain ⟨l₀, hl₀, rfl⟩ := hlive.resolve_left hzero
    obtain ⟨a, ha, hptr, -, -⟩ := h.live l₀ hl₀
    have hend := h.chain.end_le a ha
    have hblock : sub64 l₀.ptr blockHeaderSize = a := by
      rw [hptr, sub64_of_le (by omega) (by omega)]
      omega
    obtain ⟨heap', blocks', hrun', hchain, hseparated, hne, hused, hsize, hbreak, hcovers⟩ :=
      h.chain.free h.separated ha (hblock ▸ hadjacent hzero)
    rw [← hptr, hrun] at hrun'
    obtain rfl := Option.some_inj.mp hrun'
    refine ⟨blocks', hchain, hseparated, fun hnil => absurd hnil hne, fun hnil => absurd hnil hne,
      fun x hx => h.covered x (hcovers x hx), fun x hx => (h.below x hx).trans_le hbreak.ge,
      h.apart, fun l hl => ?_, h.distinct.filter _, h.break_pos.trans_le hbreak.ge,
      hbreak.le.trans h.break_le, fun size hpending => absurd hpending (hnone _),
      fun size last hpending => absurd hpending (hnone _)⟩
    obtain ⟨hl, hother⟩ := List.mem_filter.mp hl
    obtain ⟨c, hc, hlptr, hlused, hlsize⟩ := h.live l hl
    have hca : c ≠ a := fun heq => of_decide_eq_true hother (by rw [hlptr, hptr, heq])
    obtain ⟨hc', hused'⟩ := (hused c).mpr ⟨hca, hc, hlused⟩
    exact ⟨c, hc', hlptr, hused', hlsize.trans (hsize c hca hlused).ge⟩

/-- The program break moves to the end of a shared region. -/
theorem share (h : ProgramInv p blocks)
    (hlt : alignUp p.heap.heapEnd pageSize + alignUp size pageSize ≤ 2 ^ 47) :
    ProgramInv (p.share size) blocks := by
  have hpage : pageSize = 4096 := rfl
  have hle : p.heap.heapEnd ≤ alignUp p.heap.heapEnd pageSize := by
    have hbreak := h.break_le
    rw [alignUp_page, wrap_of_lt (by omega)]
    omega
  have hend : (p.share size).heap.heapEnd =
      alignUp p.heap.heapEnd pageSize + alignUp size pageSize := wrap_of_lt (by omega)
  have hgrow : p.heap.heapEnd ≤ (p.share size).heap.heapEnd := by omega
  refine ⟨h.chain.congr rfl fun _ _ => rfl, h.separated, h.live_nil, h.owned_nil, h.covered,
    fun x hx => ?_, fun x howned hshared => ?_, h.live, h.distinct, h.break_pos.trans_le hgrow,
    hend.le.trans hlt, h.search_lt, h.request_lt⟩
  · rcases hx with howned | hshared | hnew
    · exact (h.below x (Or.inl howned)).trans_le hgrow
    · exact (h.below x (Or.inr hshared)).trans_le hgrow
    · exact hnew.2.trans_le hend.ge
  · rcases hshared with hshared | hnew
    · exact h.apart x howned hshared
    · have hlt := h.below x (Or.inl howned)
      exact absurd (hlt.trans_le hle) (Nat.not_lt.mpr hnew.1)

/-- Writing outside of what belongs to `malloc` leaves the headers of the blocks. -/
theorem write {hdr : ℕ → HeapBlock} (h : ProgramInv p blocks)
    (hhdr : ∀ c, (∀ x, c ≤ x → x < c + blockHeaderSize → p.Private x) → hdr c = p.heap.hdr c) :
    ProgramInv { p with heap := { p.heap with hdr := hdr } } blocks := by
  have hsame : ∀ c ∈ blocks, hdr c = p.heap.hdr c := by
    intro c hc
    refine hhdr c fun x hle hlt => ⟨h.covered x ⟨c, hc, hle, by omega⟩, fun l hl hx => ?_⟩
    obtain ⟨a, ha, hptr, -, hsize⟩ := h.live l hl
    by_cases hac : a = c
    · omega
    · have hapart := h.chain.apart ha hc hac
      omega
  have hsize : ∀ c ∈ blocks, KHeap.size { p.heap with hdr := hdr } c = p.heap.size c :=
    fun c hc => congrArg HeapBlock.size (hsame c hc)
  have hfree : ∀ c ∈ blocks, KHeap.free { p.heap with hdr := hdr } c = p.heap.free c :=
    fun c hc => congrArg HeapBlock.free (hsame c hc)
  refine ⟨h.chain.congr rfl hsame, h.separated.congr hfree, h.live_nil, h.owned_nil,
    fun x hx => ?_, h.below, h.apart, fun l hl => ?_, h.distinct, h.break_pos, h.break_le,
    h.search_lt, h.request_lt⟩
  · obtain ⟨c, hc, hle, hlt⟩ := hx
    rw [hsize c hc] at hlt
    exact h.covered x ⟨c, hc, hle, hlt⟩
  · obtain ⟨a, ha, hptr, hused, hle⟩ := h.live l hl
    exact ⟨a, ha, hptr, (hfree a ha).trans hused, hle.trans (hsize a ha).ge⟩

/-- What a careful step keeps. -/
theorem step (h : ProgramInv p blocks) (hstep : MallocStep p event p')
    (hcareful : Careful ⟨p, event, p'⟩) : ∃ blocks', ProgramInv p' blocks' := by
  cases hstep with
  | malloc hidle hsize => exact ⟨blocks, h.enter hcareful⟩
  | search hpending hrun => exact h.searched hpending hcareful.1 hcareful.2 hrun
  | request hpending hrun => exact h.requested hpending hrun
  | free hidle hlive hrun => exact h.freed hidle hlive hcareful hrun
  | share size => exact ⟨blocks, h.share hcareful⟩
  | write hhdr => exact ⟨blocks, h.write hhdr⟩

end ProgramInv

/-- A program that has allocated nothing. -/
structure Program.Fresh (p : Program) : Prop where
  head_eq : p.heap.head = 0
  break_pos : 0 < p.heap.heapEnd
  break_le : p.heap.heapEnd ≤ 2 ^ 47
  owned_eq : p.owned = ∅
  shared_eq : p.shared = ∅
  live_eq : p.live = []
  pending_eq : p.pending = none

theorem Program.Fresh.inv (h : p.Fresh) : ProgramInv p [] := by
  have hnone : ∀ pending : Pending, p.pending ≠ some pending := fun pending heq => by
    rw [h.pending_eq] at heq
    cases heq
  refine ⟨⟨fun hne => absurd rfl hne, trivial, .nil, ?_, ?_, ?_⟩, .nil, fun _ => h.live_eq,
    fun _ => h.owned_eq, fun x hx => ?_, fun x hx => ?_, fun x hx => ?_, ?_, ?_, h.break_pos,
    h.break_le, fun size hpending => absurd hpending (hnone _),
    fun size last hpending => absurd hpending (hnone _)⟩
  · exact List.forall_mem_nil _
  · exact List.forall_mem_nil _
  · exact List.forall_mem_nil _
  · obtain ⟨a, ha, -⟩ := hx
    exact absurd ha List.not_mem_nil
  · rw [h.owned_eq, h.shared_eq] at hx
    exact absurd hx (by simp)
  · rw [h.owned_eq] at hx
    exact absurd hx (Set.notMem_empty x)
  · rw [h.live_eq]
    exact List.forall_mem_nil _
  · rw [h.live_eq]
    exact .nil

/-- In careful runs allocated memory is memory from `sbrk`, apart from all other memory in use. -/
theorem malloc_runs_protected (hstart : p₀.Fresh)
    (run : Reaches (Traced MallocStep) p₀ trace p) (hcareful : ∀ t ∈ trace, Careful t) :
    Protected p := by
  have hinv : (∀ t ∈ trace, Careful t) → ∃ blocks, ProgramInv p blocks := by
    refine run.invariant
      (I := fun trace p => (∀ t ∈ trace, Careful t) → ∃ blocks, ProgramInv p blocks)
      (fun _ => ⟨[], hstart.inv⟩) fun trace p t p' ih hlast hall => ?_
    obtain ⟨hnow, hbefore⟩ := List.forall_mem_cons.mp hall
    obtain ⟨blocks, hp⟩ := ih hbefore
    obtain ⟨before, event, after⟩ := t
    obtain ⟨rfl, rfl, hstep⟩ := hlast
    exact hp.step hstep hnow
  obtain ⟨blocks, hp⟩ := hinv hcareful
  exact hp.allocated

end Runs

/-! ## A program that shares memory between two calls -/

/-- The program after a call of `free` that returns. -/
def Program.freed (p : Program) (ptr : ℕ) : Program :=
  { p with heap := (free p.heap ptr).getD p.heap, live := revoke p.live ptr }

theorem MallocStep.freed {p : Program} {ptr : ℕ} (hidle : p.pending = none)
    (hlive : ∃ l ∈ p.live, l.ptr = ptr) (h : (Userspace.free p.heap ptr).isSome) :
    MallocStep p (.free ptr) (p.freed ptr) := by
  refine MallocStep.free hidle (Or.inr hlive) ?_
  obtain ⟨heap, hheap⟩ := Option.isSome_iff_exists.mp h
  rw [hheap, Option.getD_some]

/-- A program with one page, at `0x400000`, which has allocated nothing. -/
def sampleProgram : Program :=
  { heap := { hdr := fun _ => ⟨0, 0, false, 0, 0⟩, head := 0, heapEnd := 0x401000 }
    owned := ∅
    shared := ∅
    live := []
    pending := none }

/-- The program has allocated almost a page, and shared another one. -/
def sampleShared : Program :=
  (((sampleProgram.enter 4040).searched 4040 0 0).requested 4040 0 0x401000 0x401FF8).share 0x1000

/-- The calls up to there. -/
def sampleCalls : List MallocEvent :=
  [.share 0x1000, .request, .search fun _ => 0x401000, .malloc 4040]

/-- The program has allocated almost a page once more, behind the shared one. -/
def sampleFull : Program :=
  ((sampleShared.enter 4040).searched 4040 0 0x401000).requested 4040 0x401000 0x403000 0x403FF8

/-- The program has freed its blocks, and allocated a larger one. -/
def sampleMerged : Program :=
  (((sampleFull.freed 0x401028).freed 0x403028).enter 8128).searched 8128 0x401000 0

theorem sampleProgram_fresh : sampleProgram.Fresh :=
  ⟨rfl, by decide, by decide, rfl, rfl, rfl, rfl⟩

theorem sampleShared_reached : ∃ trace,
    Reaches (Traced MallocStep) sampleProgram trace sampleShared ∧
      trace.map Transition.label = sampleCalls ∧ ∀ t ∈ trace, Careful t := by
  obtain ⟨⟨block, programBreak, v⟩, hsbrk, hresult⟩ : ∃ x,
      sysSbrk Heap.sampleHeap.vm 0x2000 0x401000 4088 = some x ∧
        (x.1, x.2.1) = (0x401000, 0x401FF8) :=
    Option.map_eq_some_iff.mp (by decide +kernel)
  obtain ⟨rfl, rfl⟩ := Prod.mk.inj hresult
  have hsearch : findBlock (sampleProgram.enter 4040).heap (fun _ => 0x401000) (blockSize 4040)
      maxBlocks 0 (sampleProgram.enter 4040).heap.head 0 = some (0, 0) := by decide +kernel
  have run := (((Reaches.start.next (MallocStep.malloc (p := sampleProgram) rfl (by decide))).next
    (MallocStep.search rfl hsearch)).next (MallocStep.request rfl hsbrk)).next (.share 0x1000)
  refine ⟨_, run, rfl, List.forall_mem_cons.mpr ⟨?_, List.forall_mem_cons.mpr ⟨trivial,
    List.forall_mem_cons.mpr ⟨⟨fun _ => ?_, fun _ => Or.inl ?_⟩,
      List.forall_mem_singleton.mpr ?_⟩⟩⟩⟩
  · have hend : alignUp 0x401FF8 pageSize + alignUp 0x1000 pageSize ≤ 2 ^ 47 := by decide
    exact hend
  · exact Nat.le_refl 0x401000
  · exact Nat.le_refl 0x401000
  · have hsize : 4040 + 15 + blockHeaderSize < 2 ^ 63 := by decide
    exact hsize

/-- What it has allocated there is its own. -/
theorem malloc_runs_protected_sampleShared : ∃ trace,
    Reaches (Traced MallocStep) sampleProgram trace sampleShared ∧
      trace.map Transition.label = sampleCalls ∧ Protected sampleShared := by
  obtain ⟨trace, run, hlabels, hcareful⟩ := sampleShared_reached
  exact ⟨trace, run, hlabels, malloc_runs_protected sampleProgram_fresh run hcareful⟩

/-- When it frees the two blocks, they become one, with the shared page in between, and the next
call of `malloc` grants it. -/
theorem malloc_grants_shared : ∃ trace,
    Reaches (Traced MallocStep) sampleProgram trace sampleMerged ∧
      trace.map Transition.label =
        [.search fun _ => 0x403FF8, .malloc 8128, .free 0x403028, .free 0x401028, .request,
          .search fun _ => 0x403000, .malloc 4040] ++ sampleCalls ∧
      ¬ Protected sampleMerged := by
  obtain ⟨trace, run, hlabels, -⟩ := sampleShared_reached
  obtain ⟨⟨block, programBreak, v⟩, hsbrk, hresult⟩ : ∃ x,
      sysSbrk Heap.sampleHeap.vm 0x2000 0x403000 4088 = some x ∧
        (x.1, x.2.1) = (0x403000, 0x403FF8) :=
    Option.map_eq_some_iff.mp (by decide +kernel)
  obtain ⟨rfl, rfl⟩ := Prod.mk.inj hresult
  have hsearch : findBlock (sampleShared.enter 4040).heap (fun _ => 0x403000) (blockSize 4040)
      maxBlocks 0 (sampleShared.enter 4040).heap.head 0 = some (0, 0x401000) := by decide +kernel
  have hagain : MallocStep sampleShared (.malloc 4040) (sampleShared.enter 4040) :=
    .malloc rfl (by decide)
  have hfull : MallocStep ((sampleShared.enter 4040).searched 4040 0 0x401000) .request
      sampleFull := .request rfl hsbrk
  -- the second block is merged into the first one
  have hfirst : MallocStep sampleFull (.free 0x401028) (sampleFull.freed 0x401028) :=
    .freed rfl ⟨⟨0x401028, 4040⟩, .tail _ (.head _), rfl⟩ (by decide +kernel)
  have hsecond : MallocStep (sampleFull.freed 0x401028) (.free 0x403028)
      ((sampleFull.freed 0x401028).freed 0x403028) :=
    .freed rfl ⟨⟨0x403028, 4040⟩, .head _, rfl⟩ (by decide +kernel)
  have hlarger : MallocStep ((sampleFull.freed 0x401028).freed 0x403028) (.malloc 8128)
      (((sampleFull.freed 0x401028).freed 0x403028).enter 8128) := .malloc rfl (by decide)
  have hmerged : findBlock (((sampleFull.freed 0x401028).freed 0x403028).enter 8128).heap
      (fun _ => 0x403FF8) (blockSize 8128) maxBlocks 0
      (((sampleFull.freed 0x401028).freed 0x403028).enter 8128).heap.head 0 =
        some (0x401000, 0) := by decide +kernel
  have hlarge := ((((((run.next hagain).next (.search rfl hsearch)).next hfull).next
    hfirst).next hsecond).next hlarger).next (.search rfl hmerged)
  refine ⟨_, hlarge, ?_, fun hp => ?_⟩
  · simp only [List.map_cons, hlabels]
    rfl
  · have hshared : 0x402000 ∈ sampleShared.shared := Or.inr ⟨by decide, by decide⟩
    exact hp.shared ⟨0x401028, 8128⟩ (.head _) 0x402000 (by decide) (by decide) hshared

end OpenIDP.Userspace
