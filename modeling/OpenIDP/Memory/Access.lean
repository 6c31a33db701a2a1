import OpenIDP.Math.Bytes
import OpenIDP.Memory.Spaces

/-!
# What a user program can access

The processor lets a user program write to a page when the entries of all four levels are
present, writable and for user programs. A byte is read from the frame its page leads to.

## Main definitions

* `UserWritable` — a user program may write at an address
* `frameOf` — the frame a page leads to
* `readByte` — the byte at an address
* `Vm.memsetPage` — the kernel clears a page at its virtual address
* `Vm.writeBytes` — the kernel stores bytes at a physical address
* `Vm.storeBytes` — the kernel stores bytes at a virtual address

## Main results

* `Space.userWritable_iff`, `Space.readByte_eq` — in terms of the entry for the page
* `Space.memsetPage_eq` — clearing a page clears its frame
* `Vm.frameByte_writeBytes` — the bytes stored are read, and the others stay
* `Spaces.mapFilled` — a fresh page, with what is stored in it
-/

namespace OpenIDP.Memory

open OpenIDP.Math

/-- The entry lets a user program write what is below. -/
def Allows (entry : ℕ) : Prop :=
  IsPresent entry ∧ entry &&& vmmWrite ≠ 0 ∧ entry &&& vmmUser ≠ 0

instance (entry : ℕ) : Decidable (Allows entry) := inferInstanceAs (Decidable (_ ∧ _))

/-- The processor's walk for a write by a user program. -/
def userWrite (mem : Frames) : ℕ → Path → Option (Path × ℕ)
  | _, [] => none
  | table, index :: rest =>
    if Allows (mem table index) then
      if rest = [] ∨ IsHuge (mem table index) then some (rest, mem table index)
      else userWrite mem (entryFrame (mem table index)) rest
    else
      none

/-- A user program may write at the address. -/
def UserWritable (mem : Frames) (root virt : ℕ) : Prop :=
  (userWrite mem root (indices virt)).isSome

instance (mem : Frames) (root virt : ℕ) : Decidable (UserWritable mem root virt) :=
  inferInstanceAs (Decidable (_ = true))

/-- The word of a frame that holds the byte at an offset. -/
def wordIndex (offset : ℕ) : Fin 512 := ⟨offset / 8 % 512, Nat.mod_lt _ (Nat.zero_lt_succ 511)⟩

/-- The byte at an offset into a frame. -/
def frameByte (mem : Frames) (frame offset : ℕ) : ℕ :=
  byteOf (mem frame (wordIndex offset)) (offset % 8)

/-- The frame of 4096 bytes that the page of an address leads to. Of a huge page it is the
part that the address lies in. -/
def frameOf (mem : Frames) (root virt : ℕ) : Option ℕ :=
  (translate mem root (indices virt)).map fun (rest, entry) =>
    let size := pageSize * 512 ^ rest.length
    entryFrame entry / size * size + virt % size / pageSize * pageSize

/-- The byte at an address. -/
def readByte (mem : Frames) (root virt : ℕ) : Option ℕ :=
  (frameOf mem root virt).map fun frame => frameByte mem frame (virt % pageSize)

/-- The processor accepts the address: bits 47 to 63 are equal. -/
def Canonical (virt : ℕ) : Prop := virt < 2 ^ 47 ∨ 2 ^ 64 - 2 ^ 47 ≤ virt

instance (virt : ℕ) : Decidable (Canonical virt) := inferInstanceAs (Decidable (_ ∨ _))

/-- `memset(virt, 0, PAGE_SIZE)` for a page-aligned virtual address. The handlers of the
faults it may raise never return. -/
def Vm.memsetPage (v : Vm) (pml4 virt : ℕ) : Option Vm :=
  if Canonical virt then (frameOf v.mem pml4 virt).map v.clearPage else none

/-- `*p = b` for the physical address of `p`. -/
def Vm.writeByte (v : Vm) (addr : ℕ) (b : BitVec 8) : Vm :=
  let frame := addr / pageSize * pageSize
  let index := wordIndex (addr % pageSize)
  v.setWord frame index (setByte (v.mem frame index) (addr % pageSize % 8) b.toNat)

/-- Stores bytes from a physical address on. -/
def Vm.writeBytes (v : Vm) (addr : ℕ) : List (BitVec 8) → Vm
  | [] => v
  | b :: bytes => (v.writeByte addr b).writeBytes (addr + 1) bytes

/-- `*p = b` for a virtual address. The handlers of the faults it may raise never return. -/
def Vm.storeByte (v : Vm) (pml4 virt : ℕ) (b : BitVec 8) : Option Vm :=
  if Canonical virt then
    (frameOf v.mem pml4 virt).map fun frame => v.writeByte (frame + virt % pageSize) b
  else
    none

/-- Stores bytes from a virtual address on. -/
def Vm.storeBytes (pml4 : ℕ) : ℕ → List (BitVec 8) → Vm → Option Vm
  | _, [], v => some v
  | virt, b :: bytes, v => do
    let v₁ ← v.storeByte pml4 virt b
    storeBytes pml4 (wrap (virt + 1)) bytes v₁

section Bytes

variable {v : Vm} {frame offset : ℕ} {bytes : List (BitVec 8)} {b : BitVec 8}

theorem Vm.writeByte_mem_of_ne (haligned : frame % pageSize = 0) (hoffset : offset < pageSize)
    {g : ℕ} (hg : g ≠ frame) : (v.writeByte (frame + offset) b).mem g = v.mem g := by
  refine Function.update_of_ne ?_ _ _
  have hframe : (frame + offset) / pageSize * pageSize = frame := by
    rw [pageSize] at *
    omega
  rwa [hframe]

theorem Vm.frameByte_writeByte (haligned : frame % pageSize = 0) (hoffset : offset < pageSize)
    {k : ℕ} (hk : k < pageSize) : frameByte (v.writeByte (frame + offset) b).mem frame k =
      if k = offset then b.toNat else frameByte v.mem frame k := by
  have hframe : (frame + offset) / pageSize * pageSize = frame := by
    rw [pageSize] at *
    omega
  have hrest : (frame + offset) % pageSize = offset := by
    rw [pageSize] at *
    omega
  have hindex : wordIndex k = wordIndex offset ↔ k / 8 = offset / 8 := by
    rw [wordIndex, wordIndex, Fin.mk.injEq]
    rw [pageSize] at *
    omega
  rw [frameByte, frameByte, Vm.writeByte, hframe, hrest, Vm.mem_setWord]
  by_cases hword : k / 8 = offset / 8
  · rw [if_pos ⟨rfl, hindex.mpr hword⟩, byteOf_setByte b.isLt, hindex.mpr hword]
    by_cases hbyte : k % 8 = offset % 8
    · rw [if_pos hbyte, if_pos (by omega)]
    · rw [if_neg hbyte, if_neg (by omega)]
  · rw [if_neg fun h => hword (hindex.mp h.2), if_neg (by omega)]

theorem Vm.writeBytes_mem_of_ne (haligned : frame % pageSize = 0)
    (hlen : offset + bytes.length ≤ pageSize) {g : ℕ} (hg : g ≠ frame) :
    (v.writeBytes (frame + offset) bytes).mem g = v.mem g := by
  induction bytes generalizing v offset with
  | nil => rfl
  | cons b bytes ih =>
    rw [List.length_cons] at hlen
    rw [Vm.writeBytes, Nat.add_assoc, ih (by omega),
      Vm.writeByte_mem_of_ne haligned (by omega) hg]

theorem Vm.frameByte_writeBytes (haligned : frame % pageSize = 0)
    (hlen : offset + bytes.length ≤ pageSize) {k : ℕ} (hk : k < pageSize) :
    frameByte (v.writeBytes (frame + offset) bytes).mem frame k =
      if offset ≤ k then (bytes[k - offset]?.map BitVec.toNat).getD (frameByte v.mem frame k)
      else frameByte v.mem frame k := by
  induction bytes generalizing v offset with
  | nil => simp [Vm.writeBytes]
  | cons b bytes ih =>
    rw [List.length_cons] at hlen
    rw [Vm.writeBytes, Nat.add_assoc, ih (by omega),
      Vm.frameByte_writeByte haligned (by omega) hk]
    rcases Nat.lt_trichotomy k offset with hlt | rfl | hlt
    · rw [if_neg (by omega), if_neg (by omega), if_neg (by omega)]
    · rw [if_neg (by omega), if_pos rfl, if_pos (Nat.le_refl k), Nat.sub_self]
      rfl
    · have hindex : k - offset = (k - (offset + 1)) + 1 := by omega
      rw [if_pos (by omega), if_neg (by omega), if_pos (by omega), hindex, List.getElem?_cons_succ]

theorem Vm.writeBytes_books (v : Vm) (addr : ℕ) (bytes : List (BitVec 8)) :
    (v.writeBytes addr bytes).pmm = v.pmm ∧ (v.writeBytes addr bytes).lent = v.lent ∧
      (v.writeBytes addr bytes).freed = v.freed := by
  induction bytes generalizing v addr with
  | nil => exact ⟨rfl, rfl, rfl⟩
  | cons b bytes ih => exact ih (v.writeByte addr b) (addr + 1)

end Bytes

section Access

variable {depth root t virt : ℕ} {v v' : Vm} {p q : Path}

theorem TableEntry.allows {entry : ℕ} (h : TableEntry entry) (hpresent : IsPresent entry) :
    Allows entry :=
  ⟨hpresent, h.write, h.user⟩

/-- From a table of the lower half, what counts is the entry of the last table. -/
theorem Space.userWrite_from (h : Space depth root v) (hlen : p.length + q.length = 3)
    (ht : reach v.mem root p = some t) (hlow : p = [] → ∀ j ∈ q.head?, j.val < 256)
    (i : Fin 512) :
    userWrite v.mem t (q ++ [i]) = (leafEntry v.mem root (p ++ q) i).bind fun e =>
      if Allows e then some ([], e) else none := by
  have hdepth := h.depth_le
  induction q generalizing p t with
  | nil =>
    rw [List.append_nil, leafEntry, ht, Option.bind_some, List.nil_append, userWrite,
      presentEntry]
    by_cases hallows : Allows (v.mem t i)
    · rw [if_pos hallows, if_pos (Or.inl rfl), if_pos hallows.1, Option.bind_some,
        if_pos hallows]
    · rw [if_neg hallows]
      split_ifs
      · rw [Option.bind_some, if_neg hallows]
      · rfl
  | cons j q ih =>
    rw [List.length_cons] at hlen
    have hj : ¬ (t = root ∧ 256 ≤ j.val) := h.lower (by omega) ht fun hp => hlow hp j rfl
    rw [List.cons_append, userWrite]
    by_cases hpresent : IsPresent (v.mem t j)
    · have hplain := h.plain (by omega) ht hj hpresent
      have hnext : reach v.mem root (p ++ [j]) = some (entryFrame (v.mem t j)) := by
        rw [reach_concat ht, lowerTable_eq_some]
        exact ⟨hj, hpresent, rfl⟩
      have hstop : ¬ (q ++ [i] = [] ∨ IsHuge (v.mem t j)) :=
        not_or.mpr ⟨List.concat_ne_nil i q, hplain.not_huge⟩
      have hrest := ih (p := p ++ [j]) (by rw [List.length_append, List.length_singleton]; omega)
        hnext fun hnil => absurd hnil (by simp)
      rw [if_pos (hplain.allows hpresent), if_neg hstop, hrest, List.append_assoc]
      rfl
    · have hnone : reach v.mem root (p ++ j :: q) = none := by
        rw [reach_append ht, descend_cons, lowerTable_of_lower hj, nextTable, if_neg hpresent]
        rfl
      rw [if_neg fun hallows => hpresent hallows.1, leafEntry, hnone]
      rfl

/-- In the lower half the entry for the page decides. -/
theorem Space.userWritable_iff (h : Space depth root v) (hvirt : InUserHalf virt) :
    UserWritable v.mem root virt ↔ ∃ e, pageEntry v.mem root virt = some e ∧ Allows e := by
  have hwalk : userWrite v.mem root (indices virt) = (pageEntry v.mem root virt).bind fun e =>
      if Allows e then some ([], e) else none := by
    refine h.userWrite_from (p := []) (q := tablePath virt) rfl rfl (fun _ j hj => ?_) _
    rwa [← Option.some_inj.mp hj]
  rw [UserWritable, hwalk]
  cases hentry : pageEntry v.mem root virt with
  | none => simp
  | some e =>
    rw [Option.bind_some]
    split_ifs with hallows
    · exact iff_of_true rfl ⟨e, rfl, hallows⟩
    · refine iff_of_false Bool.false_ne_true ?_
      rintro ⟨e', he', hallows'⟩
      exact hallows (Option.some_inj.mp he' ▸ hallows')

theorem inUserHalf_of_lt (hvirt : virt < 2 ^ 47) : InUserHalf virt := by
  rw [InUserHalf, pml4Index, tableIndex, Fin.val_ofNat, Nat.shiftRight_eq_div_pow]
  omega

theorem entryFrame_page (entry : ℕ) :
    entryFrame entry / pageSize * pageSize = entryFrame entry := by
  have hmask : pageAlignMask = 2 ^ 12 * (2 ^ 40 - 1) := rfl
  have hdvd : pageSize ∣ entryFrame entry := by
    rw [entryFrame, Nat.dvd_iff_mod_eq_zero, pageSize, hmask, show 4096 = 2 ^ 12 from rfl,
      ← Nat.and_two_pow_sub_one_eq_mod, Nat.and_assoc]
    exact Nat.and_zero entry
  exact Nat.div_mul_cancel hdvd

/-- In the lower half a page leads to the frame of its entry. -/
theorem Space.frameOf_eq (h : Space depth root v) (hvirt : InUserHalf virt) :
    frameOf v.mem root virt = (pageEntry v.mem root virt).map entryFrame := by
  rw [frameOf, h.translate_eq hvirt, Option.map_map]
  congr 1
  funext e
  have hoffset : virt % pageSize / pageSize * pageSize = 0 := by
    rw [Nat.div_eq_of_lt (Nat.mod_lt _ (by decide)), Nat.zero_mul]
  simp only [Function.comp_apply, List.length_nil, pow_zero, Nat.mul_one, entryFrame_page, hoffset,
    Nat.add_zero]

/-- In the lower half a byte is read from the frame of its page. -/
theorem Space.readByte_eq (h : Space depth root v) (hvirt : InUserHalf virt) :
    readByte v.mem root virt = (pageEntry v.mem root virt).map fun e =>
      frameByte v.mem (entryFrame e) (virt % pageSize) := by
  rw [readByte, h.frameOf_eq hvirt, Option.map_map]
  rfl

/-- Clearing a page of the lower half clears its frame. -/
theorem Space.memsetPage_eq (h : Space depth root v) (hvirt : virt < 2 ^ 47) {e : ℕ}
    (hentry : pageEntry v.mem root virt = some e) :
    v.memsetPage root virt = some (v.clearPage (entryFrame e)) := by
  have hcanonical : Canonical virt := Or.inl hvirt
  rw [Vm.memsetPage, if_pos hcanonical, h.frameOf_eq (inUserHalf_of_lt hvirt), hentry]
  rfl

theorem samePage_iff_of_lt {x : ℕ} (hx : x < 2 ^ 48) (hvirt : virt < 2 ^ 48) :
    SamePage x virt ↔ x / pageSize = virt / pageSize := by
  rw [SamePage, pageSize]
  omega

/-- The addresses of the page that starts at `virt`. -/
theorem samePage_iff_of_aligned {x : ℕ} (haligned : virt % pageSize = 0) (hx : x < 2 ^ 47)
    (hvirt : virt < 2 ^ 47) : SamePage x virt ↔ virt ≤ x ∧ x < virt + pageSize := by
  rw [samePage_iff_of_lt (hx.trans (by decide)) (hvirt.trans (by decide))]
  rw [pageSize] at haligned ⊢
  omega

/-- The flags of a page that is mapped for user programs. -/
theorem allows_entry {phys : ℕ} :
    Allows ((phys &&& pageAlignMask) ||| 7 ||| vmmPresent) := by
  have hbit : ∀ {flag : ℕ}, (7 ||| vmmPresent) &&& flag ≠ 0 →
      ((phys &&& pageAlignMask) ||| 7 ||| vmmPresent) &&& flag ≠ 0 := by
    intro flag hflag
    rw [Nat.or_assoc, Nat.and_or_distrib_right, Ne, Nat.or_eq_zero_iff]
    exact fun h => hflag h.2
  exact ⟨hbit (by decide), hbit (by decide), hbit (by decide)⟩

/-- A fresh frame is mapped and filled. The page has the contents of the frame, and all other
pages have the contents they had. -/
theorem Spaces.mapFilled {roots : Set ℕ} {r f : ℕ} {v₁ v₂ v₃ : Vm} (h : Spaces roots v)
    (hr : r ∈ roots) (hvirt : virt < 2 ^ 47) (halloc : v.allocFrame = (some f, v₁))
    (hmap : v₁.vmmMapPage r virt f 7 = some v₂) (hkept : ∀ g, g ≠ f → v₃.mem g = v₂.mem g)
    (hpmm : v₃.pmm = v₂.pmm) (hlent : v₃.lent = v₂.lent) :
    Spaces roots v₃ ∧
      (∀ s ∈ roots, ∀ x < 2 ^ 47, (s = r → ¬ SamePage x virt) →
        frameOf v₃.mem s x = frameOf v.mem s x ∧ readByte v₃.mem s x = readByte v.mem s x) ∧
      (∀ x < 2 ^ 47, SamePage x virt →
        readByte v₃.mem r x = some (frameByte v₃.mem f (x % pageSize))) ∧
      ∀ g, PlainFrame roots v g → PlainFrame roots v₃ g ∧ v₃.mem g = v.mem g := by
  obtain ⟨h₁, hmem₁, hlends, hplain, hpages⟩ := h.alloc halloc
  have hfree : v.pmm.Free f := hlends.free f (List.mem_singleton.mpr rfl)
  have hframe : entryFrame f = f := by
    refine h₁.sound.isFrame ?_
    rw [hlends.lent_eq]
    exact Or.inr (List.mem_singleton.mpr rfl)
  obtain ⟨h₂, htouches, new, hlends'⟩ := h₁.vmmMapPage hr (inUserHalf_of_lt hvirt)
    (hframe.symm ▸ hplain) (by decide) hmap
  obtain ⟨hentry, -⟩ := @entry_page 7 f (by decide)
  rw [hframe] at hentry
  have hnot : ∀ s ∈ roots, ¬ IsTable v₂.mem s f := fun s hs hf =>
    (htouches.tables s hs f hf).elim (hplain.plain s hs) fun hfree' => hplain.used hfree'.2
  obtain ⟨h₃, hsame, htables⟩ := h₂.write hnot hkept hpmm hlent
  have hused : ∀ g, ¬ v.pmm.Free g → ¬ v₁.pmm.Free g := fun g hg hg' =>
    hg (hlends.free_iff.mp hg').1
  -- what is neither a table of the address space nor the new frame stays
  have hmem : ∀ g, ¬ v.pmm.Free g → ¬ IsTable v.mem r g → v₃.mem g = v.mem g := by
    intro g hg hg'
    rw [hkept g fun e => hg (e ▸ hfree), htouches.mem_eq g (hused g hg) (by rwa [hmem₁]), hmem₁]
  refine ⟨h₃, fun s hs x hx hne => ?_, fun x hx hpage => ?_, fun g hg => ⟨⟨?_, ?_⟩, ?_⟩⟩
  · have hentries : pageEntry v₃.mem s x = pageEntry v.mem s x := by
      rw [hsame s hs, htouches.other s hs x hne, hmem₁]
    have huser := inUserHalf_of_lt hx
    rw [(h₃.space s hs).frameOf_eq huser, (h.space s hs).frameOf_eq huser,
      (h₃.space s hs).readByte_eq huser, (h.space s hs).readByte_eq huser, hentries]
    refine ⟨rfl, ?_⟩
    cases he : pageEntry v.mem s x with
    | none => rfl
    | some e =>
      rw [Option.map_some, Option.map_some, frameByte, frameByte,
        hmem _ (h.page_used s hs _ _ e rfl he) (h.page_plain s hs r hr _ _ e rfl he)]
  · rw [(h₃.space r hr).readByte_eq (inUserHalf_of_lt hx), hsame r hr, pageEntry_congr hpage,
      htouches.entry_eq, Option.map_some, hentry]
  · rw [hpmm]
    exact fun hg' => hused g hg.used (hlends'.free_iff.mp hg').1
  · intro s hs hg'
    rcases htouches.tables s hs g ((htables s hs g).mp hg') with hold | ⟨-, hfree'⟩
    · exact hg.plain s hs (by rwa [hmem₁] at hold)
    · exact hused g hg.used hfree'
  · exact hmem g hg.used (hg.plain r hr)

/-- Mapping any page leaves the other address spaces and the frames that hold no table. -/
theorem Spaces.vmmMapPage_other {roots : Set ℕ} {r phys flags : ℕ} (h : Spaces roots v)
    (hr : r ∈ roots) (hvirt : InUserHalf virt) (hrun : v.vmmMapPage r virt phys flags = some v') :
    (∀ s ∈ roots, s ≠ r → ∀ x, InUserHalf x → frameOf v'.mem s x = frameOf v.mem s x) ∧
      ∀ g, PlainFrame roots v g → v'.mem g = v.mem g := by
  rw [Vm.vmmMapPage_eq] at hrun
  obtain ⟨⟨t, v₁⟩, hrun₁, rfl⟩ := Option.map_eq_some_iff.mp hrun
  obtain ⟨new, hgrows, h₁, ht, hleaf, htables, -⟩ := h.pageTableFor hr hvirt hrun₁
  have htable : IsTable v₁.mem r t := ⟨tablePath virt, Nat.le_refl 3, ht⟩
  obtain ⟨w, hw⟩ : ∃ w, w = (phys &&& pageAlignMask) ||| flags ||| vmmPresent := ⟨_, rfl⟩
  rw [← hw]
  have hsound : (v₁.setWord t (ptIndex virt) w).Sound :=
    ⟨h₁.sound.consistent, h₁.sound.totalPages_le, h₁.sound.lent_used⟩
  constructor
  · intro s hs hsr x hx
    have hmem : ∀ p f i, p.length < 3 → reach v₁.mem s p = some f →
        (v₁.setWord t (ptIndex virt) w).mem f i = v₁.mem f i := by
      intro p f i hp hf
      rw [Vm.mem_setWord, if_neg]
      rintro ⟨rfl, -⟩
      exact hsr (h₁.apart s hs r hr _ ⟨p, hp.le, hf⟩ htable)
    obtain ⟨hspace, hreach⟩ := (h₁.space s hs).congr hsound
      (fun p f hp hf => (h₁.space s hs).not_free hp hf) hmem
    rw [hspace.frameOf_eq hx, (h.space s hs).frameOf_eq hx]
    congr 1
    have hsame := hleaf s hs (tablePath x) (ptIndex x) rfl
    rw [pageEntry, pageEntry, ← hsame, leafEntry, leafEntry, hreach (tablePath x) (Nat.le_refl 3)]
    cases hf : reach v₁.mem s (tablePath x) with
    | none => rfl
    | some f =>
      rw [Option.bind_some, Option.bind_some, Vm.mem_setWord, if_neg]
      rintro ⟨rfl, -⟩
      exact hsr (h₁.apart s hs r hr _ ⟨tablePath x, Nat.le_refl 3, hf⟩ htable)
  · intro g hg
    have hne : g ≠ t := by
      rintro rfl
      rcases htables r hr g htable with hold | ⟨-, hfree⟩
      · exact hg.plain r hr hold
      · exact hg.used hfree
    rw [← hgrows.outside g hg.used fun q hq hreach => hg.plain r hr ⟨q, hq.le, hreach⟩]
    exact Function.update_of_ne hne _ _

end Access

end OpenIDP.Memory
