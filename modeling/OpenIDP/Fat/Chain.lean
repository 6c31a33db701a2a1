import OpenIDP.Fat.Entry
import OpenIDP.Math.AllocTable
import Mathlib.Order.Interval.Finset.Nat

/-!
# Chains of clusters

`create_chain` and `remove_chain` of `src/drivers/fatfs/ff.c` take clusters for files and give them
back. The entry of a cluster has the next cluster of the file; the entry of the last one is not the
number of a cluster. The loops of both functions end; `fuel` bounds how often they are repeated.

## Main definitions

* `startCluster`, `findCluster`, `linkCluster` — the parts of `create_chain`
* `createChain`, `removeChain` — the functions of `ff.c`
* `FatFs.link` — the FAT as a table of links

## Main results

* `searchFree_spec` — a free cluster is found when there is one
* `createChain_spec`, `removeChain_spec` — what is changed in the table
-/

namespace OpenIDP.Fat

open OpenIDP.Math

section Code

variable {σ : Type} (io : DiskIo σ)

/-- The first part of `create_chain`: the cluster to start from, or what is returned at once. -/
def startCluster (clst : ℕ) (fs : FatFs σ) : Except ℕ ℕ × FatFs σ :=
  if clst = 0 then
    (.ok (if fs.lastClst = 0 ∨ fs.nFatent ≤ fs.lastClst then 1 else fs.lastClst), fs)
  else
    let (cs, fs₁) := getFat io clst fs
    if cs < 2 then (.error 1, fs₁)
    else if cs = 0xFFFFFFFF then (.error cs, fs₁)
    else if cs < fs₁.nFatent then (.error cs, fs₁)
    else (.ok clst, fs₁)

/-- The loop of `create_chain` that looks for a free cluster from `scl` on. -/
def searchFree (scl : ℕ) : ℕ → ℕ → FatFs σ → Option (Except ℕ ℕ × FatFs σ)
  | 0, _, _ => none
  | fuel + 1, ncl, fs =>
    if fs.nFatent ≤ ncl + 1 ∧ scl < 2 then some (.error 0, fs)
    else
      let ncl₁ := if fs.nFatent ≤ ncl + 1 then 2 else ncl + 1
      let (cs, fs₁) := getFat io ncl₁ fs
      if cs = 0 then some (.ok ncl₁, fs₁)
      else if cs = 1 ∨ cs = 0xFFFFFFFF then some (.error cs, fs₁)
      else if ncl₁ = scl then some (.error 0, fs₁)
      else searchFree scl fuel ncl₁ fs₁

/-- The second part of `create_chain`: the cluster to take. -/
def findCluster (fuel clst scl : ℕ) (fs : FatFs σ) : Option (Except ℕ ℕ × FatFs σ) :=
  if scl = clst then
    let ncl := if fs.nFatent ≤ scl + 1 then 2 else scl + 1
    let (cs, fs₁) := getFat io ncl fs
    if cs = 1 ∨ cs = 0xFFFFFFFF then some (.error cs, fs₁)
    else if cs ≠ 0 then
      let scl₁ := if 2 ≤ fs₁.lastClst ∧ fs₁.lastClst < fs₁.nFatent then fs₁.lastClst else scl
      searchFree io scl₁ fuel scl₁ fs₁
    else some (.ok ncl, fs₁)
  else searchFree io scl fuel scl fs

/-- The last part of `create_chain`: the cluster is linked. -/
def linkCluster (clst ncl : ℕ) (fs : FatFs σ) : ℕ × FatFs σ :=
  let (res, fs₁) := putFat io ncl 0xFFFFFFFF#32 fs
  let (res, fs₁) :=
    if res = .ok ∧ clst ≠ 0 then putFat io clst (BitVec.ofNat 32 ncl) fs₁ else (res, fs₁)
  if res = .ok then
    let fs₂ := { fs₁ with lastClst := ncl }
    if 0 < fs₂.freeClst ∧ fs₂.freeClst ≤ fs₂.nFatent - 2 then
      (ncl, { fs₂ with freeClst := fs₂.freeClst - 1, fsiFlag := fs₂.fsiFlag ||| 1#8 })
    else (ncl, fs₂)
  else (if res = .diskErr then 0xFFFFFFFF else 1, fs₁)

/-- `create_chain` -/
def createChain (fuel clst : ℕ) (fs : FatFs σ) : Option (ℕ × FatFs σ) :=
  match startCluster io clst fs with
  | (.error cs, fs₁) => some (cs, fs₁)
  | (.ok scl, fs₁) =>
    if fs₁.freeClst = 0 then some (0, fs₁)
    else
      match findCluster io fuel clst scl fs₁ with
      | none => none
      | some (.error cs, fs₂) => some (cs, fs₂)
      | some (.ok ncl, fs₂) => some (linkCluster io clst ncl fs₂)

/-- The loop of `remove_chain`. -/
def removeLoop : ℕ → ℕ → FatFs σ → Option (FResult × FatFs σ)
  | 0, _, _ => none
  | fuel + 1, clst, fs =>
    let (nxt, fs₁) := getFat io clst fs
    if nxt = 0 then some (.ok, fs₁)
    else if nxt = 1 then some (.intErr, fs₁)
    else if nxt = 0xFFFFFFFF then some (.diskErr, fs₁)
    else
      let (res, fs₂) := putFat io clst 0#32 fs₁
      if res ≠ .ok then some (res, fs₂)
      else
        let fs₃ :=
          if fs₂.freeClst < fs₂.nFatent - 2 then
            { fs₂ with freeClst := fs₂.freeClst + 1, fsiFlag := fs₂.fsiFlag ||| 1#8 }
          else fs₂
        if nxt < fs₃.nFatent then removeLoop fuel nxt fs₃ else some (.ok, fs₃)

/-- `remove_chain` -/
def removeChain (fuel clst pclst : ℕ) (fs : FatFs σ) : Option (FResult × FatFs σ) :=
  if clst < 2 ∨ fs.nFatent ≤ clst then some (.intErr, fs)
  else if pclst ≠ 0 then
    let (res, fs₁) := putFat io pclst 0xFFFFFFFF#32 fs
    if res ≠ .ok then some (res, fs₁) else removeLoop io fuel clst fs₁
  else removeLoop io fuel clst fs

end Code

/-- What the value of an entry stands for. -/
def linkOf (nFatent val : ℕ) : Link ℕ :=
  if val = 0 then .free else if val < nFatent then .next val else .last

namespace FatFs

variable {σ : Type} (content : σ → ℕ → Sector) (fs : FatFs σ)

/-- The FAT as a table of links. -/
def link (c : ℕ) : Link ℕ := linkOf fs.nFatent (fs.entry content c)

/-- The clusters of a volume. -/
def clusters : Finset ℕ := Finset.Ico 2 fs.nFatent

end FatFs

/-- A disk that does not fail, and a volume on it. -/
structure Ready {σ : Type} (io : DiskIo σ) (content : σ → ℕ → Sector) (size : ℕ) (fs : FatFs σ) :
    Prop where
  lawful : io.Lawful content size
  reliable : io.Reliable size
  sound : fs.Sound
  coherent : fs.Coherent content size

/-- From a state to one where a FAT has some entries. Nothing else that is seen changes, and the
second FAT stays a copy. -/
structure Edits {σ : Type} (content : σ → ℕ → Sector) (size : ℕ) (fs fs' : FatFs σ)
    (entry : ℕ → ℕ) : Prop where
  volume : fs'.toVolume = fs.toVolume
  coherent : fs'.Coherent content size
  outside : ∀ s < size, ¬fs.Second s → ¬(fs.fatbase ≤ s ∧ s < fs.fatbase + fs.fsize) →
    fs'.view content s = fs.view content s
  entry_eq : ∀ c, c < fs.nFatent → fs'.entry content c = entry c
  mirrored : fs.Mirrored content → fs'.Mirrored content

section Spec

variable {σ : Type} {io : DiskIo σ} {content : σ → ℕ → Sector} {size : ℕ}
  {fs fs₁ fs₂ : FatFs σ} {entry entry₁ entry₂ : ℕ → ℕ} {c : ℕ}

namespace Edits

theorem refl (h : fs.Coherent content size) : Edits content size fs fs (fs.entry content) :=
  ⟨rfl, h, fun _ _ _ _ => rfl, fun _ _ => rfl, id⟩

theorem second_iff (h : Edits content size fs fs₁ entry) (s : ℕ) : fs₁.Second s ↔ fs.Second s := by
  rw [FatFs.Second, FatFs.Second, h.volume]

theorem ready (h : Edits content size fs fs₁ entry) (hr : Ready io content size fs) :
    Ready io content size fs₁ :=
  ⟨hr.lawful, hr.reliable, h.volume ▸ hr.sound, h.coherent⟩

theorem trans (h : Edits content size fs fs₁ entry₁) (h' : Edits content size fs₁ fs₂ entry₂) :
    Edits content size fs fs₂ entry₂ := by
  have hbase : fs₁.fatbase = fs.fatbase := congrArg Volume.fatbase h.volume
  have hsz : fs₁.fsize = fs.fsize := congrArg Volume.fsize h.volume
  refine ⟨h'.volume.trans h.volume, h'.coherent, fun s hs hnot hout => ?_, fun c hc => ?_, ?_⟩
  · rw [h'.outside s hs (fun hs' => hnot ((h.second_iff s).mp hs')) (by rwa [hbase, hsz])]
    exact h.outside s hs hnot hout
  · exact h'.entry_eq c (by rwa [h.volume])
  · exact h'.mirrored ∘ h.mirrored

theorem congr (h : Edits content size fs fs₁ entry₁)
    (heq : ∀ c, c < fs.nFatent → entry₁ c = entry₂ c) : Edits content size fs fs₁ entry₂ :=
  ⟨h.volume, h.coherent, h.outside, fun c hc => (h.entry_eq c hc).trans (heq c hc), h.mirrored⟩

/-- The counters of the file system object may change too. -/
theorem count (h : Edits content size fs fs₁ entry) (lastClst freeClst : ℕ) (flag : BitVec 8) :
    Edits content size fs
      { fs₁ with lastClst := lastClst, freeClst := freeClst, fsiFlag := flag } entry :=
  ⟨h.volume, ⟨h.coherent.fats, h.coherent.clean, h.coherent.dirty⟩, h.outside, h.entry_eq,
    h.mirrored⟩

end Edits

/-- Entries are small. -/
theorem entry_lt (content : σ → ℕ → Sector) (fs : FatFs σ) (c : ℕ) :
    fs.entry content c < 2 ^ 28 := by
  unfold FatFs.entry entryOf
  cases fs.fsType with
  | unmounted => exact Nat.one_lt_two_pow (by decide)
  | fat12 =>
    dsimp only
    split_ifs <;> exact (BitVec.isLt _).trans_le (Nat.pow_le_pow_right (by decide) (by decide))
  | fat16 => exact (BitVec.isLt _).trans_le (Nat.pow_le_pow_right (by decide) (by decide))
  | fat32 =>
    dsimp only
    rw [toNat_setWidth_and_mask]
    exact Nat.mod_lt _ (by decide)

/-- `get_fat` on a disk that does not fail. -/
theorem Ready.getFat (hr : Ready io content size fs) (hc : 2 ≤ c) (hc' : c < fs.nFatent) :
    (getFat io c fs).1 = fs.entry content c ∧
      Edits content size fs (getFat io c fs).2 (fs.entry content) ∧
      FatFs.Frame fs (getFat io c fs).2 := by
  obtain ⟨hw, -, hval⟩ := getFat_spec hr.lawful hr.sound hr.coherent hc hc'
  refine ⟨hval hr.reliable, ⟨hw.frame.volume, hw.coherent, hw.outside, fun c' hc' => ?_, ?_⟩,
    hw.frame⟩
  · rw [hw.entry_eq hr.sound hc']
    rfl
  · exact hw.mirrored hr.reliable

/-- `put_fat` on a disk that does not fail. -/
theorem Ready.putFat (hr : Ready io content size fs) (hc : 2 ≤ c) (hc' : c < fs.nFatent)
    (val : BitVec 32) :
    (putFat io c val fs).1 = .ok ∧
      Edits content size fs (putFat io c val fs).2
        (Function.update (fs.entry content) c (fs.fsType.mask val)) ∧
      FatFs.Frame fs (putFat io c val fs).2 := by
  obtain ⟨byte', hw, hother, hself, hok⟩ := putFat_spec hr.lawful hr.sound hr.coherent hc hc' val
  refine ⟨hok hr.reliable, ⟨hw.frame.volume, hw.coherent, hw.outside, fun c' hlt => ?_, ?_⟩,
    hw.frame⟩
  · by_cases hne : c' = c
    · rw [hne, Function.update_self]
      exact hself (hok hr.reliable)
    · rw [Function.update_of_ne hne]
      exact hother c' hne hlt
  · exact hw.mirrored hr.reliable

/-- The clusters that the loop still looks at after `ncl`, when it looks from `scl` on. -/
def Remaining (n scl ncl c : ℕ) : Prop :=
  2 ≤ c ∧ c < n ∧ if scl ≤ ncl then ncl < c ∨ c ≤ scl else ncl < c ∧ c ≤ scl

/-- How many clusters those are at most. -/
def remaining (n scl ncl : ℕ) : ℕ := if scl ≤ ncl then n - ncl + scl else scl - ncl

/-- The loop finds a free cluster when there is one among those that it still looks at. -/
theorem searchFree_spec {scl ncl : ℕ} (fuel : ℕ) (hr : Ready io content size fs)
    (hone : ∀ c, 2 ≤ c → c < fs.nFatent → fs.entry content c ≠ 1) (hscl : 1 ≤ scl)
    (hscl' : scl < fs.nFatent) (hncl : 1 ≤ ncl) (hncl' : ncl < fs.nFatent)
    (hfuel : remaining fs.nFatent scl ncl < fuel) :
    ∃ r fs', searchFree io scl fuel ncl fs = some (r, fs') ∧
      Edits content size fs fs' (fs.entry content) ∧ FatFs.Frame fs fs' ∧
      ((∃ c, r = .ok c ∧ 2 ≤ c ∧ c < fs.nFatent ∧ fs.entry content c = 0) ∨
        (r = .error 0 ∧ ∀ c, Remaining fs.nFatent scl ncl c → fs.entry content c ≠ 0)) := by
  induction fuel generalizing fs ncl with
  | zero => exact absurd hfuel (Nat.not_lt_zero _)
  | succ fuel ih =>
    rw [searchFree]
    by_cases hend : fs.nFatent ≤ ncl + 1 ∧ scl < 2
    · rw [if_pos hend]
      refine ⟨_, _, rfl, .refl hr.coherent, .refl fs, Or.inr ⟨rfl, fun c hc => ?_⟩⟩
      obtain ⟨hc, hc', hrem⟩ := hc
      rw [if_pos (by omega)] at hrem
      omega
    · have htwo := hr.sound.two_lt
      rw [if_neg hend]
      generalize hnext : (if fs.nFatent ≤ ncl + 1 then 2 else ncl + 1) = k
      have hk : 2 ≤ k ∧ k < fs.nFatent := by split_ifs at hnext <;> omega
      obtain ⟨hval, hed, hframe⟩ := hr.getFat hk.1 hk.2
      dsimp only
      generalize getFat io k fs = r at hval hed hframe
      obtain ⟨cs, fs₁⟩ := r
      dsimp only at hval hed hframe ⊢
      subst hval
      by_cases hzero : fs.entry content k = 0
      · rw [if_pos hzero]
        exact ⟨_, _, rfl, hed, hframe, Or.inl ⟨k, rfl, hk.1, hk.2, hzero⟩⟩
      have herr : ¬(fs.entry content k = 1 ∨ fs.entry content k = 0xFFFFFFFF) := by
        have hlt := entry_lt content fs k
        rintro (h | h)
        · exact hone k hk.1 hk.2 h
        · omega
      rw [if_neg hzero, if_neg herr]
      -- what is left after one more cluster
      have hleft : ∀ c, Remaining fs.nFatent scl ncl c → c = k ∨
          k ≠ scl ∧ Remaining fs.nFatent scl k c := by
        rintro c ⟨hc, hc', hrem⟩
        unfold Remaining
        split_ifs at hnext hrem ⊢ <;> omega
      by_cases hlast : k = scl
      · rw [if_pos hlast]
        refine ⟨_, _, rfl, hed, hframe, Or.inr ⟨rfl, fun c hc => ?_⟩⟩
        rcases hleft c hc with rfl | ⟨hne, -⟩
        · exact hzero
        · exact absurd hlast hne
      · rw [if_neg hlast]
        have hn : fs₁.nFatent = fs.nFatent := congrArg Volume.nFatent hed.volume
        have hent : ∀ c < fs.nFatent, fs₁.entry content c = fs.entry content c := hed.entry_eq
        have hfuel' : remaining fs₁.nFatent scl k < fuel := by
          rw [hn]
          unfold remaining at hfuel ⊢
          split_ifs at hnext hfuel ⊢ <;> omega
        obtain ⟨r, fs', hrun, hed', hframe', hres⟩ := ih (hed.ready hr)
          (fun c hc hc' => by rw [hent c (hn ▸ hc')]; exact hone c hc (hn ▸ hc'))
          (hn ▸ hscl') (by omega) (hn ▸ hk.2) hfuel'
        refine ⟨r, fs', hrun, (hed.trans hed').congr hent, hframe.trans hframe', ?_⟩
        rw [hn] at hres
        rcases hres with ⟨c, rfl, hc, hc', hfree⟩ | ⟨rfl, hfull⟩
        · exact Or.inl ⟨c, rfl, hc, hc', (hent c hc').symm.trans hfree⟩
        · refine Or.inr ⟨rfl, fun c hc => ?_⟩
          rcases hleft c hc with rfl | ⟨-, hrem⟩
          · exact hzero
          · rw [← hent c hrem.2.1]
            exact hfull c hrem

/-- A cluster that was free is found, if there is one. -/
theorem findCluster_spec {scl : ℕ} (fuel clst : ℕ) (hr : Ready io content size fs)
    (hone : ∀ c, 2 ≤ c → c < fs.nFatent → fs.entry content c ≠ 1) (hscl : 1 ≤ scl)
    (hscl' : scl < fs.nFatent) (hfuel : fs.nFatent < fuel) :
    ∃ r fs', findCluster io fuel clst scl fs = some (r, fs') ∧
      Edits content size fs fs' (fs.entry content) ∧ FatFs.Frame fs fs' ∧
      ((∃ c, r = .ok c ∧ 2 ≤ c ∧ c < fs.nFatent ∧ fs.entry content c = 0) ∨
        (r = .error 0 ∧ ∀ c, 2 ≤ c → c < fs.nFatent → fs.entry content c ≠ 0)) := by
  have hsearch : ∀ fs₁ : FatFs σ, Edits content size fs fs₁ (fs.entry content) →
      FatFs.Frame fs fs₁ → ∀ k, 1 ≤ k → k < fs.nFatent →
      ∃ r fs', searchFree io k fuel k fs₁ = some (r, fs') ∧
        Edits content size fs fs' (fs.entry content) ∧ FatFs.Frame fs fs' ∧
        ((∃ c, r = .ok c ∧ 2 ≤ c ∧ c < fs.nFatent ∧ fs.entry content c = 0) ∨
          (r = .error 0 ∧ ∀ c, 2 ≤ c → c < fs.nFatent → fs.entry content c ≠ 0)) := by
    intro fs₁ hed hframe k hk hk'
    have hn : fs₁.nFatent = fs.nFatent := congrArg Volume.nFatent hed.volume
    have hent : ∀ c < fs.nFatent, fs₁.entry content c = fs.entry content c := hed.entry_eq
    obtain ⟨r, fs', hrun, hed', hframe', hres⟩ := searchFree_spec fuel (hed.ready hr)
      (fun c hc hc' => by rw [hent c (hn ▸ hc')]; exact hone c hc (hn ▸ hc')) hk (hn ▸ hk') hk
      (hn ▸ hk') (by rw [remaining, if_pos le_rfl, hn]; omega)
    refine ⟨r, fs', hrun, (hed.trans hed').congr hent, hframe.trans hframe', ?_⟩
    rw [hn] at hres
    rcases hres with ⟨c, rfl, hc, hc', hfree⟩ | ⟨rfl, hfull⟩
    · exact Or.inl ⟨c, rfl, hc, hc', (hent c hc').symm.trans hfree⟩
    · refine Or.inr ⟨rfl, fun c hc hc' => ?_⟩
      rw [← hent c hc']
      apply hfull c
      refine ⟨hc, hc', ?_⟩
      rw [if_pos le_rfl]
      omega
  rw [findCluster]
  by_cases hstretch : scl = clst
  · rw [if_pos hstretch]
    -- the next cluster is looked at first
    have htwo := hr.sound.two_lt
    generalize hnext : (if fs.nFatent ≤ scl + 1 then 2 else scl + 1) = k
    have hk : 2 ≤ k ∧ k < fs.nFatent := by split_ifs at hnext <;> omega
    obtain ⟨hval, hed, hframe⟩ := hr.getFat hk.1 hk.2
    dsimp only
    generalize getFat io k fs = r at hval hed hframe
    obtain ⟨cs, fs₁⟩ := r
    dsimp only at hval hed hframe ⊢
    subst hval
    have herr : ¬(fs.entry content k = 1 ∨ fs.entry content k = 0xFFFFFFFF) := by
      have hlt := entry_lt content fs k
      rintro (h | h)
      · exact hone k hk.1 hk.2 h
      · omega
    rw [if_neg herr]
    by_cases hzero : fs.entry content k = 0
    · rw [if_neg (not_not.mpr hzero)]
      exact ⟨_, _, rfl, hed, hframe, Or.inl ⟨k, rfl, hk.1, hk.2, hzero⟩⟩
    · have hn : fs₁.nFatent = fs.nFatent := congrArg Volume.nFatent hed.volume
      rw [if_pos hzero]
      apply hsearch fs₁ hed hframe
      · split_ifs <;> omega
      · split_ifs with hlast
        · exact hlast.2.trans_eq hn
        · exact hscl'
  · rw [if_neg hstretch]
    exact hsearch fs (.refl hr.coherent) (.refl fs) scl hscl hscl'

/-- The value that stands for the last cluster of a file is not the number of a cluster. -/
theorem le_mask_last {v : Volume} (h : v.Sound) : v.nFatent ≤ v.fsType.mask 0xFFFFFFFF#32 := by
  have hmax := h.nFatent_le
  cases hty : v.fsType <;> rw [hty] at hmax <;> exact hmax.trans (by decide)

/-- The number of a cluster fits in an entry. -/
theorem mask_cluster {v : Volume} (h : v.Sound) (hc : c < v.nFatent) :
    v.fsType.mask (BitVec.ofNat 32 c) = c := by
  have hmax := h.nFatent_le
  cases hty : v.fsType <;> rw [hty] at hmax <;>
    simp only [FsType.maxEntries] at hmax <;> simp only [FsType.mask, BitVec.toNat_ofNat] <;> omega

theorem mask_zero {v : Volume} (h : v.Sound) : v.fsType.mask 0#32 = 0 :=
  mask_cluster h (Nat.zero_lt_of_lt h.two_lt)

/-- The entries after `create_chain` has taken a cluster. -/
def linked (fs : FatFs σ) (entry : ℕ → ℕ) (clst ncl c : ℕ) : ℕ :=
  if clst ≠ 0 ∧ c = clst then ncl else if c = ncl then fs.fsType.mask 0xFFFFFFFF#32 else entry c

/-- The number of free clusters after one is taken. -/
def takeOne (n free : ℕ) : ℕ := if 0 < free ∧ free ≤ n - 2 then free - 1 else free

theorem linkCluster_spec {ncl : ℕ} (clst : ℕ) (hr : Ready io content size fs) (hncl : 2 ≤ ncl)
    (hncl' : ncl < fs.nFatent) (hclst : clst = 0 ∨ 2 ≤ clst ∧ clst < fs.nFatent) :
    (linkCluster io clst ncl fs).1 = ncl ∧
      Edits content size fs (linkCluster io clst ncl fs).2
        (linked fs (fs.entry content) clst ncl) ∧
      (linkCluster io clst ncl fs).2.freeClst = takeOne fs.nFatent fs.freeClst := by
  -- both entries are written
  have hput : ∃ fs₁, (let (res, fs₁) := putFat io ncl 0xFFFFFFFF#32 fs
      if res = .ok ∧ clst ≠ 0 then putFat io clst (BitVec.ofNat 32 ncl) fs₁ else (res, fs₁)) =
        (.ok, fs₁) ∧ Edits content size fs fs₁ (linked fs (fs.entry content) clst ncl) ∧
        FatFs.Frame fs fs₁ := by
    obtain ⟨hok, hed, hframe⟩ := hr.putFat hncl hncl' 0xFFFFFFFF#32
    generalize putFat io ncl 0xFFFFFFFF#32 fs = r at hok hed hframe
    obtain ⟨res, fs₁⟩ := r
    obtain rfl : res = .ok := hok
    dsimp only at hed hframe ⊢
    rcases hclst with rfl | ⟨hge, hlt⟩
    · rw [if_neg fun h => h.2 rfl]
      refine ⟨fs₁, rfl, hed.congr fun c _ => ?_, hframe⟩
      rw [linked, if_neg fun h => h.1 rfl, Function.update_apply]
    · have hne : clst ≠ 0 := by omega
      have hn : fs₁.nFatent = fs.nFatent := congrArg Volume.nFatent hed.volume
      have hty : fs₁.fsType = fs.fsType := congrArg Volume.fsType hed.volume
      obtain ⟨hok', hed', hframe'⟩ := (hed.ready hr).putFat hge (hn ▸ hlt) (BitVec.ofNat 32 ncl)
      rw [if_pos ⟨rfl, hne⟩]
      refine ⟨_, Prod.ext hok' rfl, (hed.trans hed').congr fun c hc => ?_, hframe.trans hframe'⟩
      rw [linked, hty, mask_cluster hr.sound hncl', Function.update_apply, hed.entry_eq c hc,
        Function.update_apply]
      simp only [ne_eq, hne, not_false_eq_true, true_and]
  obtain ⟨fs₁, heq, hed, hframe⟩ := hput
  have hn : fs₁.nFatent = fs.nFatent := congrArg Volume.nFatent hed.volume
  have hrun : linkCluster io clst ncl fs = if 0 < fs₁.freeClst ∧ fs₁.freeClst ≤ fs₁.nFatent - 2 then
      (ncl, { fs₁ with
        lastClst := ncl, freeClst := fs₁.freeClst - 1, fsiFlag := fs₁.fsiFlag ||| 1#8 })
      else (ncl, { fs₁ with lastClst := ncl }) := by
    rw [linkCluster]
    dsimp only at heq ⊢
    rw [heq]
    rfl
  rw [hrun, takeOne, ← hframe.freeClst, ← hn]
  split_ifs with hfree
  · exact ⟨rfl, hed.count _ _ _, rfl⟩
  · exact ⟨rfl, hed.count _ _ _, rfl⟩

/-- What `create_chain` does for a new file, or for the last cluster of a file: a cluster is taken
that was free, or there is none. -/
theorem createChain_spec {fuel clst : ℕ} (hr : Ready io content size fs)
    (hone : ∀ c, 2 ≤ c → c < fs.nFatent → fs.entry content c ≠ 1) (hfuel : fs.nFatent < fuel)
    (hclst : clst = 0 ∨ 2 ≤ clst ∧ clst < fs.nFatent ∧ fs.nFatent ≤ fs.entry content clst) :
    ∃ r fs', createChain io fuel clst fs = some (r, fs') ∧
      ((r = 0 ∧ Edits content size fs fs' (fs.entry content) ∧ fs'.freeClst = fs.freeClst ∧
          (fs.freeClst = 0 ∨ ∀ c, 2 ≤ c → c < fs.nFatent → fs.entry content c ≠ 0)) ∨
        (2 ≤ r ∧ r < fs.nFatent ∧ fs.entry content r = 0 ∧
          Edits content size fs fs' (linked fs (fs.entry content) clst r) ∧
          fs'.freeClst = takeOne fs.nFatent fs.freeClst)) := by
  have htwo := hr.sound.two_lt
  -- where the search starts
  have hstart : ∃ scl fs₁, startCluster io clst fs = (.ok scl, fs₁) ∧ 1 ≤ scl ∧ scl < fs.nFatent ∧
      Edits content size fs fs₁ (fs.entry content) ∧ FatFs.Frame fs fs₁ := by
    rw [startCluster]
    rcases hclst with rfl | ⟨hge, hlt, hlast⟩
    · rw [if_pos rfl]
      refine ⟨_, _, rfl, ?_, ?_, .refl hr.coherent, .refl fs⟩
      · split_ifs <;> omega
      · split_ifs <;> omega
    · obtain ⟨hval, hed, hframe⟩ := hr.getFat hge hlt
      have hn : (getFat io clst fs).2.nFatent = fs.nFatent := congrArg Volume.nFatent hed.volume
      have hsmall := entry_lt content fs clst
      dsimp only
      rw [if_neg (by omega), hval, if_neg (by omega), if_neg (by omega), hn, if_neg (by omega)]
      exact ⟨clst, _, rfl, by omega, hlt, hed, hframe⟩
  obtain ⟨scl, fs₁, heq, hscl, hscl', hed, hframe⟩ := hstart
  have hn : fs₁.nFatent = fs.nFatent := congrArg Volume.nFatent hed.volume
  have hty : fs₁.fsType = fs.fsType := congrArg Volume.fsType hed.volume
  have hent : ∀ c < fs.nFatent, fs₁.entry content c = fs.entry content c := hed.entry_eq
  rw [createChain, heq]
  dsimp only
  by_cases hfull : fs₁.freeClst = 0
  · rw [if_pos hfull]
    exact ⟨0, fs₁, rfl, Or.inl ⟨rfl, hed, hframe.freeClst,
      Or.inl (hframe.freeClst.symm.trans hfull)⟩⟩
  rw [if_neg hfull]
  obtain ⟨r, fs₂, hfind, hed₂, hframe₂, hres⟩ := findCluster_spec fuel clst (hed.ready hr)
    (fun c hc hc' => by rw [hent c (hn ▸ hc')]; exact hone c hc (hn ▸ hc')) hscl (hn ▸ hscl')
    (hn ▸ hfuel)
  have hed' : Edits content size fs fs₂ (fs.entry content) := (hed.trans hed₂).congr hent
  have hframe' := hframe.trans hframe₂
  have hn₂ : fs₂.nFatent = fs.nFatent := congrArg Volume.nFatent hed'.volume
  rw [hfind]
  rw [hn] at hres
  rcases hres with ⟨c, rfl, hc, hc', hfree⟩ | ⟨rfl, hnone⟩
  · obtain ⟨hval, hlink, hcount⟩ := linkCluster_spec clst (hed'.ready hr) hc (hn₂ ▸ hc')
      (hclst.imp_right fun h => ⟨h.1, hn₂ ▸ h.2.1⟩)
    have hty₂ : fs₂.fsType = fs.fsType := congrArg Volume.fsType hed'.volume
    refine ⟨c, (linkCluster io clst c fs₂).2, congrArg some (Prod.ext hval rfl), Or.inr ?_⟩
    refine ⟨hc, hc', (hent c hc').symm.trans hfree, (hed'.trans hlink).congr fun k hk => ?_, ?_⟩
    · rw [linked, linked, hty₂, hed'.entry_eq k hk]
    · rw [hcount, hn₂, hframe'.freeClst]
  · refine ⟨0, fs₂, rfl, Or.inl ⟨rfl, hed', hframe'.freeClst, Or.inr fun c hc hc' => ?_⟩⟩
    rw [← hent c hc']
    exact hnone c hc hc'

/-- For a cluster that is followed by another one `create_chain` returns that. -/
theorem createChain_next {clst : ℕ} (fuel : ℕ) (hr : Ready io content size fs) (hge : 2 ≤ clst)
    (hlt : clst < fs.nFatent) (hnext : 2 ≤ fs.entry content clst)
    (hnext' : fs.entry content clst < fs.nFatent) :
    ∃ fs', createChain io fuel clst fs = some (fs.entry content clst, fs') ∧
      Edits content size fs fs' (fs.entry content) ∧ fs'.freeClst = fs.freeClst := by
  obtain ⟨hval, hed, hframe⟩ := hr.getFat hge hlt
  have hn : (getFat io clst fs).2.nFatent = fs.nFatent := congrArg Volume.nFatent hed.volume
  have hsmall := entry_lt content fs clst
  refine ⟨(getFat io clst fs).2, ?_, hed, hframe.freeClst⟩
  rw [createChain, startCluster, if_neg (by omega)]
  dsimp only
  rw [hval, if_neg (by omega), if_neg (by omega), hn, if_pos hnext']

/-- The number of free clusters after `k` are given back. -/
def giveBack (n free k : ℕ) : ℕ := if free ≤ n - 2 then min (free + k) (n - 2) else free

theorem linkOf_eq_free {n v : ℕ} : linkOf n v = .free ↔ v = 0 := by
  unfold linkOf
  split_ifs <;> simp_all

theorem linkOf_eq_next {n v a : ℕ} : linkOf n v = .next a ↔ v = a ∧ v ≠ 0 ∧ v < n := by
  unfold linkOf
  split_ifs with hzero hlt <;> simp [*]

theorem linkOf_eq_last {n v : ℕ} : linkOf n v = .last ↔ v ≠ 0 ∧ n ≤ v := by
  unfold linkOf
  split_ifs <;> simp_all

/-- One round of the loop of `remove_chain`. -/
theorem removeLoop_succ {clst : ℕ} (fuel : ℕ) (hr : Ready io content size fs) (hge : 2 ≤ clst)
    (hlt : clst < fs.nFatent) (hentry : 2 ≤ fs.entry content clst) :
    ∃ fs₁, removeLoop io (fuel + 1) clst fs =
        (if fs.entry content clst < fs.nFatent then removeLoop io fuel (fs.entry content clst) fs₁
          else some (.ok, fs₁)) ∧
      Edits content size fs fs₁ (Function.update (fs.entry content) clst 0) ∧
      fs₁.freeClst = giveBack fs.nFatent fs.freeClst 1 := by
  obtain ⟨hval, hed, hframe⟩ := hr.getFat hge hlt
  have hn : (getFat io clst fs).2.nFatent = fs.nFatent := congrArg Volume.nFatent hed.volume
  have hsmall := entry_lt content fs clst
  obtain ⟨hok, hed', hframe'⟩ := (hed.ready hr).putFat hge (hn ▸ hlt) 0#32
  rw [removeLoop]
  dsimp only
  rw [hval, if_neg (by omega), if_neg (by omega), if_neg (by omega), if_neg (not_not.mpr hok)]
  have hall : Edits content size fs (putFat io clst 0#32 (getFat io clst fs).2).2
      (Function.update (fs.entry content) clst 0) := by
    apply (hed.trans hed').congr
    intro c hc
    rw [Function.update_apply, Function.update_apply, hed.entry_eq c hc,
      mask_zero (hed.ready hr).sound]
  have hn' : (putFat io clst 0#32 (getFat io clst fs).2).2.nFatent = fs.nFatent :=
    congrArg Volume.nFatent hall.volume
  have hfree := (hframe.trans hframe').freeClst
  generalize (putFat io clst 0#32 (getFat io clst fs).2).2 = fs₂ at hall hn' hfree
  rw [giveBack, ← hfree, ← hn']
  by_cases hroom : fs₂.freeClst < fs₂.nFatent - 2
  · rw [if_pos hroom, if_pos hroom.le]
    exact ⟨_, rfl, hall.count fs₂.lastClst (fs₂.freeClst + 1) (fs₂.fsiFlag ||| 1#8),
      (min_eq_left hroom).symm⟩
  · rw [if_neg hroom]
    refine ⟨fs₂, rfl, hall, ?_⟩
    split_ifs <;> omega

/-- The loop of `remove_chain` frees the clusters of a chain. -/
theorem removeLoop_spec {fuel clst : ℕ} {l : List ℕ} (hr : Ready io content size fs)
    (hnodup : (clst :: l).Nodup) (hmem : ∀ c ∈ clst :: l, 2 ≤ c ∧ c < fs.nFatent)
    (hchain : Chain (fs.link content) (clst :: l)) (hfuel : l.length < fuel) :
    ∃ fs', removeLoop io fuel clst fs = some (.ok, fs') ∧
      Edits content size fs fs' (fun c => if c ∈ clst :: l then 0 else fs.entry content c) ∧
      fs'.freeClst = giveBack fs.nFatent fs.freeClst (l.length + 1) := by
  induction l generalizing fs clst fuel with
  | nil =>
    obtain ⟨hge, hlt⟩ := hmem clst List.mem_cons_self
    obtain ⟨-, hlast⟩ := linkOf_eq_last.mp hchain.2.1
    obtain ⟨fuel, rfl⟩ := Nat.exists_eq_add_of_lt hfuel
    have htwo := hr.sound.two_lt
    obtain ⟨fs₁, hrun, hed, hfree⟩ := removeLoop_succ (0 + fuel) hr hge hlt (by omega)
    rw [if_neg (not_lt.mpr hlast)] at hrun
    refine ⟨fs₁, hrun, hed.congr fun c _ => ?_, hfree⟩
    simp only [Function.update_apply, List.mem_singleton]
  | cons d l ih =>
    obtain ⟨hge, hlt⟩ := hmem clst List.mem_cons_self
    obtain ⟨hd, hd'⟩ := hmem d (List.mem_cons_of_mem _ List.mem_cons_self)
    obtain ⟨hnext, -, -⟩ := linkOf_eq_next.mp hchain.2.1
    obtain ⟨hout, hnodup'⟩ := List.nodup_cons.mp hnodup
    obtain ⟨fuel, rfl⟩ : ∃ k, fuel = k + 1 := ⟨fuel - 1, by omega⟩
    obtain ⟨fs₁, hrun, hed, hfree⟩ := removeLoop_succ fuel hr hge hlt (by omega)
    have hn : fs₁.nFatent = fs.nFatent := congrArg Volume.nFatent hed.volume
    -- the rest of the chain is as it was
    have hsame : ∀ c ∈ d :: l, fs₁.entry content c = fs.entry content c := by
      intro c hc
      rw [hed.entry_eq c (hmem c (List.mem_cons_of_mem _ hc)).2]
      exact Function.update_of_ne (ne_of_mem_of_not_mem hc hout) _ _
    have hchain' : Chain (fs₁.link content) (d :: l) := by
      have hrest : Chain (fs.link content) (d :: l) := ⟨List.cons_ne_nil _ _, hchain.2.2⟩
      apply hrest.congr
      intro c hc
      rw [FatFs.link, FatFs.link, hsame c hc, hn]
    obtain ⟨fs', hrun', hed', hfree'⟩ := ih (hed.ready hr) hnodup'
      (fun c hc => hn ▸ hmem c (List.mem_cons_of_mem _ hc)) hchain' (Nat.lt_of_succ_lt_succ hfuel)
    refine ⟨fs', ?_, (hed.trans hed').congr fun c hc => ?_, ?_⟩
    · rw [hrun, hnext, if_pos hd']
      exact hrun'
    · rw [hed.entry_eq c hc, Function.update_apply]
      simp only [List.mem_cons]
      split_ifs <;> simp_all
    · rw [hfree', hfree, hn, giveBack, giveBack, giveBack, List.length_cons]
      split_ifs <;> omega

/-- What `remove_chain` does for the clusters of a file behind `pclst`, or for all of them. -/
theorem removeChain_spec {fuel clst pclst : ℕ} {l : List ℕ} (hr : Ready io content size fs)
    (hnodup : (clst :: l).Nodup) (hmem : ∀ c ∈ clst :: l, 2 ≤ c ∧ c < fs.nFatent)
    (hchain : Chain (fs.link content) (clst :: l)) (hfuel : l.length < fuel)
    (hpclst : pclst = 0 ∨ 2 ≤ pclst ∧ pclst < fs.nFatent ∧ pclst ∉ clst :: l) :
    ∃ fs', removeChain io fuel clst pclst fs = some (.ok, fs') ∧
      Edits content size fs fs' (fun c => if c ∈ clst :: l then 0
        else if pclst ≠ 0 ∧ c = pclst then fs.fsType.mask 0xFFFFFFFF#32
        else fs.entry content c) ∧
      fs'.freeClst = giveBack fs.nFatent fs.freeClst (l.length + 1) := by
  obtain ⟨hge, hlt⟩ := hmem clst List.mem_cons_self
  rw [removeChain, if_neg (by omega)]
  rcases hpclst with rfl | ⟨hp, hp', hout⟩
  · rw [if_neg (not_not.mpr rfl)]
    obtain ⟨fs', hrun, hed, hfree⟩ := removeLoop_spec hr hnodup hmem hchain hfuel
    refine ⟨fs', hrun, hed.congr fun c _ => ?_, hfree⟩
    simp only [ne_eq, not_true_eq_false, false_and, if_false]
  · have hne : pclst ≠ 0 := by omega
    obtain ⟨hok, hed, hframe⟩ := hr.putFat hp hp' 0xFFFFFFFF#32
    have hn : (putFat io pclst 0xFFFFFFFF#32 fs).2.nFatent = fs.nFatent :=
      congrArg Volume.nFatent hed.volume
    have hsame : ∀ c ∈ clst :: l,
        (putFat io pclst 0xFFFFFFFF#32 fs).2.entry content c = fs.entry content c := by
      intro c hc
      rw [hed.entry_eq c (hmem c hc).2]
      exact Function.update_of_ne (ne_of_mem_of_not_mem hc hout) _ _
    have hchain' : Chain ((putFat io pclst 0xFFFFFFFF#32 fs).2.link content) (clst :: l) := by
      apply hchain.congr
      intro c hc
      rw [FatFs.link, FatFs.link, hsame c hc, hn]
    obtain ⟨fs', hrun, hed', hfree⟩ := removeLoop_spec (hed.ready hr) hnodup
      (fun c hc => hn ▸ hmem c hc) hchain' hfuel
    rw [if_pos hne]
    dsimp only
    rw [if_neg (not_not.mpr hok)]
    refine ⟨fs', hrun, (hed.trans hed').congr fun c hc => ?_, ?_⟩
    · rw [hed.entry_eq c hc, Function.update_apply]
      simp only [ne_eq, hne, not_false_eq_true, true_and]
    · rw [hfree, hn, hframe.freeClst]

end Spec

end OpenIDP.Fat
