import OpenIDP.Fat.Files
import OpenIDP.Fat.Mount

/-!
# Files behind a mount

`sync_fs` of `src/drivers/fatfs/ff.c` writes the window, and the number of free clusters to the
`FSInfo` sector when it has changed. `mount_volume` reads this number.

Whatever was called for the files since a volume was mounted, after `sync_fs` they are on the disk:
mounted again, the volume has the same files, and the number of free clusters is right.

## Main definitions

* `syncFs`, `fsInfo` — `sync_fs` and the sector that it writes
* `toldCount`, `Informed` — the number that a mount finds, and how it is right or will be written

## Main results

* `step_informed` — a call keeps it so
* `syncFs_spec` — what is on the disk then
* `files_survive` — the files of a run are those of the next mount
-/

namespace OpenIDP.Fat

open OpenIDP.Math

section Code

variable {σ : Type} (io : DiskIo σ)

/-- The `FSInfo` sector that `sync_fs` makes. -/
def fsInfo (freeClst lastClst : ℕ) : Sector :=
  stDword
    (stDword
      (stDword
        (stDword (stDword (fun _ => 0) 0 0x41615252#32) 484 0x61417272#32)
        488 (BitVec.ofNat 32 freeClst))
      492 (BitVec.ofNat 32 lastClst))
    508 0xAA550000#32

/-- `sync_fs`: `disk_ioctl` does nothing, and what `disk_write` returns for the `FSInfo` sector is
not looked at. -/
def syncFs (fs : FatFs σ) : FResult × FatFs σ :=
  match syncWindow io fs with
  | (.ok, fs₁) =>
    if fs₁.fsiFlag = 1#8 then
      if fs₁.fsType = .fat32 then
        (.ok, { fs₁ with
          fsiFlag := 0#8
          win := fsInfo fs₁.freeClst fs₁.lastClst
          winsect := wrap32 (fs₁.volbase + 1)
          disk := (io.write fs₁.disk (wrap32 (fs₁.volbase + 1))
            (fsInfo fs₁.freeClst fs₁.lastClst)).2 })
      else (.ok, { fs₁ with fsiFlag := 0#8 })
    else (.ok, fs₁)
  | failed => failed

end Code

/-- The number of free clusters that a mount takes from the `FSInfo` sector. -/
def toldCount (ty : FsType) (boot info : Sector) : ℕ :=
  if (ty = .fat32 ∧ ldWord boot 48 = 1) ∧ ldDword info 0 = 0x41615252#32 ∧
      ldDword info 484 = 0x61417272#32 ∧ ldDword info 508 = 0xAA550000#32 then
    (ldDword info 488).toNat
  else 0xFFFFFFFF

section Sectors

variable {o o' : ℕ} (p : Sector) (v : BitVec 32)

theorem ofNat_ne {a b : ℕ} (ha : a < 512) (hb : b < 512) (hne : a ≠ b) :
    Fin.ofNat 512 a ≠ Fin.ofNat 512 b := by
  intro heq
  have hval : a % 512 = b % 512 := congrArg Fin.val heq
  omega

theorem ldDword_stDword_self (ho : o + 3 < 512) : ldDword (stDword p o v) o = v := by
  have h₃ : stDword p o v (Fin.ofNat 512 (o + 3)) = (v >>> 24).setWidth 8 :=
    Function.update_self _ _ _
  have h₂ : stDword p o v (Fin.ofNat 512 (o + 2)) = (v >>> 16).setWidth 8 := by
    rw [stDword, Function.update_of_ne (ofNat_ne (by omega) ho (by omega)), Function.update_self]
  have h₁ : stDword p o v (Fin.ofNat 512 (o + 1)) = (v >>> 8).setWidth 8 := by
    rw [stDword, Function.update_of_ne (ofNat_ne (by omega) ho (by omega)),
      Function.update_of_ne (ofNat_ne (by omega) (by omega) (by omega)), Function.update_self]
  have h₀ : stDword p o v (Fin.ofNat 512 o) = v.setWidth 8 := by
    rw [stDword, Function.update_of_ne (ofNat_ne (by omega) ho (by omega)),
      Function.update_of_ne (ofNat_ne (by omega) (by omega) (by omega)),
      Function.update_of_ne (ofNat_ne (by omega) (by omega) (by omega)), Function.update_self]
  rw [ldDword, h₃, h₂, h₁, h₀]
  exact append_bytes v

theorem ldDword_stDword_ne (ho : o + 3 < 512) (ho' : o' + 3 < 512)
    (happart : o + 3 < o' ∨ o' + 3 < o) : ldDword (stDword p o' v) o = ldDword p o := by
  have hbyte : ∀ k, k ≤ 3 → stDword p o' v (Fin.ofNat 512 (o + k)) = p (Fin.ofNat 512 (o + k)) := by
    intro k hk
    rw [stDword, Function.update_of_ne (ofNat_ne (by omega) (by omega) (by omega)),
      Function.update_of_ne (ofNat_ne (by omega) (by omega) (by omega)),
      Function.update_of_ne (ofNat_ne (by omega) (by omega) (by omega)),
      Function.update_of_ne (ofNat_ne (by omega) (by omega) (by omega))]
  rw [ldDword, ldDword, hbyte 3 (by decide), hbyte 2 (by decide), hbyte 1 (by decide),
    ← Nat.add_zero o, hbyte 0 (by decide)]

/-- The sector says what it was made of. -/
theorem fsInfo_told (freeClst lastClst : ℕ) :
    ldDword (fsInfo freeClst lastClst) 0 = 0x41615252#32 ∧
      ldDword (fsInfo freeClst lastClst) 484 = 0x61417272#32 ∧
      ldDword (fsInfo freeClst lastClst) 508 = 0xAA550000#32 ∧
      ldDword (fsInfo freeClst lastClst) 488 = BitVec.ofNat 32 freeClst := by
  unfold fsInfo
  refine ⟨?_, ?_, ldDword_stDword_self _ _ (by decide), ?_⟩
  · repeat rw [ldDword_stDword_ne _ _ (by decide) (by decide) (by decide)]
    exact ldDword_stDword_self _ _ (by decide)
  · rw [ldDword_stDword_ne _ _ (by decide) (by decide) (by decide),
      ldDword_stDword_ne _ _ (by decide) (by decide) (by decide),
      ldDword_stDword_ne _ _ (by decide) (by decide) (by decide)]
    exact ldDword_stDword_self _ _ (by decide)
  · rw [ldDword_stDword_ne _ _ (by decide) (by decide) (by decide),
      ldDword_stDword_ne _ _ (by decide) (by decide) (by decide)]
    exact ldDword_stDword_self _ _ (by decide)

end Sectors

/-! ## The number of free clusters -/

section Info

variable {σ : Type} {io : DiskIo σ} {fs fs' fs₁ fs₂ : FatFs σ} {clst c fuel : ℕ}

/-- `n_fatent`, `free_clst` and `fsi_flag` -/
def FatFs.info (fs : FatFs σ) : ℕ × ℕ × BitVec 8 := (fs.nFatent, fs.freeClst, fs.fsiFlag)

theorem info_eq (h : fs'.info = fs.info) :
    fs'.nFatent = fs.nFatent ∧ fs'.freeClst = fs.freeClst ∧ fs'.fsiFlag = fs.fsiFlag :=
  ⟨congrArg Prod.fst h, congrArg (·.2.1) h, congrArg (·.2.2) h⟩

/-- A new number of free clusters is marked to be written. -/
def Marked (fs fs' : FatFs σ) : Prop :=
  fs'.info = fs.info ∨ fs'.nFatent = fs.nFatent ∧ fs'.freeClst ≤ fs.nFatent - 2 ∧
    fs'.fsiFlag = fs.fsiFlag ||| 1#8

theorem Marked.trans (h : Marked fs fs₁) (h' : Marked fs₁ fs₂) : Marked fs fs₂ := by
  rcases h' with hsame' | ⟨hn', hle', hflag'⟩
  · rcases h with hsame | ⟨hn, hle, hflag⟩
    · exact Or.inl (hsame'.trans hsame)
    · obtain ⟨hn', hfree', hflag'⟩ := info_eq hsame'
      exact Or.inr ⟨hn'.trans hn, hfree'.trans_le hle, hflag'.trans hflag⟩
  · rcases h with hsame | ⟨hn, -, hflag⟩
    · obtain ⟨hn, -, hflag⟩ := info_eq hsame
      exact Or.inr ⟨hn'.trans hn, hn ▸ hle', hflag ▸ hflag'⟩
    · refine Or.inr ⟨hn'.trans hn, hn ▸ hle', ?_⟩
      rw [hflag', hflag, BitVec.or_assoc, BitVec.or_self]

theorem syncWindow_info (io : DiskIo σ) (fs : FatFs σ) : (syncWindow io fs).2.info = fs.info := by
  unfold syncWindow
  dsimp only
  split_ifs <;> rfl

theorem moveWindow_info (io : DiskIo σ) (sect : ℕ) (fs : FatFs σ) :
    (moveWindow io sect fs).2.info = fs.info := by
  have hsync := syncWindow_info io fs
  rw [moveWindow]
  split_ifs
  · generalize syncWindow io fs = r at hsync
    obtain ⟨res, fs₁⟩ := r
    cases res
    · dsimp only
      split_ifs <;> exact hsync
    · exact hsync
    · exact hsync
  · rfl

/-- Only the window is moved. -/
theorem getFat_info (io : DiskIo σ) (c : ℕ) (fs : FatFs σ) : (getFat io c fs).2.info = fs.info := by
  rw [getFat]
  by_cases hc : c < 2 ∨ fs.nFatent ≤ c
  · rw [if_pos hc]
  · rw [if_neg hc]
    cases fs.fsType with
    | unmounted => rfl
    | fat16 =>
      have hmove := moveWindow_info io (wrap32 (fs.fatbase + c / 256)) fs
      dsimp only
      generalize moveWindow io (wrap32 (fs.fatbase + c / 256)) fs = r at hmove
      obtain ⟨res, fs₁⟩ := r
      cases res <;> exact hmove
    | fat32 =>
      have hmove := moveWindow_info io (wrap32 (fs.fatbase + c / 128)) fs
      dsimp only
      generalize moveWindow io (wrap32 (fs.fatbase + c / 128)) fs = r at hmove
      obtain ⟨res, fs₁⟩ := r
      cases res <;> exact hmove
    | fat12 =>
      have hmove := moveWindow_info io (wrap32 (fs.fatbase + wrap32 (c + c / 2) / 512)) fs
      dsimp only
      generalize moveWindow io (wrap32 (fs.fatbase + wrap32 (c + c / 2) / 512)) fs = r at hmove
      obtain ⟨res, fs₁⟩ := r
      cases res with
      | diskErr => exact hmove
      | intErr => exact hmove
      | ok =>
        have hmove' := moveWindow_info io
          (wrap32 (fs₁.fatbase + (wrap32 (c + c / 2) + 1) / 512)) fs₁
        dsimp only
        generalize moveWindow io (wrap32 (fs₁.fatbase + (wrap32 (c + c / 2) + 1) / 512)) fs₁ = r
          at hmove'
        obtain ⟨res, fs₂⟩ := r
        cases res <;> exact hmove'.trans hmove

theorem putFat_info (io : DiskIo σ) (c : ℕ) (val : BitVec 32) (fs : FatFs σ) :
    (putFat io c val fs).2.info = fs.info := by
  rw [putFat]
  by_cases hc : 2 ≤ c ∧ c < fs.nFatent
  · rw [if_pos hc]
    cases fs.fsType with
    | unmounted => rfl
    | fat16 =>
      have hmove := moveWindow_info io (wrap32 (fs.fatbase + c / 256)) fs
      dsimp only
      generalize moveWindow io (wrap32 (fs.fatbase + c / 256)) fs = r at hmove
      obtain ⟨res, fs₁⟩ := r
      cases res <;> exact hmove
    | fat32 =>
      have hmove := moveWindow_info io (wrap32 (fs.fatbase + c / 128)) fs
      dsimp only
      generalize moveWindow io (wrap32 (fs.fatbase + c / 128)) fs = r at hmove
      obtain ⟨res, fs₁⟩ := r
      cases res <;> exact hmove
    | fat12 =>
      have hmove := moveWindow_info io (wrap32 (fs.fatbase + wrap32 (c + c / 2) / 512)) fs
      dsimp only
      generalize moveWindow io (wrap32 (fs.fatbase + wrap32 (c + c / 2) / 512)) fs = r at hmove
      obtain ⟨res, fs₁⟩ := r
      cases res with
      | diskErr => exact hmove
      | intErr => exact hmove
      | ok =>
        dsimp only
        generalize hfs : ({ fs₁ with
          win := Function.update fs₁.win (Fin.ofNat 512 (wrap32 (c + c / 2)))
            (firstByte c (fs₁.win (Fin.ofNat 512 (wrap32 (c + c / 2)))) val)
          wflag := true } : FatFs σ) = fs₂
        have hinfo : fs₂.info = fs₁.info := hfs ▸ rfl
        have hmove' := moveWindow_info io
          (wrap32 (fs₁.fatbase + (wrap32 (c + c / 2) + 1) / 512)) fs₂
        generalize moveWindow io (wrap32 (fs₁.fatbase + (wrap32 (c + c / 2) + 1) / 512)) fs₂ = r
          at hmove'
        obtain ⟨res, fs₃⟩ := r
        cases res <;> exact (hmove'.trans hinfo).trans hmove
  · rw [if_neg hc]

theorem startCluster_info (io : DiskIo σ) (clst : ℕ) (fs : FatFs σ) :
    (startCluster io clst fs).2.info = fs.info := by
  have hget := getFat_info io clst fs
  rw [startCluster]
  by_cases hzero : clst = 0
  · rw [if_pos hzero]
  · rw [if_neg hzero]
    dsimp only
    split_ifs <;> exact hget

theorem searchFree_info {scl ncl : ℕ} {r : Except ℕ ℕ × FatFs σ}
    (h : searchFree io scl fuel ncl fs = some r) : r.2.info = fs.info := by
  induction fuel generalizing ncl fs with
  | zero => cases h
  | succ fuel ih =>
    rw [searchFree] at h
    by_cases hnone : fs.nFatent ≤ ncl + 1 ∧ scl < 2
    · rw [if_pos hnone] at h
      obtain rfl := Option.some.inj h
      rfl
    · rw [if_neg hnone] at h
      dsimp only at h
      have hget := getFat_info io (if fs.nFatent ≤ ncl + 1 then 2 else ncl + 1) fs
      generalize getFat io (if fs.nFatent ≤ ncl + 1 then 2 else ncl + 1) fs = g at h hget
      obtain ⟨cs, fs₁⟩ := g
      split_ifs at h
      all_goals first
        | exact (ih h).trans hget
        | (obtain rfl := Option.some.inj h; exact hget)

theorem findCluster_info {clst scl : ℕ} {r : Except ℕ ℕ × FatFs σ}
    (h : findCluster io fuel clst scl fs = some r) : r.2.info = fs.info := by
  rw [findCluster] at h
  by_cases hsame : scl = clst
  · rw [if_pos hsame] at h
    dsimp only at h
    have hget := getFat_info io (if fs.nFatent ≤ scl + 1 then 2 else scl + 1) fs
    generalize getFat io (if fs.nFatent ≤ scl + 1 then 2 else scl + 1) fs = g at h hget
    obtain ⟨cs, fs₁⟩ := g
    dsimp only at h
    by_cases herr : cs = 1 ∨ cs = 0xFFFFFFFF
    · rw [if_pos herr] at h
      obtain rfl := Option.some.inj h
      exact hget
    · rw [if_neg herr] at h
      by_cases hused : cs ≠ 0
      · rw [if_pos hused] at h
        exact (searchFree_info h).trans hget
      · rw [if_neg hused] at h
        obtain rfl := Option.some.inj h
        exact hget
  · rw [if_neg hsame] at h
    exact searchFree_info h

theorem linkCluster_marked (io : DiskIo σ) (clst ncl : ℕ) (fs : FatFs σ) :
    Marked fs (linkCluster io clst ncl fs).2 := by
  have hput := putFat_info io ncl 0xFFFFFFFF#32 fs
  rw [linkCluster]
  generalize putFat io ncl 0xFFFFFFFF#32 fs = r at hput
  obtain ⟨res, fs₁⟩ := r
  dsimp only
  have hboth : (if res = .ok ∧ clst ≠ 0 then putFat io clst (BitVec.ofNat 32 ncl) fs₁
      else (res, fs₁)).2.info = fs.info := by
    split_ifs
    · exact (putFat_info io clst _ fs₁).trans hput
    · exact hput
  generalize (if res = .ok ∧ clst ≠ 0 then putFat io clst (BitVec.ofNat 32 ncl) fs₁
    else (res, fs₁)) = r at hboth
  obtain ⟨res', fs₂⟩ := r
  dsimp only at hboth ⊢
  obtain ⟨hn, -, hflag⟩ := info_eq hboth
  split_ifs with hok hfree
  · exact Or.inr ⟨hn, hn ▸ (Nat.sub_le _ _).trans hfree.2, congrArg (· ||| 1#8) hflag⟩
  all_goals exact Or.inl hboth

/-- `create_chain` marks the number that it changes. -/
theorem createChain_marked {clst r : ℕ} (h : createChain io fuel clst fs = some (r, fs')) :
    Marked fs fs' := by
  have hstart := startCluster_info io clst fs
  rw [createChain] at h
  generalize startCluster io clst fs = s at h hstart
  obtain ⟨cs | scl, fs₁⟩ := s
  · obtain ⟨-, rfl⟩ := Prod.mk.inj (Option.some.inj h)
    exact Or.inl hstart
  · dsimp only at h
    by_cases hfull : fs₁.freeClst = 0
    · rw [if_pos hfull] at h
      obtain ⟨-, rfl⟩ := Prod.mk.inj (Option.some.inj h)
      exact Or.inl hstart
    · rw [if_neg hfull] at h
      cases hfind : findCluster io fuel clst scl fs₁ with
      | none =>
        rw [hfind] at h
        cases h
      | some f =>
        have hinfo := findCluster_info hfind
        rw [hfind] at h
        obtain ⟨cs | ncl, fs₂⟩ := f
        · obtain ⟨-, rfl⟩ := Prod.mk.inj (Option.some.inj h)
          exact Or.inl (hinfo.trans hstart)
        · have hlink := linkCluster_marked io clst ncl fs₂
          rw [Option.some.inj h] at hlink
          exact Marked.trans (Or.inl (hinfo.trans hstart)) hlink

theorem removeLoop_marked {clst : ℕ} {res : FResult}
    (h : removeLoop io fuel clst fs = some (res, fs')) : Marked fs fs' := by
  induction fuel generalizing clst fs with
  | zero => cases h
  | succ fuel ih =>
    have hget := getFat_info io clst fs
    rw [removeLoop] at h
    generalize getFat io clst fs = g at h hget
    obtain ⟨nxt, fs₁⟩ := g
    have hput := putFat_info io clst 0#32 fs₁
    dsimp only at h
    generalize putFat io clst 0#32 fs₁ = r at h hput
    obtain ⟨res', fs₂⟩ := r
    have hinfo : fs₂.info = fs.info := hput.trans hget
    dsimp only at h
    have hfreed : Marked fs (if fs₂.freeClst < fs₂.nFatent - 2 then
        { fs₂ with freeClst := fs₂.freeClst + 1, fsiFlag := fs₂.fsiFlag ||| 1#8 } else fs₂) := by
      obtain ⟨hn, -, hflag⟩ := info_eq hinfo
      split_ifs with hfree
      · exact Or.inr ⟨hn, hn ▸ hfree, congrArg (· ||| 1#8) hflag⟩
      · exact Or.inl hinfo
    generalize (if fs₂.freeClst < fs₂.nFatent - 2 then
      { fs₂ with freeClst := fs₂.freeClst + 1, fsiFlag := fs₂.fsiFlag ||| 1#8 } else fs₂) = fs₃
      at h hfreed
    split_ifs at h
    all_goals first
      | exact hfreed.trans (ih h)
      | (obtain ⟨-, rfl⟩ := Prod.mk.inj (Option.some.inj h)
         first | exact Or.inl hget | exact Or.inl hinfo | exact hfreed)

/-- `remove_chain` marks the number that it changes. -/
theorem removeChain_marked {clst pclst : ℕ} {res : FResult}
    (h : removeChain io fuel clst pclst fs = some (res, fs')) : Marked fs fs' := by
  rw [removeChain] at h
  have hput := putFat_info io pclst 0xFFFFFFFF#32 fs
  generalize putFat io pclst 0xFFFFFFFF#32 fs = r at h hput
  obtain ⟨res', fs₁⟩ := r
  dsimp only at h
  split_ifs at h
  · obtain ⟨-, rfl⟩ := Prod.mk.inj (Option.some.inj h)
    exact Or.inl rfl
  · obtain ⟨-, rfl⟩ := Prod.mk.inj (Option.some.inj h)
    exact Or.inl hput
  · exact Marked.trans (Or.inl hput) (removeLoop_marked h)
  · exact removeLoop_marked h

theorem truncateChain_marked {clst : ℕ} {res : FResult}
    (h : truncateChain io fuel clst fs = some (res, fs')) : Marked fs fs' := by
  have hget := getFat_info io clst fs
  rw [truncateChain] at h
  generalize getFat io clst fs = g at h hget
  obtain ⟨ncl, fs₁⟩ := g
  dsimp only at h
  split_ifs at h
  all_goals first
    | exact Marked.trans (Or.inl hget) (removeChain_marked h)
    | (obtain ⟨-, rfl⟩ := Prod.mk.inj (Option.some.inj h); exact Or.inl hget)

/-- Every call marks the number that it changes. -/
theorem step_marked {files files' : List (List ℕ)} {event : Event}
    (h : Step io (fs, files) event (fs', files')) : Marked fs fs' := by
  cases h with
  | create run => exact createChain_marked run
  | stretch run => exact createChain_marked run
  | truncate run => exact truncateChain_marked run
  | remove run => exact removeChain_marked run

end Info

section Runs

variable {σ : Type} {io : DiskIo σ} {content : σ → ℕ → Sector} {size : ℕ} {fs fs' : FatFs σ}
variable {files files' : List (List ℕ)} {event : Event} {sect : ℕ}

/-- The number that the next mount would take from the sectors that are seen. -/
def FatFs.told (content : σ → ℕ → Sector) (fs : FatFs σ) : ℕ :=
  toldCount fs.fsType (fs.view content fs.volbase) (fs.view content (fs.volbase + 1))

/-- The number of free clusters will be written, or the next mount finds none, or the right one. -/
structure Informed (content : σ → ℕ → Sector) (fs : FatFs σ) : Prop where
  freeClst_lt : fs.freeClst < 2 ^ 32
  told : fs.fsiFlag = 1#8 ∨ fs.told content = 0xFFFFFFFF ∨
    fs.fsiFlag = 0#8 ∧ fs.told content = fs.freeClst

/-- In front of the FATs are the boot sector, and the `FSInfo` sector of a FAT32 volume. -/
structure Volume.Reserves (v : Volume) : Prop where
  boot : v.volbase < v.fatbase
  info : v.fsType = .fat32 → v.volbase + 1 < v.fatbase

theorem toldCount_of_ne {ty : FsType} (h : ty ≠ .fat32) (boot info : Sector) :
    toldCount ty boot info = 0xFFFFFFFF := if_neg fun hc => h hc.1.1

/-- The boot sector and the `FSInfo` sector are not changed by calls for the files. -/
theorem Beside.told_eq (h : Beside content size fs fs') (hsize : fs.fatbase ≤ size)
    (hres : fs.Reserves) : fs'.told content = fs.told content := by
  have hview : ∀ s < fs.fatbase, fs'.view content s = fs.view content s := by
    intro s hs
    apply h.outside s (by omega)
    · intro hsecond
      have hge := hsecond.2.1
      omega
    · omega
  have hvolbase : fs'.volbase = fs.volbase := congrArg Volume.volbase h.volume
  have htype : fs'.fsType = fs.fsType := congrArg Volume.fsType h.volume
  rw [FatFs.told, FatFs.told, hvolbase, htype]
  by_cases h32 : fs.fsType = .fat32
  · rw [hview _ hres.boot, hview _ (hres.info h32)]
  · rw [toldCount_of_ne h32, toldCount_of_ne h32]

/-- A call keeps it so. -/
theorem step_informed (hn : fs.nFatent < 2 ^ 32) (hsize : fs.fatbase ≤ size)
    (hres : fs.Reserves) (h : Informed content fs)
    (hbeside : Beside content size fs fs') (hstep : Step io (fs, files) event (fs', files')) :
    Informed content fs' := by
  have htold := hbeside.told_eq hsize hres
  rcases step_marked hstep with hsame | ⟨-, hle, hflag⟩
  · obtain ⟨-, hfree, hflag⟩ := info_eq hsame
    refine ⟨hfree.trans_lt h.freeClst_lt, ?_⟩
    rw [htold, hflag, hfree]
    exact h.told
  · refine ⟨by omega, ?_⟩
    rw [htold, hflag]
    rcases h.told with hone | hnone | ⟨hzero, -⟩
    · rw [hone]
      exact Or.inl rfl
    · exact Or.inr (Or.inl hnone)
    · rw [hzero]
      exact Or.inl rfl

/-- What `sync_fs` leaves on the disk: what was seen, with a copy of the FAT, and the number of free
clusters if it is marked. -/
theorem syncFs_spec (h : Ready io content size fs) (hm : fs.Mirrored content)
    (hres : fs.Reserves) :
    ∃ fs', syncFs io fs = (.ok, fs') ∧
      (∀ s < size, ¬fs.Second s → (fs.fsType = .fat32 → s ≠ fs.volbase + 1) →
        content fs'.disk s = fs.view content s) ∧
      (fs.fsType = .fat32 → content fs'.disk (fs.volbase + 1) =
        if fs.fsiFlag = 1#8 then fsInfo fs.freeClst fs.lastClst
          else fs.view content (fs.volbase + 1)) ∧
      (fs.nFats = 2 → ∀ k < fs.fsize, content fs'.disk (fs.fatbase + fs.fsize + k) =
        content fs'.disk (fs.fatbase + k)) := by
  have hfats := h.coherent.fats
  have hsize := h.lawful.size_lt
  have hboot := hres.boot
  have hsync := syncWindow_spec h.lawful h.coherent
  have hok := syncWindow_ok h.reliable h.coherent
  have hmirror := syncWindow_mirrored h.lawful h.reliable h.coherent hm
  rw [syncFs]
  generalize syncWindow io fs = r at hsync hok hmirror
  obtain ⟨res, fs₁⟩ := r
  obtain rfl : res = .ok := hok
  dsimp only at hsync hmirror ⊢
  obtain ⟨hframe, hview, -, -, -, hclean⟩ := hsync
  have hvol := hframe.volume
  have hvolbase : fs₁.volbase = fs.volbase := congrArg Volume.volbase hvol
  have htype : fs₁.fsType = fs.fsType := congrArg Volume.fsType hvol
  have hcontent : ∀ s < size, ¬fs.Second s → content fs₁.disk s = fs.view content s := by
    intro s hs hnot
    rw [← hview s hs hnot]
    exact (FatFs.view_of_clean (hclean rfl) s).symm
  have hnot : fs.fsType = .fat32 → ¬fs.Second (fs.volbase + 1) := by
    intro h32 hsecond
    have hge := hsecond.2.1
    have hlt := hres.info h32
    omega
  have hcopy : fs.nFats = 2 → ∀ k < fs.fsize, content fs₁.disk (fs.fatbase + fs.fsize + k) =
      content fs₁.disk (fs.fatbase + k) := by
    rw [FatFs.Mirrored, hvol] at hmirror
    exact fun htwo k hk => hmirror htwo k hk
      fun hd => absurd ((hclean rfl).symm.trans hd) Bool.false_ne_true
  rw [hframe.fsiFlag, htype]
  by_cases hflag : fs.fsiFlag = 1#8
  · rw [if_pos hflag]
    by_cases h32 : fs.fsType = .fat32
    · -- the number goes to the sector behind the boot sector
      have hinfo := hres.info h32
      have hwrap : wrap32 (fs₁.volbase + 1) = fs.volbase + 1 := by
        rw [hvolbase, wrap32]
        omega
      have hplace : fs.volbase + 1 < size := by omega
      have hself := h.lawful.write_self fs₁.disk (fs.volbase + 1)
        (fsInfo fs₁.freeClst fs₁.lastClst) hplace ((h.reliable _ _ hplace).2 _)
      have hne := fun s => h.lawful.write_ne fs₁.disk (fs.volbase + 1)
        (fsInfo fs₁.freeClst fs₁.lastClst) s hplace
      rw [if_pos h32, hwrap]
      refine ⟨_, rfl, fun s hs hs' hs'' => ?_, fun _ => ?_, fun htwo k hk => ?_⟩
      · exact (hne s hs (hs'' h32)).trans (hcontent s hs hs')
      · rw [if_pos hflag, hself, hframe.freeClst, hframe.lastClst]
      · rw [htwo] at hfats
        rw [hne _ (by omega) (by omega), hne _ (by omega) (by omega)]
        exact hcopy htwo k hk
    · rw [if_neg h32]
      exact ⟨_, rfl, fun s hs hs' _ => hcontent s hs hs', fun h32' => absurd h32' h32, hcopy⟩
  · rw [if_neg hflag]
    refine ⟨_, rfl, fun s hs hs' _ => hcontent s hs hs', fun h32 => ?_, hcopy⟩
    have hinfo := hres.info h32
    rw [if_neg hflag]
    exact hcontent _ (by omega) (hnot h32)

/-- What the next mount finds is the number of free clusters, or none. -/
theorem Informed.told_sync (h : Informed content fs) (info : Sector)
    (hinfo : fs.fsType = .fat32 → info =
      if fs.fsiFlag = 1#8 then fsInfo fs.freeClst fs.lastClst
        else fs.view content (fs.volbase + 1)) :
    toldCount fs.fsType (fs.view content fs.volbase) info = 0xFFFFFFFF ∨
      toldCount fs.fsType (fs.view content fs.volbase) info = fs.freeClst := by
  by_cases h32 : fs.fsType = .fat32
  · rw [hinfo h32]
    by_cases hflag : fs.fsiFlag = 1#8
    · obtain ⟨-, -, -, hcount⟩ := fsInfo_told fs.freeClst fs.lastClst
      rw [if_pos hflag, toldCount]
      split_ifs
      · rw [hcount, BitVec.toNat_ofNat, Nat.mod_eq_of_lt h.freeClst_lt]
        exact Or.inr rfl
      · exact Or.inl rfl
    · rw [if_neg hflag]
      exact (h.told.resolve_left hflag).imp_right And.right
  · exact Or.inl (toldCount_of_ne h32 _ _)

/-- The files are those of any object for the volume whose FAT is the same on the disk. -/
theorem Holding.reload (h : Holding io content size fs files)
    (hvol : fs'.toVolume = fs.toVolume) (hload : Loaded content size fs')
    (hfat : ∀ k < fs.fsize, content fs'.disk (fs.fatbase + k) = fs.view content (fs.fatbase + k))
    (hfree : fs'.freeClst ≤ fs.nFatent - 2 → fs'.freeClst = fs.freeClst) :
    Holding io content size fs' files := by
  have hbase : fs'.fatbase = fs.fatbase := congrArg Volume.fatbase hvol
  have hn : fs'.nFatent = fs.nFatent := congrArg Volume.nFatent hvol
  have htype : fs'.fsType = fs.fsType := congrArg Volume.fsType hvol
  have hsound : fs'.Sound := by
    rw [hvol]
    exact h.ready.sound
  have hfats : fs'.fatbase + fs'.nFats * fs'.fsize ≤ size := by
    rw [hvol]
    exact h.ready.coherent.fats
  have hentry : ∀ c < fs.nFatent, fs'.entry content c = fs.entry content c := by
    intro c hc
    rw [FatFs.entry, FatFs.entry, htype]
    refine entryOf_congr h.ready.sound hc fun b hb => ?_
    rw [FatFs.fatByte, FatFs.fatByte, FatFs.view_of_clean hload.wflag, hbase, hfat _ (by omega)]
  have hclusters : fs'.clusters = fs.clusters := by
    rw [FatFs.clusters, hn]
    rfl
  refine ⟨⟨h.ready.lawful, h.ready.reliable, hsound, hfats, fun _ => hload.win, ?_⟩, ?_, ?_⟩
  · exact fun hd => absurd (hload.wflag.symm.trans hd) Bool.false_ne_true
  · rw [hclusters]
    refine h.holds.congr fun c hc => ?_
    rw [FatFs.link, FatFs.link, hn, hentry c (mem_clusters.mp hc).2]
  · rw [hn]
    intro hle
    have hsame := hfree hle
    rw [hsame] at hle ⊢
    exact h.counted hle

end Runs

/-! ## The next mount -/

section Mount

variable {σ : Type} {io : DiskIo σ} {content : σ → ℕ → Sector} {size : ℕ} {fs fs' fs₁ : FatFs σ}
variable {sect : ℕ}

theorem moveWindow_winsect (h : (moveWindow io sect fs).1 = .ok) :
    (moveWindow io sect fs).2.winsect = sect := by
  rw [moveWindow] at h ⊢
  by_cases hsame : sect ≠ fs.winsect
  · rw [if_pos hsame] at h ⊢
    generalize syncWindow io fs = r at h ⊢
    obtain ⟨res, fs₁⟩ := r
    cases res with
    | diskErr => exact absurd h FResult.diskErr_ne_ok
    | intErr => exact absurd h FResult.intErr_ne_ok
    | ok =>
      dsimp only at h ⊢
      split_ifs at h ⊢
      rfl
  · rw [if_neg hsame]
    exact (not_not.mp hsame).symm

/-- On a disk that does not fail a sector of the disk is in the window then. -/
theorem moveWindow_loads (hlaw : io.Lawful content size) (hrel : io.Reliable size)
    (h : Loaded content size fs) (hsect : sect < size) :
    ∃ fs', moveWindow io sect fs = (.ok, fs') ∧ fs'.win = content fs.disk sect ∧
      fs'.winsect = sect ∧ content fs'.disk = content fs.disk := by
  obtain ⟨hload, hcontent, -⟩ := moveWindow_loaded hlaw h sect
  have hok : (moveWindow io sect fs).1 = .ok := by
    rw [moveWindow]
    split_ifs
    · rw [syncWindow, h.wflag]
      dsimp only
      rw [if_neg Bool.false_ne_true]
      dsimp only
      rw [if_pos (hrel fs.disk sect hsect).1]
    · rfl
  have hwinsect := moveWindow_winsect hok
  refine ⟨(moveWindow io sect fs).2, Prod.ext hok rfl, ?_, hwinsect, hcontent⟩
  rw [hload.win (hwinsect.trans_lt hsect), hwinsect, hcontent]

/-- What `check_fs` finds is what is on the disk. -/
theorem checkFs_eq (hlaw : io.Lawful content size) (hrel : io.Reliable size) (fs : FatFs σ)
    (hsect : sect < size) :
    (checkFs io sect fs).1 = vbrStatus (content fs.disk sect) ∧
      (checkFs io sect fs).2.win = content fs.disk sect ∧
      (checkFs io sect fs).2.winsect = sect ∧
      content (checkFs io sect fs).2.disk = content fs.disk := by
  have hinvalid : Loaded content size { fs with wflag := false, winsect := sub32 0 1 } := by
    refine ⟨rfl, fun hs => ?_⟩
    have hsize := hlaw.size_lt
    have hs' : 2 ^ 32 - 1 < size := hs
    omega
  obtain ⟨fs', hmove, hwin, hwinsect, hcontent⟩ := moveWindow_loads hlaw hrel hinvalid hsect
  rw [checkFs, hmove]
  exact ⟨congrArg vbrStatus hwin, hwin, hwinsect, hcontent⟩

/-- Where `find_volume` looks for a volume. -/
def partitionStart (boot : Sector) (i : ℕ) : ℕ := (ldDword boot (446 + i * 16 + 8)).toNat

/-- The sectors at which `find_volume` looks are the same on two disks. -/
structure SameStarts (size : ℕ) (c c' : ℕ → Sector) : Prop where
  size_pos : 0 < size
  boot : c' 0 = c 0
  start : vbrStatus (c 0) = 2 → ∀ i < 4, partitionStart (c 0) i ≠ 0 →
    partitionStart (c 0) i < size ∧ c' (partitionStart (c 0) i) = c (partitionStart (c 0) i)

/-- Two results of looking for a volume are the same, as far as a volume is found. -/
def SameFound (r r' : ℕ × FatFs σ) : Prop :=
  r'.1 = r.1 ∧ (r.1 < 2 → r'.2.win = r.2.win ∧ r'.2.winsect = r.2.winsect)

theorem three_not_found : ¬3 < 2 := by decide

theorem findPartition_same (hlaw : io.Lawful content size) (hrel : io.Reliable size)
    {mbrPt : ℕ → ℕ} {c c' : ℕ → Sector} (l : List ℕ)
    (hstart : ∀ i ∈ l, mbrPt i ≠ 0 → mbrPt i < size ∧ c' (mbrPt i) = c (mbrPt i))
    (hc : content fs.disk = c) (hc' : content fs'.disk = c') :
    SameFound (findPartition io mbrPt l fs) (findPartition io mbrPt l fs') := by
  induction l generalizing fs fs' with
  | nil => exact ⟨rfl, fun h => absurd h three_not_found⟩
  | cons i rest ih =>
    have hrest := fun j hj => hstart j (List.mem_cons_of_mem i hj)
    rw [findPartition, findPartition]
    by_cases hzero : mbrPt i ≠ 0
    · obtain ⟨hlt, hsame⟩ := hstart i List.mem_cons_self hzero
      obtain ⟨hfmt, hwin, hwinsect, hdisk⟩ := checkFs_eq hlaw hrel fs hlt
      obtain ⟨hfmt', hwin', hwinsect', hdisk'⟩ := checkFs_eq hlaw hrel fs' hlt
      rw [hc] at hfmt hwin hdisk
      rw [hc', hsame] at hfmt' hwin'
      rw [hc'] at hdisk'
      have hfmts := hfmt'.trans hfmt.symm
      dsimp only
      rw [if_pos hzero, if_pos hzero, hfmts]
      split_ifs
      · exact ih hrest hdisk hdisk'
      · exact ⟨rfl, fun _ => ⟨hwin'.trans hwin.symm, hwinsect'.trans hwinsect.symm⟩⟩
    · dsimp only
      rw [if_neg hzero, if_neg hzero]
      split_ifs
      · exact ih hrest hc hc'
      · exact ⟨rfl, fun h => absurd h three_not_found⟩

/-- `find_volume` finds the same volume on disks that are the same where it looks. -/
theorem findVolume_same (hlaw : io.Lawful content size) (hrel : io.Reliable size)
    (h : SameStarts size (content fs.disk) (content fs'.disk)) :
    SameFound (findVolume io fs) (findVolume io fs') := by
  obtain ⟨hfmt, hwin, hwinsect, hdisk⟩ := checkFs_eq hlaw hrel fs h.size_pos
  obtain ⟨hfmt', hwin', hwinsect', hdisk'⟩ := checkFs_eq hlaw hrel fs' h.size_pos
  rw [h.boot] at hfmt' hwin'
  rw [findVolume, findVolume]
  dsimp only
  rw [hfmt, hfmt']
  split_ifs with htwo
  · exact ⟨rfl, fun _ => ⟨hwin'.trans hwin.symm, hwinsect'.trans hwinsect.symm⟩⟩
  · rw [hwin, hwin']
    refine findPartition_same hlaw hrel _ (fun i hi hne => ?_) hdisk hdisk'
    refine h.start (not_not.mp htwo) i ?_ hne
    rcases hi with _ | ⟨_, _ | ⟨_, _ | ⟨_, _ | ⟨_, hi⟩⟩⟩⟩ <;> first | decide | cases hi

theorem mountVolume_lt (hun : fs.fsType = .unmounted) (h : mountVolume io fs = (.ok, fs')) :
    (findVolume io fs).1 < 2 := by
  have herr : MountResult.diskErr ≠ .ok ∧ MountResult.noFilesystem ≠ .ok := by decide
  by_contra hge
  rw [mountVolume, if_neg (not_not.mpr hun)] at h
  dsimp only at h
  by_cases hfour : (findVolume io fs).1 = 4
  · rw [if_pos hfour] at h
    exact herr.1 (congrArg Prod.fst h)
  · rw [if_neg hfour, if_pos (Nat.le_of_not_lt hge)] at h
    exact herr.2 (congrArg Prod.fst h)

/-- A volume that is found and accepted is mounted. -/
theorem mountVolume_found {v : Volume} (hun : fs.fsType = .unmounted)
    (hfmt : (findVolume io fs).1 < 2)
    (hv : volumeOf (findVolume io fs).2.win (findVolume io fs).2.winsect = some v) :
    ∃ fs', mountVolume io fs = (.ok, fs') := by
  rw [mountVolume, if_neg (not_not.mpr hun)]
  dsimp only
  rw [if_neg (by omega), if_neg (by omega), hv]
  dsimp only
  split_ifs
  · split
    · split_ifs
      · exact ⟨_, rfl⟩
      · exact ⟨_, rfl⟩
    · exact ⟨_, rfl⟩
  · exact ⟨_, rfl⟩

theorem toldCount_lt (ty : FsType) (boot info : Sector) : toldCount ty boot info < 2 ^ 32 := by
  unfold toldCount
  split_ifs
  · exact (ldDword info 488).isLt
  · decide

/-- The number of free clusters behind a mount, and whether it is to be written. -/
theorem mountVolume_told (hlaw : io.Lawful content size) (hrel : io.Reliable size)
    (hun : fs.fsType = .unmounted) (h : mountVolume io fs = (.ok, fs'))
    (hboot : fs'.volbase < size) (hinfo : fs'.fsType = .fat32 → fs'.volbase + 1 < size) :
    fs'.freeClst = toldCount fs'.fsType (content fs'.disk fs'.volbase)
        (content fs'.disk (fs'.volbase + 1)) ∧
      (fs'.fsiFlag = 0#8 ∨ fs'.freeClst = 0xFFFFFFFF) := by
  obtain ⟨hvol, -, hcontent⟩ := mountVolume_ok hlaw hun h
  have hlt := mountVolume_lt hun h
  obtain ⟨hload, hcontent₁⟩ := findVolume_loaded hlaw fs
  have hvolbase : fs'.volbase = (findVolume io fs).2.winsect :=
    congrArg Volume.volbase (volumeOf_eq_some hvol).1
  have hsize := hlaw.size_lt
  rw [mountVolume, if_neg (not_not.mpr hun)] at h
  dsimp only at h
  rw [hcontent, ← hcontent₁]
  generalize findVolume io fs = r at h hvol hlt hload hcontent₁ hvolbase ⊢
  obtain ⟨fmt, fs₁⟩ := r
  dsimp only at h hvol hlt hload hcontent₁ hvolbase ⊢
  have hwin₁ : fs₁.win = content fs₁.disk fs'.volbase := by
    rw [hvolbase]
    exact hload.win (by omega)
  have hwrap : wrap32 (fs₁.winsect + 1) = fs'.volbase + 1 := by
    rw [wrap32, hvolbase]
    omega
  rw [if_neg (by omega), if_neg (by omega), hvol] at h
  dsimp only at h
  rw [hwrap] at h
  rw [toldCount, ← hwin₁]
  by_cases hread : fs'.fsType = .fat32 ∧ ldWord fs₁.win 48 = 1
  · rw [if_pos hread] at h
    generalize hfs : ({ fs₁ with
      toVolume := fs'.toVolume, lastClst := 0xFFFFFFFF, freeClst := 0xFFFFFFFF,
      fsiFlag := 0x80#8 } : FatFs σ) = fs₂ at h
    have hload₂ : Loaded content size fs₂ := by
      subst hfs
      exact ⟨hload.wflag, hload.win⟩
    have hdisk₂ : fs₂.disk = fs₁.disk := hfs ▸ rfl
    obtain ⟨fs₃, hmove, hwin, -, -⟩ := moveWindow_loads hlaw hrel hload₂ (hinfo hread.1)
    rw [hdisk₂] at hwin
    rw [hmove] at h
    dsimp only at h
    by_cases hsigned : ldDword fs₃.win 0 = 0x41615252#32 ∧ ldDword fs₃.win 484 = 0x61417272#32 ∧
        ldDword fs₃.win 508 = 0xAA550000#32
    · rw [if_pos hsigned] at h
      rw [← hwin, if_pos ⟨hread, hsigned⟩, ← (Prod.mk.inj h).2]
      exact ⟨rfl, Or.inl rfl⟩
    · rw [if_neg hsigned] at h
      have hkept := moveWindow_info io (fs'.volbase + 1) fs₂
      rw [hmove] at hkept
      have hfree : fs₃.freeClst = 0xFFFFFFFF := (info_eq hkept).2.1.trans (hfs ▸ rfl)
      rw [← hwin, if_neg fun hc => hsigned hc.2, ← (Prod.mk.inj h).2]
      exact ⟨hfree, Or.inr hfree⟩
  · rw [if_neg hread] at h
    rw [if_neg fun hc => hread hc.1, ← (Prod.mk.inj h).2]
    exact ⟨rfl, Or.inr rfl⟩

/-- No partition starts in a FAT of a volume, or at its `FSInfo` sector. -/
def StartsApart (size : ℕ) (boot : Sector) (v : Volume) : Prop :=
  vbrStatus boot = 2 → ∀ i < 4, partitionStart boot i < size ∧
    (v.fsType = .fat32 → partitionStart boot i ≠ v.volbase + 1) ∧
    ¬(v.fatbase ≤ partitionStart boot i ∧ partitionStart boot i < v.fatbase + v.nFats * v.fsize)

/-- A volume that is mounted again is found where it was, and accepted again. -/
theorem mountVolume_again (hlaw : io.Lawful content size) (hrel : io.Reliable size)
    {fs₀ fs₃ : FatFs σ} (hun₀ : fs₀.fsType = .unmounted)
    (hmount : mountVolume io fs₀ = (.ok, fs₁)) (hun₃ : fs₃.fsType = .unmounted)
    (hstarts : SameStarts size (content fs₀.disk) (content fs₃.disk)) :
    ∃ fs₄, mountVolume io fs₃ = (.ok, fs₄) ∧ fs₄.toVolume = fs₁.toVolume := by
  obtain ⟨hvol, -, -⟩ := mountVolume_ok hlaw hun₀ hmount
  have hlt := mountVolume_lt hun₀ hmount
  obtain ⟨hfmt, hsame⟩ := findVolume_same hlaw hrel hstarts
  obtain ⟨hwin, hwinsect⟩ := hsame hlt
  rw [← hwin, ← hwinsect] at hvol
  obtain ⟨fs₄, hagain⟩ := mountVolume_found hun₃ (hfmt.trans_lt hlt) hvol
  refine ⟨fs₄, hagain, ?_⟩
  obtain ⟨hvol', -, -⟩ := mountVolume_ok hlaw hun₃ hagain
  exact Option.some.inj (hvol'.symm.trans hvol)

/-- A mount leaves the number of free clusters as the disk tells it. -/
theorem mountVolume_informed (hlaw : io.Lawful content size) (hrel : io.Reliable size)
    (hun : fs.fsType = .unmounted) (hmount : mountVolume io fs = (.ok, fs'))
    (hboot : fs'.volbase < size) (hinfo : fs'.fsType = .fat32 → fs'.volbase + 1 < size) :
    Informed content fs' := by
  obtain ⟨-, hload, -⟩ := mountVolume_ok hlaw hun hmount
  obtain ⟨hfree, hflag⟩ := mountVolume_told hlaw hrel hun hmount hboot hinfo
  have htold : fs'.told content = fs'.freeClst := by
    rw [FatFs.told, FatFs.view_of_clean hload.wflag, FatFs.view_of_clean hload.wflag]
    exact hfree.symm
  refine ⟨hfree.trans_lt (toldCount_lt _ _ _), Or.inr ?_⟩
  rw [htold]
  exact hflag.symm.imp_right fun hzero => ⟨hzero, rfl⟩

/-- Calls for the files keep what the next mount relies on. -/
theorem run_informed {files files' : List (List ℕ)}
    {trace : List (Transition (FatFs σ × List (List ℕ)) Event)}
    (run : Reaches (Traced (Step io)) (fs, files) trace (fs', files'))
    (hold : Holding io content size fs files) (hinformed : Informed content fs)
    (hres : fs.Reserves) :
    Holding io content size fs' files' ∧ Beside content size fs fs' ∧ Informed content fs' := by
  refine run.invariant (I := fun _ s => Holding io content size s.1 s.2 ∧
    Beside content size fs s.1 ∧ Informed content s.1) ?_ ?_
  · exact ⟨hold, Beside.refl fs, hinformed⟩
  · rintro trace ⟨fs₁, files₁⟩ t ⟨fs₂, files₂⟩ ⟨hold, hbeside, hinformed⟩ ⟨-, -, hstep⟩
    obtain ⟨hold', hbeside', -⟩ := step_holding hstep hold
    have hfats := hold.ready.coherent.fats
    have hmax := hold.ready.sound.nFatent_le
    have hbound : fs₁.fsType.maxEntries ≤ 0x0FFFFFF7 := by cases fs₁.fsType <;> decide
    have hres₁ : fs₁.Reserves := by
      rw [hbeside.volume]
      exact hres
    dsimp only at hfats hmax
    refine ⟨hold', hbeside.trans hbeside', ?_⟩
    exact step_informed (by omega) (by omega) hres₁ hinformed hbeside' hstep

/-- **The files survive.** Whatever was called for the files of a mounted volume, after `sync_fs`
the next mount finds the volume with the same files, the number of free clusters is right if it is
known, and the second FAT is a copy. -/
theorem files_survive {fs₀ fs₁ fs₂ fs₃ : FatFs σ} {files₁ files₂ : List (List ℕ)}
    {trace : List (Transition (FatFs σ × List (List ℕ)) Event)}
    (hun₀ : fs₀.fsType = .unmounted) (hmount : mountVolume io fs₀ = (.ok, fs₁))
    (hres : fs₁.Reserves)
    (hstarts : StartsApart size (content fs₀.disk 0) fs₁.toVolume)
    (hold : Holding io content size fs₁ files₁) (hm : fs₁.Mirrored content)
    (run : Reaches (Traced (Step io)) (fs₁, files₁) trace (fs₂, files₂))
    (hun₃ : fs₃.fsType = .unmounted) (hdisk : fs₃.disk = (syncFs io fs₂).2.disk) :
    (syncFs io fs₂).1 = .ok ∧ ∃ fs₄, mountVolume io fs₃ = (.ok, fs₄) ∧
      fs₄.toVolume = fs₁.toVolume ∧ Holding io content size fs₄ files₂ ∧ fs₄.Mirrored content := by
  have hlaw := hold.ready.lawful
  have hrel := hold.ready.reliable
  have hfats := hold.ready.coherent.fats
  have hboot := hres.boot
  have hplace : fs₁.volbase < size := by omega
  have hinfo : fs₁.fsType = .fat32 → fs₁.volbase + 1 < size := fun h32 =>
    (hres.info h32).trans_le (by omega)
  obtain ⟨-, hload₁, hcontent₁⟩ := mountVolume_ok hlaw hun₀ hmount
  obtain ⟨hold₂, hbeside, hinformed₂⟩ := run_informed run hold
    (mountVolume_informed hlaw hrel hun₀ hmount hplace hinfo) hres
  have hvol₂ := hbeside.volume
  have hsync := syncFs_spec hold₂.ready (hbeside.mirrored hm) (hvol₂ ▸ hres)
  have hsecond : ∀ s, fs₂.Second s ↔ fs₁.Second s := fun s => by
    rw [FatFs.Second, FatFs.Second, hvol₂]
  simp only [hvol₂, hsecond] at hsync
  obtain ⟨fs₂', hrun, hkept, htold, hcopy⟩ := hsync
  rw [hrun] at hdisk ⊢
  rw [← hdisk] at hkept htold hcopy
  have hsize : fs₁.fsize ≤ fs₁.nFats * fs₁.fsize :=
    Nat.le_mul_of_pos_left _ (by rcases hold.ready.sound.nFats with hn | hn <;> omega)
  -- where a mount looks, the disk is as it was
  have hsame : ∀ s < size, (fs₁.fsType = .fat32 → s ≠ fs₁.volbase + 1) →
      ¬(fs₁.fatbase ≤ s ∧ s < fs₁.fatbase + fs₁.nFats * fs₁.fsize) →
      content fs₃.disk s = content fs₀.disk s := by
    intro s hs hne hout
    have htwo : ¬fs₁.Second s := by
      rintro ⟨hn, hge, hlt⟩
      rw [hn] at hout
      omega
    have hfirst : ¬(fs₁.fatbase ≤ s ∧ s < fs₁.fatbase + fs₁.fsize) := by
      intro hin
      omega
    rw [hkept s hs htwo hne, hbeside.outside s hs htwo hfirst, FatFs.view_of_clean hload₁.wflag,
      hcontent₁]
  have hsameStarts : SameStarts size (content fs₀.disk) (content fs₃.disk) := by
    refine ⟨by omega, hsame 0 (by omega) (fun _ => by omega) (by omega), fun hmbr i hi _ => ?_⟩
    obtain ⟨hlt, hne, hout⟩ := hstarts hmbr i hi
    exact ⟨hlt, hsame _ hlt hne hout⟩
  obtain ⟨fs₄, hagain, hvol₄⟩ := mountVolume_again hlaw hrel hun₀ hmount hun₃ hsameStarts
  obtain ⟨-, hload₄, hcontent₄⟩ := mountVolume_ok hlaw hun₃ hagain
  refine ⟨rfl, fs₄, hagain, hvol₄, ?_, ?_⟩
  · refine hold₂.reload (hvol₄.trans hvol₂.symm) hload₄ ?_ fun hle => ?_
    · simp only [hvol₂, hcontent₄]
      refine fun k hk => hkept _ (by omega) (fun hin => ?_) fun h32 => ?_
      · have hge := hin.2.1
        omega
      · have hlt := hres.info h32
        omega
    · -- the number is the one that was written, or none
      have hcount := (mountVolume_told hlaw hrel hun₃ hagain (by rw [hvol₄]; exact hplace)
        (by rw [hvol₄]; exact hinfo)).1
      have hnone : ¬fs₁.Second fs₁.volbase := fun hin => by
        have hge := hin.2.1
        omega
      have hbootKept := hkept fs₁.volbase hplace hnone fun _ => by omega
      have htoldSync := hinformed₂.told_sync (content fs₃.disk (fs₁.volbase + 1))
        (by simpa only [hvol₂] using htold)
      simp only [hvol₂] at htoldSync
      rw [hvol₄, hcontent₄, hbootKept] at hcount
      rw [hcount] at hle ⊢
      have hmax := hold.ready.sound.nFatent_le
      have hbound : fs₁.fsType.maxEntries ≤ 0x0FFFFFF7 := by cases fs₁.fsType <;> decide
      rcases htoldSync with hunknown | hright
      · rw [hunknown, hvol₂] at hle
        omega
      · exact hright
  · rw [FatFs.Mirrored, hvol₄, hcontent₄]
    exact fun hn k hk _ => hcopy hn k hk

end Mount

/-- A disk with a volume without files. -/
def emptyDisk : ℕ → Sector := fun s => if s = 0 then smallBpb else fun _ => 0

/-- An object that is not yet mounted. -/
def unmountedOn (disk : ℕ → Sector) : FatFs (ℕ → Sector) :=
  freshVolume { smallVolume with fsType := .unmounted } disk

/-- A cluster is taken for a file, and the file is there again. -/
theorem files_survive_create : ∃ r fs₁ fs₂ fs₄,
    mountVolume memoryDisk (unmountedOn emptyDisk) = (.ok, fs₁) ∧
      createChain memoryDisk (fs₁.nFatent + 1) 0 fs₁ = some (r, fs₂) ∧
      mountVolume memoryDisk (unmountedOn (syncFs memoryDisk fs₂).2.disk) = (.ok, fs₄) ∧
      Holding memoryDisk id 128 fs₄ [[r]] := by
  have hlaw := memoryDisk_lawful (by decide : 128 < 2 ^ 32)
  have hrel := memoryDisk_reliable 128
  have hmount : mountVolume memoryDisk (unmountedOn emptyDisk) =
      (.ok, (mountVolume memoryDisk (unmountedOn emptyDisk)).2) :=
    Prod.ext (by decide : (mountVolume memoryDisk (unmountedOn emptyDisk)).1 = .ok) rfl
  have hvol :
      (mountVolume memoryDisk (unmountedOn emptyDisk)).2.toVolume = bpbVolume smallBpb 0 := by
    decide
  have hfree : (mountVolume memoryDisk (unmountedOn emptyDisk)).2.freeClst = 0xFFFFFFFF := by decide
  generalize (mountVolume memoryDisk (unmountedOn emptyDisk)).2 = fs₁ at hmount hvol hfree
  obtain ⟨hcontent, -, hready⟩ := mountVolume_ready hlaw hrel rfl hmount
  obtain ⟨-, hload, -⟩ := mountVolume_ok hlaw rfl hmount
  have hold : Holding memoryDisk id 128 fs₁ [] := by
    apply (hready (hvol ▸ ⟨by decide, by decide, by decide⟩)).holding_nil
    · intro b
      have hbase : (bpbVolume smallBpb 0).fatbase = 1 := by decide
      have hne : 1 + b / 512 ≠ 0 := by omega
      have hempty : emptyDisk (1 + b / 512) = fun _ => 0 := if_neg hne
      rw [FatFs.fatByte, FatFs.view_of_clean hload.wflag, hcontent, hvol, hbase]
      exact congrFun hempty _
    · rw [hvol, hfree]
      decide
  obtain ⟨r, fs₂, hrun, -, hold₂, hserved⟩ := hold.create
  have hcluster : IsCluster r := by
    refine hserved.resolve_right fun hfull => ?_
    have htwo := hold.ready.sound.two_lt
    have hempty : 0 = fs₁.nFatent - 2 := hfull.2
    omega
  have run : Reaches (Traced (Step memoryDisk)) (fs₁, [])
      [⟨(fs₁, []), .create r, (fs₂, if IsCluster r then [[r]] else [])⟩]
      (fs₂, if IsCluster r then [[r]] else []) := .snoc .start ⟨rfl, rfl, .create hrun⟩
  rw [if_pos hcluster] at run
  obtain ⟨-, fs₄, hagain, -, hold₄, -⟩ := files_survive rfl hmount
    (hvol ▸ ⟨by decide, fun h => absurd h (by decide)⟩) (fun h => absurd h (by decide)) hold
    (fun hn => absurd (hvol ▸ hn) (by decide)) run
    (rfl : (unmountedOn (syncFs memoryDisk fs₂).2.disk).fsType = .unmounted) rfl
  exact ⟨r, fs₁, fs₂, fs₄, hmount, hrun, hagain, hold₄⟩

end OpenIDP.Fat
