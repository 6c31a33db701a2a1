import OpenIDP.Fat.Chain
import OpenIDP.Fat.Drive
import OpenIDP.Math.Reaches

/-!
# The clusters of the files

`f_write`, `f_truncate` and `f_unlink` of `src/drivers/fatfs/ff.c` take and free clusters through
`create_chain` and `remove_chain`. They know the first cluster of a file and the one at the current
place, and believe what is returned.

The clusters that were returned for the files are the chains that the FAT has, whatever is called
in whatever order: no cluster is in two files, and no cluster is lost.

## Main definitions

* `truncateChain` — the part of `f_truncate` that frees clusters
* `Event`, `Step` — what is called for the files, and what the callers then know
* `Holding` — the FAT has the chains of the files

## Main results

* `step_holding` — a call keeps the chains
* `files_run`, `files_progress` — runs, and that every call ends
-/

namespace OpenIDP.Fat

open OpenIDP.Math

section Code

variable {σ : Type} (io : DiskIo σ)

/-- The part of `f_truncate` that frees the clusters behind `clust`. -/
def truncateChain (fuel clust : ℕ) (fs : FatFs σ) : Option (FResult × FatFs σ) :=
  let (ncl, fs₁) := getFat io clust fs
  let res : FResult := if ncl = 0xFFFFFFFF then .diskErr else .ok
  let res : FResult := if ncl = 1 then .intErr else res
  if res = .ok ∧ ncl < fs₁.nFatent then removeChain io fuel ncl clust fs₁ else some (res, fs₁)

end Code

/-- What is called, and what is returned: for a new file, at a cluster of a file, to free what is
behind a cluster, and to free all clusters of a file. -/
inductive Event
  | create (r : ℕ)
  | stretch (clst r : ℕ)
  | truncate (clst : ℕ) (res : FResult)
  | remove (clst : ℕ) (res : FResult)

/-- `f_write` takes the result of `create_chain` for a cluster. -/
def IsCluster (r : ℕ) : Prop := r ≠ 0 ∧ r ≠ 1 ∧ r ≠ 0xFFFFFFFF

instance (r : ℕ) : Decidable (IsCluster r) := inferInstanceAs (Decidable (_ ∧ _))

/-- A call for one of the files, and what the callers know of the files then. -/
inductive Step {σ : Type} (io : DiskIo σ) :
    FatFs σ × List (List ℕ) → Event → FatFs σ × List (List ℕ) → Prop
  | create {fs fs' : FatFs σ} {files : List (List ℕ)} {r : ℕ}
      (run : createChain io (fs.nFatent + 1) 0 fs = some (r, fs')) :
      Step io (fs, files) (.create r) (fs', if IsCluster r then [r] :: files else files)
  | stretch {fs fs' : FatFs σ} {ls rs : List (List ℕ)} {l ys : List ℕ} {clst r : ℕ}
      (run : createChain io (fs.nFatent + 1) clst fs = some (r, fs')) :
      Step io (fs, ls ++ (l ++ clst :: ys) :: rs) (.stretch clst r)
        (fs', if IsCluster r ∧ ys = [] then ls ++ (l ++ [clst, r]) :: rs
          else ls ++ (l ++ clst :: ys) :: rs)
  | truncate {fs fs' : FatFs σ} {ls rs : List (List ℕ)} {l ys : List ℕ} {clst : ℕ} {res : FResult}
      (run : truncateChain io (fs.nFatent + 1) clst fs = some (res, fs')) :
      Step io (fs, ls ++ (l ++ clst :: ys) :: rs) (.truncate clst res)
        (fs', if res = .ok then ls ++ (l ++ [clst]) :: rs else ls ++ (l ++ clst :: ys) :: rs)
  | remove {fs fs' : FatFs σ} {ls rs : List (List ℕ)} {ys : List ℕ} {clst : ℕ} {res : FResult}
      (run : removeChain io (fs.nFatent + 1) clst 0 fs = some (res, fs')) :
      Step io (fs, ls ++ (clst :: ys) :: rs) (.remove clst res)
        (fs', if res = .ok then ls ++ rs else ls ++ (clst :: ys) :: rs)

/-- The FAT has the chains of the files and nothing else, and the number of free clusters is right
if it is known. -/
structure Holding {σ : Type} (io : DiskIo σ) (content : σ → ℕ → Sector) (size : ℕ) (fs : FatFs σ)
    (files : List (List ℕ)) : Prop where
  ready : Ready io content size fs
  holds : Holds (fs.link content) fs.clusters files
  counted : fs.freeClst ≤ fs.nFatent - 2 →
    fs.freeClst + files.flatten.length = fs.nFatent - 2

/-- What is not in a FAT is as it was, and the second FAT is still a copy. -/
structure Beside {σ : Type} (content : σ → ℕ → Sector) (size : ℕ) (fs fs' : FatFs σ) : Prop where
  volume : fs'.toVolume = fs.toVolume
  outside : ∀ s < size, ¬fs.Second s → ¬(fs.fatbase ≤ s ∧ s < fs.fatbase + fs.fsize) →
    fs'.view content s = fs.view content s
  mirrored : fs.Mirrored content → fs'.Mirrored content

section Spec

variable {σ : Type} {io : DiskIo σ} {content : σ → ℕ → Sector} {size : ℕ}
  {fs fs' fs₁ fs₂ : FatFs σ} {files ls rs : List (List ℕ)} {l ys : List ℕ} {clst r c : ℕ}
  {entry : ℕ → ℕ}

theorem Edits.beside (h : Edits content size fs fs' entry) : Beside content size fs fs' :=
  ⟨h.volume, h.outside, h.mirrored⟩

theorem Beside.refl (fs : FatFs σ) : Beside content size fs fs :=
  ⟨rfl, fun _ _ _ _ => rfl, id⟩

theorem Beside.trans (h : Beside content size fs fs₁) (h' : Beside content size fs₁ fs₂) :
    Beside content size fs fs₂ := by
  have hbase : fs₁.fatbase = fs.fatbase := congrArg Volume.fatbase h.volume
  have hsz : fs₁.fsize = fs.fsize := congrArg Volume.fsize h.volume
  have hsecond : ∀ s, fs₁.Second s ↔ fs.Second s := fun s => by
    rw [FatFs.Second, FatFs.Second, h.volume]
  refine ⟨h'.volume.trans h.volume, fun s hs hnot hout => ?_, h'.mirrored ∘ h.mirrored⟩
  rw [h'.outside s hs (fun hs' => hnot ((hsecond s).mp hs')) (by rwa [hbase, hsz])]
  exact h.outside s hs hnot hout

theorem mem_clusters : c ∈ fs.clusters ↔ 2 ≤ c ∧ c < fs.nFatent := Finset.mem_Ico

namespace Holding

/-- A cluster of a file is a cluster of the volume. -/
theorem cluster (h : Holding io content size fs files) (hc : c ∈ files.flatten) :
    2 ≤ c ∧ c < fs.nFatent := mem_clusters.mp ((h.holds.mem_iff c).mp hc).1

/-- No entry has the value that stands for an error. -/
theorem entry_ne_one (h : Holding io content size fs files) (hc : 2 ≤ c) (hc' : c < fs.nFatent) :
    fs.entry content c ≠ 1 := by
  intro hone
  have htwo := h.ready.sound.two_lt
  have hlink : fs.link content c = .next 1 :=
    linkOf_eq_next.mpr ⟨hone, by omega, by omega⟩
  have hmem : c ∈ files.flatten := by
    rw [h.holds.mem_iff, hlink]
    exact ⟨mem_clusters.mpr ⟨hc, hc'⟩, Link.next_ne_free 1⟩
  obtain ⟨l, hl, hcl⟩ := List.mem_flatten.mp hmem
  obtain ⟨xs, ys, rfl⟩ := List.append_of_mem hcl
  have hat := (h.holds.chain _ hl).link_eq
  rw [hlink] at hat
  cases ys with
  | nil => cases hat
  | cons b ys =>
    -- the next cluster would be one of the file
    obtain rfl : 1 = b := Link.next.inj hat
    have hb : 1 ∈ files.flatten :=
      List.mem_flatten_of_mem hl (List.mem_append_right _ (List.mem_cons_of_mem _
        List.mem_cons_self))
    exact absurd (h.cluster hb).1 (by decide)

/-- All clusters are in files when no entry is free. -/
theorem length_of_full (h : Holding io content size fs files)
    (hfull : ∀ c, 2 ≤ c → c < fs.nFatent → fs.entry content c ≠ 0) :
    files.flatten.length = fs.nFatent - 2 := by
  have hcard := h.holds.card_free_add
  have hnone : (fs.clusters.filter fun c => fs.link content c = .free) = ∅ := by
    apply Finset.filter_eq_empty_iff.mpr
    intro c hc hfree
    obtain ⟨hge, hlt⟩ := mem_clusters.mp hc
    exact hfull c hge hlt (linkOf_eq_free.mp hfree)
  rw [hnone, Finset.card_empty, Nat.zero_add, FatFs.clusters, Nat.card_Ico] at hcard
  exact hcard

theorem length_le (h : Holding io content size fs files) :
    files.flatten.length ≤ fs.nFatent - 2 := by
  have hcard := h.holds.card_free_add
  rw [FatFs.clusters, Nat.card_Ico] at hcard
  omega

/-- Nothing changes but the window. -/
theorem same (h : Holding io content size fs files)
    (hed : Edits content size fs fs' (fs.entry content)) (hfree : fs'.freeClst = fs.freeClst) :
    Holding io content size fs' files := by
  have hn : fs'.nFatent = fs.nFatent := congrArg Volume.nFatent hed.volume
  have hclusters : fs'.clusters = fs.clusters := by rw [FatFs.clusters, hn]; rfl
  have hlink : ∀ c ∈ fs.clusters, fs'.link content c = fs.link content c := by
    intro c hc
    rw [FatFs.link, FatFs.link, hn, hed.entry_eq c (mem_clusters.mp hc).2]
  refine ⟨hed.ready h.ready, ?_, ?_⟩
  · rw [hclusters]
    exact h.holds.congr hlink
  · rw [hfree, hn]
    exact h.counted

/-- After an edit, the links of the clusters. -/
theorem link_edits (hed : Edits content size fs fs' entry) :
    fs'.clusters = fs.clusters ∧
      ∀ c, c < fs.nFatent → fs'.link content c = linkOf fs.nFatent (entry c) := by
  have hn : fs'.nFatent = fs.nFatent := congrArg Volume.nFatent hed.volume
  constructor
  · rw [FatFs.clusters, hn]
    rfl
  · intro c hc
    rw [FatFs.link, hn, hed.entry_eq c hc]

theorem linkOf_last (h : Holding io content size fs files) :
    linkOf fs.nFatent (fs.fsType.mask 0xFFFFFFFF#32) = .last := by
  have hle := le_mask_last h.ready.sound
  have htwo := h.ready.sound.two_lt
  exact linkOf_eq_last.mpr ⟨by omega, hle⟩

theorem isCluster_of_lt (h : Holding io content size fs files) (hr : 2 ≤ r)
    (hr' : r < fs.nFatent) : IsCluster r := by
  have hmax := h.ready.sound.nFatent_le
  have hbound : fs.fsType.maxEntries ≤ 0x0FFFFFF7 := by cases fs.fsType <;> decide
  exact ⟨by omega, by omega, by omega⟩

/-- A cluster is taken, and the number of free clusters is still right. -/
theorem take {files' : List (List ℕ)} (h : Holding io content size fs files)
    (hed : Edits content size fs fs' entry) (hnew : Holds (fs'.link content) fs.clusters files')
    (hlen : files'.flatten.length = files.flatten.length + 1)
    (hcount : fs'.freeClst = takeOne fs.nFatent fs.freeClst) :
    Holding io content size fs' files' := by
  have hn : fs'.nFatent = fs.nFatent := congrArg Volume.nFatent hed.volume
  refine ⟨hed.ready h.ready, (link_edits hed).1 ▸ hnew, fun hle => ?_⟩
  have hcounted := h.counted
  have hcard := hnew.card_free_add
  rw [FatFs.clusters, Nat.card_Ico, hlen] at hcard
  rw [hn, hcount, takeOne] at hle
  rw [hn, hlen, hcount, takeOne]
  split_ifs at hle ⊢ <;> omega

/-- Clusters are given back, and the number of free clusters is still right. -/
theorem give {files' : List (List ℕ)} {k : ℕ} (h : Holding io content size fs files)
    (hed : Edits content size fs fs' entry) (hnew : Holds (fs'.link content) fs.clusters files')
    (hlen : files'.flatten.length + k = files.flatten.length)
    (hcount : fs'.freeClst = giveBack fs.nFatent fs.freeClst k) :
    Holding io content size fs' files' := by
  have hn : fs'.nFatent = fs.nFatent := congrArg Volume.nFatent hed.volume
  refine ⟨hed.ready h.ready, (link_edits hed).1 ▸ hnew, fun hle => ?_⟩
  have hcounted := h.counted
  have hroom := h.length_le
  rw [hn, hcount, giveBack] at hle
  rw [hn, hcount, giveBack]
  split_ifs at hle ⊢ <;> omega

/-- `create_chain` for a new file. -/
theorem create (h : Holding io content size fs files) :
    ∃ r fs', createChain io (fs.nFatent + 1) 0 fs = some (r, fs') ∧ Beside content size fs fs' ∧
      Holding io content size fs' (if IsCluster r then [r] :: files else files) ∧
      (IsCluster r ∨ r = 0 ∧ files.flatten.length = fs.nFatent - 2) := by
  obtain ⟨r, fs', hrun, hres⟩ := createChain_spec h.ready (fun c => h.entry_ne_one)
    (Nat.lt_succ_self _) (Or.inl rfl)
  refine ⟨r, fs', hrun, ?_⟩
  rcases hres with ⟨rfl, hed, hfree, hfull⟩ | ⟨hr, hr', hzero, hed, hcount⟩
  · rw [if_neg fun hc => hc.1 rfl]
    refine ⟨hed.beside, h.same hed hfree, Or.inr ⟨rfl, ?_⟩⟩
    rcases hfull with hnone | hfull
    · have hcounted := h.counted (by omega)
      omega
    · exact h.length_of_full hfull
  · have hcl := h.isCluster_of_lt hr hr'
    obtain ⟨-, hlink⟩ := link_edits hed
    rw [if_pos hcl]
    refine ⟨hed.beside, h.take hed ?_ ?_ hcount, Or.inl hcl⟩
    · apply h.holds.start (mem_clusters.mpr ⟨hr, hr'⟩) (linkOf_eq_free.mpr hzero)
      · rw [hlink r hr', linked, if_neg fun hc => hc.1 rfl, if_pos rfl]
        exact h.linkOf_last
      · intro c hc hne
        rw [hlink c (mem_clusters.mp hc).2, linked, if_neg fun hc => hc.1 rfl, if_neg hne]
        rfl
    · rw [List.flatten_cons, List.length_append, List.length_singleton, Nat.add_comm]

/-- A cluster in a file, and the link that it has. -/
theorem at_cluster (h : Holding io content size fs (ls ++ (l ++ clst :: ys) :: rs)) :
    (2 ≤ clst ∧ clst < fs.nFatent) ∧
      linkOf fs.nFatent (fs.entry content clst) = linkTo .last ys := by
  have hfile : l ++ clst :: ys ∈ ls ++ (l ++ clst :: ys) :: rs :=
    List.mem_append_right _ List.mem_cons_self
  refine ⟨h.cluster (List.mem_flatten_of_mem hfile ?_), (h.holds.chain _ hfile).link_eq⟩
  exact List.mem_append_right _ List.mem_cons_self

/-- `create_chain` at a cluster of a file. -/
theorem stretch (h : Holding io content size fs (ls ++ (l ++ clst :: ys) :: rs)) :
    ∃ r fs', createChain io (fs.nFatent + 1) clst fs = some (r, fs') ∧
      Beside content size fs fs' ∧
      Holding io content size fs' (if IsCluster r ∧ ys = [] then ls ++ (l ++ [clst, r]) :: rs
        else ls ++ (l ++ clst :: ys) :: rs) ∧
      (IsCluster r ∧ (∀ d ∈ ys.head?, r = d) ∨
        r = 0 ∧ (ls ++ (l ++ clst :: ys) :: rs).flatten.length = fs.nFatent - 2) := by
  obtain ⟨⟨hge, hlt⟩, hlink⟩ := h.at_cluster
  cases ys with
  | nil =>
    -- the last cluster of the file
    obtain ⟨-, hlast⟩ := linkOf_eq_last.mp hlink
    have hne : clst ≠ 0 := by omega
    obtain ⟨r, fs', hrun, hres⟩ := createChain_spec h.ready (fun c => h.entry_ne_one)
      (Nat.lt_succ_self _) (Or.inr ⟨hge, hlt, hlast⟩)
    refine ⟨r, fs', hrun, ?_⟩
    rcases hres with ⟨rfl, hed, hfree, hfull⟩ | ⟨hr, hr', hzero, hed, hcount⟩
    · rw [if_neg fun hc => hc.1.1 rfl]
      refine ⟨hed.beside, h.same hed hfree, Or.inr ⟨rfl, ?_⟩⟩
      rcases hfull with hnone | hfull
      · have hcounted := h.counted (by omega)
        omega
      · exact h.length_of_full hfull
    · have hcl := h.isCluster_of_lt hr hr'
      obtain ⟨-, hlink'⟩ := link_edits hed
      rw [if_pos ⟨hcl, rfl⟩]
      refine ⟨hed.beside, h.take hed ?_ ?_ hcount, Or.inl ⟨hcl, fun d hd => ?_⟩⟩
      · have hrc : r ≠ clst := by
          rintro rfl
          omega
        apply h.holds.extend (mem_clusters.mpr ⟨hr, hr'⟩) (linkOf_eq_free.mpr hzero)
        · rw [hlink' clst hlt, linked, if_pos ⟨hne, rfl⟩]
          exact linkOf_eq_next.mpr ⟨rfl, by omega, hr'⟩
        · rw [hlink' r hr', linked, if_neg fun hc => hrc hc.2, if_pos rfl]
          exact h.linkOf_last
        · intro c hc hca hcb
          rw [hlink' c (mem_clusters.mp hc).2, linked, if_neg fun hc => hca hc.2, if_neg hcb]
          rfl
      · simp only [List.flatten_append, List.flatten_cons, List.length_append, List.length_cons,
          List.length_nil]
        omega
      · cases hd
  | cons d ys =>
    obtain ⟨hnext, hnz, hd⟩ := linkOf_eq_next.mp hlink
    have hone := h.entry_ne_one hge hlt
    obtain ⟨fs', hrun, hed, hfree⟩ := createChain_next (fs.nFatent + 1) h.ready hge hlt
      (by omega) hd
    rw [hnext] at hrun hnz hone hd
    refine ⟨d, fs', hrun, hed.beside, ?_, Or.inl ⟨h.isCluster_of_lt (by omega) hd, ?_⟩⟩
    · rw [if_neg fun hc => List.cons_ne_nil _ _ hc.2]
      exact h.same hed hfree
    · intro d' hd'
      exact Option.some.inj hd'

/-- `remove_chain` for the clusters of a file from one on. -/
theorem remove_spec (pclst : ℕ)
    (h : Holding io content size fs (ls ++ (l ++ clst :: ys) :: rs))
    (hpclst : pclst = 0 ∨ 2 ≤ pclst ∧ pclst < fs.nFatent ∧ pclst ∉ clst :: ys) :
    ∃ fs', removeChain io (fs.nFatent + 1) clst pclst fs = some (.ok, fs') ∧
      Edits content size fs fs' (fun c => if c ∈ clst :: ys then 0
        else if pclst ≠ 0 ∧ c = pclst then fs.fsType.mask 0xFFFFFFFF#32
        else fs.entry content c) ∧
      fs'.freeClst = giveBack fs.nFatent fs.freeClst (ys.length + 1) := by
  have hfile : l ++ clst :: ys ∈ ls ++ (l ++ clst :: ys) :: rs :=
    List.mem_append_right _ List.mem_cons_self
  have hmem : ∀ c ∈ clst :: ys, 2 ≤ c ∧ c < fs.nFatent := fun c hc =>
    h.cluster (List.mem_flatten_of_mem hfile (List.mem_append_right _ hc))
  obtain ⟨hnodup, -, -⟩ := Holds.nodup_flatten_cons.mp h.holds.nodup
  have hlen := h.length_le
  simp only [List.flatten_append, List.flatten_cons, List.length_append, List.length_cons] at hlen
  refine removeChain_spec h.ready (List.nodup_append'.mp hnodup).2.1 hmem ?_ (by omega) hpclst
  exact ⟨List.cons_ne_nil _ _, (links_append.mp (h.holds.chain _ hfile).2).2⟩

/-- `remove_chain` for all clusters of a file. -/
theorem remove (h : Holding io content size fs (ls ++ (clst :: ys) :: rs)) :
    ∃ fs', removeChain io (fs.nFatent + 1) clst 0 fs = some (.ok, fs') ∧
      Beside content size fs fs' ∧ Holding io content size fs' (ls ++ rs) := by
  obtain ⟨fs', hrun, hed, hcount⟩ := remove_spec (l := []) 0 h (Or.inl rfl)
  obtain ⟨-, hlink⟩ := link_edits hed
  have hfile : clst :: ys ∈ ls ++ (clst :: ys) :: rs :=
    List.mem_append_right _ List.mem_cons_self
  refine ⟨fs', hrun, hed.beside, h.give hed ?_ ?_ hcount⟩
  · apply h.holds.release
    · intro c hc
      rw [hlink c (h.cluster (List.mem_flatten_of_mem hfile hc)).2, if_pos hc]
      rfl
    · intro c hc hnot
      rw [hlink c (mem_clusters.mp hc).2, if_neg hnot, if_neg fun hp => hp.1 rfl]
      rfl
  · simp only [List.flatten_append, List.flatten_cons, List.length_append, List.length_cons]
    omega

/-- The part of `f_truncate` that frees clusters. -/
theorem truncate (h : Holding io content size fs (ls ++ (l ++ clst :: ys) :: rs)) :
    ∃ fs', truncateChain io (fs.nFatent + 1) clst fs = some (.ok, fs') ∧
      Beside content size fs fs' ∧ Holding io content size fs' (ls ++ (l ++ [clst]) :: rs) := by
  obtain ⟨⟨hge, hlt⟩, hlink⟩ := h.at_cluster
  obtain ⟨hval, hed, hframe⟩ := h.ready.getFat hge hlt
  have hn : (getFat io clst fs).2.nFatent = fs.nFatent := congrArg Volume.nFatent hed.volume
  have hone := h.entry_ne_one hge hlt
  have hsmall := entry_lt content fs clst
  have h' := h.same hed hframe.freeClst
  have hres : (if fs.entry content clst = 1 then FResult.intErr
      else if fs.entry content clst = 0xFFFFFFFF then .diskErr else .ok) = .ok := by
    rw [if_neg hone, if_neg (by omega)]
  rw [truncateChain]
  dsimp only
  rw [hval, hres, hn]
  cases ys with
  | nil =>
    obtain ⟨-, hlast⟩ := linkOf_eq_last.mp hlink
    rw [if_neg fun hc => absurd hc.2 (not_lt.mpr hlast)]
    exact ⟨_, rfl, hed.beside, h'⟩
  | cons d ys =>
    obtain ⟨hnext, -, hd⟩ := linkOf_eq_next.mp hlink
    have hassoc : l ++ clst :: d :: ys = (l ++ [clst]) ++ d :: ys := by
      rw [List.append_assoc, List.singleton_append]
    obtain ⟨hnodup, -, -⟩ := Holds.nodup_flatten_cons.mp h.holds.nodup
    have hout : clst ∉ d :: ys :=
      (List.nodup_cons.mp (List.nodup_append'.mp hnodup).2.1).1
    rw [hassoc] at h'
    obtain ⟨fs', hrun, hed', hcount⟩ := remove_spec clst h'
      (Or.inr ⟨hge, hn ▸ hlt, hout⟩)
    rw [← hassoc] at h'
    obtain ⟨-, hlink'⟩ := link_edits hed'
    have hfile : l ++ clst :: d :: ys ∈ ls ++ (l ++ clst :: d :: ys) :: rs :=
      List.mem_append_right _ List.mem_cons_self
    rw [if_pos ⟨rfl, hd⟩, hnext]
    rw [hn] at hrun
    refine ⟨fs', hrun, hed.beside.trans hed'.beside, h'.give hed' ?_ ?_ hcount⟩
    · apply h'.holds.cut
      · rw [hlink' clst (hn ▸ hlt), if_neg hout, if_pos ⟨by omega, rfl⟩]
        exact h'.linkOf_last
      · intro c hc
        have hmem : c ∈ l ++ clst :: d :: ys :=
          List.mem_append_right _ (List.mem_cons_of_mem _ hc)
        rw [hlink' c (h'.cluster (List.mem_flatten_of_mem hfile hmem)).2, if_pos hc]
        rfl
      · intro c hc hca hnot
        rw [hlink' c (mem_clusters.mp hc).2, if_neg hnot, if_neg fun hp => hca hp.2]
        rfl
    · simp only [List.flatten_append, List.flatten_cons, List.length_append, List.length_cons,
        List.length_nil]
      omega

end Holding

/-- A call did what it is for: the cluster is new or the next one of the file, or all clusters of
the volume are in files; and clusters were freed without an error. -/
def Event.Served (n : ℕ) (files : List (List ℕ)) : Event → Prop
  | .create r => IsCluster r ∨ r = 0 ∧ files.flatten.length = n - 2
  | .stretch clst r =>
    IsCluster r ∧ (∀ l ys, l ++ clst :: ys ∈ files → ∀ d ∈ ys.head?, r = d) ∨
      r = 0 ∧ files.flatten.length = n - 2
  | .truncate _ res => res = .ok
  | .remove _ res => res = .ok

/-- A cluster is at one place in one file. -/
theorem Holding.place_unique (h : Holding io content size fs (ls ++ (l ++ clst :: ys) :: rs))
    {l' ys' : List ℕ} (hfile : l' ++ clst :: ys' ∈ ls ++ (l ++ clst :: ys) :: rs) : ys' = ys := by
  obtain ⟨hnodup, -, hfresh⟩ := Holds.nodup_flatten_cons.mp h.holds.nodup
  have hclst : clst ∈ l' ++ clst :: ys' := List.mem_append_right _ List.mem_cons_self
  have hsame : l' ++ clst :: ys' = l ++ clst :: ys := by
    by_contra hne
    have hother : l' ++ clst :: ys' ∈ ls ++ rs := by
      rcases List.mem_append.mp hfile with hl | hr
      · exact List.mem_append_left _ hl
      · rcases List.mem_cons.mp hr with heq | hr
        · exact absurd heq hne
        · exact List.mem_append_right _ hr
    exact hfresh clst (List.mem_append_right _ List.mem_cons_self)
      (List.mem_flatten_of_mem hother hclst)
  obtain ⟨-, hclys, hdisj⟩ := List.nodup_append'.mp hnodup
  have hl : clst ∉ l := fun hmem => hdisj hmem List.mem_cons_self
  have hys : clst ∉ ys := (List.nodup_cons.mp hclys).1
  exact ((List.append_cons_inj_of_notMem hl hys).mp hsame.symm).2.2.symm

/-- A call keeps the chains, does what it is for, and leaves the rest of the disk. -/
theorem step_holding {e : Event} {files' : List (List ℕ)}
    (hstep : Step io (fs, files) e (fs', files')) (h : Holding io content size fs files) :
    Holding io content size fs' files' ∧ Beside content size fs fs' ∧
      e.Served fs.nFatent files := by
  cases hstep with
  | create run =>
    obtain ⟨r, fs₁, hrun, hbeside, hnew, hserved⟩ := h.create
    obtain ⟨rfl, rfl⟩ := Prod.mk.inj (Option.some.inj (hrun.symm.trans run))
    exact ⟨hnew, hbeside, hserved⟩
  | @stretch _ _ ls rs l ys clst r run =>
    obtain ⟨r', fs₁, hrun, hbeside, hnew, hserved⟩ := h.stretch
    obtain ⟨rfl, rfl⟩ := Prod.mk.inj (Option.some.inj (hrun.symm.trans run))
    refine ⟨hnew, hbeside, hserved.imp_left fun hcl => ⟨hcl.1, fun l' ys' hfile => ?_⟩⟩
    rw [h.place_unique hfile]
    exact hcl.2
  | truncate run =>
    obtain ⟨fs₁, hrun, hbeside, hnew⟩ := h.truncate
    obtain ⟨rfl, rfl⟩ := Prod.mk.inj (Option.some.inj (hrun.symm.trans run))
    rw [if_pos rfl]
    exact ⟨hnew, hbeside, rfl⟩
  | remove run =>
    obtain ⟨fs₁, hrun, hbeside, hnew⟩ := h.remove
    obtain ⟨rfl, rfl⟩ := Prod.mk.inj (Option.some.inj (hrun.symm.trans run))
    rw [if_pos rfl]
    exact ⟨hnew, hbeside, rfl⟩

/-- Every call for a file ends. -/
theorem Holding.progress (h : Holding io content size fs files) :
    (∃ r t, Step io (fs, files) (.create r) t) ∧
      ∀ l clst ys, l ++ clst :: ys ∈ files →
        (∃ r t, Step io (fs, files) (.stretch clst r) t) ∧
        (∃ res t, Step io (fs, files) (.truncate clst res) t) ∧
        (l = [] → ∃ res t, Step io (fs, files) (.remove clst res) t) := by
  constructor
  · obtain ⟨r, fs₁, hrun, -⟩ := h.create
    exact ⟨r, _, .create hrun⟩
  · intro l clst ys hfile
    obtain ⟨ls, rs, rfl⟩ := List.append_of_mem hfile
    refine ⟨?_, ?_, ?_⟩
    · obtain ⟨r, fs₁, hrun, -⟩ := h.stretch
      exact ⟨r, _, .stretch hrun⟩
    · obtain ⟨fs₁, hrun, -⟩ := h.truncate
      exact ⟨.ok, _, .truncate hrun⟩
    · rintro rfl
      obtain ⟨fs₁, hrun, -⟩ := h.remove
      exact ⟨.ok, _, .remove hrun⟩

/-- **No cluster is in two files, and no cluster is lost.** After any calls for the files the FAT
has the chains that the callers know and no others, the number of free clusters is right, and every
call did what it is for; the rest of the disk is as it was, the second FAT is a copy, and every
further call ends. -/
theorem files_run {fs₀ : FatFs σ} {files₀ : List (List ℕ)}
    {trace : List (Transition (FatFs σ × List (List ℕ)) Event)}
    (run : Reaches (Traced (Step io)) (fs₀, files₀) trace (fs, files))
    (h : Holding io content size fs₀ files₀) :
    Holding io content size fs files ∧ Beside content size fs₀ fs ∧
      (∀ t ∈ trace, t.label.Served fs₀.nFatent t.before.2) ∧
      (∃ r t, Step io (fs, files) (.create r) t) ∧
      ∀ l clst ys, l ++ clst :: ys ∈ files →
        (∃ r t, Step io (fs, files) (.stretch clst r) t) ∧
        (∃ res t, Step io (fs, files) (.truncate clst res) t) ∧
        (l = [] → ∃ res t, Step io (fs, files) (.remove clst res) t) := by
  have hinv : Holding io content size fs files ∧ Beside content size fs₀ fs ∧
      ∀ t ∈ trace, t.label.Served fs₀.nFatent t.before.2 := by
    refine run.invariant (I := fun trace s => Holding io content size s.1 s.2 ∧
      Beside content size fs₀ s.1 ∧ ∀ t ∈ trace, t.label.Served fs₀.nFatent t.before.2) ?_ ?_
    · exact ⟨h, Beside.refl fs₀, fun t ht => absurd ht List.not_mem_nil⟩
    · rintro trace ⟨fs₁, files₁⟩ t ⟨fs₂, files₂⟩ ⟨hold, hbeside, hserved⟩ ⟨hbefore, -, hstep⟩
      obtain ⟨hold', hbeside', hserved'⟩ := step_holding hstep hold
      have hn : fs₁.nFatent = fs₀.nFatent := congrArg Volume.nFatent hbeside.volume
      refine ⟨hold', hbeside.trans hbeside', List.forall_mem_cons.mpr ⟨?_, hserved⟩⟩
      rw [hbefore, ← hn]
      exact hserved'
  exact ⟨hinv.1, hinv.2.1, hinv.2.2, hinv.1.progress⟩

/-- A FAT that has zeros only has no files. -/
theorem Ready.holding_nil (h : Ready io content size fs) (hzero : ∀ b, fs.fatByte content b = 0)
    (hfree : fs.nFatent - 2 < fs.freeClst) : Holding io content size fs [] := by
  have hentry : ∀ c, fs.entry content c = 0 := by
    intro c
    have hodd : ((0#8 ++ 0#8 : BitVec 16) >>> 4).toNat = 0 := by decide
    have heven : ((0#8 ++ 0#8 : BitVec 16) &&& 0xFFF#16).toNat = 0 := by decide
    have hword : (0#8 ++ 0#8 : BitVec 16).toNat = 0 := by decide
    have hdword : ((0#8 ++ 0#8 ++ 0#8 ++ 0#8 : BitVec 32) &&& 0x0FFFFFFF#32).toNat = 0 := by decide
    have hnone := h.sound.two_lt
    have hmax := h.sound.nFatent_le
    rw [FatFs.entry, funext hzero]
    cases hty : fs.fsType with
    | fat12 => exact (if_congr Iff.rfl hodd heven).trans (ite_self 0)
    | fat16 => exact hword
    | fat32 => exact hdword
    | unmounted =>
      rw [hty, FsType.maxEntries] at hmax
      omega
  refine ⟨h, ⟨List.nodup_nil, ?_, fun c => ?_⟩, ?_⟩
  · exact fun l hl => absurd hl List.not_mem_nil
  · refine iff_of_false List.not_mem_nil fun hused => hused.2 ?_
    exact linkOf_eq_free.mpr (hentry c)
  · exact fun hle => absurd hle (Nat.not_le_of_lt hfree)

/-- A volume without files, on a drive that has zeros only. -/
theorem emptyVolume_holding :
    Holding driveDisk driveContent (2 ^ 28)
      (freshVolume smallVolume ⟨fun _ _ => 0, fun _ => 0, .idle⟩) [] := by
  have hready : Ready driveDisk driveContent (2 ^ 28)
      (freshVolume smallVolume ⟨fun _ _ => 0, fun _ => 0, .idle⟩) :=
    ⟨driveDisk_lawful, driveDisk_reliable, smallVolume_sound,
      freshVolume_coherent (by decide) (by decide)⟩
  apply hready.holding_nil
  · intro b
    rw [FatFs.fatByte, FatFs.view_of_clean rfl]
    exact BitVec.extractLsb'_zero
  · decide

theorem files_run_create : ∃ r fs, createChain driveDisk 5 0
      (freshVolume smallVolume ⟨fun _ _ => 0, fun _ => 0, .idle⟩) = some (r, fs) ∧
    Holding driveDisk driveContent (2 ^ 28) fs [[r]] := by
  obtain ⟨r, fs, hrun, -⟩ := emptyVolume_holding.create
  have run : Reaches (Traced (Step driveDisk)) (_, [])
      [⟨(_, []), .create r, (fs, if IsCluster r then [[r]] else [])⟩]
      (fs, if IsCluster r then [[r]] else []) := .snoc .start ⟨rfl, rfl, .create hrun⟩
  obtain ⟨hold, -, hserved, -⟩ := files_run run emptyVolume_holding
  refine ⟨r, fs, hrun, ?_⟩
  rcases hserved _ List.mem_cons_self with hcl | ⟨-, hfull⟩
  · rwa [if_pos hcl] at hold
  · have hempty : 0 = 2 := hfull
    exact absurd hempty (by decide)

end Spec

end OpenIDP.Fat
