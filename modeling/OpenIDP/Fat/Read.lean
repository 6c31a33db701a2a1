import OpenIDP.Fat.Mount
import OpenIDP.Fat.Files
import OpenIDP.Math.Word

/-!
# Reading a file

The kernel opens files for reading only. `f_read` and `f_lseek` of `src/drivers/fatfs/ff.c` follow
the clusters of the file through the FAT, read whole sectors into the buffer of the caller, and the
rest through the buffer of the file object. What they give is the file as it is on the disk: the
bytes of its clusters in their order, as many as its directory entry says.

## Main definitions

* `Fil` — the file object
* `fRead`, `fLseek` — the functions of `ff.c`
* `FatFs.fileByte` — a byte of a file
* `Readable`, `Positioned` — a file on a volume, and an object that is somewhere in it

## Main results

* `readTurn_spec` — a turn of the loop of `f_read`
* `seek_spec` — the loop of `f_lseek` stops in the cluster of the byte before the offset
* `reads_run` — any sequence of `f_lseek` and `f_read` reads the file
* `Holding.readable` — the files of a mounted volume can be read
-/

namespace OpenIDP.Fat

open OpenIDP.Math

/-- `FIL` of a file that is open for reading, so that its buffer is never dirty. -/
structure Fil where
  sclust : ℕ
  objsize : ℕ
  err : FResult
  fptr : ℕ
  clust : ℕ
  sect : ℕ
  buf : Sector

/-- What `f_open` makes of the directory entry of a file. -/
def Fil.opened (sclust objsize clust : ℕ) : Fil :=
  ⟨sclust, objsize, .ok, 0, clust, 0, fun _ => 0⟩

/-- `n` bytes of a sector, from an offset on. -/
def bytesOf (buf : Sector) (o n : ℕ) : List (BitVec 8) :=
  (List.range n).map fun k => buf (Fin.ofNat 512 (o + k))

section Code

variable {σ : Type} (io : DiskIo σ)

/-- `disk_read` of some sectors. -/
def readSectors : ℕ → ℕ → σ → Bool × List (BitVec 8) × σ
  | 0, _, disk => (true, [], disk)
  | n + 1, sect, disk =>
    let r := io.read disk sect
    let rest := readSectors n (wrap32 (sect + 1)) r.2.2
    (r.1 && rest.1, bytesOf r.2.1 0 512 ++ rest.2.1, rest.2.2)

/-- The part of `f_read` that goes on to the next cluster where one begins. -/
def currentCluster (csect : ℕ) (fp : Fil) (fs : FatFs σ) : Except FResult ℕ × FatFs σ :=
  if csect = 0 then
    let (clst, fs₁) := if fp.fptr = 0 then (fp.sclust, fs) else getFat io fp.clust fs
    if clst < 2 then (.error .intErr, fs₁)
    else if clst = 0xFFFFFFFF then (.error .diskErr, fs₁)
    else (.ok clst, fs₁)
  else (.ok fp.clust, fs)

/-- The part of `f_read` that copies from the buffer of the object. -/
def copyOut (btr : ℕ) (fp : Fil) : List (BitVec 8) :=
  bytesOf fp.buf (fp.fptr % 512) (min (512 - fp.fptr % 512) btr)

/-- The part of `f_read` at the start of a sector: as many sectors of the cluster as possible are
read at once, and when less than a sector is left the buffer is filled. -/
def readSector (btr csect : ℕ) (fp : Fil) (fs : FatFs σ) :
    Except FResult (List (BitVec 8)) × Fil × FatFs σ :=
  let first := clst2sect fs.toVolume fp.clust
  if first = 0 then (.error .intErr, fp, fs)
  else
    let sect := wrap32 (first + csect)
    if 0 < btr / 512 then
      -- no further than the end of the cluster
      let cc := if fs.csize < csect + btr / 512 then fs.csize - csect else btr / 512
      let r := readSectors io cc sect fs.disk
      (if r.1 then .ok r.2.1 else .error .diskErr, fp, { fs with disk := r.2.2 })
    else if fp.sect ≠ sect then
      let r := io.read fs.disk sect
      let fp₁ := { fp with buf := r.2.1 }
      if r.1 then (.ok (copyOut btr fp₁), { fp₁ with sect := sect }, { fs with disk := r.2.2 })
      else (.error .diskErr, fp₁, { fs with disk := r.2.2 })
    else (.ok (copyOut btr fp), fp, fs)

/-- A turn of the loop of `f_read`: what is read, before the pointer is moved. -/
def readTurn (btr : ℕ) (fp : Fil) (fs : FatFs σ) :
    Except FResult (List (BitVec 8)) × Fil × FatFs σ :=
  if fp.fptr % 512 = 0 then
    let csect := fp.fptr / 512 &&& (fs.csize - 1)
    match currentCluster io csect fp fs with
    | (.error res, fs₁) => (.error res, fp, fs₁)
    | (.ok clst, fs₁) => readSector io btr csect { fp with clust := clst } fs₁
  else (.ok (copyOut btr fp), fp, fs)

/-- The loop of `f_read`. -/
def readLoop : ℕ → ℕ → Fil → FatFs σ → Option (FResult × List (BitVec 8) × Fil × FatFs σ)
  | 0, btr, fp, fs => if btr = 0 then some (.ok, [], fp, fs) else none
  | fuel + 1, btr, fp, fs =>
    if btr = 0 then some (.ok, [], fp, fs)
    else
      match readTurn io btr fp fs with
      | (.error res, fp₁, fs₁) => some (res, [], { fp₁ with err := res }, fs₁)
      | (.ok bytes, fp₁, fs₁) =>
        (readLoop fuel (btr - bytes.length) { fp₁ with fptr := fp₁.fptr + bytes.length } fs₁).map
          fun r => (r.1, bytes ++ r.2.1, r.2.2)

/-- `f_read`: the result, and what was read. -/
def fRead (btr : ℕ) (fp : Fil) (fs : FatFs σ) :
    Option (FResult × List (BitVec 8) × Fil × FatFs σ) :=
  if fp.err ≠ .ok then some (fp.err, [], fp, fs)
  else
    let n := min btr (sub32 fp.objsize fp.fptr)
    readLoop io n n fp fs

/-- The part of `f_lseek` that chooses the cluster to start from: the object is moved to the start
of this cluster, and the rest of the offset is returned. A file without a cluster gets one. -/
def seekStart (ofs : ℕ) (fp : Fil) (fs : FatFs σ) :
    Option (Except FResult ℕ × Fil × FatFs σ) :=
  let bcs := fs.csize * 512
  if 0 < fp.fptr ∧ (fp.fptr - 1) / bcs ≤ (ofs - 1) / bcs then
    let base := (fp.fptr - 1) &&& (2 ^ 32 - bcs)
    some (.ok (ofs - base), { fp with fptr := base }, fs)
  else if fp.sclust = 0 then
    (createChain io (fs.nFatent + 1) 0 fs).map fun r =>
      let fp₁ := { fp with fptr := 0 }
      if r.1 = 1 then (.error .intErr, fp₁, r.2)
      else if r.1 = 0xFFFFFFFF then (.error .diskErr, fp₁, r.2)
      else (.ok ofs, { fp₁ with sclust := r.1, clust := r.1 }, r.2)
  else some (.ok ofs, { fp with fptr := 0, clust := fp.sclust }, fs)

/-- The loop of `f_lseek` that follows the clusters. -/
def seekLoop : ℕ → ℕ → Fil → FatFs σ → Option (Except FResult ℕ × Fil × FatFs σ)
  | 0, _, _, _ => none
  | fuel + 1, ofs, fp, fs =>
    if ofs ≤ fs.csize * 512 then some (.ok ofs, fp, fs)
    else
      let fp₁ := { fp with fptr := fp.fptr + fs.csize * 512 }
      let (clst, fs₁) := getFat io fp.clust fs
      if clst = 0xFFFFFFFF then some (.error .diskErr, fp₁, fs₁)
      else if clst ≤ 1 ∨ fs₁.nFatent ≤ clst then some (.error .intErr, fp₁, fs₁)
      else seekLoop fuel (ofs - fs.csize * 512) { fp₁ with clust := clst } fs₁

/-- The end of `f_lseek`: the buffer is filled when the pointer is inside a sector. -/
def fillBuffer (nsect : ℕ) (fp : Fil) (fs : FatFs σ) : FResult × Fil × FatFs σ :=
  if fp.fptr % 512 ≠ 0 ∧ nsect ≠ fp.sect then
    let r := io.read fs.disk nsect
    if r.1 then (.ok, { fp with buf := r.2.1, sect := nsect }, { fs with disk := r.2.2 })
    else (.diskErr, { fp with buf := r.2.1, err := .diskErr }, { fs with disk := r.2.2 })
  else (.ok, fp, fs)

/-- The part of `f_lseek` behind its loop. -/
def seekEnd (ofs : ℕ) (fp : Fil) (fs : FatFs σ) : FResult × Fil × FatFs σ :=
  let fp₁ := { fp with fptr := fp.fptr + ofs }
  if ofs % 512 ≠ 0 then
    let first := clst2sect fs.toVolume fp.clust
    if first = 0 then (.intErr, { fp₁ with err := .intErr }, fs)
    else fillBuffer io (wrap32 (first + ofs / 512)) fp₁ fs
  else fillBuffer io 0 fp₁ fs

/-- `f_lseek` -/
def fLseek (ofs : ℕ) (fp : Fil) (fs : FatFs σ) : Option (FResult × Fil × FatFs σ) :=
  if fp.err ≠ .ok then some (fp.err, fp, fs)
  else
    -- a file that is open for reading is not made longer
    let ofs₁ := if fp.objsize < ofs then fp.objsize else ofs
    if ofs₁ = 0 then some (fillBuffer io 0 { fp with fptr := 0 } fs)
    else
      match seekStart io ofs₁ fp fs with
      | none => none
      | some (.error res, fp₁, fs₁) => some (res, { fp₁ with err := res }, fs₁)
      | some (.ok ofs₂, fp₁, fs₁) =>
        -- the volume was full when a cluster was taken
        if fp₁.clust = 0 then some (fillBuffer io 0 fp₁ fs₁)
        else
          match seekLoop io ofs₁ ofs₂ fp₁ fs₁ with
          | none => none
          | some (.error res, fp₂, fs₂) => some (res, { fp₂ with err := res }, fs₂)
          | some (.ok ofs₃, fp₂, fs₂) => some (seekEnd io ofs₃ fp₂ fs₂)

end Code

/-! ## Files -/

/-- The sector of a byte of the file with some clusters. -/
def Volume.sectorAt (v : Volume) (clusters : List ℕ) (i : ℕ) : ℕ :=
  v.database + v.csize * (clusters.getD (i / 512 / v.csize) 0 - 2) + i / 512 % v.csize

/-- A byte of the file with some clusters, as it is seen. -/
def FatFs.fileByte {σ : Type} (content : σ → ℕ → Sector) (fs : FatFs σ) (clusters : List ℕ)
    (i : ℕ) : BitVec 8 :=
  fs.view content (fs.sectorAt clusters i) (Fin.ofNat 512 i)

/-- `n` bytes of a file, from an offset on. -/
def FatFs.fileBytes {σ : Type} (content : σ → ℕ → Sector) (fs : FatFs σ) (clusters : List ℕ)
    (o n : ℕ) : List (BitVec 8) :=
  (List.range n).map fun k => fs.fileByte content clusters (o + k)

/-- A file with some clusters and a size, on a volume whose areas are behind one another. The window
is not about to change a cluster. -/
structure Readable {σ : Type} (io : DiskIo σ) (content : σ → ℕ → Sector) (size : ℕ) (fs : FatFs σ)
    (clusters : List ℕ) (objsize : ℕ) : Prop where
  ready : Ready io content size fs
  layout : fs.Layout size
  csize : ∃ k ≤ 16, fs.csize = 2 ^ k
  links : Links (fs.link content) clusters .last
  cluster : ∀ c ∈ clusters, 2 ≤ c ∧ c < fs.nFatent
  objsize_le : objsize ≤ clusters.length * (fs.csize * 512)
  objsize_lt : objsize < 2 ^ 32
  window : fs.wflag → fs.winsect < fs.database

/-- The volume is the same, and so are the sectors of the clusters as they are seen. -/
structure SameData {σ : Type} (content : σ → ℕ → Sector) (size : ℕ) (fs fs' : FatFs σ) : Prop where
  volume : fs'.toVolume = fs.toVolume
  view_eq : ∀ s, fs.database ≤ s → s < size → fs'.view content s = fs.view content s

/-- An object for a file, whose buffer has the sector that it says. -/
structure Opened {σ : Type} (content : σ → ℕ → Sector) (size : ℕ) (fs : FatFs σ)
    (clusters : List ℕ) (objsize : ℕ) (fp : Fil) : Prop where
  sclust : fp.sclust = clusters.getD 0 0
  objsize_eq : fp.objsize = objsize
  err : fp.err = .ok
  buffer : fp.sect ≠ 0 →
    fs.database ≤ fp.sect ∧ fp.sect < size ∧ fp.buf = fs.view content fp.sect

/-- An object is somewhere in its file: it has the cluster of the byte before the pointer, and
inside a sector this sector is in the buffer. -/
structure Positioned {σ : Type} (content : σ → ℕ → Sector) (size : ℕ) (fs : FatFs σ)
    (clusters : List ℕ) (objsize : ℕ) (fp : Fil) : Prop
    extends Opened content size fs clusters objsize fp where
  fptr_le : fp.fptr ≤ objsize
  clust : 0 < fp.fptr → clusters[(fp.fptr - 1) / 512 / fs.csize]? = some fp.clust
  sect : fp.fptr % 512 ≠ 0 → fp.sect = fs.sectorAt clusters fp.fptr

/-- An object on its way to `target`: it is at the start of a cluster, and `ofs` bytes are left. -/
structure Seeking {σ : Type} (content : σ → ℕ → Sector) (size : ℕ) (fs : FatFs σ)
    (clusters : List ℕ) (objsize target ofs : ℕ) (fp : Fil) : Prop
    extends Opened content size fs clusters objsize fp where
  aligned : fp.fptr % (fs.csize * 512) = 0
  target_eq : fp.fptr + ofs = target
  target_le : target ≤ objsize
  ofs_pos : 0 < ofs
  clust : clusters[fp.fptr / 512 / fs.csize]? = some fp.clust

/-- A call for an open file: the argument, and what is returned. -/
inductive ReadEvent
  | lseek (ofs : ℕ) (res : FResult)
  | read (btr : ℕ) (res : FResult) (bytes : List (BitVec 8))

/-- One call. -/
inductive ReadStep {σ : Type} (io : DiskIo σ) : FatFs σ × Fil → ReadEvent → FatFs σ × Fil → Prop
  | lseek {fs fs' : FatFs σ} {fp fp' : Fil} {ofs : ℕ} {res : FResult}
      (run : fLseek io ofs fp fs = some (res, fp', fs')) :
      ReadStep io (fs, fp) (.lseek ofs res) (fs', fp')
  | read {fs fs' : FatFs σ} {fp fp' : Fil} {btr : ℕ} {res : FResult} {bytes : List (BitVec 8)}
      (run : fRead io btr fp fs = some (res, bytes, fp', fs')) :
      ReadStep io (fs, fp) (.read btr res bytes) (fs', fp')

/-- What a call does for the file with the bytes `bytes o n`, from one pointer to another: `f_lseek`
moves the pointer, at most to the end, and `f_read` gives what is behind it. -/
def ReadEvent.Right (fileBytes : ℕ → ℕ → List (BitVec 8)) (objsize fptr fptr' : ℕ) :
    ReadEvent → Prop
  | lseek ofs res => res = .ok ∧ fptr' = min ofs objsize
  | read btr res bytes =>
    res = .ok ∧ bytes = fileBytes fptr (min btr (objsize - fptr)) ∧
      fptr' = fptr + min btr (objsize - fptr)

section Spec

variable {σ : Type} {io : DiskIo σ} {content : σ → ℕ → Sector} {size : ℕ}
  {fs fs₁ fs₂ : FatFs σ} {clusters : List ℕ} {objsize : ℕ} {fp : Fil} {disk : σ} {v : Volume}
  {buf : Sector} {i k n o s c : ℕ}

/-! ### Bytes and sectors -/

/-- The number before a multiple is in the block before. -/
theorem pred_div_add_one {q n : ℕ} (hq : q % n = 0) (hpos : 0 < q) : (q - 1) / n + 1 = q / n := by
  obtain ⟨m, rfl⟩ : ∃ m, q = m + 1 := ⟨q - 1, by omega⟩
  rw [Nat.add_sub_cancel, Nat.succ_div, if_pos (Nat.dvd_of_mod_eq_zero hq)]

/-- The number before another one is in the same block. -/
theorem pred_div {q n : ℕ} (hq : q % n ≠ 0) : (q - 1) / n = q / n := by
  obtain ⟨m, rfl⟩ : ∃ m, q = m + 1 := by
    refine ⟨q - 1, ?_⟩
    have hne : q ≠ 0 := fun hzero => hq (by rw [hzero, Nat.zero_mod])
    omega
  rw [Nat.add_sub_cancel, Nat.succ_div, if_neg fun hdvd => hq (Nat.mod_eq_zero_of_dvd hdvd),
    Nat.add_zero]

/-- Further on in a block. -/
theorem add_div_mod {q j n : ℕ} (h : q % n + j < n) :
    (q + j) / n = q / n ∧ (q + j) % n = q % n + j := by
  have hsum : q + j = n * (q / n) + (q % n + j) := by
    rw [← Nat.add_assoc, Nat.div_add_mod]
  constructor
  · rw [hsum, Nat.mul_add_div (by omega), Nat.div_eq_of_lt h, Nat.add_zero]
  · conv_lhs => rw [hsum]
    rw [Nat.mul_add_mod, Nat.mod_eq_of_lt h]

theorem fileBytes_append (content : σ → ℕ → Sector) (fs : FatFs σ) (clusters : List ℕ)
    (o m n : ℕ) : fs.fileBytes content clusters o (m + n) =
      fs.fileBytes content clusters o m ++ fs.fileBytes content clusters (o + m) n := by
  unfold FatFs.fileBytes
  rw [List.range_add, List.map_append, List.map_map]
  simp only [Function.comp_def, Nat.add_assoc]

theorem fileBytes_length (content : σ → ℕ → Sector) (fs : FatFs σ) (clusters : List ℕ) (o n : ℕ) :
    (fs.fileBytes content clusters o n).length = n := by
  rw [FatFs.fileBytes, List.length_map, List.length_range]

/-- A part of the whole file. -/
theorem fileBytes_drop_take (content : σ → ℕ → Sector) (fs : FatFs σ) (clusters : List ℕ)
    (objsize pos len : ℕ) :
    ((fs.fileBytes content clusters 0 objsize).drop pos).take len =
      fs.fileBytes content clusters (min pos objsize) (min len (objsize - min pos objsize)) := by
  have hlength := fileBytes_length content fs clusters
  rcases le_total pos objsize with hle | hle
  · have hfront := fileBytes_append content fs clusters 0 pos (objsize - pos)
    have hrest := fileBytes_append content fs clusters pos (min len (objsize - pos))
      (objsize - pos - min len (objsize - pos))
    rw [Nat.add_sub_cancel' hle, Nat.zero_add] at hfront
    rw [Nat.add_sub_cancel' (min_le_right _ _)] at hrest
    rw [min_eq_left hle, hfront, List.drop_left' (hlength 0 pos)]
    rcases le_total len (objsize - pos) with hin | hin
    · rw [min_eq_left hin] at hrest ⊢
      rw [hrest, List.take_left' (hlength pos len)]
    · rw [min_eq_right hin, List.take_of_length_le (by rw [hlength]; exact hin)]
  · rw [min_eq_right hle, Nat.sub_self, Nat.min_zero, List.drop_of_length_le (by rwa [hlength]),
      List.take_nil]
    rfl

/-- Some sectors further on in the same cluster. -/
theorem sectorAt_add (h : o / 512 % v.csize + k / 512 < v.csize) (ho : o % 512 = 0) :
    v.sectorAt clusters (o + k) = v.sectorAt clusters o + k / 512 := by
  have hdiv : (o + k) / 512 = o / 512 + k / 512 := by omega
  obtain ⟨hcluster, hsector⟩ := add_div_mod h
  unfold Volume.sectorAt
  rw [hdiv, hcluster, hsector, ← Nat.add_assoc]

/-- In the same sector. -/
theorem sectorAt_congr (h : i / 512 = k / 512) : v.sectorAt clusters i = v.sectorAt clusters k := by
  rw [Volume.sectorAt, Volume.sectorAt, h]

/-- Bytes of a buffer that has the sector of a byte. -/
theorem bytesOf_view (h : buf = fs.view content (fs.sectorAt clusters o))
    (hn : o % 512 + n ≤ 512) : bytesOf buf (o % 512) n = fs.fileBytes content clusters o n := by
  apply List.map_congr_left
  intro k hk
  have hlt := List.mem_range.mp hk
  have hat : fs.sectorAt clusters (o + k) = fs.sectorAt clusters o := sectorAt_congr (by omega)
  rw [FatFs.fileByte, hat, h]
  congr 1
  apply Fin.ext
  change (o % 512 + k) % 512 = (o + k) % 512
  omega

/-- Several sectors that are read at once. -/
theorem readSectors_spec (n s : ℕ) (disk : σ) (hlaw : io.Lawful content size)
    (hrel : io.Reliable size) (hs : s + n ≤ size) :
    (readSectors io n s disk).1 ∧
      (readSectors io n s disk).2.1 =
        (List.range (512 * n)).map (fun k => content disk (s + k / 512) (Fin.ofNat 512 k)) ∧
      content (readSectors io n s disk).2.2 = content disk := by
  induction n generalizing s disk with
  | zero => exact ⟨rfl, rfl, rfl⟩
  | succ n ih =>
    have hsize := hlaw.size_lt
    have hok := (hrel disk s (by omega)).1
    have hread := hlaw.read_eq disk s (by omega) hok
    have hsame := hlaw.content_read disk s
    have hnext : wrap32 (s + 1) = s + 1 := Nat.mod_eq_of_lt (by omega)
    obtain ⟨hok', hbytes, hsame'⟩ := ih (s + 1) (io.read disk s).2.2 (by omega)
    simp only [readSectors, hnext]
    refine ⟨by rw [hok, hok']; rfl, ?_, hsame'.trans hsame⟩
    rw [hbytes, hread, hsame, Nat.mul_succ, Nat.add_comm (512 * n), List.range_add, List.map_append,
      List.map_map]
    refine congrArg₂ (· ++ ·) ?_ ?_
    · apply List.map_congr_left
      intro k hk
      have hlt := List.mem_range.mp hk
      rw [Nat.zero_add, Nat.div_eq_of_lt hlt, Nat.add_zero]
    · apply List.map_congr_left
      intro k _
      change content disk (s + 1 + k / 512) (Fin.ofNat 512 k) =
        content disk (s + (512 + k) / 512) (Fin.ofNat 512 (512 + k))
      have hsect : s + (512 + k) / 512 = s + 1 + k / 512 := by omega
      rw [hsect]
      congr 1
      apply Fin.ext
      change k % 512 = (512 + k) % 512
      omega

/-! ### What does not change -/

theorem SameData.refl (fs : FatFs σ) : SameData content size fs fs := ⟨rfl, fun _ _ _ => rfl⟩

theorem SameData.trans (h : SameData content size fs fs₁) (h' : SameData content size fs₁ fs₂) :
    SameData content size fs fs₂ := by
  refine ⟨h'.volume.trans h.volume, fun s hs hlt => ?_⟩
  rw [h'.view_eq s (by rwa [h.volume]) hlt, h.view_eq s hs hlt]

/-- A window that `sync_window` leaves dirty was so before, and could not be written. -/
theorem syncWindow_dirty (h : (syncWindow io fs).2.wflag) :
    (syncWindow io fs).1 = .diskErr ∧ fs.wflag ∧ (syncWindow io fs).2.winsect = fs.winsect := by
  cases hw : fs.wflag with
  | false =>
    rw [syncWindow, hw] at h
    exact absurd (hw.symm.trans h) Bool.false_ne_true
  | true =>
    rw [syncWindow, if_pos hw] at h ⊢
    cases hok : (io.write fs.disk fs.winsect fs.win).1 with
    | false =>
      simp only [hok, Bool.false_eq_true, if_false]
      exact ⟨trivial, trivial, trivial⟩
    | true =>
      simp only [hok, if_true] at h
      split_ifs at h

/-- A window that `move_window` leaves dirty was so before. -/
theorem moveWindow_dirty (h : (moveWindow io s fs).2.wflag) :
    fs.wflag ∧ (moveWindow io s fs).2.winsect = fs.winsect := by
  unfold moveWindow at h ⊢
  split_ifs at h ⊢ with hs
  · have hsync := @syncWindow_dirty σ io fs
    generalize syncWindow io fs = r at h hsync ⊢
    obtain ⟨res, fs₁⟩ := r
    cases res with
    | ok =>
      -- the window is clean, and stays so when it gets another sector
      have hclean : fs₁.wflag := by
        dsimp only at h
        split_ifs at h <;> exact h
      exact absurd (hsync hclean).1.symm FResult.diskErr_ne_ok
    | diskErr => exact (hsync h).2
    | intErr => exact (hsync h).2
  · exact ⟨h, rfl⟩

/-- A window that is dirty after `get_fat` was so before. -/
theorem getFat_dirty (h : (getFat io c fs).2.wflag) :
    fs.wflag ∧ (getFat io c fs).2.winsect = fs.winsect := by
  by_cases hc : c < 2 ∨ fs.nFatent ≤ c
  · rw [getFat, if_pos hc] at h ⊢
    exact ⟨h, rfl⟩
  · rw [getFat, if_neg hc] at h ⊢
    cases hty : fs.fsType with
    | unmounted =>
      simp only [hty] at h ⊢
      exact ⟨h, trivial⟩
    | fat12 =>
      simp only [hty] at h ⊢
      generalize wrap32 (c + c / 2) = bc at h ⊢
      have hmove := @moveWindow_dirty σ io fs (wrap32 (fs.fatbase + bc / 512))
      generalize moveWindow io (wrap32 (fs.fatbase + bc / 512)) fs = r at h hmove ⊢
      obtain ⟨res, fs₁⟩ := r
      cases res with
      | diskErr => exact hmove h
      | intErr => exact hmove h
      | ok =>
        dsimp only at h hmove ⊢
        have hmove' := @moveWindow_dirty σ io fs₁ (wrap32 (fs₁.fatbase + (bc + 1) / 512))
        generalize moveWindow io (wrap32 (fs₁.fatbase + (bc + 1) / 512)) fs₁ = r' at h hmove' ⊢
        obtain ⟨res', fs₂⟩ := r'
        have hlast : fs₂.wflag → fs.wflag ∧ fs₂.winsect = fs.winsect := fun hd =>
          ⟨(hmove (hmove' hd).1).1, (hmove' hd).2.trans (hmove (hmove' hd).1).2⟩
        cases res' <;> exact hlast h
    | fat16 =>
      simp only [hty] at h ⊢
      have hmove := @moveWindow_dirty σ io fs (wrap32 (fs.fatbase + c / 256))
      generalize moveWindow io (wrap32 (fs.fatbase + c / 256)) fs = r at h hmove ⊢
      obtain ⟨res, fs₁⟩ := r
      cases res <;> exact hmove h
    | fat32 =>
      simp only [hty] at h ⊢
      have hmove := @moveWindow_dirty σ io fs (wrap32 (fs.fatbase + c / 128))
      generalize moveWindow io (wrap32 (fs.fatbase + c / 128)) fs = r at h hmove ⊢
      obtain ⟨res, fs₁⟩ := r
      cases res <;> exact hmove h

namespace Readable

/-- A sector of the clusters is on the disk as it is seen. -/
theorem view_eq (h : Readable io content size fs clusters objsize) (hs : fs.database ≤ s) :
    fs.view content s = content fs.disk s :=
  if_neg fun hd => absurd (h.window hd.1) (by omega)

/-- What is read from the disk does not change it. -/
theorem withDisk (h : Readable io content size fs clusters objsize)
    (hsame : content disk = content fs.disk) :
    Readable io content size { fs with disk := disk } clusters objsize ∧
      SameData content size fs { fs with disk := disk } := by
  have hview : FatFs.view content { fs with disk := disk } = FatFs.view content fs := by
    funext s
    unfold FatFs.view
    rw [hsame]
  have hlink : FatFs.link content { fs with disk := disk } = FatFs.link content fs := by
    funext c
    unfold FatFs.link FatFs.entry FatFs.fatByte
    rw [hview]
  have hcoherent := h.ready.coherent
  refine ⟨⟨⟨h.ready.lawful, h.ready.reliable, h.ready.sound, hcoherent.fats, fun hclean hw => ?_,
    hcoherent.dirty⟩, h.layout, h.csize, hlink ▸ h.links, h.cluster, h.objsize_le, h.objsize_lt,
    h.window⟩, rfl, fun s _ _ => congrFun hview s⟩
  exact (hcoherent.clean hclean hw).trans (congrFun hsame.symm _)

/-- A sector of the clusters is read as it is seen. -/
theorem read (h : Readable io content size fs clusters objsize) (hs : fs.database ≤ s)
    (hlt : s < size) :
    (io.read fs.disk s).1 ∧ (io.read fs.disk s).2.1 = fs.view content s ∧
      content (io.read fs.disk s).2.2 = content fs.disk := by
  have hok := (h.ready.reliable fs.disk s hlt).1
  exact ⟨hok, (h.ready.lawful.read_eq fs.disk s hlt hok).trans (h.view_eq hs).symm,
    h.ready.lawful.content_read fs.disk s⟩

theorem csize_pos (h : Readable io content size fs clusters objsize) : 0 < fs.csize := by
  obtain ⟨k, -, hk⟩ := h.csize
  exact hk ▸ Nat.two_pow_pos k

/-- The sector of a byte is one of the clusters. -/
theorem sectorAt_bounds (h : Readable io content size fs clusters objsize) (hi : i < objsize) :
    ∃ c, clusters[i / 512 / fs.csize]? = some c ∧ 2 ≤ c ∧ c < fs.nFatent ∧
      fs.sectorAt clusters i = fs.database + fs.csize * (c - 2) + i / 512 % fs.csize ∧
      fs.database + fs.csize * (c - 2) + fs.csize ≤ size := by
  have hpos := h.csize_pos
  have hlt : i / 512 / fs.csize < clusters.length := by
    rw [Nat.div_div_eq_div_mul]
    apply Nat.div_lt_of_lt_mul
    have hle := h.objsize_le
    rw [Nat.mul_comm 512, Nat.mul_comm]
    omega
  have hget : clusters[i / 512 / fs.csize]? = some clusters[i / 512 / fs.csize] :=
    List.getElem?_eq_getElem hlt
  obtain ⟨hge, hcl⟩ := h.cluster _ (List.getElem_mem hlt)
  refine ⟨_, hget, hge, hcl, ?_, (cluster_end_le hge hcl).trans h.layout.data⟩
  rw [Volume.sectorAt, List.getD_eq_getElem?_getD, hget]
  rfl

/-- `get_fat` gives the next cluster of the file. -/
theorem getFat_next (h : Readable io content size fs clusters objsize)
    (hc : clusters[i]? = some c) {d : ℕ} (hd : clusters[i + 1]? = some d) :
    (getFat io c fs).1 = d ∧ Readable io content size (getFat io c fs).2 clusters objsize ∧
      SameData content size fs (getFat io c fs).2 := by
  obtain ⟨hge, hlt⟩ := h.cluster c (List.mem_of_getElem? hc)
  obtain ⟨hval, hed, -⟩ := h.ready.getFat hge hlt
  have hnext : fs.link content c = .next d := h.links.next hc hd
  rw [FatFs.link] at hnext
  have hentry := (linkOf_eq_next.mp hnext).1
  have hv := hed.volume
  have hlink : ∀ a ∈ clusters, (getFat io c fs).2.link content a = fs.link content a := by
    intro a ha
    rw [FatFs.link, FatFs.link, hed.entry_eq a (h.cluster a ha).2, hv]
  have hreserved := h.layout.reserved
  have hfats := h.layout.fats
  have hsame : SameData content size fs (getFat io c fs).2 := by
    refine ⟨hv, fun s hs hlt => hed.outside s hlt (fun hsecond => ?_) fun hfirst => ?_⟩
    · have hbehind := hsecond.2.2
      rw [hsecond.1] at hfats
      omega
    · rcases h.ready.sound.nFats with hn | hn <;> rw [hn] at hfats <;> omega
  refine ⟨hval.trans hentry, ⟨hed.ready h.ready, hv ▸ h.layout, hv ▸ h.csize,
    h.links.congr hlink, hv ▸ h.cluster, hv ▸ h.objsize_le, h.objsize_lt, fun hd => ?_⟩, hsame⟩
  obtain ⟨hdirty, hsect⟩ := getFat_dirty hd
  rw [hsect, hv]
  exact h.window hdirty

/-- The sector of a cluster. -/
theorem clst2sect_eq (h : Readable io content size fs clusters objsize) (hge : 2 ≤ c)
    (hlt : c < fs.nFatent) : clst2sect fs.toVolume c = fs.database + fs.csize * (c - 2) := by
  have hdata := h.layout.data
  have hsize := h.ready.lawful.size_lt
  exact Fat.clst2sect_eq (by omega) h.csize_pos hge hlt

/-- No cluster has the number that stands for an error of the disk. -/
theorem nFatent_lt (h : Readable io content size fs clusters objsize) :
    fs.nFatent < 0xFFFFFFFF := by
  have hle := h.ready.sound.nFatent_le
  cases hty : fs.fsType <;> rw [hty] at hle <;> dsimp only [FsType.maxEntries] at hle <;> omega

theorem database_pos (h : Readable io content size fs clusters objsize) : 0 < fs.database := by
  have hreserved := h.layout.reserved
  have hfats := h.layout.fats
  omega

/-- The mask of `f_read` is a remainder. -/
theorem and_csize (h : Readable io content size fs clusters objsize) (n : ℕ) :
    n &&& (fs.csize - 1) = n % fs.csize := by
  obtain ⟨k, -, hk⟩ := h.csize
  rw [hk, Nat.and_two_pow_sub_one_eq_mod]

end Readable

/-- The bytes of the file are the same. -/
theorem SameData.fileBytes_eq (hsame : SameData content size fs fs₁)
    (h : Readable io content size fs clusters objsize) (hle : o + n ≤ objsize) :
    fs₁.fileBytes content clusters o n = fs.fileBytes content clusters o n := by
  apply List.map_congr_left
  intro k hk
  have hlt := List.mem_range.mp hk
  obtain ⟨c, -, -, -, hat, hend⟩ := h.sectorAt_bounds (i := o + k) (by omega)
  have hmod := Nat.mod_lt ((o + k) / 512) h.csize_pos
  rw [FatFs.fileByte, FatFs.fileByte, hsame.volume, hsame.view_eq _ (by omega) (by omega)]

/-- What is known of an object does not depend on the window. -/
theorem Opened.congr (hp : Opened content size fs clusters objsize fp)
    (hsame : SameData content size fs fs₁) : Opened content size fs₁ clusters objsize fp := by
  refine ⟨hp.sclust, hp.objsize_eq, hp.err, fun hne => ?_⟩
  obtain ⟨hge, hlt, hbuf⟩ := hp.buffer hne
  rw [hsame.volume, hsame.view_eq _ hge hlt]
  exact ⟨hge, hlt, hbuf⟩

theorem Positioned.congr (hp : Positioned content size fs clusters objsize fp)
    (hsame : SameData content size fs fs₁) :
    Positioned content size fs₁ clusters objsize fp := by
  have hv := hsame.volume
  exact ⟨hp.toOpened.congr hsame, hp.fptr_le, hv ▸ hp.clust, hv ▸ hp.sect⟩

/-! ### A turn of `f_read` -/

/-- `f_read` goes on to the cluster of the byte at the pointer. -/
theorem currentCluster_spec (h : Readable io content size fs clusters objsize)
    (hp : Positioned content size fs clusters objsize fp) (hlt : fp.fptr < objsize)
    (hsec : fp.fptr % 512 = 0) :
    ∃ clst fs₁, currentCluster io (fp.fptr / 512 % fs.csize) fp fs = (.ok clst, fs₁) ∧
      clusters[fp.fptr / 512 / fs.csize]? = some clst ∧
      Readable io content size fs₁ clusters objsize ∧ SameData content size fs fs₁ := by
  obtain ⟨c, hc, hge, hcl, -⟩ := h.sectorAt_bounds hlt
  have hmax := h.nFatent_lt
  unfold currentCluster
  by_cases hfirst : fp.fptr / 512 % fs.csize = 0
  · rw [if_pos hfirst]
    by_cases hzero : fp.fptr = 0
    · have hstart : fp.sclust = c := by
        rw [hzero, Nat.zero_div] at hc
        rw [hp.sclust, List.getD_eq_getElem?_getD, hc]
        rfl
      simp only [if_pos hzero, hstart]
      rw [if_neg (by omega), if_neg (by omega)]
      exact ⟨c, fs, rfl, hc, h, .refl fs⟩
    · -- the byte before the pointer is in the cluster before this one
      have hsect : (fp.fptr - 1) / 512 = fp.fptr / 512 - 1 := by omega
      have hbefore : (fp.fptr - 1) / 512 / fs.csize + 1 = fp.fptr / 512 / fs.csize := by
        rw [hsect]
        exact pred_div_add_one hfirst (by omega)
      have hclust := hp.clust (by omega)
      rw [← hbefore] at hc
      obtain ⟨hval, hr, hsame⟩ := h.getFat_next hclust hc
      simp only [if_neg hzero, hval]
      rw [if_neg (by omega), if_neg (by omega)]
      exact ⟨c, _, rfl, hbefore ▸ hc, hr, hsame⟩
  · rw [if_neg hfirst]
    have hptr : fp.fptr / 512 ≠ 0 := fun hzero => hfirst (by rw [hzero, Nat.zero_mod])
    have hsect : (fp.fptr - 1) / 512 = fp.fptr / 512 - 1 := by omega
    have hsame : (fp.fptr - 1) / 512 / fs.csize = fp.fptr / 512 / fs.csize := by
      rw [hsect]
      exact pred_div hfirst
    exact ⟨fp.clust, fs, rfl, hsame ▸ hp.clust (by omega), h, .refl fs⟩

/-- What a turn of the loop of `f_read` gives. -/
structure Turn {σ : Type} (io : DiskIo σ) (content : σ → ℕ → Sector) (size : ℕ) (fs : FatFs σ)
    (clusters : List ℕ) (objsize btr fptr : ℕ)
    (r : Except FResult (List (BitVec 8)) × Fil × FatFs σ) (bytes : List (BitVec 8)) : Prop where
  result : r.1 = .ok bytes
  bytes_eq : bytes = fs.fileBytes content clusters fptr bytes.length
  length_pos : 0 < bytes.length
  length_le : bytes.length ≤ btr
  readable : Readable io content size r.2.2 clusters objsize
  same : SameData content size fs r.2.2
  positioned : Positioned content size r.2.2 clusters objsize
    { r.2.1 with fptr := r.2.1.fptr + bytes.length }
  fptr_eq : r.2.1.fptr = fptr

/-- A part of the sector in the buffer is copied. -/
theorem copyOut_turn (fp : Fil) {btr : ℕ} (h : Readable io content size fs clusters objsize)
    (hsclust : fp.sclust = clusters.getD 0 0) (hobjsize : fp.objsize = objsize)
    (herr : fp.err = .ok) (hclust : clusters[fp.fptr / 512 / fs.csize]? = some fp.clust)
    (hsect : fp.sect = fs.sectorAt clusters fp.fptr)
    (hbuf : fp.buf = fs.view content (fs.sectorAt clusters fp.fptr))
    (hbtr : 0 < btr) (hle : fp.fptr + btr ≤ objsize) :
    Turn io content size fs clusters objsize btr fp.fptr (.ok (copyOut btr fp), fp, fs)
      (copyOut btr fp) := by
  have hlen : (copyOut btr fp).length = min (512 - fp.fptr % 512) btr := by
    rw [copyOut, bytesOf, List.length_map, List.length_range]
  obtain ⟨c, -, -, -, hat, hend⟩ := h.sectorAt_bounds (i := fp.fptr) (by omega)
  have hmod := Nat.mod_lt (fp.fptr / 512) h.csize_pos
  refine ⟨rfl, ?_, by omega, by omega, h, .refl fs, ?_, rfl⟩
  · rw [hlen]
    exact bytesOf_view hbuf (by omega)
  · rw [hlen]
    refine ⟨⟨hsclust, hobjsize, herr, fun _ => ?_⟩, ?_, fun _ => ?_, fun hne => ?_⟩
    · change fs.database ≤ fp.sect ∧ fp.sect < size ∧ fp.buf = fs.view content fp.sect
      rw [hsect]
      exact ⟨by omega, by omega, hbuf⟩
    · change fp.fptr + min (512 - fp.fptr % 512) btr ≤ objsize
      omega
    · change clusters[(fp.fptr + min (512 - fp.fptr % 512) btr - 1) / 512 / fs.csize]? = _
      have hsame : (fp.fptr + min (512 - fp.fptr % 512) btr - 1) / 512 = fp.fptr / 512 := by omega
      rwa [hsame]
    · change (fp.fptr + min (512 - fp.fptr % 512) btr) % 512 ≠ 0 at hne
      change fp.sect = fs.sectorAt clusters (fp.fptr + min (512 - fp.fptr % 512) btr)
      rw [hsect]
      exact sectorAt_congr (by omega)

/-- What was done before a turn does not matter when the clusters are seen as they were. -/
theorem Turn.after {btr fptr : ℕ} {r : Except FResult (List (BitVec 8)) × Fil × FatFs σ}
    {bytes : List (BitVec 8)}
    (hturn : Turn io content size fs₁ clusters objsize btr fptr r bytes)
    (h : Readable io content size fs clusters objsize) (hsame : SameData content size fs fs₁)
    (hle : fptr + btr ≤ objsize) : Turn io content size fs clusters objsize btr fptr r bytes := by
  have hlen := (Nat.add_le_add_left hturn.length_le fptr).trans hle
  exact { hturn with
    bytes_eq := hturn.bytes_eq.trans (hsame.fileBytes_eq h hlen)
    same := hsame.trans hturn.same }

/-- Whole sectors are read, not further than to the end of the cluster. -/
theorem wholeSectors_turn {btr cc clst : ℕ} (h : Readable io content size fs clusters objsize)
    (hp : Positioned content size fs clusters objsize fp)
    (hclust : clusters[fp.fptr / 512 / fs.csize]? = some clst) (hsec : fp.fptr % 512 = 0)
    (hpos : 0 < cc) (hbtr : cc ≤ btr / 512) (hin : fp.fptr / 512 % fs.csize + cc ≤ fs.csize)
    (hle : fp.fptr + btr ≤ objsize) :
    Turn io content size fs clusters objsize btr fp.fptr
      (if (readSectors io cc (fs.sectorAt clusters fp.fptr) fs.disk).1 then
          .ok (readSectors io cc (fs.sectorAt clusters fp.fptr) fs.disk).2.1
        else .error .diskErr,
        { fp with clust := clst },
        { fs with disk := (readSectors io cc (fs.sectorAt clusters fp.fptr) fs.disk).2.2 })
      (fs.fileBytes content clusters fp.fptr (512 * cc)) := by
  obtain ⟨c, -, -, -, hat, hend⟩ := h.sectorAt_bounds (i := fp.fptr) (by omega)
  obtain ⟨hok, hbytes, hdisk⟩ := readSectors_spec cc (fs.sectorAt clusters fp.fptr) fs.disk
    h.ready.lawful h.ready.reliable (by omega)
  obtain ⟨hr, hsame⟩ := h.withDisk hdisk
  have hread : (readSectors io cc (fs.sectorAt clusters fp.fptr) fs.disk).2.1 =
      fs.fileBytes content clusters fp.fptr (512 * cc) := by
    rw [hbytes]
    apply List.map_congr_left
    intro k hk
    have hlt := List.mem_range.mp hk
    rw [FatFs.fileByte, sectorAt_add (by omega) hsec, h.view_eq (by omega)]
    congr 1
    apply Fin.ext
    change k % 512 = (fp.fptr + k) % 512
    omega
  have hlen := fileBytes_length content fs clusters fp.fptr (512 * cc)
  refine ⟨?_, ?_, by omega, by omega, hr, hsame, ?_, rfl⟩
  · rw [if_pos hok, hread]
  · rw [hlen]
  · rw [hlen]
    refine ⟨⟨hp.sclust, hp.objsize_eq, hp.err, (hp.congr hsame).buffer⟩, ?_, fun _ => ?_,
      fun hne => ?_⟩
    · change fp.fptr + 512 * cc ≤ objsize
      omega
    · change clusters[(fp.fptr + 512 * cc - 1) / 512 / fs.csize]? = some clst
      -- the last byte that was read is in the same cluster
      have hlast : (fp.fptr + 512 * cc - 1) / 512 = fp.fptr / 512 + (cc - 1) := by omega
      have hcluster : (fp.fptr / 512 + (cc - 1)) / fs.csize = fp.fptr / 512 / fs.csize :=
        (add_div_mod (by omega)).1
      rwa [hlast, hcluster]
    · change (fp.fptr + 512 * cc) % 512 ≠ 0 at hne
      omega

/-- The sector of the pointer is read, with those behind it in the cluster or into the buffer. -/
theorem readSector_turn {btr clst : ℕ} (h : Readable io content size fs clusters objsize)
    (hp : Positioned content size fs clusters objsize fp)
    (hclust : clusters[fp.fptr / 512 / fs.csize]? = some clst) (hsec : fp.fptr % 512 = 0)
    (hbtr : 0 < btr) (hle : fp.fptr + btr ≤ objsize) :
    ∃ bytes, Turn io content size fs clusters objsize btr fp.fptr
      (readSector io btr (fp.fptr / 512 % fs.csize) { fp with clust := clst } fs) bytes := by
  obtain ⟨c, hc, hge, hcl, hat, hend⟩ := h.sectorAt_bounds (i := fp.fptr) (by omega)
  obtain rfl : clst = c := Option.some.inj (hclust.symm.trans hc)
  have hsize := h.ready.lawful.size_lt
  have hdata := h.database_pos
  have hmod := Nat.mod_lt (fp.fptr / 512) h.csize_pos
  have hfirst := h.clst2sect_eq hge hcl
  have hsect : wrap32 (fs.database + fs.csize * (clst - 2) + fp.fptr / 512 % fs.csize) =
      fs.sectorAt clusters fp.fptr := by
    rw [hat]
    exact Nat.mod_eq_of_lt (by omega)
  simp only [readSector, hfirst]
  rw [if_neg (by omega), hsect]
  by_cases hwhole : 0 < btr / 512
  · rw [if_pos hwhole]
    by_cases hclip : fs.csize < fp.fptr / 512 % fs.csize + btr / 512
    · rw [if_pos hclip]
      exact ⟨_, wholeSectors_turn h hp hclust hsec (by omega) (by omega) (by omega) hle⟩
    · rw [if_neg hclip]
      exact ⟨_, wholeSectors_turn h hp hclust hsec hwhole le_rfl (by omega) hle⟩
  · rw [if_neg hwhole]
    by_cases hcached : fp.sect ≠ fs.sectorAt clusters fp.fptr
    · rw [if_pos hcached]
      obtain ⟨hok, hbuf, hdisk⟩ := h.read (s := fs.sectorAt clusters fp.fptr) (by omega) (by omega)
      obtain ⟨hr, hsame⟩ := h.withDisk hdisk
      rw [if_pos hok]
      have hview := hbuf.trans (hsame.view_eq _ (by omega) (by omega)).symm
      -- the object with the sector in its buffer
      have hturn := copyOut_turn { fp with
          clust := clst
          buf := (io.read fs.disk (fs.sectorAt clusters fp.fptr)).2.1
          sect := fs.sectorAt clusters fp.fptr }
        hr hp.sclust hp.objsize_eq hp.err hclust rfl hview hbtr hle
      have hafter := hturn.after h hsame hle
      exact ⟨_, hafter.result, hafter.bytes_eq, hafter.length_pos, hafter.length_le,
        hafter.readable, hafter.same, hafter.positioned, rfl⟩
    · rw [if_neg hcached]
      have hhere := not_not.mp hcached
      exact ⟨_, copyOut_turn { fp with clust := clst } h hp.sclust hp.objsize_eq hp.err hclust
        hhere (hhere ▸ (hp.buffer (by omega)).2.2) hbtr hle⟩

/-- A turn of the loop of `f_read` reads bytes of the file, at least one. -/
theorem readTurn_spec {btr : ℕ} (h : Readable io content size fs clusters objsize)
    (hp : Positioned content size fs clusters objsize fp) (hbtr : 0 < btr)
    (hle : fp.fptr + btr ≤ objsize) :
    ∃ bytes,
      Turn io content size fs clusters objsize btr fp.fptr (readTurn io btr fp fs) bytes := by
  unfold readTurn
  by_cases hsec : fp.fptr % 512 = 0
  · obtain ⟨clst, fs₁, hrun, hclust, hr, hsame⟩ := currentCluster_spec h hp (by omega) hsec
    have hv := hsame.volume
    simp only [if_pos hsec, h.and_csize, hrun]
    rw [← hv] at hclust ⊢
    obtain ⟨bytes, hturn⟩ := readSector_turn hr (hp.congr hsame) hclust hsec hbtr hle
    exact ⟨bytes, hturn.after h hsame hle⟩
  · rw [if_neg hsec]
    have hsect := hp.sect hsec
    obtain ⟨c, -, -, -, hat, -⟩ := h.sectorAt_bounds (i := fp.fptr) (by omega)
    have hdata := h.database_pos
    have hbuf := (hp.buffer (by omega)).2.2
    have hlast : (fp.fptr - 1) / 512 = fp.fptr / 512 := by omega
    have hclust := hp.clust (by omega)
    rw [hlast] at hclust
    exact ⟨_, copyOut_turn fp h hp.sclust hp.objsize_eq hp.err hclust hsect (hsect ▸ hbuf) hbtr hle⟩

/-- The loop of `f_read` reads all of it. -/
theorem readLoop_spec {btr fuel : ℕ} (h : Readable io content size fs clusters objsize)
    (hp : Positioned content size fs clusters objsize fp) (hfuel : btr ≤ fuel)
    (hle : fp.fptr + btr ≤ objsize) :
    ∃ fp' fs', readLoop io fuel btr fp fs =
        some (.ok, fs.fileBytes content clusters fp.fptr btr, fp', fs') ∧
      Readable io content size fs' clusters objsize ∧ SameData content size fs fs' ∧
      Positioned content size fs' clusters objsize fp' ∧ fp'.fptr = fp.fptr + btr := by
  -- a turn reads at least one byte, so that the fuel is enough for all of them
  induction fuel generalizing btr fp fs with
  | zero =>
    obtain rfl : btr = 0 := by omega
    exact ⟨fp, fs, rfl, h, .refl fs, hp, rfl⟩
  | succ fuel ih =>
    rw [readLoop]
    by_cases hzero : btr = 0
    · subst hzero
      exact ⟨fp, fs, rfl, h, .refl fs, hp, rfl⟩
    rw [if_neg hzero]
    obtain ⟨bytes, hturn⟩ := readTurn_spec h hp (by omega) hle
    generalize readTurn io btr fp fs = r at hturn
    obtain ⟨res, fp₁, fs₁⟩ := r
    obtain ⟨rfl, hbytes, hpos, hlen, hr, hsame, hp₁, hat⟩ := hturn
    dsimp only at hat hr hsame hp₁ ⊢
    have hleft : fp₁.fptr + bytes.length + (btr - bytes.length) ≤ objsize := by omega
    obtain ⟨fp', fs', hrun, hr', hsame', hp', hptr⟩ := @ih fs₁
      { fp₁ with fptr := fp₁.fptr + bytes.length } (btr - bytes.length) hr hp₁ (by omega) hleft
    dsimp only at hrun hptr
    rw [hat] at hrun hptr
    -- the bytes of this turn, and those of the turns behind it
    have hrest := hsame.fileBytes_eq (o := fp.fptr + bytes.length) (n := btr - bytes.length) h
      (by omega)
    have hall : fs.fileBytes content clusters fp.fptr btr =
        bytes ++ fs.fileBytes content clusters (fp.fptr + bytes.length) (btr - bytes.length) := by
      have happend := fileBytes_append content fs clusters fp.fptr bytes.length (btr - bytes.length)
      rwa [← hbytes, Nat.add_sub_cancel' hlen] at happend
    refine ⟨fp', fs', ?_, hr', hsame.trans hsame', hp', by omega⟩
    rw [hat, hrun, Option.map_some, hall, hrest]

/-- `f_read` gives the bytes at the pointer, as many as there are, and moves the pointer. -/
theorem fRead_spec (btr : ℕ) (h : Readable io content size fs clusters objsize)
    (hp : Positioned content size fs clusters objsize fp) :
    ∃ fp' fs', fRead io btr fp fs =
        some (.ok, fs.fileBytes content clusters fp.fptr (min btr (objsize - fp.fptr)), fp', fs') ∧
      Readable io content size fs' clusters objsize ∧ SameData content size fs fs' ∧
      Positioned content size fs' clusters objsize fp' ∧
      fp'.fptr = fp.fptr + min btr (objsize - fp.fptr) := by
  have hle := hp.fptr_le
  have hlt := h.objsize_lt
  have hremain : sub32 fp.objsize fp.fptr = objsize - fp.fptr := by
    rw [hp.objsize_eq, sub32]
    omega
  rw [fRead, if_neg (not_not.mpr hp.err), hremain]
  exact readLoop_spec h hp le_rfl (by omega)

/-! ### Seeking -/

/-- The pointer is at `target`, and the file and its object are in order. -/
structure Moved {σ : Type} (io : DiskIo σ) (content : σ → ℕ → Sector) (size : ℕ) (fs : FatFs σ)
    (clusters : List ℕ) (objsize target : ℕ) (r : FResult × Fil × FatFs σ) : Prop where
  result : r.1 = .ok
  readable : Readable io content size r.2.2 clusters objsize
  same : SameData content size fs r.2.2
  positioned : Positioned content size r.2.2 clusters objsize r.2.1
  fptr_eq : r.2.1.fptr = target

/-- The end of `f_lseek` fills the buffer where the pointer is inside a sector. -/
theorem fillBuffer_spec {nsect : ℕ} (h : Readable io content size fs clusters objsize)
    (hp : Opened content size fs clusters objsize fp) (hle : fp.fptr ≤ objsize)
    (hclust : 0 < fp.fptr → clusters[(fp.fptr - 1) / 512 / fs.csize]? = some fp.clust)
    (hsect : fp.fptr % 512 ≠ 0 → nsect = fs.sectorAt clusters fp.fptr) :
    Moved io content size fs clusters objsize fp.fptr (fillBuffer io nsect fp fs) := by
  unfold fillBuffer
  by_cases hfill : fp.fptr % 512 ≠ 0 ∧ nsect ≠ fp.sect
  · rw [if_pos hfill]
    -- the byte before the pointer is in the same sector, and in the file
    obtain ⟨c, -, -, -, hat, hend⟩ := h.sectorAt_bounds (i := fp.fptr - 1) (by omega)
    have hmod := Nat.mod_lt ((fp.fptr - 1) / 512) h.csize_pos
    have hhere : nsect = fs.sectorAt clusters (fp.fptr - 1) :=
      (hsect hfill.1).trans (sectorAt_congr (by omega))
    obtain ⟨hok, hbuf, hdisk⟩ := h.read (s := nsect) (by omega) (by omega)
    obtain ⟨hr, hsame⟩ := h.withDisk hdisk
    simp only [if_pos hok]
    refine ⟨rfl, hr, hsame, ⟨⟨hp.sclust, hp.objsize_eq, hp.err, fun _ => ?_⟩, hle, hclust, hsect⟩,
      rfl⟩
    exact ⟨by change fs.database ≤ nsect; omega, by change nsect < size; omega,
      hbuf.trans (hsame.view_eq nsect (by omega) (by omega)).symm⟩
  · rw [if_neg hfill]
    exact ⟨rfl, h, .refl fs, ⟨hp, hle, hclust, fun hne =>
      (not_not.mp fun hother => hfill ⟨hne, Ne.symm hother⟩ : fp.sect = nsect).trans (hsect hne)⟩,
      rfl⟩

/-- `f_lseek` starts at a cluster that is not behind the offset. -/
theorem seekStart_spec {ofs : ℕ} (h : Readable io content size fs clusters objsize)
    (hp : Positioned content size fs clusters objsize fp) (hpos : 0 < ofs) (hle : ofs ≤ objsize) :
    ∃ ofs' fp', seekStart io ofs fp fs = some (.ok ofs', fp', fs) ∧ ofs' ≤ ofs ∧
      Seeking content size fs clusters objsize ofs ofs' fp' := by
  unfold seekStart
  by_cases hfwd : 0 < fp.fptr ∧ (fp.fptr - 1) / (fs.csize * 512) ≤ (ofs - 1) / (fs.csize * 512)
  · obtain ⟨k, hk, hcsize⟩ := h.csize
    have hbcs : fs.csize * 512 = 2 ^ (k + 9) := by
      rw [hcsize, Nat.pow_add]
    have hptr := hp.fptr_le
    have hlt := h.objsize_lt
    have hbase : (fp.fptr - 1) &&& (2 ^ 32 - fs.csize * 512) =
        (fp.fptr - 1) / (fs.csize * 512) * (fs.csize * 512) := by
      rw [hbcs]
      exact and_complMask (by omega) (by omega)
    have hbefore : (fp.fptr - 1) / (fs.csize * 512) * (fs.csize * 512) ≤ ofs - 1 :=
      (Nat.mul_le_mul_right _ hfwd.2).trans (Nat.div_mul_le_self _ _)
    simp only [if_pos hfwd, hbase]
    refine ⟨_, _, rfl, Nat.sub_le _ _, ⟨⟨hp.sclust, hp.objsize_eq, hp.err, hp.buffer⟩, ?_, ?_, hle,
      by omega, ?_⟩⟩
    · exact Nat.mul_mod_left _ _
    · exact Nat.add_sub_cancel' (hbefore.trans (Nat.sub_le _ _))
    · have hclust := hp.clust hfwd.1
      rw [Nat.div_div_eq_div_mul, Nat.mul_comm 512] at hclust ⊢
      change clusters[(fp.fptr - 1) / (fs.csize * 512) * (fs.csize * 512) / (fs.csize * 512)]? = _
      rwa [Nat.mul_div_cancel _ (by rw [hbcs]; exact Nat.two_pow_pos _)]
  · rw [if_neg hfwd]
    obtain ⟨c, hc, hge, -⟩ := h.sectorAt_bounds (i := 0) (by omega)
    rw [Nat.zero_div] at hc
    have hstart : fp.sclust = c := by
      rw [hp.sclust, List.getD_eq_getElem?_getD, hc]
      rfl
    rw [if_neg (by omega)]
    refine ⟨_, _, rfl, le_rfl, ⟨⟨hp.sclust, hp.objsize_eq, hp.err, hp.buffer⟩, Nat.zero_mod _,
      Nat.zero_add _, hle, hpos, ?_⟩⟩
    change clusters[0 / 512 / fs.csize]? = some fp.sclust
    rw [Nat.zero_div, hstart]
    exact hc

/-- The loop of `f_lseek` stops in the cluster of the byte before the offset. -/
theorem seekLoop_spec {fuel ofs target : ℕ} (h : Readable io content size fs clusters objsize)
    (hs : Seeking content size fs clusters objsize target ofs fp) (hfuel : ofs ≤ fuel) :
    ∃ ofs' fp' fs', seekLoop io fuel ofs fp fs = some (.ok ofs', fp', fs') ∧
      ofs' ≤ fs.csize * 512 ∧ Readable io content size fs' clusters objsize ∧
      SameData content size fs fs' ∧
      Seeking content size fs' clusters objsize target ofs' fp' := by
  induction fuel generalizing ofs fp fs with
  | zero =>
    have hpos := hs.ofs_pos
    omega
  | succ fuel ih =>
    rw [seekLoop]
    by_cases hin : ofs ≤ fs.csize * 512
    · rw [if_pos hin]
      exact ⟨ofs, fp, fs, rfl, hin, h, .refl fs, hs⟩
    rw [if_neg hin]
    have htarget := hs.target_eq
    have hle := hs.target_le
    have hpos : 0 < fs.csize * 512 := Nat.mul_pos h.csize_pos (by decide)
    -- there are bytes behind this cluster, so that it is followed by another one
    obtain ⟨c, hc, hge, hlt, -⟩ := h.sectorAt_bounds (i := fp.fptr + fs.csize * 512) (by omega)
    have hnext : (fp.fptr + fs.csize * 512) / 512 / fs.csize = fp.fptr / 512 / fs.csize + 1 := by
      rw [Nat.add_mul_div_right _ _ (by decide), Nat.add_div_right _ h.csize_pos]
    rw [hnext] at hc
    obtain ⟨hval, hr, hsame⟩ := h.getFat_next hs.clust hc
    have hmax : fs.nFatent < 0xFFFFFFFF := h.nFatent_lt
    have hv := hsame.volume
    simp only [hval]
    rw [if_neg (by omega), if_neg (by rw [hv]; omega)]
    have hfollow : Seeking content size (getFat io fp.clust fs).2 clusters objsize target
        (ofs - fs.csize * 512) { fp with fptr := fp.fptr + fs.csize * 512, clust := c } := by
      have hopen := hs.toOpened.congr hsame
      refine ⟨⟨hopen.sclust, hopen.objsize_eq, hopen.err, hopen.buffer⟩, ?_, ?_, hle, by omega, ?_⟩
      · rw [hv]
        change (fp.fptr + fs.csize * 512) % (fs.csize * 512) = 0
        rw [Nat.add_mod_right]
        exact hs.aligned
      · change fp.fptr + fs.csize * 512 + (ofs - fs.csize * 512) = target
        omega
      · rw [hv]
        change clusters[(fp.fptr + fs.csize * 512) / 512 / fs.csize]? = some c
        rw [hnext]
        exact hc
    obtain ⟨ofs', fp', fs', hrun, hin', hr', hsame', hs'⟩ := ih hr hfollow (by omega)
    exact ⟨ofs', fp', fs', hrun, hv ▸ hin', hr', hsame.trans hsame', hs'⟩

/-- Behind its loop, `f_lseek` moves the pointer to the offset. -/
theorem seekEnd_spec {ofs target : ℕ} (h : Readable io content size fs clusters objsize)
    (hs : Seeking content size fs clusters objsize target ofs fp) (hin : ofs ≤ fs.csize * 512) :
    Moved io content size fs clusters objsize target (seekEnd io ofs fp fs) := by
  have htarget := hs.target_eq
  have hle := hs.target_le
  have hpos := hs.ofs_pos
  have hopen : Opened content size fs clusters objsize { fp with fptr := fp.fptr + ofs } :=
    ⟨hs.sclust, hs.objsize_eq, hs.err, hs.buffer⟩
  -- the object is at the first sector of a cluster
  obtain ⟨m, hm⟩ := Nat.dvd_of_mod_eq_zero hs.aligned
  have hsec : fp.fptr % 512 = 0 := by
    rw [hm, Nat.mul_assoc, Nat.mul_left_comm, Nat.mul_mod_right]
  have hfirst : fp.fptr / 512 % fs.csize = 0 := by
    rw [hm, Nat.mul_assoc, Nat.mul_left_comm, Nat.mul_div_cancel_left _ (by decide),
      Nat.mul_mod_right]
  have hclust : clusters[(fp.fptr + ofs - 1) / 512 / fs.csize]? = some fp.clust := by
    have hbefore : (fp.fptr + ofs - 1) / 512 = fp.fptr / 512 + (ofs - 1) / 512 := by omega
    have hin' : fp.fptr / 512 % fs.csize + (ofs - 1) / 512 < fs.csize := by omega
    rw [hbefore, (add_div_mod hin').1]
    exact hs.clust
  unfold seekEnd
  by_cases hpart : ofs % 512 ≠ 0
  · obtain ⟨c, hc, hge, hlt, hat, hend⟩ := h.sectorAt_bounds (i := fp.fptr) (by omega)
    obtain rfl : fp.clust = c := Option.some.inj (hs.clust.symm.trans hc)
    have hsize := h.ready.lawful.size_lt
    have hdata := h.database_pos
    have hin' : fp.fptr / 512 % fs.csize + ofs / 512 < fs.csize := by omega
    have hsect : wrap32 (fs.database + fs.csize * (fp.clust - 2) + ofs / 512) =
        fs.sectorAt clusters (fp.fptr + ofs) := by
      rw [sectorAt_add hin' hsec, hat, hfirst, wrap32, Nat.mod_eq_of_lt (by omega), Nat.add_zero]
    simp only [if_pos hpart, h.clst2sect_eq hge hlt]
    rw [if_neg (by omega), hsect, ← htarget]
    exact fillBuffer_spec h hopen (by change fp.fptr + ofs ≤ objsize; omega) (fun _ => hclust)
      fun _ => rfl
  · rw [if_neg hpart, ← htarget]
    refine fillBuffer_spec h hopen (by change fp.fptr + ofs ≤ objsize; omega) (fun _ => hclust)
      fun hne => ?_
    change (fp.fptr + ofs) % 512 ≠ 0 at hne
    omega

/-- `f_lseek` moves the pointer to the offset, or to the end of the file. -/
theorem fLseek_spec (ofs : ℕ) (h : Readable io content size fs clusters objsize)
    (hp : Positioned content size fs clusters objsize fp) :
    ∃ r, fLseek io ofs fp fs = some r ∧
      Moved io content size fs clusters objsize (min ofs objsize) r := by
  have hclip : (if fp.objsize < ofs then fp.objsize else ofs) = min ofs objsize := by
    rw [hp.objsize_eq]
    split_ifs <;> omega
  simp only [fLseek, if_neg (not_not.mpr hp.err), hclip]
  generalize hofs : min ofs objsize = target
  have hle : target ≤ objsize := by omega
  by_cases hzero : target = 0
  · rw [if_pos hzero, hzero]
    have hopen : Opened content size fs clusters objsize { fp with fptr := 0 } :=
      ⟨hp.sclust, hp.objsize_eq, hp.err, hp.buffer⟩
    exact ⟨_, rfl, fillBuffer_spec h hopen (Nat.zero_le _) (fun hpos => absurd hpos (lt_irrefl 0))
      fun hne => absurd rfl hne⟩
  · rw [if_neg hzero]
    obtain ⟨ofs₁, fp₁, hstart, hofs₁, hs⟩ := seekStart_spec h hp (by omega) hle
    obtain ⟨hge, -⟩ := h.cluster _ (List.mem_of_getElem? hs.clust)
    obtain ⟨ofs₂, fp₂, fs₂, hloop, hin, hr, hsame, hs'⟩ := seekLoop_spec h hs hofs₁
    simp only [hstart, hloop]
    rw [if_neg (by omega)]
    have hend := seekEnd_spec hr hs' (by rwa [hsame.volume])
    exact ⟨_, rfl, hend.result, hend.readable, hsame.trans hend.same, hend.positioned, hend.fptr_eq⟩

/-! ### Runs -/

/-- An object of `f_open` is at the start of its file. -/
theorem Fil.opened_positioned (content : σ → ℕ → Sector) (size : ℕ) (fs : FatFs σ)
    (clusters : List ℕ) (objsize clust : ℕ) :
    Positioned content size fs clusters objsize
      (Fil.opened (clusters.getD 0 0) objsize clust) :=
  ⟨⟨rfl, rfl, rfl, fun hne => absurd rfl hne⟩, Nat.zero_le _,
    fun hpos => absurd hpos (lt_irrefl 0), fun hne => absurd rfl hne⟩

theorem ReadEvent.Right.congr {event : ReadEvent} {f g : ℕ → ℕ → List (BitVec 8)} {fptr fptr' : ℕ}
    (h : event.Right f objsize fptr fptr') (hle : fptr ≤ objsize)
    (heq : ∀ n, fptr + n ≤ objsize → f fptr n = g fptr n) : event.Right g objsize fptr fptr' := by
  cases event with
  | lseek ofs res => exact h
  | read btr res bytes => exact ⟨h.1, h.2.1.trans (heq _ (by omega)), h.2.2⟩

/-- A call keeps the file and its object in order, and is right. -/
theorem step_right {event : ReadEvent} {s s' : FatFs σ × Fil} (hstep : ReadStep io s event s')
    (h : Readable io content size s.1 clusters objsize)
    (hp : Positioned content size s.1 clusters objsize s.2) :
    Readable io content size s'.1 clusters objsize ∧ SameData content size s.1 s'.1 ∧
      Positioned content size s'.1 clusters objsize s'.2 ∧
      event.Right (s.1.fileBytes content clusters) objsize s.2.fptr s'.2.fptr := by
  cases hstep with
  | lseek run =>
    obtain ⟨r, hrun, hmoved⟩ := fLseek_spec _ h hp
    obtain rfl := Option.some.inj (hrun.symm.trans run)
    exact ⟨hmoved.readable, hmoved.same, hmoved.positioned, hmoved.result, hmoved.fptr_eq⟩
  | read run =>
    obtain ⟨fp', fs', hrun, hr, hsame, hp', hptr⟩ := fRead_spec _ h hp
    obtain ⟨rfl, rfl, rfl, rfl⟩ : _ ∧ _ ∧ _ ∧ _ := by
      simpa only [Option.some.injEq, Prod.mk.injEq] using hrun.symm.trans run
    exact ⟨hr, hsame, hp', rfl, rfl, hptr⟩

/-- In a run the file and its object stay in order, and every call is right. -/
theorem run_right {fs₀ : FatFs σ} {clust : ℕ}
    {trace : List (Transition (FatFs σ × Fil) ReadEvent)}
    (run : Reaches (Traced (ReadStep io)) (fs₀, Fil.opened (clusters.getD 0 0) objsize clust) trace
      (fs, fp))
    (h : Readable io content size fs₀ clusters objsize) :
    Readable io content size fs clusters objsize ∧ SameData content size fs₀ fs ∧
      Positioned content size fs clusters objsize fp ∧
      ∀ t ∈ trace, t.label.Right (fs₀.fileBytes content clusters) objsize t.before.2.fptr
        t.after.2.fptr := by
  refine run.invariant (I := fun trace s => Readable io content size s.1 clusters objsize ∧
    SameData content size fs₀ s.1 ∧ Positioned content size s.1 clusters objsize s.2 ∧
    ∀ t ∈ trace, t.label.Right (fs₀.fileBytes content clusters) objsize t.before.2.fptr
      t.after.2.fptr) ?_ ?_
  · exact ⟨h, .refl fs₀, Fil.opened_positioned content size fs₀ clusters objsize clust,
      fun t ht => absurd ht List.not_mem_nil⟩
  · rintro trace s t s' ⟨hr, hsame, hp, hright⟩ ⟨hbefore, hafter, hstep⟩
    obtain ⟨hr', hsame', hp', hlabel⟩ := step_right hstep hr hp
    refine ⟨hr', hsame.trans hsame', hp', List.forall_mem_cons.mpr ⟨?_, hright⟩⟩
    rw [hbefore, hafter]
    -- the bytes are those that the file had at the start of the run
    exact hlabel.congr hp.fptr_le fun n hn => hsame.fileBytes_eq h hn

/-- **A file is read as it is.** In every run of `f_lseek` and `f_read` on a file that was opened,
each call succeeds, moves the pointer as it should, and gives the bytes of the clusters at the
pointer up to the size of the file; no sector of the clusters changes, and every further call
returns. -/
theorem reads_run {fs₀ : FatFs σ} {clust : ℕ}
    {trace : List (Transition (FatFs σ × Fil) ReadEvent)}
    (run : Reaches (Traced (ReadStep io)) (fs₀, Fil.opened (clusters.getD 0 0) objsize clust) trace
      (fs, fp))
    (h : Readable io content size fs₀ clusters objsize) :
    (∀ t ∈ trace, t.label.Right (fs₀.fileBytes content clusters) objsize t.before.2.fptr
        t.after.2.fptr) ∧
      SameData content size fs₀ fs ∧ fp.fptr ≤ objsize ∧
      (∀ ofs, ∃ t, ReadStep io (fs, fp) (.lseek ofs .ok) t) ∧
      ∀ btr, ∃ bytes t, ReadStep io (fs, fp) (.read btr .ok bytes) t := by
  obtain ⟨hr, hsame, hp, hright⟩ := run_right run h
  refine ⟨hright, hsame, hp.fptr_le, fun ofs => ?_, fun btr => ?_⟩
  · obtain ⟨⟨res, fp', fs'⟩, hrun, hmoved⟩ := fLseek_spec ofs hr hp
    obtain rfl : res = .ok := hmoved.result
    exact ⟨_, .lseek hrun⟩
  · obtain ⟨fp', fs', hrun, -⟩ := fRead_spec btr hr hp
    exact ⟨_, _, .read hrun⟩

/-- The disk of a small volume with a file of two clusters: the FAT, and what is in the clusters. -/
def fileDisk : ℕ → Sector := fun s k =>
  if s = 1 then ([0, 0, 0, 0x03, 0xF0, 0xFF].getD k 0 : BitVec 8)
  else if s = 3 then 1
  else 2

theorem fileDisk_readable :
    Readable memoryDisk id 5 (freshVolume smallVolume fileDisk) [2, 3] 600 where
  ready := ⟨memoryDisk_lawful (by decide), memoryDisk_reliable 5, smallVolume_sound,
    freshVolume_coherent (by decide) (by decide)⟩
  layout := ⟨by decide, by decide, by decide⟩
  csize := ⟨0, by decide, rfl⟩
  links := ⟨by decide, by decide, trivial⟩
  cluster := by decide
  objsize_le := by decide
  objsize_lt := by decide
  window hd := absurd hd Bool.false_ne_true

/-- The file system object and the file, as they are after `f_open`. -/
def fileDiskOpened : FatFs (ℕ → Sector) × Fil :=
  (freshVolume smallVolume fileDisk, Fil.opened ([2, 3].getD 0 0) 600 0)

/-- Four bytes, two of each cluster. -/
theorem reads_run_fileDisk : ∃ fp fs fp' fs',
    fLseek memoryDisk 510 fileDiskOpened.2 fileDiskOpened.1 = some (.ok, fp, fs) ∧
    fRead memoryDisk 4 fp fs = some (.ok, [1, 1, 2, 2], fp', fs') := by
  have run₀ : Reaches (Traced (ReadStep memoryDisk)) fileDiskOpened [] fileDiskOpened := .start
  obtain ⟨-, -, -, hseek, -⟩ := reads_run run₀ fileDisk_readable
  obtain ⟨⟨fs, fp⟩, hstep⟩ := hseek 510
  have run := run₀.next hstep
  obtain ⟨-, -, -, -, hread⟩ := reads_run run fileDisk_readable
  obtain ⟨bytes, ⟨fs', fp'⟩, hstep'⟩ := hread 4
  obtain ⟨hright, -⟩ := reads_run (run.next hstep') fileDisk_readable
  obtain ⟨-, hbytes, -⟩ := hright _ List.mem_cons_self
  obtain ⟨-, hptr⟩ := hright _ (List.mem_cons_of_mem _ List.mem_cons_self)
  dsimp only at hbytes hptr
  rw [hptr] at hbytes
  cases hstep with
  | lseek hrun =>
    cases hstep' with
    | read hrun' =>
      refine ⟨fp, fs, fp', fs', hrun, hrun'.trans ?_⟩
      rw [hbytes]
      rfl
/-! ### The files of a mounted volume -/

/-- The clusters of a volume that is accepted have a power of two of sectors. -/
theorem volumeOf_csize {win : Sector} {bsect : ℕ} (h : volumeOf win bsect = some v) :
    ∃ k ≤ 16, v.csize = 2 ^ k := by
  simp only [volumeOf, Option.ite_none_left_eq_some] at h
  obtain ⟨-, -, hpow, -, -, -, -, -, -, -, -, h⟩ := h
  obtain rfl := Option.some.inj h
  change ∃ k ≤ 16, (win 13).toNat = 2 ^ k
  have hpow' : ¬((win 13).toNat = 0 ∨ (win 13).toNat &&& ((win 13).toNat - 1) ≠ 0) := hpow
  rw [not_or, not_not] at hpow'
  obtain ⟨k, hk⟩ := (Nat.and_sub_one_eq_zero_iff_isPowerOfTwo hpow'.1).mp hpow'.2
  have hlt : 2 ^ k < 2 ^ 8 := hk ▸ (win 13).isLt
  exact ⟨k, by have := (Nat.pow_lt_pow_iff_right (by decide)).mp hlt; omega, hk⟩

/-- The files that `create_chain` and `remove_chain` keep on a mounted volume can be read. -/
theorem Holding.readable {files : List (List ℕ)} {win : Sector} {bsect : ℕ}
    (h : Holding io content size fs files) (hmem : clusters ∈ files)
    (hvolume : volumeOf win bsect = some fs.toVolume) (hlayout : fs.Layout size)
    (hwindow : fs.wflag → fs.winsect < fs.database)
    (hle : objsize ≤ clusters.length * (fs.csize * 512)) (hlt : objsize < 2 ^ 32) :
    Readable io content size fs clusters objsize where
  ready := h.ready
  layout := hlayout
  csize := volumeOf_csize hvolume
  links := (h.holds.chain clusters hmem).2
  cluster _ hc := h.cluster (List.mem_flatten_of_mem hmem hc)
  objsize_le := hle
  objsize_lt := hlt
  window := hwindow

end Spec

end OpenIDP.Fat
