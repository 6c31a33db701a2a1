import OpenIDP.Exec.CopyOut
import OpenIDP.Fat.Read

/-!
# Files on the disk

The loader of programs and `sys_file_read` see a file through the answers of `f_lseek` and `f_read`.
For a file of a mounted volume these answers are the file as it is on the disk, whatever calls were
made for its object before. The results about programs that are loaded are therefore results about
what is on the disk.

## Main definitions

* `diskFile` — the answers of the functions of `ff.c`

## Main results

* `diskFile_read` — an answer is a part of the file
* `files_from_disk` — the loader and `sys_file_read` get the file
-/

namespace OpenIDP.Exec

open OpenIDP.Math OpenIDP.Memory OpenIDP.Fat

/-- What is answered for a file object: a read is a call of `f_lseek` and one of `f_read`. The first
read of a file has no `f_lseek` before it, as the pointer is at the start. -/
def diskFile {σ : Type} (io : DiskIo σ) (fs : FatFs σ) (fp : Fil) : FatFile where
  opens := true
  read _ pos len :=
    match fLseek io pos fp fs with
    | none => (false, [])
    | some (_, fp₁, fs₁) =>
      match fRead io len fp₁ fs₁ with
      | none => (false, [])
      | some (res, bytes, _) => (res = .ok, bytes)

section Spec

variable {σ : Type} {io : DiskIo σ} {content : σ → ℕ → Sector} {size : ℕ} {fs fs₀ : FatFs σ}
  {clusters : List ℕ} {objsize clust : ℕ} {fp : Fil}

/-- What is answered is a part of the file. -/
theorem diskFile_read (h : Readable io content size fs clusters objsize)
    (hp : Positioned content size fs clusters objsize fp) (n pos len : ℕ) :
    (diskFile io fs fp).read n pos len =
      (true, ((fs.fileBytes content clusters 0 objsize).drop pos).take len) := by
  obtain ⟨⟨res, fp₁, fs₁⟩, hseek, hmoved⟩ := fLseek_spec pos h hp
  obtain ⟨fp₂, fs₂, hread, -⟩ := fRead_spec len hmoved.readable hmoved.positioned
  have hptr : fp₁.fptr = min pos objsize := hmoved.fptr_eq
  rw [hptr] at hread
  rw [hmoved.same.fileBytes_eq h (by omega), ← fileBytes_drop_take] at hread
  simp only [diskFile, hseek, hread, decide_true]

/-- The functions hand out the bytes of the file. -/
theorem diskFile_holds (h : Readable io content size fs clusters objsize)
    (hp : Positioned content size fs clusters objsize fp) :
    (diskFile io fs fp).Holds (fs.fileBytes content clusters 0 objsize) where
  length_lt := by
    rw [fileBytes_length]
    exact h.objsize_lt
  read_eq n pos len i hi := by
    rw [diskFile_read h hp] at hi ⊢
    rw [List.getElem?_take_of_lt (hi.trans_le (List.length_take_le _ _)), List.getElem?_drop]

/-- Segments that are inside the file are read completely. -/
theorem diskFile_complete (h : Readable io content size fs clusters objsize)
    (hp : Positioned content size fs clusters objsize fp) (n : ℕ) {phdrs : List Phdr}
    (hinside : ∀ seg ∈ phdrs, seg.type = ptLoad → seg.offset + seg.filesz ≤ objsize) :
    ReadsComplete (diskFile io fs fp) n phdrs := by
  induction phdrs generalizing n with
  | nil => trivial
  | cons seg phdrs ih =>
    obtain ⟨hseg, hrest⟩ := List.forall_mem_cons.mp hinside
    rw [ReadsComplete]
    split_ifs with htype
    · refine ⟨fun i hi => ?_, ih _ hrest⟩
      have hin := hseg htype
      rw [Phdr.filePages] at hi
      rw [diskFile_read h hp, List.length_take, List.length_drop, fileBytes_length, Phdr.copied]
      have hpage : pageSize = 4096 := rfl
      omega
    · exact ih n hrest

/-- The first read of a file. -/
theorem fRead_opened (h : Readable io content size fs clusters objsize) (len : ℕ) :
    ∃ t, ReadStep io (fs, Fil.opened (clusters.getD 0 0) objsize clust)
      (.read len .ok ((fs.fileBytes content clusters 0 objsize).take len)) t := by
  have hp := Fil.opened_positioned content size fs clusters objsize clust
  obtain ⟨fp', fs', hread, -⟩ := fRead_spec len h hp
  have hfirst := fileBytes_drop_take content fs clusters objsize 0 len
  rw [List.drop_zero, Nat.zero_min] at hfirst
  rw [hfirst]
  exact ⟨(fs', fp'), .read hread⟩

/-- **The kernel reads what is on the disk.** After any calls of `f_lseek` and `f_read` for a file
of a mounted volume, further calls still answer the same, and these answers are those on which
loading a program relies: they are the bytes of the file, from its start on for the first read,
segments that are inside the file are read completely, and `sys_file_read` gives its caller the file
from the start on, up to the length of the buffer. -/
theorem files_from_disk {trace : List (Transition (FatFs σ × Fil) ReadEvent)}
    (run : Reaches (Traced (ReadStep io)) (fs₀, Fil.opened (clusters.getD 0 0) objsize clust) trace
      (fs, fp))
    (h : Readable io content size fs₀ clusters objsize) :
    (∀ len, ∃ t, ReadStep io (fs₀, Fil.opened (clusters.getD 0 0) objsize clust)
        (.read len .ok ((fs₀.fileBytes content clusters 0 objsize).take len)) t) ∧
      (∀ n pos len, (diskFile io fs fp).read n pos len =
        (true, ((fs₀.fileBytes content clusters 0 objsize).drop pos).take len)) ∧
      (diskFile io fs fp).Holds (fs₀.fileBytes content clusters 0 objsize) ∧
      (∀ n phdrs, (∀ seg ∈ phdrs, seg.type = ptLoad → seg.offset + seg.filesz ≤ objsize) →
        ReadsComplete (diskFile io fs fp) n phdrs) ∧
      ∀ (k : Kernel) inp userBuf maxLen, inp.file = diskFile io fs fp → inp.fSize = objsize →
        k.sysFileRead inp userBuf maxLen =
          ⟨min maxLen objsize,
            some ⟨userBuf, (fs₀.fileBytes content clusters 0 objsize).take maxLen⟩,
            { k with reads := k.reads + 1 }⟩ := by
  obtain ⟨hr, hsame, hp, -⟩ := run_right run h
  have hbytes := hsame.fileBytes_eq (o := 0) (n := objsize) h (by omega)
  rw [← hbytes]
  refine ⟨hbytes ▸ fRead_opened h, diskFile_read hr hp, diskFile_holds hr hp,
    fun n phdrs => diskFile_complete hr hp n, fun k inp userBuf maxLen hfile hsize => ?_⟩
  have hlt := h.objsize_lt
  have hread : k.fileRead inp maxLen =
      (true, (fs.fileBytes content clusters 0 objsize).take maxLen) := by
    simp only [Kernel.fileRead, hfile, hsize, diskFile_read hr hp, List.drop_zero]
    congr 1
    split_ifs with hshort
    · rw [Nat.mod_eq_of_lt (by omega)]
    · rw [Nat.mod_eq_of_lt hlt, List.take_of_length_le (by rw [fileBytes_length]),
        List.take_of_length_le (by rw [fileBytes_length]; omega)]
  have hopens : inp.file.opens := by rw [hfile]; rfl
  rw [Kernel.sysFileRead, if_pos hopens, hread]
  simp only [if_true, List.length_take, fileBytes_length]

theorem files_from_disk_fileDisk :
    (diskFile memoryDisk fileDiskOpened.1 fileDiskOpened.2).read 0 510 4 =
      (true, [1, 1, 2, 2]) := by
  have run₀ : Reaches (Traced (ReadStep memoryDisk)) fileDiskOpened [] fileDiskOpened := .start
  have hread := (files_from_disk run₀ fileDisk_readable).2.1 0 510 4
  rw [fileBytes_drop_take] at hread
  exact hread.trans rfl

end Spec

end OpenIDP.Exec
