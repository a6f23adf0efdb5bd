import OsSuite.Mkfs
import OsSuite.TreediskCapacity

/-! The image is made if the programs are not too many blocks: no write takes more than four. -/

namespace OsSuite.Mkfs

open CString Treedisk SparseFiles
open Grep (ascii)
open Library (Entry dirText)

/-- No file of the image has more blocks than the image. -/
def Small (f : Files UInt32 BlockNo Block) : Prop := ∀ ino, f.size ino ≤ 4096

/-- The file system has room for what is still to be written, at four blocks for each block. -/
def Room (fs : Disk) (todo : Nat) : Prop :=
  ∃ f, Store fs f ∧ Small f ∧ used fs + 4 * todo ≤ 4096

theorem levelsOf_small {n : BlockNo} (h : n.toNat ≤ 4096) : levelsOf n ≤ 2 := by
  rw [levelsOf]
  split
  · rename_i hpos
    rw [gt_iff_lt, UInt32.lt_iff_toNat_lt, UInt32.toNat_zero] at hpos
    have hle : (1 : UInt32) ≤ n := by
      rw [UInt32.le_iff_toNat_le, UInt32.toNat_one]
      exact hpos
    rw [countLevels_le_iff, UInt32.toNat_sub_of_le n 1 hle, UInt32.toNat_one]
    simp only [refsPerBlock]
    omega
  · exact Nat.zero_le 2

theorem write_room {fs : Disk} {todo ino offset : Nat} (h : Room fs (todo + 1)) (hino : ino < 128)
    (hoffset : offset < 4096) (b : Block) :
    Sat (write fs ino offset b) (Room · todo) fun _ => False := by
  obtain ⟨f, hstore, hsmall, hused⟩ := h
  have hoff : (UInt32.ofNat offset).toNat = offset := toNat_ofNat_small hoffset
  have hvalid := hstore.validIno hino
  obtain ⟨free, hi⟩ := hstore.refines.intact
  have hneeded : needed fs.data (UInt32.ofNat ino).toNat (UInt32.ofNat offset) ≤ 2 * 2 := by
    refine needed_le _ _ _ (levelsOf_small ?_) ?_ (by decide)
    · rw [hstore.refines.size _ hvalid]
      exact hsmall _
    · rw [countLevels_le_iff, hoff]
      simp only [refsPerBlock]
      omega
  have hcapacity : Sat (treediskWrite fs (UInt32.ofNat ino) (UInt32.ofNat offset) b) _ _ :=
    treediskWrite_capacity hi hvalid (by rw [hoff]; omega)
  have hsize : fs.size.toNat = 4096 := by rw [hstore.size]; rfl
  rw [hsize] at hcapacity
  have hstored := write_store hstore hino hoffset b
  unfold write at hstored ⊢
  cases hresult : treediskWrite fs (UInt32.ofNat ino) (UInt32.ofNat offset) b with
  | ok fs' =>
    rw [hresult] at hstored
    refine ⟨_, hstored, fun k => ?_, ?_⟩
    · rw [put_size]
      split
      · dsimp only
        rw [hoff]
        exact Nat.max_le.mpr ⟨hsmall k, hoffset⟩
      · exact hsmall k
    · have htaken := (hcapacity.of_ok hresult).1
      omega
  | error e =>
    have hfull := hcapacity.of_error hresult
    omega

/-- After `n` of the rounds there is room for the others. -/
def ContentsRoom (todo n : Nat) (r : Disk × Bytes) : Prop := Room r.1 (todo + (binDirInode - n))

theorem loadContents_room {fs : Disk} {todo : Nat} (h : Room fs (todo + binDirInode)) :
    Sat (loadContents fs) (fun r => Room r.1 todo) fun _ => False := by
  have hloop : Sat (loadContents fs) (ContentsRoom todo binDirInode) fun _ => False := by
    have hstart : ContentsRoom todo 0 (fs, fun _ => 0) := h
    refine sat_range hstart ?_
    rintro n hn ⟨fs', inode⟩ hinv
    have hroom : Room fs' (todo + (binDirInode - n)) := hinv
    have hn' : n < 6 := hn
    have hleft : todo + (binDirInode - n) = todo + (binDirInode - (n + 1)) + 1 := by
      simp only [binDirInode]
      omega
    rw [hleft] at hroom
    dsimp only
    rw [sat_bind]
    exact (write_room hroom (by omega) (by omega) _).imp (fun _ h => h) fun _ h => h
  exact hloop.imp (fun _ hr => hr) fun _ h => h

theorem writeFile_room {fs : Disk} {todo ino size : Nat} (h : Room fs (todo + (size + 511) / 512)) (hino : ino < 128)
    (inode : Bytes) (hsize : size ≤ size2MB) :
    Sat (writeFile fs ino inode size) (Room · todo) fun _ => False := by
  have hrounds : (size + 511) / 512 ≤ 4096 := by
    simp only [size2MB] at hsize
    omega
  have hround : ∀ n < (size + 511) / 512, ∀ fs, Room fs (todo + ((size + 511) / 512 - n)) →
      Sat (write fs ino n (blockAt inode (512 * n))) (Room · (todo + ((size + 511) / 512 - (n + 1))))
        fun _ => False := by
    intro n hn fs' hroom
    have hleft : todo + ((size + 511) / 512 - n) = todo + ((size + 511) / 512 - (n + 1)) + 1 := by omega
    rw [hleft] at hroom
    exact write_room hroom hino (by omega) _
  have hloop : Sat (writeFile fs ino inode size) (Room · (todo + ((size + 511) / 512 - (size + 511) / 512)))
      fun _ => False := sat_range h hround
  rw [Nat.sub_self] at hloop
  exact hloop

def fileBlocks (dir : List Dirent) : Nat := (dir.map fun e => (e.file.length + 511) / 512).sum

/-- The programs can be put into the image. -/
structure Fits (dir : List Dirent) : Prop where
  sizes : ∀ e ∈ programs dir, e.file.length ≤ size2MB
  entries : (dirText (binEntries (programs dir))).length < 256
  blocks : 4 * fileBlocks (programs dir) ≤ 4065

/-- The tool after the programs `done`. -/
structure Filling (s : Tool) (done : List Dirent) (todo : Nat) : Prop where
  room : Room s.fs todo
  appIno : s.appIno = done.length + 7
  binDir : s.binDir = dirText (binEntries done)

theorem dirText_binEntries_le (done rest : List Dirent) :
    (dirText (binEntries done)).length ≤ (dirText (binEntries (done ++ rest))).length := by
  induction rest generalizing done with
  | nil => rw [List.append_nil]
  | cons e rest ih =>
    have hrest := ih (done ++ [e])
    rw [binEntries_append, dirText_append, List.length_append, List.append_assoc] at hrest
    exact (Nat.le_add_right _ _).trans hrest

theorem loadApps_room {s : Tool} {done : List Dirent} {todo : Nat} (dir : List Dirent)
    (h : Filling s done (todo + fileBlocks (programs dir))) (hsizes : ∀ e ∈ programs dir, e.file.length ≤ size2MB)
    (hentries : (dirText (binEntries (done ++ programs dir))).length < 256) :
    Sat (dir.foldlM loadApp s) (fun s' => Room s'.fs todo) fun _ => False := by
  induction dir generalizing s done with
  | nil => exact h.room
  | cons e dir ih =>
    rw [List.foldlM_cons, sat_bind, loadApp]
    by_cases helf : e.IsElf
    · have hprograms := programs_cons_elf helf dir
      have hblocks : todo + fileBlocks (programs (e :: dir)) =
          todo + fileBlocks (programs dir) + (e.file.length + 511) / 512 := by
        rw [hprograms]
        simp only [fileBlocks, List.map_cons, List.sum_cons]
        omega
      have hmove : done ++ programs (e :: dir) = done ++ [e] ++ programs dir := by
        rw [hprograms, List.append_assoc]
        rfl
      have hsize := hsizes e (by rw [hprograms]; exact List.mem_cons_self)
      have hfew := binEntries_few ((dirText_binEntries_le done _).trans_lt hentries)
      have hino := h.appIno
      have hroom := h.room
      have hdir : s.binDir ++ Entry.text ⟨e.name, s.appIno⟩ = dirText (binEntries (done ++ [e])) := by
        rw [binEntries_append, dirText_append, h.binDir, hino]
      rw [hblocks] at hroom
      rw [hmove] at hentries
      rw [if_pos helf, if_neg (Nat.not_lt.mpr hsize)]
      dsimp only
      rw [sat_bind]
      refine (writeFile_room hroom (by omega) _ hsize).imp (fun fs' hfs' => ?_) fun _ h => h
      have hfits := (dirText_binEntries_le (done ++ [e]) (programs dir)).trans_lt hentries
      rw [hdir, if_neg (Nat.not_le.mpr hfits)]
      refine ih ⟨hfs', ?_, rfl⟩ (fun e' he' => hsizes e' ?_) hentries
      · rw [List.length_append, List.length_singleton]
        exact (congrArg (· + 1) hino).trans (by omega)
      · rw [hprograms]
        exact List.mem_cons_of_mem e he'
    · rw [programs_cons_other helf] at h hsizes hentries
      rw [if_neg helf]
      exact ih h hsizes hentries

theorem formatted_room {fs : Disk} (h : treediskCreate ramdisk ninodes = .ok fs) : Room fs 1023 := by
  have hformat := ((treediskCreate_spec (d := ramdisk) rfl ninodes).of_ok h).2
  have hused := hformat.intact.used_add
  have hreserved : (inodeblocksFor ninodes).toNat = 2 := rfl
  have hsize : ramdisk.size.toNat = 4096 := rfl
  rw [hformat.size, Finset.card_val, Nat.card_Ico, hreserved, hsize] at hused
  exact ⟨empty, formatted_store h, fun _ => Nat.zero_le _, by omega⟩

theorem makeFs_completes {dir : List Dirent} (h : Fits dir) (beyond : Bytes) : ∃ fs, makeFs dir beyond = .ok fs := by
  have hblocks := h.blocks
  have hmake : Sat (makeFs dir beyond) (fun _ => True) fun _ => False := by
    unfold makeFs
    cases hcreate : treediskCreate ramdisk ninodes with
    | error e =>
      have hfull := ((treediskCreate_spec (d := ramdisk) rfl ninodes).of_error hcreate).2
      exact absurd hfull (by decide)
    | ok fs =>
      have hroom : Room fs (1 + fileBlocks (programs dir) + binDirInode) := by
        obtain ⟨f, hstore, hsmall, hused⟩ := formatted_room hcreate
        refine ⟨f, hstore, hsmall, ?_⟩
        simp only [binDirInode]
        omega
      dsimp only
      rw [sat_bind]
      refine (loadContents_room hroom).imp (fun r hr => ?_) fun _ h => h
      have hstart : Filling ⟨r.1, r.2, binStart, binDirInode + 1⟩ [] (1 + fileBlocks (programs dir)) :=
        ⟨hr, rfl, binStart_eq⟩
      rw [sat_bind]
      refine (loadApps_room dir hstart h.sizes h.entries).imp (fun s hs => ?_) fun _ h => h
      have hlast : Room s.fs (0 + 1) := hs
      exact (write_room hlast (by decide) (by decide) _).imp (fun _ _ => trivial) fun _ h => h
  cases hresult : makeFs dir beyond with
  | ok fs => exact ⟨fs, rfl⟩
  | error e => exact (hmake.of_error hresult).elim

end OsSuite.Mkfs
