import OsSuite.DirLookup
import OsSuite.ElfImage
import OsSuite.Grep
import OsSuite.TreediskRefinement

/-! The tool that makes the disk image: the binaries of the system in their places, and a file
system with the directories and one file for each program. -/

namespace OsSuite.Mkfs

open CString Treedisk SparseFiles
open Grep (ascii)
open Library (Entry Directory dirText)

abbrev blockSize : Nat := 512

abbrev size2MB : Nat := 2 * 1024 * 1024

abbrev egosBinMaxNbyte : Nat := 128 * 1024

abbrev ninodes : UInt32 := 128

/-- The memory from the start of a buffer on. -/
abbrev Bytes := Nat → UInt8

def blockByte (b : Block) (x : Nat) : UInt8 := Words.byte (b (Fin.ofNat refsPerBlock (x / 4))) (x % 4)

/-- The block that `memcpy` takes from `a`. -/
def blockAt (mem : Bytes) (a : Nat) : Block := fun i => Words.load mem (a + 4 * i.val)

def putBlock (mem : Bytes) (a : Nat) (b : Block) : Bytes := fun x =>
  if a ≤ x ∧ x < a + blockSize then blockByte b (x - a) else mem x

def ramread (fs : Bytes) (offset : UInt32) : Block := blockAt fs (offset * 512).toNat

def ramwrite (fs : Bytes) (offset : UInt32) (b : Block) : Bytes := putBlock fs (offset * 512).toNat b

/-- `fs[]`, when the inode store over it is `d`. -/
def fsOf (d : Disk) : Bytes := fun x => blockByte (d.data (x / blockSize)) (x % blockSize)

theorem blockByte_blockAt (mem : Bytes) (a : Nat) {x : Nat} (hx : x < blockSize) :
    blockByte (blockAt mem a) x = mem (a + x) := by
  have hlt : x / 4 < refsPerBlock := by
    change x < 512 at hx
    change x / 4 < 128
    omega
  have hword : (Fin.ofNat refsPerBlock (x / 4)).val = x / 4 := Nat.mod_eq_of_lt hlt
  rw [blockByte, blockAt, Words.byte_load _ _ (Nat.mod_lt x (by decide)), hword]
  congr 1
  omega

theorem blockAt_eq {mem : Bytes} {a : Nat} {b : Block} (h : ∀ x < blockSize, mem (a + x) = blockByte b x) :
    blockAt mem a = b := by
  funext i
  have hi : i.val < 128 := i.isLt
  refine Words.load_bytes fun k hk => ?_
  have hx : 4 * i.val + k < blockSize := by
    change _ < 512
    omega
  have hword : Fin.ofNat refsPerBlock ((4 * i.val + k) / 4) = i := by
    apply Fin.ext
    change (4 * i.val + k) / 4 % 128 = i.val
    omega
  have hbyte : (4 * i.val + k) % 4 = k := by omega
  rw [Nat.add_assoc, h _ hx, blockByte, hword, hbyte]

theorem blockAt_fsOf (d : Disk) (n : Nat) : blockAt (fsOf d) (n * blockSize) = d.data n := by
  refine blockAt_eq fun x hx => ?_
  change x < 512 at hx
  have hdiv : (n * blockSize + x) / blockSize = n := by
    change (n * 512 + x) / 512 = n
    omega
  have hmod : (n * blockSize + x) % blockSize = x := by
    change (n * 512 + x) % 512 = x
    omega
  rw [fsOf, hdiv, hmod]

theorem offset_toNat {offset : UInt32} (h : offset.toNat < 4096) : (offset * 512).toNat = offset.toNat * blockSize := by
  have hsize : (512 : UInt32).toNat = 512 := rfl
  rw [UInt32.toNat_mul, hsize]
  exact Nat.mod_eq_of_lt (by omega)

/-- The buffer `fs[]` is a disk of 4096 blocks. -/
theorem ramread_fsOf (d : Disk) {offset : UInt32} (h : offset.toNat < 4096) :
    ramread (fsOf d) offset = d.data offset.toNat := by
  rw [ramread, offset_toNat h, blockAt_fsOf]

theorem ramwrite_fsOf (d : Disk) {offset : UInt32} (h : offset.toNat < 4096) (b : Block) :
    ramwrite (fsOf d) offset b = fsOf (d.set offset b) := by
  funext x
  rw [ramwrite, putBlock, offset_toNat h, fsOf, fsOf, Disk.set]
  simp only [blockSize]
  by_cases hx : x / 512 = offset.toNat
  · rw [if_pos (by omega), hx, Function.update_self]
    congr 1
    omega
  · rw [if_neg (by omega), Function.update_of_ne hx]

/-- The files of inodes 0 to 5. -/
def contents : List Text :=
  ["./   6 ../   0 home/   1 bin/   6 ",
    "./   1 ../   0 yunhao/   2 rvr/   3 yacqub/   4 ",
    "./   2 ../   1 README   5 ",
    "./   3 ../   1 ",
    "./   4 ../   1 ",
    "With only 2000 lines of code, egos-2000 implements boot loader, SD card \n" ++
      "driver, tty driver, virtual memory with page tables, interrupt and \n" ++
      "exception handling, preemptive scheduler, system call, file system, " ++
      "shell, an Ethernet/UDP demo, several user commands, and the mkfs tool. " ++
      "Moreover, the EGOS book (https://egos.fun) contains 9 course projects."].map ascii

def binDirInode : Nat := 6

/-- A file of the build directory. -/
structure Dirent where
  dName : Text
  file : List UInt8

def Dirent.IsElf (e : Dirent) : Prop := ascii ".elf" <:+: e.dName

instance (e : Dirent) : Decidable e.IsElf := inferInstanceAs (Decidable (_ <:+: _))

def Dirent.name (e : Dirent) : Text := e.dName.take (e.dName.length - 4)

inductive Stop where
  | store (s : Treedisk.Stop)
  | overflow

structure Tool where
  fs : Disk
  inode : Bytes
  binDir : Text
  appIno : Nat

/-- The result of the write is not checked. A write to an inode that does not exist does nothing. -/
def write (fs : Disk) (ino offset : Nat) (b : Block) : Except Stop Disk :=
  match treediskWrite fs (UInt32.ofNat ino) (UInt32.ofNat offset) b with
  | .ok fs => .ok fs
  | .error .fail => .ok fs
  | .error s => .error (.store s)

def strncpy (dst : Bytes) (s : Text) (n : Nat) : Bytes := fun x => if x < n then s.getD x 0 else dst x

/-- `load_file`, to the place `a` of a buffer. -/
def loadFile (file : List UInt8) (dst : Bytes) (a : Nat) : Bytes := fun x =>
  if a ≤ x then file.getD (x - a) (dst x) else dst x

/-- The file in blocks. The last one ends with what the buffer held before. -/
def writeFile (fs : Disk) (ino : Nat) (inode : Bytes) (size : Nat) : Except Stop Disk :=
  (List.range ((size + 511) / 512)).foldlM (fun fs b => write fs ino b (blockAt inode (512 * b))) fs

def loadApp (s : Tool) (e : Dirent) : Except Stop Tool :=
  if e.IsElf then
    if size2MB < e.file.length then .error .overflow
    else do
      let inode := loadFile e.file s.inode 0
      let fs ← writeFile s.fs s.appIno inode e.file.length
      let binDir := s.binDir ++ Entry.text ⟨e.name, s.appIno⟩
      if 256 ≤ binDir.length then throw .overflow
      return ⟨fs, inode, binDir, s.appIno + 1⟩
  else .ok s

/-- The 512 bytes from `bin_dir` on, of which the array has 256. -/
def binDirBytes (binDir : Text) (beyond : Bytes) : Bytes := fun x =>
  if x < 256 then binDir.getD x 0 else beyond x

def loadContents (fs : Disk) : Except Stop (Disk × Bytes) :=
  (List.range binDirInode).foldlM (fun s ino => do
    let inode := strncpy s.2 (contents.getD ino []) blockSize
    let fs ← write s.1 ino 0 (blockAt inode 0)
    return (fs, inode)) (fs, fun _ => 0)

/-- What `bin_dir` starts with. -/
def binStart : Text := ascii "./   6 ../   0 "

def ramdisk : Disk := ⟨4096, fun _ => nullBlock⟩

def makeFs (dir : List Dirent) (beyond : Bytes) : Except Stop Disk :=
  match treediskCreate ramdisk ninodes with
  | .error s => .error (.store s)
  | .ok fs => do
    let (fs, inode) ← loadContents fs
    let s ← dir.foldlM loadApp ⟨fs, inode, binStart, binDirInode + 1⟩
    write s.fs binDirInode 0 (blockAt (binDirBytes s.binDir beyond) 0)

/-- `exec[]`, with the binaries one after another. -/
def exec (binaries : List (List UInt8)) : Bytes :=
  binaries.zipIdx.foldl (fun mem p => loadFile p.1 mem (p.2 * egosBinMaxNbyte)) fun _ => 0

def diskImg (exec : Bytes) (fs : Disk) : Bytes := fun x => if x < size2MB then exec x else fsOf fs (x - size2MB)

/-- The file system is formatted, and `f` is what its inodes hold. -/
structure Store (fs : Disk) (f : Files UInt32 BlockNo Block) : Prop where
  refines : Refines fs f
  inodes : inodeblocks fs.data = 2
  size : fs.size = 4096

theorem toNat_ofNat_small {n : Nat} (h : n < 4096) : (UInt32.ofNat n).toNat = n :=
  UInt32.toNat_ofNat_of_lt' (h.trans (by decide))

theorem Store.validIno {fs : Disk} {f : Files UInt32 BlockNo Block} (h : Store fs f) {ino : Nat}
    (hino : ino < 128) : ValidIno fs (UInt32.ofNat ino) := by
  have hin : (fs.data 0).nInodeblocks.toNat = 2 := h.inodes
  rw [ValidIno, hin, toNat_ofNat_small (by omega)]
  exact hino

theorem write_store {fs : Disk} {f : Files UInt32 BlockNo Block} (h : Store fs f) {ino offset : Nat}
    (hino : ino < 128) (hoffset : offset < 4096) (b : Block) :
    Sat (write fs ino offset b)
      (fun fs' => Store fs' (put UInt32.toNat f ⟨UInt32.ofNat ino, UInt32.ofNat offset, b⟩)) fun _ => True := by
  have hvalid : ValidWrite fs ⟨UInt32.ofNat ino, UInt32.ofNat offset, b⟩ := by
    refine ⟨h.validIno hino, ?_⟩
    change (UInt32.ofNat offset).toNat < _
    rw [toNat_ofNat_small hoffset]
    omega
  have hwrite := refines_write h.refines hvalid
  unfold write
  cases hresult : treediskWrite fs (UInt32.ofNat ino) (UInt32.ofNat offset) b with
  | ok fs' =>
    obtain ⟨hrefines, hin, hsize⟩ := hwrite.of_ok hresult
    exact ⟨hrefines, hin.trans h.inodes, hsize.trans h.size⟩
  | error e =>
    obtain ⟨core, l, rfl, -⟩ := hwrite.of_error hresult
    exact trivial

/-- Inode `ino` holds the file, in blocks that may have anything behind its end. -/
def HoldsFile (f : Files UInt32 BlockNo Block) (ino : Nat) (file : List UInt8) : Prop :=
  ∀ b, blockSize * b < file.length → ∃ block, f.data (UInt32.ofNat ino) (UInt32.ofNat b) = some block ∧
    b < f.size (UInt32.ofNat ino) ∧
    ∀ x < blockSize, blockSize * b + x < file.length → file[blockSize * b + x]? = some (blockByte block x)

/-- `f'` differs from `f` in inode `ino` only. -/
def SameBut (ino : Nat) (f f' : Files UInt32 BlockNo Block) : Prop :=
  ∀ k, k ≠ UInt32.ofNat ino → f'.size k = f.size k ∧ f'.data k = f.data k

theorem put_sameBut (f : Files UInt32 BlockNo Block) (ino : Nat) (offset : BlockNo) (b : Block) :
    SameBut ino f (put UInt32.toNat f ⟨UInt32.ofNat ino, offset, b⟩) := by
  intro k hk
  refine ⟨?_, ?_⟩
  · rw [put_size, if_neg hk]
  · funext off
    rw [put_data, if_neg fun h => hk h.1]

theorem SameBut.trans {ino : Nat} {f f' f'' : Files UInt32 BlockNo Block} (h : SameBut ino f f')
    (h' : SameBut ino f' f'') : SameBut ino f f'' := fun k hk =>
  ⟨(h' k hk).1.trans (h k hk).1, (h' k hk).2.trans (h k hk).2⟩

theorem ofNat_ne {i j : Nat} (hi : i < 4096) (hj : j < 4096) (hne : i ≠ j) : UInt32.ofNat i ≠ UInt32.ofNat j := by
  intro he
  have hval := congrArg UInt32.toNat he
  rw [toNat_ofNat_small hi, toNat_ofNat_small hj] at hval
  exact hne hval

theorem HoldsFile.other {f f' : Files UInt32 BlockNo Block} {ino i : Nat} {file : List UInt8}
    (h : HoldsFile f i file) (hsame : SameBut ino f f') (hne : UInt32.ofNat i ≠ UInt32.ofNat ino) :
    HoldsFile f' i file := by
  obtain ⟨hsize, hdata⟩ := hsame _ hne
  intro b hb
  rw [hsize, hdata]
  exact h b hb

/-- The first `n` blocks of the file have been written. -/
def Written (f : Files UInt32 BlockNo Block) (ino : Nat) (inode : Bytes) (n : Nat) (fs : Disk) : Prop :=
  ∃ f', Store fs f' ∧ SameBut ino f f' ∧ ∀ b < n,
    f'.data (UInt32.ofNat ino) (UInt32.ofNat b) = some (blockAt inode (blockSize * b)) ∧
      b < f'.size (UInt32.ofNat ino)

theorem writeFile_store {fs : Disk} {f : Files UInt32 BlockNo Block} (h : Store fs f) {ino size : Nat}
    (hino : ino < 128) (inode : Bytes) (hsize : size ≤ size2MB) :
    Sat (writeFile fs ino inode size) (Written f ino inode ((size + 511) / 512)) fun _ => True := by
  have hrounds : (size + 511) / 512 ≤ 4096 := by
    simp only [size2MB] at hsize
    omega
  refine sat_range ⟨f, h, fun _ _ => ⟨rfl, rfl⟩, fun b hb => absurd hb (Nat.not_lt_zero b)⟩ ?_
  rintro n hn fs' ⟨f', hstore, hsame, hblocks⟩
  refine (write_store hstore hino (by omega) _).imp (fun fs'' hstore' => ?_) fun _ h => h
  refine ⟨_, hstore', hsame.trans (put_sameBut _ _ _ _), fun b hb => ?_⟩
  have htoNat : (UInt32.ofNat n).toNat = n := toNat_ofNat_small (by omega)
  rw [put_data, put_size, if_pos rfl]
  dsimp only
  rw [htoNat]
  by_cases hbn : b = n
  · subst hbn
    rw [if_pos ⟨rfl, rfl⟩]
    exact ⟨rfl, by omega⟩
  · obtain ⟨hdata, hlt⟩ := hblocks b (by omega)
    rw [if_neg fun h => ofNat_ne (by omega) (by omega) hbn h.2]
    exact ⟨hdata, by omega⟩

theorem loadFile_at (file : List UInt8) (dst : Bytes) {x : Nat} (hx : x < file.length) :
    file[x]? = some (loadFile file dst 0 x) := by
  rw [loadFile, if_pos (Nat.zero_le x), Nat.sub_zero, List.getD_eq_getElem?_getD, List.getElem?_eq_getElem hx]
  rfl

theorem Written.holdsFile {f : Files UInt32 BlockNo Block} {ino : Nat} {file : List UInt8} {dst : Bytes} {fs : Disk}
    (h : Written f ino (loadFile file dst 0) ((file.length + 511) / 512) fs) :
    ∃ f', Store fs f' ∧ SameBut ino f f' ∧ HoldsFile f' ino file := by
  obtain ⟨f', hstore, hsame, hblocks⟩ := h
  refine ⟨f', hstore, hsame, fun b hb => ?_⟩
  obtain ⟨hdata, hlt⟩ := hblocks b (by simp only [blockSize] at hb; omega)
  refine ⟨_, hdata, hlt, fun x hx hin => ?_⟩
  rw [blockByte_blockAt _ _ hx]
  exact loadFile_at file dst hin

/-- The entries of the directory of the programs. -/
def binEntries (done : List Dirent) : List Entry :=
  [⟨ascii "./", 6⟩, ⟨ascii "../", 0⟩] ++ done.zipIdx.map fun p => ⟨p.1.name, p.2 + 7⟩

theorem binEntries_append (done : List Dirent) (e : Dirent) :
    binEntries (done ++ [e]) = binEntries done ++ [⟨e.name, done.length + 7⟩] := by
  rw [binEntries, List.zipIdx_append, List.map_append]
  simp [binEntries]

/-- The root directory and the programs that have been loaded. -/
structure Loaded (s : Tool) (done : List Dirent) (f : Files UInt32 BlockNo Block) : Prop where
  store : Store s.fs f
  appIno : s.appIno = done.length + 7
  binDir : s.binDir = dirText (binEntries done)
  fits : s.binDir.length < 256
  root : HoldsFile f 0 (contents.getD 0 [] ++ [0])
  files : ∀ i e, done[i]? = some e → HoldsFile f (i + 7) e.file

theorem dirText_append (entries : List Entry) (e : Entry) :
    dirText (entries ++ [e]) = dirText entries ++ e.text := by
  simp [dirText]

theorem entryText_length (e : Entry) : 5 ≤ e.text.length := by
  have hpad : 4 ≤ (List.replicate (4 - (decimal e.ino).length) Library.space).length + (decimal e.ino).length := by
    rw [List.length_replicate]
    omega
  simp only [Library.Entry.text, List.length_append, List.length_cons, List.length_nil] at *
  omega

theorem dirText_length (entries : List Entry) : 5 * entries.length ≤ (dirText entries).length := by
  induction entries with
  | nil => exact Nat.le_refl 0
  | cons e entries ih =>
    have htext : dirText (e :: entries) = e.text ++ dirText entries := List.flatMap_cons
    have hlen := entryText_length e
    rw [htext, List.length_append, List.length_cons]
    omega

theorem binEntries_few {done : List Dirent} (h : (dirText (binEntries done)).length < 256) : done.length < 50 := by
  have hlen := dirText_length (binEntries done)
  have hcount : (binEntries done).length = done.length + 2 := by
    simp [binEntries]
  omega

theorem Loaded.few {s : Tool} {done : List Dirent} {f : Files UInt32 BlockNo Block} (h : Loaded s done f) :
    done.length < 50 := by
  have hfits := h.fits
  rw [h.binDir] at hfits
  exact binEntries_few hfits

theorem loadApp_loaded {s : Tool} {done : List Dirent} {f : Files UInt32 BlockNo Block} (h : Loaded s done f)
    (e : Dirent) (helf : e.IsElf) :
    Sat (loadApp s e) (fun s' => ∃ f', Loaded s' (done ++ [e]) f') fun _ => True := by
  have hfew := h.few
  have hino := h.appIno
  unfold loadApp
  rw [if_pos helf]
  split
  · exact trivial
  · rename_i hsize
    have hsmall : s.appIno < 128 := by omega
    have hwrite := writeFile_store h.store hsmall (loadFile e.file s.inode 0) (Nat.le_of_not_lt hsize)
    dsimp only
    rw [sat_bind]
    refine hwrite.imp (fun fs' hwritten => ?_) fun _ h => h
    obtain ⟨f', hstore, hsame, hholds⟩ := hwritten.holdsFile
    split
    · exact trivial
    · rename_i hfits
      refine ⟨f', hstore, ?_, ?_, Nat.lt_of_not_le hfits, ?_, fun i e' hi => ?_⟩
      · simp only [List.length_append, List.length_cons, List.length_nil]
        omega
      · rw [binEntries_append, dirText_append, h.binDir, hino]
      · exact h.root.other hsame (ofNat_ne (by omega) (by omega) (by omega))
      · rcases Nat.lt_or_ge i done.length with hlt | hge
        · rw [List.getElem?_append_left hlt] at hi
          exact (h.files i e' hi).other hsame (ofNat_ne (by omega) (by omega) (by omega))
        · rw [List.getElem?_append_right hge] at hi
          rw [List.getElem?_singleton] at hi
          split at hi
          · cases hi
            rw [show i + 7 = s.appIno by omega]
            exact hholds
          · cases hi

/-- The programs among the files of the build directory. -/
def programs (dir : List Dirent) : List Dirent := dir.filter Dirent.IsElf

theorem programs_cons_elf {e : Dirent} (helf : e.IsElf) (dir : List Dirent) :
    programs (e :: dir) = e :: programs dir := by
  simp [programs, helf]

theorem programs_cons_other {e : Dirent} (helf : ¬e.IsElf) (dir : List Dirent) : programs (e :: dir) = programs dir := by
  simp [programs, helf]

theorem loadApps_loaded {s : Tool} {done : List Dirent} {f : Files UInt32 BlockNo Block} (h : Loaded s done f)
    (dir : List Dirent) :
    Sat (dir.foldlM loadApp s) (fun s' => ∃ f', Loaded s' (done ++ programs dir) f') fun _ => True := by
  induction dir generalizing s done f with
  | nil =>
    refine ⟨f, ?_⟩
    rw [programs, List.filter_nil, List.append_nil]
    exact h
  | cons e dir ih =>
    rw [List.foldlM_cons, sat_bind]
    by_cases helf : e.IsElf
    · have hmove : done ++ programs (e :: dir) = done ++ [e] ++ programs dir := by
        rw [programs_cons_elf helf, List.append_assoc]
        rfl
      rw [hmove]
      refine (loadApp_loaded h e helf).imp (fun s' hs' => ?_) fun _ h => h
      obtain ⟨f', hloaded⟩ := hs'
      exact ih hloaded
    · rw [loadApp, if_neg helf, programs_cons_other helf]
      exact ih h

theorem getD_at (s : Text) {x : Nat} (hx : x ≤ s.length) : (s ++ [0])[x]? = some (s.getD x 0) := by
  rw [List.getD_eq_getElem?_getD]
  rcases Nat.lt_or_ge x s.length with hlt | hge
  · rw [List.getElem?_append_left hlt, List.getElem?_eq_getElem hlt]
    rfl
  · rw [List.getElem?_append_right hge, List.getElem?_eq_none hge, Nat.le_antisymm hx hge, Nat.sub_self]
    rfl

/-- A short text, written with the NUL behind it. -/
theorem holdsFile_text (f : Files UInt32 BlockNo Block) (ino : Nat) {s : Text} (hs : s.length < blockSize)
    {mem : Bytes} (hmem : ∀ x ≤ s.length, mem x = s.getD x 0) :
    HoldsFile (put UInt32.toNat f ⟨UInt32.ofNat ino, UInt32.ofNat 0, blockAt mem 0⟩) ino (s ++ [0]) := by
  intro b hb
  rw [List.length_append, List.length_singleton] at hb
  have hzero : b = 0 := by
    simp only [blockSize] at hb hs
    omega
  subst hzero
  refine ⟨_, by rw [put_data, if_pos ⟨rfl, rfl⟩], ?_, fun x hx hin => ?_⟩
  · rw [put_size, if_pos rfl]
    exact Nat.lt_of_lt_of_le (Nat.succ_pos _) (Nat.le_max_right _ _)
  · rw [List.length_append, List.length_singleton, Nat.mul_zero, Nat.zero_add] at hin
    have hle := Nat.le_of_lt_succ hin
    rw [blockByte_blockAt _ _ hx, Nat.mul_zero, Nat.zero_add, hmem x hle]
    exact getD_at s hle

/-- The state of `loadContents` after `n` rounds. -/
def ContentsLoaded (n : Nat) (r : Disk × Bytes) : Prop :=
  ∃ f, Store r.1 f ∧ (0 < n → HoldsFile f 0 (contents.getD 0 [] ++ [0]))

theorem loadContents_store {fs : Disk} {f : Files UInt32 BlockNo Block} (h : Store fs f) :
    Sat (loadContents fs) (ContentsLoaded binDirInode) fun _ => True := by
  refine sat_range ⟨f, h, fun hlt => absurd hlt (Nat.lt_irrefl 0)⟩ ?_
  rintro n hn ⟨fs', inode⟩ ⟨f', hstore, hroot⟩
  have hn' : n < 6 := hn
  dsimp only
  rw [sat_bind]
  refine (write_store hstore (by omega) (by omega) _).imp (fun fs'' hstore' => ?_) fun _ h => h
  refine ⟨_, hstore', fun _ => ?_⟩
  by_cases hzero : n = 0
  · subst hzero
    have hshort : (contents.getD 0 []).length < blockSize := by decide +kernel
    exact holdsFile_text _ 0 hshort fun x hx => if_pos (Nat.lt_of_le_of_lt hx hshort)
  · exact (hroot (by omega)).other (put_sameBut _ _ _ _) (ofNat_ne (by omega) (by omega) (by omega))

/-- The image of the file system holds the programs, under their names. -/
structure Holds (fs : Disk) (dir : List Dirent) (f : Files UInt32 BlockNo Block) : Prop where
  store : Store fs f
  fits : (dirText (binEntries (programs dir))).length < 256
  root : HoldsFile f 0 (contents.getD 0 [] ++ [0])
  bin : HoldsFile f binDirInode (dirText (binEntries (programs dir)) ++ [0])
  files : ∀ i e, (programs dir)[i]? = some e → HoldsFile f (i + 7) e.file

theorem Holds.few {fs : Disk} {dir : List Dirent} {f : Files UInt32 BlockNo Block} (h : Holds fs dir f) :
    (programs dir).length < 50 := binEntries_few h.fits

theorem formatted_store {fs : Disk} (h : treediskCreate ramdisk ninodes = .ok fs) : Store fs empty := by
  have hformat := ((treediskCreate_spec (d := ramdisk) rfl ninodes).of_ok h).2
  refine ⟨hformat.refines, hformat.reserved, hformat.size⟩

theorem binStart_eq : binStart = dirText (binEntries []) := by decide +kernel

theorem binStart_fits : binStart.length < 256 := by decide +kernel

theorem makeFs_holds (dir : List Dirent) (beyond : Bytes) :
    Sat (makeFs dir beyond) (fun fs => ∃ f, Holds fs dir f) fun _ => True := by
  unfold makeFs
  cases hcreate : treediskCreate ramdisk ninodes with
  | error e => exact trivial
  | ok fs =>
    dsimp only
    rw [sat_bind]
    refine (loadContents_store (formatted_store hcreate)).imp (fun r hr => ?_) fun _ h => h
    obtain ⟨f, hstore, hroot⟩ := hr
    have hstart : Loaded ⟨r.1, r.2, binStart, binDirInode + 1⟩ [] f := by
      refine ⟨hstore, rfl, binStart_eq, binStart_fits, hroot (by decide), fun i e hi => ?_⟩
      cases hi
    rw [sat_bind]
    refine (loadApps_loaded hstart dir).imp (fun s hs => ?_) fun _ h => h
    obtain ⟨f', hloaded⟩ := hs
    rw [List.nil_append] at hloaded
    have hfew := hloaded.few
    refine (write_store hloaded.store (by decide) (by decide) _).imp (fun fs' hstore' => ?_) fun _ h => h
    have hsame := put_sameBut f' binDirInode (UInt32.ofNat 0) (blockAt (binDirBytes s.binDir beyond) 0)
    refine ⟨_, hstore', ?_, ?_, ?_, fun i e hi => ?_⟩
    · rw [← hloaded.binDir]
      exact hloaded.fits
    · exact hloaded.root.other hsame (by decide)
    · rw [← hloaded.binDir]
      have hfits := hloaded.fits
      exact holdsFile_text f' binDirInode (hfits.trans (by decide)) fun x hx => if_pos (Nat.lt_of_le_of_lt hx hfits)
    · have hlt : i < (programs dir).length := (List.getElem?_eq_some_iff.mp hi).1
      exact (hloaded.files i e hi).other hsame (ofNat_ne (by omega) (by decide) (by simp only [binDirInode]; omega))

end OsSuite.Mkfs
