import OsSuite.DiskRead
import OsSuite.MkfsRoom

/-! From the disk image to the memory of a process: the driver of the ROM, the file server, and
GPID_PROCESS, which looks the program up and loads it. -/

namespace OsSuite.Mkfs

open CString Treedisk SparseFiles
open Grep (ascii)
open Library (Entry Directory dirText dirLookup)

abbrev fileSysDiskStart : UInt32 := 4096

def diskRead (rom : Bytes) (blockNo : UInt32) : Block := blockAt rom (blockNo * 512).toNat

/-- The block is what each of the three disks puts into the buffer. -/
theorem diskRead_bytes (rom : Bytes) {blockNo : UInt32} (hblock : blockNo.toNat ≤ 2 ^ 22) :
    (List.range blockSize).map (blockByte (diskRead rom blockNo)) = SdCard.Request.bytes rom ⟨blockNo, 1⟩ := by
  have hone : 512 * (1 : UInt32).toNat = blockSize := rfl
  rw [SdCard.Request.bytes, hone]
  refine List.map_congr_left fun x hx => ?_
  rw [diskRead, blockByte_blockAt _ _ (List.mem_range.mp hx), SdCard.mul_blockSize hblock]

/-- The disk of the file server. The walk through an intact file system never leaves it. -/
def sysFileDisk (rom : Bytes) : Disk := ⟨4096, fun n => diskRead rom (fileSysDiskStart + UInt32.ofNat n)⟩

/-- `file_read`. Where the read fails the block of the reply is what stood there before. -/
def fileRead (rom : Bytes) (stale : Elf.Block) (ino : Int) (offset : UInt32) : Elf.Block :=
  match treediskRead (sysFileDisk rom) (UInt32.ofNat ino.toNat) offset with
  | .ok block => fun x => blockByte block x.val
  | .error _ => stale

/-- `dir_lookup`, with the block that it reads. -/
def lookupIn (rom : Bytes) (stale : Elf.Block) (dirIno : Int) (name : Text) : Option Int :=
  dirLookup (List.ofFn (fileRead rom stale dirIno 0)) name

/-- The inode that `app_spawn` finds for a command. -/
def appIno (rom : Bytes) (stale : Elf.Block) (name : Text) : Option Int := do
  let binIno ← lookupIn rom stale 0 (ascii "bin/")
  lookupIn rom stale binIno name

def appRead (rom : Bytes) (stale : Elf.Block) (ino : Int) : Elf.Reader := fileRead rom stale ino

theorem diskImg_fs (exec : Bytes) (fs : Disk) {n : Nat} (hn : n < 4096) :
    diskRead (diskImg exec fs) (fileSysDiskStart + UInt32.ofNat n) = fs.data n := by
  have haddr : ((fileSysDiskStart + UInt32.ofNat n) * 512).toNat = size2MB + n * blockSize := by
    have hstart : fileSysDiskStart.toNat = 4096 := rfl
    have hsize : (512 : UInt32).toNat = 512 := rfl
    rw [UInt32.toNat_mul, UInt32.toNat_add, hstart, hsize, toNat_ofNat_small hn]
    simp only [size2MB, blockSize]
    omega
  rw [diskRead, haddr]
  refine blockAt_eq fun x hx => ?_
  simp only [blockSize] at hx
  have hfs : (size2MB + n * blockSize + x) - size2MB = n * blockSize + x := by omega
  have hdiv : (n * blockSize + x) / blockSize = n := by
    simp only [blockSize]
    omega
  have hmod : (n * blockSize + x) % blockSize = x := by
    simp only [blockSize]
    omega
  rw [diskImg, if_neg (by omega), hfs, fsOf, hdiv, hmod]

theorem sysFileDisk_read (exec : Bytes) {fs : Disk} (hsize : fs.size = 4096) (off : BlockNo) :
    (sysFileDisk (diskImg exec fs)).read off = fs.read off := by
  have hmine : (sysFileDisk (diskImg exec fs)).size = 4096 := rfl
  rw [Disk.read, Disk.read, hsize, hmine]
  by_cases hlt : off < 4096
  · have hoff : off.toNat < 4096 := UInt32.lt_iff_toNat_lt.mp hlt
    have hdata := diskImg_fs exec fs hoff
    rw [if_pos hlt, if_pos hlt]
    exact congrArg some hdata
  · rw [if_neg hlt, if_neg hlt]

theorem readWalk_congr {d d' : Disk} (h : ∀ off, d.read off = d'.read off) (offset : BlockNo) (l : Nat)
    (b : BlockNo) : readWalk d offset l b = readWalk d' offset l b := by
  induction l generalizing b with
  | zero =>
    unfold readWalk
    rw [h]
    cases d'.read b <;> rfl
  | succ l ih =>
    unfold readWalk
    rw [h]
    cases d'.read b with
    | none => rfl
    | some block =>
      dsimp only
      rw [ih]

/-- A read depends on nothing but the blocks of the store. -/
theorem treediskRead_congr {d d' : Disk} (h : ∀ off, d.read off = d'.read off) (ino : UInt32) (offset : BlockNo) :
    treediskRead d ino offset = treediskRead d' ino offset := by
  have hsnapshot : treediskGetSnapshot d ino = treediskGetSnapshot d' ino := by
    simp only [treediskGetSnapshot, h]
  rw [treediskRead, treediskRead, hsnapshot]
  simp only [readWalk_congr h]

section Served

variable {fs : Disk} {f : Files UInt32 BlockNo Block} {exec : Bytes} {stale : Elf.Block} {ino : Nat}
  {file : List UInt8}

theorem treediskRead_holds (exec : Bytes) (h : Store fs f) (hino : ino < 128) (hfile : HoldsFile f ino file) {n : Nat}
    (hn : blockSize * n < file.length) :
    ∃ block, treediskRead (sysFileDisk (diskImg exec fs)) (UInt32.ofNat ino) (UInt32.ofNat n) = .ok block ∧
      ∀ x < blockSize, blockSize * n + x < file.length → file[blockSize * n + x]? = some (blockByte block x) := by
  obtain ⟨block, hdata, hlt, hbytes⟩ := hfile n hn
  have hoff : (UInt32.ofNat n).toNat ≤ n := Nat.mod_le _ _
  refine ⟨block, ?_, hbytes⟩
  rw [treediskRead_congr (sysFileDisk_read exec h.size), h.refines.read (h.validIno hino), if_neg (by omega), hdata]
  rfl

theorem fileRead_at (exec : Bytes) (stale : Elf.Block) (h : Store fs f) (hino : ino < 128) (hfile : HoldsFile f ino file) {a : Nat}
    (ha : a < file.length) :
    file[a]? = some (Elf.fileByte (fileRead (diskImg exec fs) stale ino) a) := by
  have hsplit : blockSize * (a / 512) + a % 512 = a := Nat.div_add_mod a 512
  obtain ⟨block, hread, hbytes⟩ := treediskRead_holds exec h hino hfile (n := a / 512) (by omega)
  have hbyte := hbytes (a % 512) (Nat.mod_lt a (by decide)) (by omega)
  rw [hsplit] at hbyte
  rw [hbyte, Elf.fileByte, fileRead, Int.toNat_natCast, hread]

theorem encodes_of_holds (h : Store fs f) (hino : ino < 128) (d : Directory)
    (hfile : HoldsFile f ino (dirText d.entries ++ [0])) :
    d.Encodes (List.ofFn (fileRead (diskImg exec fs) stale ino 0)) := by
  have hfits := d.fits
  have hlen : (List.ofFn (fileRead (diskImg exec fs) stale ino 0)).length = Library.blockSize := List.length_ofFn
  have hprefix : dirText d.entries ++ [0] <+: List.ofFn (fileRead (diskImg exec fs) stale ino 0) := by
    rw [List.prefix_iff_getElem?]
    intro a ha
    have hbyte := fileRead_at exec stale h hino hfile ha
    rw [List.length_append, List.length_singleton] at ha
    have hsmall : a < 512 := by
      simp only [Library.blockSize] at hfits
      omega
    have hzero : UInt32.ofNat (a / 512) = 0 := by rw [Nat.div_eq_of_lt hsmall]; rfl
    have hplace : (⟨a % 512, Nat.mod_lt a (by decide)⟩ : Fin 512) = ⟨a, hsmall⟩ :=
      Fin.ext (Nat.mod_eq_of_lt hsmall)
    rw [Elf.fileByte, hzero, hplace] at hbyte
    rw [List.getElem?_eq_getElem (by rw [hlen]; exact hsmall), List.getElem_ofFn]
    exact hbyte.symm.trans (List.getElem?_eq_getElem _)
  obtain ⟨tail, htail⟩ := hprefix
  refine ⟨hlen, tail, ?_⟩
  rw [← htail, List.append_assoc]
  rfl

theorem inodeOf_mem {entries : List Entry} {e : Entry} (he : e ∈ entries)
    (hdistinct : (entries.map Entry.name).Nodup) : Library.inodeOf entries e.name = e.ino := by
  induction entries with
  | nil => cases he
  | cons x entries ih =>
    rw [List.map_cons, List.nodup_cons] at hdistinct
    rw [Library.inodeOf_cons]
    rcases List.mem_cons.mp he with rfl | he
    · rw [if_pos rfl]
    · have hname : x.name ≠ e.name := by
        intro hname
        rw [hname] at hdistinct
        exact hdistinct.1 (List.mem_map_of_mem he)
      rw [if_neg hname]
      exact ih he hdistinct.2

/-- A name that is in a directory, and is no number, is found. -/
theorem lookupIn_eq (h : Store fs f) (hino : ino < 128) (d : Directory)
    (hfile : HoldsFile f ino (dirText d.entries ++ [0])) {e : Entry} (he : e ∈ d.entries)
    (hshort : e.name.length ≤ 32) (hword : ∀ n, decimal n ≠ e.name) :
    lookupIn (diskImg exec fs) stale ino e.name = some (e.ino : Int) := by
  obtain ⟨hne, hspace, hzero⟩ := d.named e he
  have hlen : e.name.length ≤ (dirText d.entries).length := by
    have hmem : e.text.length ≤ (dirText d.entries).length := by
      obtain ⟨before, after, hsplit⟩ := List.append_of_mem he
      rw [hsplit, dirText, List.flatMap_append, List.length_append, List.flatMap_cons, List.length_append]
      omega
    have htext : e.name.length ≤ e.text.length := by
      rw [Entry.text, List.length_append]
      exact Nat.le_add_right _ _
    exact htext.trans hmem
  have hencodes : d.Encodes (List.ofFn (fileRead (diskImg exec fs) stale ino 0)) := encodes_of_holds h hino d hfile
  have hfound := Library.dirLookup_eq d ⟨e.name, hne, hspace, hzero, hshort⟩ hencodes hlen
  rw [lookupIn, hfound, ← inodeOf_mem he d.distinct]
  rcases Library.answer_cases e.name d.entries with ⟨rest, before, x, -, -, hnumber, -⟩ | hanswer
  · exact absurd hnumber (hword x.ino)
  · exact hanswer

def rootDir : Directory where
  entries := [⟨ascii "./", 6⟩, ⟨ascii "../", 0⟩, ⟨ascii "home/", 1⟩, ⟨ascii "bin/", 6⟩]
  named := by decide +kernel
  inodes := by decide +kernel
  distinct := by decide +kernel
  fits := by decide +kernel

theorem rootDir_text : dirText rootDir.entries = contents.getD 0 [] := by decide +kernel

def binEntry : Entry := ⟨ascii "bin/", 6⟩

theorem binEntry_mem : binEntry ∈ rootDir.entries := by decide +kernel

theorem binEntry_short : binEntry.name.length ≤ 32 := by decide +kernel

theorem binEntry_word (n : Nat) : decimal n ≠ binEntry.name := by
  intro hn
  have hmem : 98 ∈ binEntry.name := by decide +kernel
  rw [← hn] at hmem
  exact absurd (isDigit_of_mem_decimal hmem) (by decide)

/-- The programs have names that can be typed as commands. -/
structure Named (dir : List Dirent) : Prop where
  named : ∀ e ∈ programs dir, e.name ≠ [] ∧ Library.space ∉ e.name ∧ 0 ∉ e.name ∧ 47 ∉ e.name
  distinct : ((programs dir).map Dirent.name).Nodup

theorem mem_binEntries {done : List Dirent} {x : Entry} (h : x ∈ binEntries done) :
    (x = ⟨ascii "./", 6⟩ ∨ x = ⟨ascii "../", 0⟩) ∨ ∃ i e, done[i]? = some e ∧ x = ⟨e.name, i + 7⟩ := by
  rcases List.mem_append.mp h with h | h
  · refine Or.inl ?_
    simpa using h
  · obtain ⟨⟨e, i⟩, hmem, rfl⟩ := List.mem_map.mp h
    exact Or.inr ⟨i, e, List.mem_zipIdx_iff_getElem?.mp hmem, rfl⟩

theorem binEntries_mem {done : List Dirent} {i : Nat} {e : Dirent} (hi : done[i]? = some e) :
    ⟨e.name, i + 7⟩ ∈ binEntries done :=
  List.mem_append_right _ (List.mem_map.mpr ⟨(e, i), List.mem_zipIdx_iff_getElem?.mpr hi, rfl⟩)

theorem binEntries_names (done : List Dirent) :
    (binEntries done).map Entry.name = [ascii "./", ascii "../"] ++ done.map Dirent.name := by
  rw [binEntries, List.map_append, List.map_map]
  congr 1
  have hcomp : (Entry.name ∘ fun p : Dirent × Nat => (⟨p.1.name, p.2 + 7⟩ : Entry)) = Dirent.name ∘ Prod.fst := rfl
  rw [hcomp, ← List.map_map, List.zipIdx_map_fst]

def binDir {dir : List Dirent} (hnamed : Named dir) {fs : Disk} {f : Files UInt32 BlockNo Block}
    (h : Holds fs dir f) : Directory where
  entries := binEntries (programs dir)
  named := by
    intro x hx
    rcases mem_binEntries hx with (rfl | rfl) | ⟨i, e, hi, rfl⟩
    · decide +kernel
    · decide +kernel
    · obtain ⟨hne, hspace, hzero, -⟩ := hnamed.named e (List.mem_of_getElem? hi)
      exact ⟨hne, hspace, hzero⟩
  inodes := by
    intro x hx
    rcases mem_binEntries hx with (rfl | rfl) | ⟨i, e, hi, rfl⟩
    · decide
    · decide
    · have hfew := h.few
      have hlt : i < (programs dir).length := (List.getElem?_eq_some_iff.mp hi).1
      change i + 7 < 128
      omega
  distinct := by
    have hslash : 47 ∈ ascii "./" ∧ 47 ∈ ascii "../" ∧ [ascii "./", ascii "../"].Nodup := by decide +kernel
    rw [binEntries_names, List.nodup_append]
    refine ⟨hslash.2.2, hnamed.distinct, fun x hx y hy he => ?_⟩
    obtain ⟨e, hmem, rfl⟩ := List.mem_map.mp hy
    have hnot := (hnamed.named e hmem).2.2.2
    rw [← he] at hnot
    simp only [List.mem_cons, List.not_mem_nil, or_false] at hx
    rcases hx with rfl | rfl
    · exact hnot hslash.1
    · exact hnot hslash.2.1
  fits := h.fits.trans (by decide)

section Installed

variable {dir : List Dirent} {beyond : Bytes} {i : Nat} {e : Dirent}

theorem installed_found (exec : Bytes) (stale : Elf.Block) (hmake : makeFs dir beyond = .ok fs) (hnamed : Named dir)
    (hi : (programs dir)[i]? = some e) (hshort : e.name.length ≤ 32) (hword : ∀ n, decimal n ≠ e.name) :
    appIno (diskImg exec fs) stale e.name = some ((i + 7 : Nat) : Int) := by
  obtain ⟨f, hholds⟩ := (makeFs_holds dir beyond).of_ok hmake
  have hfew := hholds.few
  have hlt : i < (programs dir).length := (List.getElem?_eq_some_iff.mp hi).1
  have hbytes := hholds.root
  rw [← rootDir_text] at hbytes
  have hroot : lookupIn (diskImg exec fs) stale (0 : Nat) binEntry.name = some (binEntry.ino : Int) :=
    lookupIn_eq hholds.store (by decide) rootDir hbytes binEntry_mem binEntry_short binEntry_word
  have hfound : lookupIn (diskImg exec fs) stale (6 : Nat) e.name = some ((i + 7 : Nat) : Int) :=
    lookupIn_eq hholds.store (by decide) (binDir hnamed hholds) hholds.bin (e := ⟨e.name, i + 7⟩)
      (binEntries_mem hi) hshort hword
  have hname : ascii "bin/" = binEntry.name := rfl
  have hzero : (0 : Int) = ((0 : Nat) : Int) := rfl
  rw [appIno, hname, hzero, hroot, Option.bind_eq_bind, Option.bind_some]
  exact hfound

theorem installed_bytes (exec : Bytes) (stale : Elf.Block) (hmake : makeFs dir beyond = .ok fs) (hi : (programs dir)[i]? = some e) {a : Nat}
    (ha : a < e.file.length) :
    e.file[a]? = some (Elf.fileByte (appRead (diskImg exec fs) stale ((i + 7 : Nat) : Int)) a) := by
  obtain ⟨f, hholds⟩ := (makeFs_holds dir beyond).of_ok hmake
  have hfew := hholds.few
  have hlt : i < (programs dir).length := (List.getElem?_eq_some_iff.mp hi).1
  exact fileRead_at exec stale hholds.store (by omega) (hholds.files i e hi) ha

end Installed

end Served

/-- `app_spawn` finds a program that the image was made with, and reads its file byte for byte. -/
theorem installed_read (exec : Bytes) (stale : Elf.Block) (dir : List Dirent) (beyond : Bytes) (fs : Disk)
    (i : Nat) (e : Dirent) (hmake : makeFs dir beyond = .ok fs) (hnamed : Named dir)
    (hi : (programs dir)[i]? = some e) (hshort : e.name.length ≤ 32) (hword : ∀ n, decimal n ≠ e.name) :
    ∃ ino, appIno (diskImg exec fs) stale e.name = some ino ∧
      ∀ a < e.file.length, e.file[a]? = some (Elf.fileByte (appRead (diskImg exec fs) stale ino) a) :=
  ⟨_, installed_found exec stale hmake hnamed hi hshort hword, fun _ ha => installed_bytes exec stale hmake hi ha⟩

theorem programs_singleton {e : Dirent} (h : e.IsElf) : programs [e] = [e] := programs_cons_elf h []

def sampleDir : List Dirent := [⟨ascii "a.elf", [1, 2, 3]⟩]

theorem sampleDir_named : Named sampleDir := ⟨by decide +kernel, by decide +kernel⟩

theorem sampleDir_fits : Fits sampleDir := ⟨by decide +kernel, by decide +kernel, by decide +kernel⟩

theorem not_number {name : Text} {c : UInt8} (hc : c ∈ name) (hdigit : isDigit c = false) (n : Nat) :
    decimal n ≠ name := by
  rintro rfl
  rw [isDigit_of_mem_decimal hc] at hdigit
  cases hdigit

theorem installed_read_sample : ∃ fs ino, makeFs sampleDir (fun _ => 0) = .ok fs ∧
    appIno (diskImg (exec []) fs) (fun _ => 0) [97] = some ino ∧
    Elf.fileByte (appRead (diskImg (exec []) fs) (fun _ => 0) ino) 2 = 3 := by
  obtain ⟨fs, hmake⟩ := makeFs_completes sampleDir_fits fun _ => 0
  obtain ⟨ino, hino, hread⟩ := installed_read (exec []) (fun _ => 0) sampleDir (fun _ => 0) fs 0
    ⟨ascii "a.elf", [1, 2, 3]⟩ hmake sampleDir_named (by rw [sampleDir, programs_singleton (by decide +kernel)]; rfl)
    (by decide +kernel)
    (not_number (List.mem_singleton_self 97) (by decide))
  exact ⟨fs, ino, hmake, hino, (Option.some.inj (hread 2 (by decide))).symm⟩

/-- The reader of a file, with zeros behind its end. -/
def fileReader (file : List UInt8) : Elf.Reader := fun b x => file.getD (blockSize * b.toNat + x.val) 0

theorem fileReader_at (file : List UInt8) {a : Nat} (ha : a < file.length) (hsmall : a < 2 ^ 40) :
    file[a]? = some (Elf.fileByte (fileReader file) a) := by
  have hblock : (UInt32.ofNat (a / 512)).toNat = a / 512 := by
    refine UInt32.toNat_ofNat_of_lt' ?_
    change a / 512 < 2 ^ 32
    omega
  have hplace : blockSize * (a / 512) + a % 512 = a := Nat.div_add_mod a 512
  rw [Elf.fileByte, fileReader, hblock, hplace, List.getD_eq_getElem?_getD, List.getElem?_eq_getElem ha]
  rfl

theorem fileByte_first (r : Elf.Reader) (x : Fin 512) : Elf.fileByte r x.val = r 0 x := by
  have hzero : UInt32.ofNat (x.val / 512) = 0 := by rw [Nat.div_eq_of_lt x.isLt]; rfl
  have hplace : (⟨x.val % 512, Nat.mod_lt x.val (by decide)⟩ : Fin 512) = x := Fin.ext (Nat.mod_eq_of_lt x.isLt)
  rw [Elf.fileByte, hzero, hplace]

/-- Two readers of one file agree on its bytes. -/
def Agree (file : List UInt8) (r : Elf.Reader) : Prop :=
  ∀ a < file.length, a < 2 ^ 40 → Elf.fileByte r a = Elf.fileByte (fileReader file) a

theorem Agree.first {file : List UInt8} {r : Elf.Reader} (h : Agree file r) (hlen : 512 ≤ file.length) :
    r 0 = fileReader file 0 := by
  funext x
  rw [← fileByte_first r, ← fileByte_first (fileReader file)]
  exact h x.val (Nat.lt_of_lt_of_le x.isLt hlen) (Nat.lt_trans x.isLt (by decide))

/-- The parts of the file that go into memory are in the file. -/
def Inside (file : List UInt8) : Prop :=
  512 ≤ file.length ∧ ∀ n, Elf.Loads (fileReader file) n →
    (Elf.headerOf (fileReader file 0) n).offset.toNat + (Elf.headerOf (fileReader file 0) n).filesz.toNat ≤ file.length

section Load

open Elf (Pool Loads headerOf Linked Pageless segmentPages TooLarge elfLoad)
open Grass (cmdNargs cmdArgLen)
open Earth (Pid)

/-- What the loader expects is about the first block. -/
theorem linked_congr {r r' : Elf.Reader} (hfirst : r' 0 = r 0) (hl : Linked r) : Linked r' := by
  obtain ⟨hheaders, hsegments, hdisjoint, hown⟩ := hl
  unfold Loads at hsegments hdisjoint hown
  constructor
  · rw [hfirst]
    exact hheaders
  all_goals
    unfold Loads
    rw [hfirst]
    assumption

theorem segmentPages_congr {r r' : Elf.Reader} (hfirst : r' 0 = r 0) : segmentPages r' = segmentPages r := by
  have hloads : ∀ i, Loads r' i ↔ Loads r i := by
    intro i
    unfold Loads
    rw [hfirst]
  rw [segmentPages, segmentPages, hfirst]
  exact Finset.sum_congr rfl fun i _ => by simp only [hloads]

theorem Agree.byte {file : List UInt8} {r : Elf.Reader} (h : Agree file r) (hin : Inside file) {n : Nat}
    (hn : Loads (fileReader file) n) (x : Nat) :
    (headerOf (fileReader file 0) n).byte r x = (headerOf (fileReader file 0) n).byte (fileReader file) x := by
  have hend := hin.2 n hn
  have hoffset := (headerOf (fileReader file 0) n).offset.toNat_lt
  have hfilesz := (headerOf (fileReader file 0) n).filesz.toNat_lt
  unfold Elf.Segment.byte
  split
  · exact h _ (by omega) (by omega)
  · rfl

/-- A program of two blocks, the second of them with the bytes of its segment. -/
def sampleElf : List UInt8 := List.ofFn fun x : Fin 1024 => Elf.fileByte (Elf.oneSegment Elf.data) x.val

def sampleProgram : Dirent := ⟨ascii "a.elf", sampleElf⟩

theorem sampleProgram_file : sampleProgram.file = sampleElf := by
  rw [sampleProgram]

theorem sampleProgram_first : fileReader sampleProgram.file 0 = Elf.oneSegment Elf.data 0 := by
  funext x
  have hx : x.val < 512 := x.isLt
  have hplace : blockSize * (0 : UInt32).toNat + x.val = x.val := by
    rw [UInt32.toNat_zero, Nat.mul_zero, Nat.zero_add]
  have hget : sampleElf[x.val]? = some (Elf.fileByte (Elf.oneSegment Elf.data) x.val) := by
    rw [sampleElf, List.getElem?_ofFn, dif_pos (by omega)]
  rw [fileReader, hplace, sampleProgram_file, List.getD_eq_getElem?_getD, hget, Option.getD_some, fileByte_first]

theorem sampleProgram_named : Named [sampleProgram] := ⟨by decide +kernel, by decide +kernel⟩

theorem sampleProgram_fits : Fits [sampleProgram] := ⟨by decide +kernel, by decide +kernel, by decide +kernel⟩

end Load

end OsSuite.Mkfs
