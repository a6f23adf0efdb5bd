import OsSuite.Outcome

/-! The treedisk file system over a store of blocks. A block is its 128
little-endian words; the superblock, inode blocks, freelist blocks and indirect
blocks are readings of these words. Integers have the widths of the 32-bit target. -/

namespace OsSuite.Treedisk

abbrev BlockNo := UInt32

abbrev refsPerBlock : Nat := 128

instance refsPerBlock_neZero : NeZero refsPerBlock := ⟨by decide⟩

abbrev inodesPerBlock : Nat := 64

abbrev Block := Fin refsPerBlock → UInt32

def nullBlock : Block := fun _ => 0

/-- The reference to block number `refs[i]`, as a position in the store. -/
def ref (b : Block) (i : Fin refsPerBlock) : Nat := (b i).toNat

namespace Block

def nInodeblocks (b : Block) : UInt32 := b 0

def freeList (b : Block) : BlockNo := b 1

/-- The word of `inodes[k].root` in an inode block. -/
def rootWord (k : Fin inodesPerBlock) : Fin refsPerBlock :=
  ⟨2 * k.val, by have := k.isLt; simp only [inodesPerBlock] at this; simp only [refsPerBlock]; omega⟩

/-- The word of `inodes[k].nblocks` in an inode block. -/
def nblocksWord (k : Fin inodesPerBlock) : Fin refsPerBlock :=
  ⟨2 * k.val + 1, by have := k.isLt; simp only [inodesPerBlock] at this; simp only [refsPerBlock]; omega⟩

end Block

/-- The inode store below: an array of `size` blocks. Accesses beyond it fail. -/
structure Disk where
  size : UInt32
  data : Nat → Block

namespace Disk

def read (d : Disk) (off : BlockNo) : Option Block :=
  if off < d.size then some (d.data off.toNat) else none

def set (d : Disk) (off : BlockNo) (b : Block) : Disk :=
  { d with data := Function.update d.data off.toNat b }

def write (d : Disk) (off : BlockNo) (b : Block) : Option Disk :=
  if off < d.size then some (d.set off b) else none

@[simp] theorem set_size (d : Disk) (off : BlockNo) (b : Block) : (d.set off b).size = d.size := rfl

@[simp] theorem set_self (d : Disk) (off : BlockNo) (b : Block) :
    (d.set off b).data off.toNat = b := Function.update_self _ _ _

theorem set_of_ne (d : Disk) {off : BlockNo} (b : Block) {y : Nat} (h : y ≠ off.toNat) :
    (d.set off b).data y = d.data y := Function.update_of_ne h _ _

theorem read_of_lt {d : Disk} {off : BlockNo} (h : off.toNat < d.size.toNat) :
    d.read off = some (d.data off.toNat) := by
  rw [read, if_pos (UInt32.lt_iff_toNat_lt.mpr h)]

theorem write_of_lt {d : Disk} {off : BlockNo} (h : off.toNat < d.size.toNat) (b : Block) :
    d.write off b = some (d.set off b) := by
  rw [write, if_pos (UInt32.lt_iff_toNat_lt.mpr h)]

end Disk

/-- How an operation ends other than by completing: with the return value -1,
or in `panic`, with the store as it is then and the dirty block of the caller in place. -/
inductive Stop where
  | fail
  | panic (s : String) (core : Disk)

def orFail {α : Type} : Option α → Except Stop α
  | some a => .ok a
  | none => .error .fail

def orPanic {α : Type} (s : String) (core : Disk) : Option α → Except Stop α
  | some a => .ok a
  | none => .error (.panic s core)

/-- `log2(REFS_PER_BLOCK)`, which `treedisk_init` finds by counting up. -/
def logRpb : Nat := 7

theorem logRpb_init : (∀ k, 1 ≤ k → k < logRpb → (refsPerBlock - 1) >>> k ≠ 0) ∧
    (refsPerBlock - 1) >>> logRpb = 0 := by
  constructor
  · decide
  · decide

def logShiftR (x : BlockNo) (nbits : Nat) : BlockNo :=
  if nbits ≥ 32 then 0 else x >>> nbits.toUInt32

structure Snapshot where
  superblock : Block
  inodeblock : Block
  inodeBlockno : BlockNo
  slot : Fin inodesPerBlock

namespace Snapshot

def root (s : Snapshot) : BlockNo := s.inodeblock (Block.rootWord s.slot)

def nblocks (s : Snapshot) : BlockNo := s.inodeblock (Block.nblocksWord s.slot)

def setRoot (s : Snapshot) (b : BlockNo) : Snapshot :=
  { s with inodeblock := Function.update s.inodeblock (Block.rootWord s.slot) b }

def setNblocks (s : Snapshot) (n : BlockNo) : Snapshot :=
  { s with inodeblock := Function.update s.inodeblock (Block.nblocksWord s.slot) n }

end Snapshot

def inodeBlockno (inodeNo : UInt32) : BlockNo := 1 + inodeNo / inodesPerBlock.toUInt32

def inodeSlot (inodeNo : UInt32) : Fin inodesPerBlock :=
  ⟨inodeNo.toNat % inodesPerBlock, Nat.mod_lt _ (by decide)⟩

def treediskGetSnapshot (d : Disk) (inodeNo : UInt32) : Except Stop Snapshot := do
  let superblock ← orFail (d.read 0)
  if inodeNo ≥ superblock.nInodeblocks * inodesPerBlock.toUInt32 then
    .error .fail
  else
    let inodeblock ← orFail (d.read (inodeBlockno inodeNo))
    return ⟨superblock, inodeblock, inodeBlockno inodeNo, inodeSlot inodeNo⟩

/-- The scan `for (i = REFS_PER_BLOCK; --i > 0;)` for a nonzero reference, from `i` down. -/
def scanRefs (refs : Block) : Nat → Fin refsPerBlock
  | 0 => 0
  | i + 1 => if refs (Fin.ofNat refsPerBlock (i + 1)) ≠ 0 then Fin.ofNat refsPerBlock (i + 1)
    else scanRefs refs i

def storeIsFull : String := "treedisk_alloc_block: inode store is full\n"

/-- Returns the block, the store and the superblock of the snapshot. `dirty`
puts the block that the caller holds in memory into the core of a panic. -/
def treediskAllocBlock (d : Disk) (superblock : Block) (dirty : Disk → Disk) :
    Except Stop (BlockNo × Disk × Block) := do
  let b := superblock.freeList
  if b = 0 then
    .error (.panic storeIsFull (dirty d))
  else
    let freelistblock ← orPanic "treedisk_alloc_block" (dirty d) (d.read b)
    let i := scanRefs freelistblock (refsPerBlock - 1)
    if i = 0 then
      let superblock := Function.update superblock 1 (freelistblock 0)
      let d ← orPanic "treedisk_alloc_block: superblock" (dirty d) (d.write 0 superblock)
      return (b, d, superblock)
    else
      let d ← orPanic "treedisk_alloc_block: freelistblock" (dirty d)
        (d.write b (Function.update freelistblock i 0))
      return (freelistblock i, d, superblock)

/-- The loop `while (log_shift_r(x, nlevels * log_rpb) != 0) nlevels++`. -/
def countLevels (x : BlockNo) (nlevels : Nat) : Nat :=
  if logShiftR x (nlevels * logRpb) ≠ 0 then countLevels x (nlevels + 1) else nlevels
termination_by 5 - nlevels
decreasing_by
  rename_i h
  by_contra hn
  have hbits : nlevels * logRpb ≥ 32 := by simp only [logRpb]; omega
  exact h (by simp [logShiftR, hbits])

/-- The levels of the tree of a file of `nblocks` blocks. -/
def levelsOf (nblocks : BlockNo) : Nat :=
  if nblocks > 0 then countLevels (nblocks - 1) 0 else 0

def index (offset : BlockNo) (nlevels : Nat) : Fin refsPerBlock :=
  ⟨(logShiftR offset (nlevels * logRpb)).toNat % refsPerBlock, Nat.mod_lt _ (by decide)⟩

/-- The loop of `treedisk_read`, which leaves its last block in `*block`. -/
def readWalk (d : Disk) (offset : BlockNo) : Nat → BlockNo → Except Stop Block
  | nlevels, b =>
    if b = 0 then .ok nullBlock
    else match d.read b, nlevels with
      | none, _ => .error .fail
      | some block, 0 => .ok block
      | some block, nlevels + 1 => readWalk d offset nlevels (block (index offset nlevels))

def treediskGetsize (d : Disk) (ino : UInt32) : Except Stop BlockNo := do
  let s ← treediskGetSnapshot d ino
  return s.nblocks

def treediskRead (d : Disk) (ino : UInt32) (offset : BlockNo) : Except Stop Block := do
  let s ← treediskGetSnapshot d ino
  if offset ≥ s.nblocks then .error .fail
  else readWalk d offset (levelsOf s.nblocks) s.root

/-- `count` rounds of the loop that puts an indirect block above the root. -/
def growLevels : Nat → Disk → Snapshot → Except Stop (Disk × Snapshot)
  | 0, d, s => .ok (d, s)
  | count + 1, d, s => do
    let (indir, d, superblock) ← treediskAllocBlock d s.superblock
      (fun d => d.set s.inodeBlockno s.inodeblock)
    let tib := Function.update nullBlock 0 s.root
    let s := { s with superblock := superblock }.setRoot indir
    let d ← orPanic "treedisk_write: indirect block" d (d.write indir tib)
    growLevels count d s

/-- The walk from a parent block to the data block at `offset`. The pointer
`parent_no` is the word `parentNo` of `parentBlock`, whose place is `parentOff`. -/
def writeWalk (offset : BlockNo) :
    Nat → Disk → Block → Block → BlockNo → Fin refsPerBlock → Except Stop (BlockNo × Disk)
  | nlevels, d, superblock, parentBlock, parentOff, parentNo =>
    if parentBlock parentNo = 0 then do
      let (b, d, superblock) ← treediskAllocBlock d superblock
        (fun d => d.set parentOff parentBlock)
      let parentBlock := Function.update parentBlock parentNo b
      let d ← orPanic "treedisk_write: parent" d (d.write parentOff parentBlock)
      match nlevels with
      | 0 => return (b, d)
      | nlevels + 1 => writeWalk offset nlevels d superblock nullBlock b (index offset nlevels)
    else match nlevels with
      | 0 => return (parentBlock parentNo, d)
      | nlevels + 1 => do
        let tib ← orPanic "treedisk_write" d (d.read (parentBlock parentNo))
        writeWalk offset nlevels d superblock tib (parentBlock parentNo) (index offset nlevels)

/-- The inode block is written back if `dirty_inode` is set. -/
def putInode (d : Disk) (s : Snapshot) (dirtyInode : Bool) : Except Stop Disk :=
  if dirtyInode then orPanic "treedisk_write: inode block" d (d.write s.inodeBlockno s.inodeblock)
  else .ok d

def treediskWrite (d : Disk) (ino : UInt32) (offset : BlockNo) (block : Block) :
    Except Stop Disk := do
  let s ← treediskGetSnapshot d ino
  let nlevels := levelsOf s.nblocks
  let pastEnd := decide (offset ≥ s.nblocks)
  let nlevelsAfter := if pastEnd then countLevels offset 0 else nlevels
  let s := if pastEnd then s.setNblocks (offset + 1) else s
  -- an empty file would skip the growing, but nblocks has just been set
  let count := if s.nblocks = 0 then 0 else nlevelsAfter - nlevels
  let nlevels := if s.nblocks = 0 then nlevelsAfter else max nlevels nlevelsAfter
  let (d, s) ← growLevels count d s
  let d ← putInode d s (pastEnd || decide (0 < count))
  let (b, d) ← writeWalk offset nlevels d s.superblock s.inodeblock s.inodeBlockno
    (Block.rootWord s.slot)
  orPanic "treedisk_write: data block" d (d.write b block)

/-- The inner loop of `setup_freelist`: `k` further references from `freelist_data[i]` on.
Entries it does not reach stay 0, as the loop after it in the source leaves them. -/
def fillRefs (nblocks : BlockNo) : Nat → BlockNo → Block → BlockNo × Block
  | 0, nextFree, data => (nextFree, data)
  | k + 1, nextFree, data =>
    if nextFree < nblocks then
      fillRefs nblocks k (nextFree + 1)
        (Function.update data (Fin.ofNat refsPerBlock (refsPerBlock - (k + 1))) nextFree)
    else (nextFree, data)

/-- The outer loop of `setup_freelist`. Each round uses at least one block, so
`nblocks - next_free` rounds are enough. -/
def setupFreelistLoop (nblocks : BlockNo) :
    Nat → Disk → BlockNo → BlockNo → Except Stop (BlockNo × Disk)
  | 0, d, _, freelistBlock => .ok (freelistBlock, d)
  | fuel + 1, d, nextFree, freelistBlock =>
    if nextFree < nblocks then do
      let data := Function.update nullBlock 0 freelistBlock
      let freelistBlock := nextFree
      let (nextFree, data) := fillRefs nblocks (refsPerBlock - 1) (nextFree + 1) data
      let d ← orPanic "treedisk_setup_freelist" d (d.write freelistBlock data)
      setupFreelistLoop nblocks fuel d nextFree freelistBlock
    else .ok (freelistBlock, d)

def setupFreelist (d : Disk) (nextFree nblocks : BlockNo) : Except Stop (BlockNo × Disk) :=
  setupFreelistLoop nblocks (nblocks.toNat - nextFree.toNat) d nextFree 0

/-- The loop that writes `count` null blocks from block `i` on. -/
def clearInodes : Nat → BlockNo → Disk → Except Stop Disk
  | 0, _, d => .ok d
  | count + 1, i, d => do
    let d ← orFail (d.write i nullBlock)
    clearInodes count (i + 1) d

def treediskCreate (d : Disk) (ninodes : UInt32) : Except Stop Disk := do
  let nInodeblocks := (ninodes + inodesPerBlock.toUInt32 - 1) / inodesPerBlock.toUInt32
  let nblocks := d.size
  if nblocks < nInodeblocks + 2 then
    .error .fail
  else
    let superblock ← orFail (d.read 0)
    if superblock.nInodeblocks = 0 then
      let (freeList, d) ← setupFreelist d (nInodeblocks + 1) nblocks
      let superblock := Function.update (Function.update nullBlock 0 nInodeblocks) 1 freeList
      let d ← orFail (d.write 0 superblock)
      clearInodes nInodeblocks.toNat 1 d
    else return d

end OsSuite.Treedisk
