import OsSuite.TreediskUpdate

/-! `treedisk_write` with the number of its calls of `treedisk_alloc_block`. -/

namespace OsSuite.Treedisk

/-- One more call. -/
def countedAlloc (calls : Nat) (d : Disk) (superblock : Block) (dirty : Disk → Disk) :
    Except Stop (Nat × BlockNo × Disk × Block) := do
  let r ← treediskAllocBlock d superblock dirty
  return (calls + 1, r)

def countedGrow : Nat → Nat → Disk → Snapshot → Except Stop (Nat × Disk × Snapshot)
  | 0, calls, d, s => .ok (calls, d, s)
  | count + 1, calls, d, s => do
    let (calls, indir, d, superblock) ← countedAlloc calls d s.superblock
      (fun d => d.set s.inodeBlockno s.inodeblock)
    let tib := Function.update nullBlock 0 s.root
    let s := { s with superblock := superblock }.setRoot indir
    let d ← orPanic "treedisk_write: indirect block" d (d.write indir tib)
    countedGrow count calls d s

def countedWalk (offset : BlockNo) :
    Nat → Nat → Disk → Block → Block → BlockNo → Fin refsPerBlock → Except Stop (Nat × BlockNo × Disk)
  | nlevels, calls, d, superblock, parentBlock, parentOff, parentNo =>
    if parentBlock parentNo = 0 then do
      let (calls, b, d, superblock) ← countedAlloc calls d superblock
        (fun d => d.set parentOff parentBlock)
      let parentBlock := Function.update parentBlock parentNo b
      let d ← orPanic "treedisk_write: parent" d (d.write parentOff parentBlock)
      match nlevels with
      | 0 => return (calls, b, d)
      | nlevels + 1 => countedWalk offset nlevels calls d superblock nullBlock b (index offset nlevels)
    else match nlevels with
      | 0 => return (calls, parentBlock parentNo, d)
      | nlevels + 1 => do
        let tib ← orPanic "treedisk_write" d (d.read (parentBlock parentNo))
        countedWalk offset nlevels calls d superblock tib (parentBlock parentNo) (index offset nlevels)

def countedPlace (d : Disk) (s : Snapshot) (nlevels count : Nat) (dirty : Bool) (offset : BlockNo)
    (block : Block) : Except Stop (Nat × Disk) := do
  let (calls, d, s) ← countedGrow count 0 d s
  let d ← putInode d s dirty
  let (calls, b, d) ← countedWalk offset nlevels calls d s.superblock s.inodeblock s.inodeBlockno
    (Block.rootWord s.slot)
  let d ← orPanic "treedisk_write: data block" d (d.write b block)
  return (calls, d)

/-- As `treediskWrite`, step by step. -/
def countedWrite (d : Disk) (ino : UInt32) (offset : BlockNo) (block : Block) :
    Except Stop (Nat × Disk) := do
  let s ← treediskGetSnapshot d ino
  let nlevels := levelsOf s.nblocks
  let pastEnd := decide (offset ≥ s.nblocks)
  let nlevelsAfter := if pastEnd then countLevels offset 0 else nlevels
  let s := if pastEnd then s.setNblocks (offset + 1) else s
  let count := if s.nblocks = 0 then 0 else nlevelsAfter - nlevels
  let nlevels := if s.nblocks = 0 then nlevelsAfter else max nlevels nlevelsAfter
  countedPlace d s nlevels count (pastEnd || decide (0 < count)) offset block

section Erase

variable {α β γ : Type} {calls : Nat}

theorem snd_countedAlloc (calls : Nat) (d : Disk) (superblock : Block) (dirty : Disk → Disk) :
    Prod.snd <$> countedAlloc calls d superblock dirty = treediskAllocBlock d superblock dirty := by
  unfold countedAlloc
  cases treediskAllocBlock d superblock dirty <;> rfl

/-- The count of a step does not matter to what comes after it. -/
theorem map_bind_erase {c : Except Stop (Nat × α)} {e : Except Stop α} {f : Nat × α → Except Stop (Nat × γ)}
    {g : α → Except Stop γ} (hstep : Prod.snd <$> c = e) (hrest : ∀ n a, Prod.snd <$> f (n, a) = g a) :
    Prod.snd <$> (c >>= f) = e >>= g := by
  subst hstep
  cases c with
  | error e => rfl
  | ok r => exact hrest r.1 r.2

theorem map_bind_same {e : Except Stop α} {f : α → Except Stop (Nat × γ)} {g : α → Except Stop γ}
    (hrest : ∀ a, Prod.snd <$> f a = g a) : Prod.snd <$> (e >>= f) = e >>= g := by
  cases e with
  | error e => rfl
  | ok a => exact hrest a

theorem snd_countedGrow (count calls : Nat) (d : Disk) (s : Snapshot) :
    Prod.snd <$> countedGrow count calls d s = growLevels count d s := by
  induction count generalizing calls d s with
  | zero => rfl
  | succ count ih =>
    unfold countedGrow growLevels
    refine map_bind_erase (snd_countedAlloc _ _ _ _) ?_
    intro calls r
    exact map_bind_same fun d => ih calls d _

theorem snd_countedWalk (offset : BlockNo) (nlevels calls : Nat) (d : Disk)
    (superblock parentBlock : Block) (parentOff : BlockNo) (parentNo : Fin refsPerBlock) :
    Prod.snd <$> countedWalk offset nlevels calls d superblock parentBlock parentOff parentNo =
      writeWalk offset nlevels d superblock parentBlock parentOff parentNo := by
  induction nlevels generalizing calls d superblock parentBlock parentOff parentNo with
  | zero =>
    unfold countedWalk writeWalk
    by_cases hhole : parentBlock parentNo = 0
    · rw [if_pos hhole, if_pos hhole]
      refine map_bind_erase (snd_countedAlloc _ _ _ _) ?_
      intro calls r
      exact map_bind_same fun d => rfl
    · rw [if_neg hhole, if_neg hhole]
      rfl
  | succ nlevels ih =>
    unfold countedWalk writeWalk
    by_cases hhole : parentBlock parentNo = 0
    · rw [if_pos hhole, if_pos hhole]
      refine map_bind_erase (snd_countedAlloc _ _ _ _) ?_
      intro calls r
      exact map_bind_same fun d => ih _ _ _ _ _ _
    · rw [if_neg hhole, if_neg hhole]
      exact map_bind_same fun tib => ih _ _ _ _ _ _

theorem snd_countedPlace (d : Disk) (s : Snapshot) (nlevels count : Nat) (dirty : Bool)
    (offset : BlockNo) (block : Block) :
    Prod.snd <$> countedPlace d s nlevels count dirty offset block =
      place d s nlevels count dirty offset block := by
  unfold countedPlace place
  refine map_bind_erase (snd_countedGrow _ _ _ _) ?_
  intro calls r
  refine map_bind_same fun d => map_bind_erase (snd_countedWalk _ _ _ _ _ _ _ _) ?_
  rintro calls ⟨b, d'⟩
  dsimp only
  cases orPanic "treedisk_write: data block" d' (d'.write b block) <;> rfl

/-- The count apart, `countedWrite` is `treediskWrite`. -/
theorem snd_countedWrite (d : Disk) (ino : UInt32) (offset : BlockNo) (block : Block) :
    Prod.snd <$> countedWrite d ino offset block = treediskWrite d ino offset block := by
  unfold countedWrite treediskWrite
  exact map_bind_same fun s => snd_countedPlace _ _ _ _ _ _ _

end Erase

end OsSuite.Treedisk
