import OsSuite.TreediskWrite

/-! A completed write as an update of the files: one offset of one file gets
the block, its size covers the offset, and all other offsets and files are kept. -/

namespace OsSuite.Treedisk

structure Written (d : Disk) (k : Nat) (offset : BlockNo) (block : Block) (d' : Disk) : Prop where
  intact : ∃ free', Intact d' free'
  size : d'.size = d.size
  reserved : inodeblocks d'.data = inodeblocks d.data
  nblocks : (nblocksOf d'.data k).toNat = max (nblocksOf d.data k).toNat (offset.toNat + 1)
  file : ∀ off, fileAt d'.data k off = if off = offset then some block else fileAt d.data k off
  nblocks_other : ∀ k' < ninodes d.data, k' ≠ k → nblocksOf d'.data k' = nblocksOf d.data k'
  file_other : ∀ k' < ninodes d.data, k' ≠ k → ∀ off, fileAt d'.data k' off = fileAt d.data k' off

/-- The store as the panic leaves it: every block behind the inode blocks is a
node of a tree, where the tree of the file being written has some depth `l`. -/
def StoreFull (d : Disk) (k : Nat) (e : Stop) : Prop :=
  ∃ core l, e = .panic storeIsFull core ∧ core.size = d.size ∧
    inodeblocks core.data = inodeblocks d.data ∧
    nodes core.data l (rootOf core.data k) +
      ∑ j ∈ (Finset.range (ninodes d.data)).erase k, treeOf core.data j =
    (Finset.Ico (inodeblocks core.data + 1) core.size.toNat).val

section Write

variable {d : Disk} {free : Multiset Nat} {ino : UInt32} {offset : BlockNo} {block : Block}

/-- The snapshot after the size of the file has been brought up to date. -/
def extendedSnapshot (d : Disk) (ino : UInt32) (offset : BlockNo) : Snapshot :=
  let s : Snapshot :=
    ⟨d.data 0, d.data (inodeOff ino.toNat), inodeBlockno ino, inodeSlot ino⟩
  if decide (offset ≥ s.nblocks) then s.setNblocks (offset + 1) else s

theorem extendedSnapshot_nblocks (d : Disk) (ino : UInt32) (hoff : offset.toNat < 2 ^ 32 - 1) :
    (extendedSnapshot d ino offset).nblocks.toNat =
      max (nblocksOf d.data ino.toNat).toNat (offset.toNat + 1) := by
  have hsucc : (offset + 1).toNat = offset.toNat + 1 := by
    rw [UInt32.toNat_add, UInt32.toNat_one, Nat.mod_eq_of_lt (by omega)]
  have hold : nblocksOf d.data ino.toNat =
      (Snapshot.mk (d.data 0) (d.data (inodeOff ino.toNat)) (inodeBlockno ino)
        (inodeSlot ino)).nblocks := rfl
  unfold extendedSnapshot
  rw [hold]
  by_cases hpast : offset ≥ (Snapshot.mk (d.data 0) (d.data (inodeOff ino.toNat))
      (inodeBlockno ino) (inodeSlot ino)).nblocks
  · simp only [hpast, decide_true, if_true]
    rw [ge_iff_le, UInt32.le_iff_toNat_le] at hpast
    simp only [Snapshot.setNblocks, Snapshot.nblocks, Function.update_self, hsucc] at hpast ⊢
    omega
  · simp only [hpast, decide_false, Bool.false_eq_true, if_false]
    rw [ge_iff_le, UInt32.le_iff_toNat_le] at hpast
    omega

theorem extendedSnapshot_holds (d : Disk) (ino : UInt32) (offset : BlockNo) :
    Holds d ino.toNat (extendedSnapshot d ino offset) := by
  unfold extendedSnapshot
  dsimp only
  split
  · exact ⟨rfl, inodeBlockno_toNat ino, rfl, fun j hj => Function.update_of_ne hj _ _⟩
  · exact ⟨rfl, inodeBlockno_toNat ino, rfl, fun _ _ => rfl⟩

/-- The levels of the tree after the write are those of the new size, and no fewer than before. -/
theorem levels_after (d : Disk) (ino : UInt32) (hoff : offset.toNat < 2 ^ 32 - 1) :
    (if decide (offset ≥ nblocksOf d.data ino.toNat) then countLevels offset 0
      else levelsOf (nblocksOf d.data ino.toNat)) =
      levelsOf (extendedSnapshot d ino offset).nblocks ∧
    levelsOf (nblocksOf d.data ino.toNat) ≤ levelsOf (extendedSnapshot d ino offset).nblocks := by
  have hnblocks := extendedSnapshot_nblocks d ino hoff
  by_cases hpast : offset ≥ nblocksOf d.data ino.toNat
  · have hle : (nblocksOf d.data ino.toNat).toNat ≤ offset.toNat := UInt32.le_iff_toNat_le.mp hpast
    have hnew : (extendedSnapshot d ino offset).nblocks = offset + 1 := by
      rw [← UInt32.toNat_inj, hnblocks, UInt32.toNat_add, UInt32.toNat_one,
        Nat.mod_eq_of_lt (by omega)]
      omega
    simp only [hpast, decide_true, if_true]
    rw [hnew, levelsOf_succ hoff]
    refine ⟨rfl, ?_⟩
    by_cases hpos : nblocksOf d.data ino.toNat > 0
    · rw [levelsOf, if_pos hpos, countLevels_le_iff]
      have hreach := (countLevels_le_iff offset (countLevels offset 0)).mp le_rfl
      have hpred : (nblocksOf d.data ino.toNat - 1).toNat ≤ offset.toNat := by
        rw [UInt32.toNat_sub_of_le _ _ (UInt32.le_iff_toNat_le.mpr (by
          rw [gt_iff_lt, UInt32.lt_iff_toNat_lt, UInt32.toNat_zero] at hpos
          rw [UInt32.toNat_one]
          omega))]
        omega
      omega
    · rw [levelsOf, if_neg hpos]
      exact Nat.zero_le _
  · have hsame : (extendedSnapshot d ino offset).nblocks = nblocksOf d.data ino.toNat := by
      rw [ge_iff_le, UInt32.le_iff_toNat_le] at hpast
      rw [← UInt32.toNat_inj, hnblocks]
      omega
    simp only [hpast, decide_false, Bool.false_eq_true, if_false]
    rw [hsame]
    exact ⟨rfl, le_rfl⟩

/-- The levels to walk, the rounds of growing and the dirty bit of a write, in terms of the levels
before and after. -/
theorem write_levels {α : Type} (d : Disk) (ino : UInt32) (hoff : offset.toNat < 2 ^ 32 - 1)
    (finish : Nat → Nat → Bool → α) :
    let l := levelsOf (nblocksOf d.data ino.toNat)
    let l' := levelsOf (extendedSnapshot d ino offset).nblocks
    let pastEnd := decide (offset ≥ nblocksOf d.data ino.toNat)
    let after := if pastEnd then countLevels offset 0 else l
    let count := if (extendedSnapshot d ino offset).nblocks = 0 then 0 else after - l
    finish (if (extendedSnapshot d ino offset).nblocks = 0 then after else max l after) count
        (pastEnd || decide (0 < count)) =
      finish l' (l' - l) (pastEnd || decide (0 < l' - l)) := by
  intro l l' pastEnd after count
  obtain ⟨hafter, hle⟩ := levels_after d ino hoff
  have hne : (extendedSnapshot d ino offset).nblocks ≠ 0 := by
    intro he
    have hnblocks := extendedSnapshot_nblocks d ino hoff
    rw [he, UInt32.toNat_zero] at hnblocks
    omega
  have hcount : count = l' - l := (if_neg hne).trans (congrArg (· - l) hafter)
  have hlevels : max l after = l' := (congrArg (max l) hafter).trans (max_eq_right hle)
  rw [if_neg hne, hlevels, hcount]

theorem treediskWrite_eq (hi : Intact d free) (hk : ino.toNat < ninodes d.data)
    (hoff : offset.toNat < 2 ^ 32 - 1) :
    let l := levelsOf (nblocksOf d.data ino.toNat)
    let l' := levelsOf (extendedSnapshot d ino offset).nblocks
    treediskWrite d ino offset block = place d (extendedSnapshot d ino offset) l' (l' - l)
      (decide (offset ≥ nblocksOf d.data ino.toNat) || decide (0 < l' - l)) offset block := by
  intro l l'
  rw [treediskWrite, treediskGetSnapshot_eq hi hk]
  exact write_levels d ino hoff fun nlevels count dirty =>
    place d (extendedSnapshot d ino offset) nlevels count dirty offset block

theorem placeReady (hi : Intact d free) (hk : ino.toNat < ninodes d.data) (count : Nat)
    (hcount : offset.toNat < (nblocksOf d.data ino.toNat).toNat → count = 0) :
    PlaceReady d ino.toNat (levelsOf (nblocksOf d.data ino.toNat)) count
      (decide (offset ≥ nblocksOf d.data ino.toNat) || decide (0 < count))
      (extendedSnapshot d ino offset) free := by
  refine ⟨extendedSnapshot_holds d ino offset, hi.list, hi.owned_nodup hk,
    fun y hy => (hi.owned_bound hk hy).2, hi.inodeOff_lt hk, hi.inodeOff_notMem hk hk, ?_⟩
  intro hclean
  have hpast : ¬ offset ≥ nblocksOf d.data ino.toNat := by
    intro hpast
    simp [hpast] at hclean
  have hlt : offset.toNat < (nblocksOf d.data ino.toNat).toNat := by
    rw [ge_iff_le, UInt32.le_iff_toNat_le] at hpast
    omega
  refine ⟨hcount hlt, ?_⟩
  have hsame : ¬ decide (offset ≥ (Snapshot.mk (d.data 0) (d.data (inodeOff ino.toNat))
      (inodeBlockno ino) (inodeSlot ino)).nblocks) = true := by
    rw [decide_eq_true_eq]
    exact hpast
  rw [extendedSnapshot, if_neg hsame]

theorem PlacedAt.written {l' : Nat} {d' : Disk} (hi : Intact d free)
    (hk : ino.toNat < ninodes d.data) (hoff : offset.toNat < 2 ^ 32 - 1)
    (hl : levelsOf (extendedSnapshot d ino offset).nblocks = l')
    (h : PlacedAt d ino.toNat (levelsOf (nblocksOf d.data ino.toNat)) l'
      (extendedSnapshot d ino offset) free offset block d') :
    Written d ino.toNat offset block d' := by
  obtain ⟨fresh, free', he⟩ := h.extended
  have hl' : levelsOf (nblocksOf d'.data ino.toNat) = l' := by rw [h.nblocks, hl]
  have hle := (levels_after d ino hoff).2
  rw [hl] at hle
  have hnblocks := extendedSnapshot_nblocks d ino hoff
  refine ⟨⟨free', ?_⟩, h.size, congrArg UInt32.toNat he.superblock, by rw [h.nblocks, hnblocks], ?_,
    fun k' hk' hne => (he.inode_other hi hk hk' hne).2,
    fun k' hk' hne => he.file_other hi hk hk' hne⟩
  · have hint := he.intact hi hk hl'
    rw [← h.size] at hint
    exact hint
  · intro off
    have hreach : offset.toNat < refsPerBlock ^ l' := by
      rw [← hl]
      apply lt_pow_levelsOf
      omega
    have hpow : refsPerBlock ^ levelsOf (nblocksOf d.data ino.toNat) ≤ refsPerBlock ^ l' :=
      Nat.pow_le_pow_right (by decide) hle
    rw [fileAt, hl', fileAt]
    by_cases hlt : off.toNat < refsPerBlock ^ l'
    · rw [if_pos hlt, h.data off hlt]
    · have hne : off ≠ offset := by
        rintro rfl
        exact hlt hreach
      rw [if_neg hlt, if_neg hne, if_neg (by omega)]

theorem write_ready (hi : Intact d free) (hk : ino.toNat < ninodes d.data)
    (hoff : offset.toNat < 2 ^ 32 - 1) :
    let l := levelsOf (nblocksOf d.data ino.toNat)
    let l' := levelsOf (extendedSnapshot d ino offset).nblocks
    l' = l + (l' - l) ∧ PlaceReady d ino.toNat l (l' - l)
        (decide (offset ≥ nblocksOf d.data ino.toNat) || decide (0 < l' - l))
        (extendedSnapshot d ino offset) free ∧
      offset.toNat < refsPerBlock ^ (l + (l' - l)) := by
  intro l l'
  have hle : l ≤ l' := (levels_after d ino hoff).2
  have hnblocks := extendedSnapshot_nblocks d ino hoff
  have hl : l' = l + (l' - l) := by omega
  refine ⟨hl, placeReady hi hk _ ?_, ?_⟩
  · intro hlt
    have hsame : (extendedSnapshot d ino offset).nblocks = nblocksOf d.data ino.toNat := by
      rw [← UInt32.toNat_inj, hnblocks]
      omega
    have hlevels : l' = l := congrArg levelsOf hsame
    omega
  · rw [← hl]
    apply lt_pow_levelsOf
    omega

theorem treediskWrite_placed (hi : Intact d free) (hk : ino.toNat < ninodes d.data)
    (hoff : offset.toNat < 2 ^ 32 - 1) :
    Sat (treediskWrite d ino offset block)
      (PlacedAt d ino.toNat (levelsOf (nblocksOf d.data ino.toNat))
        (levelsOf (extendedSnapshot d ino offset).nblocks) (extendedSnapshot d ino offset) free offset block)
      (PlaceFull d ino.toNat (levelsOf (nblocksOf d.data ino.toNat)) free) := by
  have heq : treediskWrite d ino offset block = _ := treediskWrite_eq hi hk hoff
  obtain ⟨hl, hready, hreach⟩ := write_ready hi hk hoff
  have hplace : Sat (place d (extendedSnapshot d ino offset) _ _ _ offset block) _ _ :=
    place_spec hready hreach
  rw [← hl] at hplace
  rw [heq]
  exact hplace

theorem treediskWrite_spec (hi : Intact d free) (hk : ino.toNat < ninodes d.data)
    (hoff : offset.toNat < 2 ^ 32 - 1) :
    Sat (treediskWrite d ino offset block) (Written d ino.toNat offset block)
      (StoreFull d ino.toNat) := by
  refine (treediskWrite_placed hi hk hoff).imp ?_ ?_
  · intro d' hd'
    exact hd'.written hi hk hoff rfl
  · rintro e ⟨core, l', rfl, hsize, he⟩
    refine ⟨core, l', rfl, hsize, congrArg UInt32.toNat he.superblock, ?_⟩
    have hexact := he.exact hi hk
    have hin : inodeblocks core.data = inodeblocks d.data := congrArg UInt32.toNat he.superblock
    rw [zero_add] at hexact
    rw [hexact, hsize, hin]

end Write

end OsSuite.Treedisk
