import OsSuite.FirstWrites

/-! When a write completes: the blocks that it needs are counted against those in no tree. -/

namespace OsSuite.Treedisk

open SparseFiles

/-- The blocks that a write at `offset` takes: one for each level that the tree grows by, and one for
each hole on its way down. -/
def needed (m : Nat → Block) (k : Nat) (offset : BlockNo) : Nat :=
  if levelsOf (nblocksOf m k) < countLevels offset 0 then
    countLevels offset 0 - levelsOf (nblocksOf m k) + countLevels offset 0
  else missing m (path offset (levelsOf (nblocksOf m k))) (rootOf m k)

/-- The superblock, the inode blocks and the nodes of the trees. -/
def used (d : Disk) : Nat :=
  inodeblocks d.data + 1 + ∑ k ∈ Finset.range (ninodes d.data), (treeOf d.data k).card

theorem Intact.used_add {d : Disk} {free : Multiset Nat} (h : Intact d free) :
    used d + free.card = d.size.toNat := by
  have hroom := h.room
  have hcard := congrArg Multiset.card h.exact
  rw [Multiset.card_add, Multiset.card_sum, Finset.card_val, Nat.card_Ico] at hcard
  rw [used]
  omega

theorem writeWalk_capacity (offset : BlockNo) (block : Block) (l : Nat) {d : Disk}
    {superblock parentBlock : Block} {parentOff : BlockNo} {parentNo : Fin refsPerBlock}
    {free : Multiset Nat} (h : WalkReady d l superblock parentBlock parentOff parentNo free) :
    Sat (writeWalk offset l d superblock parentBlock parentOff parentNo)
      (fun r => ∃ fresh free', fresh.card = missing d.data (path offset l) (ref parentBlock parentNo) ∧
        Grafted d.data l superblock parentBlock parentOff parentNo free fresh free' (r.2.set r.1 block).data)
      (fun _ => free.card < missing d.data (path offset l) (ref parentBlock parentNo)) := by
  induction l generalizing d superblock parentBlock parentOff parentNo free with
  | zero =>
    unfold writeWalk
    by_cases hhole : parentBlock parentNo = 0
    · rw [if_pos hhole, sat_bind, ref_eq_zero.mpr hhole, missing, BlockTree.missing_hole]
      refine (treediskAllocBlock_spec _ h.list h.free_nodup h.free_bound).imp ?_ ?_
      · rintro ⟨x, d₁, superblock₁⟩ ⟨free₁, ha⟩
        have hlt : parentOff.toNat < d₁.size.toNat := ha.size ▸ h.parent_lt
        simp only [Disk.write_of_lt hlt, orPanic]
        exact ⟨_, _, rfl, (grafted_leaf_hole offset block h hhole ha).1⟩
      · rintro e ⟨-, rfl⟩
        exact Nat.succ_pos _
    · have hb : ref parentBlock parentNo ≠ 0 := mt ref_eq_zero.mp hhole
      rw [if_neg hhole]
      refine ⟨0, free, ?_, (grafted_leaf_block offset block h hhole).1⟩
      simp [path, BlockTree.missing, hb]
  | succ l ih =>
    unfold writeWalk
    by_cases hhole : parentBlock parentNo = 0
    · rw [if_pos hhole, sat_bind, ref_eq_zero.mpr hhole, missing, BlockTree.missing_hole, path_length]
      refine (treediskAllocBlock_spec _ h.list h.free_nodup h.free_bound).imp ?_ ?_
      · rintro ⟨x, d₁, superblock₁⟩ ⟨free₁, ha⟩
        have hlt : parentOff.toNat < d₁.size.toNat := ha.size ▸ h.parent_lt
        have hready := ha.link_ready h (index offset l) (Function.update parentBlock parentNo x)
        have hbelow : Sat _ _ _ := ih hready
        rw [ref_nullBlock, missing, BlockTree.missing_hole, path_length] at hbelow
        simp only [Disk.write_of_lt hlt, orPanic]
        refine hbelow.imp ?_ ?_
        · rintro r ⟨fresh, free', hcard, hg⟩
          obtain ⟨-, hg'⟩ := grafted_hole h hhole ha hg
          exact ⟨_, _, by rw [Multiset.card_cons, hcard], hg'⟩
        · intro e he
          rw [ha.split, Multiset.card_cons]
          exact Nat.succ_lt_succ he
      · rintro e ⟨-, rfl⟩
        exact Nat.succ_pos _
    · have hb : ref parentBlock parentNo ≠ 0 := mt ref_eq_zero.mp hhole
      rw [if_neg hhole]
      simp only [Disk.read_of_lt (h.root_lt hhole), orPanic]
      rw [path, missing, BlockTree.missing_cons ref hb]
      refine (ih (h.child hhole (index offset l))).imp ?_ fun _ he => he
      rintro r ⟨fresh, free', hcard, hg⟩
      exact ⟨_, _, hcard, (grafted_block h hhole hg).2.2⟩

theorem growLevels_capacity (count : Nat) {d : Disk} {l : Nat} {s : Snapshot} {free : Multiset Nat}
    (h : GrowReady d l s free) :
    Sat (growLevels count d s)
      (fun r => (count = 0 → r = (d, s)) ∧ (0 < count → GrownShape d l count s r.1 r.2) ∧
        ∃ fresh free', fresh.card = count ∧ Grown d l s free fresh free' r.1 (l + count) r.2)
      (fun _ => free.card < count) := by
  induction count generalizing d l s free with
  | zero => exact ⟨fun _ => rfl, fun hc => absurd hc (Nat.lt_irrefl 0), 0, free, rfl, Grown.refl h.list⟩
  | succ count ih =>
    unfold growLevels
    rw [sat_bind]
    refine (treediskAllocBlock_spec _ h.list (Multiset.nodup_add.mp h.nodup).2.1 h.bound).imp ?_ ?_
    · rintro ⟨x, d₁, superblock₁⟩ ⟨free₁, ha⟩
      have hlt : x.toNat < d₁.size.toNat := by
        rw [ha.size]
        exact h.bound _ (by rw [ha.split]; exact Multiset.mem_cons_self _ _)
      have hg := grown_level h ha
      have hlevel := grownShape_level h ha
      simp only [Disk.write_of_lt hlt, orPanic]
      refine (ih (hg.ready h)).imp ?_ ?_
      · rintro ⟨d', s'⟩ ⟨hzero, hshape, fresh, free', hcard, hgrown⟩
        rw [Nat.add_right_comm] at hgrown
        refine ⟨fun hc => absurd hc (Nat.succ_ne_zero count), fun _ => ?_, _, _, ?_, hg.trans hgrown⟩
        · rcases Nat.eq_zero_or_pos count with rfl | hpos
          · obtain ⟨rfl, rfl⟩ := Prod.mk.inj (hzero rfl)
            exact hlevel
          · exact hlevel.cons (hshape hpos) hpos
        · rw [Multiset.card_add, Multiset.card_singleton, hcard]
          omega
      · intro e he
        rw [ha.split, Multiset.card_cons]
        exact Nat.succ_lt_succ he
    · rintro e ⟨-, rfl⟩
      exact Nat.succ_pos _

/-- The blocks that the growing and the walk need together. -/
def placeNeeds (d : Disk) (k l count : Nat) (offset : BlockNo) : Nat :=
  if count = 0 then missing d.data (path offset l) (rootOf d.data k) else count + (l + count)

/-- The growing takes `count` blocks, and leaves the holes on the way to the walk. -/
theorem PlaceReady.needs_grown {d d₁ d₂ : Disk} {k l count : Nat} {dirty : Bool} {s s₁ : Snapshot}
    {free : Multiset Nat} {offset : BlockNo} (h : PlaceReady d k l count dirty s free)
    (htop : ∀ c, count = c + 1 → index offset (l + c) ≠ 0) (hzero : count = 0 → (d₁, s₁) = (d, s))
    (hshape : 0 < count → GrownShape d l count s d₁ s₁)
    (hframe : ∀ y ∈ nodes d₁.data (l + count) s₁.root.toNat, d₂.data y = d₁.data y) :
    placeNeeds d k l count offset =
      count + missing d₂.data (path offset (l + count)) (ref s₁.inodeblock (Block.rootWord s₁.slot)) := by
  have hroot : ref s₁.inodeblock (Block.rootWord s₁.slot) = s₁.root.toNat := rfl
  rw [hroot, missing, BlockTree.missing_congr ref _ (by rw [path_length]; exact hframe), placeNeeds]
  cases count with
  | zero =>
    obtain ⟨rfl, rfl⟩ := Prod.mk.inj (hzero rfl)
    rw [if_pos rfl, Nat.zero_add, ← h.holds.root]
    rfl
  | succ c =>
    have hmissing := (hshape (Nat.succ_pos c)).missing (htop c rfl)
    rw [if_neg (Nat.succ_ne_zero c)]
    exact congrArg (c + 1 + ·) hmissing.symm

theorem place_capacity {d : Disk} {k l count : Nat} {dirty : Bool} {s : Snapshot}
    {free : Multiset Nat} {offset : BlockNo} {block : Block} (h : PlaceReady d k l count dirty s free)
    (htop : ∀ c, count = c + 1 → index offset (l + c) ≠ 0) :
    Sat (place d s (l + count) count dirty offset block)
      (fun d' => ∃ fresh free', fresh.card = placeNeeds d k l count offset ∧
        Extended d.data k l free fresh free' d'.data (l + count))
      (fun _ => free.card < placeNeeds d k l count offset) := by
  unfold place
  rw [sat_bind]
  refine (growLevels_capacity count h.growReady).imp ?_ ?_
  · rintro ⟨d₁, s₁⟩ ⟨hzero, hshape, fresh₁, free₁, hcount, hg⟩
    obtain ⟨d₂, hput, hsize, hheld, hkeep⟩ := putInode_spec h hg hzero
    obtain ⟨hsync, he, hready⟩ := h.walkReady hg hsize hheld hkeep
    have hframe := h.grown_frame hg hkeep
    have hno : s₁.inodeBlockno.toNat = inodeOff k := by rw [hg.blockno, h.holds.blockno]
    have hslot : s₁.slot = inodeIx k := by rw [hg.slot, h.holds.slot]
    have hneeds := h.needs_grown htop hzero hshape hframe
    change Sat (putInode d₁ s₁ dirty >>= _) _ _
    rw [hput]
    change Sat (writeWalk offset (l + count) d₂ s₁.superblock s₁.inodeblock s₁.inodeBlockno
      (Block.rootWord s₁.slot) >>= _) _ _
    rw [sat_bind, hneeds]
    refine ((writeWalk_capacity offset block (l + count) hready).and
      (writeWalk_spec offset block (l + count) hready)).imp ?_ ?_
    · rintro ⟨b, d₃⟩ ⟨⟨fresh, free', hcard, hgraft⟩, hb, -⟩
      simp only [Disk.write_of_lt hb, orPanic]
      rw [hslot, ← hheld] at hgraft
      refine ⟨_, _, ?_, he.trans (hgraft.extended hno hsync)⟩
      rw [Multiset.card_add, hcount, hcard]
    · rintro e ⟨hfew, -⟩
      rw [hg.split, Multiset.card_add, hcount]
      exact Nat.add_lt_add_left hfew count
  · intro e hfew
    rw [placeNeeds]
    split <;> omega

section Write

variable {d : Disk} {free : Multiset Nat} {ino : UInt32} {offset : BlockNo} {block : Block}

theorem placeNeeds_eq (d : Disk) (ino : UInt32) (hoff : offset.toNat < 2 ^ 32 - 1) :
    placeNeeds d ino.toNat (levelsOf (nblocksOf d.data ino.toNat))
      (levelsOf (extendedSnapshot d ino offset).nblocks - levelsOf (nblocksOf d.data ino.toNat)) offset =
      needed d.data ino.toNat offset := by
  obtain ⟨hafter, hle⟩ := levels_after d ino hoff
  have hlevels : levelsOf (extendedSnapshot d ino offset).nblocks =
      max (levelsOf (nblocksOf d.data ino.toNat)) (countLevels offset 0) := by
    by_cases hpast : offset ≥ nblocksOf d.data ino.toNat
    · simp only [hpast, decide_true, if_true] at hafter
      rw [← hafter] at hle ⊢
      exact (max_eq_right hle).symm
    · simp only [hpast, decide_false, Bool.false_eq_true, if_false] at hafter
      rw [← hafter]
      refine (max_eq_left ?_).symm
      rw [countLevels_le_iff]
      rw [ge_iff_le, UInt32.le_iff_toNat_le] at hpast
      exact lt_pow_levelsOf (Nat.not_le.mp hpast)
  rw [hlevels, placeNeeds, needed]
  by_cases hlt : levelsOf (nblocksOf d.data ino.toNat) < countLevels offset 0
  · rw [if_neg (by omega), if_pos hlt]
    omega
  · rw [if_pos (by omega), if_neg hlt]

/-- A write completes exactly if it needs no more than the free blocks, and takes what it needs. -/
theorem treediskWrite_capacity (hi : Intact d free) (hk : ino.toNat < ninodes d.data)
    (hoff : offset.toNat < 2 ^ 32 - 1) :
    Sat (treediskWrite d ino offset block)
      (fun d' => used d' = used d + needed d.data ino.toNat offset ∧ used d' ≤ d.size.toNat)
      (fun _ => d.size.toNat < used d + needed d.data ino.toNat offset) := by
  have heq : treediskWrite d ino offset block = _ := treediskWrite_eq hi hk hoff
  obtain ⟨hl, hready, -⟩ := write_ready hi hk hoff
  have htop : ∀ c, levelsOf (extendedSnapshot d ino offset).nblocks - levelsOf (nblocksOf d.data ino.toNat) = c + 1 →
      index offset (levelsOf (nblocksOf d.data ino.toNat) + c) ≠ 0 :=
    fun c hc => index_top_ne d ino hoff (hl.trans (congrArg (_ + ·) hc))
  have hplace : Sat (place d (extendedSnapshot d ino offset) _ _ _ offset block) _ _ :=
    place_capacity hready htop
  have hplaced : Sat (treediskWrite d ino offset block) _ _ := treediskWrite_placed hi hk hoff
  rw [← hl, placeNeeds_eq d ino hoff, ← heq] at hplace
  have hused := hi.used_add
  refine (hplace.and hplaced).imp ?_ ?_
  · rintro d' ⟨⟨fresh, free', hcard, he⟩, hat⟩
    have hint : Intact d' free' := by
      have hint := he.intact hi hk (by rw [hat.nblocks])
      rw [← hat.size] at hint
      exact hint
    have hused' := hint.used_add
    have hsplit := congrArg Multiset.card he.split
    rw [Multiset.card_add, hcard] at hsplit
    rw [hat.size] at hused'
    omega
  · rintro e ⟨hfew, -⟩
    omega

end Write

theorem needed_le (m : Nat → Block) (k : Nat) (offset : BlockNo) {n : Nat}
    (hold : levelsOf (nblocksOf m k) ≤ n) (hnew : countLevels offset 0 ≤ n) (hn : 0 < n) :
    needed m k offset ≤ 2 * n := by
  have hmissing := BlockTree.missing_le ref m (path offset (levelsOf (nblocksOf m k))) (rootOf m k)
  rw [path_length] at hmissing
  rw [needed]
  split
  · omega
  · exact hmissing.trans (by omega)

/-- A write that starts a file at block 128. -/
def lateWrite (ino : UInt32) : WriteCall := ⟨ino, 128, nullBlock⟩

theorem lateWrite_valid (ino : UInt32) (hino : ino.toNat < 64) : ValidWrite sampleFormatted (lateWrite ino) := by
  have hinodes : (sampleFormatted.data 0).nInodeblocks.toNat = 1 := by decide +kernel
  have hoffset : (128 : BlockNo).toNat < 2 ^ 32 - 1 := by decide
  refine ⟨?_, hoffset⟩
  rw [ValidIno, hinodes]
  exact hino

theorem needed_lateWrite {m : Nat → Block} {k : Nat} (hk : nblocksOf m k = 0) : needed m k 128 = 4 := by
  have hlevels : countLevels 128 0 = 2 := by
    have hle := (countLevels_le_iff 128 2).mpr (by decide)
    have hnot := mt (countLevels_le_iff 128 1).mp (by decide)
    omega
  rw [needed, hk, hlevels]
  rfl

end OsSuite.Treedisk
