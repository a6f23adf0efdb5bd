import OsSuite.TreediskInodes

/-! Reading and writing one block of a file over an intact store. -/

namespace OsSuite.Treedisk

theorem inodeBlockno_toNat (ino : UInt32) : (inodeBlockno ino).toNat = inodeOff ino.toNat := by
  have hino := ino.toNat_lt
  have hper : (64 : Nat).toUInt32.toNat = 64 := rfl
  rw [inodeBlockno, UInt32.toNat_add, UInt32.toNat_div, inodeOff, inodesPerBlock, hper,
    UInt32.toNat_one]
  omega

theorem ninodes_check {d : Disk} {free : Multiset Nat} (h : Intact d free) (ino : UInt32) :
    ino ≥ (d.data 0).nInodeblocks * inodesPerBlock.toUInt32 ↔ ninodes d.data ≤ ino.toNat := by
  have hfits := h.fits
  have hper : (64 : Nat).toUInt32.toNat = 64 := rfl
  rw [ge_iff_le, UInt32.le_iff_toNat_le, UInt32.toNat_mul, inodesPerBlock, hper]
  simp only [ninodes, inodeblocks, inodesPerBlock] at hfits ⊢
  rw [Nat.mod_eq_of_lt hfits]

theorem treediskGetSnapshot_eq {d : Disk} {free : Multiset Nat} (h : Intact d free) {ino : UInt32}
    (hk : ino.toNat < ninodes d.data) : treediskGetSnapshot d ino =
      .ok ⟨d.data 0, d.data (inodeOff ino.toNat), inodeBlockno ino, inodeSlot ino⟩ := by
  have hzero : (0 : BlockNo).toNat < d.size.toNat := by
    have := h.room
    rw [UInt32.toNat_zero]
    omega
  have hino : (inodeBlockno ino).toNat < d.size.toNat := by
    rw [inodeBlockno_toNat]
    exact h.inodeOff_lt hk
  have hcheck : ¬ ino ≥ (d.data 0).nInodeblocks * inodesPerBlock.toUInt32 := by
    rw [ninodes_check h]
    omega
  simp only [treediskGetSnapshot, Disk.read_of_lt hzero, Disk.read_of_lt hino, orFail,
    UInt32.toNat_zero, inodeBlockno_toNat]
  exact if_neg hcheck

theorem readWalk_eq {d : Disk} (offset : BlockNo) (l : Nat) {b : BlockNo}
    (h : ∀ y ∈ nodes d.data l b.toNat, y < d.size.toNat) :
    readWalk d offset l b = .ok ((look d.data (path offset l) b.toNat).getD nullBlock) := by
  induction l generalizing b with
  | zero =>
    unfold readWalk
    by_cases hb : b = 0
    · simp [hb, path]
    · have hb' : b.toNat ≠ 0 := fun he => hb (UInt32.toNat_inj.mp he)
      rw [if_neg hb, Disk.read_of_lt (h _ (BlockTree.root_mem_nodes ref d.data 0 hb')), path, look,
        BlockTree.look_nil ref _ hb']
      rfl
  | succ l ih =>
    unfold readWalk
    by_cases hb : b = 0
    · simp [hb, path]
    · have hb' : b.toNat ≠ 0 := fun he => hb (UInt32.toNat_inj.mp he)
      rw [if_neg hb, Disk.read_of_lt (h _ (BlockTree.root_mem_nodes ref d.data (l + 1) hb')), path,
        look, BlockTree.look_cons ref _ _ _ hb']
      exact ih fun y hy =>
        h y (Multiset.mem_of_le (BlockTree.nodes_child_le ref d.data l hb' (index offset l)) hy)

theorem treediskRead_eq {d : Disk} {free : Multiset Nat} (h : Intact d free) {ino : UInt32}
    (hk : ino.toNat < ninodes d.data) (offset : BlockNo) :
    treediskRead d ino offset =
      if (nblocksOf d.data ino.toNat).toNat ≤ offset.toNat then .error .fail
      else .ok ((fileAt d.data ino.toNat offset).getD nullBlock) := by
  have hwalk : readWalk d offset (levelsOf (nblocksOf d.data ino.toNat))
      (d.data (inodeOff ino.toNat) (Block.rootWord (inodeIx ino.toNat))) = _ :=
    readWalk_eq offset _ fun y hy => (h.owned_bound hk (Multiset.mem_add.mpr (Or.inl hy))).2
  have hsnap : treediskRead d ino offset =
      if offset ≥ nblocksOf d.data ino.toNat then .error .fail
      else readWalk d offset (levelsOf (nblocksOf d.data ino.toNat))
        (d.data (inodeOff ino.toNat) (Block.rootWord (inodeIx ino.toNat))) := by
    rw [treediskRead, treediskGetSnapshot_eq h hk]
    rfl
  rw [hsnap, hwalk]
  by_cases hle : (nblocksOf d.data ino.toNat).toNat ≤ offset.toNat
  · rw [if_pos (UInt32.le_iff_toNat_le.mpr hle), if_pos hle]
  · rw [if_neg (mt UInt32.le_iff_toNat_le.mp hle), if_neg hle, fileAt,
      if_pos (lt_pow_levelsOf (Nat.not_le.mp hle))]
    rfl

/-- The snapshot holds inode `k` of the store, up to its size. -/
structure Holds (d : Disk) (k : Nat) (s : Snapshot) : Prop where
  superblock : s.superblock = d.data 0
  blockno : s.inodeBlockno.toNat = inodeOff k
  slot : s.slot = inodeIx k
  words : ∀ j, j ≠ Block.nblocksWord (inodeIx k) → s.inodeblock j = d.data (inodeOff k) j

theorem rootWord_ne_nblocksWord (i j : Fin inodesPerBlock) :
    Block.rootWord i ≠ Block.nblocksWord j := by
  rw [Ne, Fin.ext_iff]
  simp only [Block.rootWord, Block.nblocksWord]
  omega

theorem Holds.root {d : Disk} {k : Nat} {s : Snapshot} (h : Holds d k s) :
    s.root.toNat = rootOf d.data k := by
  rw [Snapshot.root, h.slot, h.words _ (rootWord_ne_nblocksWord _ _)]
  rfl

section Extended

variable {d : Disk} {k l l₁ l' : Nat} {free fresh₁ free₁ fresh free' : Multiset Nat}
  {m m₁ m' : Nat → Block} {s s₁ : Snapshot}

theorem Extended.trans (h₁ : Extended m k l free fresh₁ free₁ m₁ l₁)
    (h : Extended m₁ k l₁ free₁ fresh free' m' l') :
    Extended m k l free (fresh₁ + fresh) free' m' l' where
  split := by rw [h₁.split, h.split, add_assoc]
  list := h.list
  tree := by rw [h.tree, h₁.tree, add_assoc]
  others j hroot hnblocks := (h.others j hroot hnblocks).trans (h₁.others j hroot hnblocks)
  frame y hy hoff hyn := by
    have hyn₁ : y ∉ nodes m₁ l₁ (rootOf m₁ k) + free₁ := by
      rw [h₁.tree, add_assoc, ← h₁.split]
      exact hyn
    rw [h.frame y hy hoff hyn₁, h₁.frame y hy hoff hyn]
  superblock := h.superblock.trans h₁.superblock

theorem Grown.extended {d₁ : Disk} (hs : Holds d k s)
    (hoff : inodeOff k ∉ nodes d.data l (rootOf d.data k) + free)
    (hg : Grown d l s free fresh₁ free₁ d₁ l₁ s₁) (hm : m' (inodeOff k) = s₁.inodeblock)
    (hkeep : ∀ y, y ≠ inodeOff k → m' y = d₁.data y) :
    Extended d.data k l free fresh₁ free₁ m' l₁ := by
  have hroot : rootOf m' k = s₁.root.toNat := by
    rw [rootOf, hm, Snapshot.root, hg.slot, hs.slot]
    rfl
  have hzero : m' 0 = d₁.data 0 := hkeep 0 (inodeOff_pos k).symm
  have hkeepAt : ∀ y ∈ nodes d₁.data l₁ s₁.root.toNat, m' y = d₁.data y := by
    intro y hy
    apply hkeep
    rintro rfl
    rw [hg.tree, hs.root] at hy
    rw [hg.split] at hoff
    simp only [Multiset.mem_add, not_or] at hoff hy
    exact hy.elim hoff.1 hoff.2.1
  refine ⟨hg.split, ?_, ?_, ?_, ?_, ?_⟩
  · refine hg.list.of_sync hzero fun y hy => hkeep y ?_
    rintro rfl
    rw [hg.split] at hoff
    exact hoff (Multiset.mem_add.mpr (Or.inr (Multiset.mem_add.mpr (Or.inr hy))))
  · rw [hroot, nodes, BlockTree.nodes_congr ref l₁ hkeepAt]
    exact hg.tree.trans (by rw [hs.root])
  · intro j hjroot hjn
    rw [hm, hg.others j (hs.slot ▸ hjroot), hs.words j hjn]
  · intro y hy hyoff hyn
    rw [hkeep y hyoff, hg.frame y hy fun hf => hyn (Multiset.mem_add.mpr (Or.inr hf))]
  · rw [hzero, hg.list.sync, hg.inodeblocks, hs.superblock]

theorem Grafted.extended {superblock : Block} {off : BlockNo} (hoff : off.toNat = inodeOff k)
    (hs : superblock = m 0)
    (hg : Grafted m l superblock (m (inodeOff k)) off (Block.rootWord (inodeIx k)) free fresh free'
      m') : Extended m k l free fresh free' m' l where
  split := hg.split
  list := hg.list
  tree := by
    have hroot : rootOf m' k = ref (m' off.toNat) (Block.rootWord (inodeIx k)) := by
      rw [rootOf, hoff]
    rw [hroot]
    exact hg.tree
  others j hroot _ := by rw [← hoff, hg.others j hroot, hoff]
  frame y hy hyoff hyn := hg.frame y hy (hoff ▸ hyoff) hyn
  superblock := by rw [hg.inodeblocks, hs]

end Extended

/-- The last steps of `treedisk_write`, from the growing on. -/
def place (d : Disk) (s : Snapshot) (nlevels count : Nat) (dirty : Bool) (offset : BlockNo)
    (block : Block) : Except Stop Disk := do
  let (d, s) ← growLevels count d s
  let d ← putInode d s dirty
  let (b, d) ← writeWalk offset nlevels d s.superblock s.inodeblock s.inodeBlockno
    (Block.rootWord s.slot)
  orPanic "treedisk_write: data block" d (d.write b block)

structure PlaceReady (d : Disk) (k l count : Nat) (dirty : Bool) (s : Snapshot)
    (free : Multiset Nat) : Prop where
  holds : Holds d k s
  list : Free d.data (d.data 0) free
  nodup : (nodes d.data l (rootOf d.data k) + free).Nodup
  bound : ∀ y ∈ nodes d.data l (rootOf d.data k) + free, y < d.size.toNat
  off_lt : inodeOff k < d.size.toNat
  off_notMem : inodeOff k ∉ nodes d.data l (rootOf d.data k) + free
  clean : dirty = false → count = 0 ∧ s.inodeblock = d.data (inodeOff k)

/-- Inode `k` has a tree of depth `l'` in which `block` is at `offset` and the
offsets of the old tree of depth `l` are kept. -/
structure PlacedAt (d : Disk) (k l l' : Nat) (s : Snapshot) (free : Multiset Nat)
    (offset : BlockNo) (block : Block) (d' : Disk) : Prop where
  size : d'.size = d.size
  extended : ∃ fresh free', Extended d.data k l free fresh free' d'.data l'
  nblocks : nblocksOf d'.data k = s.nblocks
  data : ∀ off : BlockNo, off.toNat < refsPerBlock ^ l' →
    look d'.data (path off l') (rootOf d'.data k) =
      if off = offset then some block
      else if off.toNat < refsPerBlock ^ l then look d.data (path off l) (rootOf d.data k)
      else none

/-- A write panics only for want of free blocks, all of which are in the tree by then. -/
def PlaceFull (d : Disk) (k l : Nat) (free : Multiset Nat) (e : Stop) : Prop :=
  ∃ core l', e = .panic storeIsFull core ∧ core.size = d.size ∧
    Extended d.data k l free free 0 core.data l'

section Place

variable {d d₁ : Disk} {k l count : Nat} {dirty : Bool} {s s₁ : Snapshot}
  {free fresh₁ free₁ : Multiset Nat}

theorem PlaceReady.growReady (h : PlaceReady d k l count dirty s free) : GrowReady d l s free := by
  refine ⟨?_, ?_, fun y hy => h.bound y (Multiset.mem_add.mpr (Or.inr hy))⟩
  · rw [h.holds.superblock]
    exact h.list
  · rw [h.holds.root]
    exact h.nodup

theorem putInode_spec (h : PlaceReady d k l count dirty s free)
    (hg : Grown d l s free fresh₁ free₁ d₁ (l + count) s₁) (hzero : count = 0 → (d₁, s₁) = (d, s)) :
    ∃ d₂, putInode d₁ s₁ dirty = .ok d₂ ∧ d₂.size = d.size ∧
      d₂.data (inodeOff k) = s₁.inodeblock ∧
      (∀ y, y ≠ inodeOff k → d₂.data y = d₁.data y) := by
  have hno : s₁.inodeBlockno.toNat = inodeOff k := by rw [hg.blockno, h.holds.blockno]
  cases dirty with
  | true =>
    have hlt : s₁.inodeBlockno.toNat < d₁.size.toNat := by
      rw [hno, hg.size]
      exact h.off_lt
    refine ⟨d₁.set s₁.inodeBlockno s₁.inodeblock, ?_, hg.size, ?_, ?_⟩
    · simp only [putInode, Disk.write_of_lt hlt]
      rfl
    · rw [← hno, Disk.set_self]
    · intro y hy
      exact Disk.set_of_ne d₁ _ (hno ▸ hy)
  | false =>
    obtain ⟨hcount, hblock⟩ := h.clean rfl
    obtain ⟨rfl, rfl⟩ := Prod.mk.inj (hzero hcount)
    exact ⟨d₁, rfl, rfl, hblock.symm, fun _ _ => rfl⟩

theorem PlaceReady.walkReady {d₂ : Disk} (h : PlaceReady d k l count dirty s free)
    (hg : Grown d l s free fresh₁ free₁ d₁ (l + count) s₁) (hsize : d₂.size = d.size)
    (hheld : d₂.data (inodeOff k) = s₁.inodeblock)
    (hkeep : ∀ y, y ≠ inodeOff k → d₂.data y = d₁.data y) :
    s₁.superblock = d₂.data 0 ∧
    Extended d.data k l free fresh₁ free₁ d₂.data (l + count) ∧
    WalkReady d₂ (l + count) s₁.superblock s₁.inodeblock s₁.inodeBlockno
      (Block.rootWord s₁.slot) free₁ := by
  have hno : s₁.inodeBlockno.toNat = inodeOff k := by rw [hg.blockno, h.holds.blockno]
  have hslot : s₁.slot = inodeIx k := by rw [hg.slot, h.holds.slot]
  have hsync : s₁.superblock = d₂.data 0 := by
    rw [hkeep 0 (inodeOff_pos k).symm, hg.list.sync]
  have he := hg.extended h.holds h.off_notMem hheld hkeep
  have hroot : ref s₁.inodeblock (Block.rootWord s₁.slot) = rootOf d₂.data k := by
    rw [rootOf, hheld, hslot]
  have howned : nodes d₂.data (l + count) (ref s₁.inodeblock (Block.rootWord s₁.slot)) + free₁ =
      nodes d.data l (rootOf d.data k) + free := by
    rw [hroot, he.tree, add_assoc, ← he.split]
  refine ⟨hsync, he, ?_, ?_, ?_, ?_, ?_, ?_, ?_⟩
  · rw [hsync]
    exact he.list
  · rw [howned]
    exact h.nodup
  · rw [howned, hsize]
    exact h.bound
  · rw [hno, hsize]
    exact h.off_lt
  · rw [hno]
    exact inodeOff_pos k
  · rw [hno, howned]
    exact h.off_notMem
  · rw [hno]
    exact Or.inr hheld

/-- Putting the inode in place touches no block of the grown tree. -/
theorem PlaceReady.grown_frame {d₂ : Disk} (h : PlaceReady d k l count dirty s free)
    (hg : Grown d l s free fresh₁ free₁ d₁ (l + count) s₁)
    (hkeep : ∀ y, y ≠ inodeOff k → d₂.data y = d₁.data y) :
    ∀ y ∈ nodes d₁.data (l + count) s₁.root.toNat, d₂.data y = d₁.data y := by
  intro y hy
  apply hkeep
  rintro rfl
  have hout := h.off_notMem
  rw [hg.split] at hout
  rw [hg.tree, h.holds.root] at hy
  simp only [Multiset.mem_add, not_or] at hy hout
  exact hy.elim hout.1 hout.2.1

theorem PlaceReady.grown_data {d₂ : Disk} (h : PlaceReady d k l count dirty s free)
    (hg : Grown d l s free fresh₁ free₁ d₁ (l + count) s₁)
    (hdata : GrownData d l s d₁ (l + count) s₁)
    (hheld : d₂.data (inodeOff k) = s₁.inodeblock)
    (hkeep : ∀ y, y ≠ inodeOff k → d₂.data y = d₁.data y) {off : BlockNo}
    (hoff : off.toNat < refsPerBlock ^ (l + count)) :
    look d₂.data (path off (l + count)) (rootOf d₂.data k) =
      if off.toNat < refsPerBlock ^ l then look d.data (path off l) (rootOf d.data k) else none := by
  have hroot : rootOf d₂.data k = s₁.root.toNat := by
    rw [rootOf, hheld, Snapshot.root, hg.slot, h.holds.slot]
    rfl
  have hsame : look d₂.data (path off (l + count)) s₁.root.toNat =
      look d₁.data (path off (l + count)) s₁.root.toNat := by
    apply BlockTree.look_congr
    rw [path_length]
    exact h.grown_frame hg hkeep
  rw [hroot, hsame, hdata off hoff, h.holds.root]

theorem place_spec {offset : BlockNo} {block : Block} (h : PlaceReady d k l count dirty s free)
    (hoff : offset.toNat < refsPerBlock ^ (l + count)) :
    Sat (place d s (l + count) count dirty offset block)
      (PlacedAt d k l (l + count) s free offset block) (PlaceFull d k l free) := by
  unfold place
  rw [sat_bind]
  refine (growLevels_spec count h.growReady).imp ?_ ?_
  · rintro ⟨d₁, s₁⟩ ⟨hzero, ⟨fresh₁, free₁, hg⟩, hdata⟩
    obtain ⟨d₂, hput, hsize, hheld, hkeep⟩ := putInode_spec h hg hzero
    obtain ⟨hsync, he, hready⟩ := h.walkReady hg hsize hheld hkeep
    have hno : s₁.inodeBlockno.toNat = inodeOff k := by rw [hg.blockno, h.holds.blockno]
    have hslot : s₁.slot = inodeIx k := by rw [hg.slot, h.holds.slot]
    change Sat (putInode d₁ s₁ dirty >>= _) _ _
    rw [hput]
    change Sat (writeWalk offset (l + count) d₂ s₁.superblock s₁.inodeblock s₁.inodeBlockno
      (Block.rootWord s₁.slot) >>= _) _ _
    rw [sat_bind]
    refine (writeWalk_spec offset block (l + count) hready).imp ?_ ?_
    · rintro ⟨b, d₃⟩ ⟨hb, hsize', ⟨fresh, free', hgraft⟩, hplaced⟩
      simp only [Disk.write_of_lt hb, orPanic, sat_ok]
      rw [hslot, ← hheld] at hgraft
      have hroot' : ref ((d₃.set b block).data s₁.inodeBlockno.toNat) (Block.rootWord s₁.slot) =
          rootOf (d₃.set b block).data k := by
        rw [rootOf, hno, hslot]
      have hroot : ref s₁.inodeblock (Block.rootWord s₁.slot) = rootOf d₂.data k := by
        rw [rootOf, hheld, hslot]
      rw [hroot', hroot] at hplaced
      refine ⟨hsize'.trans hsize, ⟨_, _, he.trans (hgraft.extended hno hsync)⟩, ?_, ?_⟩
      · have hword := hgraft.others _ (rootWord_ne_nblocksWord (inodeIx k) (inodeIx k)).symm
        rw [hno, hheld, hg.others _ (by rw [h.holds.slot]; exact (rootWord_ne_nblocksWord _ _).symm)]
          at hword
        rw [nblocksOf, hword, Snapshot.nblocks, h.holds.slot]
      · intro off hlt
        by_cases hhere : off = offset
        · rw [if_pos hhere, hhere]
          exact hplaced.here
        · rw [if_neg hhere, hplaced.elsewhere (path off (l + count)) (path_length _ _)
            fun he => hhere ((path_inj hlt hoff).mp he)]
          exact h.grown_data hg hdata hheld hkeep hlt
    · rintro e ⟨core, rfl, hsize', hgraft⟩
      rw [hslot, ← hheld] at hgraft
      have hall := he.trans (hgraft.extended hno hsync)
      rw [← hg.split] at hall
      exact ⟨core, _, rfl, hsize'.trans hsize, hall⟩
  · rintro e ⟨d₁, l', s₁, hg, rfl⟩
    have hno : s₁.inodeBlockno.toNat = inodeOff k := by rw [hg.blockno, h.holds.blockno]
    refine ⟨_, l', rfl, hg.size, hg.extended h.holds h.off_notMem ?_ ?_⟩
    · rw [← hno, Disk.set_self]
    · intro y hy
      exact Disk.set_of_ne d₁ _ (hno ▸ hy)

end Place

end OsSuite.Treedisk
