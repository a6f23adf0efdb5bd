import OsSuite.TreediskGrow

/-! The inodes of a store, the ownership invariant over all of them, and what
it means that one inode's tree has been extended and everything else kept. -/

namespace OsSuite.Treedisk

/-- The block that holds inode `k`. -/
def inodeOff (k : Nat) : Nat := 1 + k / inodesPerBlock

def inodeIx (k : Nat) : Fin inodesPerBlock := ⟨k % inodesPerBlock, Nat.mod_lt _ (by decide)⟩

def rootOf (m : Nat → Block) (k : Nat) : Nat := ref (m (inodeOff k)) (Block.rootWord (inodeIx k))

def nblocksOf (m : Nat → Block) (k : Nat) : BlockNo :=
  m (inodeOff k) (Block.nblocksWord (inodeIx k))

/-- The nodes of the tree of inode `k`, its data blocks `levelsOf` levels below the root. -/
def treeOf (m : Nat → Block) (k : Nat) : Multiset Nat :=
  nodes m (levelsOf (nblocksOf m k)) (rootOf m k)

def inodeblocks (m : Nat → Block) : Nat := (m 0).nInodeblocks.toNat

def ninodes (m : Nat → Block) : Nat := inodeblocks m * inodesPerBlock

/-- What the tree of inode `k` holds at an offset; holes and offsets beyond it are `none`. -/
def fileAt (m : Nat → Block) (k : Nat) (off : BlockNo) : Option Block :=
  if off.toNat < refsPerBlock ^ levelsOf (nblocksOf m k) then
    look m (path off (levelsOf (nblocksOf m k))) (rootOf m k)
  else none

/-- The free blocks and the trees of all inodes share out the blocks behind the inode blocks. -/
structure Intact (d : Disk) (free : Multiset Nat) : Prop where
  room : inodeblocks d.data + 2 ≤ d.size.toNat
  fits : ninodes d.data < 2 ^ 32
  list : Free d.data (d.data 0) free
  exact : free + ∑ k ∈ Finset.range (ninodes d.data), treeOf d.data k =
    (Finset.Ico (inodeblocks d.data + 1) d.size.toNat).val

/-- Inode `k` has a tree of depth `l'` with the further blocks `fresh`; other
inodes and blocks are as before. -/
structure Extended (m : Nat → Block) (k l : Nat) (free fresh free' : Multiset Nat)
    (m' : Nat → Block) (l' : Nat) : Prop where
  split : free = fresh + free'
  list : Free m' (m' 0) free'
  tree : nodes m' l' (rootOf m' k) = nodes m l (rootOf m k) + fresh
  others : ∀ j, j ≠ Block.rootWord (inodeIx k) → j ≠ Block.nblocksWord (inodeIx k) →
    m' (inodeOff k) j = m (inodeOff k) j
  frame : ∀ y, y ≠ 0 → y ≠ inodeOff k → y ∉ nodes m l (rootOf m k) + free → m' y = m y
  superblock : (m' 0).nInodeblocks = (m 0).nInodeblocks

section Intact

variable {d : Disk} {free : Multiset Nat} {k : Nat}

theorem inodeOff_le (hk : k < ninodes d.data) : inodeOff k ≤ inodeblocks d.data := by
  simp only [ninodes, inodeOff, inodesPerBlock] at hk ⊢
  omega

theorem inodeOff_pos (k : Nat) : inodeOff k ≠ 0 := by
  simp [inodeOff]

theorem Intact.owned_le (h : Intact d free) (hk : k < ninodes d.data) :
    treeOf d.data k + free ≤ (Finset.Ico (inodeblocks d.data + 1) d.size.toNat).val := by
  rw [← h.exact, add_comm]
  exact add_le_add_right (Finset.single_le_sum (f := treeOf d.data)
    (fun _ _ => Multiset.zero_le _) (Finset.mem_range.mpr hk)) free

theorem Intact.owned_nodup (h : Intact d free) (hk : k < ninodes d.data) :
    (treeOf d.data k + free).Nodup :=
  Multiset.nodup_of_le (h.owned_le hk) (Finset.Ico _ _).nodup

theorem Intact.owned_bound (h : Intact d free) (hk : k < ninodes d.data) {y : Nat}
    (hy : y ∈ treeOf d.data k + free) : inodeblocks d.data < y ∧ y < d.size.toNat := by
  have hmem := Multiset.mem_of_le (h.owned_le hk) hy
  rw [Finset.mem_val, Finset.mem_Ico] at hmem
  omega

theorem Intact.inodeOff_notMem (h : Intact d free) (hk : k < ninodes d.data) {k' : Nat}
    (hk' : k' < ninodes d.data) : inodeOff k' ∉ treeOf d.data k + free := by
  intro hmem
  have := h.owned_bound hk hmem
  have := inodeOff_le hk'
  omega

theorem Intact.inodeOff_lt (h : Intact d free) (hk : k < ninodes d.data) :
    inodeOff k < d.size.toNat := by
  have := inodeOff_le hk
  have := h.room
  omega

theorem Intact.trees_disjoint (h : Intact d free) (hk : k < ninodes d.data) {k' : Nat}
    (hk' : k' < ninodes d.data) (hne : k' ≠ k) {y : Nat} (hy : y ∈ treeOf d.data k') :
    y ∉ treeOf d.data k + free := by
  have hsplit : treeOf d.data k + free + ∑ j ∈ (Finset.range (ninodes d.data)).erase k,
      treeOf d.data j = (Finset.Ico (inodeblocks d.data + 1) d.size.toNat).val := by
    rw [← h.exact, ← Finset.add_sum_erase _ _ (Finset.mem_range.mpr hk), add_comm (treeOf d.data k),
      add_assoc]
  have hnd : (treeOf d.data k + free + ∑ j ∈ (Finset.range (ninodes d.data)).erase k,
      treeOf d.data j).Nodup := by
    rw [hsplit]
    exact (Finset.Ico _ _).nodup
  intro hmem
  exact Multiset.disjoint_left.mp (Multiset.nodup_add.mp hnd).2.2 hmem
    (Multiset.mem_sum.mpr ⟨k', Finset.mem_erase.mpr ⟨hne, Finset.mem_range.mpr hk'⟩, hy⟩)

end Intact

theorem inodeIx_ne {k k' : Nat} (hne : k' ≠ k) (hoff : inodeOff k' = inodeOff k) :
    (inodeIx k').val ≠ (inodeIx k).val := by
  simp only [inodeOff, inodeIx, inodesPerBlock] at hoff ⊢
  omega

section Extended

variable {d : Disk} {k l' : Nat} {free fresh free' : Multiset Nat} {m' : Nat → Block}

theorem Extended.ninodes_eq (h : Extended d.data k (levelsOf (nblocksOf d.data k)) free fresh free'
    m' l') : ninodes m' = ninodes d.data := by
  rw [ninodes, inodeblocks, h.superblock]
  rfl

theorem Extended.inode_other (hi : Intact d free) (hk : k < ninodes d.data)
    (h : Extended d.data k (levelsOf (nblocksOf d.data k)) free fresh free' m' l') {k' : Nat}
    (hk' : k' < ninodes d.data) (hne : k' ≠ k) :
    rootOf m' k' = rootOf d.data k' ∧ nblocksOf m' k' = nblocksOf d.data k' := by
  by_cases hoff : inodeOff k' = inodeOff k
  · have hix := inodeIx_ne hne hoff
    have hroot := h.others (Block.rootWord (inodeIx k'))
      (by rw [Ne, Fin.ext_iff]; simp only [Block.rootWord]; omega)
      (by rw [Ne, Fin.ext_iff]; simp only [Block.rootWord, Block.nblocksWord]; omega)
    have hnblocks := h.others (Block.nblocksWord (inodeIx k'))
      (by rw [Ne, Fin.ext_iff]; simp only [Block.rootWord, Block.nblocksWord]; omega)
      (by rw [Ne, Fin.ext_iff]; simp only [Block.nblocksWord]; omega)
    exact ⟨by rw [rootOf, rootOf, ref, ref, hoff, hroot], by rw [nblocksOf, nblocksOf, hoff, hnblocks]⟩
  · have hblock := h.frame _ (inodeOff_pos k') hoff (hi.inodeOff_notMem hk hk')
    exact ⟨by rw [rootOf, rootOf, hblock], by rw [nblocksOf, nblocksOf, hblock]⟩

theorem Extended.blocks_other (hi : Intact d free) (hk : k < ninodes d.data)
    (h : Extended d.data k (levelsOf (nblocksOf d.data k)) free fresh free' m' l') {k' : Nat}
    (hk' : k' < ninodes d.data) (hne : k' ≠ k) : ∀ y ∈ treeOf d.data k', m' y = d.data y := by
  intro y hy
  refine h.frame y ?_ ?_ (hi.trees_disjoint hk hk' hne hy)
  · exact fun he => BlockTree.zero_notMem_nodes ref d.data _ _ (he ▸ hy)
  · rintro rfl
    exact hi.inodeOff_notMem hk' hk (Multiset.mem_add.mpr (Or.inl hy))

theorem Extended.tree_other (hi : Intact d free) (hk : k < ninodes d.data)
    (h : Extended d.data k (levelsOf (nblocksOf d.data k)) free fresh free' m' l') {k' : Nat}
    (hk' : k' < ninodes d.data) (hne : k' ≠ k) : treeOf m' k' = treeOf d.data k' := by
  obtain ⟨hroot, hnblocks⟩ := h.inode_other hi hk hk' hne
  rw [treeOf, treeOf, hroot, hnblocks]
  exact BlockTree.nodes_congr ref _ (h.blocks_other hi hk hk' hne)

theorem Extended.file_other (hi : Intact d free) (hk : k < ninodes d.data)
    (h : Extended d.data k (levelsOf (nblocksOf d.data k)) free fresh free' m' l') {k' : Nat}
    (hk' : k' < ninodes d.data) (hne : k' ≠ k) (off : BlockNo) :
    fileAt m' k' off = fileAt d.data k' off := by
  obtain ⟨hroot, hnblocks⟩ := h.inode_other hi hk hk' hne
  have hlook : look m' (path off (levelsOf (nblocksOf d.data k'))) (rootOf d.data k') =
      look d.data (path off (levelsOf (nblocksOf d.data k'))) (rootOf d.data k') := by
    apply BlockTree.look_congr
    rw [path_length]
    exact h.blocks_other hi hk hk' hne
  rw [fileAt, fileAt, hroot, hnblocks, hlook]

theorem Extended.exact (hi : Intact d free) (hk : k < ninodes d.data)
    (h : Extended d.data k (levelsOf (nblocksOf d.data k)) free fresh free' m' l') :
    free' + (nodes m' l' (rootOf m' k) +
      ∑ j ∈ (Finset.range (ninodes d.data)).erase k, treeOf m' j) =
    (Finset.Ico (inodeblocks d.data + 1) d.size.toNat).val := by
  have hothers : ∑ j ∈ (Finset.range (ninodes d.data)).erase k, treeOf m' j =
      ∑ j ∈ (Finset.range (ninodes d.data)).erase k, treeOf d.data j := by
    apply Finset.sum_congr rfl
    intro j hj
    obtain ⟨hne, hj⟩ := Finset.mem_erase.mp hj
    exact h.tree_other hi hk (Finset.mem_range.mp hj) hne
  rw [hothers, h.tree, ← hi.exact, ← Finset.add_sum_erase _ _ (Finset.mem_range.mpr hk), h.split,
    treeOf]
  abel

theorem Extended.intact (hi : Intact d free) (hk : k < ninodes d.data)
    (h : Extended d.data k (levelsOf (nblocksOf d.data k)) free fresh free' m' l')
    (hl : levelsOf (nblocksOf m' k) = l') : Intact ⟨d.size, m'⟩ free' := by
  have hn := h.ninodes_eq
  have hin : inodeblocks m' = inodeblocks d.data := by
    rw [inodeblocks, h.superblock]
    rfl
  refine ⟨by rw [hin]; exact hi.room, by rw [hn]; exact hi.fits, h.list, ?_⟩
  rw [hn, hin, ← h.exact hi hk, ← Finset.add_sum_erase _ _ (Finset.mem_range.mpr hk)]
  conv_lhs => rw [treeOf, hl]

end Extended

end OsSuite.Treedisk
