import OsSuite.BlockTree
import OsSuite.TreediskAlloc

/-! The walk of `treedisk_write` from a parent block down to the data block.
The parent may be newer in memory than on the store, but only while the word
that the walk starts from is a hole, and then the walk writes it. -/

namespace OsSuite.Treedisk

abbrev nodes (m : Nat → Block) (l b : Nat) : Multiset Nat := BlockTree.nodes ref m l b

abbrev look (m : Nat → Block) (p : List (Fin refsPerBlock)) (b : Nat) : Option Block :=
  BlockTree.look ref m p b

/-- A walk of `l` levels may start at word `parentNo` of `parentBlock`. -/
structure WalkReady (d : Disk) (l : Nat) (superblock parentBlock : Block) (parentOff : BlockNo)
    (parentNo : Fin refsPerBlock) (free : Multiset Nat) : Prop where
  list : Free d.data superblock free
  nodup : (nodes d.data l (ref parentBlock parentNo) + free).Nodup
  bound : ∀ y ∈ nodes d.data l (ref parentBlock parentNo) + free, y < d.size.toNat
  parent_lt : parentOff.toNat < d.size.toNat
  parent_ne : parentOff.toNat ≠ 0
  parent_notMem : parentOff.toNat ∉ nodes d.data l (ref parentBlock parentNo) + free
  held : parentBlock parentNo = 0 ∨ d.data parentOff.toNat = parentBlock

/-- The tree below a word of the parent has taken the blocks `fresh` out of the
free blocks, the parent is on the store, and no other block has changed. -/
structure Grafted (m : Nat → Block) (l : Nat) (superblock parentBlock : Block) (parentOff : BlockNo)
    (parentNo : Fin refsPerBlock) (free fresh free' : Multiset Nat) (m' : Nat → Block) : Prop where
  split : free = fresh + free'
  list : Free m' (m' 0) free'
  others : ∀ j, j ≠ parentNo → m' parentOff.toNat j = parentBlock j
  tree : nodes m' l (ref (m' parentOff.toNat) parentNo) =
    nodes m l (ref parentBlock parentNo) + fresh
  frame : ∀ y, y ≠ 0 → y ≠ parentOff.toNat → y ∉ nodes m l (ref parentBlock parentNo) + free →
    m' y = m y
  inodeblocks : (m' 0).nInodeblocks = superblock.nInodeblocks

/-- The data at the path of `offset` is `block`, all other paths of the tree are as before. -/
structure Placed (m : Nat → Block) (l root : Nat) (offset : BlockNo) (block : Block)
    (m' : Nat → Block) (root' : Nat) : Prop where
  here : look m' (path offset l) root' = some block
  elsewhere : ∀ p : List (Fin refsPerBlock), p.length = l → p ≠ path offset l →
    look m' p root' = look m p root

theorem ref_eq_zero {b : Block} {i : Fin refsPerBlock} : ref b i = 0 ↔ b i = 0 := by
  rw [ref, ← UInt32.toNat_zero, UInt32.toNat_inj]

theorem ref_nullBlock (i : Fin refsPerBlock) : ref nullBlock i = 0 := rfl

theorem Free.of_sync {m m' : Nat → Block} {superblock : Block} {free : Multiset Nat}
    (h : Free m superblock free) (hzero : m' 0 = m 0) (hm : ∀ x ∈ free, m' x = m x) :
    Free m' (m' 0) free := by
  rw [hzero, h.sync]
  exact h.congr hzero hm

section Hole

variable {d d₁ : Disk} {l : Nat} {superblock superblock₁ parentBlock : Block}
  {parentOff x : BlockNo} {parentNo : Fin refsPerBlock} {free free₁ : Multiset Nat}

theorem WalkReady.free_nodup (h : WalkReady d l superblock parentBlock parentOff parentNo free) :
    free.Nodup := (Multiset.nodup_add.mp h.nodup).2.1

theorem WalkReady.free_bound (h : WalkReady d l superblock parentBlock parentOff parentNo free) :
    ∀ y ∈ free, y < d.size.toNat := fun y hy => h.bound y (Multiset.mem_add.mpr (Or.inr hy))

theorem WalkReady.parent_notMem_free
    (h : WalkReady d l superblock parentBlock parentOff parentNo free) :
    parentOff.toNat ∉ free := fun hp => h.parent_notMem (Multiset.mem_add.mpr (Or.inr hp))

/-- No block is left for a hole: the parent is put in place as it is. -/
theorem grafted_full (h : WalkReady d l superblock parentBlock parentOff parentNo free)
    (hhole : parentBlock parentNo = 0) (hfree : free = 0) :
    Grafted d.data l superblock parentBlock parentOff parentNo free free 0
      (d.set parentOff parentBlock).data := by
  have hzero : (d.set parentOff parentBlock).data 0 = d.data 0 :=
    Disk.set_of_ne d _ h.parent_ne.symm
  refine ⟨(add_zero free).symm, ?_, ?_, ?_, ?_, ?_⟩
  · exact (hfree ▸ h.list).of_sync hzero (by simp)
  · intro j _
    rw [Disk.set_self]
  · rw [Disk.set_self, ref_eq_zero.mpr hhole, hfree]
    simp
  · intro y _ hy _
    exact Disk.set_of_ne d _ hy
  · rw [hzero, h.list.sync]

theorem Allocated.link_ready (h : WalkReady d (l + 1) superblock parentBlock parentOff parentNo free)
    (ha : Allocated d superblock free x d₁ superblock₁ free₁) (i : Fin refsPerBlock)
    (b : Block) :
    WalkReady (d₁.set parentOff b) l superblock₁ nullBlock x i free₁ := by
  have hsub : ∀ y ∈ free₁, y ∈ free := by
    intro y hy
    rw [ha.split]
    exact Multiset.mem_cons_of_mem hy
  have hnd := h.free_nodup
  rw [ha.split, Multiset.nodup_cons] at hnd
  have hx : x.toNat ∈ free := by
    rw [ha.split]
    exact Multiset.mem_cons_self _ _
  have hsize : (d₁.set parentOff b).size = d.size := ha.size
  have hempty : nodes (d₁.set parentOff b).data l (ref nullBlock i) + free₁ = free₁ := by
    rw [ref_nullBlock]
    simp
  refine ⟨?_, ?_, ?_, ?_, ha.ne_zero h.list, ?_, Or.inl rfl⟩
  · refine ha.list.congr (Disk.set_of_ne d₁ _ h.parent_ne.symm) fun y hy => Disk.set_of_ne d₁ _ ?_
    exact fun he => h.parent_notMem_free (he ▸ hsub y hy)
  · rw [hempty]
    exact hnd.2
  · rw [hempty, hsize]
    exact fun y hy => h.free_bound y (hsub y hy)
  · rw [hsize]
    exact h.free_bound _ hx
  · rw [hempty]
    exact hnd.1

/-- A hole filled with the new block `x`, below which the walk goes on. -/
theorem grafted_hole {i : Fin refsPerBlock} {fresh free' : Multiset Nat} {m' : Nat → Block}
    (h : WalkReady d (l + 1) superblock parentBlock parentOff parentNo free)
    (hhole : parentBlock parentNo = 0)
    (ha : Allocated d superblock free x d₁ superblock₁ free₁)
    (hg : Grafted (d₁.set parentOff (Function.update parentBlock parentNo x)).data l superblock₁
      nullBlock x i free₁ fresh free' m') :
    m' parentOff.toNat = Function.update parentBlock parentNo x ∧
    Grafted d.data (l + 1) superblock parentBlock parentOff parentNo free (x.toNat ::ₘ fresh)
      free' m' := by
  have hx : x.toNat ≠ 0 := ha.ne_zero h.list
  have hmem : ∀ y, y ∈ free ↔ y = x.toNat ∨ y ∈ free₁ := by
    intro y
    rw [ha.split, Multiset.mem_cons]
  have hempty : ∀ m, nodes m l (ref nullBlock i) = 0 := by
    intro m
    rw [ref_nullBlock]
    exact BlockTree.nodes_hole ref m l
  have hkeep : ∀ y, y ≠ 0 → y ∉ free →
      m' y = (d₁.set parentOff (Function.update parentBlock parentNo x)).data y := by
    intro y hy hyf
    rw [hmem, not_or] at hyf
    apply hg.frame y hy hyf.1
    rw [hempty, zero_add]
    exact hyf.2
  have hparent : m' parentOff.toNat = Function.update parentBlock parentNo x := by
    rw [hkeep _ h.parent_ne h.parent_notMem_free, Disk.set_self]
  have hroot : ref (m' parentOff.toNat) parentNo = x.toNat := by
    rw [hparent, ref, Function.update_self]
  refine ⟨hparent, ?_, hg.list, ?_, ?_, ?_, hg.inodeblocks.trans ha.inodeblocks⟩
  · rw [ha.split, hg.split, Multiset.cons_add]
  · intro j hj
    rw [hparent, Function.update_of_ne hj]
  · have hsingle : ∀ j, j ≠ i → ref (m' x.toNat) j = 0 := by
      intro j hj
      rw [ref_eq_zero]
      exact hg.others j hj
    have htree := hg.tree
    rw [hempty, zero_add] at htree
    have hgrown : nodes m' (l + 1) x.toNat = {x.toNat} + fresh :=
      htree ▸ BlockTree.nodes_single ref hx hsingle
    rw [hroot, hgrown, ref_eq_zero.mpr hhole]
    simp
  · intro y hy hyp hyn
    have hyf : y ∉ free := fun hf => hyn (Multiset.mem_add.mpr (Or.inr hf))
    rw [hkeep y hy hyf, Disk.set_of_ne d₁ _ hyp, ha.frame y hy hyf]

/-- A hole at the bottom filled with the data block `x`. -/
theorem grafted_leaf_hole (offset : BlockNo) (block : Block)
    (h : WalkReady d 0 superblock parentBlock parentOff parentNo free)
    (hhole : parentBlock parentNo = 0)
    (ha : Allocated d superblock free x d₁ superblock₁ free₁) :
    let d' := (d₁.set parentOff (Function.update parentBlock parentNo x)).set x block
    Grafted d.data 0 superblock parentBlock parentOff parentNo free {x.toNat} free₁ d'.data ∧
    Placed d.data 0 (ref parentBlock parentNo) offset block d'.data
      (ref (d'.data parentOff.toNat) parentNo) := by
  intro d'
  have hx : x.toNat ≠ 0 := ha.ne_zero h.list
  have hnd := h.free_nodup
  rw [ha.split, Multiset.nodup_cons] at hnd
  have hxp : parentOff.toNat ≠ x.toNat := by
    intro he
    apply h.parent_notMem_free
    rw [he, ha.split]
    exact Multiset.mem_cons_self _ _
  have hkeep : ∀ y, y ≠ parentOff.toNat → y ≠ x.toNat → d'.data y = d₁.data y := by
    intro y hyp hyx
    rw [Disk.set_of_ne _ _ hyx, Disk.set_of_ne _ _ hyp]
  have hparent : d'.data parentOff.toNat = Function.update parentBlock parentNo x := by
    rw [Disk.set_of_ne _ _ hxp, Disk.set_self]
  have hroot : ref (d'.data parentOff.toNat) parentNo = x.toNat := by
    rw [hparent, ref, Function.update_self]
  have hzero : d'.data 0 = d₁.data 0 := hkeep 0 h.parent_ne.symm hx.symm
  refine ⟨⟨by rw [ha.split, Multiset.singleton_add], ?_, ?_, ?_, ?_, ?_⟩, ?_, ?_⟩
  · refine ha.list.of_sync hzero fun y hy => hkeep y ?_ fun he => hnd.1 (he ▸ hy)
    exact fun he => h.parent_notMem_free (by
      rw [← he, ha.split]
      exact Multiset.mem_cons_of_mem hy)
  · intro j hj
    rw [hparent, Function.update_of_ne hj]
  · rw [hroot, nodes, BlockTree.nodes_zero ref _ hx, ref_eq_zero.mpr hhole]
    simp
  · intro y hy hyp hyn
    have hyf : y ∉ free := fun hf => hyn (Multiset.mem_add.mpr (Or.inr hf))
    rw [hkeep y hyp fun he => hyf (by rw [he, ha.split]; exact Multiset.mem_cons_self _ _),
      ha.frame y hy hyf]
  · rw [hzero, ha.list.sync]
    exact ha.inodeblocks
  · rw [hroot, path, look, BlockTree.look_nil ref _ hx, Disk.set_self]
  · intro p hlen hne
    exact absurd (List.length_eq_zero_iff.mp hlen) hne

theorem placed_hole {i : Fin refsPerBlock} {offset : BlockNo} {block : Block} {m m₁ m' : Nat → Block}
    (hi : i = index offset l) (hx : x.toNat ≠ 0) (hothers : ∀ j, j ≠ i → m' x.toNat j = 0)
    (hp : Placed m₁ l (ref nullBlock i) offset block m' (ref (m' x.toNat) i)) :
    Placed m (l + 1) 0 offset block m' x.toNat := by
  subst hi
  refine ⟨?_, ?_⟩
  · rw [path, look, BlockTree.look_cons ref m' _ _ hx]
    exact hp.here
  · intro p hlen hne
    cases p with
    | nil => simp at hlen
    | cons j p =>
      rw [look, BlockTree.look_cons ref m' j p hx]
      by_cases hj : j = index offset l
      · subst hj
        have hp' : p ≠ path offset l := fun he => hne (by rw [he, path])
        have hold := hp.elsewhere p (by simpa using hlen) hp'
        rw [ref_nullBlock, look, look, BlockTree.look_hole] at hold
        rw [hold, look, BlockTree.look_hole]
      · rw [ref_eq_zero.mpr (hothers j hj), BlockTree.look_hole, look, BlockTree.look_hole]

end Hole

section Block

variable {d : Disk} {l : Nat} {superblock parentBlock : Block} {parentOff : BlockNo}
  {parentNo i : Fin refsPerBlock} {free : Multiset Nat}

theorem WalkReady.root_lt (h : WalkReady d l superblock parentBlock parentOff parentNo free)
    (hb : parentBlock parentNo ≠ 0) : (parentBlock parentNo).toNat < d.size.toNat :=
  h.bound _ (Multiset.mem_add.mpr
    (Or.inl (BlockTree.root_mem_nodes ref d.data l (mt ref_eq_zero.mp hb))))

theorem WalkReady.root_notMem_free
    (h : WalkReady d l superblock parentBlock parentOff parentNo free)
    (hb : parentBlock parentNo ≠ 0) : (parentBlock parentNo).toNat ∉ free :=
  Multiset.disjoint_left.mp (Multiset.nodup_add.mp h.nodup).2.2
    (BlockTree.root_mem_nodes ref d.data l (mt ref_eq_zero.mp hb))

theorem WalkReady.parent_ne_root
    (h : WalkReady d l superblock parentBlock parentOff parentNo free)
    (hb : parentBlock parentNo ≠ 0) : parentOff.toNat ≠ (parentBlock parentNo).toNat :=
  fun he => h.parent_notMem (Multiset.mem_add.mpr
    (Or.inl (he ▸ BlockTree.root_mem_nodes ref d.data l (mt ref_eq_zero.mp hb))))

theorem WalkReady.child (h : WalkReady d (l + 1) superblock parentBlock parentOff parentNo free)
    (hb : parentBlock parentNo ≠ 0) (i : Fin refsPerBlock) :
    WalkReady d l superblock (d.data (parentBlock parentNo).toNat) (parentBlock parentNo) i
      free := by
  have hb' : ref parentBlock parentNo ≠ 0 := mt ref_eq_zero.mp hb
  have hle := BlockTree.nodes_child_le ref d.data l hb' i
  have hle' := add_le_add hle (le_refl free)
  refine ⟨h.list, Multiset.nodup_of_le hle' h.nodup,
    fun y hy => h.bound y (Multiset.mem_of_le hle' hy), h.root_lt hb, hb', ?_, Or.inr rfl⟩
  rw [Multiset.mem_add, not_or]
  exact ⟨BlockTree.root_notMem_child ref hb' (Multiset.nodup_add.mp h.nodup).1 i,
    h.root_notMem_free hb⟩

/-- A block on the way is kept, up to the word that the walk goes through. -/
theorem grafted_block {fresh free' : Multiset Nat} {m' : Nat → Block}
    (h : WalkReady d (l + 1) superblock parentBlock parentOff parentNo free)
    (hb : parentBlock parentNo ≠ 0)
    (hg : Grafted d.data l superblock (d.data (parentBlock parentNo).toNat) (parentBlock parentNo)
      i free fresh free' m') :
    m' parentOff.toNat = parentBlock ∧
    (∀ j, j ≠ i → ∀ x ∈ nodes d.data l (ref (d.data (parentBlock parentNo).toNat) j),
      m' x = d.data x) ∧
    Grafted d.data (l + 1) superblock parentBlock parentOff parentNo free fresh free' m' := by
  have hb' : ref parentBlock parentNo ≠ 0 := mt ref_eq_zero.mp hb
  have hnd := (Multiset.nodup_add.mp h.nodup).1
  have hle := BlockTree.nodes_child_le ref d.data l hb' i
  have hout : ∀ y, y ∉ nodes d.data (l + 1) (ref parentBlock parentNo) + free →
      y ∉ nodes d.data l (ref (d.data (parentBlock parentNo).toNat) i) + free :=
    fun y hy hy' => hy (Multiset.mem_of_le (add_le_add hle (le_refl free)) hy')
  have hparent : m' parentOff.toNat = parentBlock := by
    rw [hg.frame _ h.parent_ne (h.parent_ne_root hb) (hout _ h.parent_notMem)]
    exact h.held.resolve_left hb
  have hsiblings : ∀ j, j ≠ i →
      ∀ x ∈ nodes d.data l (ref (d.data (parentBlock parentNo).toNat) j), m' x = d.data x := by
    intro j hj x hx
    have hx' := Multiset.mem_of_le (BlockTree.nodes_child_le ref d.data l hb' j) hx
    apply hg.frame
    · exact fun he => BlockTree.zero_notMem_nodes ref d.data l _ (he ▸ hx)
    · rintro rfl
      exact BlockTree.root_notMem_child ref hb' hnd j hx
    · rw [Multiset.mem_add, not_or]
      exact ⟨BlockTree.notMem_other_child ref hb' hnd hj hx,
        Multiset.disjoint_left.mp (Multiset.nodup_add.mp h.nodup).2.2 hx'⟩
  refine ⟨hparent, hsiblings, hg.split, hg.list, ?_, ?_, ?_, hg.inodeblocks⟩
  · intro j _
    rw [hparent]
  · rw [hparent]
    refine BlockTree.nodes_graft ref hb' ?_ hsiblings hg.tree
    intro j hj
    exact congrArg UInt32.toNat (hg.others j hj)
  · intro y hy _ hyn
    apply hg.frame y hy _ (hout y hyn)
    rintro rfl
    exact hyn (Multiset.mem_add.mpr (Or.inl (BlockTree.root_mem_nodes ref d.data (l + 1) hb')))

theorem grafted_leaf_block (offset : BlockNo) (block : Block)
    (h : WalkReady d 0 superblock parentBlock parentOff parentNo free)
    (hb : parentBlock parentNo ≠ 0) :
    let d' := d.set (parentBlock parentNo) block
    Grafted d.data 0 superblock parentBlock parentOff parentNo free 0 free d'.data ∧
    Placed d.data 0 (ref parentBlock parentNo) offset block d'.data
      (ref (d'.data parentOff.toNat) parentNo) := by
  intro d'
  have hb' : ref parentBlock parentNo ≠ 0 := mt ref_eq_zero.mp hb
  have hparent : d'.data parentOff.toNat = parentBlock := by
    rw [Disk.set_of_ne _ _ (h.parent_ne_root hb)]
    exact h.held.resolve_left hb
  have hzero : d'.data 0 = d.data 0 := Disk.set_of_ne d _ (Ne.symm hb')
  refine ⟨⟨(zero_add free).symm, ?_, ?_, ?_, ?_, ?_⟩, ?_, ?_⟩
  · refine h.list.of_sync hzero fun y hy => Disk.set_of_ne d _ ?_
    exact fun he => h.root_notMem_free hb (he ▸ hy)
  · intro j _
    rw [hparent]
  · rw [hparent, nodes, nodes, BlockTree.nodes_zero ref _ hb', BlockTree.nodes_zero ref _ hb',
      add_zero]
  · intro y _ _ hyn
    apply Disk.set_of_ne
    rintro rfl
    exact hyn (Multiset.mem_add.mpr (Or.inl (BlockTree.root_mem_nodes ref d.data 0 hb')))
  · rw [hzero, h.list.sync]
  · rw [hparent, path, look, BlockTree.look_nil ref _ hb']
    exact congrArg some (Disk.set_self d _ block)
  · intro p hlen hne
    exact absurd (List.length_eq_zero_iff.mp hlen) hne

theorem placed_block {offset : BlockNo} {block : Block} {m m' : Nat → Block} {b : Nat}
    (hi : i = index offset l) (hb : b ≠ 0) (hothers : ∀ j, j ≠ i → m' b j = m b j)
    (hsiblings : ∀ j, j ≠ i → ∀ x ∈ nodes m l (ref (m b) j), m' x = m x)
    (hp : Placed m l (ref (m b) i) offset block m' (ref (m' b) i)) :
    Placed m (l + 1) b offset block m' b := by
  subst hi
  refine ⟨?_, ?_⟩
  · rw [path, look, BlockTree.look_cons ref m' _ _ hb]
    exact hp.here
  · intro p hlen hne
    cases p with
    | nil => simp at hlen
    | cons j p =>
      have hlen' : p.length = l := by simpa using hlen
      by_cases hj : j = index offset l
      · subst hj
        have hp' : p ≠ path offset l := fun he => hne (by rw [he, path])
        rw [look, look, BlockTree.look_cons ref m' _ p hb, BlockTree.look_cons ref m _ p hb]
        exact hp.elsewhere p hlen' hp'
      · refine BlockTree.look_graft_other ref hb (congrArg UInt32.toNat (hothers j hj)) ?_
        rw [hlen']
        exact hsiblings j hj

end Block

/-- The store after the walk and the write of the data block. -/
def Walked (d : Disk) (l : Nat) (superblock parentBlock : Block) (parentOff : BlockNo)
    (parentNo : Fin refsPerBlock) (free : Multiset Nat) (offset : BlockNo) (block : Block)
    (d' : Disk) : Prop :=
  d'.size = d.size ∧
  (∃ fresh free',
    Grafted d.data l superblock parentBlock parentOff parentNo free fresh free' d'.data) ∧
  Placed d.data l (ref parentBlock parentNo) offset block d'.data
    (ref (d'.data parentOff.toNat) parentNo)

/-- The walk panics only for want of free blocks, with all of them in the tree. -/
def WalkFull (d : Disk) (l : Nat) (superblock parentBlock : Block) (parentOff : BlockNo)
    (parentNo : Fin refsPerBlock) (free : Multiset Nat) (e : Stop) : Prop :=
  ∃ core, e = .panic storeIsFull core ∧ core.size = d.size ∧
    Grafted d.data l superblock parentBlock parentOff parentNo free free 0 core.data

theorem writeWalk_spec (offset : BlockNo) (block : Block) (l : Nat) {d : Disk}
    {superblock parentBlock : Block} {parentOff : BlockNo} {parentNo : Fin refsPerBlock}
    {free : Multiset Nat} (h : WalkReady d l superblock parentBlock parentOff parentNo free) :
    Sat (writeWalk offset l d superblock parentBlock parentOff parentNo)
      (fun r => r.1.toNat < r.2.size.toNat ∧
        Walked d l superblock parentBlock parentOff parentNo free offset block (r.2.set r.1 block))
      (WalkFull d l superblock parentBlock parentOff parentNo free) := by
  induction l generalizing d superblock parentBlock parentOff parentNo free with
  | zero =>
    unfold writeWalk
    by_cases hhole : parentBlock parentNo = 0
    · rw [if_pos hhole, sat_bind]
      refine (treediskAllocBlock_spec _ h.list h.free_nodup h.free_bound).imp ?_ ?_
      · rintro ⟨x, d₁, superblock₁⟩ ⟨free₁, ha⟩
        have hlt : parentOff.toNat < d₁.size.toNat := ha.size ▸ h.parent_lt
        have hx : x.toNat < d₁.size.toNat := by
          rw [ha.size]
          exact h.free_bound _ (by rw [ha.split]; exact Multiset.mem_cons_self _ _)
        obtain ⟨hg, hp⟩ := grafted_leaf_hole offset block h hhole ha
        simp only [Disk.write_of_lt hlt, orPanic]
        exact ⟨hx, ha.size, ⟨_, _, hg⟩, hp⟩
      · rintro e ⟨rfl, hfree⟩
        exact ⟨_, rfl, rfl, grafted_full h hhole hfree⟩
    · rw [if_neg hhole]
      obtain ⟨hg, hp⟩ := grafted_leaf_block offset block h hhole
      exact ⟨h.root_lt hhole, rfl, ⟨_, _, hg⟩, hp⟩
  | succ l ih =>
    unfold writeWalk
    by_cases hhole : parentBlock parentNo = 0
    · rw [if_pos hhole, sat_bind]
      refine (treediskAllocBlock_spec _ h.list h.free_nodup h.free_bound).imp ?_ ?_
      · rintro ⟨x, d₁, superblock₁⟩ ⟨free₁, ha⟩
        have hlt : parentOff.toNat < d₁.size.toNat := ha.size ▸ h.parent_lt
        simp only [Disk.write_of_lt hlt, orPanic]
        refine (ih (ha.link_ready h (index offset l) _)).imp ?_ ?_
        · rintro r ⟨hr, hsize, ⟨fresh, free', hg⟩, hp⟩
          obtain ⟨hparent, hg'⟩ := grafted_hole h hhole ha hg
          refine ⟨hr, hsize.trans ha.size, ⟨_, _, hg'⟩, ?_⟩
          rw [hparent, ref_eq_zero.mpr hhole, ref, Function.update_self]
          exact placed_hole rfl (ha.ne_zero h.list) hg.others hp
        · rintro e ⟨core, rfl, hsize, hg⟩
          obtain ⟨_, hg'⟩ := grafted_hole h hhole ha hg
          rw [← ha.split] at hg'
          exact ⟨core, rfl, hsize.trans ha.size, hg'⟩
      · rintro e ⟨rfl, hfree⟩
        exact ⟨_, rfl, rfl, grafted_full h hhole hfree⟩
    · rw [if_neg hhole]
      simp only [Disk.read_of_lt (h.root_lt hhole), orPanic]
      refine (ih (h.child hhole (index offset l))).imp ?_ ?_
      · rintro r ⟨hr, hsize, ⟨fresh, free', hg⟩, hp⟩
        obtain ⟨hparent, hsiblings, hg'⟩ := grafted_block h hhole hg
        refine ⟨hr, hsize, ⟨_, _, hg'⟩, ?_⟩
        rw [hparent]
        exact placed_block rfl (mt ref_eq_zero.mp hhole) hg.others hsiblings hp
      · rintro e ⟨core, rfl, hsize, hg⟩
        exact ⟨core, rfl, hsize, (grafted_block h hhole hg).2.2⟩

end OsSuite.Treedisk
