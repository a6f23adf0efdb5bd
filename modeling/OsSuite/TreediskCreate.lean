import OsSuite.TreediskUpdate

/-! Formatting: the free list of a new store holds every block behind the inode
blocks exactly once, and all inodes are empty. -/

namespace OsSuite.Treedisk

/-- The blocks from `a` up to but not including `b`. -/
abbrev blocks (a b : Nat) : Multiset Nat := (Finset.Ico a b).val

theorem blocks_append {a b c : Nat} (hab : a ≤ b) (hbc : b ≤ c) :
    blocks a b + blocks b c = blocks a c := by
  have hunion := Finset.disjUnion_eq_union _ _ (Finset.Ico_disjoint_Ico_consecutive a b c)
  rw [Finset.Ico_union_Ico_eq_Ico hab hbc] at hunion
  exact congrArg Finset.val hunion

theorem blocks_cons {a b : Nat} (hab : a < b) : blocks a b = a ::ₘ blocks (a + 1) b := by
  have hone : blocks a (a + 1) = {a} := by
    rw [blocks, Nat.Ico_succ_singleton, Finset.singleton_val]
  rw [← blocks_append (Nat.le_succ a) hab, hone, Multiset.singleton_add]

theorem succ_toNat {n nblocks : BlockNo} (h : n.toNat < nblocks.toNat) :
    (n + 1).toNat = n.toNat + 1 := by
  have := nblocks.toNat_lt
  rw [UInt32.toNat_add, UInt32.toNat_one, Nat.mod_eq_of_lt (by omega)]

theorem spare_set {b : Block} {i : Fin refsPerBlock} {x : BlockNo} (hi : i ≠ 0) (hb : b i = 0)
    (hx : x.toNat ≠ 0) : spare (Function.update b i x) = x.toNat ::ₘ spare b := by
  have hne : Function.update b i x i ≠ 0 := by
    rw [Function.update_self]
    exact fun he => hx (by rw [he, UInt32.toNat_zero])
  have hback : Function.update (Function.update b i x) i 0 = b := by
    rw [Function.update_idem, ← hb, Function.update_eq_self]
  rw [spare_clear hi hne, hback, ref, Function.update_self]

theorem fillRefs_spec (nblocks : BlockNo) (k : Nat) (hk : k < refsPerBlock) (nextFree : BlockNo)
    (data : Block) (hpos : nextFree.toNat ≠ 0) (hle : nextFree.toNat ≤ nblocks.toNat)
    (hdata : ∀ i : Fin refsPerBlock, refsPerBlock - k ≤ i.val → data i = 0) :
    let r := fillRefs nblocks k nextFree data
    nextFree.toNat ≤ r.1.toNat ∧ r.1.toNat ≤ nblocks.toNat ∧ r.2 0 = data 0 ∧
      spare r.2 = spare data + blocks nextFree.toNat r.1.toNat := by
  induction k generalizing nextFree data with
  | zero => simp [fillRefs, hle]
  | succ k ih =>
    intro r
    by_cases hlt : nextFree < nblocks
    · have hlt' : nextFree.toNat < nblocks.toNat := UInt32.lt_iff_toNat_lt.mp hlt
      have hsucc := succ_toNat hlt'
      let i := Fin.ofNat refsPerBlock (refsPerBlock - (k + 1))
      have hival : i.val = refsPerBlock - (k + 1) := Nat.mod_eq_of_lt (by simp only [refsPerBlock]; omega)
      have hi : i ≠ 0 := by
        rw [Ne, Fin.ext_iff, hival, Fin.val_zero]
        omega
      have hfree : data i = 0 := hdata i (by rw [hival])
      obtain ⟨hlo, hhi, hzero, hspare⟩ := ih (by omega) (nextFree + 1)
        (Function.update data i nextFree) (by omega) (by omega) (by
          intro j hj
          have hji : j ≠ i := by
            rw [Ne, Fin.ext_iff, hival]
            omega
          rw [Function.update_of_ne hji]
          exact hdata j (by omega))
      have hr : r = fillRefs nblocks k (nextFree + 1) (Function.update data i nextFree) :=
        if_pos hlt
      rw [hr]
      refine ⟨by omega, hhi, ?_, ?_⟩
      · rw [hzero, Function.update_of_ne hi.symm]
      · rw [hspare, spare_set hi hfree hpos, blocks_cons (by omega : nextFree.toNat < _), hsucc]
        simp
    · have hr : r = (nextFree, data) := if_neg hlt
      rw [hr]
      exact ⟨le_rfl, hle, rfl, by simp⟩

/-- The list built so far holds the blocks from `first` up to `next`. -/
structure Listed (m : Nat → Block) (first next : Nat) (head : BlockNo) : Prop where
  le : first ≤ next
  list : ∃ chain, FreeChain m head.toNat chain ∧ ↑chain + spares m chain = blocks first next

theorem Listed.round {d : Disk} {first : Nat} {nextFree head next : BlockNo} {data : Block}
    (h : Listed d.data first nextFree.toNat head) (hpos : nextFree.toNat ≠ 0)
    (hlt : nextFree.toNat < next.toNat) (hhead : data 0 = head)
    (hspare : spare data = blocks (nextFree.toNat + 1) next.toNat) :
    Listed (d.set nextFree data).data first next.toNat nextFree := by
  obtain ⟨chain, hchain, hcontents⟩ := h.list
  have hkeep : ∀ x ∈ chain, (d.set nextFree data).data x = d.data x := by
    intro x hx
    have hmem : x ∈ blocks first nextFree.toNat := by
      rw [← hcontents]
      exact Multiset.mem_add.mpr (Or.inl (Multiset.mem_coe.mpr hx))
    rw [Finset.mem_val, Finset.mem_Ico] at hmem
    exact Disk.set_of_ne d _ (by omega)
  refine ⟨h.le.trans hlt.le, nextFree.toNat :: chain, .cons hpos ?_, ?_⟩
  · rw [Disk.set_self, ref, hhead]
    exact hchain.congr hkeep
  · have hsame : spares (d.set nextFree data).data chain = spares d.data chain := spares_congr hkeep
    rw [← blocks_append h.le hlt.le, blocks_cons hlt, ← hspare, ← hcontents, ← hsame]
    simp only [spares, List.map_cons, List.sum_cons, Disk.set_self, ← Multiset.cons_coe,
      Multiset.cons_add, Multiset.add_cons]
    congr 1
    abel

theorem setupFreelistLoop_spec {first : Nat} (fuel : Nat) {d : Disk} {nextFree head : BlockNo}
    (h : Listed d.data first nextFree.toNat head) (hpos : nextFree.toNat ≠ 0)
    (hle : nextFree.toNat ≤ d.size.toNat) (hfuel : d.size.toNat - nextFree.toNat ≤ fuel) :
    ∃ head' d', setupFreelistLoop d.size fuel d nextFree head = .ok (head', d') ∧
      d'.size = d.size ∧ Listed d'.data first d.size.toNat head' ∧
      ∀ y, y < nextFree.toNat → d'.data y = d.data y := by
  induction fuel generalizing d nextFree head with
  | zero =>
    have heq : nextFree.toNat = d.size.toNat := by omega
    exact ⟨head, d, rfl, rfl, heq ▸ h, fun _ _ => rfl⟩
  | succ fuel ih =>
    unfold setupFreelistLoop
    by_cases hlt : nextFree < d.size
    · have hlt' : nextFree.toNat < d.size.toNat := UInt32.lt_iff_toNat_lt.mp hlt
      have hsucc := succ_toNat hlt'
      let data := Function.update nullBlock 0 head
      have hnull : spare data = 0 :=
        spare_eq_zero fun i hi => Function.update_of_ne hi _ _
      obtain ⟨hlo, hhi, hzero, hspare⟩ := fillRefs_spec d.size (refsPerBlock - 1)
        (by decide) (nextFree + 1) data (by omega) (by omega) (by
          intro i hi
          have hi0 : i ≠ 0 := by
            rw [Ne, Fin.ext_iff, Fin.val_zero]
            simp only [refsPerBlock] at hi
            omega
          exact Function.update_of_ne hi0 _ _)
      rw [hnull, zero_add, hsucc] at hspare
      generalize hr : fillRefs d.size (refsPerBlock - 1) (nextFree + 1) data = r at *
      obtain ⟨next, data'⟩ := r
      have hround := h.round hpos (by simp only at hlo; omega : nextFree.toNat < next.toNat)
        (hzero.trans (Function.update_self _ _ _)) hspare
      obtain ⟨head', d', hok, hsize, hlisted, hkeep⟩ := ih hround
        (by simp only at hlo; omega) hhi (by simp only [Disk.set_size] at hlo ⊢; omega)
      refine ⟨head', d', ?_, hsize, hlisted, ?_⟩
      · rw [if_pos hlt]
        change (orPanic "treedisk_setup_freelist" d
          (d.write nextFree (fillRefs d.size (refsPerBlock - 1) (nextFree + 1) data).2) >>=
            fun d' => setupFreelistLoop d.size fuel d'
              (fillRefs d.size (refsPerBlock - 1) (nextFree + 1) data).1 nextFree) = _
        rw [hr]
        simp only [Disk.write_of_lt hlt']
        exact hok
      · intro y hy
        simp only at hlo
        rw [hkeep y (by omega), Disk.set_of_ne d _ (by omega)]
    · have heq : nextFree.toNat = d.size.toNat := by
        rw [UInt32.lt_iff_toNat_lt] at hlt
        omega
      rw [if_neg hlt]
      exact ⟨head, d, rfl, rfl, heq ▸ h, fun _ _ => rfl⟩

theorem clearInodes_spec (count : Nat) {i : BlockNo} {d : Disk}
    (hle : i.toNat + count ≤ d.size.toNat) :
    ∃ d', clearInodes count i d = .ok d' ∧ d'.size = d.size ∧
      (∀ y, i.toNat ≤ y → y < i.toNat + count → d'.data y = nullBlock) ∧
      (∀ y, y < i.toNat ∨ i.toNat + count ≤ y → d'.data y = d.data y) := by
  induction count generalizing i d with
  | zero => exact ⟨d, rfl, rfl, fun y _ _ => by omega, fun _ _ => rfl⟩
  | succ count ih =>
    have hlt : i.toNat < d.size.toNat := by omega
    have hsucc := succ_toNat hlt
    obtain ⟨d', hok, hsize, hnull, hkeep⟩ := ih (i := i + 1) (d := d.set i nullBlock)
      (by rw [hsucc, Disk.set_size]; omega)
    refine ⟨d', ?_, hsize, ?_, ?_⟩
    · unfold clearInodes
      simp only [Disk.write_of_lt hlt, orFail]
      exact hok
    · intro y hlo hhi
      rcases Nat.eq_or_lt_of_le hlo with rfl | hgt
      · rw [hkeep _ (by omega), Disk.set_self]
      · exact hnull y (by omega) (by omega)
    · intro y hy
      rw [hkeep y (by omega), Disk.set_of_ne d _ (by omega)]

/-- The number of blocks that `treedisk_create` sets aside for the inodes. -/
def inodeblocksFor (ninodes : UInt32) : UInt32 :=
  (ninodes + inodesPerBlock.toUInt32 - 1) / inodesPerBlock.toUInt32

theorem inodeblocksFor_lt (ninodes : UInt32) : (inodeblocksFor ninodes).toNat < 2 ^ 26 := by
  have hper : (64 : Nat).toUInt32.toNat = 64 := rfl
  rw [inodeblocksFor, UInt32.toNat_div, inodesPerBlock, hper]
  have hlt := (ninodes + Nat.toUInt32 64 - 1).toNat_lt
  omega

/-- A new file system: all inodes are empty and every other block is free. -/
structure Formatted (d d' : Disk) (ninodes : UInt32) : Prop where
  size : d'.size = d.size
  reserved : inodeblocks d'.data = (inodeblocksFor ninodes).toNat
  intact : Intact d' (blocks ((inodeblocksFor ninodes).toNat + 1) d.size.toNat)
  inodes : ∀ k < Treedisk.ninodes d'.data,
    nblocksOf d'.data k = 0 ∧ ∀ off, fileAt d'.data k off = none

theorem formatted_of {d d' : Disk} {ninodes : UInt32} {head : BlockNo}
    (hroom : (inodeblocksFor ninodes).toNat + 2 ≤ d.size.toNat) (hsize : d'.size = d.size)
    (hsuper : d'.data 0 =
      Function.update (Function.update nullBlock 0 (inodeblocksFor ninodes)) 1 head)
    (hlist : Listed d'.data ((inodeblocksFor ninodes).toNat + 1) d.size.toNat head)
    (hnull : ∀ y, 1 ≤ y → y < 1 + (inodeblocksFor ninodes).toNat → d'.data y = nullBlock) :
    Formatted d d' ninodes := by
  have hin : Treedisk.inodeblocks d'.data = (inodeblocksFor ninodes).toNat := by
    rw [Treedisk.inodeblocks, hsuper, Block.nInodeblocks, Function.update_of_ne (by decide),
      Function.update_self]
  have hempty : ∀ k < Treedisk.ninodes d'.data, rootOf d'.data k = 0 ∧ nblocksOf d'.data k = 0 := by
    intro k hk
    have hoff := inodeOff_le hk
    have hblock : d'.data (inodeOff k) = nullBlock :=
      hnull _ (Nat.one_le_iff_ne_zero.mpr (inodeOff_pos k)) (by rw [hin] at hoff; omega)
    rw [rootOf, nblocksOf, hblock]
    exact ⟨rfl, rfl⟩
  have htrees : ∑ k ∈ Finset.range (Treedisk.ninodes d'.data), treeOf d'.data k = 0 := by
    apply Finset.sum_eq_zero
    intro k hk
    rw [treeOf, (hempty k (Finset.mem_range.mp hk)).1]
    exact BlockTree.nodes_hole ref _ _
  have hlt := inodeblocksFor_lt ninodes
  refine ⟨hsize, hin, ⟨by rw [hin, hsize]; exact hroom, ?_, ⟨rfl, ?_⟩, ?_⟩, ?_⟩
  · rw [Treedisk.ninodes, hin, inodesPerBlock]
    omega
  · obtain ⟨chain, hchain, hcontents⟩ := hlist.list
    have hhead : (d'.data 0).freeList = head := by
      rw [hsuper, Block.freeList, Function.update_self]
    exact ⟨chain, hhead.symm ▸ hchain, hcontents.symm⟩
  · rw [htrees, hin, hsize, add_zero]
  · intro k hk
    obtain ⟨hroot, hnblocks⟩ := hempty k hk
    refine ⟨hnblocks, fun off => ?_⟩
    rw [fileAt, hroot]
    split
    · exact BlockTree.look_hole ref _ _
    · rfl

/-- On a store with a zero superblock, creation fails for want of room or formats it. -/
theorem treediskCreate_spec {d : Disk} (hzero : d.data 0 = nullBlock) (ninodes : UInt32) :
    Sat (treediskCreate d ninodes)
      (fun d' => (inodeblocksFor ninodes).toNat + 2 ≤ d.size.toNat ∧ Formatted d d' ninodes)
      (fun e => e = .fail ∧ d.size.toNat < (inodeblocksFor ninodes).toNat + 2) := by
  have hlt := inodeblocksFor_lt ninodes
  have hadd : (inodeblocksFor ninodes + 2).toNat = (inodeblocksFor ninodes).toNat + 2 := by
    rw [UInt32.toNat_add, show (2 : UInt32).toNat = 2 from rfl, Nat.mod_eq_of_lt (by omega)]
  have hsucc : (inodeblocksFor ninodes + 1).toNat = (inodeblocksFor ninodes).toNat + 1 := by
    rw [UInt32.toNat_add, UInt32.toNat_one, Nat.mod_eq_of_lt (by omega)]
  unfold treediskCreate
  by_cases hroom : d.size < inodeblocksFor ninodes + 2
  · have hsmall := UInt32.lt_iff_toNat_lt.mp hroom
    rw [hadd] at hsmall
    change Sat (if d.size < inodeblocksFor ninodes + 2 then _ else _) _ _
    rw [if_pos hroom]
    exact ⟨rfl, hsmall⟩
  · have hlarge : (inodeblocksFor ninodes).toNat + 2 ≤ d.size.toNat := by
      rw [UInt32.lt_iff_toNat_lt, hadd] at hroom
      omega
    have hdisk : (0 : BlockNo).toNat < d.size.toNat := by
      rw [UInt32.toNat_zero]
      omega
    have hstart : Listed d.data ((inodeblocksFor ninodes).toNat + 1)
        (inodeblocksFor ninodes + 1).toNat 0 :=
      ⟨by rw [hsucc], [], .nil, by rw [hsucc, blocks, Finset.Ico_self]; rfl⟩
    obtain ⟨head, d₁, hok, hsize₁, hlist, hkeep₁⟩ := setupFreelistLoop_spec
      (d.size.toNat - (inodeblocksFor ninodes + 1).toNat) hstart (by omega) (by omega) le_rfl
    let superblock := Function.update (Function.update nullBlock 0 (inodeblocksFor ninodes)) 1 head
    have hdisk₁ : (0 : BlockNo).toNat < d₁.size.toNat := hsize₁ ▸ hdisk
    obtain ⟨d₂, hclear, hsize₂, hnull, hkeep₂⟩ := clearInodes_spec (inodeblocksFor ninodes).toNat
      (i := 1) (d := d₁.set 0 superblock)
      (by rw [Disk.set_size, hsize₁, UInt32.toNat_one]; omega)
    rw [UInt32.toNat_one] at hnull hkeep₂
    have hrun : treediskCreate d ninodes = .ok d₂ := by
      unfold treediskCreate
      change (if d.size < inodeblocksFor ninodes + 2 then _ else _) = _
      rw [if_neg hroom]
      simp only [Disk.read_of_lt hdisk, orFail, UInt32.toNat_zero, hzero]
      change (setupFreelist d (inodeblocksFor ninodes + 1) d.size >>= _) = _
      rw [setupFreelist, hok]
      change (orFail (d₁.write 0 superblock) >>= _) = _
      rw [Disk.write_of_lt hdisk₁]
      exact hclear
    change Sat (treediskCreate d ninodes) _ _
    rw [hrun]
    have hsuper : d₂.data 0 = superblock := by
      rw [hkeep₂ 0 (Or.inl Nat.one_pos)]
      exact Disk.set_self d₁ 0 superblock
    refine ⟨hlarge, formatted_of hlarge (hsize₂.trans hsize₁) hsuper ?_ hnull⟩
    · obtain ⟨chain, hchain, hcontents⟩ := hlist.list
      have hkeep : ∀ x ∈ chain, d₂.data x = d₁.data x := by
        intro x hx
        have hmem : x ∈ blocks ((inodeblocksFor ninodes).toNat + 1) d.size.toNat := by
          rw [← hcontents]
          exact Multiset.mem_add.mpr (Or.inl (Multiset.mem_coe.mpr hx))
        rw [Finset.mem_val, Finset.mem_Ico] at hmem
        rw [hkeep₂ x (Or.inr (by omega))]
        exact Disk.set_of_ne d₁ _ (hchain.ne_zero hx)
      exact ⟨by omega, chain, hchain.congr hkeep, by rw [spares_congr hkeep, hcontents]⟩

end OsSuite.Treedisk
