import OsSuite.TreediskLevels

/-! The free list as a multiset of blocks: the chained list blocks and the
references they hold. Allocation takes one element out of it. -/

namespace OsSuite.Treedisk

/-- The free blocks that a list block refers to, apart from the next list block. -/
def spare (b : Block) : Multiset Nat :=
  ∑ i, if i = 0 ∨ b i = 0 then 0 else {ref b i}

/-- The list blocks chained through `refs[0]`. -/
inductive FreeChain (m : Nat → Block) : Nat → List Nat → Prop
  | nil : FreeChain m 0 []
  | cons {b : Nat} {bs : List Nat} : b ≠ 0 → FreeChain m (ref (m b) 0) bs → FreeChain m b (b :: bs)

def spares (m : Nat → Block) (chain : List Nat) : Multiset Nat :=
  (chain.map fun b => spare (m b)).sum

/-- The superblock of the store is `superblock`, and `free` is what its free list holds. -/
structure Free (m : Nat → Block) (superblock : Block) (free : Multiset Nat) : Prop where
  sync : m 0 = superblock
  list : ∃ chain, FreeChain m superblock.freeList.toNat chain ∧ free = ↑chain + spares m chain

theorem FreeChain.ne_zero {m : Nat → Block} {b x : Nat} {chain : List Nat}
    (h : FreeChain m b chain) (hx : x ∈ chain) : x ≠ 0 := by
  induction h with
  | nil => simp at hx
  | cons hb _ ih =>
    rcases List.mem_cons.mp hx with rfl | hx
    · exact hb
    · exact ih hx

theorem FreeChain.congr {m m' : Nat → Block} {b : Nat} {chain : List Nat}
    (h : FreeChain m b chain) (hm : ∀ x ∈ chain, m' x = m x) : FreeChain m' b chain := by
  induction h with
  | nil => exact .nil
  | @cons b bs hb _ ih =>
    refine .cons hb ?_
    rw [hm b (by simp)]
    exact ih fun x hx => hm x (by simp [hx])

theorem spares_congr {m m' : Nat → Block} {chain : List Nat} (hm : ∀ x ∈ chain, m' x = m x) :
    spares m' chain = spares m chain := by
  simp only [spares]
  rw [List.map_congr_left fun x hx => by rw [hm x hx]]

theorem zero_notMem_spare (b : Block) : 0 ∉ spare b := by
  intro h
  obtain ⟨i, _, hi⟩ := Multiset.mem_sum.mp h
  split at hi
  · simp at hi
  · rename_i hne
    have hz : b i = 0 := by
      rw [← UInt32.toNat_inj]
      exact (Multiset.mem_singleton.mp hi).symm
    exact hne (Or.inr hz)

theorem mem_spares {m : Nat → Block} {chain : List Nat} {x : Nat} :
    x ∈ spares m chain ↔ ∃ b ∈ chain, x ∈ spare (m b) := by
  induction chain with
  | nil => simp [spares]
  | cons b bs ih =>
    simp only [spares, List.map_cons, List.sum_cons, Multiset.mem_add] at ih ⊢
    simp [ih]

theorem Free.zero_notMem {m : Nat → Block} {superblock : Block} {free : Multiset Nat}
    (h : Free m superblock free) : 0 ∉ free := by
  obtain ⟨chain, hchain, rfl⟩ := h.list
  rw [Multiset.mem_add, not_or]
  refine ⟨fun hz => hchain.ne_zero (Multiset.mem_coe.mp hz) rfl, ?_⟩
  intro hz
  obtain ⟨b, _, hb⟩ := mem_spares.mp hz
  exact zero_notMem_spare (m b) hb

theorem Free.congr {m m' : Nat → Block} {superblock : Block} {free : Multiset Nat}
    (h : Free m superblock free) (hzero : m' 0 = m 0) (hm : ∀ x ∈ free, m' x = m x) :
    Free m' superblock free := by
  obtain ⟨chain, hchain, hfree⟩ := h.list
  have hlist : ∀ x ∈ chain, m' x = m x := fun x hx => hm x (by simp [hfree, hx])
  exact ⟨hzero.trans h.sync, chain, hchain.congr hlist, by rw [hfree, spares_congr hlist]⟩

theorem scanRefs_spec (refs : Block) (n : Nat) (hn : n < refsPerBlock) :
    (scanRefs refs n = 0 → ∀ i : Fin refsPerBlock, i ≠ 0 → i.val ≤ n → refs i = 0) ∧
      (scanRefs refs n ≠ 0 → refs (scanRefs refs n) ≠ 0) := by
  induction n with
  | zero =>
    refine ⟨fun _ i hi hle => ?_, fun h => absurd rfl h⟩
    exact absurd (Fin.ext (Nat.le_zero.mp hle)) hi
  | succ n ih =>
    have hval : (Fin.ofNat refsPerBlock (n + 1)).val = n + 1 := Nat.mod_eq_of_lt hn
    by_cases hr : refs (Fin.ofNat refsPerBlock (n + 1)) = 0
    · have hstep : scanRefs refs (n + 1) = scanRefs refs n := by
        rw [scanRefs, if_neg (not_not.mpr hr)]
      rw [hstep]
      refine ⟨fun h i hi hle => ?_, (ih (by omega)).2⟩
      rcases Nat.eq_or_lt_of_le hle with heq | hlt
      · have hi' : i = Fin.ofNat refsPerBlock (n + 1) := Fin.ext (by rw [hval, heq])
        rw [hi', hr]
      · exact (ih (by omega)).1 h i hi (by omega)
    · have hstep : scanRefs refs (n + 1) = Fin.ofNat refsPerBlock (n + 1) := by
        rw [scanRefs, if_pos hr]
      rw [hstep]
      refine ⟨fun h => ?_, fun _ => hr⟩
      rw [Fin.ext_iff, hval] at h
      simp at h

theorem spare_eq_zero {b : Block} (h : ∀ i, i ≠ 0 → b i = 0) : spare b = 0 := by
  apply Finset.sum_eq_zero
  intro i _
  rw [if_pos]
  by_cases hi : i = 0
  · exact Or.inl hi
  · exact Or.inr (h i hi)

theorem spare_clear {b : Block} {i : Fin refsPerBlock} (hi : i ≠ 0) (hb : b i ≠ 0) :
    spare b = ref b i ::ₘ spare (Function.update b i 0) := by
  have hothers : ∑ j ∈ Finset.univ.erase i,
        (if j = 0 ∨ Function.update b i 0 j = 0 then 0 else {ref (Function.update b i 0) j}) =
      ∑ j ∈ Finset.univ.erase i, (if j = 0 ∨ b j = 0 then (0 : Multiset Nat) else {ref b j}) := by
    apply Finset.sum_congr rfl
    intro j hj
    have hji : j ≠ i := Finset.ne_of_mem_erase hj
    simp only [ref, Function.update_of_ne hji]
  have hcleared : (if i = 0 ∨ Function.update b i 0 i = 0 then (0 : Multiset Nat)
      else {ref (Function.update b i 0) i}) = 0 := if_pos (Or.inr (Function.update_self i 0 b))
  have htaken : (if i = 0 ∨ b i = 0 then (0 : Multiset Nat) else {ref b i}) = {ref b i} :=
    if_neg (not_or.mpr ⟨hi, hb⟩)
  rw [spare, spare, ← Finset.add_sum_erase Finset.univ _ (Finset.mem_univ i), htaken,
    ← Finset.add_sum_erase (s := Finset.univ) _ (Finset.mem_univ i), hcleared, hothers, zero_add,
    Multiset.singleton_add]

/-- What an allocation of block `x` does to the store and the superblock in memory. -/
structure Allocated (d : Disk) (superblock : Block) (free : Multiset Nat) (x : BlockNo)
    (d' : Disk) (superblock' : Block) (free' : Multiset Nat) : Prop where
  size : d'.size = d.size
  split : free = x.toNat ::ₘ free'
  list : Free d'.data superblock' free'
  frame : ∀ y, y ≠ 0 → y ∉ free → d'.data y = d.data y
  inodeblocks : superblock'.nInodeblocks = superblock.nInodeblocks

theorem Allocated.ne_zero {d d' : Disk} {superblock superblock' : Block} {free free' : Multiset Nat}
    {x : BlockNo} (h : Allocated d superblock free x d' superblock' free')
    (hfree : Free d.data superblock free) : x.toNat ≠ 0 := by
  intro hx
  apply hfree.zero_notMem
  rw [h.split, hx]
  exact Multiset.mem_cons_self 0 free'

theorem allocated_listBlock {d : Disk} {superblock : Block} {b : Nat} {bs : List Nat}
    (hhead : superblock.freeList.toNat = b)
    (hchain : FreeChain d.data (ref (d.data b) 0) bs) (hspare : spare (d.data b) = 0) :
    Allocated d superblock (↑(b :: bs) + spares d.data (b :: bs)) superblock.freeList
      (d.set 0 (Function.update superblock 1 (d.data b 0)))
      (Function.update superblock 1 (d.data b 0)) (↑bs + spares d.data bs) := by
  have hlist : ∀ x ∈ bs, (d.set 0 (Function.update superblock 1 (d.data b 0))).data x = d.data x := by
    intro x hx
    exact Disk.set_of_ne d _ (hchain.ne_zero hx)
  have hnext : (Block.freeList (Function.update superblock 1 (d.data b 0))).toNat =
      ref (d.data b) 0 := by
    simp [Block.freeList, ref]
  refine ⟨rfl, ?_, ⟨Disk.set_self d 0 _, bs, ?_, by rw [spares_congr hlist]⟩, ?_, ?_⟩
  · simp only [spares, List.map_cons, List.sum_cons, hspare, zero_add, hhead, ← Multiset.cons_coe,
      Multiset.cons_add]
  · rw [hnext]
    exact hchain.congr hlist
  · intro y hy _
    exact Disk.set_of_ne d _ hy
  · simp [Block.nInodeblocks]

theorem allocated_reference {d : Disk} {superblock : Block} {b : Nat} {bs : List Nat}
    {i : Fin refsPerBlock} (hsync : d.data 0 = superblock)
    (hhead : superblock.freeList.toNat = b) (hb : b ≠ 0)
    (hchain : FreeChain d.data (ref (d.data b) 0) bs) (hi : i ≠ 0) (href : d.data b i ≠ 0)
    (hnd : (↑(b :: bs) + spares d.data (b :: bs)).Nodup) :
    Allocated d superblock (↑(b :: bs) + spares d.data (b :: bs)) (d.data b i)
      (d.set superblock.freeList (Function.update (d.data b) i 0)) superblock
      (↑(b :: bs) + (spare (Function.update (d.data b) i 0) + spares d.data bs)) := by
  let d' := d.set superblock.freeList (Function.update (d.data b) i 0)
  have hself : d'.data b = Function.update (d.data b) i 0 := by
    simp only [d', ← hhead, Disk.set_self]
  have hother : ∀ y, y ≠ b → d'.data y = d.data y := by
    intro y hy
    exact Disk.set_of_ne d _ (hhead ▸ hy)
  have hbs : b ∉ bs := by
    have hcons := (Multiset.nodup_add.mp hnd).1
    exact (List.nodup_cons.mp (Multiset.coe_nodup.mp hcons)).1
  have hlist : ∀ x ∈ bs, d'.data x = d.data x :=
    fun x hx => hother x fun he => hbs (he ▸ hx)
  refine ⟨rfl, ?_, ⟨(hother 0 hb.symm).trans hsync, b :: bs, ?_, ?_⟩, ?_, rfl⟩
  · have htaken := spare_clear hi href
    simp only [spares, List.map_cons, List.sum_cons, htaken, ref, Multiset.cons_add,
      Multiset.add_cons]
  · rw [hhead]
    refine .cons hb ?_
    have hnext : ref (d'.data b) 0 = ref (d.data b) 0 := by
      rw [hself, ref, Function.update_of_ne hi.symm, ref]
    rw [hnext]
    exact hchain.congr hlist
  · have htail : spares d'.data bs = spares d.data bs := spares_congr hlist
    simp only [spares, List.map_cons, List.sum_cons] at htail ⊢
    rw [hself, htail]
  · intro y _ hy
    apply hother
    rintro rfl
    exact hy (by simp)

/-- An allocation either takes a block off the free list or finds it empty. -/
theorem treediskAllocBlock_spec {d : Disk} {superblock : Block} {free : Multiset Nat}
    (dirty : Disk → Disk) (hfree : Free d.data superblock free) (hnd : free.Nodup)
    (hlt : ∀ y ∈ free, y < d.size.toNat) :
    Sat (treediskAllocBlock d superblock dirty)
      (fun r => ∃ free', Allocated d superblock free r.1 r.2.1 r.2.2 free')
      (fun e => e = .panic storeIsFull (dirty d) ∧ free = 0) := by
  obtain ⟨chain, hchain, hcontents⟩ := hfree.list
  have hsync := hfree.sync
  unfold treediskAllocBlock
  cases chain with
  | nil =>
    have hzero : superblock.freeList = 0 := by
      rw [← UInt32.toNat_inj]
      generalize superblock.freeList.toNat = n at hchain
      cases hchain
      rfl
    simp [hzero, hcontents, spares]
  | cons b bs =>
    obtain ⟨hhead, hb, htail⟩ : superblock.freeList.toNat = b ∧ b ≠ 0 ∧
        FreeChain d.data (ref (d.data b) 0) bs := by
      generalize hn : superblock.freeList.toNat = n at hchain
      cases hchain with
      | cons hb htail => exact ⟨rfl, hb, htail⟩
    have hne : superblock.freeList ≠ 0 := by
      rw [Ne, ← UInt32.toNat_inj, hhead]
      exact hb
    have hblt : superblock.freeList.toNat < d.size.toNat :=
      hlt _ (by simp [hcontents, hhead])
    have hdisk : (0 : BlockNo).toNat < d.size.toNat := by
      rw [UInt32.toNat_zero]
      omega
    obtain ⟨hnone, hsome⟩ := scanRefs_spec (d.data b) (refsPerBlock - 1) (by decide)
    simp only [if_neg hne, Disk.read_of_lt hblt, hhead, orPanic]
    change Sat (if scanRefs (d.data b) (refsPerBlock - 1) = 0 then _ else _) _ _
    by_cases hi : scanRefs (d.data b) (refsPerBlock - 1) = 0
    · simp only [if_pos hi, Disk.write_of_lt hdisk]
      have hspare : spare (d.data b) = 0 :=
        spare_eq_zero fun i hi0 => hnone hi i hi0 (by have := i.isLt; omega)
      rw [hcontents]
      exact ⟨_, allocated_listBlock hhead htail hspare⟩
    · simp only [if_neg hi, Disk.write_of_lt hblt]
      rw [hcontents]
      exact ⟨_, allocated_reference hsync hhead hb htail hi (hsome hi) (hcontents ▸ hnd)⟩

end OsSuite.Treedisk
