import OsSuite.TreediskWalk

/-! Growing a tree by levels: each round puts an indirect block above the root,
so offsets within the old levels keep their data and all others are holes. -/

namespace OsSuite.Treedisk

structure GrowReady (d : Disk) (l : Nat) (s : Snapshot) (free : Multiset Nat) : Prop where
  list : Free d.data s.superblock free
  nodup : (nodes d.data l s.root.toNat + free).Nodup
  bound : ∀ y ∈ free, y < d.size.toNat

/-- The tree of depth `l` at the root of `s` has become one of depth `l'` at the root of `s'`. -/
structure Grown (d : Disk) (l : Nat) (s : Snapshot) (free fresh free' : Multiset Nat)
    (d' : Disk) (l' : Nat) (s' : Snapshot) : Prop where
  split : free = fresh + free'
  list : Free d'.data s'.superblock free'
  tree : nodes d'.data l' s'.root.toNat = nodes d.data l s.root.toNat + fresh
  frame : ∀ y, y ≠ 0 → y ∉ free → d'.data y = d.data y
  size : d'.size = d.size
  inodeblocks : s'.superblock.nInodeblocks = s.superblock.nInodeblocks
  others : ∀ j, j ≠ Block.rootWord s.slot → s'.inodeblock j = s.inodeblock j
  blockno : s'.inodeBlockno = s.inodeBlockno
  slot : s'.slot = s.slot

/-- Offsets below the old capacity are where they were, the others are holes. -/
def GrownData (d : Disk) (l : Nat) (s : Snapshot) (d' : Disk) (l' : Nat) (s' : Snapshot) : Prop :=
  ∀ off : BlockNo, off.toNat < refsPerBlock ^ l' →
    look d'.data (path off l') s'.root.toNat =
      if off.toNat < refsPerBlock ^ l then look d.data (path off l) s.root.toNat else none

@[simp] theorem setRoot_root (s : Snapshot) (b : BlockNo) : (s.setRoot b).root = b := by
  simp [Snapshot.setRoot, Snapshot.root]

theorem setRoot_others (s : Snapshot) (b : BlockNo) {j : Fin refsPerBlock}
    (hj : j ≠ Block.rootWord s.slot) : (s.setRoot b).inodeblock j = s.inodeblock j :=
  Function.update_of_ne hj _ _

theorem Grown.refl {d : Disk} {l : Nat} {s : Snapshot} {free : Multiset Nat}
    (h : Free d.data s.superblock free) : Grown d l s free 0 free d l s :=
  ⟨(zero_add free).symm, h, (add_zero _).symm, fun _ _ _ => rfl, rfl, rfl, fun _ _ => rfl, rfl, rfl⟩

theorem Grown.trans {d d₁ d' : Disk} {l l₁ l' : Nat} {s s₁ s' : Snapshot}
    {free fresh₁ free₁ fresh free' : Multiset Nat}
    (h₁ : Grown d l s free fresh₁ free₁ d₁ l₁ s₁) (h : Grown d₁ l₁ s₁ free₁ fresh free' d' l' s') :
    Grown d l s free (fresh₁ + fresh) free' d' l' s' where
  split := by rw [h₁.split, h.split, add_assoc]
  list := h.list
  tree := by rw [h.tree, h₁.tree, add_assoc]
  frame y hy hyf := by
    have hy₁ : y ∉ free₁ := fun hm => hyf (by rw [h₁.split]; exact Multiset.mem_add.mpr (Or.inr hm))
    rw [h.frame y hy hy₁, h₁.frame y hy hyf]
  size := h.size.trans h₁.size
  inodeblocks := h.inodeblocks.trans h₁.inodeblocks
  others j hj := (h.others j (h₁.slot ▸ hj)).trans (h₁.others j hj)
  blockno := h.blockno.trans h₁.blockno
  slot := h.slot.trans h₁.slot

theorem GrownData.trans {d d₁ d' : Disk} {l l₁ l' : Nat} {s s₁ s' : Snapshot} (hl : l ≤ l₁)
    (h₁ : GrownData d l s d₁ l₁ s₁) (h : GrownData d₁ l₁ s₁ d' l' s') :
    GrownData d l s d' l' s' := by
  intro off hoff
  have hpow : refsPerBlock ^ l ≤ refsPerBlock ^ l₁ := Nat.pow_le_pow_right (by decide) hl
  rw [h off hoff]
  by_cases hlt : off.toNat < refsPerBlock ^ l₁
  · rw [if_pos hlt, h₁ off hlt]
  · rw [if_neg hlt, if_neg (by omega)]

section Level

variable {d d₁ : Disk} {l : Nat} {s : Snapshot} {superblock₁ : Block} {x : BlockNo}
  {free free₁ : Multiset Nat}

/-- The store with the new indirect block above the root. -/
def lifted (d₁ : Disk) (s : Snapshot) (x : BlockNo) : Disk :=
  d₁.set x (Function.update nullBlock 0 s.root)

theorem ref_lifted_zero : ref ((lifted d₁ s x).data x.toNat) 0 = s.root.toNat := by
  rw [lifted, Disk.set_self, ref, Function.update_self]

theorem ref_lifted_of_ne {j : Fin refsPerBlock} (hj : j ≠ 0) :
    ref ((lifted d₁ s x).data x.toNat) j = 0 := by
  rw [lifted, Disk.set_self, ref, Function.update_of_ne hj]
  rfl

theorem GrowReady.lifted_frame (h : GrowReady d l s free)
    (ha : Allocated d s.superblock free x d₁ superblock₁ free₁) :
    ∀ y ∈ nodes d.data l s.root.toNat, (lifted d₁ s x).data y = d.data y := by
  intro y hy
  have hyf : y ∉ free := Multiset.disjoint_left.mp (Multiset.nodup_add.mp h.nodup).2.2 hy
  have hy0 : y ≠ 0 := fun he => BlockTree.zero_notMem_nodes ref d.data l _ (he ▸ hy)
  have hyx : y ≠ x.toNat := by
    rintro rfl
    exact hyf (by rw [ha.split]; exact Multiset.mem_cons_self _ _)
  rw [lifted, Disk.set_of_ne _ _ hyx, ha.frame y hy0 hyf]

/-- One level: the new root has the old one as its first child. -/
theorem grown_level (h : GrowReady d l s free)
    (ha : Allocated d s.superblock free x d₁ superblock₁ free₁) :
    Grown d l s free {x.toNat} free₁ (lifted d₁ s x) (l + 1)
      ({ s with superblock := superblock₁ }.setRoot x) := by
  have hx : x.toNat ≠ 0 := ha.ne_zero h.list
  have hnd := (Multiset.nodup_add.mp h.nodup).2.1
  rw [ha.split, Multiset.nodup_cons] at hnd
  refine ⟨by rw [ha.split, Multiset.singleton_add], ?_, ?_, ?_, ha.size, ha.inodeblocks,
    fun j hj => setRoot_others _ x hj, rfl, rfl⟩
  · exact ha.list.congr (Disk.set_of_ne d₁ _ hx.symm)
      fun y hy => Disk.set_of_ne d₁ _ fun he => hnd.1 (he ▸ hy)
  · have htree : nodes (lifted d₁ s x).data (l + 1) x.toNat =
        {x.toNat} + nodes (lifted d₁ s x).data l (ref ((lifted d₁ s x).data x.toNat) 0) :=
      BlockTree.nodes_single ref hx fun j hj => ref_lifted_of_ne hj
    have hold : nodes (lifted d₁ s x).data l s.root.toNat = nodes d.data l s.root.toNat :=
      BlockTree.nodes_congr ref l (h.lifted_frame ha)
    rw [setRoot_root, htree, ref_lifted_zero, hold, add_comm]
  · intro y hy hyf
    have hyx : y ≠ x.toNat := by
      rintro rfl
      exact hyf (by rw [ha.split]; exact Multiset.mem_cons_self _ _)
    rw [lifted, Disk.set_of_ne _ _ hyx, ha.frame y hy hyf]

theorem grownData_level (h : GrowReady d l s free)
    (ha : Allocated d s.superblock free x d₁ superblock₁ free₁) :
    GrownData d l s (lifted d₁ s x) (l + 1) ({ s with superblock := superblock₁ }.setRoot x) := by
  intro off hoff
  have hx : x.toNat ≠ 0 := ha.ne_zero h.list
  rw [setRoot_root, path, look, BlockTree.look_cons ref _ _ _ hx]
  by_cases hi : index off l = 0
  · rw [if_pos ((index_eq_zero_iff hoff).mp hi), hi, ref_lifted_zero]
    apply BlockTree.look_congr
    rw [path_length]
    exact h.lifted_frame ha
  · rw [if_neg (mt (index_eq_zero_iff hoff).mpr hi), ref_lifted_of_ne hi, BlockTree.look_hole]

theorem Grown.ready {d' : Disk} {l' : Nat} {s' : Snapshot} {fresh free' : Multiset Nat}
    (h : GrowReady d l s free) (hg : Grown d l s free fresh free' d' l' s') :
    GrowReady d' l' s' free' := by
  refine ⟨hg.list, ?_, ?_⟩
  · rw [hg.tree, add_assoc, ← hg.split]
    exact h.nodup
  · intro y hy
    rw [hg.size]
    exact h.bound y (by rw [hg.split]; exact Multiset.mem_add.mpr (Or.inr hy))

end Level

/-- The growing panics only for want of free blocks, with the inode block in
memory holding the root of the tree grown so far. -/
def GrowFull (d : Disk) (l : Nat) (s : Snapshot) (free : Multiset Nat) (e : Stop) : Prop :=
  ∃ d' l' s', Grown d l s free free 0 d' l' s' ∧
    e = .panic storeIsFull (d'.set s'.inodeBlockno s'.inodeblock)

theorem growLevels_spec (count : Nat) {d : Disk} {l : Nat} {s : Snapshot} {free : Multiset Nat}
    (h : GrowReady d l s free) :
    Sat (growLevels count d s)
      (fun r => (count = 0 → r = (d, s)) ∧
        (∃ fresh free', Grown d l s free fresh free' r.1 (l + count) r.2) ∧
        GrownData d l s r.1 (l + count) r.2)
      (GrowFull d l s free) := by
  induction count generalizing d l s free with
  | zero =>
    refine ⟨fun _ => rfl, ⟨0, free, Grown.refl h.list⟩, ?_⟩
    intro off hoff
    exact (if_pos hoff).symm
  | succ count ih =>
    unfold growLevels
    rw [sat_bind]
    refine (treediskAllocBlock_spec _ h.list (Multiset.nodup_add.mp h.nodup).2.1 h.bound).imp ?_ ?_
    · rintro ⟨x, d₁, superblock₁⟩ ⟨free₁, ha⟩
      have hlt : x.toNat < d₁.size.toNat := by
        rw [ha.size]
        exact h.bound _ (by rw [ha.split]; exact Multiset.mem_cons_self _ _)
      have hg := grown_level h ha
      simp only [Disk.write_of_lt hlt, orPanic]
      refine (ih (hg.ready h)).imp ?_ ?_
      · rintro ⟨d', s'⟩ ⟨_, ⟨fresh, free', hgrown⟩, hdata⟩
        rw [Nat.add_right_comm] at hgrown hdata
        exact ⟨fun hc => absurd hc (Nat.succ_ne_zero count), ⟨_, _, hg.trans hgrown⟩,
          (grownData_level h ha).trans (Nat.le_succ l) hdata⟩
      · rintro e ⟨d', l', s', hgrown, rfl⟩
        have hall := hg.trans hgrown
        rw [← hg.split] at hall
        exact ⟨d', l', s', hall, rfl⟩
    · rintro e ⟨rfl, hfree⟩
      refine ⟨d, l, s, ?_, rfl⟩
      have hnone := Grown.refl (l := l) h.list
      rw [hfree] at hnone ⊢
      exact hnone

end OsSuite.Treedisk
