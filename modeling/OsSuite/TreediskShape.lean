import OsSuite.BlockTreeShape
import OsSuite.TreediskCounted
import OsSuite.TreediskRefinement

/-! What a write does to the shape of a tree, and how many blocks it takes for that. -/

namespace OsSuite.Treedisk

abbrev barren (m : Nat → Block) (l b : Nat) : Set Nat := BlockTree.barren ref m l b

abbrev barrenBeside (m : Nat → Block) (p : List (Fin refsPerBlock)) (b : Nat) : Set Nat :=
  BlockTree.barrenBeside ref m p b

abbrev missing (m : Nat → Block) (p : List (Fin refsPerBlock)) (b : Nat) : Nat :=
  BlockTree.missing ref m p b

theorem countedAlloc_spec {d : Disk} {superblock : Block} {free : Multiset Nat} (calls : Nat)
    (dirty : Disk → Disk) (hfree : Free d.data superblock free) (hnd : free.Nodup)
    (hlt : ∀ y ∈ free, y < d.size.toNat) :
    Sat (countedAlloc calls d superblock dirty)
      (fun r => r.1 = calls + 1 ∧ ∃ free', Allocated d superblock free r.2.1 r.2.2.1 r.2.2.2 free')
      (fun _ => True) := by
  unfold countedAlloc
  rw [sat_bind]
  refine (treediskAllocBlock_spec dirty hfree hnd hlt).imp ?_ fun _ _ => trivial
  intro r hr
  exact ⟨rfl, hr⟩

theorem countedWalk_walked (offset : BlockNo) (block : Block) (l calls : Nat) {d : Disk}
    {superblock parentBlock : Block} {parentOff : BlockNo} {parentNo : Fin refsPerBlock}
    {free : Multiset Nat} (h : WalkReady d l superblock parentBlock parentOff parentNo free) :
    Sat (countedWalk offset l calls d superblock parentBlock parentOff parentNo)
      (fun r => r.2.1.toNat < r.2.2.size.toNat ∧
        Walked d l superblock parentBlock parentOff parentNo free offset block (r.2.2.set r.2.1 block))
      (WalkFull d l superblock parentBlock parentOff parentNo free) := by
  have hwalk := writeWalk_spec offset block l h
  rw [← snd_countedWalk offset l calls, sat_map] at hwalk
  exact hwalk

theorem Placed.root_ne {m m' : Nat → Block} {l root root' : Nat} {offset : BlockNo} {block : Block}
    (h : Placed m l root offset block m' root') : root' ≠ 0 := by
  rintro rfl
  have hhere := h.here
  rw [look, BlockTree.look_hole] at hhere
  cases hhere

/-- The walk takes a block for each hole on its way, and what it leaves without a child lies beside
the path. -/
theorem countedWalk_shape (offset : BlockNo) (block : Block) (l : Nat) {calls : Nat} {d : Disk}
    {superblock parentBlock : Block} {parentOff : BlockNo} {parentNo : Fin refsPerBlock}
    {free : Multiset Nat} (h : WalkReady d l superblock parentBlock parentOff parentNo free) :
    Sat (countedWalk offset l calls d superblock parentBlock parentOff parentNo)
      (fun r => r.1 = calls + missing d.data (path offset l) (ref parentBlock parentNo) ∧
        barren (r.2.2.set r.2.1 block).data l
            (ref ((r.2.2.set r.2.1 block).data parentOff.toNat) parentNo) =
          barrenBeside d.data (path offset l) (ref parentBlock parentNo))
      (fun _ => True) := by
  induction l generalizing calls d superblock parentBlock parentOff parentNo free with
  | zero =>
    unfold countedWalk
    by_cases hhole : parentBlock parentNo = 0
    · rw [if_pos hhole, sat_bind]
      refine (countedAlloc_spec calls _ h.list h.free_nodup h.free_bound).imp ?_ fun _ _ => trivial
      rintro ⟨calls, x, d₁, superblock₁⟩ ⟨rfl, free₁, ha⟩
      have hlt : parentOff.toNat < d₁.size.toNat := ha.size ▸ h.parent_lt
      simp only [Disk.write_of_lt hlt, orPanic]
      refine ⟨?_, rfl⟩
      rw [ref_eq_zero.mpr hhole]
      rfl
    · rw [if_neg hhole]
      refine ⟨?_, rfl⟩
      simp [path, BlockTree.missing, ref_eq_zero, hhole]
  | succ l ih =>
    unfold countedWalk
    by_cases hhole : parentBlock parentNo = 0
    · rw [if_pos hhole, sat_bind]
      refine (countedAlloc_spec calls _ h.list h.free_nodup h.free_bound).imp ?_ fun _ _ => trivial
      rintro ⟨calls, x, d₁, superblock₁⟩ ⟨rfl, free₁, ha⟩
      have hlt : parentOff.toNat < d₁.size.toNat := ha.size ▸ h.parent_lt
      have hx : x.toNat ≠ 0 := ha.ne_zero h.list
      have hready := ha.link_ready h (index offset l) (Function.update parentBlock parentNo x)
      simp only [Disk.write_of_lt hlt, orPanic]
      refine ((ih hready).and (countedWalk_walked offset block l _ hready)).imp ?_ fun _ _ => trivial
      rintro r ⟨⟨hcalls, hbarren⟩, -, -, ⟨fresh, free', hg⟩, hp⟩
      obtain ⟨hparent, -⟩ := grafted_hole h hhole ha hg
      rw [ref_nullBlock] at hcalls hbarren
      have hsingle : barren (r.2.2.set r.2.1 block).data (l + 1) x.toNat = ∅ := by
        rw [barren, BlockTree.barren_single ref hx (fun j hj => ref_eq_zero.mpr (hg.others j hj)) hp.root_ne]
        simpa using hbarren
      refine ⟨?_, ?_⟩
      · rw [hcalls, ref_eq_zero.mpr hhole]
        simp
        omega
      · rw [hparent, ref, Function.update_self, hsingle, ref_eq_zero.mpr hhole]
        simp
    · rw [if_neg hhole]
      have hb : ref parentBlock parentNo ≠ 0 := mt ref_eq_zero.mp hhole
      have hready := h.child hhole (index offset l)
      simp only [Disk.read_of_lt (h.root_lt hhole), orPanic]
      refine ((ih hready).and (countedWalk_walked offset block l _ hready)).imp ?_ fun _ _ => trivial
      rintro r ⟨⟨hcalls, hbarren⟩, -, -, ⟨fresh, free', hg⟩, hp⟩
      obtain ⟨hparent, hsiblings, -⟩ := grafted_block h hhole hg
      refine ⟨?_, ?_⟩
      · rw [hcalls, path, missing, missing, BlockTree.missing_cons ref hb]
        rfl
      · rw [hparent, path]
        exact BlockTree.barren_graft ref (path_length offset l) hb
          (fun j hj => congrArg UInt32.toNat (hg.others j hj)) hsiblings hbarren hp.root_ne

/-- What growing by `count` levels, at least one, makes of the tree at the root of `s`. -/
structure GrownShape (d : Disk) (l count : Nat) (s : Snapshot) (d' : Disk) (s' : Snapshot) : Prop where
  root : s'.root.toNat ≠ 0
  others : ∀ j, j ≠ 0 → ref (d'.data s'.root.toNat) j = 0
  first : ref (d'.data s'.root.toNat) 0 ≠ 0 ↔ s.root.toNat ≠ 0 ∨ 1 < count
  kept : s.root.toNat ≠ 0 → barren d'.data (l + count) s'.root.toNat = barren d.data l s.root.toNat
  wasted : s.root.toNat = 0 → (barren d'.data (l + count) s'.root.toNat).Nonempty

section Grow

variable {d d₁ d' : Disk} {l count : Nat} {s s₁ s' : Snapshot} {superblock₁ : Block} {x : BlockNo}
  {free free₁ : Multiset Nat}

theorem grownShape_level (h : GrowReady d l s free)
    (ha : Allocated d s.superblock free x d₁ superblock₁ free₁) :
    GrownShape d l 1 s (lifted d₁ s x) ({ s with superblock := superblock₁ }.setRoot x) := by
  have hx : x.toNat ≠ 0 := ha.ne_zero h.list
  refine ⟨?_, ?_, ?_, ?_, ?_⟩ <;> rw [setRoot_root]
  · exact hx
  · intro j hj
    exact ref_lifted_of_ne hj
  · rw [ref_lifted_zero]
    simp
  · intro hroot
    have hchild : ref ((lifted d₁ s x).data x.toNat) 0 ≠ 0 := by rwa [ref_lifted_zero]
    rw [barren, BlockTree.barren_single ref hx (fun j hj => ref_lifted_of_ne hj) hchild, ref_lifted_zero]
    exact BlockTree.barren_congr ref l (h.lifted_frame ha)
  · intro hroot
    refine ⟨x.toNat, BlockTree.mem_barren_of_holes ref hx fun i => ?_⟩
    by_cases hi : i = 0
    · rw [hi, ref_lifted_zero, hroot]
    · exact ref_lifted_of_ne hi

theorem GrownShape.cons (h₁ : GrownShape d l 1 s d₁ s₁) (h : GrownShape d₁ (l + 1) count s₁ d' s')
    (hcount : 0 < count) : GrownShape d l (count + 1) s d' s' := by
  have hdepth : l + (count + 1) = l + 1 + count := by omega
  have hkept := h.kept h₁.root
  refine ⟨h.root, h.others, ?_, ?_, ?_⟩
  · exact ⟨fun _ => Or.inr (by omega), fun _ => h.first.mpr (Or.inl h₁.root)⟩
  · intro hroot
    rw [hdepth, hkept, h₁.kept hroot]
  · intro hroot
    rw [hdepth, hkept]
    exact h₁.wasted hroot

theorem countedGrow_shape (count : Nat) {calls : Nat} (h : GrowReady d l s free) :
    Sat (countedGrow count calls d s)
      (fun r => r.1 = calls + count ∧ (0 < count → GrownShape d l count s r.2.1 r.2.2)) (fun _ => True) := by
  induction count generalizing calls d l s free with
  | zero => exact ⟨rfl, fun hc => absurd hc (Nat.lt_irrefl 0)⟩
  | succ count ih =>
    unfold countedGrow
    rw [sat_bind]
    refine (countedAlloc_spec calls _ h.list (Multiset.nodup_add.mp h.nodup).2.1 h.bound).imp ?_
      fun _ _ => trivial
    rintro ⟨calls, x, d₁, superblock₁⟩ ⟨rfl, free₁, ha⟩
    have hlt : x.toNat < d₁.size.toNat := by
      rw [ha.size]
      exact h.bound _ (by rw [ha.split]; exact Multiset.mem_cons_self _ _)
    have hlevel := grownShape_level h ha
    simp only [Disk.write_of_lt hlt, orPanic]
    cases count with
    | zero => exact ⟨rfl, fun _ => hlevel⟩
    | succ count =>
      refine (ih ((grown_level h ha).ready h)).imp ?_ fun _ _ => trivial
      rintro r ⟨hcalls, hshape⟩
      exact ⟨by omega, fun _ => hlevel.cons (hshape (Nat.succ_pos count)) (Nat.succ_pos count)⟩

section NewTree

variable {c : Nat} {offset : BlockNo} (h : GrownShape d l (c + 1) s d' s')
  (hi : index offset (l + c) ≠ 0)

include h hi

/-- The path leaves the grown levels at the root. -/
theorem GrownShape.missing : missing d'.data (path offset (l + (c + 1))) s'.root.toNat = l + c + 1 := by
  rw [← Nat.add_assoc, path, Treedisk.missing, BlockTree.missing_cons ref h.root, h.others _ hi]
  simp

/-- Above a hole, the first level gets its child from the walk and the others from one another,
except for the lowest of several. -/
theorem GrownShape.beside (hroot : s.root.toNat = 0) :
    barrenBeside d'.data (path offset (l + (c + 1))) s'.root.toNat = ∅ ↔ c = 0 := by
  have hchild : ref (d'.data s'.root.toNat) (index offset (l + c)) = 0 := h.others _ hi
  rw [← Nat.add_assoc, path, barrenBeside]
  constructor
  · intro hnone
    by_contra hc
    have hfirst : ref (d'.data s'.root.toNat) 0 ≠ 0 := h.first.mpr (Or.inr (by omega))
    rw [BlockTree.barrenBeside_eq_barren ref h.root hchild hfirst, path_length] at hnone
    exact (h.wasted hroot).ne_empty hnone
  · intro hc
    have hholes : ∀ j, ref (d'.data s'.root.toNat) j = 0 := by
      intro j
      by_cases hj : j = 0
      · by_contra hfirst
        rw [hj] at hfirst
        have hgrown := h.first.mp hfirst
        omega
      · exact h.others j hj
    ext x
    rw [BlockTree.mem_barrenBeside_cons ref h.root]
    simp [hholes]

end NewTree

end Grow

/-- The calls and the shape of a write to the tree of depth `l` of inode `k`, grown by `count` levels. -/
structure PlacedShape (d : Disk) (k l count : Nat) (calls : Nat) (d' : Disk) : Prop where
  kept : rootOf d.data k ≠ 0 →
    barren d'.data (l + count) (rootOf d'.data k) ⊆ barren d.data l (rootOf d.data k)
  calls : rootOf d.data k = 0 → calls = if count = 0 then l + 1 else l + 2 * count
  fresh : rootOf d.data k = 0 → (barren d'.data (l + count) (rootOf d'.data k) = ∅ ↔ count ≤ 1)

/-- The counts of the growing and of the walk put together. -/
theorem placedShape_of {d d₁ d' : Disk} {k l count : Nat} {s s₁ : Snapshot} {offset : BlockNo}
    (hs : Holds d k s) (hzero : count = 0 → (d₁, s₁) = (d, s))
    (hshape : 0 < count → GrownShape d l count s d₁ s₁)
    (htop : ∀ c, count = c + 1 → index offset (l + c) ≠ 0)
    (hbarren : barren d'.data (l + count) (rootOf d'.data k) =
      barrenBeside d₁.data (path offset (l + count)) s₁.root.toNat) :
    PlacedShape d k l count (0 + count + missing d₁.data (path offset (l + count)) s₁.root.toNat) d' := by
  have hsubset := BlockTree.barrenBeside_subset ref d₁.data (path offset (l + count)) s₁.root.toNat
  rw [path_length] at hsubset
  cases count with
  | zero =>
    obtain ⟨rfl, rfl⟩ := Prod.mk.inj (hzero rfl)
    refine ⟨?_, ?_, ?_⟩ <;> rw [← hs.root]
    · intro _
      rw [hbarren]
      exact hsubset
    · intro hroot
      simp [hroot]
    · intro hroot
      rw [hbarren, hroot]
      simp
  | succ c =>
    have hgrown := hshape (Nat.succ_pos c)
    have hi := htop c rfl
    refine ⟨?_, ?_, ?_⟩ <;> rw [← hs.root]
    · intro hroot
      rw [hbarren, ← hgrown.kept hroot]
      exact hsubset
    · intro _
      rw [hgrown.missing hi, if_neg (Nat.succ_ne_zero c)]
      omega
    · intro hroot
      rw [hbarren, hgrown.beside hi hroot]
      omega

theorem countedPlace_shape {d : Disk} {k l count : Nat} {dirty : Bool} {s : Snapshot}
    {free : Multiset Nat} {offset : BlockNo} {block : Block} (h : PlaceReady d k l count dirty s free)
    (htop : ∀ c, count = c + 1 → index offset (l + c) ≠ 0) :
    Sat (countedPlace d s (l + count) count dirty offset block)
      (fun r => PlacedShape d k l count r.1 r.2) (fun _ => True) := by
  have hgrow := growLevels_spec count h.growReady
  rw [← snd_countedGrow count 0, sat_map] at hgrow
  unfold countedPlace
  rw [sat_bind]
  refine ((countedGrow_shape count h.growReady).and hgrow).imp ?_ fun _ _ => trivial
  rintro ⟨calls, d₁, s₁⟩ ⟨⟨rfl, hshape⟩, hzero, ⟨fresh₁, free₁, hg⟩, -⟩
  obtain ⟨d₂, hput, hsize, hheld, hkeep⟩ := putInode_spec h hg hzero
  obtain ⟨-, -, hready⟩ := h.walkReady hg hsize hheld hkeep
  have hframe := h.grown_frame hg hkeep
  change Sat (putInode d₁ s₁ dirty >>= _) _ _
  rw [hput]
  change Sat (countedWalk offset (l + count) (0 + count) d₂ s₁.superblock s₁.inodeblock s₁.inodeBlockno
    (Block.rootWord s₁.slot) >>= _) _ _
  rw [sat_bind]
  refine ((countedWalk_shape offset block (l + count) hready).and
    (countedWalk_walked offset block _ _ hready)).imp ?_ fun _ _ => trivial
  rintro ⟨calls, b, d₃⟩ ⟨⟨rfl, hbarren⟩, hb, -⟩
  simp only [Disk.write_of_lt hb, orPanic]
  have hno : s₁.inodeBlockno.toNat = inodeOff k := by rw [hg.blockno, h.holds.blockno]
  have hslot : s₁.slot = inodeIx k := by rw [hg.slot, h.holds.slot]
  have hroot : ref s₁.inodeblock (Block.rootWord s₁.slot) = s₁.root.toNat := rfl
  have hroot' : ref ((d₃.set b block).data s₁.inodeBlockno.toNat) (Block.rootWord s₁.slot) =
      rootOf (d₃.set b block).data k := by rw [rootOf, hno, hslot]
  rw [hroot', hroot, barrenBeside,
    BlockTree.barrenBeside_congr ref _ (by rw [path_length]; exact hframe)] at hbarren
  rw [hroot, missing, BlockTree.missing_congr ref _ (by rw [path_length]; exact hframe)]
  exact placedShape_of h.holds hzero hshape htop hbarren

end OsSuite.Treedisk
