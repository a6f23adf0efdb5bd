import OsSuite.FileSizes
import OsSuite.TreediskShape

/-! The first write to an empty file: how many blocks it takes, and which of them it wastes. -/

namespace OsSuite.Treedisk

open SparseFiles

/-- The indirect blocks of the tree of inode `k` without a child. -/
def barrenOf (m : Nat → Block) (k : Nat) : Set Nat := barren m (levelsOf (nblocksOf m k)) (rootOf m k)

/-- A write of `calls` allocations that leads to `d'`: in an empty file it takes one block for each
level of its path, and it links no indirect block without a child. -/
structure MinimalWrite (d : Disk) (w : WriteCall) (calls : Nat) (d' : Disk) : Prop where
  calls : nblocksOf d.data w.key.toNat = 0 →
    ∀ n, IsLeast {n | w.offset.toNat < refsPerBlock ^ n} n → calls = n + 1
  linked : ∀ k < ninodes d.data, barrenOf d'.data k ⊆ barrenOf d.data k

theorem isLeast_levels_iff (offset : BlockNo) (n : Nat) :
    IsLeast {n | offset.toNat < refsPerBlock ^ n} n ↔ n = countLevels offset 0 := by
  have hleast : IsLeast {n | offset.toNat < refsPerBlock ^ n} (countLevels offset 0) :=
    ⟨(countLevels_le_iff offset _).mp le_rfl, fun m hm => (countLevels_le_iff offset m).mpr hm⟩
  constructor
  · intro h
    exact h.unique hleast
  · rintro rfl
    exact hleast

section Write

variable {d d' : Disk} {free : Multiset Nat} {ino : UInt32} {offset : BlockNo} {block : Block} {calls : Nat}

theorem countedWrite_eq (hi : Intact d free) (hk : ino.toNat < ninodes d.data)
    (hoff : offset.toNat < 2 ^ 32 - 1) :
    let l := levelsOf (nblocksOf d.data ino.toNat)
    let l' := levelsOf (extendedSnapshot d ino offset).nblocks
    countedWrite d ino offset block = countedPlace d (extendedSnapshot d ino offset) l' (l' - l)
      (decide (offset ≥ nblocksOf d.data ino.toNat) || decide (0 < l' - l)) offset block := by
  intro l l'
  rw [countedWrite, treediskGetSnapshot_eq hi hk]
  exact write_levels d ino hoff fun nlevels count dirty =>
    countedPlace d (extendedSnapshot d ino offset) nlevels count dirty offset block

theorem index_top_ne (d : Disk) (ino : UInt32) (hoff : offset.toNat < 2 ^ 32 - 1) {c : Nat}
    (hc : levelsOf (extendedSnapshot d ino offset).nblocks = levelsOf (nblocksOf d.data ino.toNat) + (c + 1)) :
    index offset (levelsOf (nblocksOf d.data ino.toNat) + c) ≠ 0 := by
  have hafter := (levels_after d ino hoff).1
  by_cases hpast : offset ≥ nblocksOf d.data ino.toNat
  · simp only [hpast, decide_true, if_true] at hafter
    have hlevels : countLevels offset 0 = levelsOf (nblocksOf d.data ino.toNat) + c + 1 := by omega
    have hreach := (countLevels_le_iff offset _).mp hlevels.le
    rw [Ne, index_eq_zero_iff hreach, ← countLevels_le_iff]
    omega
  · simp only [hpast, decide_false, Bool.false_eq_true, if_false] at hafter
    omega

theorem countedWrite_shape (hi : Intact d free) (hk : ino.toNat < ninodes d.data)
    (hoff : offset.toNat < 2 ^ 32 - 1) :
    let l := levelsOf (nblocksOf d.data ino.toNat)
    let l' := levelsOf (extendedSnapshot d ino offset).nblocks
    Sat (countedWrite d ino offset block)
      (fun r => PlacedShape d ino.toNat l (l' - l) r.1 r.2 ∧
        PlacedAt d ino.toNat l l' (extendedSnapshot d ino offset) free offset block r.2)
      (fun _ => True) := by
  intro l l'
  have heq : countedWrite d ino offset block = _ := countedWrite_eq hi hk hoff
  have hplaced : Sat (treediskWrite d ino offset block) _ _ := treediskWrite_placed hi hk hoff
  rw [← snd_countedWrite, sat_map] at hplaced
  obtain ⟨hl, hready, -⟩ := write_ready hi hk hoff
  have htop : ∀ c, l' - l = c + 1 → index offset (l + c) ≠ 0 :=
    fun c hc => index_top_ne d ino hoff (hl.trans (congrArg (l + ·) hc))
  have hshape : Sat (countedPlace d (extendedSnapshot d ino offset) (l + (l' - l)) (l' - l) _ offset block) _ _ :=
    countedPlace_shape hready htop
  rw [← hl, ← heq] at hshape
  exact (hshape.and hplaced).imp (fun _ h => h) fun _ _ => trivial

theorem barrenOf_other {l' : Nat} {m' : Nat → Block} {fresh free' : Multiset Nat} (hi : Intact d free) {k k' : Nat}
    (hk : k < ninodes d.data) (he : Extended d.data k (levelsOf (nblocksOf d.data k)) free fresh free' m' l')
    (hk' : k' < ninodes d.data) (hne : k' ≠ k) : barrenOf m' k' = barrenOf d.data k' := by
  obtain ⟨hroot, hnblocks⟩ := he.inode_other hi hk hk' hne
  rw [barrenOf, barrenOf, hroot, hnblocks]
  exact BlockTree.barren_congr ref _ (he.blocks_other hi hk hk' hne)

/-- A write links no barren block, unless it starts a file with two levels or more. -/
theorem countedWrite_minimal (hi : Intact d free) (hk : ino.toNat < ninodes d.data)
    (hoff : offset.toNat < 2 ^ 32 - 1) (hroot : rootOf d.data ino.toNat = 0 ↔ nblocksOf d.data ino.toNat = 0)
    (hwrite : countedWrite d ino offset block = .ok (calls, d')) :
    (∀ k < ninodes d.data, k ≠ ino.toNat → barrenOf d'.data k = barrenOf d.data k) ∧
    (nblocksOf d.data ino.toNat ≠ 0 → barrenOf d'.data ino.toNat ⊆ barrenOf d.data ino.toNat) ∧
    (nblocksOf d.data ino.toNat = 0 →
      calls = (if countLevels offset 0 = 0 then 1 else 2 * countLevels offset 0) ∧
      (barrenOf d'.data ino.toNat = ∅ ↔ countLevels offset 0 ≤ 1)) := by
  obtain ⟨hshape, hplaced⟩ := (countedWrite_shape hi hk hoff).of_ok hwrite
  obtain ⟨hl, -, -⟩ := write_ready hi hk hoff
  obtain ⟨fresh, free', he⟩ := hplaced.extended
  have hbarren : barrenOf d'.data ino.toNat = barren d'.data
      (levelsOf (extendedSnapshot d ino offset).nblocks) (rootOf d'.data ino.toNat) := by
    rw [barrenOf, hplaced.nblocks]
  refine ⟨fun k hk' hne => barrenOf_other hi hk he hk' hne, ?_, ?_⟩
  · intro hne
    rw [hbarren, hl]
    exact hshape.kept (mt hroot.mp hne)
  · intro hempty
    have hzero := hroot.mpr hempty
    have hold : levelsOf (nblocksOf d.data ino.toNat) = 0 := by rw [hempty]; rfl
    have hnew : levelsOf (extendedSnapshot d ino offset).nblocks = countLevels offset 0 := by
      have hafter := (levels_after d ino hoff).1
      rw [hempty] at hafter
      exact hafter.symm
    have hcalls := hshape.calls hzero
    have hfresh := hshape.fresh hzero
    rw [← hl, ← hbarren] at hfresh
    rw [hold, hnew, Nat.sub_zero] at hcalls hfresh
    exact ⟨by simpa using hcalls, hfresh⟩

theorem countedWrite_linked (hi : Intact d free) (hk : ino.toNat < ninodes d.data)
    (hoff : offset.toNat < 2 ^ 32 - 1) (hroot : rootOf d.data ino.toNat = 0 ↔ nblocksOf d.data ino.toNat = 0)
    (hwrite : countedWrite d ino offset block = .ok (calls, d'))
    (hshort : nblocksOf d.data ino.toNat = 0 → offset.toNat < refsPerBlock) :
    ∀ k < ninodes d.data, barrenOf d'.data k ⊆ barrenOf d.data k := by
  obtain ⟨hother, hkept, hfresh⟩ := countedWrite_minimal hi hk hoff hroot hwrite
  intro k hk'
  by_cases hne : k = ino.toNat
  · subst hne
    by_cases hempty : nblocksOf d.data ino.toNat = 0
    · have hlevels : countLevels offset 0 ≤ 1 := (countLevels_le_iff offset 1).mpr (by simpa using hshort hempty)
      rw [(hfresh hempty).2.mpr hlevels]
      exact Set.empty_subset _
    · exact hkept hempty
  · rw [hother k hk' hne]

theorem exists_countedWrite (h : treediskWrite d ino offset block = .ok d') :
    ∃ calls, countedWrite d ino offset block = .ok (calls, d') := by
  rw [← snd_countedWrite] at h
  obtain ⟨⟨calls, d₁⟩, hwrite, rfl⟩ := map_eq_ok h
  exact ⟨calls, hwrite⟩

end Write

/-- In the states that writes reach, the empty files are those without a tree. -/
theorem Refines.rootOf_eq_zero_iff {d : Disk} {ws : List WriteCall} (h : Refines d (run UInt32.toNat ws))
    {ino : UInt32} (hino : ValidIno d ino) :
    rootOf d.data ino.toNat = 0 ↔ nblocksOf d.data ino.toNat = 0 := by
  rw [← UInt32.toNat_inj, UInt32.toNat_zero, h.size ino hino, run_size_eq_zero_iff]
  constructor
  · intro hroot off
    rw [← h.data ino hino, fileAt, hroot, look, BlockTree.look_hole, ite_self]
  · intro hnone
    have hsize := (run_size_eq_zero_iff UInt32.toNat ws ino).mpr hnone
    rw [← h.size ino hino, ← UInt32.toNat_zero, UInt32.toNat_inj] at hsize
    have hfirst := hnone 0
    rw [← h.data ino hino, fileAt, hsize] at hfirst
    by_contra hroot
    have hsome : look d.data (path 0 0) (rootOf d.data ino.toNat) = some (d.data (rootOf d.data ino.toNat)) :=
      BlockTree.look_nil ref d.data hroot
    exact absurd (hsome.symm.trans hfirst) (by simp)

/-- In every state that writes reach, a further write is minimal exactly if it does not start a file
beyond the blocks that one indirect block refers to. -/
theorem first_write_minimal_iff {d₀ d₁ d d' : Disk} {ninodes : UInt32} {ws : List WriteCall}
    {w : WriteCall} {calls : Nat} (hzero : d₀.data 0 = nullBlock)
    (hcreate : treediskCreate d₀ ninodes = .ok d₁) (hws : ∀ u ∈ ws, ValidWrite d₁ u)
    (hw : ValidWrite d₁ w) (hrun : runWrites d₁ ws = .ok d)
    (hwrite : countedWrite d w.key w.offset w.value = .ok (calls, d')) :
    MinimalWrite d w calls d' ↔
      (nblocksOf d.data w.key.toNat = 0 → w.offset.toNat < refsPerBlock) := by
  have hformat := ((treediskCreate_spec hzero ninodes).of_ok hcreate).2
  obtain ⟨href, hin, -⟩ := (refines_run hformat.refines ws hws).of_ok hrun
  obtain ⟨free, hi⟩ := href.intact
  have hino : ValidIno d w.key := (ValidIno.of_reserved hin).mpr hw.ino
  have hroot := href.rootOf_eq_zero_iff hino
  obtain ⟨-, -, hfresh⟩ := countedWrite_minimal hi hino hw.offset hroot hwrite
  have hone := countLevels_le_iff w.offset 1
  rw [Nat.pow_one] at hone
  constructor
  · intro hminimal hempty
    have hcalls := hminimal.calls hempty _ ((isLeast_levels_iff w.offset _).mpr rfl)
    rw [(hfresh hempty).1] at hcalls
    rw [← hone]
    split at hcalls <;> omega
  · intro hshort
    refine ⟨?_, countedWrite_linked hi hino hw.offset hroot hwrite hshort⟩
    intro hempty n hn
    obtain rfl := (isLeast_levels_iff w.offset n).mp hn
    have hlevels := hone.mpr (hshort hempty)
    rw [(hfresh hempty).1]
    split <;> omega

theorem runWrites_concat_ok {d d₁ : Disk} {ws : List WriteCall} {w : WriteCall}
    (h : runWrites d (ws ++ [w]) = .ok d₁) :
    ∃ d', runWrites d ws = .ok d' ∧ treediskWrite d' w.key w.offset w.value = .ok d₁ := by
  rw [runWrites_concat] at h
  exact bind_eq_ok h

/-- A file started at block 5. -/
def sampleStarted : Disk := ((countedWrite sampleFormatted 3 5 nullBlock).toOption.getD (0, sampleDisk)).2

theorem first_write_minimal_iff_sample :
    MinimalWrite sampleFormatted ⟨3, 5, nullBlock⟩ 2 sampleStarted := by
  have hwrite : countedWrite sampleFormatted 3 5 nullBlock = .ok (2, sampleStarted) := by
    rw [eq_ok_getD (show (countedWrite sampleFormatted 3 5 nullBlock).toOption.isSome = true by decide +kernel)]
    exact congrArg _ (Prod.ext (by decide +kernel) rfl)
  have hvalid : ValidWrite sampleFormatted ⟨3, 5, nullBlock⟩ :=
    ⟨by unfold ValidIno; decide +kernel, by decide⟩
  exact (first_write_minimal_iff (show sampleDisk.data 0 = nullBlock from rfl)
    (show treediskCreate sampleDisk 1 = .ok sampleFormatted from rfl) (by simp) hvalid
    (show runWrites sampleFormatted [] = .ok sampleFormatted from rfl) hwrite).mpr fun _ => by decide

/-- A file started at block 128. -/
def sampleWasted : Disk := ((countedWrite sampleFormatted 3 128 nullBlock).toOption.getD (0, sampleDisk)).2

/-- The write takes four blocks for a path of three, and leaves an indirect block without a child. -/
theorem first_write_wastes : nblocksOf sampleFormatted.data 3 = 0 ∧
    IsLeast {n | (128 : BlockNo).toNat < refsPerBlock ^ n} 2 ∧
    countedWrite sampleFormatted 3 128 nullBlock = .ok (4, sampleWasted) ∧
    (barrenOf sampleWasted.data 3).Nonempty ∧
    ¬MinimalWrite sampleFormatted ⟨3, 128, nullBlock⟩ 4 sampleWasted := by
  have hempty : nblocksOf sampleFormatted.data 3 = 0 := by decide +kernel
  have hlevels : countLevels 128 0 = 2 := by
    have hle := (countLevels_le_iff 128 2).mpr (by decide)
    have hnot := mt (countLevels_le_iff 128 1).mp (by decide)
    omega
  have hleast := (isLeast_levels_iff 128 2).mpr hlevels.symm
  have hwrite : countedWrite sampleFormatted 3 128 nullBlock = .ok (4, sampleWasted) := by
    rw [eq_ok_getD (show (countedWrite sampleFormatted 3 128 nullBlock).toOption.isSome = true by decide +kernel)]
    exact congrArg _ (Prod.ext (by decide +kernel) rfl)
  refine ⟨hempty, hleast, hwrite, ?_, ?_⟩
  · have hformat := ((treediskCreate_spec (show sampleDisk.data 0 = nullBlock from rfl) 1).of_ok
      (show treediskCreate sampleDisk 1 = .ok sampleFormatted from rfl)).2
    have hino : ValidIno sampleFormatted 3 := by unfold ValidIno; decide +kernel
    have href : Refines sampleFormatted (run UInt32.toNat []) := hformat.refines
    have hroot := href.rootOf_eq_zero_iff hino
    obtain ⟨-, -, hfresh⟩ := countedWrite_minimal hformat.intact hino (by decide) hroot hwrite
    rw [Set.nonempty_iff_ne_empty]
    intro hnone
    have hle := (hfresh hempty).2.mp hnone
    omega
  · intro hminimal
    have hcalls := hminimal.calls hempty 2 hleast
    omega

/-- Each file starts with a write to one of its first blocks. -/
def ShortStarts (ws : List WriteCall) : Prop :=
  ∀ pre w post, ws = pre ++ w :: post → (∀ u ∈ pre, u.key ≠ w.key) → w.offset.toNat < refsPerBlock

theorem ShortStarts.init {ws : List WriteCall} {w : WriteCall} (h : ShortStarts (ws ++ [w])) :
    ShortStarts ws := by
  rintro pre u post rfl
  exact h pre u (post ++ [w]) (by simp)

/-- A run in which files start so leaves no barren block. -/
theorem no_barren_run {d₀ d₁ d : Disk} {ninodes : UInt32} (ws : List WriteCall)
    (hzero : d₀.data 0 = nullBlock) (hcreate : treediskCreate d₀ ninodes = .ok d₁)
    (hws : ∀ u ∈ ws, ValidWrite d₁ u) (hshort : ShortStarts ws) (hrun : runWrites d₁ ws = .ok d) :
    ∀ k < Treedisk.ninodes d.data, barrenOf d.data k = ∅ := by
  have hformat := ((treediskCreate_spec hzero ninodes).of_ok hcreate).2
  induction ws using List.reverseRecOn generalizing d with
  | nil =>
    cases hrun
    intro k hk
    rw [barrenOf, (hformat.inodes k hk).1]
    rfl
  | append_singleton ws w ih =>
    have hws' : ∀ u ∈ ws, ValidWrite d₁ u := fun u hu => hws u (List.mem_append_left _ hu)
    have hw := hws w (by simp)
    obtain ⟨d', hrun', hwrite⟩ := runWrites_concat_ok hrun
    obtain ⟨href, hin, -⟩ := (refines_run hformat.refines ws hws').of_ok hrun'
    obtain ⟨free, hi⟩ := href.intact
    have hino : ValidIno d' w.key := (ValidIno.of_reserved hin).mpr hw.ino
    obtain ⟨calls, hcounted⟩ := exists_countedWrite hwrite
    have hstart : nblocksOf d'.data w.key.toNat = 0 → w.offset.toNat < refsPerBlock := by
      intro hempty
      refine hshort ws w [] rfl ((run_size_eq_zero_iff_keys UInt32.toNat ws w.key).mp ?_)
      rw [← href.size w.key hino, hempty]
      rfl
    have hlinked := countedWrite_linked hi hino hw.offset (href.rootOf_eq_zero_iff hino) hcounted hstart
    obtain ⟨-, hin', -⟩ := (refines_write href (hw.of_reserved hin)).of_ok hwrite
    have hcount : Treedisk.ninodes d.data = Treedisk.ninodes d'.data := by
      rw [Treedisk.ninodes, hin', Treedisk.ninodes]
    intro k hk
    rw [hcount] at hk
    have hnone := ih hws' hshort.init hrun' k hk
    exact Set.subset_eq_empty (hlinked k hk) hnone

end OsSuite.Treedisk
