import OsSuite.Treedisk

/-! Levels and paths of a treedisk file as arithmetic in base `REFS_PER_BLOCK`. -/

namespace OsSuite.Treedisk

theorem logShiftR_toNat (x : BlockNo) (n : Nat) : (logShiftR x n).toNat = x.toNat / 2 ^ n := by
  unfold logShiftR
  split
  · rename_i hn
    have hx : x.toNat < 2 ^ n :=
      x.toNat_lt.trans_le (Nat.pow_le_pow_right (by decide) hn)
    simp [Nat.div_eq_of_lt hx]
  · rename_i hn
    have hbits : n.toUInt32.toNat = n := by
      simp only [Nat.toUInt32_eq, UInt32.toNat_ofNat']
      omega
    rw [UInt32.toNat_shiftRight, hbits, Nat.mod_eq_of_lt (by omega), Nat.shiftRight_eq_div_pow]

theorem logShiftR_level (x : BlockNo) (l : Nat) :
    (logShiftR x (l * logRpb)).toNat = x.toNat / refsPerBlock ^ l := by
  have hbase : 2 ^ logRpb = refsPerBlock := rfl
  rw [logShiftR_toNat, Nat.mul_comm l, Nat.pow_mul, hbase]

theorem logShiftR_level_eq_zero (x : BlockNo) (l : Nat) :
    logShiftR x (l * logRpb) = 0 ↔ x.toNat < refsPerBlock ^ l := by
  rw [← UInt32.toNat_inj, logShiftR_level, UInt32.toNat_zero, Nat.div_eq_zero_iff]
  have hpos : 0 < refsPerBlock ^ l := Nat.pow_pos (by decide)
  omega

theorem countLevels_spec (x : BlockNo) (k : Nat) :
    x.toNat < refsPerBlock ^ countLevels x k ∧
      ∀ m, k ≤ m → m < countLevels x k → refsPerBlock ^ m ≤ x.toNat := by
  fun_induction countLevels x k with
  | case1 k h ih =>
    refine ⟨ih.1, ?_⟩
    intro m hkm hm
    rcases Nat.eq_or_lt_of_le hkm with rfl | hlt
    · rw [Ne, logShiftR_level_eq_zero] at h
      omega
    · exact ih.2 m hlt hm
  | case2 k h =>
    rw [not_not, logShiftR_level_eq_zero] at h
    exact ⟨h, fun m hkm hm => by omega⟩

/-- The loop stops at the least number of levels that reaches `x`. -/
theorem countLevels_le_iff (x : BlockNo) (m : Nat) :
    countLevels x 0 ≤ m ↔ x.toNat < refsPerBlock ^ m := by
  obtain ⟨hlt, hmin⟩ := countLevels_spec x 0
  constructor
  · intro hle
    exact hlt.trans_le (Nat.pow_le_pow_right (by decide) hle)
  · intro hm
    by_contra hnot
    exact absurd hm (Nat.not_lt.mpr (hmin m (Nat.zero_le m) (by omega)))

theorem index_val (offset : BlockNo) (l : Nat) :
    (index offset l).val = offset.toNat / refsPerBlock ^ l % refsPerBlock := by
  simp only [index, logShiftR_level]

/-- The indices that a walk of `l` levels takes to reach `offset`. -/
def path (offset : BlockNo) : Nat → List (Fin refsPerBlock)
  | 0 => []
  | l + 1 => index offset l :: path offset l

@[simp] theorem path_length (offset : BlockNo) (l : Nat) : (path offset l).length = l := by
  induction l with
  | zero => rfl
  | succ l ih => simp [path, ih]

theorem path_eq_iff (x y : BlockNo) (l : Nat) :
    path x l = path y l ↔ x.toNat % refsPerBlock ^ l = y.toNat % refsPerBlock ^ l := by
  induction l with
  | zero => simp [path, Nat.mod_one]
  | succ l ih =>
    have hpos : 0 < refsPerBlock ^ l := Nat.pow_pos (by decide)
    rw [path, path, List.cons.injEq, ih, Fin.ext_iff, index_val, index_val,
      Nat.pow_succ, Nat.mod_mul, Nat.mod_mul]
    have hx := Nat.mod_lt x.toNat hpos
    have hy := Nat.mod_lt y.toNat hpos
    constructor
    · rintro ⟨hd, hm⟩
      rw [hd, hm]
    · intro h
      have hm : x.toNat % refsPerBlock ^ l = y.toNat % refsPerBlock ^ l := by
        have := congrArg (· % refsPerBlock ^ l) h
        simpa using this
      refine ⟨?_, hm⟩
      rw [hm] at h
      exact Nat.eq_of_mul_eq_mul_left hpos (Nat.add_left_cancel h)

theorem path_inj {x y : BlockNo} {l : Nat} (hx : x.toNat < refsPerBlock ^ l)
    (hy : y.toNat < refsPerBlock ^ l) : path x l = path y l ↔ x = y := by
  rw [path_eq_iff, Nat.mod_eq_of_lt hx, Nat.mod_eq_of_lt hy, UInt32.toNat_inj]

theorem index_eq_zero_iff {x : BlockNo} {l : Nat} (hx : x.toNat < refsPerBlock ^ (l + 1)) :
    index x l = 0 ↔ x.toNat < refsPerBlock ^ l := by
  have hpos : 0 < refsPerBlock ^ l := Nat.pow_pos (by decide)
  have hdigit : x.toNat / refsPerBlock ^ l < refsPerBlock := by
    rw [Nat.div_lt_iff_lt_mul hpos, ← Nat.pow_succ']
    exact hx
  rw [Fin.ext_iff, index_val, Nat.mod_eq_of_lt hdigit, Fin.val_zero, Nat.div_eq_zero_iff]
  omega

theorem levelsOf_succ {x : BlockNo} (hx : x.toNat < 2 ^ 32 - 1) :
    levelsOf (x + 1) = countLevels x 0 := by
  have hpos : (x + 1 : BlockNo) > 0 := by
    rw [gt_iff_lt, UInt32.lt_iff_toNat_lt, UInt32.toNat_add]
    simp only [UInt32.toNat_zero, UInt32.toNat_one]
    omega
  rw [levelsOf, if_pos hpos, UInt32.add_sub_cancel]

theorem lt_pow_levelsOf {n : BlockNo} {off : Nat} (h : off < n.toNat) :
    off < refsPerBlock ^ levelsOf n := by
  have hpos : n > 0 := by
    rw [gt_iff_lt, UInt32.lt_iff_toNat_lt, UInt32.toNat_zero]
    omega
  have hpred : (n - 1).toNat = n.toNat - 1 := by
    rw [UInt32.toNat_sub_of_le _ _ (by rw [UInt32.le_iff_toNat_le, UInt32.toNat_one]; omega),
      UInt32.toNat_one]
  have hlast := (countLevels_le_iff (n - 1) (levelsOf n)).mp (by rw [levelsOf, if_pos hpos])
  omega

end OsSuite.Treedisk
