import Mathlib

/-! Words of 32 bits as four bytes in memory, the lowest first, and as the halves of 64 bits. -/

namespace OsSuite.Words

/-- Byte `k` of a word. -/
def byte (w : UInt32) (k : Nat) : UInt8 := (w >>> UInt32.ofNat (8 * k)).toUInt8

def load (mem : Nat → UInt8) (a : Nat) : UInt32 :=
  (mem a).toUInt32 ||| (mem (a + 1)).toUInt32 <<< 8 ||| (mem (a + 2)).toUInt32 <<< 16 |||
    (mem (a + 3)).toUInt32 <<< 24

theorem byte_bit (v : BitVec 32) (k i : Nat) (hi : i < 32) :
    (((v >>> k).setWidth 8).setWidth 32 <<< k).getLsbD i = (decide (k ≤ i ∧ i < k + 8) && v.getLsbD i) := by
  rw [BitVec.getLsbD_shiftLeft, BitVec.getLsbD_setWidth, BitVec.getLsbD_setWidth,
    BitVec.getLsbD_ushiftRight]
  by_cases hk : k ≤ i
  · have hsum : k + (i - k) = i := by omega
    have hlow : i - k < 32 := by omega
    have hlt : i - k < 8 ↔ i < k + 8 := by omega
    simp [hsum, hk, hi, hlow, hlt]
  · simp [hk, Nat.lt_of_not_le hk]

theorem bytes_or (v : BitVec 32) : (v.setWidth 8).setWidth 32 ||| ((v >>> 8).setWidth 8).setWidth 32 <<< 8 |||
    ((v >>> 16).setWidth 8).setWidth 32 <<< 16 ||| ((v >>> 24).setWidth 8).setWidth 32 <<< 24 = v := by
  apply BitVec.eq_of_getLsbD_eq
  intro i hi
  have hlow := byte_bit v 0 i hi
  rw [BitVec.ushiftRight_zero, BitVec.shiftLeft_zero] at hlow
  rw [BitVec.getLsbD_or, BitVec.getLsbD_or, BitVec.getLsbD_or, hlow, byte_bit v 8 i hi,
    byte_bit v 16 i hi, byte_bit v 24 i hi]
  cases v.getLsbD i with
  | false => simp
  | true =>
    simp only [Bool.and_true, Bool.or_eq_true, decide_eq_true_eq]
    omega

theorem load_bytes {mem : Nat → UInt8} {a : Nat} {w : UInt32} (h : ∀ k < 4, mem (a + k) = byte w k) :
    load mem a = w := by
  have hzero : mem a = byte w 0 := h 0 (by decide)
  rw [load, hzero, h 1 (by decide), h 2 (by decide), h 3 (by decide)]
  exact UInt32.toBitVec_inj.mp (bytes_or w.toBitVec)

theorem or_bytes (w : Fin 4 → BitVec 8) (i : Nat) :
    ((w 0).setWidth 32 ||| (w 1).setWidth 32 <<< 8 ||| (w 2).setWidth 32 <<< 16 ||| (w 3).setWidth 32 <<< 24).getLsbD i =
      if h : i < 32 then (w ⟨i / 8, by omega⟩).getLsbD (i % 8) else false := by
  simp only [BitVec.getLsbD_or, BitVec.getLsbD_shiftLeft, BitVec.getLsbD_setWidth]
  split
  · rename_i hi
    interval_cases i <;> simp
  · rename_i hi
    simp [hi]

theorem byte_load (mem : Nat → UInt8) (a : Nat) {k : Nat} (hk : k < 4) : byte (load mem a) k = mem (a + k) := by
  have hload : (load mem a).toBitVec = ((mem a).toBitVec.setWidth 32 ||| (mem (a + 1)).toBitVec.setWidth 32 <<< 8 |||
      (mem (a + 2)).toBitVec.setWidth 32 <<< 16 ||| (mem (a + 3)).toBitVec.setWidth 32 <<< 24) := rfl
  have hbits := or_bytes fun k => (mem (a + k.val)).toBitVec
  apply UInt8.toBitVec_inj.mp
  apply BitVec.eq_of_getLsbD_eq
  intro i hi
  have hbyte : (byte (load mem a) k).toBitVec.getLsbD i = (load mem a).toBitVec.getLsbD (8 * k + i) := by
    have hshift : byte (load mem a) k = UInt8.ofBitVec (((load mem a).toBitVec >>> (8 * k)).setWidth 8) := by
      interval_cases k <;> rfl
    rw [hshift]
    change (((load mem a).toBitVec >>> (8 * k)).setWidth 8).getLsbD i = _
    rw [BitVec.getLsbD_setWidth, BitVec.getLsbD_ushiftRight, decide_eq_true hi, Bool.true_and]
  rw [hbyte, hload]
  refine (hbits (8 * k + i)).trans ?_
  have hdiv : (8 * k + i) / 8 = k := by omega
  have hmod : (8 * k + i) % 8 = i := by omega
  rw [dif_pos (by omega)]
  simp only [hdiv, hmod]

def ofHalves (high low : UInt32) : UInt64 := high.toUInt64 <<< 32 ||| low.toUInt64

theorem high_toNat (x : UInt64) : (x >>> 32).toUInt32.toNat = x.toNat / 2 ^ 32 := by
  have hx := x.toNat_lt
  have hbits : (32 : UInt64).toNat % 64 = 32 := rfl
  rw [UInt64.toNat_toUInt32, UInt64.toNat_shiftRight, hbits, Nat.shiftRight_eq_div_pow]
  omega

theorem ofHalves_toNat (high low : UInt32) : (ofHalves high low).toNat = high.toNat * 2 ^ 32 + low.toNat := by
  have hhigh := high.toNat_lt
  have hbits : (32 : UInt64).toNat % 64 = 32 := rfl
  have hshift : (high.toUInt64 <<< 32).toNat = 2 ^ 32 * high.toNat := by
    rw [UInt64.toNat_shiftLeft, UInt32.toNat_toUInt64, hbits, Nat.shiftLeft_eq]
    omega
  rw [ofHalves, UInt64.toNat_or, hshift, UInt32.toNat_toUInt64, ← Nat.two_pow_add_eq_or_of_lt low.toNat_lt,
    Nat.mul_comm]

theorem ofHalves_halves (x : UInt64) : ofHalves (x >>> 32).toUInt32 x.toUInt32 = x := by
  rw [← UInt64.toNat_inj, ofHalves_toNat, high_toNat, UInt64.toNat_toUInt32]
  exact Nat.div_add_mod' _ _

end OsSuite.Words
