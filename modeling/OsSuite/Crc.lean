import Mathlib

/-! Cyclic redundancy checks that take the bits of a message from the lowest on. The register moves
down one place for a bit, and takes the polynomial where it loses a one. -/

namespace OsSuite.Crc

variable {w : Nat} (poly : BitVec w)

def shift (x : BitVec w) : BitVec w := if x.getLsbD 0 then x >>> 1 ^^^ poly else x >>> 1

def shifts : Nat → BitVec w → BitVec w
  | 0, x => x
  | n + 1, x => shift poly (shifts n x)

/-- A byte goes into the low end of the register. -/
def absorb (x : BitVec w) (b : BitVec 8) : BitVec w := shifts poly 8 (x ^^^ b.setWidth w)

/-- The bytes from the lowest on. -/
def word (w : Nat) : List (BitVec 8) → BitVec w
  | [] => 0#w
  | b :: bs => b.setWidth w ^^^ word w bs <<< 8

variable {x y : BitVec w} {n : Nat}

theorem shift_xor (x y : BitVec w) : shift poly (x ^^^ y) = shift poly x ^^^ shift poly y := by
  unfold shift
  rw [BitVec.getLsbD_xor, BitVec.ushiftRight_xor_distrib]
  have hboth : x >>> 1 ^^^ poly ^^^ (y >>> 1 ^^^ poly) = x >>> 1 ^^^ y >>> 1 := by
    rw [BitVec.xor_assoc, BitVec.xor_comm poly, BitVec.xor_assoc (y >>> 1), BitVec.xor_self, BitVec.xor_zero]
  cases x.getLsbD 0 <;> cases y.getLsbD 0 <;> simp
  · ac_rfl
  · ac_rfl
  · exact hboth.symm

theorem shifts_xor (n : Nat) (x y : BitVec w) : shifts poly n (x ^^^ y) = shifts poly n x ^^^ shifts poly n y := by
  induction n with
  | zero => rfl
  | succ n ih => rw [shifts, ih, shift_xor, shifts, shifts]

theorem shifts_add (n m : Nat) (x : BitVec w) : shifts poly (n + m) x = shifts poly n (shifts poly m x) := by
  induction n with
  | zero => rw [Nat.zero_add, shifts]
  | succ n ih => rw [Nat.succ_add, shifts, ih, shifts]

/-- With a one at the top of the polynomial the register can be taken back. -/
theorem eq_zero_of_shift (hpoly : poly.getMsbD 0 = true) (h : shift poly x = 0#w) : x = 0#w := by
  have htop : 0 < w := by
    by_contra hw
    simp [Nat.eq_zero_of_not_pos hw] at hpoly
  unfold shift at h
  cases hlow : x.getLsbD 0 with
  | true =>
    rw [hlow, if_pos rfl] at h
    have hbit := congrArg (·.getMsbD 0) h
    simp only [BitVec.getMsbD_xor, hpoly] at hbit
    simp [BitVec.getMsbD_ushiftRight] at hbit
  | false =>
    rw [hlow, if_neg Bool.false_ne_true] at h
    apply BitVec.eq_of_getLsbD_eq
    intro i hi
    cases i with
    | zero => simpa using hlow
    | succ i =>
      have hbit := congrArg (·.getLsbD i) h
      simp only [BitVec.getLsbD_ushiftRight] at hbit
      rw [Nat.add_comm i 1]
      simpa using hbit

theorem eq_zero_of_shifts (hpoly : poly.getMsbD 0 = true) (h : shifts poly n x = 0#w) : x = 0#w := by
  induction n with
  | zero => exact h
  | succ n ih => exact ih (eq_zero_of_shift poly hpoly h)

theorem shifts_inj (hpoly : poly.getMsbD 0 = true) (h : shifts poly n x = shifts poly n y) : x = y := by
  have hzero : shifts poly n (x ^^^ y) = 0#w := by
    rw [shifts_xor, h, BitVec.xor_self]
  exact BitVec.xor_eq_zero_iff.mp (eq_zero_of_shifts poly hpoly hzero)

theorem absorb_inj (hpoly : poly.getMsbD 0 = true) {b : BitVec 8} (h : absorb poly x b = absorb poly y b) : x = y :=
  (BitVec.xor_left_inj _).mp (shifts_inj poly hpoly h)

theorem foldl_absorb_inj (hpoly : poly.getMsbD 0 = true) (bs : List (BitVec 8))
    (h : bs.foldl (absorb poly) x = bs.foldl (absorb poly) y) : x = y := by
  induction bs generalizing x y with
  | nil => exact h
  | cons b bs ih => exact absorb_inj poly hpoly (ih h)

/-- A register with zeros at its low end moves down. -/
theorem shifts_low (h : ∀ i < n, x.getLsbD i = false) : shifts poly n x = x >>> n := by
  induction n with
  | zero => exact (BitVec.ushiftRight_zero x).symm
  | succ n ih =>
    have hlow : (x >>> n).getLsbD 0 = false := by simpa using h n (Nat.lt_succ_self n)
    rw [shifts, ih fun i hi => h i (Nat.lt_succ_of_lt hi), shift, hlow, if_neg Bool.false_ne_true,
      ← BitVec.shiftRight_add]

theorem word_high (w : Nat) (bs : List (BitVec 8)) {i : Nat} (hi : 8 * bs.length ≤ i) :
    (word w bs).getLsbD i = false := by
  induction bs generalizing i with
  | nil => simp [word]
  | cons b bs ih =>
    rw [List.length_cons] at hi
    have hrest := ih (i := i - 8) (by omega)
    have hbyte : b.getLsbD i = false := BitVec.getLsbD_of_ge b i (by omega)
    simp [word, hrest, hbyte]

theorem shifts_word {bs : List (BitVec 8)} (hfits : 8 * (bs.length + 1) ≤ w) :
    shifts poly 8 (word w bs <<< 8) = word w bs := by
  have hlow : ∀ i < 8, (word w bs <<< 8).getLsbD i = false := by
    intro i hi
    simp [hi]
  rw [shifts_low poly hlow]
  apply BitVec.eq_of_getLsbD_eq
  intro i hi
  by_cases hin : 8 * bs.length ≤ i
  · rw [word_high w bs hin]
    simp [word_high w bs hin]
  · have hlt : 8 + i < w := by omega
    rw [BitVec.getLsbD_ushiftRight, BitVec.getLsbD_shiftLeft]
    simp [hlt]

/-- Bytes that fit into the register go through it as one word. -/
theorem foldl_absorb {bs : List (BitVec 8)} (hfits : 8 * bs.length ≤ w) (x : BitVec w) :
    bs.foldl (absorb poly) x = shifts poly (8 * bs.length) (x ^^^ word w bs) := by
  induction bs generalizing x with
  | nil => simp [shifts, word]
  | cons b bs ih =>
    rw [List.length_cons] at hfits
    have hword : shifts poly 8 (x ^^^ b.setWidth w) ^^^ word w bs =
        shifts poly 8 (x ^^^ word w (b :: bs)) := by
      rw [word, ← BitVec.xor_assoc, shifts_xor poly 8 (x ^^^ b.setWidth w), shifts_word poly hfits]
    rw [List.foldl_cons, ih (by omega), absorb, hword, ← shifts_add]
    rfl

theorem word_inj {bs cs : List (BitVec 8)} (hlen : bs.length = cs.length) (hfits : 8 * bs.length ≤ w)
    (h : word w bs = word w cs) : bs = cs := by
  induction bs generalizing cs with
  | nil => exact (List.length_eq_zero_iff.mp hlen.symm).symm
  | cons b bs ih =>
    cases cs with
    | nil => cases hlen
    | cons c cs =>
      rw [List.length_cons] at hfits
      have hlen' : bs.length = cs.length := Nat.succ.inj hlen
      have hbit (i : Nat) := congrArg (·.getLsbD i) h
      simp only [word, BitVec.getLsbD_xor, BitVec.getLsbD_setWidth, BitVec.getLsbD_shiftLeft] at hbit
      have hbyte : b = c := by
        apply BitVec.eq_of_getLsbD_eq
        intro i hi
        have hw : i < w := by omega
        simpa [hi, hw] using hbit i
      have hrest : word w bs = word w cs := by
        apply BitVec.eq_of_getLsbD_eq
        intro i hi
        by_cases hin : 8 * bs.length ≤ i
        · rw [word_high w bs hin, word_high w cs (hlen' ▸ hin)]
        · have hw : i + 8 < w := by omega
          have hgt : ¬i + 8 < 8 := by omega
          simpa [hbyte, hw, hgt] using hbit (i + 8)
      rw [hbyte, ih hlen' (by omega) hrest]

/-- A change that is confined to as many bytes as the register has is seen in the register. -/
theorem foldl_absorb_ne (hpoly : poly.getMsbD 0 = true) {pre bs cs post : List (BitVec 8)}
    (hlen : bs.length = cs.length) (hfits : 8 * bs.length ≤ w) (hne : bs ≠ cs) (x : BitVec w) :
    (pre ++ bs ++ post).foldl (absorb poly) x ≠ (pre ++ cs ++ post).foldl (absorb poly) x := by
  intro h
  rw [List.foldl_append, List.foldl_append, List.foldl_append, List.foldl_append] at h
  have hwindow := foldl_absorb_inj poly hpoly post h
  generalize pre.foldl (absorb poly) x = y at hwindow
  rw [foldl_absorb poly hfits, foldl_absorb poly (show 8 * cs.length ≤ w by omega), hlen] at hwindow
  exact hne (word_inj hlen hfits ((BitVec.xor_right_inj _).mp (shifts_inj poly hpoly hwindow)))

end OsSuite.Crc
