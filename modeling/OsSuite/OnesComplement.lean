import Mathlib

/-! Sums of 16-bit words with the carry taken around to the low end, as the checksums of the
Internet protocols use them. -/

namespace OsSuite.OnesComplement

/-- The sum of two words, with the carry added. -/
def add (a b : Nat) : Nat := if a + b < 2 ^ 16 then a + b else a + b - 65535

def sum (ws : List Nat) : Nat := ws.foldl add 0

/-- The carries of a sum taken around at the end. -/
def fold (r : Nat) : Nat := if r < 2 ^ 16 then r else fold (r % 2 ^ 16 + r / 2 ^ 16)
decreasing_by omega

/-- The word that makes a sum complete. -/
def complement (r : Nat) : Nat := if r = 65535 then 65535 else 65535 - r

/-- One word stands for a sum: two of them that agree up to the carries are equal. -/
theorem eq_of_mod {a b : Nat} (ha : a < 2 ^ 16) (hb : b < 2 ^ 16) (hmod : a % 65535 = b % 65535)
    (hzero : a = 0 ↔ b = 0) : a = b := by
  omega

theorem add_lt {a b : Nat} (ha : a < 2 ^ 16) (hb : b < 2 ^ 16) : add a b < 2 ^ 16 := by
  rw [add]
  split <;> omega

theorem add_mod (a b : Nat) : add a b % 65535 = (a + b) % 65535 := by
  rw [add]
  split
  · rfl
  · omega

theorem add_eq_zero_iff {a b : Nat} : add a b = 0 ↔ a = 0 ∧ b = 0 := by
  rw [add]
  split <;> omega

theorem foldl_add {a : Nat} {ws : List Nat} (ha : a < 2 ^ 16) (hws : ∀ x ∈ ws, x < 2 ^ 16) :
    ws.foldl add a < 2 ^ 16 ∧ ws.foldl add a % 65535 = (a + ws.sum) % 65535 ∧
      (ws.foldl add a = 0 ↔ a + ws.sum = 0) := by
  induction ws generalizing a with
  | nil => exact ⟨ha, rfl, Iff.rfl⟩
  | cons x ws ih =>
    have hx := hws x List.mem_cons_self
    obtain ⟨hlt, hmod, hzero⟩ := ih (add_lt ha hx) fun y hy => hws y (List.mem_cons_of_mem x hy)
    have hadd := add_mod a x
    have hnone := @add_eq_zero_iff a x
    rw [List.foldl_cons, List.sum_cons]
    refine ⟨hlt, ?_, ?_⟩
    · omega
    · rw [hzero]
      omega

theorem fold_spec (r : Nat) : fold r < 2 ^ 16 ∧ fold r % 65535 = r % 65535 ∧ (fold r = 0 ↔ r = 0) := by
  fun_induction fold r with
  | case1 r hlt => exact ⟨hlt, rfl, Iff.rfl⟩
  | case2 r hge ih =>
    obtain ⟨hlt, hmod, hzero⟩ := ih
    refine ⟨hlt, ?_, ?_⟩
    · omega
    · rw [hzero]
      omega

theorem complement_pos {r : Nat} (hr : r < 2 ^ 16) : 0 < complement r ∧ complement r < 2 ^ 16 := by
  rw [complement]
  split <;> omega

/-- The sum is complete with the complement of what it is without it. -/
theorem sum_complete {ws : List Nat} {r : Nat} (hws : ∀ x ∈ ws, x < 2 ^ 16)
    (hr : ws.sum = r + complement (fold r)) : sum ws = 65535 := by
  obtain ⟨hlt, hmod, -⟩ := fold_spec r
  obtain ⟨hlt', hmod', hzero'⟩ := foldl_add (show 0 < 2 ^ 16 by decide) hws
  have hpos := (complement_pos hlt).1
  rw [Nat.zero_add, hr] at hmod' hzero'
  have htotal : (r + complement (fold r)) % 65535 = 0 := by
    rw [complement]
    split <;> omega
  refine eq_of_mod hlt' (by decide) (hmod'.trans htotal) ⟨fun h => ?_, fun h => ?_⟩
  · have hnone := hzero'.mp h
    omega
  · omega

/-- The words of a text, their first bytes the higher ones. -/
def words : List UInt8 → List Nat
  | a :: b :: rest => (256 * a.toNat + b.toNat) :: words rest
  | _ => []

theorem words_lt (bytes : List UInt8) : ∀ x ∈ words bytes, x < 2 ^ 16 := by
  fun_induction words bytes with
  | case1 a b rest ih =>
    intro x hx
    rcases List.mem_cons.mp hx with rfl | hx
    · have ha := a.toNat_lt
      have hb := b.toNat_lt
      omega
    · exact ih x hx
  | case2 => exact fun x hx => nomatch hx

theorem words_append {bytes : List UInt8} (heven : bytes.length % 2 = 0) (rest : List UInt8) :
    words (bytes ++ rest) = words bytes ++ words rest := by
  fun_induction words bytes with
  | case1 a b bytes ih =>
    rw [List.length_cons, List.length_cons] at heven
    rw [List.cons_append, List.cons_append, words, ih (by omega), List.cons_append]
  | case2 bytes hshort =>
    cases bytes with
    | nil => rfl
    | cons a bytes =>
      cases bytes with
      | nil => simp at heven
      | cons b bytes => exact absurd rfl (hshort a b bytes)

theorem words_length_le (bytes : List UInt8) : 2 * (words bytes).length ≤ bytes.length := by
  fun_induction words bytes with
  | case1 a b rest ih =>
    simp only [List.length_cons]
    omega
  | case2 => exact Nat.zero_le _

theorem words_sum_le (bytes : List UInt8) : (words bytes).sum ≤ 65535 * (words bytes).length := by
  rw [Nat.mul_comm]
  exact List.sum_le_card_nsmul _ _ fun x hx => Nat.le_of_lt_succ (words_lt bytes x hx)

end OsSuite.OnesComplement
