import Mathlib

/-! The arithmetic of a signed 32-bit `int`, undefined where it overflows, and loops that
count with one. -/

namespace OsSuite.CInt

variable {α : Type} {x y z lo hi : Int32} {n : Nat}

def checked (x : Int) : Option Int32 :=
  if -2 ^ 31 ≤ x ∧ x < 2 ^ 31 then some (Int32.ofInt x) else none

def add (x y : Int32) : Option Int32 := checked (x.toInt + y.toInt)

def sub (x y : Int32) : Option Int32 := checked (x.toInt - y.toInt)

def mul (x y : Int32) : Option Int32 := checked (x.toInt * y.toInt)

/-- Division rounds toward zero. -/
def div (x y : Int32) : Option Int32 := if y = 0 then none else checked (x.toInt.tdiv y.toInt)

def mod (x y : Int32) : Option Int32 := if y = 0 then none else checked (x.toInt.tmod y.toInt)

theorem checked_eq {v : Int} (hle : -2 ^ 31 ≤ v) (hlt : v < 2 ^ 31) :
    ∃ z, checked v = some z ∧ z.toInt = v :=
  ⟨Int32.ofInt v, if_pos ⟨hle, hlt⟩, Int32.toInt_ofInt_of_le hle hlt⟩

theorem add_eq (hle : -2 ^ 31 ≤ x.toInt + y.toInt) (hlt : x.toInt + y.toInt < 2 ^ 31) :
    ∃ z, add x y = some z ∧ z.toInt = x.toInt + y.toInt := checked_eq hle hlt

theorem sub_eq (hle : -2 ^ 31 ≤ x.toInt - y.toInt) (hlt : x.toInt - y.toInt < 2 ^ 31) :
    ∃ z, sub x y = some z ∧ z.toInt = x.toInt - y.toInt := checked_eq hle hlt

theorem div_mod_eq (hx : 0 ≤ x.toInt) (hy : 0 < y.toInt) : ∃ q r, div x y = some q ∧ mod x y = some r ∧
    x.toInt = q.toInt * y.toInt + r.toInt ∧ 0 ≤ q.toInt ∧ 0 ≤ r.toInt ∧ r.toInt < y.toInt := by
  have hne : y ≠ 0 := by
    rintro rfl
    exact absurd hy (by decide)
  have hle := x.toInt_lt
  have hy' := y.toInt_lt
  have hq := Int.tdiv_nonneg hx hy.le
  have hr := Int.tmod_nonneg y.toInt hx
  have hr' := Int.tmod_lt_of_pos x.toInt hy
  have hsum := Int.tdiv_mul_add_tmod x.toInt y.toInt
  have hqle : x.toInt.tdiv y.toInt ≤ x.toInt := Int.tdiv_le_self _ hx
  obtain ⟨q, hdiv, hqv⟩ := checked_eq (v := x.toInt.tdiv y.toInt) (by omega) (by omega)
  obtain ⟨r, hmod, hrv⟩ := checked_eq (v := x.toInt.tmod y.toInt) (by omega) (by omega)
  refine ⟨q, r, (if_neg hne).trans hdiv, (if_neg hne).trans hmod, ?_, ?_, ?_, ?_⟩
  · rw [hqv, hrv, hsum]
  · rw [hqv]
    exact hq
  · rw [hrv]
    exact hr
  · rw [hrv]
    exact hr'

/-- The rounds of `for (int i = lo; i < hi; i++)`, at most `n`, with what they collect. -/
def forLoop (hi : Int32) (body : Int32 → Option (List α)) : Nat → Int32 → Option (List α)
  | 0, i => if i < hi then none else some []
  | n + 1, i =>
    if i < hi then do
      let here ← body i
      let next ← add i 1
      let rest ← forLoop hi body n next
      some (here ++ rest)
    else some []

def forInt (lo hi : Int32) (body : Int32 → Option (List α)) : Option (List α) :=
  forLoop hi body (hi.toInt - lo.toInt).toNat lo

theorem one_toInt : (1 : Int32).toInt = 1 := rfl

theorem toInt_eq_iff (hn : n < 2 ^ 31) : x.toInt = n ↔ x.toUInt32.toNat = n := by
  have hlt := x.toUInt32.toNat_lt
  have hcond : x.toInt = if 2 * x.toUInt32.toNat < 2 ^ 32 then (x.toUInt32.toNat : Int)
      else (x.toUInt32.toNat : Int) - (2 ^ 32 : Nat) := BitVec.toInt_eq_toNat_cond x.toBitVec
  rw [hcond]
  split <;> omega

theorem eq_zero_iff (hx : x.toInt = n) : x = 0 ↔ n = 0 := by
  rw [← Int32.toInt_inj, hx]
  exact Int.natCast_eq_zero

theorem forLoop_eq {body : Int32 → Option (List α)} {f : Int → Multiset α}
    (hbody : ∀ i : Int32, i < hi → ∃ l, body i = some l ∧ (l : Multiset α) = f i.toInt)
    (hn : hi.toInt - lo.toInt ≤ n) : ∃ l, forLoop hi body n lo = some l ∧
      (l : Multiset α) = (Multiset.Ico lo.toInt hi.toInt).bind f := by
  induction n generalizing lo with
  | zero =>
    have hge : ¬lo < hi := by
      rw [Int32.lt_iff_toInt_lt]
      omega
    refine ⟨[], if_neg hge, ?_⟩
    rw [Multiset.Ico_eq_zero_of_le (by omega)]
    rfl
  | succ n ih =>
    by_cases hlt : lo < hi
    · have hlt' := Int32.lt_iff_toInt_lt.mp hlt
      have hhi := hi.toInt_lt
      have hlo := lo.le_toInt
      obtain ⟨here, hhere, hf⟩ := hbody lo hlt
      obtain ⟨next, hnext, hnextv⟩ := add_eq (x := lo) (y := 1) (by rw [one_toInt]; omega)
        (by rw [one_toInt]; omega)
      rw [one_toInt] at hnextv
      obtain ⟨rest, hrest, hrestv⟩ := @ih next (by omega)
      refine ⟨here ++ rest, ?_, ?_⟩
      · rw [forLoop, if_pos hlt, hhere, hnext]
        change (forLoop hi body n next).bind _ = _
        rw [hrest]
        rfl
      · have hsingle : Multiset.Ico lo.toInt next.toInt = {lo.toInt} := by
          have hset : Finset.Ico lo.toInt next.toInt = {lo.toInt} := by
            ext v
            rw [Finset.mem_Ico, Finset.mem_singleton, hnextv]
            omega
          exact congrArg Finset.val hset
        rw [← Multiset.Ico_add_Ico_eq_Ico (b := next.toInt) (by omega) (by omega), Multiset.add_bind,
          hsingle, Multiset.singleton_bind, ← Multiset.coe_add, hf, hrestv]
    · have hge : hi.toInt ≤ lo.toInt := Int32.le_iff_toInt_le.mp (Int32.not_lt.mp hlt)
      refine ⟨[], if_neg hlt, ?_⟩
      rw [Multiset.Ico_eq_zero_of_le hge]
      rfl

theorem forInt_eq {body : Int32 → Option (List α)} {f : Int → Multiset α}
    (hbody : ∀ i : Int32, i < hi → ∃ l, body i = some l ∧ (l : Multiset α) = f i.toInt) :
    ∃ l, forInt lo hi body = some l ∧ (l : Multiset α) = (Multiset.Ico lo.toInt hi.toInt).bind f :=
  forLoop_eq hbody (Int.self_le_toNat _)

end OsSuite.CInt
