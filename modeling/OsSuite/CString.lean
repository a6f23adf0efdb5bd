import OsSuite.CInt

/-! Strings of C: characters up to a NUL. A pointer into a buffer is the list of the bytes from
there to the end of the buffer; a function that reads on past the end has no result. -/

namespace OsSuite.CString

/-- The characters of a string before its NUL. -/
abbrev Text := List UInt8

/-- The string `s` stands in the memory at `p`. -/
structure At (mem : Nat → UInt8) (p : Nat) (s : Text) : Prop where
  chars : ∀ j (h : j < s.length), mem (p + j) = s[j]
  nul : mem (p + s.length) = 0
  nonzero : 0 ∉ s

def strlen : List UInt8 → Option Nat
  | [] => none
  | c :: s => if c = 0 then some 0 else (strlen s).map (· + 1)

/-- `!strncmp(name, s, strlen(name))`. -/
def startsWith : Text → List UInt8 → Option Bool
  | [], _ => some true
  | _ :: _, [] => none
  | c :: name, b :: s => if c = b then startsWith name s else some false

def isSpace (c : UInt8) : Bool := c = 32 || (9 ≤ c && c ≤ 13)

def isDigit (c : UInt8) : Bool := 48 ≤ c && c ≤ 57

def digits (v : Nat) : List UInt8 → Option Nat
  | [] => none
  | c :: s => if isDigit c then digits (10 * v + (c.toNat - 48)) s else some v

def signed : List UInt8 → Option Int
  | [] => none
  | c :: s =>
    if c = 45 then (digits 0 s).map fun v => -(v : Int)
    else if c = 43 then (digits 0 s).map fun v => (v : Int)
    else (digits 0 (c :: s)).map fun v => (v : Int)

def number : List UInt8 → Option Int
  | [] => none
  | c :: s => if isSpace c then number s else signed (c :: s)

/-- `atoi`, without a result where the number is no `int`. -/
def atoi (s : List UInt8) : Option Int := ((number s).bind CInt.checked).map Int32.toInt

/-- `%d` of a number that is not negative. -/
def decimal (n : Nat) : Text := (Nat.toDigits 10 n).map fun c => UInt8.ofNat c.toNat

section Strings

variable {s tail name : List UInt8} {n v : Nat}

theorem strlen_eq (hs : 0 ∉ s) (tail : List UInt8) : strlen (s ++ 0 :: tail) = some s.length := by
  induction s with
  | nil => rfl
  | cons c s ih =>
    obtain ⟨hc, hs⟩ := not_or.mp (fun h => hs (List.mem_cons.mpr h))
    rw [List.cons_append, strlen, if_neg (Ne.symm hc), ih hs]
    rfl

theorem startsWith_eq (hname : 0 ∉ name) (s tail : List UInt8) :
    startsWith name (s ++ 0 :: tail) = some (decide (name <+: s)) := by
  induction name generalizing s with
  | nil => simp [startsWith]
  | cons c name ih =>
    obtain ⟨hc, hname⟩ := not_or.mp (fun h => hname (List.mem_cons.mpr h))
    cases s with
    | nil =>
      rw [List.nil_append, startsWith, if_neg (Ne.symm hc)]
      simp
    | cons b s =>
      rw [List.cons_append, startsWith]
      split
      · rename_i hb
        rw [ih hname s]
        simp [hb, List.cons_prefix_cons]
      · rename_i hb
        simp [hb, List.cons_prefix_cons]

theorem decimal_eq (n : Nat) :
    decimal n = (if n < 10 then [] else decimal (n / 10)) ++ [UInt8.ofNat (48 + n % 10)] := by
  have hdigit (d : Nat) (hd : d < 10) : UInt8.ofNat (Nat.digitChar d).toNat = UInt8.ofNat (48 + d) := by
    interval_cases d <;> rfl
  rw [decimal, Nat.toDigits_eq_if (by decide)]
  split
  · rename_i hn
    rw [List.map_singleton, hdigit n hn, Nat.mod_eq_of_lt hn]
    rfl
  · rw [List.map_append, List.map_singleton, hdigit (n % 10) (Nat.mod_lt n (by decide))]
    rfl

theorem isDigit_of_mem_decimal {c : UInt8} (hc : c ∈ decimal n) : isDigit c = true := by
  induction n using Nat.strong_induction_on with
  | _ n ih =>
    rw [decimal_eq] at hc
    rcases List.mem_append.mp hc with hc | hc
    · split at hc
      · cases hc
      · rename_i hn
        exact ih (n / 10) (by omega) hc
    · rw [List.mem_singleton.mp hc]
      have hlt : n % 10 < 10 := Nat.mod_lt n (by decide)
      generalize n % 10 = d at hlt
      interval_cases d <;> decide

theorem decimal_ne_nil (n : Nat) : decimal n ≠ [] := by
  rw [decimal_eq]
  exact List.append_ne_nil_of_right_ne_nil _ (List.cons_ne_nil _ _)

theorem decimal_length_le {k : Nat} (hk : 1 ≤ k) (hn : n < 10 ^ k) : (decimal n).length ≤ k := by
  induction k generalizing n with
  | zero => omega
  | succ k ih =>
    rw [decimal_eq, List.length_append, List.length_singleton]
    split
    · exact hk
    · rename_i hge
      have hdiv : n / 10 < 10 ^ k := by
        rw [Nat.pow_succ] at hn
        omega
      have hpos : 1 ≤ k := by
        by_contra hzero
        obtain rfl : k = 0 := by omega
        exact hge hn
      exact Nat.succ_le_succ (ih hpos hdiv)

theorem digits_decimal (n v : Nat) (s : List UInt8) :
    digits v (decimal n ++ s) = digits (v * 10 ^ (decimal n).length + n) s := by
  induction n using Nat.strong_induction_on generalizing v s with
  | _ n ih =>
    have hlt : n % 10 < 10 := Nat.mod_lt n (by decide)
    have hdigit : isDigit (UInt8.ofNat (48 + n % 10)) = true ∧ (UInt8.ofNat (48 + n % 10)).toNat - 48 = n % 10 := by
      generalize n % 10 = d at hlt
      interval_cases d <;> decide
    rw [decimal_eq]
    split
    · rename_i hn
      rw [List.nil_append, List.singleton_append, digits, if_pos hdigit.1, hdigit.2, List.length_singleton,
        Nat.mod_eq_of_lt hn, Nat.pow_one, Nat.mul_comm]
    · rename_i hn
      have hsum : 10 * (v * 10 ^ (decimal (n / 10)).length + n / 10) + n % 10 =
          v * 10 ^ ((decimal (n / 10)).length + 1) + n := by
        have hdiv := Nat.div_add_mod n 10
        rw [Nat.pow_succ]
        generalize 10 ^ (decimal (n / 10)).length = p
        calc 10 * (v * p + n / 10) + n % 10 = v * (p * 10) + (10 * (n / 10) + n % 10) := by ring
          _ = v * (p * 10) + n := by rw [hdiv]
      rw [List.append_assoc, ih (n / 10) (by omega), List.singleton_append, digits, if_pos hdigit.1, hdigit.2,
        List.length_append, List.length_singleton, hsum]

theorem number_spaces (k : Nat) (s : List UInt8) : number (List.replicate k 32 ++ s) = number s := by
  induction k with
  | zero => rfl
  | succ k ih =>
    rw [List.replicate_succ, List.cons_append, number, if_pos (by decide)]
    exact ih

theorem number_decimal (n : Nat) (s : List UInt8) : number (decimal n ++ 32 :: s) = some (n : Int) := by
  have hdigits : digits 0 (decimal n ++ 32 :: s) = some n := by
    rw [digits_decimal, Nat.zero_mul, Nat.zero_add, digits, if_neg (by decide)]
  obtain ⟨d, ds, hd⟩ := List.exists_cons_of_ne_nil (decimal_ne_nil n)
  have hdigit : isDigit d = true := isDigit_of_mem_decimal (hd ▸ List.mem_cons_self)
  have hother (c : UInt8) (hc : isDigit c = false) : d ≠ c := by
    rintro rfl
    exact absurd (hdigit.symm.trans hc) (by decide)
  have hspace : ¬isSpace d = true := by
    rw [isDigit, Bool.and_eq_true, decide_eq_true_iff, decide_eq_true_iff, UInt8.le_iff_toNat_le,
      UInt8.le_iff_toNat_le] at hdigit
    have hlow : 48 ≤ d.toNat := hdigit.1
    rw [isSpace, Bool.or_eq_true, Bool.and_eq_true, decide_eq_true_iff, decide_eq_true_iff,
      decide_eq_true_iff, UInt8.le_iff_toNat_le, UInt8.le_iff_toNat_le, ← UInt8.toNat_inj]
    change ¬(d.toNat = 32 ∨ 9 ≤ d.toNat ∧ d.toNat ≤ 13)
    omega
  rw [hd, List.cons_append] at hdigits ⊢
  rw [number, if_neg hspace, signed, if_neg (hother 45 (by decide)), if_neg (hother 43 (by decide)), hdigits]
  rfl

theorem atoi_decimal (k : Nat) {n : Nat} (hn : n < 2 ^ 31) (s : List UInt8) :
    atoi (List.replicate k 32 ++ (decimal n ++ 32 :: s)) = some (n : Int) := by
  obtain ⟨z, hz, hzv⟩ := CInt.checked_eq (v := (n : Int)) (by omega) (by omega)
  rw [atoi, number_spaces, number_decimal, Option.bind_some, hz, Option.map_some, hzv]

theorem digits_tail (v : Nat) (s tail : List UInt8) : digits v (s ++ 0 :: tail) = digits v (s ++ [0]) := by
  induction s generalizing v with
  | nil => rfl
  | cons c s ih =>
    rw [List.cons_append, List.cons_append, digits, digits, ih]

theorem signed_tail (s tail : List UInt8) : signed (s ++ 0 :: tail) = signed (s ++ [0]) := by
  cases s with
  | nil => rfl
  | cons c s =>
    have hcons := digits_tail 0 (c :: s) tail
    rw [List.cons_append, List.cons_append] at hcons ⊢
    rw [signed, signed, digits_tail 0 s tail, hcons]

theorem atoi_tail (s tail : List UInt8) : atoi (s ++ 0 :: tail) = atoi (s ++ [0]) := by
  have hnumber : number (s ++ 0 :: tail) = number (s ++ [0]) := by
    induction s with
    | nil => rfl
    | cons c s ih =>
      have hsigned := signed_tail (c :: s) tail
      rw [List.cons_append, List.cons_append] at hsigned ⊢
      rw [number, number, ih, hsigned]
  rw [atoi, atoi, hnumber]

end Strings

end OsSuite.CString
