import OsSuite.ParallelLoops

/-! The program that multiplies two matrices with `parallel_for`, in the steps that its threads take
at the memory: rows are reached through their pointers, and `+=` loads before it stores. -/

namespace OsSuite.Multithreader

open Interference CInt

inductive Name
  | A
  | B
  | C
deriving DecidableEq

inductive Loc
  | row (x : Name) (i : Int)
  | cell (x : Name) (i j : Int)
  | tmp (i j : Int) (x : Name)
deriving DecidableEq

/-- What a location holds. `nothing` stands for memory that is not there or not initialised, and for
what comes out of undefined behaviour. -/
inductive Val
  | nothing
  | row
  | int (v : Int32)
deriving DecidableEq

abbrev Mem := Loc → Val

def allocate (x : Name) (i : Int) : Step Loc Val :=
  { dst := .row x i, srcs := [], op := fun _ => .row }

def release (x : Name) (i : Int) : Step Loc Val :=
  { dst := .row x i, srcs := [.row x i], op := fun _ => .nothing }

/-- What is read at an element, if its row is there. -/
def element : List Val → Val
  | [.row, v] => v
  | _ => .nothing

def store (x : Name) (i j : Int) (v : Int32) : Step Loc Val :=
  { dst := .cell x i j, srcs := [.row x i],
    op := fun vs => match vs with | [.row] => .int v | _ => .nothing }

def load (i j : Int) (x : Name) (row col : Int) : Step Loc Val :=
  { dst := .tmp i j x, srcs := [.row x row, .cell x row col], op := element }

def mulAdd (a b c : Int32) : Val :=
  match (mul a b).bind (add c) with
  | some v => .int v
  | none => .nothing

def addProduct : Val → Val → Val → Val
  | .int a, .int b, .int c => mulAdd a b c
  | _, _, _ => .nothing

def storeSum (i j : Int) : Step Loc Val :=
  { dst := .cell .C i j, srcs := [.row .C i, .tmp i j .A, .tmp i j .B, .tmp i j .C],
    op := fun vs => match vs with | [.row, a, b, c] => addProduct a b c | _ => .nothing }

/-- `std::fill(X[i], X[i]+size, v)` -/
def fill (size : Int32) (x : Name) (i : Int) (v : Int32) : List (Step Loc Val) :=
  (List.range size.toInt.toNat).map fun k : Nat => store x i k v

/-- The lambda of the first loop. -/
def allocateRows (size : Int32) (i : Int) : List (Step Loc Val) :=
  [allocate .A i, allocate .B i, allocate .C i] ++
    (List.range size.toInt.toNat).flatMap fun _ => fill size .A i 1 ++ fill size .B i 1 ++ fill size .C i 0

/-- The lambda of the second loop. -/
def multiply (size : Int32) (call : Int × Int) : List (Step Loc Val) :=
  (List.range size.toInt.toNat).flatMap fun k : Nat =>
    [load call.1 call.2 .A call.1 k, load call.1 call.2 .B k call.2, load call.1 call.2 .C call.1 call.2,
      storeSum call.1 call.2]

/-- The lambda of the last loop. -/
def cleanup (i : Int) : List (Step Loc Val) := [release .A i, release .B i, release .C i]

section Owners

def rowOwner : Loc → Option Int
  | .row _ i => some i
  | .cell _ i _ => some i
  | .tmp _ _ _ => none

def productOwner : Loc → Option (Int × Int)
  | .cell .C i j => some (i, j)
  | .tmp i j _ => some (i, j)
  | _ => none

theorem allocateRows_separate (size : Int32) : Separate (allocateRows size) rowOwner := by
  have hstep {i : Int} {s : Step Loc Val} (hs : s ∈ allocateRows size i) :
      rowOwner s.dst = some i ∧ ∀ a ∈ s.srcs, rowOwner a = some i := by
    simp only [allocateRows, fill, List.mem_append, List.mem_cons, List.not_mem_nil, or_false, List.mem_flatMap,
      List.mem_map] at hs
    rcases hs with (rfl | rfl | rfl) | ⟨j, -, (⟨k, -, rfl⟩ | ⟨k, -, rfl⟩) | ⟨k, -, rfl⟩⟩ <;>
      simp [allocate, store, rowOwner]
  exact ⟨fun i s hs => (hstep hs).1, fun i s hs a ha => .inl ((hstep hs).2 a ha)⟩

theorem cleanup_separate : Separate cleanup rowOwner := by
  have hstep {i : Int} {s : Step Loc Val} (hs : s ∈ cleanup i) :
      rowOwner s.dst = some i ∧ ∀ a ∈ s.srcs, rowOwner a = some i := by
    simp only [cleanup, List.mem_cons, List.not_mem_nil, or_false] at hs
    rcases hs with rfl | rfl | rfl <;> simp [release, rowOwner]
  exact ⟨fun i s hs => (hstep hs).1, fun i s hs a ha => .inl ((hstep hs).2 a ha)⟩

theorem multiply_separate (size : Int32) : Separate (multiply size) productOwner := by
  have hstep {call : Int × Int} {s : Step Loc Val} (hs : s ∈ multiply size call) :
      productOwner s.dst = some call ∧ ∀ a ∈ s.srcs, productOwner a = some call ∨ productOwner a = none := by
    simp only [multiply, List.mem_flatMap, List.mem_cons, List.not_mem_nil, or_false] at hs
    obtain ⟨k, -, rfl | rfl | rfl | rfl⟩ := hs <;> simp [load, storeSum, productOwner]
  exact ⟨fun i s hs => (hstep hs).1, fun i s hs => (hstep hs).2⟩

end Owners

section Rows

variable {x y : Name} {i : Int} {n k : Nat} {v : Int32} {m : Mem} {a : Loc}

theorem fill_other (h : ∀ j, a ≠ .cell x i j) (l : List Nat) :
    runs (l.map fun k : Nat => store x i k v) m a = m a := by
  apply runs_of_ne
  intro s hs heq
  obtain ⟨k, -, rfl⟩ := List.mem_map.mp hs
  exact h k heq.symm

theorem fill_cell (hrow : m (.row x i) = .row) (hk : k < n) :
    runs ((List.range n).map fun k : Nat => store x i k v) m (.cell x i k) = .int v := by
  induction n with
  | zero => exact absurd hk (Nat.not_lt_zero k)
  | succ n ih =>
    have hkept := @fill_other x i v m (.row x i) (fun j h => nomatch h) (List.range n)
    rw [List.range_succ, List.map_append, runs_append]
    by_cases heq : k = n
    · subst heq
      have hop : (store x i k v).op ((store x i k v).srcs.map (runs ((List.range k).map fun k : Nat => store x i k v) m)) =
          .int v := by
        change (match [runs ((List.range k).map fun k : Nat => store x i k v) m (.row x i)] with
          | [.row] => Val.int v | _ => .nothing) = .int v
        rw [hkept, hrow]
      exact (Function.update_self _ _ _).trans hop
    · have hne : (store x i n v).dst ≠ .cell x i k := fun h => heq (by simpa [store] using h.symm)
      exact (Step.run_of_ne hne).trans (ih (by omega))

/-- The rows with this index are there and hold the program's first values. -/
structure Ready (size : Int32) (i : Int) (m : Mem) : Prop where
  rows : ∀ x, m (.row x i) = .row
  ones : ∀ x, x ≠ .C → ∀ k : Nat, k < size.toInt.toNat → m (.cell x i k) = .int 1
  zeros : ∀ k : Nat, k < size.toInt.toNat → m (.cell .C i k) = .int 0

theorem fill_ready {size : Int32} (hrows : ∀ x, m (.row x i) = .row) :
    Ready size i (runs (fill size .A i 1 ++ fill size .B i 1 ++ fill size .C i 0) m) := by
  have hrow {x y : Name} {v : Int32} (l : List Nat) (m : Mem) :
      runs (l.map fun k : Nat => store y i k v) m (.row x i) = m (.row x i) := fill_other (by simp) l
  have hcell {x y : Name} {v : Int32} {j : Int} (hne : x ≠ y) (l : List Nat) (m : Mem) :
      runs (l.map fun k : Nat => store y i k v) m (.cell x i j) = m (.cell x i j) :=
    fill_other (fun j' h => hne (Loc.cell.inj h).1) l
  rw [runs_append, runs_append]
  refine ⟨fun x => ?_, fun x hx k hk => ?_, fun k hk => ?_⟩
  · rw [fill, hrow, fill, hrow, fill, hrow, hrows]
  · cases x with
    | A => rw [fill, hcell (by decide), fill, hcell (by decide), fill, fill_cell (hrows .A) hk]
    | B => rw [fill, hcell (by decide), fill, fill_cell (by rw [fill, hrow, hrows]) hk]
    | C => exact absurd rfl hx
  · rw [fill, fill_cell (by rw [fill, hrow, fill, hrow, hrows]) hk]

theorem allocateRows_ready {size : Int32} (hpos : 0 < size.toInt) (m : Mem) :
    Ready size i (runs (allocateRows size i) m) := by
  have hrounds : ∀ (n : Nat) (m : Mem), (∀ x, m (.row x i) = .row) →
      Ready size i (runs ((List.range (n + 1)).flatMap fun _ =>
        fill size .A i 1 ++ fill size .B i 1 ++ fill size .C i 0) m) := by
    intro n
    induction n with
    | zero =>
      intro m hrows
      rw [Nat.zero_add, List.range_one, List.flatMap_singleton]
      exact fill_ready hrows
    | succ n ih =>
      intro m hrows
      rw [List.range_succ, List.flatMap_append, runs_append, List.flatMap_cons, List.flatMap_nil, List.append_nil]
      exact fill_ready (ih m hrows).rows
  obtain ⟨n, hn⟩ := Nat.exists_eq_succ_of_ne_zero (show size.toInt.toNat ≠ 0 by omega)
  rw [allocateRows, runs_append, hn]
  refine hrounds n _ fun x => ?_
  cases x <;> simp [runs, Step.run, allocate]

end Rows

section Product

variable {i j : Int} {m : Mem} {a : Loc}

/-- What `C[i][j]` holds after `n` rounds of the inner loop. -/
def product (m : Mem) (i j : Int) : Nat → Val
  | 0 => m (.cell .C i j)
  | n + 1 => addProduct (m (.cell .A i n)) (m (.cell .B n j)) (product m i j n)

def rounds (i j : Int) (n : Nat) : List (Step Loc Val) :=
  (List.range n).flatMap fun k : Nat => [load i j .A i k, load i j .B k j, load i j .C i j, storeSum i j]

theorem rounds_other (hcell : a ≠ .cell .C i j) (htmp : ∀ x, a ≠ .tmp i j x) (n : Nat) :
    runs (rounds i j n) m a = m a := by
  apply runs_of_ne
  intro s hs heq
  simp only [rounds, List.mem_flatMap, List.mem_cons, List.not_mem_nil, or_false] at hs
  obtain ⟨k, -, rfl | rfl | rfl | rfl⟩ := hs
  · exact htmp .A heq.symm
  · exact htmp .B heq.symm
  · exact htmp .C heq.symm
  · exact hcell heq.symm

theorem round_eq {k : Nat} (hA : m (.row .A i) = .row) (hB : m (.row .B k) = .row) (hC : m (.row .C i) = .row) :
    runs [load i j .A i k, load i j .B k j, load i j .C i j, storeSum i j] m (.cell .C i j) =
      addProduct (m (.cell .A i k)) (m (.cell .B k j)) (m (.cell .C i j)) := by
  simp [runs, Step.run, load, storeSum, element, hA, hB, hC]

theorem rounds_eq {n : Nat} (hA : m (.row .A i) = .row) (hB : ∀ k : Nat, k < n → m (.row .B k) = .row)
    (hC : m (.row .C i) = .row) : runs (rounds i j n) m (.cell .C i j) = product m i j n := by
  induction n with
  | zero => rfl
  | succ n ih =>
    have hrow (x : Name) (k : Int) : runs (rounds i j n) m (.row x k) = m (.row x k) := rounds_other (by simp) (by simp) n
    have hcell {x : Name} (hx : x ≠ .C) (k l : Int) : runs (rounds i j n) m (.cell x k l) = m (.cell x k l) :=
      rounds_other (fun h => hx (Loc.cell.inj h).1) (by simp) n
    rw [rounds, List.range_succ, List.flatMap_append, runs_append, List.flatMap_cons, List.flatMap_nil, List.append_nil,
      ← rounds, round_eq (by rw [hrow, hA]) (by rw [hrow, hB n (Nat.lt_succ_self n)]) (by rw [hrow, hC]),
      hcell (by decide), hcell (by decide), ih fun k hk => hB k (Nat.lt_succ_of_lt hk), product]

/-- With sums that all fit into an `int`. -/
theorem product_eq {a b : Nat → Int} {c : Int} {n : Nat}
    (hA : ∀ k < n, ∃ v, m (.cell .A i k) = .int v ∧ v.toInt = a k)
    (hB : ∀ k < n, ∃ v, m (.cell .B k j) = .int v ∧ v.toInt = b k)
    (hC : ∃ v, m (.cell .C i j) = .int v ∧ v.toInt = c)
    (hterm : ∀ k < n, -2 ^ 31 ≤ a k * b k ∧ a k * b k < 2 ^ 31)
    (hsum : ∀ l ≤ n, -2 ^ 31 ≤ c + ∑ k ∈ Finset.range l, a k * b k ∧ c + ∑ k ∈ Finset.range l, a k * b k < 2 ^ 31) :
    ∃ v, product m i j n = .int v ∧ v.toInt = c + ∑ k ∈ Finset.range n, a k * b k := by
  induction n with
  | zero => simpa [product] using hC
  | succ n ih =>
    obtain ⟨u, hu, huv⟩ := ih (fun k hk => hA k (Nat.lt_succ_of_lt hk)) (fun k hk => hB k (Nat.lt_succ_of_lt hk))
      (fun k hk => hterm k (Nat.lt_succ_of_lt hk)) fun l hl => hsum l (Nat.le_succ_of_le hl)
    obtain ⟨x, hx, hxv⟩ := hA n (Nat.lt_succ_self n)
    obtain ⟨y, hy, hyv⟩ := hB n (Nat.lt_succ_self n)
    obtain ⟨hle, hlt⟩ := hterm n (Nat.lt_succ_self n)
    obtain ⟨hle', hlt'⟩ := hsum (n + 1) le_rfl
    rw [Finset.sum_range_succ, ← add_assoc] at hle' hlt' ⊢
    obtain ⟨p, hp, hpv⟩ := checked_eq (v := x.toInt * y.toInt) (by rw [hxv, hyv]; exact hle) (by rw [hxv, hyv]; exact hlt)
    obtain ⟨w, hw, hwv⟩ := add_eq (x := u) (y := p) (by rw [huv, hpv, hxv, hyv]; exact hle')
      (by rw [huv, hpv, hxv, hyv]; exact hlt')
    refine ⟨w, ?_, ?_⟩
    · have hmul : mul x y = some p := hp
      rw [product, hu, hx, hy, addProduct, mulAdd, hmul, Option.bind_some, hw]
    · rw [hwv, huv, hpv, hxv, hyv]

end Product

section Results

variable {numThread size : Int32} {m m' : Mem}

def Holds (m : Mem) (x : Name) {n : Nat} (M : Matrix (Fin n) (Fin n) ℤ) : Prop :=
  ∀ i j : Fin n, ∃ v, m (.cell x i j) = .int v ∧ v.toInt = M i j

/-- No term and no partial sum of the product leaves the range of `int`. -/
structure FitsInt {n : Nat} (a b c : Matrix (Fin n) (Fin n) ℤ) : Prop where
  term : ∀ i k j, -2 ^ 31 ≤ a i k * b k j ∧ a i k * b k j < 2 ^ 31
  sum : ∀ i j, ∀ l, ∀ hl : l ≤ n, -2 ^ 31 ≤ c i j + ∑ k : Fin l, a i (k.castLE hl) * b (k.castLE hl) j ∧
    c i j + ∑ k : Fin l, a i (k.castLE hl) * b (k.castLE hl) j < 2 ^ 31

/-- A function on the indexes, and nothing behind them. -/
def upTo {n : Nat} (f : Fin n → ℤ) (k : Nat) : ℤ := if h : k < n then f ⟨k, h⟩ else 0

theorem upTo_eq {n k : Nat} (f : Fin n → ℤ) (h : k < n) : upTo f k = f ⟨k, h⟩ := dif_pos h

theorem sum_upTo {n l : Nat} (f g : Fin n → ℤ) (hl : l ≤ n) :
    ∑ k ∈ Finset.range l, upTo f k * upTo g k = ∑ k : Fin l, f (k.castLE hl) * g (k.castLE hl) := by
  rw [Finset.sum_range]
  refine Finset.sum_congr rfl fun k _ => ?_
  rw [upTo_eq f (k.isLt.trans_le hl), upTo_eq g (k.isLt.trans_le hl)]
  rfl

theorem product_holds {n : Nat} {a b c : Matrix (Fin n) (Fin n) ℤ} (ha : Holds m .A a) (hb : Holds m .B b)
    (hc : Holds m .C c) (hfits : FitsInt a b c) (i j : Fin n) :
    ∃ v, product m i j n = .int v ∧ v.toInt = (c + a * b) i j := by
  have hprod : (c + a * b) i j = c i j + ∑ k ∈ Finset.range n, upTo (a i) k * upTo (fun k => b k j) k := by
    rw [sum_upTo (a i) (fun k => b k j) le_rfl, Matrix.add_apply, Matrix.mul_apply]
    rfl
  rw [hprod]
  refine product_eq (fun k hk => ?_) (fun k hk => ?_) (hc i j) (fun k hk => ?_) fun l hl => ?_
  · rw [upTo_eq (a i) hk]
    exact ha i ⟨k, hk⟩
  · rw [upTo_eq (fun k => b k j) hk]
    exact hb ⟨k, hk⟩ j
  · rw [upTo_eq (a i) hk, upTo_eq (fun k => b k j) hk]
    exact hfits.term i ⟨k, hk⟩ j
  · rw [sum_upTo (a i) (fun k => b k j) hl]
    exact hfits.sum i j l hl

theorem Loop2.multiply {x : Name} {i j : Nat} (hloop : Loop2 numThread size (multiply size) m m') (hpos : 0 < size)
    (hrows : ∀ x, ∀ i : Nat, i < size.toInt.toNat → m (.row x i) = .row) (hi : i < size.toInt.toNat)
    (hj : j < size.toInt.toNat) :
    m' (.cell .C i j) = product m i j size.toInt.toNat ∧ (x ≠ .C → m' (.cell x i j) = m (.cell x i j)) ∧
      m' (.row x i) = m (.row x i) := by
  have hsep := multiply_separate size
  refine ⟨?_, fun hx => ?_, ?_⟩
  · rw [(hloop.spec hpos hsep).1 i j (Int.natCast_nonneg i) (by omega) (Int.natCast_nonneg j) (by omega) rfl]
    exact rounds_eq (hrows .A i hi) (fun k hk => hrows .B k hk) (hrows .C i hi)
  · refine (hloop.spec hpos hsep).2 ?_
    cases x with
    | A => rfl
    | B => rfl
    | C => exact absurd rfl hx
  · exact (hloop.spec hpos hsep).2 rfl

/-- Whatever the order in which the threads load and store, the loop adds the product. -/
theorem multiply_product {a b c : Matrix (Fin size.toInt.toNat) (Fin size.toInt.toNat) ℤ} (hpos : 0 < size)
    (hrows : ∀ x, ∀ i : Nat, i < size.toInt.toNat → m (.row x i) = .row) (ha : Holds m .A a) (hb : Holds m .B b)
    (hc : Holds m .C c) (hfits : FitsInt a b c) :
    (∃ m', Loop2 numThread size (multiply size) m m') ∧
      ∀ m', Loop2 numThread size (multiply size) m m' → Holds m' .A a ∧ Holds m' .B b ∧ Holds m' .C (c + a * b) := by
  refine ⟨loop2_exists hpos _ m, fun m' hloop => ⟨fun i j => ?_, fun i j => ?_, fun i j => ?_⟩⟩
  · rw [(hloop.multiply hpos hrows i.isLt j.isLt).2.1 (show Name.A ≠ .C by decide)]
    exact ha i j
  · rw [(hloop.multiply hpos hrows i.isLt j.isLt).2.1 (show Name.B ≠ .C by decide)]
    exact hb i j
  · rw [(hloop.multiply (x := .C) hpos hrows i.isLt j.isLt).1]
    exact product_holds ha hb hc hfits i j

def sampleMem : Mem
  | .row _ _ => .row
  | .cell .A i _ => .int (Int32.ofInt (i + 1))
  | .cell .B _ j => .int (Int32.ofInt j)
  | .cell .C _ _ => .int 5
  | .tmp _ _ _ => .nothing

abbrev Sample := Matrix (Fin (2 : Int32).toInt.toNat) (Fin (2 : Int32).toInt.toNat) ℤ

def sampleA : Sample := fun i _ => i.val + 1

def sampleB : Sample := fun _ j => j.val

def sampleC : Sample := fun _ _ => 5

theorem multiply_product_sample : (∃ m', Loop2 3 2 (multiply 2) sampleMem m') ∧
    ∀ m', Loop2 3 2 (multiply 2) sampleMem m' →
      Holds m' .A sampleA ∧ Holds m' .B sampleB ∧ Holds m' .C (sampleC + sampleA * sampleB) := by
  have hsize {i : Fin (2 : Int32).toInt.toNat} : i.val < 2 := i.isLt
  refine multiply_product (by decide) (fun _ _ _ => rfl) (fun i j => ⟨_, rfl, ?_⟩) (fun i j => ⟨_, rfl, ?_⟩)
    (fun i j => ⟨5, rfl, rfl⟩) ⟨fun i k j => ?_, fun i j l hl => ?_⟩
  · have hi := @hsize i
    exact Int32.toInt_ofInt_of_le (by omega) (by omega)
  · have hj := @hsize j
    exact Int32.toInt_ofInt_of_le (by omega) (by omega)
  · have hi := @hsize i
    have hj := @hsize j
    simp only [sampleA, sampleB]
    interval_cases i.val <;> interval_cases j.val <;> decide
  · have hi := @hsize i
    have hj := @hsize j
    have hl' : l ≤ 2 := hl
    simp only [sampleA, sampleB, sampleC, Finset.sum_const, Finset.card_univ, Fintype.card_fin, nsmul_eq_mul]
    interval_cases i.val <;> interval_cases j.val <;> interval_cases l <;> decide

/-- The program from its first allocation to its last `delete`. -/
structure Run (numThread size : Int32) (filled multiplied released : Mem) : Prop where
  fill : Loop1 numThread size (allocateRows size) (fun _ => .nothing) filled
  multiply : Loop2 numThread size (Multithreader.multiply size) filled multiplied
  cleanup : Loop1 numThread size Multithreader.cleanup multiplied released

/-- `assert(C[i][j] == size)` for each element -/
def Asserted (size : Int32) (m : Mem) : Prop :=
  ∀ i j : Nat, i < size.toInt.toNat → j < size.toInt.toNat → element [m (.row .C i), m (.cell .C i j)] = .int size

theorem product_ones {i j : Nat} (hi : i < size.toInt.toNat) (hj : j < size.toInt.toNat)
    (hready : ∀ i : Nat, i < size.toInt.toNat → Ready size i m) : product m i j size.toInt.toNat = .int size := by
  have hlt := size.toInt_lt
  have hone : (1 : Int32).toInt = 1 := rfl
  have hzero : (0 : Int32).toInt = 0 := rfl
  have hsums (l : Nat) : (0 : ℤ) + ∑ k ∈ Finset.range l, (1 : ℤ) * 1 = l := by simp
  obtain ⟨v, hv, hvi⟩ := @product_eq i j m (fun _ => 1) (fun _ => 1) 0 size.toInt.toNat
    (fun k hk => ⟨1, (hready i hi).ones .A (by decide) k hk, hone⟩)
    (fun k hk => ⟨1, (hready k hk).ones .B (by decide) j hj, hone⟩) ⟨0, (hready i hi).zeros j hj, hzero⟩
    (fun _ _ => by decide) fun l hl => by rw [hsums]; omega
  rw [hv]
  congr 1
  apply Int32.toInt_inj.mp
  rw [hvi, hsums, Int.toNat_of_nonneg (by omega)]

theorem Loop1.ready (hloop : Loop1 numThread size (allocateRows size) m m') (hpos : 0 < size) {i : Nat}
    (hi : i < size.toInt.toNat) : Ready size i m' := by
  have hready := @allocateRows_ready i size (by omega) m
  have hown {a : Loc} (hown : rowOwner a = some (i : Int)) : m' a = runs (allocateRows size i) m a :=
    (hloop.spec hpos (allocateRows_separate size)).1 i (by omega) (by omega) hown
  exact ⟨fun x => (hown rfl).trans (hready.rows x), fun x hx k hk => (hown rfl).trans (hready.ones x hx k hk),
    fun k hk => (hown rfl).trans (hready.zeros k hk)⟩

/-- In every run the assertions hold, and in the end all rows are released. -/
theorem program_succeeds (numThread size : Int32) (hpos : 0 < size) :
    (∃ filled multiplied released, Run numThread size filled multiplied released) ∧
      ∀ filled multiplied released, Run numThread size filled multiplied released →
        Asserted size multiplied ∧ ∀ x i, released (.row x i) = .nothing := by
  refine ⟨?_, fun filled multiplied released hrun => ⟨fun i j hi hj => ?_, fun x i => ?_⟩⟩
  · obtain ⟨filled, hfill⟩ := @loop1_exists _ _ _ numThread size hpos (allocateRows size) fun _ => .nothing
    obtain ⟨multiplied, hmultiply⟩ := @loop2_exists _ _ _ numThread size hpos (multiply size) filled
    obtain ⟨released, hcleanup⟩ := @loop1_exists _ _ _ numThread size hpos cleanup multiplied
    exact ⟨filled, multiplied, released, hfill, hmultiply, hcleanup⟩
  · have hready : ∀ i : Nat, i < size.toInt.toNat → Ready size i filled := fun i hi => hrun.fill.ready hpos hi
    obtain ⟨hcell, -, hrow⟩ := hrun.multiply.multiply (x := .C) hpos (fun x i hi => (hready i hi).rows x) hi hj
    rw [hcell, product_ones hi hj hready, hrow, (hready i hi).rows, element]
  · have hkept : multiplied (.row x i) = filled (.row x i) :=
      (hrun.multiply.spec hpos (multiply_separate size)).2 rfl
    by_cases hin : 0 ≤ i ∧ i < size.toInt
    · rw [(hrun.cleanup.spec hpos cleanup_separate).1 i hin.1 hin.2 rfl]
      cases x <;> simp [runs, Step.run, Multithreader.cleanup, release]
    · have hout : ∀ k, 0 ≤ k → k < size.toInt → rowOwner (.row x i) ≠ some k := by
        intro k hle hlt heq
        cases heq
        exact hin ⟨hle, hlt⟩
      rw [(hrun.cleanup.spec hpos cleanup_separate).2 hout, hkept,
        (hrun.fill.spec hpos (allocateRows_separate size)).2 hout]

theorem program_succeeds_sample : (∃ filled multiplied released, Run 3 5 filled multiplied released) ∧
    ∀ filled multiplied released, Run 3 5 filled multiplied released →
      Asserted 5 multiplied ∧ ∀ x i, released (.row x i) = .nothing :=
  program_succeeds 3 5 (by decide)

end Results

end OsSuite.Multithreader
