import OsSuite.ParallelLoops

/-! The program that adds two vectors with `parallel_for`. -/

namespace OsSuite.Multithreader.Vectors

open Interference CInt

inductive Name
  | A
  | B
  | C
deriving DecidableEq

inductive Loc
  | cell (x : Name) (i : Int)
  | tmp (i : Int) (x : Name)
deriving DecidableEq

/-- `none` where memory is not initialised, and after an overflow. -/
abbrev Mem := Loc → Option Int32

def load (i : Int) (x : Name) : Step Loc (Option Int32) :=
  { dst := .tmp i x, srcs := [.cell x i], op := fun vs => vs.head?.join }

def storeSum (i : Int) : Step Loc (Option Int32) :=
  { dst := .cell .C i, srcs := [.tmp i .A, .tmp i .B],
    op := fun vs => match vs with | [some a, some b] => CInt.add a b | _ => none }

/-- The lambda of the loop. -/
def sumAt (i : Int) : List (Step Loc (Option Int32)) := [load i .A, load i .B, storeSum i]

def store (x : Name) (i : Int) (v : Int32) : Step Loc (Option Int32) :=
  { dst := .cell x i, srcs := [], op := fun _ => some v }

/-- `std::fill(X, X+size, v)` -/
def fill (size : Int32) (x : Name) (v : Int32) : List (Step Loc (Option Int32)) :=
  (List.range size.toInt.toNat).map fun i : Nat => store x i v

def owner : Loc → Option Int
  | .cell .C i => some i
  | .tmp i _ => some i
  | _ => none

variable {numThread size : Int32} {m m' : Mem} {n i : Nat} {x y : Name} {v : Int32}

theorem sumAt_separate : Separate sumAt owner := by
  have hstep {i : Int} {s : Step Loc (Option Int32)} (hs : s ∈ sumAt i) :
      owner s.dst = some i ∧ ∀ a ∈ s.srcs, owner a = some i ∨ owner a = none := by
    simp only [sumAt, List.mem_cons, List.not_mem_nil, or_false] at hs
    rcases hs with rfl | rfl | rfl <;> simp [load, storeSum, owner]
  exact ⟨fun i s hs => (hstep hs).1, fun i s hs => (hstep hs).2⟩

def Holds (m : Mem) (x : Name) {n : Nat} (f : Fin n → ℤ) : Prop :=
  ∀ i : Fin n, ∃ v, m (.cell x i) = some v ∧ v.toInt = f i

theorem loop_sum {a b : Fin size.toInt.toNat → ℤ} (hpos : 0 < size) (ha : Holds m .A a) (hb : Holds m .B b)
    (hfits : ∀ i, -2 ^ 31 ≤ a i + b i ∧ a i + b i < 2 ^ 31) (hloop : Loop1 numThread size sumAt m m') :
    Holds m' .A a ∧ Holds m' .B b ∧ Holds m' .C (a + b) := by
  have hkept (x : Name) (hx : x ≠ .C) (i : Int) : m' (.cell x i) = m (.cell x i) := by
    refine (hloop.spec hpos sumAt_separate).2 fun k _ _ h => ?_
    cases x with
    | A => cases h
    | B => cases h
    | C => exact hx rfl
  refine ⟨fun i => ?_, fun i => ?_, fun i => ?_⟩
  · rw [hkept .A (by decide)]
    exact ha i
  · rw [hkept .B (by decide)]
    exact hb i
  · obtain ⟨u, hu, huv⟩ := ha i
    obtain ⟨w, hw, hwv⟩ := hb i
    have hi := i.isLt
    obtain ⟨hle, hlt⟩ := hfits i
    obtain ⟨z, hz, hzv⟩ := add_eq (x := u) (y := w) (by rw [huv, hwv]; exact hle) (by rw [huv, hwv]; exact hlt)
    refine ⟨z, ?_, by rw [hzv, huv, hwv, Pi.add_apply]⟩
    rw [(hloop.spec hpos sumAt_separate).1 i (by omega) (by omega) rfl]
    simp [runs, Step.run, sumAt, load, storeSum, hu, hw, hz]

theorem fill_cell (hi : i < n) :
    runs ((List.range n).map fun i : Nat => store x i v) m (.cell x i) = some v := by
  induction n with
  | zero => exact absurd hi (Nat.not_lt_zero i)
  | succ n ih =>
    rw [List.range_succ, List.map_append, runs_append]
    by_cases heq : i = n
    · subst heq
      exact Function.update_self _ _ _
    · have hne : (store x n v).dst ≠ .cell x i := fun h => heq (by simpa [store] using h.symm)
      exact (Step.run_of_ne hne).trans (ih (by omega))

theorem fill_other (hne : x ≠ y) (l : List Nat) (i : Int) :
    runs (l.map fun i : Nat => store y i v) m (.cell x i) = m (.cell x i) := by
  apply runs_of_ne
  intro s hs heq
  obtain ⟨k, -, rfl⟩ := List.mem_map.mp hs
  exact hne (Loc.cell.inj heq).1.symm

/-- The three `std::fill` of the main thread, and the loop. -/
def Run (numThread size : Int32) (m : Mem) : Prop :=
  Loop1 numThread size sumAt (runs (fill size .A 1 ++ fill size .B 1 ++ fill size .C 0) fun _ => none) m

/-- In every run, whatever the order of the loads and stores, each element is 2 in the end. -/
theorem vector_succeeds (numThread size : Int32) (hpos : 0 < size) :
    (∃ m, Run numThread size m) ∧
      ∀ m, Run numThread size m → ∀ i : Nat, i < size.toInt.toNat → m (.cell .C i) = some 2 := by
  refine ⟨loop1_exists hpos sumAt _, fun m hrun i hi => ?_⟩
  have hone : (1 : Int32).toInt = 1 := rfl
  have ha : Holds (runs (fill size .A 1 ++ fill size .B 1 ++ fill size .C 0) fun _ => none) .A
      (fun _ : Fin size.toInt.toNat => 1) := by
    intro k
    refine ⟨1, ?_, hone⟩
    rw [runs_append, runs_append, fill, fill_other (by decide), fill, fill_other (by decide), fill, fill_cell k.isLt]
  have hb : Holds (runs (fill size .A 1 ++ fill size .B 1 ++ fill size .C 0) fun _ => none) .B
      (fun _ : Fin size.toInt.toNat => 1) := by
    intro k
    refine ⟨1, ?_, hone⟩
    rw [runs_append, runs_append, fill, fill_other (by decide), fill, fill_cell k.isLt]
  obtain ⟨v, hv, hvi⟩ := (loop_sum hpos ha hb (fun _ => by decide) hrun).2.2 ⟨i, hi⟩
  rw [hv]
  congr 1
  exact Int32.toInt_inj.mp hvi

theorem vector_succeeds_sample : (∃ m, Run 3 7 m) ∧
    ∀ m, Run 3 7 m → ∀ i : Nat, i < (7 : Int32).toInt.toNat → m (.cell .C i) = some 2 :=
  vector_succeeds 3 7 (by decide)

end OsSuite.Multithreader.Vectors
