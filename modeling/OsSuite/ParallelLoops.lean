import OsSuite.Interference
import OsSuite.ParallelFor

/-! The memory behind a `parallel_for` whose threads take turns step by step. -/

namespace OsSuite.Multithreader

open Interference

variable {L V : Type} [DecidableEq L] {numThread size : Int32} {m m' : L → V} {a : L}

/-- One `parallel_for` over the first indexes, from one memory to another: the threads take turns in
some order. -/
def Loop1 (numThread size : Int32) (body : Int → List (Step L V)) (m m' : L → V) : Prop :=
  ∃ data calls out, parallel_for1 0 size numThread = some (data, calls) ∧
    Interleaving (calls.map (·.flatMap body)) out ∧ runs out m = m'

def Loop2 (numThread size : Int32) (body : Int × Int → List (Step L V)) (m m' : L → V) : Prop :=
  ∃ data calls out, parallel_for2 0 size 0 size numThread = some (data, calls) ∧
    Interleaving (calls.map (·.flatMap body)) out ∧ runs out m = m'

theorem size_fits (size : Int32) : size.toInt - (0 : Int32).toInt < 2 ^ 31 := by
  have hlt := size.toInt_lt
  have hzero : (0 : Int32).toInt = 0 := rfl
  omega

theorem loop1_exists (hpos : 0 < size) (body : Int → List (Step L V)) (m : L → V) :
    ∃ m', Loop1 numThread size body m m' := by
  obtain ⟨data, calls, hrun, -⟩ := @parallel_for1_eq numThread 0 size hpos (size_fits size)
  exact ⟨_, data, calls, _, hrun, .flatten _, rfl⟩

theorem loop2_exists (hpos : 0 < size) (body : Int × Int → List (Step L V)) (m : L → V) :
    ∃ m', Loop2 numThread size body m m' := by
  obtain ⟨data, calls, hrun, -⟩ := @parallel_for2_eq numThread 0 size 0 size hpos hpos (size_fits size)
  exact ⟨_, data, calls, _, hrun, .flatten _, rfl⟩

/-- After the loop a location holds what the call that owns it leaves there. -/
theorem Loop1.spec {body : Int → List (Step L V)} {owner : L → Option Int} (hloop : Loop1 numThread size body m m')
    (hpos : 0 < size) (hsep : Separate body owner) :
    (∀ i, 0 ≤ i → i < size.toInt → owner a = some i → m' a = runs (body i) m a) ∧
      ((∀ i, 0 ≤ i → i < size.toInt → owner a ≠ some i) → m' a = m a) := by
  obtain ⟨data, calls, out, hrun, hout, rfl⟩ := hloop
  obtain ⟨data', calls', hrun', -, -, hcovers⟩ := @parallel_for1_eq numThread 0 size hpos (size_fits size)
  obtain ⟨-, rfl⟩ := Prod.mk.inj (Option.some.inj (hrun.symm.trans hrun'))
  have hall := hcovers.2 _ (.flatten calls)
  have hmem (i : Int) : i ∈ calls.flatten ↔ 0 ≤ i ∧ i < size.toInt := by
    rw [← Multiset.mem_coe, hall, Multiset.mem_Ico]
    rfl
  have hnodup : calls.flatten.Nodup := by
    rw [← Multiset.coe_nodup, hall]
    exact Finset.nodup _
  refine ⟨fun i hle hlt hown => hsep.runs_own hnodup hout ((hmem i).mpr ⟨hle, hlt⟩) hown, fun hnone => ?_⟩
  exact hsep.runs_frame hnodup hout fun c hc => hnone c ((hmem c).mp hc).1 ((hmem c).mp hc).2

theorem Loop2.spec {body : Int × Int → List (Step L V)} {owner : L → Option (Int × Int)}
    (hloop : Loop2 numThread size body m m') (hpos : 0 < size) (hsep : Separate body owner) :
    (∀ i j, 0 ≤ i → i < size.toInt → 0 ≤ j → j < size.toInt → owner a = some (i, j) → m' a = runs (body (i, j)) m a) ∧
      (owner a = none → m' a = m a) := by
  obtain ⟨data, calls, out, hrun, hout, rfl⟩ := hloop
  obtain ⟨data', calls', hrun', hcovers⟩ := @parallel_for2_eq numThread 0 size 0 size hpos hpos (size_fits size)
  obtain ⟨-, rfl⟩ := Prod.mk.inj (Option.some.inj (hrun.symm.trans hrun'))
  have hall := hcovers.2 _ (.flatten calls)
  have hnodup : calls.flatten.Nodup := by
    rw [← Multiset.coe_nodup, hall]
    exact Multiset.Nodup.product (Finset.nodup _) (Finset.nodup _)
  refine ⟨fun i j hle hlt hle' hlt' hown => ?_, fun hnone => ?_⟩
  · have hmem : (i, j) ∈ calls.flatten := by
      rw [← Multiset.mem_coe, hall, Multiset.mem_product, Multiset.mem_Ico, Multiset.mem_Ico]
      exact ⟨⟨hle, hlt⟩, hle', hlt'⟩
    exact hsep.runs_own hnodup hout hmem hown
  · exact hsep.runs_frame hnodup hout fun c _ h => nomatch hnone.symm.trans h

end OsSuite.Multithreader
