import OsSuite.CInt
import OsSuite.WorkSplit

/-! The two `parallel_for` of SimpleMultithreader: how they split the range of the first index
among the threads, and the calls of the lambda that the threads make. -/

namespace OsSuite.Multithreader

open CInt

variable {δ β : Type} {numThreads base extra count current low high : Int32} {n : Nat}

structure ThreadData1 where
  low : Int32
  high : Int32

structure ThreadData2 where
  low1 : Int32
  high1 : Int32
  low2 : Int32
  high2 : Int32

def runTask1 (data : ThreadData1) : Option (List Int) :=
  forInt data.low data.high fun i => some [i.toInt]

def runTask2 (data : ThreadData2) : Option (List (Int × Int)) :=
  forInt data.low1 data.high1 fun i =>
    forInt data.low2 data.high2 fun j => some [(i.toInt, j.toInt)]

/-- The loop that gives each thread its range, for at most `n` more threads. -/
def splitLoop (numThreads base extra : Int32) (data : Int32 → Int32 → δ) :
    Nat → Int32 → Int32 → Option (List δ)
  | 0, count, _ => if count < numThreads then none else some []
  | n + 1, count, current =>
    if count < numThreads then do
      let len ← (if count < extra then add base 1 else some base)
      let x ← add current len
      let next ← add count 1
      let rest ← splitLoop numThreads base extra data n next x
      some (data current x :: rest)
    else some []

/-- The data of the threads, for the range from `low` to `high`. -/
def split (low high numThreads : Int32) (data : Int32 → Int32 → δ) : Option (List δ) := do
  let total ← sub high low
  let base ← div total numThreads
  let extra ← mod total numThreads
  splitLoop numThreads base extra data numThreads.toInt.toNat 0 low

/-- The threads' data, and the calls of each thread; nothing where an `int` overflows. -/
def parallel_for1 (low high numThreads : Int32) : Option (List ThreadData1 × List (List Int)) := do
  let numThreads := if numThreads ≤ 0 then 1 else numThreads
  if low ≥ high then some ([], [])
  else
    let data ← split low high numThreads fun begin x => ⟨begin, x⟩
    let calls ← data.mapM runTask1
    some (data, calls)

def parallel_for2 (low1 high1 low2 high2 numThreads : Int32) :
    Option (List ThreadData2 × List (List (Int × Int))) := do
  let numThreads := if numThreads ≤ 0 then 1 else numThreads
  if low1 ≥ high1 then some ([], [])
  else if low2 ≥ high2 then some ([], [])
  else
    let data ← split low1 high1 numThreads fun begin x => ⟨begin, x, low2, high2⟩
    let calls ← data.mapM runTask2
    some (data, calls)

def values (r : Int32 × Int32) : Int × Int := (r.1.toInt, r.2.toInt)

/-- What is left of the range is a `base` for each thread to come, and one more for each of
those that `extra` reaches. -/
theorem splitLoop_eq (data : Int32 → Int32 → δ) (hbase : 0 ≤ base.toInt) (hcount : 0 ≤ count.toInt)
    (hleft : count.toInt + n = numThreads.toInt) (hextra : extra.toInt ≤ numThreads.toInt)
    (hfits : high.toInt - current.toInt < 2 ^ 31)
    (hhigh : high.toInt = current.toInt + n * base.toInt + max 0 (extra.toInt - count.toInt)) :
    ∃ rs : List (Int32 × Int32), splitLoop numThreads base extra data n count current = some (rs.map fun r => data r.1 r.2) ∧
      rs.length = n ∧ Splits current.toInt (rs.map values) high.toInt ∧
      ∀ r ∈ rs, base.toInt ≤ r.2.toInt - r.1.toInt ∧ r.2.toInt - r.1.toInt ≤ base.toInt + 1 := by
  induction n generalizing count current with
  | zero =>
    have hge : ¬count < numThreads := by
      rw [Int32.lt_iff_toInt_lt]
      omega
    have hend : high.toInt = current.toInt := by
      simp only [Nat.cast_zero, zero_mul] at hhigh hleft
      omega
    refine ⟨[], if_neg hge, rfl, ?_, fun r hr => absurd hr List.not_mem_nil⟩
    rw [hend]
    exact .nil _
  | succ n ih =>
    have hlt : count < numThreads := by
      rw [Int32.lt_iff_toInt_lt]
      omega
    have hround : ((n + 1 : Nat) : Int) * base.toInt = n * base.toInt + base.toInt := by
      rw [Nat.cast_succ, add_mul, one_mul]
    have hrest : 0 ≤ (n : Int) * base.toInt := Int.mul_nonneg (Int.natCast_nonneg n) hbase
    have hhi := high.toInt_lt
    have hcurrent := current.le_toInt
    have hnum := numThreads.toInt_lt
    rw [hround] at hhigh
    -- The length of this thread's range.
    have hlen : ∃ len, (if count < extra then add base 1 else some base) = some len ∧
        len.toInt = base.toInt + if count.toInt < extra.toInt then 1 else 0 := by
      by_cases hex : count < extra
      · have hex' := Int32.lt_iff_toInt_lt.mp hex
        obtain ⟨len, hadd, hv⟩ := add_eq (x := base) (y := 1) (by rw [one_toInt]; omega)
          (by rw [one_toInt]; omega)
        exact ⟨len, by rw [if_pos hex, hadd], by rw [if_pos hex', hv, one_toInt]⟩
      · have hex' : ¬count.toInt < extra.toInt := fun h => hex (Int32.lt_iff_toInt_lt.mpr h)
        exact ⟨base, if_neg hex, by rw [if_neg hex', add_zero]⟩
    obtain ⟨len, hlenEq, hlenv⟩ := hlen
    obtain ⟨x, hx, hxv⟩ := add_eq (x := current) (y := len) (by split at hlenv <;> omega)
      (by split at hlenv <;> omega)
    obtain ⟨next, hnext, hnextv⟩ := add_eq (x := count) (y := 1) (by rw [one_toInt]; omega)
      (by rw [one_toInt]; omega)
    rw [one_toInt] at hnextv
    obtain ⟨rs, hloop, hlength, hsplits, hlens⟩ := @ih next x (by omega)
      (by omega) (by split at hlenv <;> omega) (by split at hlenv <;> omega)
    refine ⟨(current, x) :: rs, ?_, by rw [List.length_cons, hlength], .cons ?_ hsplits, fun r hr => ?_⟩
    · rw [splitLoop, if_pos hlt, hlenEq]
      change (add current len).bind _ = _
      rw [hx]
      change (add count 1).bind _ = _
      rw [hnext]
      change (splitLoop numThreads base extra data n next x).bind _ = _
      rw [hloop]
      rfl
    · change current.toInt ≤ x.toInt
      split at hlenv <;> omega
    · rcases List.mem_cons.mp hr with rfl | hr
      · dsimp only
        split at hlenv <;> omega
      · exact hlens r hr

structure Divides (rs : List (Int × Int)) (low high : Int) : Prop where
  consecutive : Splits low rs high
  within : ∀ r ∈ rs, low ≤ r.1 ∧ r.1 ≤ r.2 ∧ r.2 ≤ high
  disjoint : rs.Pairwise fun r q => Disjoint (Set.Ico r.1 r.2) (Set.Ico q.1 q.2)
  balanced : ∀ r ∈ rs, ∀ q ∈ rs, r.2 - r.1 ≤ q.2 - q.1 + 1

theorem split_eq (data : Int32 → Int32 → δ) (hnum : 0 < numThreads.toInt) (hlt : low.toInt < high.toInt)
    (hfits : high.toInt - low.toInt < 2 ^ 31) :
    ∃ rs : List (Int32 × Int32), split low high numThreads data = some (rs.map fun r => data r.1 r.2) ∧
      (rs.length : Int) = numThreads.toInt ∧ Divides (rs.map values) low.toInt high.toInt := by
  obtain ⟨total, htotal, htotalv⟩ := sub_eq (x := high) (y := low) (by omega) hfits
  obtain ⟨base, extra, hdiv, hmod, hsum, hbase, hextra, hextra'⟩ :=
    div_mod_eq (x := total) (y := numThreads) (by omega) hnum
  have hzero : (0 : Int32).toInt = 0 := rfl
  obtain ⟨rs, hloop, hlength, hsplits, hlens⟩ := @splitLoop_eq _ numThreads base extra 0 low high
    numThreads.toInt.toNat data hbase (by rw [hzero]) (by rw [hzero]; omega) hextra'.le hfits (by
      rw [hzero, Int.toNat_of_nonneg hnum.le, mul_comm]
      omega)
  refine ⟨rs, ?_, by omega, hsplits, fun r hr => hsplits.within hr, ?_, ?_⟩
  · rw [split, htotal]
    change (div total numThreads).bind _ = _
    rw [hdiv]
    change (mod total numThreads).bind _ = _
    rw [hmod]
    exact hloop
  · refine hsplits.pairwise.imp fun {r q} hle => ?_
    exact Set.disjoint_left.mpr fun v hv hv' => absurd (hv.2.trans_le hle) (not_lt.mpr hv'.1)
  · intro r hr q hq
    obtain ⟨r', hr', rfl⟩ := List.mem_map.mp hr
    obtain ⟨q', hq', rfl⟩ := List.mem_map.mp hq
    have hrlen := hlens r' hr'
    have hqlen := hlens q' hq'
    simp only [values]
    omega

/-- The threads come to their end, and in whatever order they take turns, the calls they make
are those of `s`. -/
def Covers (calls : List (List β)) (s : Multiset β) : Prop :=
  (∃ out, Interleaving calls out) ∧ ∀ out, Interleaving calls out → (out : Multiset β) = s

/-- Workers that make the calls of `g` at each number of their range make them at each number
of the whole. -/
theorem mapM_covers {rs : List (Int32 × Int32)} {data : Int32 → Int32 → δ}
    {task : δ → Option (List β)} {g : Int → Multiset β} {a b : Int}
    (htask : ∀ begin x, ∃ l, task (data begin x) = some l ∧
      (l : Multiset β) = (Multiset.Ico begin.toInt x.toInt).bind g)
    (hsplits : Splits a (rs.map values) b) :
    ∃ calls, (rs.map fun r => data r.1 r.2).mapM task = some calls ∧
      Covers calls ((Multiset.Ico a b).bind g) := by
  have hcalls : ∃ calls, (rs.map fun r => data r.1 r.2).mapM task = some calls ∧
      (calls.flatten : Multiset β) =
        ((rs.map values).map fun r => Multiset.Ico r.1 r.2).sum.bind g := by
    clear hsplits
    induction rs with
    | nil => exact ⟨[], rfl, rfl⟩
    | cons r rs ih =>
      obtain ⟨l, hl, hlv⟩ := htask r.1 r.2
      obtain ⟨calls, hcalls, hv⟩ := ih
      refine ⟨l :: calls, ?_, ?_⟩
      · rw [List.map_cons, List.mapM_cons, hl]
        change (List.mapM task (rs.map fun r => data r.1 r.2)).bind _ = _
        rw [hcalls]
        rfl
      · rw [List.flatten_cons, ← Multiset.coe_add, hlv, hv, List.map_cons, List.map_cons,
          List.sum_cons, Multiset.add_bind]
        rfl
  obtain ⟨calls, hcalls, hv⟩ := hcalls
  refine ⟨calls, hcalls, ⟨_, .flatten calls⟩, fun out hout => ?_⟩
  rw [Multiset.coe_eq_coe.mpr hout.perm, hv, hsplits.sum_Ico]

theorem runTask1_eq (begin x : Int32) : ∃ l, runTask1 ⟨begin, x⟩ = some l ∧
    (l : Multiset Int) = (Multiset.Ico begin.toInt x.toInt).bind fun i => {i} :=
  forInt_eq fun i _ => ⟨[i.toInt], rfl, rfl⟩

theorem runTask2_eq (low2 high2 begin x : Int32) : ∃ l, runTask2 ⟨begin, x, low2, high2⟩ = some l ∧
    (l : Multiset (Int × Int)) = (Multiset.Ico begin.toInt x.toInt).bind fun i =>
      (Multiset.Ico low2.toInt high2.toInt).bind fun j => {(i, j)} :=
  forInt_eq fun _ _ => forInt_eq fun _ _ => ⟨_, rfl, rfl⟩

theorem threads_pos (numThreads : Int32) :
    (if numThreads ≤ 0 then 1 else numThreads).toInt = max 1 numThreads.toInt := by
  have hle : numThreads ≤ 0 ↔ numThreads.toInt ≤ 0 := Int32.le_iff_toInt_le
  split
  · rename_i h
    have h' := hle.mp h
    rw [one_toInt]
    omega
  · rename_i h
    have h' : ¬numThreads.toInt ≤ 0 := fun hc => h (hle.mpr hc)
    omega

theorem parallel_for1_eq (hlt : low < high) (hfits : high.toInt - low.toInt < 2 ^ 31) :
    ∃ data calls, parallel_for1 low high numThreads = some (data, calls) ∧
      (data.length : Int) = max 1 numThreads.toInt ∧
      Divides (data.map fun d => (d.low.toInt, d.high.toInt)) low.toInt high.toInt ∧
      Covers calls (Multiset.Ico low.toInt high.toInt) := by
  have hnum := threads_pos numThreads
  obtain ⟨rs, hsplit, hlength, hdivides⟩ := split_eq (fun begin x => (⟨begin, x⟩ : ThreadData1))
    (by rw [hnum]; omega) (Int32.lt_iff_toInt_lt.mp hlt) hfits
  obtain ⟨calls, hcalls, hcovers⟩ := mapM_covers runTask1_eq hdivides.consecutive
  rw [Multiset.bind_singleton, Multiset.map_id'] at hcovers
  refine ⟨rs.map fun r => ⟨r.1, r.2⟩, calls, ?_, by rw [List.length_map, hlength, hnum], ?_, hcovers⟩
  · rw [parallel_for1]
    rw [if_neg (Int32.not_le.mpr hlt), hsplit]
    change (List.mapM runTask1 _).bind _ = _
    rw [hcalls]
    rfl
  · rw [List.map_map]
    exact hdivides

theorem parallel_for2_eq {low1 high1 low2 high2 : Int32} (hlt : low1 < high1) (hlt2 : low2 < high2)
    (hfits : high1.toInt - low1.toInt < 2 ^ 31) :
    ∃ data calls, parallel_for2 low1 high1 low2 high2 numThreads = some (data, calls) ∧
      Covers calls (Multiset.Ico low1.toInt high1.toInt ×ˢ Multiset.Ico low2.toInt high2.toInt) := by
  obtain ⟨rs, hsplit, -, hdivides⟩ := split_eq
    (fun begin x => (⟨begin, x, low2, high2⟩ : ThreadData2))
    (by rw [threads_pos numThreads]; omega) (Int32.lt_iff_toInt_lt.mp hlt) hfits
  obtain ⟨calls, hcalls, hcovers⟩ := mapM_covers (runTask2_eq low2 high2) hdivides.consecutive
  simp only [Multiset.bind_singleton] at hcovers
  refine ⟨rs.map fun r => ⟨r.1, r.2, low2, high2⟩, calls, ?_, hcovers⟩
  rw [parallel_for2]
  rw [if_neg (Int32.not_le.mpr hlt), if_neg (Int32.not_le.mpr hlt2), hsplit]
  change (List.mapM runTask2 _).bind _ = _
  rw [hcalls]
  rfl

/-- Both `parallel_for` call the lambda once for each element of the iteration space. -/
theorem parallel_for_covers :
    (∀ low high numThreads : Int32, low < high → high.toInt - low.toInt < 2 ^ 31 →
      ∃ data calls, parallel_for1 low high numThreads = some (data, calls) ∧
        (data.length : Int) = max 1 numThreads.toInt ∧
        Divides (data.map fun d => (d.low.toInt, d.high.toInt)) low.toInt high.toInt ∧
        Covers calls (Multiset.Ico low.toInt high.toInt)) ∧
    (∀ low1 high1 low2 high2 numThreads : Int32, low1 < high1 → low2 < high2 →
      high1.toInt - low1.toInt < 2 ^ 31 →
      ∃ data calls, parallel_for2 low1 high1 low2 high2 numThreads = some (data, calls) ∧
        Covers calls (Multiset.Ico low1.toInt high1.toInt ×ˢ Multiset.Ico low2.toInt high2.toInt)) ∧
    (∀ low high numThreads : Int32, high ≤ low → parallel_for1 low high numThreads = some ([], [])) ∧
    (∀ low1 high1 low2 high2 numThreads : Int32, high1 ≤ low1 ∨ high2 ≤ low2 →
      parallel_for2 low1 high1 low2 high2 numThreads = some ([], [])) := by
  refine ⟨fun _ _ _ hlt hfits => parallel_for1_eq hlt hfits,
    fun _ _ _ _ _ hlt hlt2 hfits => parallel_for2_eq hlt hlt2 hfits, fun _ _ _ hle => if_pos hle, ?_⟩
  intro low1 high1 low2 high2 numThreads hempty
  rw [parallel_for2]
  by_cases hle : high1 ≤ low1
  · exact if_pos hle
  · rw [if_neg hle]
    exact if_pos (hempty.resolve_left hle)

/-- More threads than numbers, some of them negative. -/
theorem parallel_for_covers_sample : ∃ data calls, parallel_for1 (-2) 1 5 = some (data, calls) ∧
    data.length = 5 ∧ Covers calls (Multiset.Ico (-2) 1) := by
  obtain ⟨data, calls, hrun, hlength, -, hcovers⟩ := parallel_for_covers.1 (-2) 1 5 (by decide) (by decide)
  exact ⟨data, calls, hrun, Int.ofNat_inj.mp hlength, hcovers⟩

end OsSuite.Multithreader
