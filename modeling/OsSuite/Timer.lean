import OsSuite.IdentityMap
import OsSuite.Process
import OsSuite.Words

/-! The timer of the earth layer. Its counter and its comparators have 64 bits, and the code
reaches them by registers of 32. -/

namespace OsSuite.Earth

def clintBase : Platform → UInt32
  | .qemu => 0x02000000
  | .hardware => 0xF0010000

def mtimecmpBase (platform : Platform) : UInt32 := clintBase platform + 0x4000

def quantum : Platform → UInt64
  | .qemu => 100000
  | .hardware => 50000000

/-- `REGW(MTIME_BASE, 4)`, when the counter is at `t`. -/
def mtimeHigh (t : UInt64) : UInt32 := (t >>> 32).toUInt32

/-- `REGW(MTIME_BASE, 0)`. -/
def mtimeLow (t : UInt64) : UInt32 := t.toUInt32

/-- The value and the number of register reads that have been made by then, of which `n` before.
Read number `n` finds the counter at `counter n`. -/
def mtimeGet (counter : Nat → UInt64) : Nat → Nat → Option (UInt64 × Nat)
  | 0, _ => none
  | rounds + 1, n =>
    let high := mtimeHigh (counter n)
    let low := mtimeLow (counter (n + 1))
    if mtimeHigh (counter (n + 2)) ≠ high then mtimeGet counter rounds (n + 3)
    else some (high.toUInt64 <<< 32 ||| low.toUInt64, n + 3)

/-- The registers of the comparators, by their addresses. -/
abbrev Registers := UInt32 → UInt32

def regw (regs : Registers) (store : UInt32 × UInt32) : Registers := Function.update regs store.1 store.2

/-- The stores of `mtimecmp_set`, in their order. -/
def mtimecmpStores (platform : Platform) (time : UInt64) (coreId : UInt32) : List (UInt32 × UInt32) :=
  [(mtimecmpBase platform + (coreId * 8 + 4), 0xFFFFFFFF),
    (mtimecmpBase platform + (coreId * 8 + 0), time.toUInt32),
    (mtimecmpBase platform + (coreId * 8 + 4), (time >>> 32).toUInt32)]

def mtimecmpSet (platform : Platform) (regs : Registers) (time : UInt64) (coreId : UInt32) : Registers :=
  (mtimecmpStores platform time coreId).foldl regw regs

/-- The registers after each of the stores. -/
def mtimecmpStates (platform : Platform) (regs : Registers) (time : UInt64) (coreId : UInt32) :
    List Registers :=
  ((mtimecmpStores platform time coreId).scanl regw regs).tail

def timerReset (platform : Platform) (counter : Nat → UInt64) (rounds n : Nat) (regs : Registers)
    (coreId : UInt32) : Option (Registers × Nat) := do
  let (now, n) ← mtimeGet counter rounds n
  return (mtimecmpSet platform regs (now + quantum platform) coreId, n)

/-- The comparator of a core, as the hardware has it. -/
def mtimecmp (platform : Platform) (regs : Registers) (coreId : UInt32) : UInt64 :=
  Words.ofHalves (regs (mtimecmpBase platform + (coreId * 8 + 4))) (regs (mtimecmpBase platform + (coreId * 8 + 0)))

def Due (platform : Platform) (regs : Registers) (coreId : UInt32) (now : UInt64) : Prop :=
  mtimecmp platform regs coreId ≤ now

section MtimeGet

variable {counter : Nat → UInt64} {rounds n stop : Nat} {value : UInt64}

theorem mtimeHigh_mono {t u : UInt64} (h : t ≤ u) : (mtimeHigh t).toNat ≤ (mtimeHigh u).toNat := by
  rw [mtimeHigh, mtimeHigh, Words.high_toNat, Words.high_toNat]
  exact Nat.div_le_div_right (UInt64.le_iff_toNat_le.mp h)

/-- A round that ends the loop has read both halves of one value of the counter. -/
theorem round_untorn {t u v : UInt64} (htu : t ≤ u) (huv : u ≤ v) (hhigh : mtimeHigh v = mtimeHigh t) :
    (mtimeHigh t).toUInt64 <<< 32 ||| (mtimeLow u).toUInt64 = u := by
  have hlow := mtimeHigh_mono htu
  have hupper := mtimeHigh_mono huv
  have hsame : mtimeHigh t = mtimeHigh u := by
    rw [hhigh] at hupper
    exact UInt32.toNat_inj.mp (Nat.le_antisymm hlow hupper)
  rw [hsame]
  exact Words.ofHalves_halves u

/-- A round that does not end the loop has seen a carry. -/
theorem high_lt {t v w : UInt64} (htv : t ≤ v) (hvw : v ≤ w) (hhigh : mtimeHigh v ≠ mtimeHigh t) :
    (mtimeHigh t).toNat < (mtimeHigh w).toNat := by
  have hne : (mtimeHigh v).toNat ≠ (mtimeHigh t).toNat := mt UInt32.toNat_inj.mp hhigh
  have hlow := mtimeHigh_mono htv
  have hupper := mtimeHigh_mono hvw
  omega

theorem mtimeGet_untorn (hmono : ∀ m n, m ≤ n → counter m ≤ counter n)
    (h : mtimeGet counter rounds n = some (value, stop)) :
    value = counter (stop - 2) ∧ n + 3 ≤ stop := by
  induction rounds generalizing n with
  | zero => cases h
  | succ rounds ih =>
    rw [mtimeGet] at h
    by_cases hhigh : mtimeHigh (counter (n + 2)) = mtimeHigh (counter n)
    · rw [if_neg (not_not.mpr hhigh)] at h
      cases h
      exact ⟨round_untorn (hmono _ _ (by omega)) (hmono _ _ (by omega)) hhigh, le_rfl⟩
    · rw [if_pos hhigh] at h
      obtain ⟨hvalue, hstop⟩ := ih h
      exact ⟨hvalue, by omega⟩

/-- There are no more rounds than values of the high half are left. -/
theorem mtimeGet_returns (hmono : ∀ m n, m ≤ n → counter m ≤ counter n)
    (hrounds : 2 ^ 32 ≤ rounds + (mtimeHigh (counter n)).toNat) : (mtimeGet counter rounds n).isSome = true := by
  induction rounds generalizing n with
  | zero =>
    have hlt := (mtimeHigh (counter n)).toNat_lt
    omega
  | succ rounds ih =>
    rw [mtimeGet]
    by_cases hhigh : mtimeHigh (counter (n + 2)) = mtimeHigh (counter n)
    · rw [if_neg (not_not.mpr hhigh)]
      rfl
    · rw [if_pos hhigh]
      apply ih
      have hcarry := high_lt (hmono n (n + 2) (by omega)) (hmono _ (n + 3) (by omega)) hhigh
      omega

end MtimeGet

section MtimecmpSet

variable {platform : Platform} {regs regs' : Registers} {coreId : UInt32} {time now : UInt64}

theorem high_ne_low (platform : Platform) (coreId : UInt32) :
    mtimecmpBase platform + (coreId * 8 + 4) ≠ mtimecmpBase platform + (coreId * 8 + 0) := by
  intro h
  have hoffsets := UInt32.add_right_inj _ |>.mp h
  have hfour := UInt32.add_right_inj _ |>.mp hoffsets
  cases hfour

theorem mtimecmp_high (regs : Registers) (w : UInt32) :
    mtimecmp platform (regw regs (mtimecmpBase platform + (coreId * 8 + 4), w)) coreId =
      Words.ofHalves w (regs (mtimecmpBase platform + (coreId * 8 + 0))) := by
  rw [mtimecmp, regw, Function.update_self, Function.update_of_ne (high_ne_low platform coreId).symm]

theorem mtimecmp_low (regs : Registers) (w : UInt32) :
    mtimecmp platform (regw regs (mtimecmpBase platform + (coreId * 8 + 0), w)) coreId =
      Words.ofHalves (regs (mtimecmpBase platform + (coreId * 8 + 4))) w := by
  rw [mtimecmp, regw, Function.update_self, Function.update_of_ne (high_ne_low platform coreId)]

theorem le_ofHalves (htime : time < 0xFFFFFFFF00000000) (low : UInt32) :
    time ≤ Words.ofHalves 0xFFFFFFFF low := by
  have hlimit : (0xFFFFFFFF00000000 : UInt64).toNat = 0xFFFFFFFF * 2 ^ 32 := rfl
  have hones : (0xFFFFFFFF : UInt32).toNat = 0xFFFFFFFF := rfl
  rw [UInt64.lt_iff_toNat_lt, hlimit] at htime
  rw [UInt64.le_iff_toNat_le, Words.ofHalves_toNat, hones]
  omega

theorem mtimecmp_set (platform : Platform) (regs : Registers) (time : UInt64) (coreId : UInt32) :
    mtimecmp platform (mtimecmpSet platform regs time coreId) coreId = time := by
  simp only [mtimecmpSet, mtimecmpStores, List.foldl_cons, List.foldl_nil, mtimecmp_high]
  rw [regw, Function.update_self]
  exact Words.ofHalves_halves time

/-- The first store puts the comparator behind every deadline, the second keeps the high half. -/
theorem le_mtimecmp (htime : time < 0xFFFFFFFF00000000)
    (hmem : regs' ∈ mtimecmpStates platform regs time coreId) : time ≤ mtimecmp platform regs' coreId := by
  simp only [mtimecmpStates, mtimecmpStores, List.scanl_cons, List.scanl_nil, List.tail_cons, List.mem_cons,
    List.not_mem_nil, or_false] at hmem
  rcases hmem with rfl | rfl | rfl
  · rw [mtimecmp_high]
    exact le_ofHalves htime _
  · rw [mtimecmp_low, regw, Function.update_self]
    exact le_ofHalves htime _
  · change time ≤ mtimecmp platform (mtimecmpSet platform regs time coreId) coreId
    rw [mtimecmp_set]
    exact UInt64.le_refl time

theorem not_due (h : time ≤ mtimecmp platform regs coreId) (hnow : now < time) :
    ¬Due platform regs coreId now := by
  intro hdue
  rw [Due, UInt64.le_iff_toNat_le] at hdue
  rw [UInt64.le_iff_toNat_le] at h
  rw [UInt64.lt_iff_toNat_lt] at hnow
  omega

theorem mtimecmp_other {other : UInt32} (hcore : coreId.toNat < 2 ^ 29) (hother : other.toNat < 2 ^ 29)
    (hne : other ≠ coreId) :
    mtimecmp platform (mtimecmpSet platform regs time coreId) other = mtimecmp platform regs other := by
  have hne : other.toNat ≠ coreId.toNat := mt UInt32.toNat_inj.mp hne
  have height : (8 : UInt32).toNat = 8 := rfl
  have hfour : (4 : UInt32).toNat = 4 := rfl
  have hapart : ∀ i j : UInt32, i.toNat < 8 → j.toNat < 8 →
      mtimecmpBase platform + (other * 8 + i) ≠ mtimecmpBase platform + (coreId * 8 + j) := by
    intro i j hi hj h
    have hoffsets := congrArg UInt32.toNat (UInt32.add_right_inj _ |>.mp h)
    rw [UInt32.toNat_add, UInt32.toNat_add, UInt32.toNat_mul, UInt32.toNat_mul, height] at hoffsets
    omega
  have hkeep : ∀ i : UInt32, i.toNat < 8 →
      mtimecmpSet platform regs time coreId (mtimecmpBase platform + (other * 8 + i)) =
        regs (mtimecmpBase platform + (other * 8 + i)) := by
    intro i hi
    simp only [mtimecmpSet, mtimecmpStores, List.foldl_cons, List.foldl_nil, regw]
    rw [Function.update_of_ne (hapart i 4 hi (by decide)), Function.update_of_ne (hapart i 0 hi (by decide)),
      Function.update_of_ne (hapart i 4 hi (by decide))]
  rw [mtimecmp, mtimecmp, hkeep 4 (by decide), hkeep 0 (by decide)]

end MtimecmpSet

/-- `mtime_get` returns, with the value that the counter had at its last read of the low half, which
is the last read of all but one, and `mtimecmp_set` never puts the comparator before the deadline. -/
theorem timer_untorn (platform : Platform) (coreId : UInt32) :
    (∀ counter : Nat → UInt64, (∀ m n, m ≤ n → counter m ≤ counter n) → ∀ n,
      (∃ rounds, (mtimeGet counter rounds n).isSome = true) ∧
      ∀ rounds value stop, mtimeGet counter rounds n = some (value, stop) → value = counter (stop - 2)) ∧
    ∀ (regs : Registers) (time : UInt64), time < 0xFFFFFFFF00000000 →
      (∀ regs' ∈ mtimecmpStates platform regs time coreId,
        time ≤ mtimecmp platform regs' coreId ∧ ∀ now < time, ¬Due platform regs' coreId now) ∧
      (mtimecmpStates platform regs time coreId).getLast? = some (mtimecmpSet platform regs time coreId) ∧
      mtimecmp platform (mtimecmpSet platform regs time coreId) coreId = time := by
  constructor
  · intro counter hmono n
    refine ⟨⟨2 ^ 32, mtimeGet_returns hmono (Nat.le_add_right _ _)⟩, ?_⟩
    intro rounds value stop h
    exact (mtimeGet_untorn hmono h).1
  · intro regs time htime
    refine ⟨?_, rfl, mtimecmp_set platform regs time coreId⟩
    intro regs' hmem
    have hle := le_mtimecmp htime hmem
    exact ⟨hle, fun now hnow => not_due hle hnow⟩

/-- A carry between the first read of the high half and the last. -/
def carry (n : Nat) : UInt64 := if n < 2 then 0xFFFFFFFF else 0x100000000

theorem carry_mono (m n : Nat) (h : m ≤ n) : carry m ≤ carry n := by
  by_cases hn : n < 2
  · have hm : m < 2 := by omega
    simp [carry, hm, hn]
  · by_cases hm : m < 2 <;> simp [carry, hm, hn]

theorem timer_untorn_sample : mtimeGet carry 2 0 = some (0x100000000, 6) ∧ (0x100000000 : UInt64) = carry 4 ∧
    mtimecmp .qemu (mtimecmpSet .qemu (fun _ => 7) 0x1000186A0 1) 1 = 0x1000186A0 := by
  obtain ⟨hget, hset⟩ := timer_untorn .qemu 1
  have hread : mtimeGet carry 2 0 = some (0x100000000, 6) := by decide
  exact ⟨hread, (hget carry carry_mono 0).2 2 _ 6 hread, (hset (fun _ => 7) 0x1000186A0 (by decide)).2.2⟩

/-- The timer of a core is set a quantum after the time of the reset, at which it is not due. -/
theorem timerReset_sets {platform : Platform} {counter : Nat → UInt64} {rounds n stop : Nat}
    {regs regs' : Registers} {coreId : UInt32} (hmono : ∀ m n, m ≤ n → counter m ≤ counter n)
    (h : timerReset platform counter rounds n regs coreId = some (regs', stop)) :
    mtimecmp platform regs' coreId = counter (stop - 2) + quantum platform := by
  rw [timerReset] at h
  cases hget : mtimeGet counter rounds n with
  | none =>
    rw [hget] at h
    cases h
  | some r =>
    obtain ⟨now, k⟩ := r
    rw [hget] at h
    cases h
    rw [mtimecmp_set, (mtimeGet_untorn hmono hget).1]

/-- Calls of `mtime_get` one after the other give these results. -/
def Readings (counter mtime : Nat → UInt64) : Prop :=
  ∃ start : Nat → Nat, ∀ k, ∃ rounds stop,
    mtimeGet counter rounds (start k) = some (mtime k, stop) ∧ stop ≤ start (k + 1)

/-- The clock of the kernel does not go back, and is positive when the counter is. -/
theorem Readings.clock {counter : Nat → UInt64} {env : Grass.Env}
    (hmono : ∀ m n, m ≤ n → counter m ≤ counter n) (h : Readings counter env.mtime) :
    (∀ m n, m ≤ n → env.mtime m ≤ env.mtime n) ∧ ((∀ n, 0 < counter n) → ∀ n, 0 < env.mtime n) := by
  obtain ⟨start, hcalls⟩ := h
  have hstep : ∀ k, env.mtime k ≤ env.mtime (k + 1) := by
    intro k
    obtain ⟨rounds, stop, hget, hstop⟩ := hcalls k
    obtain ⟨rounds', stop', hget', -⟩ := hcalls (k + 1)
    obtain ⟨hvalue, -⟩ := mtimeGet_untorn hmono hget
    obtain ⟨hvalue', hlater⟩ := mtimeGet_untorn hmono hget'
    rw [hvalue, hvalue']
    exact hmono _ _ (by omega)
  constructor
  · intro m n hmn
    induction n, hmn using Nat.le_induction with
    | base => exact UInt64.le_refl _
    | succ n _ ih => exact UInt64.le_trans ih (hstep n)
  · intro hpos n
    obtain ⟨rounds, stop, hget, -⟩ := hcalls n
    rw [(mtimeGet_untorn hmono hget).1]
    exact hpos _

/-- Every counter that does not go back has such readings. -/
theorem exists_readings {counter : Nat → UInt64} (hmono : ∀ m n, m ≤ n → counter m ≤ counter n) :
    ∃ mtime, Readings counter mtime := by
  have hreturns : ∀ n, ∃ r, mtimeGet counter (2 ^ 32) n = some r := fun n =>
    Option.isSome_iff_exists.mp (mtimeGet_returns hmono (Nat.le_add_right _ _))
  choose r hr using hreturns
  let start := fun k => (fun n => (r n).2)^[k] 0
  refine ⟨fun k => (r (start k)).1, start, fun k => ⟨2 ^ 32, (r (start k)).2, hr _, ?_⟩⟩
  have hnext : start (k + 1) = (r (start k)).2 := Function.iterate_succ_apply' _ k 0
  exact hnext.ge

end OsSuite.Earth
