import OsSuite.Mlfq

/-! `mlfq_reset_level` brings a process back to level 0 with what is left of its budget. Only a
process that has not been charged for any time gets the budget of a new one. -/

namespace OsSuite.Grass

open Earth (Pid)

/-- The MLFQ state of a process. -/
@[ext]
structure Budget where
  level : Nat
  remaining : UInt64
  used : UInt64
  deriving DecidableEq

def Process.budget (p : Process) : Budget :=
  ⟨p.mlfqLevel, p.remainingtOnlevel, p.currentLevelRuntime⟩

namespace Budget

def fresh : Budget := ⟨0, mlfqLevelRuntime 0, 0⟩

def charge (b : Budget) (runtime : UInt64) : Budget :=
  if b.remaining - runtime ≤ 0 then
    let level := if b.level < mlfqNlevels - 1 then b.level + 1 else b.level
    ⟨level, mlfqLevelRuntime level, 0⟩
  else ⟨b.level, b.remaining - runtime, b.used + runtime⟩

end Budget

@[simp] theorem budget_claim (p : Process) (pid : Pid) (time : UInt64) :
    (p.claim pid time).budget = .fresh := rfl

@[simp] theorem budget_update (p : Process) (r : UInt64) :
    (mlfqUpdateLevel p r).budget = p.budget.charge r := by
  unfold mlfqUpdateLevel Budget.charge Process.budget
  dsimp only
  split <;> rfl

theorem budget_charges (p : Process) (rs : List UInt64) :
    (p.charges rs).budget = rs.foldl Budget.charge p.budget := by
  induction rs generalizing p with
  | nil => rfl
  | cons r rs ih =>
    change ((mlfqUpdateLevel p r).charges rs).budget = _
    rw [ih, budget_update]
    rfl

/-- The sum of the charges, as an unsigned number. -/
def chargeSum (rs : List UInt64) : UInt64 := rs.foldl (· + ·) 0

/-- The charges sum to nothing, and the budget of level 0 is not used up on the way. -/
def Unspent (rs : List UInt64) : Prop :=
  chargeSum rs = 0 ∧ ∀ rs', rs' <+: rs → chargeSum rs' ≠ mlfqLevelRuntime 0

theorem chargeSum_snoc (rs : List UInt64) (r : UInt64) : chargeSum (rs ++ [r]) = chargeSum rs + r := by
  unfold chargeSum
  rw [List.foldl_append]
  rfl

theorem sub_le_zero_iff {x y : UInt64} : x - y ≤ 0 ↔ x = y := by
  rw [le_zero_iff]
  constructor
  · intro h
    have hzero : x - y = 0 := UInt64.toNat_inj.mp h
    exact sub_eq_zero.mp hzero
  · rintro rfl
    rw [sub_self]
    rfl

namespace Budget

variable {b : Budget} {rs : List UInt64} {r : UInt64}

/-- The budget of level 0 lasts, and the rest of it is left. -/
def First (b : Budget) (rs : List UInt64) : Prop :=
  (∀ rs', rs' <+: rs → chargeSum rs' ≠ mlfqLevelRuntime 0) ∧
    b = ⟨0, mlfqLevelRuntime 0 - chargeSum rs, chargeSum rs⟩

/-- A budget that `mlfq_update_level` gave when the one before was used up: never that of level 0. -/
def Refilled (b : Budget) : Prop :=
  b.level ≤ 4 ∧ ∃ level, 1 ≤ level ∧ level ≤ 4 ∧ b.remaining + b.used = mlfqLevelRuntime level

theorem First.reset (h : b.First rs) : First { b with level := 0 } rs := by
  obtain ⟨hfirst, rfl⟩ := h
  exact ⟨hfirst, rfl⟩

theorem First.charge (h : b.First rs) (hspare : chargeSum (rs ++ [r]) ≠ mlfqLevelRuntime 0) :
    (b.charge r).First (rs ++ [r]) := by
  obtain ⟨hfirst, rfl⟩ := h
  rw [chargeSum_snoc] at hspare
  have hleft : ¬mlfqLevelRuntime 0 - chargeSum rs - r ≤ 0 := by
    rw [sub_le_zero_iff, sub_eq_iff_eq_add, UInt64.add_comm]
    exact hspare.symm
  refine ⟨fun rs' hrs' => ?_, ?_⟩
  · rcases List.prefix_concat_iff.mp hrs' with rfl | hrs'
    · rw [chargeSum_snoc]
      exact hspare
    · exact hfirst rs' hrs'
  · rw [Budget.charge, if_neg hleft, chargeSum_snoc, sub_sub]

theorem First.spent (h : b.First rs) (hspent : chargeSum (rs ++ [r]) = mlfqLevelRuntime 0) :
    (b.charge r).Refilled := by
  obtain ⟨-, rfl⟩ := h
  rw [chargeSum_snoc] at hspent
  have hout : mlfqLevelRuntime 0 - chargeSum rs - r ≤ 0 := by
    rw [sub_le_zero_iff, sub_eq_iff_eq_add, UInt64.add_comm]
    exact hspent.symm
  rw [Budget.charge, if_pos hout]
  exact ⟨show 1 ≤ 4 by decide, 1, le_rfl, by decide, UInt64.add_zero _⟩

theorem Refilled.charge (h : b.Refilled) (r : UInt64) : (b.charge r).Refilled := by
  obtain ⟨hlevel, l, h1, h4, hsum⟩ := h
  unfold Budget.charge
  dsimp only
  split
  · by_cases hlow : b.level < mlfqNlevels - 1
    · rw [if_pos hlow]
      have hlow' : b.level < 4 := hlow
      exact ⟨by change b.level + 1 ≤ 4; omega, b.level + 1, by omega, by omega, UInt64.add_zero _⟩
    · rw [if_neg hlow]
      have hlow' : ¬b.level < 4 := hlow
      exact ⟨hlevel, b.level, by omega, hlevel, UInt64.add_zero _⟩
  · refine ⟨hlevel, l, h1, h4, ?_⟩
    change b.remaining - r + (b.used + r) = _
    rw [← hsum, UInt64.add_comm b.used, ← UInt64.add_assoc, UInt64.sub_add_cancel]

theorem Refilled.not_fresh (h : b.Refilled) : ¬(b.remaining = mlfqLevelRuntime 0 ∧ b.used = 0) := by
  rintro ⟨hremaining, hused⟩
  obtain ⟨-, l, h1, h4, hsum⟩ := h
  rw [hremaining, hused, UInt64.add_zero] at hsum
  have hvalue := congrArg UInt64.toNat hsum
  rw [mlfqLevelRuntime_toNat (Nat.zero_le 4), mlfqLevelRuntime_toNat h4] at hvalue
  simp only [allowance] at hvalue
  omega

end Budget

namespace Kernel

/-- The processes that `mlfq_reset_level` resets: the shell, when a key waits to be read, and all
of them when the period is over. -/
def Resets (env : Env) (k : Kernel) (i : Slot) : Prop :=
  env.ttyInputEmpty k.ttyReads = false ∧
      scannedSlots.find? (fun i => (k.procSet i).pid = gpidShell) = some i ∨
    k.mtimeGet env - k.lastResetTime (k.mtimeGet env) ≥ mlfqResetPeriod ∧ i.val < maxNprocess ∧
      (k.procSet i).status ≠ .unused

theorem resetShell_slot (env : Env) (k : Kernel) (i : Slot) :
    (k.resetShell env).procSet i =
      if env.ttyInputEmpty k.ttyReads = false ∧
          scannedSlots.find? (fun i => (k.procSet i).pid = gpidShell) = some i then
        { k.procSet i with mlfqLevel := 0 }
      else k.procSet i := by
  unfold resetShell
  dsimp only
  cases hempty : env.ttyInputEmpty k.ttyReads with
  | true => rw [if_pos rfl, if_neg nofun]
  | false =>
    rw [if_neg (by decide)]
    cases hfind : scannedSlots.find? fun i => (k.procSet i).pid = gpidShell with
    | none => rw [if_neg nofun]
    | some j =>
      by_cases hij : i = j
      · rw [hij, if_pos ⟨rfl, rfl⟩]
        exact set_self _ _ _
      · rw [if_neg fun h => hij (Option.some.inj h.2).symm]
        exact set_of_ne _ _ hij

theorem resetShell_clock (env : Env) (k : Kernel) :
    (k.resetShell env).mtimeReads = k.mtimeReads ∧
      (k.resetShell env).mlfqLastResetTime = k.mlfqLastResetTime := by
  unfold resetShell
  dsimp only
  split
  · exact ⟨rfl, rfl⟩
  · split <;> exact ⟨rfl, rfl⟩

theorem resetShell_status (env : Env) (k : Kernel) (i : Slot) :
    ((k.resetShell env).procSet i).status = (k.procSet i).status := by
  rw [resetShell_slot]
  split <;> rfl

/-- A reset sets the level of the processes that it resets, and changes nothing else. -/
theorem mlfqResetLevel_slot (env : Env) (k : Kernel) (i : Slot) :
    (k.Resets env i → (k.mlfqResetLevel env).procSet i = { k.procSet i with mlfqLevel := 0 }) ∧
      (¬k.Resets env i → (k.mlfqResetLevel env).procSet i = k.procSet i) := by
  obtain ⟨hreads, hlast⟩ := resetShell_clock env k
  have htime : (k.resetShell env).mtimeGet env = k.mtimeGet env := by
    rw [mtimeGet, mtimeGet, hreads]
  have hperiod : (k.resetShell env).lastResetTime (k.mtimeGet env) = k.lastResetTime (k.mtimeGet env) := by
    rw [lastResetTime, lastResetTime, hlast]
  have hshell := resetShell_slot env k i
  have hstatus := resetShell_status env k i
  unfold mlfqResetLevel
  dsimp only
  rw [htime, hperiod]
  by_cases helapsed : k.mtimeGet env - k.lastResetTime (k.mtimeGet env) ≥ mlfqResetPeriod
  · rw [if_pos helapsed]
    have hall : ∀ q, { (k.resetShell env).mtimeRead.resetAll with mlfqLastResetTime := q }.procSet i =
        if i.val < maxNprocess ∧ (k.procSet i).status ≠ .unused then
          { (k.resetShell env).procSet i with mlfqLevel := 0 }
        else (k.resetShell env).procSet i := by
      intro q
      rw [← hstatus]
      rfl
    rw [hall, hshell]
    constructor
    · rintro (hkey | ⟨-, hlive⟩)
      · rw [if_pos hkey]
        split <;> rfl
      · rw [if_pos hlive]
        split <;> rfl
    · intro hnot
      rw [if_neg fun hlive => hnot (Or.inr ⟨helapsed, hlive⟩), if_neg fun hkey => hnot (Or.inl hkey)]
  · rw [if_neg helapsed]
    change (_ → (k.resetShell env).procSet i = _) ∧ (_ → (k.resetShell env).procSet i = _)
    rw [hshell]
    constructor
    · rintro (hkey | ⟨h, -⟩)
      · exact if_pos hkey
      · exact absurd h helapsed
    · exact fun hnot => if_neg fun hkey => hnot (Or.inl hkey)

/-- What slot `i` has been charged since `proc_alloc` filled it, with resets and whatever else the
kernel does to its process in between. -/
inductive Charged (i : Slot) : Kernel → List UInt64 → Prop where
  | alloc {k : Kernel} (p : Process) (pid : Pid) (time : UInt64) (h : k.procSet i = p.claim pid time) :
    Charged i k []
  | update {k : Kernel} {rs : List UInt64} (h : Charged i k rs) (r : UInt64) :
    Charged i (k.set i (mlfqUpdateLevel (k.procSet i) r)) (rs ++ [r])
  | reset {k : Kernel} {rs : List UInt64} (h : Charged i k rs) (env : Env) :
    Charged i (k.mlfqResetLevel env) rs
  | other {k k' : Kernel} {rs : List UInt64} (h : Charged i k rs)
    (hsame : (k'.procSet i).budget = (k.procSet i).budget) : Charged i k' rs

/-- As long as the budget of level 0 lasts, a process has the rest of it; later its budget is that
of a lower level, whatever resets there are. -/
theorem Charged.budget {i : Slot} {k : Kernel} {rs : List UInt64} (h : Charged i k rs) :
    (k.procSet i).budget.First rs ∨
      (k.procSet i).budget.Refilled ∧ ∃ rs', rs' <+: rs ∧ chargeSum rs' = mlfqLevelRuntime 0 := by
  induction h with
  | alloc p pid time h =>
    rw [h, budget_claim]
    refine Or.inl ⟨fun rs' hrs' => ?_, rfl⟩
    rw [List.prefix_nil.mp hrs']
    decide
  | @update k rs h r ih =>
    rw [set_self, budget_update]
    rcases ih with hfirst | ⟨hrefilled, rs', hrs', hspent⟩
    · by_cases hspent : chargeSum (rs ++ [r]) = mlfqLevelRuntime 0
      · exact Or.inr ⟨hfirst.spent hspent, _, List.prefix_rfl, hspent⟩
      · exact Or.inl (hfirst.charge hspent)
    · exact Or.inr ⟨hrefilled.charge r, rs', hrs'.trans (List.prefix_append _ _), hspent⟩
  | @reset k rs h env ih =>
    obtain ⟨hreset, hkept⟩ := k.mlfqResetLevel_slot env i
    by_cases hresets : k.Resets env i
    · rw [hreset hresets]
      rcases ih with hfirst | ⟨⟨-, hrefilled⟩, hspent⟩
      · exact Or.inl hfirst.reset
      · exact Or.inr ⟨⟨Nat.zero_le _, hrefilled⟩, hspent⟩
    · rw [hkept hresets]
      exact ih
  | other h hsame ih =>
    rw [hsame]
    exact ih

end Kernel

/-- Like a process that `proc_alloc` has just returned, now and after any further charges. -/
def Process.Restored (p : Process) : Prop :=
  p.budget = .fresh ∧
    ∀ (q : Process) (pid : Pid) (time : UInt64) (rs : List UInt64),
      (p.charges rs).budget = ((q.claim pid time).charges rs).budget

theorem restored_iff {p : Process} : p.Restored ↔ p.budget = .fresh := by
  refine ⟨fun h => h.1, fun h => ⟨h, fun q pid time rs => ?_⟩⟩
  rw [budget_charges, budget_charges, h, budget_claim]

/-- A reset gives a process the state of a new one exactly if the process has not been charged for
any time; a process that is not reset stays as it is. -/
theorem mlfq_reset_restores_iff (env : Env) {k : Kernel} {i : Slot} {rs : List UInt64}
    (h : k.Charged i rs) :
    (k.Resets env i → (((k.mlfqResetLevel env).procSet i).Restored ↔ Unspent rs)) ∧
      (¬k.Resets env i → (k.mlfqResetLevel env).procSet i = k.procSet i) := by
  obtain ⟨hreset, hkept⟩ := k.mlfqResetLevel_slot env i
  refine ⟨fun hresets => ?_, hkept⟩
  have hfresh : ((k.mlfqResetLevel env).procSet i).budget = .fresh ↔
      (k.procSet i).budget.remaining = mlfqLevelRuntime 0 ∧ (k.procSet i).budget.used = 0 := by
    rw [hreset hresets, Budget.ext_iff]
    exact and_iff_right rfl
  rw [restored_iff, hfresh]
  rcases h.budget with ⟨hfirst, hbudget⟩ | ⟨hrefilled, rs', hrs', hspent⟩
  · rw [hbudget]
    constructor
    · rintro ⟨-, hzero⟩
      exact ⟨hzero, hfirst⟩
    · rintro ⟨hzero, -⟩
      rw [hzero]
      exact ⟨rfl, rfl⟩
  · exact iff_of_false hrefilled.not_fresh fun hunspent => hunspent.2 rs' hrs' hspent

/-- A key is pressed, and the clock stands still. -/
def typing : Env := ⟨fun _ => 1, fun _ => false⟩

def shellAlloc : Kernel := (Kernel.zero fun _ => Earth.PageInfo.zero).set 4 (Process.zero.claim gpidShell 1)

theorem shellAlloc_charged : shellAlloc.Charged 4 [] := .alloc Process.zero gpidShell 1 rfl

theorem mlfq_reset_restores_shell :
    shellAlloc.Resets typing 4 ∧ ((shellAlloc.mlfqResetLevel typing).procSet 4).Restored := by
  have hresets : shellAlloc.Resets typing 4 := Or.inl ⟨rfl, by decide +kernel⟩
  refine ⟨hresets, ((mlfq_reset_restores_iff typing shellAlloc_charged).1 hresets).mpr ⟨rfl, fun rs' hrs' => ?_⟩⟩
  rw [List.prefix_nil.mp hrs']
  decide

/-- The shell after it has used up the budget of level 0. -/
def shellSpent : Kernel := shellAlloc.set 4 (mlfqUpdateLevel (shellAlloc.procSet 4) 100000)

/-- A key brings the shell back to level 0 with the budget of level 1, and a charge that demotes
a new process leaves it there. -/
theorem mlfq_reset_keeps_budget : shellSpent.Charged 4 [100000] ∧ shellSpent.Resets typing 4 ∧
    ((shellSpent.mlfqResetLevel typing).procSet 4).budget = ⟨0, 200000, 0⟩ ∧
    (mlfqUpdateLevel ((shellSpent.mlfqResetLevel typing).procSet 4) 100000).mlfqLevel = 0 ∧
    (mlfqUpdateLevel (Process.zero.claim gpidShell 1) 100000).mlfqLevel = 1 ∧
    ¬((shellSpent.mlfqResetLevel typing).procSet 4).Restored := by
  have hbudget : ((shellSpent.mlfqResetLevel typing).procSet 4).budget = ⟨0, 200000, 0⟩ := by
    decide +kernel
  refine ⟨shellAlloc_charged.update 100000, Or.inl ⟨rfl, by decide +kernel⟩, hbudget, by decide +kernel,
    by decide +kernel, fun hrestored => ?_⟩
  rw [restored_iff, hbudget] at hrestored
  exact absurd hrestored (by decide)

end OsSuite.Grass
