import OsSuite.Process

/-! Demotion by `mlfq_update_level` against the rule it implements: a level is left
when its allowance is used up. The remaining time is unsigned, and the code agrees with
the rule exactly as long as no charge passes the allowance. -/

namespace OsSuite.Grass

def allowance (level : Nat) : Nat := (level + 1) * 100000

/-- A level and the time used on it. -/
structure Standing where
  level : Nat
  used : Nat
  deriving DecidableEq

def Standing.charge (s : Standing) (r : Nat) : Standing :=
  if s.used + r ≥ allowance s.level then ⟨min (s.level + 1) (mlfqNlevels - 1), 0⟩
  else ⟨s.level, s.used + r⟩

def Standing.charges (s : Standing) (rs : List UInt64) : Standing :=
  rs.foldl (fun s r => s.charge r.toNat) s

def Process.charges (p : Process) (rs : List UInt64) : Process := rs.foldl mlfqUpdateLevel p

def Process.Stands (p : Process) (s : Standing) : Prop :=
  p.mlfqLevel = s.level ∧ p.currentLevelRuntime.toNat = s.used ∧
    p.remainingtOnlevel.toNat + p.currentLevelRuntime.toNat = allowance p.mlfqLevel ∧
    0 < p.remainingtOnlevel

instance (p : Process) (s : Standing) : Decidable (p.Stands s) :=
  inferInstanceAs (Decidable (_ ∧ _ ∧ _ ∧ _))

/-- No charge takes the time used on a level past its allowance. -/
def Standing.NeverOvershoots (s : Standing) : List UInt64 → Prop
  | [] => True
  | r :: rs => s.used + r.toNat ≤ allowance s.level ∧ (s.charge r.toNat).NeverOvershoots rs

instance Standing.decidableNeverOvershoots (s : Standing) :
    (rs : List UInt64) → Decidable (s.NeverOvershoots rs)
  | [] => inferInstanceAs (Decidable True)
  | r :: rs =>
    have := (s.charge r.toNat).decidableNeverOvershoots rs
    inferInstanceAs (Decidable (_ ∧ _))

theorem mlfqLevelRuntime_toNat {level : Nat} (h : level ≤ 4) :
    (mlfqLevelRuntime level).toNat = allowance level := by
  simp only [mlfqLevelRuntime, allowance, UInt64.toNat_ofNat']
  omega

theorem charge_level_le {s : Standing} (h : s.level ≤ 4) (r : Nat) : (s.charge r).level ≤ 4 := by
  unfold Standing.charge
  split
  · simp [mlfqNlevels]
  · exact h

theorem le_zero_iff (x : UInt64) : x ≤ 0 ↔ x.toNat = 0 := by
  simp [UInt64.le_iff_toNat_le]

theorem charge_stands {p : Process} {s : Standing} {r : UInt64} (h : p.Stands s) (hlevel : s.level ≤ 4)
    (hfits : s.used + r.toNat ≤ allowance s.level) :
    (mlfqUpdateLevel p r).Stands (s.charge r.toNat) := by
  obtain ⟨hl, hused, hsum, hpos⟩ := h
  rw [hl, hused] at hsum
  have hbound : allowance s.level ≤ 500000 := by
    simp only [allowance]
    omega
  have hremaining : (p.remainingtOnlevel - r).toNat = p.remainingtOnlevel.toNat - r.toNat := by
    rw [UInt64.toNat_sub_of_le _ _ (UInt64.le_iff_toNat_le.mpr (by omega))]
  have hcurrent : (p.currentLevelRuntime + r).toNat = s.used + r.toNat := by
    rw [UInt64.toNat_add, hused]
    omega
  unfold mlfqUpdateLevel
  by_cases hout : p.remainingtOnlevel - r ≤ 0
  · have hexact : s.used + r.toNat ≥ allowance s.level := by
      rw [le_zero_iff, hremaining] at hout
      omega
    have hlevel' : (if p.mlfqLevel < mlfqNlevels - 1 then p.mlfqLevel + 1 else p.mlfqLevel) =
        min (s.level + 1) (mlfqNlevels - 1) := by
      rw [hl, mlfqNlevels]
      by_cases hlow : s.level < 4
      · rw [if_pos hlow]
        omega
      · rw [if_neg hlow]
        omega
    have hruntime := mlfqLevelRuntime_toNat (show min (s.level + 1) (mlfqNlevels - 1) ≤ 4 from
      Nat.min_le_right _ _)
    simp only [hout, if_true, hlevel', Standing.charge, hexact, Process.Stands]
    refine ⟨trivial, UInt64.toNat_zero, by rw [hruntime, UInt64.toNat_zero, Nat.add_zero], ?_⟩
    rw [UInt64.lt_iff_toNat_lt, hruntime]
    simp [allowance]
  · have hnot : ¬ s.used + r.toNat ≥ allowance s.level := by
      rw [le_zero_iff, hremaining] at hout
      omega
    simp only [hout, if_false, Standing.charge, hnot, Process.Stands]
    refine ⟨hl, hcurrent, ?_, ?_⟩
    · rw [hremaining, hcurrent, hl]
      omega
    · rw [UInt64.lt_iff_toNat_lt, hremaining, UInt64.toNat_zero]
      omega

/-- The allowance was passed at once: the remaining time has wrapped. -/
def Process.Runaway (p : Process) : Prop :=
  allowance p.mlfqLevel < p.currentLevelRuntime.toNat ∧
    p.remainingtOnlevel.toNat + p.currentLevelRuntime.toNat = 2 ^ 64 + allowance p.mlfqLevel

theorem charge_runaway {p : Process} {r : UInt64} {s : Standing} (h : p.Stands s)
    (hsum : s.used + r.toNat < 2 ^ 64) (hover : allowance s.level < s.used + r.toNat) :
    (mlfqUpdateLevel p r).Runaway := by
  obtain ⟨hl, hused, hbudget, hpos⟩ := h
  rw [hl, hused] at hbudget
  have hremaining : (p.remainingtOnlevel - r).toNat =
      2 ^ 64 - r.toNat + p.remainingtOnlevel.toNat := by
    rw [UInt64.toNat_sub]
    omega
  have hcurrent : (p.currentLevelRuntime + r).toNat = s.used + r.toNat := by
    rw [UInt64.toNat_add, hused]
    omega
  have hleft : ¬ p.remainingtOnlevel - r ≤ 0 := by
    rw [le_zero_iff, hremaining]
    omega
  simp only [mlfqUpdateLevel, hleft, if_false, Process.Runaway, hremaining, hcurrent, hl]
  omega

theorem runaway_charge {p : Process} {r : UInt64} (h : p.Runaway)
    (hsum : p.currentLevelRuntime.toNat + r.toNat < 2 ^ 64) :
    (mlfqUpdateLevel p r).Runaway ∧
      (mlfqUpdateLevel p r).currentLevelRuntime.toNat = p.currentLevelRuntime.toNat + r.toNat := by
  obtain ⟨hover, hbudget⟩ := h
  have hremaining : (p.remainingtOnlevel - r).toNat = p.remainingtOnlevel.toNat - r.toNat := by
    rw [UInt64.toNat_sub_of_le _ _ (UInt64.le_iff_toNat_le.mpr (by omega))]
  have hcurrent : (p.currentLevelRuntime + r).toNat = p.currentLevelRuntime.toNat + r.toNat := by
    rw [UInt64.toNat_add]
    omega
  have hleft : ¬ p.remainingtOnlevel - r ≤ 0 := by
    rw [le_zero_iff, hremaining]
    omega
  simp only [mlfqUpdateLevel, hleft, if_false, Process.Runaway, hremaining, hcurrent]
  exact ⟨⟨by omega, by omega⟩, trivial⟩

theorem runaway_charges {p : Process} {rs : List UInt64} (h : p.Runaway)
    (hsum : p.currentLevelRuntime.toNat + (rs.map UInt64.toNat).sum < 2 ^ 64) :
    (p.charges rs).Runaway := by
  induction rs generalizing p with
  | nil => exact h
  | cons r rs ih =>
    rw [List.map_cons, List.sum_cons] at hsum
    obtain ⟨hrun, hcurrent⟩ := runaway_charge (r := r) h (by omega)
    exact ih hrun (by omega)

theorem charges_stand_iff {p : Process} {s : Standing} {rs : List UInt64} (h : p.Stands s)
    (hlevel : s.level ≤ 4) (hsum : s.used + (rs.map UInt64.toNat).sum < 2 ^ 64) :
    (p.charges rs).Stands (s.charges rs) ↔ s.NeverOvershoots rs := by
  induction rs generalizing p s with
  | nil => exact ⟨fun _ => trivial, fun _ => h⟩
  | cons r rs ih =>
    rw [List.map_cons, List.sum_cons] at hsum
    by_cases hfits : s.used + r.toNat ≤ allowance s.level
    · have hused : (s.charge r.toNat).used ≤ s.used + r.toNat := by
        unfold Standing.charge
        split
        · exact Nat.zero_le _
        · exact le_rfl
      have hstep := ih (charge_stands h hlevel hfits) (charge_level_le hlevel _) (by omega)
      exact ⟨fun hall => ⟨hfits, hstep.mp hall⟩, fun hall => hstep.mpr hall.2⟩
    · have hrun : (mlfqUpdateLevel p r).Runaway := charge_runaway h (by omega) (by omega)
      have hcurrent : (mlfqUpdateLevel p r).currentLevelRuntime.toNat ≤ s.used + r.toNat := by
        have hadd : (p.currentLevelRuntime + r).toNat = s.used + r.toNat := by
          rw [UInt64.toNat_add, h.2.1]
          omega
        simp only [mlfqUpdateLevel]
        split
        · exact Nat.zero_le _
        · exact hadd.le
      have hend : ((mlfqUpdateLevel p r).charges rs).Runaway := runaway_charges hrun (by omega)
      constructor
      · intro hall
        have hbudget := hend.2
        have hstand : ((mlfqUpdateLevel p r).charges rs).Stands _ := hall
        have := hstand.2.2.1
        omega
      · exact fun hall => absurd hall.1 hfits

theorem claim_stands (p : Process) (pid : Earth.Pid) (time : UInt64) :
    (p.claim pid time).Stands ⟨0, 0⟩ := by
  have hruntime := mlfqLevelRuntime_toNat (Nat.zero_le 4)
  refine ⟨rfl, UInt64.toNat_zero, ?_, ?_⟩
  · simp only [Process.claim, hruntime, UInt64.toNat_zero, Nat.add_zero]
  · rw [UInt64.lt_iff_toNat_lt]
    simp [Process.claim, hruntime, allowance]

/-- The code follows the rule on exactly those charges that never pass the allowance
of a level. -/
theorem mlfq_demotion_exact_iff (p : Process) (pid : Earth.Pid) (time : UInt64) (rs : List UInt64)
    (hsum : (rs.map UInt64.toNat).sum < 2 ^ 64) :
    ((p.claim pid time).charges rs).Stands ((Standing.mk 0 0).charges rs) ↔
      (Standing.mk 0 0).NeverOvershoots rs :=
  charges_stand_iff (claim_stands p pid time) (Nat.zero_le 4) (by rw [Nat.zero_add]; exact hsum)

theorem mlfq_demotion_exact_iff_sample :
    (Standing.mk 0 0).charges [60000, 40000, 150000] = ⟨1, 150000⟩ ∧
      ((Process.zero.claim 5 0).charges [60000, 40000, 150000]).Stands
        ((Standing.mk 0 0).charges [60000, 40000, 150000]) :=
  ⟨by decide +kernel, (mlfq_demotion_exact_iff Process.zero 5 0 [60000, 40000, 150000]
    (by decide +kernel)).mpr (by decide +kernel)⟩

/-- One microsecond past the allowance of level 0, and no demotion. -/
theorem mlfq_overshoot_not_demoted : ([100001].map UInt64.toNat).sum < 2 ^ 64 ∧
    (Standing.mk 0 0).charges [100001] = ⟨1, 0⟩ ∧
    ((Process.zero.claim 5 0).charges [100001]).mlfqLevel = 0 ∧
    ¬((Process.zero.claim 5 0).charges [100001]).Stands ((Standing.mk 0 0).charges [100001]) := by
  decide +kernel

end OsSuite.Grass
