import OsSuite.Preemption
import OsSuite.Dispatch
import OsSuite.MlfqReset

/-! How long a process waits for the core. The scan of `proc_yield` starts behind the slot that
ran, so of the processes on one level each comes once before any comes twice. -/

namespace OsSuite.Grass

open Earth (Pid PageInfoTable)

variable {env : Env} {k k' k₁ : Kernel} {c i j : Slot} {us vs q : List Slot} {n f : Nat}

/-- The number of slots from the current one on until the scan comes to slot `i`. -/
def ahead (c i : Slot) : Nat := (i.val + 16 - c.val) % 16

theorem ahead_le (c i : Slot) : ahead c i ≤ 15 := Nat.le_of_lt_succ (Nat.mod_lt _ (by decide))

theorem ahead_pos (hc : c.val < 16) (hi : i.val < 16) (hne : i ≠ c) : 0 < ahead c i := by
  have hval : i.val ≠ c.val := fun h => hne (Fin.ext h)
  unfold ahead
  omega

theorem scanOrder_drop : ∀ c i j : Slot, i.val < 16 → c.val < 16 → i ≠ c →
    j ∈ (scanOrder c).takeWhile (· ≠ i) → ahead j i < ahead c i := by decide +kernel

/-- The scan comes to slot `i`, after slots from which it is nearer. -/
theorem scanOrder_reaches (hc : c.val < 16) (hi : i.val < 16) (hne : i ≠ c) :
    ∃ pre post, scanOrder c = pre ++ i :: post ∧ ∀ j ∈ pre, ahead j i < ahead c i := by
  obtain ⟨pre, post, hsplit⟩ := List.append_of_mem (mem_scanOrder (c := c).mpr hi)
  have hnodup := scanOrder_nodup c
  rw [hsplit] at hnodup
  have hfirst : ∀ j ∈ pre, (decide (j ≠ i)) = true := by
    rintro j hj
    exact decide_eq_true fun he => (List.nodup_append.mp hnodup).2.2 j hj i List.mem_cons_self he
  refine ⟨pre, post, hsplit, fun j hj => scanOrder_drop c i j hi hc hne ?_⟩
  rw [hsplit, List.takeWhile_append_of_pos hfirst]
  exact List.mem_append_left _ hj

/-- The scan has found a slot of `q`, or one below level `L`. -/
def Scan.Beats (s : Scan) (L : Nat) (q : List Slot) : Prop :=
  s.lowestLevel ≤ L ∧ (s.nextIdx ∈ q ∨ s.lowestLevel < L)

theorem Scan.Beats.visit {s s' : Scan} {L : Nat} (h : s.Beats L q) (hvisit : s.visit i = .ok s') :
    s'.Beats L q := by
  obtain ⟨k', -, rfl⟩ := Scan.visit_ok hvisit
  split
  · rename_i hnew
    have hlow := Nat.lt_of_lt_of_le hnew.2 h.1
    exact ⟨hlow.le, Or.inr hlow⟩
  · exact h

theorem Scan.Beats.visits {s s' : Scan} {L : Nat} (h : s.Beats L q) (hvisits : us.foldlM Scan.visit s = .ok s') :
    s'.Beats L q := by
  induction us generalizing s with
  | nil =>
    cases hvisits
    exact h
  | cons i us ih =>
    rw [List.foldlM_cons] at hvisits
    obtain ⟨s₁, hvisit, hvisits⟩ := bind_eq_ok hvisits
    exact ih (h.visit hvisit) hvisits

namespace Kernel

def Waiting (k : Kernel) (i : Slot) (L : Nat) : Prop := (k.procSet i).Dispatchable ∧ (k.procSet i).mlfqLevel = L

theorem Visited.waiting {L : Nat} (h : k.Visited j k') (hi : k.Waiting i L) : k'.Waiting i L :=
  ⟨h.dispatchable hi.1, (h.frame i).2.1.trans hi.2⟩

end Kernel

/-- The lowest level is that of the slot found. -/
def Scan.Labelled (s : Scan) : Prop :=
  s.nextIdx.val < 16 → s.lowestLevel = (s.kernel.procSet s.nextIdx).mlfqLevel

theorem Scan.labelled_start (K : Kernel) : (⟨K, 5, Fin.ofNat 17 maxNprocess⟩ : Scan).Labelled :=
  fun hlt => absurd hlt (show ¬(Fin.ofNat 17 maxNprocess).val < 16 by decide)

theorem Scan.visits_waiting {s s' : Scan} (h : Kernel.Scanning c s.kernel (us ++ vs)) (hs : s.Labelled)
    (hvisits : us.foldlM Scan.visit s = .ok s') :
    Kernel.Scanning c s'.kernel vs ∧ s'.Labelled ∧ ∀ i L, s.kernel.Waiting i L → s'.kernel.Waiting i L := by
  induction us generalizing s with
  | nil =>
    cases hvisits
    exact ⟨h, hs, fun _ _ hi => hi⟩
  | cons i us ih =>
    rw [List.foldlM_cons] at hvisits
    obtain ⟨s₁, hvisit, hvisits⟩ := bind_eq_ok hvisits
    obtain ⟨k₁, hretry, hs₁⟩ := Scan.visit_ok hvisit
    obtain ⟨hnext, hvisited⟩ := Kernel.Scanning.retry h hretry
    have hkernel : s₁.kernel = k₁ := by
      rw [hs₁]
      split <;> rfl
    have hlabelled : s₁.Labelled := by
      rw [hs₁]
      split
      · exact fun _ => rfl
      · exact fun hlt => (hs hlt).trans (hvisited.frame _).2.1.symm
    rw [← hkernel] at hnext hvisited
    obtain ⟨hend, hlast, hrest⟩ := ih hnext hlabelled hvisits
    exact ⟨hend, hlast, fun j L hj => hrest j L (hvisited.waiting hj)⟩

theorem Scan.visits_nextIdx {s s' : Scan} (hvisits : us.foldlM Scan.visit s = .ok s') :
    s'.nextIdx ∈ us ∨ s'.nextIdx = s.nextIdx ∧ s'.lowestLevel = s.lowestLevel := by
  induction us generalizing s with
  | nil =>
    cases hvisits
    exact Or.inr ⟨rfl, rfl⟩
  | cons i us ih =>
    rw [List.foldlM_cons] at hvisits
    obtain ⟨s₁, hvisit, hvisits⟩ := bind_eq_ok hvisits
    obtain ⟨k₁, -, hs₁⟩ := Scan.visit_ok hvisit
    rcases ih hvisits with hmem | ⟨hnext, hlevel⟩
    · exact Or.inl (List.mem_cons_of_mem i hmem)
    · rw [hnext, hlevel, hs₁]
      split
      · exact Or.inl List.mem_cons_self
      · exact Or.inr ⟨rfl, rfl⟩

namespace Kernel

theorem Waiting.not_running {L : Nat} (h : k.Waiting i L) : (k.procSet i).status ≠ .running := by
  rcases h.1 with h | h <;> rw [h] <;> decide

theorem Sound.waiting_ne {L : Nat} (h : k.Sound) (hi : k.Waiting i L) : i ≠ k.currProcIdx := fun he =>
  hi.not_running ((h.running i).mpr he)

theorem Sound.untilYield_waiting {L : Nat} (h : k.Sound) {t : Trap} (ht : k.untilYield t = .ok k')
    (hi : k.Waiting i L) : k'.Waiting i L ∧ k'.currProcIdx = k.currProcIdx := by
  have hne := h.waiting_ne hi
  have hsame : (k.saved t).procSet i = k.procSet i := set_of_ne k _ hne
  rcases untilYield_ok ht with ⟨-, rfl | rfl⟩ | ⟨-, haccept⟩
  · rw [Waiting, hsame]
    exact ⟨hi, rfl⟩
  · have hcounted : (k.saved t).counted.procSet i = k.procSet i :=
      (set_of_ne (k.saved t) _ hne).trans hsame
    rw [Waiting, hcounted]
    exact ⟨hi, rfl⟩
  · obtain ⟨hsynced, hretry⟩ := (h.saved t).accepted haccept
    obtain ⟨-, hvisited⟩ := hsynced.retry hretry
    refine ⟨hvisited.waiting ?_, hvisited.currProcIdx⟩
    rw [Waiting, called_other (k.saved t) t.syscall hne, hsame]
    exact hi

theorem Sound.waiting_lt {L : Nat} (h : k.Sound) (hi : k.Waiting i L) : i.val < 16 := by
  by_contra hge
  have hlast : i = 16 := by
    apply Fin.ext
    exact Nat.le_antisymm (Nat.le_of_lt_succ i.isLt) (Nat.le_of_not_lt hge)
  rw [hlast] at hi
  rcases h.synced.pids.last with hs | hs <;> rcases hi.1 with hi | hi <;> rw [hs] at hi <;> cases hi

theorem procTrySyscall_lastReset (h : k.procTrySyscall i = .ok k') :
    k'.mlfqLastResetTime = k.mlfqLastResetTime := by
  obtain ⟨-, rfl⟩ | ⟨-, hsend⟩ := procTrySyscall_ok h
  · unfold procTryRecv
    dsimp only
    split <;> rfl
  · obtain ⟨r, -, ⟨he, -⟩ | ⟨he, -⟩⟩ := procTrySend_ok hsend
    · rw [he]
    · rw [he]
      rfl

theorem Sound.untilYield_lastReset (h : k.Sound) {t : Trap} (ht : k.untilYield t = .ok k') :
    k'.mlfqLastResetTime = k.mlfqLastResetTime := by
  rcases untilYield_ok ht with ⟨-, rfl | rfl⟩ | ⟨-, haccept⟩
  · rfl
  · rfl
  · have hs := h.saved t
    rw [acceptSyscall_eq hs.synced.pids hs.live hs.current] at haccept
    exact (procTrySyscall_lastReset haccept).trans rfl

/-- The period of the level reset is over when `proc_yield` asks. -/
def Expired (env : Env) (k : Kernel) : Prop :=
  k.mlfqLastResetTime ≠ 0 ∧ env.mtime (k.mtimeReads + 1) - k.mlfqLastResetTime ≥ mlfqResetPeriod

theorem charge_other (k : Kernel) (currentTime : UInt64) (hne : i ≠ k.currProcIdx) :
    (k.charge currentTime).procSet i = k.procSet i ∧ (k.charge currentTime).mtimeReads = k.mtimeReads ∧
      (k.charge currentTime).mlfqLastResetTime = k.mlfqLastResetTime := by
  unfold charge
  split
  · exact ⟨set_of_ne k _ hne, rfl, rfl⟩
  · exact ⟨rfl, rfl, rfl⟩

theorem Yielding.account_waiting {L : Nat} (h : k.Yielding) (hi : k.Waiting i L) (hne : i ≠ k.currProcIdx) :
    ∃ L', (k.account env).Waiting i L' ∧ L' ≤ L ∧ (k.Expired env → i.val < 16 → L' = 0) := by
  have hpause : k.pause.procSet i = k.procSet i ∧ k.pause.currProcIdx = k.currProcIdx ∧
      k.pause.mtimeReads = k.mtimeReads ∧ k.pause.mlfqLastResetTime = k.mlfqLastResetTime := by
    rcases h.pause_eq with ⟨he, -⟩ | ⟨he, -⟩
    · rw [he]
      exact ⟨rfl, rfl, rfl, rfl⟩
    · rw [he]
      exact ⟨set_of_ne k _ hne, rfl, rfl, rfl⟩
  obtain ⟨hslot, hcurr, hreads, hlast⟩ := hpause
  generalize hk₁ : k.pause.mtimeRead.charge (k.pause.mtimeGet env) = k₁
  have hcharge : k₁.procSet i = k.pause.procSet i ∧ k₁.mtimeReads = k.pause.mtimeReads + 1 ∧
      k₁.mlfqLastResetTime = k.pause.mlfqLastResetTime := by
    rw [← hk₁]
    exact k.pause.mtimeRead.charge_other _ fun he => hne (he.trans hcurr)
  rw [hslot, hreads, hlast] at hcharge
  obtain ⟨hslot₁, hreads₁, hlast₁⟩ := hcharge
  obtain ⟨hreset, hkept⟩ := k₁.mlfqResetLevel_slot env i
  have haccount : k.account env = k₁.mlfqResetLevel env := by rw [account_eq, hk₁]
  by_cases hresets : k₁.Resets env i
  · refine ⟨0, ?_, Nat.zero_le _, fun _ _ => rfl⟩
    rw [Waiting, haccount, hreset hresets, hslot₁]
    exact ⟨hi.1, rfl⟩
  · refine ⟨L, ?_, le_rfl, fun hexpired hlt => absurd (Or.inr ⟨?_, hlt, ?_⟩) hresets⟩
    · rw [Waiting, haccount, hkept hresets, hslot₁]
      exact hi
    · rw [mtimeGet, lastResetTime, hreads₁, hlast₁, if_neg hexpired.1]
      exact hexpired.2
    · rw [hslot₁]
      rcases hi.1 with hs | hs <;> rw [hs] <;> decide

end Kernel

/-- A slot that waits when the scan starts is chosen, or beaten by a lower level, or by a slot
that comes first. -/
theorem Scan.beats {s' : Scan} {K : Kernel} {L : Nat} (h : Kernel.Scanning c K (scanOrder c)) (hc : c.val < 16)
    (hi : K.Waiting i L) (hlt : i.val < 16) (hne : i ≠ c)
    (hvisits : (scanOrder c).foldlM Scan.visit ⟨K, 5, Fin.ofNat 17 maxNprocess⟩ = .ok s') :
    s'.nextIdx = i ∨ s'.lowestLevel < L ∨ ahead s'.nextIdx i < ahead c i := by
  obtain ⟨pre, post, hsplit, hpre⟩ := scanOrder_reaches hc hlt hne
  rw [hsplit, List.foldlM_append] at hvisits
  obtain ⟨s₁, hfirst, hvisits⟩ := bind_eq_ok hvisits
  rw [List.foldlM_cons] at hvisits
  obtain ⟨s₂, hvisit, hvisits⟩ := bind_eq_ok hvisits
  rw [hsplit] at h
  obtain ⟨hscanning, hlabelled, hkept⟩ := Scan.visits_waiting h (Scan.labelled_start K) hfirst
  have hi₁ := hkept i L hi
  obtain ⟨k₂, hretry, hs₂⟩ := Scan.visit_ok hvisit
  obtain ⟨hnext, hvisited⟩ := hscanning.retry hretry
  have hi₂ := hvisited.waiting hi₁
  have hlow : L < 5 := hi₂.2 ▸ Nat.lt_succ_of_le (hnext.levels i)
  have hbeats : s₂.Beats L (pre ++ [i]) := by
    rw [hs₂, hi₂.2]
    by_cases hnew : L < s₁.lowestLevel
    · rw [if_pos ⟨hi₂.1, hnew⟩]
      exact ⟨le_rfl, Or.inl (by simp)⟩
    · rw [if_neg fun hand => hnew hand.2]
      refine ⟨Nat.le_of_not_lt hnew, Or.inl ?_⟩
      rcases Scan.visits_nextIdx hfirst with hmem | ⟨-, hfive⟩
      · exact List.mem_append_left _ hmem
      · exact absurd (hfive ▸ hlow) hnew
  rcases (hbeats.visits hvisits).2 with hmem | hlt
  · rcases List.mem_append.mp hmem with hmem | hmem
    · exact Or.inr (Or.inr (hpre _ hmem))
    · exact Or.inl (List.mem_singleton.mp hmem)
  · exact Or.inr (Or.inl hlt)

namespace Kernel

theorem dispatch_other (hp : k.Pids) (hi : i.val < 16) (hlive : (k.procSet i).status ≠ .unused)
    (currentTime : UInt64) (hj : j ≠ i) : (k.dispatch currentTime i).procSet j = k.procSet j := by
  rw [dispatch_eq hp hi hlive]
  exact set_of_ne k _ hj

theorem dispatch_level (hp : k.Pids) (hi : i.val < 16) (hlive : (k.procSet i).status ≠ .unused)
    (currentTime : UInt64) : (k.dispatch currentTime i).curr.mlfqLevel = (k.procSet i).mlfqLevel := by
  obtain ⟨-, -, hlevel, -⟩ := enter_ipc ((k.procSet i).stamp currentTime)
  rw [dispatch_eq hp hi hlive]
  exact (congrArg Process.mlfqLevel (set_self k i _)).trans hlevel

theorem Sound.passed_over {L : Nat} (h : k.Sound) (hi : k.Waiting i L) {t : Trap}
    (hentry : k.kernelEntry env t = .ok k') (hne : i ≠ k'.currProcIdx) :
    ∃ L', k'.Waiting i L' ∧ L' ≤ L ∧ (k.Expired env → L' = 0) ∧
      (k'.curr.mlfqLevel < L' ∨ ahead k'.currProcIdx i < ahead k.currProcIdx i) := by
  obtain ⟨k₁, huntil, hyield⟩ := kernelEntry_ok hentry
  have hlt : i.val < 16 := h.waiting_lt hi
  have hyielding := h.untilYield huntil
  obtain ⟨hi₁, hcurr₁⟩ := h.untilYield_waiting huntil hi
  have hsame := untilYield_sameTiming huntil
  have hne₁ : i ≠ k₁.currProcIdx := fun he => h.waiting_ne hi (he.trans hcurr₁)
  obtain ⟨L', hi', hle, hzero⟩ : ∃ L', (k₁.account env).Waiting i L' ∧ L' ≤ L ∧
      (k₁.Expired env → i.val < 16 → L' = 0) := hyielding.account_waiting hi₁ hne₁
  obtain ⟨s, hscan, hslt, rfl⟩ := procYield_ok hyield
  have hne' : i ≠ s.nextIdx := hne
  have haccount := hyielding.account env
  obtain ⟨hend, hselects⟩ := hyielding.scan hscan
  have hlive : (s.kernel.procSet s.nextIdx).status ≠ .unused := by
    rcases hselects hslt with hd | hd <;> rw [hd] <;> decide
  unfold Kernel.scan at hscan
  rw [haccount.currProcIdx] at hscan
  have hbeats := Scan.beats haccount hyielding.current hi' hlt hne₁ hscan
  have hscanning : Kernel.Scanning k₁.currProcIdx (k₁.account env) (scanOrder k₁.currProcIdx ++ []) := by
    rw [List.append_nil]
    exact haccount
  obtain ⟨-, hlabelled, hkept⟩ := Scan.visits_waiting hscanning (Scan.labelled_start _) hscan
  refine ⟨L', ?_, hle, fun hexpired => hzero ?_ hlt, ?_⟩
  · rw [Waiting, dispatch_other hend.synced.pids hslt hlive _ hne']
    exact hkept i L' hi'
  · rw [Expired, hsame.mtimeReads, h.untilYield_lastReset huntil]
    exact hexpired
  · rw [dispatch_level hend.synced.pids hslt hlive, ← hlabelled hslt, ← hcurr₁]
    exact hbeats.resolve_left hne'.symm

/-- The direct calls of GPID_PROCESS leave a process that waits where it is. -/
theorem call_waiting {a : Action} {L : Nat} (hcall : ∀ t, a ≠ .trap t) (hstep : a.step env k = .ok k')
    (hi : k.Waiting i L) (hd : (k'.procSet i).Dispatchable) :
    k'.Waiting i L ∧ k'.currProcIdx = k.currProcIdx := by
  cases a with
  | trap t => exact absurd rfl (hcall t)
  | procAlloc =>
    obtain ⟨pid, halloc⟩ := Action.procAlloc_ok hstep
    obtain ⟨j, hslot, -, hk'⟩ := Kernel.procAlloc_ok halloc
    have hij : i ≠ j := by
      rintro rfl
      have hunused := (unusedSlot_eq.mp hslot).2.1
      rcases hi.1 with hi | hi <;> rw [hunused] at hi <;> cases hi
    have hsame : k'.procSet i = k.procSet i := by
      rw [hk']
      exact Function.update_of_ne hij _ _
    rw [Waiting, hsame, hk']
    exact ⟨hi, rfl⟩
  | procSetReady p =>
    cases hstep
    refine ⟨⟨hd, Eq.trans ?_ hi.2⟩, rfl⟩
    simp only [procSetReady, procSetStatus]
    split <;> rfl
  | procFree p =>
    cases hstep
    have hkeeps := procFree_keeps env k p
    exact ⟨⟨hd, (hkeeps.level i).trans hi.2⟩, hkeeps.currProcIdx⟩

end Kernel

/-- Slot `i` waits to be dispatched, from one state to another. Counted are the entries of the
kernel that pass it over, those that dispatch a process on a lower level apart. -/
inductive Waits (env : Env) (i : Slot) (k : Kernel) : Nat → Nat → Kernel → Prop where
  | start (hi : (k.procSet i).Dispatchable) : Waits env i k 0 0 k
  | call {lower others : Nat} {u v : Kernel} {a : Action} (h : Waits env i k lower others u)
    (hcall : ∀ t, a ≠ .trap t) (hallowed : a.Allowed u) (hwrap : Unwrapped u a)
    (hstep : a.step env u = .ok v) (hi : (v.procSet i).Dispatchable) : Waits env i k lower others v
  | lower {lower others : Nat} {u v : Kernel} {t : Trap} (h : Waits env i k lower others u)
    (hentry : u.kernelEntry env t = .ok v) (hi : (v.procSet i).Dispatchable)
    (hlower : v.curr.mlfqLevel < (v.procSet i).mlfqLevel) : Waits env i k (lower + 1) others v
  | other {lower others : Nat} {u v : Kernel} {t : Trap} (h : Waits env i k lower others u)
    (hentry : u.kernelEntry env t = .ok v) (hi : (v.procSet i).Dispatchable)
    (hother : (v.procSet i).mlfqLevel ≤ v.curr.mlfqLevel) : Waits env i k lower (others + 1) v

namespace Waits

variable {lower others : Nat}

theorem run (h : Waits env i k lower others k') (hrun : Run env Unwrapped k) : Run env Unwrapped k' := by
  induction h with
  | start => exact hrun
  | call _ _ hallowed hwrap hstep _ ih => exact .step ih hallowed hwrap hstep
  | lower _ hentry _ _ ih => exact .step (a := .trap _) ih trivial (unwrapped_trap _ _) hentry
  | other _ hentry _ _ ih => exact .step (a := .trap _) ih trivial (unwrapped_trap _ _) hentry

theorem dispatchable (h : Waits env i k lower others k') : (k'.procSet i).Dispatchable := by
  cases h <;> assumption

theorem dispatchable_start (h : Waits env i k lower others k') : (k.procSet i).Dispatchable := by
  induction h with
  | start hi => exact hi
  | call _ _ _ _ _ _ ih => exact ih
  | lower _ _ _ _ ih => exact ih
  | other _ _ _ _ ih => exact ih

/-- Every other process on its level or above brings the scan nearer to slot `i`. -/
theorem nearer (h : Waits env i k lower others k') (hrun : Run env Unwrapped k) :
    others + ahead k'.currProcIdx i ≤ 14 * (lower + 1) + 1 := by
  induction h with
  | start =>
    have := ahead_le k.currProcIdx i
    omega
  | call h hcall _ _ hstep hi ih =>
    rw [(Kernel.call_waiting hcall hstep ⟨h.dispatchable, rfl⟩ hi).2]
    exact ih
  | @lower _ _ u v t h hentry hi hlower ih =>
    have hsound := (h.run hrun).sound fun _ _ hwrap => hwrap
    have hwaits : u.Waiting i (u.procSet i).mlfqLevel := ⟨h.dispatchable, rfl⟩
    have hpos := ahead_pos hsound.current (hsound.waiting_lt hwaits) (hsound.waiting_ne hwaits)
    have hle := ahead_le v.currProcIdx i
    omega
  | @other _ _ u v t h hentry hi hother ih =>
    have hsound := (h.run hrun).sound fun _ _ hwrap => hwrap
    have hsound' := (Waits.run (.other h hentry hi hother) hrun).sound fun _ _ hwrap => hwrap
    obtain ⟨L', ⟨-, hlevel⟩, -, -, hnear⟩ := hsound.passed_over ⟨h.dispatchable, rfl⟩ hentry
      (hsound'.waiting_ne ⟨hi, rfl⟩)
    have hnear := hnear.resolve_left (by omega)
    omega

end Waits

theorem Waits.others_le {lower others : Nat} (h : Waits env i k lower others k') (hrun : Run env Unwrapped k) :
    others ≤ 14 * (lower + 1) := by
  have hsound := (h.run hrun).sound fun _ _ hwrap => hwrap
  have hwaits : k'.Waiting i (k'.procSet i).mlfqLevel := ⟨h.dispatchable, rfl⟩
  have hpos := ahead_pos hsound.current (hsound.waiting_lt hwaits) (hsound.waiting_ne hwaits)
  have hnearer := h.nearer hrun
  omega

/-- While a process waits, the others on its level and those above it are dispatched at most 14
times between two dispatches of processes on lower levels. -/
theorem bounded_overtaking (env : Env) (k k' : Kernel) (i : Slot) (lower others : Nat)
    (hrun : Run env Unwrapped k) (h : Waits env i k lower others k') : others ≤ 14 * (lower + 1) :=
  h.others_le hrun

def created : List Action := [.procAlloc, .procAlloc, .procSetReady 2, .procSetReady 3]

theorem bounded_overtaking_sample : ∃ k k', Run still Unwrapped k ∧ Waits still 3 k 0 1 k' ∧ 1 ≤ 14 * (0 + 1) := by
  have hcreated : ((replay Unwrapped still created).any fun k => (k.procSet 3).Dispatchable ∧
      ((k.kernelEntry still timerTrap).toOption.any fun k' => (k'.procSet 3).Dispatchable ∧
        (k'.procSet 3).mlfqLevel ≤ k'.curr.mlfqLevel) = true) = true := by decide +kernel
  obtain ⟨k, hk, hnext⟩ := (Option.any_eq_true _ _).mp hcreated
  obtain ⟨hready, hnext⟩ := of_decide_eq_true hnext
  obtain ⟨k', hentry, hpassed⟩ := ok_of_any hnext
  obtain ⟨hready', hlevel⟩ := of_decide_eq_true hpassed
  have hrun : Run still Unwrapped k := Run.replay hk
  have hwaits : Waits still 3 k 0 1 k' := .other (.start hready) hentry hready' hlevel
  exact ⟨k, k', hrun, hwaits, bounded_overtaking still k k' 3 0 1 hrun hwaits⟩

theorem Waits.top_entry {lower others : Nat} {t : Trap} (h : Waits env i k lower others k')
    (hrun : Run env Unwrapped k) (hi : (k'.procSet i).mlfqLevel = 0) (hentry : k'.kernelEntry env t = .ok k₁)
    (hd : (k₁.procSet i).Dispatchable) : (k₁.procSet i).mlfqLevel = 0 := by
  have hrun' := h.run hrun
  have hsound := hrun'.sound fun _ _ hwrap => hwrap
  have hsound₁ := (Run.step (a := .trap t) hrun' trivial (unwrapped_trap _ _) hentry).sound fun _ _ hwrap => hwrap
  obtain ⟨L', ⟨-, hlevel⟩, hle, -, -⟩ :=
    hsound.passed_over ⟨h.dispatchable, hi⟩ hentry (hsound₁.waiting_ne ⟨hd, rfl⟩)
  omega

theorem Waits.top {lower others : Nat} (h : Waits env i k lower others k') (hrun : Run env Unwrapped k)
    (hi : (k.procSet i).mlfqLevel = 0) : lower = 0 ∧ (k'.procSet i).mlfqLevel = 0 := by
  induction h with
  | start => exact ⟨rfl, hi⟩
  | call h hcall _ _ hstep hd ih =>
    exact ⟨ih.1, (Kernel.call_waiting hcall hstep ⟨h.dispatchable, ih.2⟩ hd).1.2⟩
  | @lower _ _ u v t h hentry hd hlower ih =>
    have hzero := h.top_entry hrun ih.2 hentry hd
    omega
  | other h hentry hd hother ih => exact ⟨ih.1, h.top_entry hrun ih.2 hentry hd⟩

/-- A process that waits when the period of the level reset is over is dispatched by the entry
that finds that out, or by one of the next 15, or is freed before. -/
theorem reset_ends_waiting (env : Env) (k k₁ k' : Kernel) (i : Slot) (t : Trap) (lower others : Nat)
    (hrun : Run env Unwrapped k) (hexpired : k.Expired env) (hi : (k.procSet i).Dispatchable)
    (hentry : k.kernelEntry env t = .ok k₁) (h : Waits env i k₁ lower others k') :
    lower = 0 ∧ others ≤ 14 := by
  have hrun₁ : Run env Unwrapped k₁ := .step (a := .trap t) hrun trivial (unwrapped_trap _ _) hentry
  have hsound := hrun.sound fun _ _ hwrap => hwrap
  have hsound₁ := hrun₁.sound fun _ _ hwrap => hwrap
  have hi₁ : (k₁.procSet i).Dispatchable := h.dispatchable_start
  obtain ⟨L', ⟨-, hlevel⟩, -, hzero, -⟩ :=
    hsound.passed_over ⟨hi, rfl⟩ hentry (hsound₁.waiting_ne ⟨hi₁, rfl⟩)
  obtain ⟨hlower, -⟩ := h.top hrun₁ (hlevel.trans (hzero hexpired))
  have hbound := h.others_le hrun₁
  omega

/-- The clock is set forward between two readings. -/
def setForward (n : Nat) : Env := ⟨fun m => if m < n then 1 else 10000001, fun _ => true⟩

theorem reset_ends_waiting_sample : ∃ k k₁, Run (setForward 6) Unwrapped k ∧
    k.kernelEntry (setForward 6) timerTrap = .ok k₁ ∧ Waits (setForward 6) 1 k₁ 0 0 k₁ ∧ 0 = 0 ∧ 0 ≤ 14 := by
  have hcreated : ((replay Unwrapped (setForward 6) (created ++ [timer])).any fun k =>
      ((k.procSet 1).Dispatchable ∧ k.mlfqLastResetTime ≠ 0 ∧
        (setForward 6).mtime (k.mtimeReads + 1) - k.mlfqLastResetTime ≥ mlfqResetPeriod) ∧
      ((k.kernelEntry (setForward 6) timerTrap).toOption.any fun k₁ => (k₁.procSet 1).Dispatchable) = true) = true := by
    decide +kernel
  obtain ⟨k, hk, hnext⟩ := (Option.any_eq_true _ _).mp hcreated
  obtain ⟨⟨hready, hexpired⟩, hnext⟩ := of_decide_eq_true hnext
  obtain ⟨k₁, hentry, hwaits⟩ := ok_of_any hnext
  have hrun : Run (setForward 6) Unwrapped k := Run.replay hk
  have hstart : Waits (setForward 6) 1 k₁ 0 0 k₁ := .start (of_decide_eq_true hwaits)
  exact ⟨k, k₁, hrun, hentry, hstart,
    reset_ends_waiting (setForward 6) k k₁ k₁ 1 timerTrap 0 0 hrun hexpired hready hentry hstart⟩

end OsSuite.Grass
