import OsSuite.Ipc

/-! `proc_yield` keeps the system call structs and the trace in agreement, and
leaves the process that it dispatches running. -/

namespace OsSuite.Grass

open Earth (Pid PageInfoTable)
open Rendezvous (Label Call Waiting waiting Valid Accepts)

variable {env : Env} {k k' : Kernel} {c i j s r : Slot} {us : List Slot}

theorem mem_scanOrder : ∀ {c i : Slot}, i ∈ scanOrder c ↔ i.val < 16 := by decide

theorem scanOrder_last : ∀ c : Slot, c.val < 16 → (scanOrder c).getLast? = some c := by decide

theorem scanOrder_nodup : ∀ c : Slot, (scanOrder c).Nodup := by decide

namespace Kernel

/-- The invariant between entries. -/
structure Sound (k : Kernel) : Prop where
  synced : Synced k.currProcIdx k []
  levels : k.Levels
  current : k.currProcIdx.val < 16
  running : ∀ i, (k.procSet i).status = .running ↔ i = k.currProcIdx

/-- The invariant when `proc_yield` is called. -/
structure Yielding (k : Kernel) : Prop where
  synced : Synced k.currProcIdx k (scanOrder k.currProcIdx)
  levels : k.Levels
  current : k.currProcIdx.val < 16
  live : k.curr.status ≠ .unused
  running : ∀ i, (k.procSet i).status = .running → i = k.currProcIdx

theorem Synced.start (h : Synced c k []) (c' : Slot) (us : List Slot) : Synced c' k us := by
  refine ⟨h.pids, h.valid, h.waits, h.idle, fun i hi htype hdone => ?_, fun s r hm => ?_⟩
  · cases (h.done i hi htype hdone).1
  · obtain ⟨-, pre, post, he, -⟩ := h.meets s r hm
    simp at he

theorem Sound.live (h : k.Sound) : k.curr.status ≠ .unused := by
  rw [curr, (h.running k.currProcIdx).mpr rfl]
  decide

theorem SameCalls.refl (k : Kernel) : k.SameCalls k :=
  ⟨fun _ => rfl, fun _ => rfl, fun _ => Iff.rfl, rfl⟩

theorem SameCalls.set {p : Process} (hpid : p.pid = (k.procSet i).pid)
    (hsyscall : p.syscall = (k.procSet i).syscall) (hi : ¬k.Blocked i)
    (hp : p.status ≠ .pendingSyscall) : k.SameCalls (k.set i p) := by
  refine ⟨fun j => ?_, fun j => ?_, fun j => ?_, rfl⟩
  · by_cases hj : j = i
    · rw [hj, set_self, hpid]
    · rw [set_of_ne k p hj]
  · by_cases hj : j = i
    · rw [hj, set_self, hsyscall]
    · rw [set_of_ne k p hj]
  · by_cases hj : j = i
    · subst hj
      rw [Blocked, set_self]
      exact ⟨fun h => absurd h hp, fun h => absurd h hi⟩
    · rw [Blocked, Blocked, set_of_ne k p hj]

theorem Yielding.pause_eq (h : k.Yielding) : k.pause = k ∧ k.curr.status ≠ .running ∨
    k.pause = k.set k.currProcIdx { k.curr with status := .runnable } ∧ k.curr.status = .running := by
  unfold pause
  split
  · rename_i hrun
    exact Or.inr ⟨h.synced.pids.procSetStatus_eq h.live h.current .runnable, hrun⟩
  · rename_i hrun
    exact Or.inl ⟨rfl, hrun⟩

/-- The state in which the scan of `proc_yield` starts. -/
structure Scanning (c : Slot) (k : Kernel) (us : List Slot) : Prop where
  synced : Synced c k us
  levels : k.Levels
  currProcIdx : k.currProcIdx = c
  idle : ∀ i, (k.procSet i).status ≠ .running

theorem Yielding.pause (h : k.Yielding) :
    Scanning k.currProcIdx k.pause (scanOrder k.currProcIdx) := by
  rcases h.pause_eq with ⟨he, hrun⟩ | ⟨he, hrun⟩
  · rw [he]
    refine ⟨h.synced, h.levels, rfl, fun i hi => ?_⟩
    rw [h.running i hi] at hi
    exact hrun hi
  · rw [he]
    have hi : ¬k.Blocked k.currProcIdx := by
      intro hb
      have hstatus : (k.procSet k.currProcIdx).status = .running := hrun
      rw [hb] at hstatus
      cases hstatus
    refine ⟨h.synced.of_sameCalls (.set rfl rfl hi nofun) (h.synced.pids.moves
      (.set rfl (Or.inr ⟨h.current, h.live, nofun⟩))), h.levels.set (h.levels _), rfl, fun i hi => ?_⟩
    by_cases hic : i = k.currProcIdx
    · rw [hic, set_self] at hi
      cases hi
    · rw [set_of_ne k _ hic] at hi
      exact hic (h.running i hi)

theorem Yielding.account (h : k.Yielding) (env : Env) :
    Scanning k.currProcIdx (k.account env) (scanOrder k.currProcIdx) := by
  have hpause := h.pause
  have hsame := account_sameIpc env k
  refine ⟨hpause.synced.of_sameCalls hsame.sameCalls (hpause.synced.pids.moves hsame.moves),
    account_levels h.levels env, hsame.currProcIdx.trans hpause.currProcIdx, fun i => ?_⟩
  rw [hsame.status]
  exact hpause.idle i

/-- A visit changes no pid and no level, and wakes blocked slots only. -/
theorem Visited.frame (h : k.Visited i k') (j : Slot) :
    (k'.procSet j).pid = (k.procSet j).pid ∧ (k'.procSet j).mlfqLevel = (k.procSet j).mlfqLevel ∧
      ((k'.procSet j).status = (k.procSet j).status ∨
        k.Blocked j ∧ (k'.procSet j).status = .runnable) := by
  cases h with
  | same h =>
    rw [h]
    exact ⟨rfl, rfl, Or.inl rfl⟩
  | marked hi r hsend hnames hr h =>
    rw [h]
    obtain ⟨hpid, hstatus, hlevel⟩ := mark_pid k i r j
    exact ⟨hpid, hlevel, Or.inl hstatus⟩
  | delivered s hs hsend hi hrecv hdone hsender h =>
    refine ⟨h.pid j, h.level j, ?_⟩
    rw [h.status]
    by_cases hj : j = s ∨ j = i
    · rw [if_pos hj]
      refine Or.inr ⟨?_, rfl⟩
      rcases hj with rfl | rfl
      · exact hs
      · exact hi
    · rw [if_neg hj]
      exact Or.inl rfl

theorem Visited.currProcIdx (h : k.Visited i k') : k'.currProcIdx = k.currProcIdx := by
  cases h with
  | same h => rw [h]
  | marked hi r hsend hnames hr h => rw [h]; rfl
  | delivered s hs hsend hi hrecv hdone hsender h => exact h.currProcIdx

theorem Visited.dispatchable (h : k.Visited i k') (hj : (k.procSet j).Dispatchable) :
    (k'.procSet j).Dispatchable := by
  rcases (h.frame j).2.2 with he | ⟨hb, -⟩
  · rw [Process.Dispatchable, he]
    exact hj
  · rcases hj with hj | hj <;>
    · rw [hb] at hj
      cases hj

theorem Scanning.retry (h : Scanning c k (i :: us)) (hretry : k.retry i = .ok k') :
    Scanning c k' us ∧ k.Visited i k' := by
  obtain ⟨hsynced, hvisited⟩ := h.synced.retry hretry
  refine ⟨⟨hsynced, fun j => ?_, hvisited.currProcIdx.trans h.currProcIdx, fun j hj => ?_⟩, hvisited⟩
  · rw [(hvisited.frame j).2.1]
    exact h.levels j
  · rcases (hvisited.frame j).2.2 with he | ⟨-, he⟩
    · exact h.idle j (he.symm.trans hj)
    · rw [hj] at he
      cases he

end Kernel

/-- The slot selected so far can be dispatched. -/
def Scan.Selects (s : Scan) : Prop :=
  s.nextIdx.val < 16 → (s.kernel.procSet s.nextIdx).Dispatchable

theorem Scan.visit_ok {s s' : Scan} (h : s.visit i = .ok s') :
    ∃ k', s.kernel.retry i = .ok k' ∧ s' =
      if (k'.procSet i).Dispatchable ∧ (k'.procSet i).mlfqLevel < s.lowestLevel then
        ⟨k', (k'.procSet i).mlfqLevel, i⟩
      else ⟨k', s.lowestLevel, s.nextIdx⟩ := by
  unfold Scan.visit at h
  obtain ⟨k', hretry, h⟩ := bind_eq_ok h
  refine ⟨k', hretry, ?_⟩
  change (if (k'.procSet i).Dispatchable ∧ (k'.procSet i).mlfqLevel < s.lowestLevel then
    Except.ok _ else Except.ok _) = _ at h
  split at h <;> cases h
  · rename_i hsel
    rw [if_pos hsel]
  · rename_i hsel
    rw [if_neg hsel]

theorem Scan.visits_rel {R : Kernel → Kernel → Prop} (hrefl : ∀ k, R k k)
    (htrans : ∀ k₁ k₂ k₃, R k₁ k₂ → R k₂ k₃ → R k₁ k₃)
    (hretry : ∀ k k' i, k.retry i = .ok k' → R k k') {s s' : Scan}
    (h : us.foldlM Scan.visit s = .ok s') : R s.kernel s'.kernel := by
  induction us generalizing s with
  | nil =>
    cases h
    exact hrefl _
  | cons i us ih =>
    rw [List.foldlM_cons] at h
    obtain ⟨s₁, hvisit, h⟩ := bind_eq_ok h
    obtain ⟨k₁, hfirst, rfl⟩ := Scan.visit_ok hvisit
    have hrest := ih h
    split at hrest <;> exact htrans _ _ _ (hretry _ _ i hfirst) hrest

theorem Scan.visit_sound {s s' : Scan} (h : Kernel.Scanning c s.kernel (i :: us))
    (hsel : s.Selects) (hvisit : s.visit i = .ok s') :
    Kernel.Scanning c s'.kernel us ∧ s'.Selects := by
  obtain ⟨k', hretry, rfl⟩ := Scan.visit_ok hvisit
  obtain ⟨hnext, hvisited⟩ := h.retry hretry
  split
  · rename_i hnew
    exact ⟨hnext, fun _ => hnew.1⟩
  · exact ⟨hnext, fun hlt => hvisited.dispatchable (hsel hlt)⟩

theorem Scan.visits_sound {s s' : Scan} (h : Kernel.Scanning c s.kernel us) (hsel : s.Selects)
    (hvisits : us.foldlM Scan.visit s = .ok s') :
    Kernel.Scanning c s'.kernel [] ∧ s'.Selects := by
  induction us generalizing s with
  | nil =>
    cases hvisits
    exact ⟨h, hsel⟩
  | cons i us ih =>
    rw [List.foldlM_cons] at hvisits
    obtain ⟨s₁, hvisit, hvisits⟩ := bind_eq_ok hvisits
    obtain ⟨hnext, hsel'⟩ := Scan.visit_sound h hsel hvisit
    exact ih hnext hsel' hvisits

namespace Kernel

theorem enter_ipc (p : Process) : p.enter.pid = p.pid ∧ p.enter.syscall = p.syscall ∧
    p.enter.mlfqLevel = p.mlfqLevel ∧ p.enter.status = p.status := by
  unfold Process.enter
  split <;> exact ⟨rfl, rfl, rfl, rfl⟩

/-- Dispatching sets the slot, the current index and nothing else that IPC looks at. -/
theorem dispatch_eq (hp : k.Pids) (hi : i.val < 16) (hlive : (k.procSet i).status ≠ .unused)
    (currentTime : UInt64) :
    k.dispatch currentTime i =
      { k.set i { ((k.procSet i).stamp currentTime).enter with status := .running } with
        currProcIdx := i
        log := k.log ++ [.mmuSwitch (k.procSet i).pid, .timerReset] } := by
  obtain ⟨hpid, -, -, hstatus⟩ := enter_ipc ((k.procSet i).stamp currentTime)
  let p := ((k.procSet i).stamp currentTime).enter
  let k₁ : Kernel := { k.set i p with
    currProcIdx := i
    log := k.log ++ [.mmuSwitch (k.procSet i).pid] }
  have hm : k.Moves (k.set i p) := .set hpid (Or.inl hstatus)
  have hp₁ : k₁.Pids := hp.moves ⟨hm.pid, hm.status, hm.lastPid⟩
  have hself : k₁.procSet i = p := Function.update_self _ _ _
  have hrun := hp₁.procSetStatus_eq (by rw [hself, hstatus]; exact hlive) hi .running
  rw [hself] at hrun
  have hdispatch : k.dispatch currentTime i = (k₁.procSetStatus p.pid .running).record .timerReset := by
    simp only [dispatch, procSetRunning, k₁, p, hpid, Kernel.set, record, Function.update_idem]
    rfl
  rw [hdispatch, hrun]
  simp [Kernel.set, record, k₁, p]

theorem Scanning.dispatch (h : Scanning c k []) (hi : i.val < 16) (hd : (k.procSet i).Dispatchable)
    (currentTime : UInt64) : (k.dispatch currentTime i).Sound := by
  obtain ⟨hpid, hsyscall, hlevel, -⟩ := enter_ipc ((k.procSet i).stamp currentTime)
  have hlive : (k.procSet i).status ≠ .unused := by
    rcases hd with hd | hd <;> rw [hd] <;> decide
  have hidle : ¬k.Blocked i := by
    intro hb
    rcases hd with hd | hd <;>
    · rw [hb] at hd
      cases hd
  let p := { ((k.procSet i).stamp currentTime).enter with status := .running }
  have hm : k.Moves (k.set i p) := .set hpid (Or.inr ⟨hi, hlive, nofun⟩)
  have hcalls : k.SameCalls (k.set i p) := .set hpid hsyscall hidle nofun
  have heq := dispatch_eq h.synced.pids hi hlive currentTime
  have htrace : (k.dispatch currentTime i).trace = k.trace := by
    rw [heq, trace, List.filterMap_append]
    simp [Event.label, trace]
  have hslots : (k.dispatch currentTime i).procSet = (k.set i p).procSet := by
    rw [heq]
  have hcalls' : k.SameCalls (k.dispatch currentTime i) := by
    refine ⟨fun j => ?_, fun j => ?_, fun j => ?_, htrace⟩
    · rw [hslots]
      exact hcalls.pid j
    · rw [hslots]
      exact hcalls.syscall j
    · rw [Blocked, hslots]
      exact hcalls.blocked j
  have hpids : (k.dispatch currentTime i).Pids := by
    refine h.synced.pids.moves ⟨fun j => ?_, fun j => ?_, by rw [heq]; rfl⟩
    · rw [hslots]
      exact hm.pid j
    · rw [hslots]
      exact hm.status j
  have hcurr : (k.dispatch currentTime i).currProcIdx = i := by rw [heq]
  refine ⟨(h.synced.of_sameCalls hcalls' hpids).start _ _, fun j => ?_, by rw [hcurr]; exact hi,
    fun j => ?_⟩
  · rw [hslots]
    exact h.levels.set (by rw [hlevel]; exact h.levels i) j
  · rw [hslots, hcurr]
    by_cases hj : j = i
    · rw [hj, set_self]
      exact ⟨fun _ => rfl, fun _ => rfl⟩
    · rw [set_of_ne k _ hj]
      exact ⟨fun hrun => absurd hrun (h.idle j), fun he => absurd he hj⟩

theorem Yielding.scan {s : Scan} (h : k.Yielding) (hscan : (k.account env).scan = .ok s) :
    Scanning k.currProcIdx s.kernel [] ∧ s.Selects := by
  have haccount := h.account env
  unfold Kernel.scan at hscan
  rw [haccount.currProcIdx] at hscan
  have hselects : Scan.Selects ⟨k.account env, 5, Fin.ofNat 17 maxNprocess⟩ :=
    fun hlt => absurd hlt (show ¬(Fin.ofNat 17 maxNprocess).val < 16 by decide)
  exact Scan.visits_sound haccount hselects hscan

theorem procYield_ok (h : k.procYield env = .ok k') :
    ∃ s, (k.account env).scan = .ok s ∧ s.nextIdx.val < 16 ∧
      k' = s.kernel.dispatch (k.mtimeGet env) s.nextIdx := by
  unfold procYield at h
  obtain ⟨s, hscan, h⟩ := bind_eq_ok h
  refine ⟨s, hscan, ?_⟩
  change (if s.nextIdx.val < maxNprocess then Except.ok _ else Except.error _) = _ at h
  split at h <;> cases h
  rename_i hlt
  exact ⟨hlt, rfl⟩

theorem Yielding.sound (h : k.Yielding) (hyield : k.procYield env = .ok k') : k'.Sound := by
  obtain ⟨s, hscan, hlt, rfl⟩ := procYield_ok hyield
  obtain ⟨hend, hselects⟩ := h.scan hscan
  exact hend.dispatch hlt (hselects hlt) _

end Kernel

end OsSuite.Grass
