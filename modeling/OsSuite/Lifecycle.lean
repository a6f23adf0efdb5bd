import OsSuite.Delivery

/-! The life of a slot of the process table: nothing but `proc_alloc` brings it back from
PROC_UNUSED, and nothing but `proc_set_ready` and `proc_free` takes it out of PROC_LOADING. -/

namespace OsSuite.Grass

open Earth (Pid PageInfoTable)

variable {env : Env} {k k' : Kernel} {c i j : Slot} {us : List Slot}

/-- A slot that holds no process, or one that GPID_PROCESS is still loading. -/
def Process.Dormant (p : Process) : Prop := p.status = .unused ∨ p.status = .loading

theorem Process.Dormant.ne_running {p : Process} (h : p.Dormant) : p.status ≠ .running := by
  rcases h with h | h <;> rw [h] <;> decide

theorem Process.Dormant.not_dispatchable {p : Process} (h : p.Dormant) : ¬p.Dispatchable := by
  intro hd
  rcases h with h | h <;> rcases hd with hd | hd <;> rw [h] at hd <;> cases hd

namespace Kernel

theorem Visited.dormant (h : k.Visited i k') (hj : (k.procSet j).Dormant) :
    (k'.procSet j).status = (k.procSet j).status := by
  rcases (h.frame j).2.2 with he | ⟨hb, -⟩
  · exact he
  · rcases hj with hj | hj <;>
    · rw [hb] at hj
      cases hj

end Kernel

theorem Scan.visits_dormant {s s' : Scan} (h : Kernel.Scanning c s.kernel us)
    (hvisits : us.foldlM Scan.visit s = .ok s') (hj : (s.kernel.procSet j).Dormant) :
    (s'.kernel.procSet j).status = (s.kernel.procSet j).status := by
  induction us generalizing s with
  | nil =>
    cases hvisits
    rfl
  | cons i us ih =>
    rw [List.foldlM_cons] at hvisits
    obtain ⟨s₁, hvisit, hvisits⟩ := bind_eq_ok hvisits
    obtain ⟨k₁, hretry, hs₁⟩ := Scan.visit_ok hvisit
    obtain ⟨hnext, hvisited⟩ := h.retry hretry
    have hkernel : s₁.kernel = k₁ := by
      rw [hs₁]
      split <;> rfl
    have hstatus := hvisited.dormant hj
    rw [← hkernel] at hnext hstatus
    have hj₁ : (s₁.kernel.procSet j).Dormant := by
      rw [Process.Dormant, hstatus]
      exact hj
    exact (ih hnext hvisits hj₁).trans hstatus

namespace Kernel

theorem Yielding.account_dormant (h : k.Yielding) (env : Env) (hi : (k.procSet i).Dormant) :
    ((k.account env).procSet i).status = (k.procSet i).status := by
  rw [(account_sameIpc env k).status]
  rcases h.pause_eq with ⟨he, -⟩ | ⟨he, hrun⟩
  · rw [he]
  · have hne : i ≠ k.currProcIdx := by
      rintro rfl
      exact hi.ne_running hrun
    rw [he, set_of_ne k _ hne]

theorem Yielding.dormant (h : k.Yielding) (hyield : k.procYield env = .ok k') (hi : (k.procSet i).Dormant) :
    (k'.procSet i).status = (k.procSet i).status ∧ i ≠ k'.currProcIdx := by
  obtain ⟨s, hscan, hlt, rfl⟩ := procYield_ok hyield
  obtain ⟨hend, hselects⟩ := h.scan hscan
  have haccount := h.account_dormant env hi
  have hi₁ : ((k.account env).procSet i).Dormant := by
    rw [Process.Dormant, haccount]
    exact hi
  have hstatus : (s.kernel.procSet i).status = (k.procSet i).status := by
    have hstart := h.account env
    unfold Kernel.scan at hscan
    rw [hstart.currProcIdx] at hscan
    exact (Scan.visits_dormant (s := ⟨k.account env, 5, Fin.ofNat 17 maxNprocess⟩) hstart hscan hi₁).trans haccount
  have hdispatchable := hselects hlt
  have hne : i ≠ s.nextIdx := by
    rintro rfl
    have hdormant : (s.kernel.procSet s.nextIdx).Dormant := by
      rw [Process.Dormant, hstatus]
      exact hi
    exact hdormant.not_dispatchable hdispatchable
  have hlive : (s.kernel.procSet s.nextIdx).status ≠ .unused := by
    rcases hdispatchable with hd | hd <;> rw [hd] <;> decide
  rw [dispatch_eq hend.synced.pids hlt hlive]
  exact ⟨(congrArg Process.status (Function.update_of_ne hne _ _)).trans hstatus, hne⟩

theorem Sound.not_current (h : k.Sound) (hi : (k.procSet i).Dormant) : i ≠ k.currProcIdx := by
  intro he
  exact hi.ne_running ((h.running i).mpr he)

theorem Sound.acceptSyscall_dormant (h : k.Sound) {syscall : Syscall} (haccept : k.acceptSyscall syscall = .ok k')
    (hi : (k.procSet i).Dormant) : (k'.procSet i).status = (k.procSet i).status := by
  obtain ⟨hsynced, hretry⟩ := h.accepted haccept
  obtain ⟨-, hvisited⟩ := hsynced.retry hretry
  have hsame := called_other k syscall (h.not_current hi)
  rw [← hsame] at hi ⊢
  exact hvisited.dormant hi

theorem Sound.untilYield_dormant (h : k.Sound) {t : Trap} (ht : k.untilYield t = .ok k')
    (hi : (k.procSet i).Dormant) : (k'.procSet i).status = (k.procSet i).status := by
  have hne := h.not_current hi
  have hsame : (k.saved t).procSet i = k.procSet i := set_of_ne k _ hne
  rcases untilYield_ok ht with ⟨-, rfl | rfl⟩ | ⟨-, haccept⟩
  · rw [hsame]
  · have hcounted : (k.saved t).counted.procSet i = k.procSet i :=
      (set_of_ne (k.saved t) _ hne).trans hsame
    rw [hcounted]
  · rw [← hsame] at hi ⊢
    exact (h.saved t).acceptSyscall_dormant haccept hi

/-- An entry of the kernel leaves a dormant slot dormant, and does not dispatch it. -/
theorem Sound.entry_dormant (h : k.Sound) {t : Trap} (hentry : k.kernelEntry env t = .ok k')
    (hi : (k.procSet i).Dormant) :
    (k'.procSet i).status = (k.procSet i).status ∧ i ≠ k'.currProcIdx := by
  obtain ⟨k₁, huntil, hyield⟩ := kernelEntry_ok hentry
  have hstatus := h.untilYield_dormant huntil hi
  have hi₁ : (k₁.procSet i).Dormant := by
    rw [Process.Dormant, hstatus]
    exact hi
  obtain ⟨hkept, hne⟩ := (h.untilYield huntil).dormant hyield hi₁
  exact ⟨hkept.trans hstatus, hne⟩

end Kernel

namespace Kernel

theorem Released.unused {p : Pid} (h : k.Released k' p) (hi : (k.procSet i).status = .unused) :
    (k'.procSet i).status = .unused := by
  rw [h.status]
  split
  · rfl
  · exact hi

theorem freeUsers_unused {q : List Slot} (hp : k.Pids) (hq : ∀ i ∈ q, i.val < 16)
    (hi : (k.procSet i).status = .unused) :
    ((q.foldl (freeUser env) k).procSet i).status = .unused := by
  induction q generalizing k with
  | nil => exact hi
  | cons j q ih =>
    rw [List.foldl_cons]
    have hrest : ∀ l ∈ q, l.val < 16 := fun l hl => hq l (List.mem_cons_of_mem _ hl)
    by_cases hlive : (k.procSet j).LiveUser
    · have hr := @freeUser_released env _ _ hp (hq j List.mem_cons_self) hlive
      exact ih (hp.released hr) hrest (hr.unused hi)
    · have hsame : k.freeUser env j = k := by rw [freeUser, if_neg hlive]
      rw [hsame]
      exact ih hp hrest hi

theorem procFree_unused {p : Pid} (hp : k.Pids) (hi : (k.procSet i).status = .unused) :
    ((k.procFree env p).procSet i).status = .unused := by
  by_cases hall : p = gpidAll
  · rw [procFree, if_neg (not_not_intro hall)]
    exact freeUsers_unused hp (fun i hi => mem_scannedSlots.mp hi) hi
  · cases hfirst : k.firstUser with
    | none =>
      rw [procFree, if_pos hall, hfirst]
      exact hi
    | some j => exact (procFree_released hall hfirst).unused hi

end Kernel

/-- `proc_alloc` takes the slot `i`, for a process whose pid no slot has held so far. -/
structure Claims (k : Kernel) (a : Action) (i : Slot) : Prop where
  action : a = .procAlloc
  slot : k.unusedSlot = some i
  fresh : ∀ j, (k.procSet j).pid ≠ pidOf (k.lastPid + 1)

/-- One step: a dead slot stays dead, with its pid, or is claimed. -/
theorem Action.step_unused {a : Action} (h : k.Sound) (hallowed : a.Allowed k) (hwrap : Unwrapped k a)
    (hstep : a.step env k = .ok k') (hi : (k.procSet i).status = .unused) :
    (k'.procSet i).status = .unused ∨ Claims k a i := by
  cases a with
  | trap t => exact Or.inl ((h.entry_dormant hstep (Or.inl hi)).1.trans hi)
  | procAlloc =>
    obtain ⟨pid, halloc⟩ := Action.procAlloc_ok hstep
    obtain ⟨j, hslot, -, hk'⟩ := Kernel.procAlloc_ok halloc
    by_cases hij : i = j
    · exact Or.inr ⟨rfl, hij ▸ hslot, h.synced.pids.fresh (hwrap rfl)⟩
    · refine Or.inl ?_
      rw [hk']
      exact (congrArg Process.status (Function.update_of_ne hij _ _)).trans hi
  | procSetReady p =>
    cases hstep
    obtain ⟨-, j, rfl, hj⟩ := hallowed
    have hlive : (k.procSet j).status ≠ .unused := by
      rw [hj]
      decide
    refine Or.inl ?_
    change (if i.val < maxNprocess ∧ (k.procSet i).pid = (k.procSet j).pid then _ else _ : Process).status = _
    rw [if_neg]
    · exact hi
    · rintro ⟨-, hpid⟩
      rw [h.synced.pids.live_eq hlive hpid] at hi
      exact hlive hi
  | procFree p =>
    cases hstep
    exact Or.inl (Kernel.procFree_unused h.synced.pids hi)

/-- The run goes on from one state to another; each step is kept, with the state before it. -/
inductive Continues (env : Env) (condition : Kernel → Action → Prop) (k : Kernel) :
    List (Kernel × Action) → Kernel → Prop where
  | refl : Continues env condition k [] k
  | step {steps : List (Kernel × Action)} {u v : Kernel} {a : Action}
    (h : Continues env condition k steps u) (hallowed : a.Allowed u) (hcondition : condition u a)
    (hstep : a.step env u = .ok v) : Continues env condition k (steps ++ [(u, a)]) v

theorem Continues.run {condition : Kernel → Action → Prop} {steps : List (Kernel × Action)}
    (h : Continues env condition k steps k') (hrun : Run env condition k) : Run env condition k' := by
  induction h with
  | refl => exact hrun
  | step h hallowed hcondition hstep ih => exact .step ih hallowed hcondition hstep

/-- A dead slot stays dead until it is claimed. -/
theorem Continues.unused {steps : List (Kernel × Action)} (h : Continues env Unwrapped k steps k')
    (hrun : Run env Unwrapped k) (hi : (k.procSet i).status = .unused) :
    (k'.procSet i).status = .unused ∨ ∃ x ∈ steps, Claims x.1 x.2 i := by
  induction h with
  | refl => exact Or.inl hi
  | @step steps u v a h hallowed hcondition hstep ih =>
    rcases ih with hdead | ⟨x, hx, hclaims⟩
    · have hsound := (h.run hrun).sound fun _ _ hwrap => hwrap
      rcases Action.step_unused hsound hallowed hcondition hstep hdead with hdead | hclaims
      · exact Or.inl hdead
      · exact Or.inr ⟨(u, a), by simp, hclaims⟩
    · exact Or.inr ⟨x, List.mem_append_left _ hx, hclaims⟩

/-- Pids are distinct, the current process alone is running, a process being loaded is not
dispatched, and a freed slot stays free until it is claimed with a new pid. -/
theorem process_lifecycle (env : Env) (k : Kernel) (h : Run env Unwrapped k) :
    (∀ i j, (k.procSet i).pid ≠ 0 → (k.procSet i).pid = (k.procSet j).pid → i = j) ∧
    (∀ i, (k.procSet i).status = .running ↔ i = k.currProcIdx) ∧
    (∀ t k', k.kernelEntry env t = .ok k' → ∀ i, (k.procSet i).status = .loading →
      (k'.procSet i).status = .loading ∧ i ≠ k'.currProcIdx) ∧
    ∀ steps k', Continues env Unwrapped k steps k' → ∀ i, (k.procSet i).status = .unused →
      (k'.procSet i).status = .unused ∨ ∃ x ∈ steps, Claims x.1 x.2 i := by
  have hsound := h.sound fun _ _ hwrap => hwrap
  refine ⟨fun i j hne hpid => hsound.synced.pids.distinct i j hpid hne, hsound.running,
    fun t k' hentry i hi => ?_, fun steps k' hsteps i hi => hsteps.unused h hi⟩
  obtain ⟨hstatus, hne⟩ := hsound.entry_dormant hentry (Or.inr hi)
  exact ⟨hstatus.trans hi, hne⟩

theorem process_lifecycle_sample : ∃ k, replay Unwrapped still exchange = some k ∧
    ∀ i, (k.procSet i).status = .running ↔ i = k.currProcIdx := by
  obtain ⟨k, hk⟩ : ∃ k, replay Unwrapped still exchange = some k :=
    Option.isSome_iff_exists.mp (by decide +kernel)
  exact ⟨k, hk, (process_lifecycle still k (Run.replay hk)).2.1⟩

end OsSuite.Grass
