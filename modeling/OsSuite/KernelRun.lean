import OsSuite.KernelSteps

/-! The invariant over the runs of the kernel, and runs of given actions. -/

namespace OsSuite.Grass

open Earth (Pid PageInfoTable)
open Rendezvous (Label Call Waiting waiting Valid Accepts)

variable {env : Env} {k k' : Kernel} {c i j s r : Slot} {us : List Slot}

namespace Kernel

/-- The table after `grass_entry`: GPID_PROCESS alone, in slot 1. -/
theorem grassEntry_slots {table : PageInfoTable} (h : grassEntry env table = .ok k) :
    (∀ i, k.procSet i = if i = 1 then
        { Process.zero.claim gpidProcess (env.mtime 0) with status := .running }
      else Process.zero) ∧
    k.currProcIdx = 1 ∧ k.lastPid = 1 ∧ k.trace = [] := by
  have halloc : (Kernel.zero table).procAlloc env = .ok (gpidProcess,
      { (Kernel.zero table).mtimeRead.set 1 (Process.zero.claim gpidProcess (env.mtime 0)) with
        lastPid := 1 }) := by
    have hslot : (Kernel.zero table).unusedSlot = some 1 := by
      rw [unusedSlot_eq]
      refine ⟨by decide, rfl, fun j hj hlt => ?_⟩
      have : j.val < 1 := hlt
      omega
    unfold Kernel.procAlloc
    rw [hslot]
    rfl
  unfold grassEntry at h
  rw [halloc] at h
  cases h
  refine ⟨fun i => ?_, rfl, rfl, rfl⟩
  by_cases hi : i = 1
  · subst hi
    rfl
  · have hset : ((Kernel.zero table).mtimeRead.set 1
        (Process.zero.claim gpidProcess (env.mtime 0))).procSet i = Process.zero :=
      Function.update_of_ne hi _ _
    change (if i.val < maxNprocess ∧ (((Kernel.zero table).mtimeRead.set 1 _).procSet i).pid = _ then _
      else _) = _
    rw [hset, if_neg hi, if_neg fun he => absurd he.2 (by decide)]

theorem Sound.boot {table : PageInfoTable} (h : grassEntry env table = .ok k) : k.Sound := by
  obtain ⟨hslots, hcurr, hlast, htrace⟩ := grassEntry_slots h
  have hself : k.procSet 1 = { Process.zero.claim gpidProcess (env.mtime 0) with status := .running } := by
    rw [hslots, if_pos rfl]
  have hother : ∀ i, i ≠ 1 → k.procSet i = Process.zero := fun i hi => by rw [hslots, if_neg hi]
  have hidle : ∀ i, ¬k.Blocked i := by
    intro i hb
    by_cases hi : i = 1
    · rw [hi, Blocked, hself] at hb
      cases hb
    · rw [Blocked, hother i hi] at hb
      cases hb
  have hpids : k.Pids := by
    refine ⟨fun i => ?_, fun i j hpid hne => ?_, fun i hi => ?_, ?_⟩
    · by_cases hi : i = 1
      · rw [hi, hself, hlast]
        exact ⟨1, UInt32.le_refl _, rfl⟩
      · rw [hother i hi]
        exact ⟨0, UInt32.zero_le, rfl⟩
    · by_cases hi : i = 1 <;> by_cases hj : j = 1
      · rw [hi, hj]
      · rw [hi, hself, hother j hj] at hpid
        cases hpid
      · rw [hother i hi] at hne
        exact absurd rfl hne
      · rw [hother i hi] at hne
        exact absurd rfl hne
    · by_cases h1 : i = 1
      · rw [h1, hself] at hi
        cases hi
      · rw [hother i h1]
        rfl
    · rw [hother 16 (by decide)]
      exact Or.inl rfl
  refine ⟨⟨hpids, by rw [htrace]; exact .nil, fun i hi => absurd hi (hidle i), fun p _ => by rw [htrace]; rfl,
    fun i hi => absurd hi (hidle i), fun s r hm => absurd hm.sender (hidle s)⟩, fun i => ?_,
    by rw [hcurr]; decide, fun i => ?_⟩
  · by_cases hi : i = 1
    · rw [hi, hself]
      exact Nat.zero_le 4
    · rw [hother i hi]
      exact Nat.zero_le 4
  · rw [hcurr]
    by_cases hi : i = 1
    · rw [hi, hself]
      exact ⟨fun _ => rfl, fun _ => rfl⟩
    · rw [hother i hi]
      exact ⟨by rintro ⟨⟩, fun he => absurd he hi⟩

end Kernel

theorem Action.step_sound {a : Action} (h : k.Sound) (hallowed : a.Allowed k) (hwrap : Unwrapped k a)
    (hstep : a.step env k = .ok k') : k'.Sound := by
  cases a with
  | trap t =>
    have hentry : k.kernelEntry env t = .ok k' := hstep
    obtain ⟨k₁, huntil, hyield⟩ := Kernel.kernelEntry_ok hentry
    exact (h.untilYield huntil).sound hyield
  | procAlloc =>
    obtain ⟨pid, halloc⟩ := Action.procAlloc_ok hstep
    exact h.procAlloc (hwrap rfl) halloc
  | procSetReady p =>
    cases hstep
    exact h.procSetReady hallowed.2
  | procFree p =>
    cases hstep
    exact h.procFree hallowed.1 hallowed.2

/-- The invariant holds as long as the counter of `proc_alloc` does not wrap. -/
theorem Run.sound {condition : Kernel → Action → Prop} (h : Run env condition k)
    (hwrap : ∀ k a, condition k a → Unwrapped k a) : k.Sound := by
  induction h with
  | boot h => exact Kernel.Sound.boot h
  | step _ hallowed hcondition hstep ih => exact Action.step_sound ih hallowed (hwrap _ _ hcondition) hstep

instance (k : Kernel) (a : Action) : Decidable (Unwrapped k a) :=
  match a with
  | .trap _ => isTrue nofun
  | .procAlloc => decidable_of_iff (k.lastPid + 1 ≠ 0) ⟨fun h _ => h, fun h => h rfl⟩
  | .procSetReady _ => isTrue nofun
  | .procFree _ => isTrue nofun

section Replay

variable {condition : Kernel → Action → Prop} [∀ k a, Decidable (condition k a)]

/-- One step of a run, if the action meets what the run asks of it. -/
def follow (condition : Kernel → Action → Prop) [∀ k a, Decidable (condition k a)] (env : Env)
    (k : Kernel) (a : Action) : Option Kernel :=
  if a.Allowed k ∧ condition k a then (a.step env k).toOption else none

/-- The run of a list of actions from boot, with no page in use. -/
def replay (condition : Kernel → Action → Prop) [∀ k a, Decidable (condition k a)] (env : Env)
    (actions : List Action) : Option Kernel :=
  (Kernel.grassEntry env fun _ => Earth.PageInfo.zero).toOption.bind fun k =>
    actions.foldlM (follow condition env) k

theorem follow_eq {a : Action} (h : follow condition env k a = some k') :
    a.Allowed k ∧ condition k a ∧ a.step env k = .ok k' := by
  unfold follow at h
  split at h
  · rename_i hcond
    exact ⟨hcond.1, hcond.2, ok_of_toOption h⟩
  · cases h

theorem Run.foldlM {actions : List Action} (h : Run env condition k)
    (hsteps : actions.foldlM (follow condition env) k = some k') : Run env condition k' := by
  induction actions generalizing k with
  | nil =>
    cases hsteps
    exact h
  | cons a actions ih =>
    rw [List.foldlM_cons] at hsteps
    obtain ⟨k₁, hstep, hrest⟩ := Option.bind_eq_some_iff.mp hsteps
    obtain ⟨hallowed, hcondition, hstep⟩ := follow_eq hstep
    exact ih (.step h hallowed hcondition hstep) hrest

theorem Run.replay {actions : List Action} (h : replay condition env actions = some k) :
    Run env condition k := by
  obtain ⟨k₀, hboot, hsteps⟩ := Option.bind_eq_some_iff.mp h
  exact Run.foldlM (.boot (ok_of_toOption hboot)) hsteps

end Replay

/-- A system call of the current process, to or from the process `p`. -/
def ecall (type : SyscallType) (p : Pid) (content : Content) : Action :=
  .trap ⟨0, fun _ => 0, excpIdEcallU, ⟨type, p, p, content, .done⟩⟩

def timerTrap : Trap := ⟨0, fun _ => 0, 0x80000000 + intrIdTimer, Syscall.zero⟩

def timer : Action := .trap ⟨0, fun _ => 0, 0x80000000 + intrIdTimer, Syscall.zero⟩

/-- Time stands still, and no key is pressed. -/
def still : Env := ⟨fun _ => 1, fun _ => true⟩

end OsSuite.Grass
