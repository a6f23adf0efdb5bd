import OsSuite.Delivery
import OsSuite.ProcFree

/-! No wake-up is lost while pids are unique. Once the counter of `proc_alloc` has
wrapped, GPID_PROCESS can share its pid with a new process, and one is. -/

namespace OsSuite.Grass

open Earth (Pid PageInfoTable)

variable {env : Env} {k k' : Kernel} {n : UInt32}

/-- At the end of an entry no sender and receiver that accept each other are both blocked, and
no receive that is done has been left blocked. -/
theorem no_lost_wakeup (env : Env) (k : Kernel) (h : Run env Unwrapped k) :
    (∀ s r, ¬k.Meets s r) ∧
    ∀ i, k.Blocked i → (k.procSet i).syscall.type = .recv → (k.procSet i).syscall.status ≠ .done := by
  have hsynced := (h.sound fun _ _ hwrap => hwrap).synced
  constructor
  · intro s r hm
    obtain ⟨-, pre, post, he, -⟩ := hsynced.meets s r hm
    simp at he
  · intro i hi htype hdone
    cases (hsynced.done i hi htype hdone).1

theorem no_lost_wakeup_sample : ∃ k, replay Unwrapped still exchange = some k ∧
    (∀ s r, ¬k.Meets s r) ∧
    ∀ i, k.Blocked i → (k.procSet i).syscall.type = .recv → (k.procSet i).syscall.status ≠ .done := by
  obtain ⟨k, hk⟩ : ∃ k, replay Unwrapped still exchange = some k :=
    Option.isSome_iff_exists.mp (by decide +kernel)
  exact ⟨k, hk, no_lost_wakeup still k (Run.replay hk)⟩

instance anyAction_decidable (k : Kernel) (a : Action) : Decidable ((fun _ _ => True : Kernel → Action → Prop) k a) :=
  inferInstanceAs (Decidable True)

/-- Process 2 waits to send to process 1, and process 6 is freed while it receives. -/
def leaveReceive : List Action :=
  [.procAlloc, .procAlloc, .procAlloc, .procAlloc, .procAlloc, .procSetReady 2, .procSetReady 6,
    timer, ecall .send 1 fun _ => 0, ecall .recv gpidAll fun _ => 0, .procSetReady 3, .procFree 6]

def received : Kernel :=
  (replay (fun _ _ => True) still leaveReceive).getD (Kernel.zero fun _ => Earth.PageInfo.zero)

theorem received_run : Run still (fun _ _ => True) received := by
  obtain ⟨k, hk⟩ : ∃ k, replay (fun _ _ => True) still leaveReceive = some k :=
    Option.isSome_iff_exists.mp (by decide +kernel)
  rw [received, hk]
  exact Run.replay hk

theorem received_pid : ∀ i, i ≠ 6 → ∃ m : Fin 6, (received.procSet i).pid = pidOf (UInt32.ofNat m) := by
  decide +kernel

theorem received_used : ∀ i : Slot, 0 < i.val → i < 6 → (received.procSet i).status ≠ .unused := by
  decide +kernel

theorem received_user : (received.procSet 5).LiveUser ∧ (∀ i < 5, ¬(received.procSet i).LiveUser) ∧
    (received.procSet 5).timeTerminated = 1 := by
  decide +kernel

theorem received_six : (received.procSet 6).status = .unused ∧ (received.procSet 6).pid = pidOf 6 ∧
    received.lastPid = 6 ∧ received.curr.pid = gpidProcess := by
  decide +kernel

/-- The state of `received` again, with the process `p` last in slot 6. -/
def reached (n : UInt32) (p : Process) (r : Nat × PageInfoTable × List Event) : Kernel :=
  { received with
    procSet := Function.update received.procSet 6 p
    lastPid := n
    mtimeReads := r.1
    pageInfoTable := r.2.1
    log := r.2.2 }

variable {p : Process} {r : Nat × PageInfoTable × List Event}

theorem reached_slots :
    (reached n p r).procSet = Function.update received.procSet 6 p := rfl

theorem reached_six : (reached n p r).procSet 6 = p := by
  rw [reached_slots, Function.update_self]

theorem reached_other {i : Slot} (hi : i ≠ 6) :
    (reached n p r).procSet i = received.procSet i := by
  rw [reached_slots, Function.update_of_ne hi]

theorem reached_curr : (reached n p r).curr.pid = gpidProcess := by
  have hcurr : (reached n p r).curr = received.curr :=
    reached_other (by decide +kernel : received.currProcIdx ≠ 6)
  rw [hcurr]
  exact received_six.2.2.2

theorem reached_procAlloc (hunused : p.status = .unused)
    (hp : ∀ q, p.claim q 1 = (received.procSet 6).claim q 1) :
    ∃ r', (reached n p r).procAlloc still = .ok (pidOf (n + 1),
      reached (n + 1) ((received.procSet 6).claim (pidOf (n + 1)) 1) r') := by
  have hslot : (reached n p r).unusedSlot = some 6 := by
    rw [Kernel.unusedSlot_eq, reached_six]
    refine ⟨by decide, hunused, fun j hj hlt => ?_⟩
    rw [reached_other (ne_of_lt hlt)]
    exact received_used j hj hlt
  refine ⟨(r.1 + 1, r.2.1, r.2.2), ?_⟩
  rw [Kernel.procAlloc, hslot]
  dsimp only
  rw [reached_six, ← hp]
  simp only [reached, Kernel.set, Kernel.mtimeRead, Function.update_idem]
  rfl

/-- The pids given out before the wrap are no pid of another slot, and not GPID_ALL. -/
theorem pidOf_other {n : UInt32} (hlow : 6 < n.toNat) (hhigh : n.toNat < 4294967295) {i : Slot}
    (hi : i ≠ 6) : (received.procSet i).pid ≠ pidOf n ∧ pidOf n ≠ gpidAll ∧ pidOf n ≠ gpidProcess := by
  refine ⟨fun he => ?_, fun he => ?_, fun he => ?_⟩
  · obtain ⟨m, hm⟩ := received_pid i hi
    have hn := pidOf_injective (hm.symm.trans he)
    have hm6 : m.val < UInt32.size := Nat.lt_trans m.isLt (by decide)
    rw [← hn, UInt32.toNat_ofNat_of_lt' hm6] at hlow
    omega
  · have hn : n = 4294967295 := pidOf_injective he
    rw [hn] at hhigh
    exact absurd hhigh (by decide)
  · have hn : n = 1 := pidOf_injective he
    rw [hn] at hlow
    exact absurd hlow (by decide)

theorem reached_procFree (hlow : 6 < n.toNat) (hhigh : n.toNat < 4294967295) (hp : p.pid = pidOf n) :
    ∃ r', (reached n p r).procFree still (pidOf n) =
      reached n { p with status := .unused } r' := by
  have hfirst : (reached n p r).firstUser = some 5 := by
    rw [firstUser_eq, reached_other (by decide)]
    refine ⟨by decide, received_user.1, fun j hj => ?_⟩
    rw [reached_other (ne_of_lt (hj.trans (by decide)))]
    exact received_user.2.1 j hj
  have hstamp : ({ received.procSet 5 with timeTerminated := 1 } : Process) = received.procSet 5 := by
    rw [← received_user.2.2]
  have hfree := (pidOf_other hlow hhigh (show (5 : Slot) ≠ 6 by decide)).2.1
  refine ⟨(r.1 + 1, Earth.freePages r.2.1 (pidOf n), r.2.2 ++
    [.terminated (received.procSet 5).lifecycle] ++ [.mmuFree (pidOf n)]), ?_⟩
  have hterm : (reached n p r).terminate still 5 =
      reached n p (r.1 + 1, r.2.1, r.2.2 ++
        [.terminated (received.procSet 5).lifecycle]) := by
    have hother : (reached n p r).procSet 5 = received.procSet 5 := reached_other (by decide)
    have hset : Function.update (reached n p r).procSet 5 (received.procSet 5) =
        (reached n p r).procSet := by
      rw [← hother, Function.update_eq_self]
    rw [Kernel.terminate, hother]
    change ((reached n p r).mtimeRead.set 5 { received.procSet 5 with timeTerminated := 1 }).record
      (.terminated (Process.lifecycle { received.procSet 5 with timeTerminated := 1 })) = _
    rw [hstamp]
    simp only [Kernel.set, Kernel.mtimeRead, hset, Kernel.record]
    rfl
  rw [Kernel.procFree, if_pos hfree, hfirst]
  dsimp only
  rw [hterm]
  have hslots : ∀ x : Nat × PageInfoTable × List Event,
      (fun i => if i.val < maxNprocess ∧ ((reached n p x).procSet i).pid = pidOf n then
        { (reached n p x).procSet i with status := .unused } else (reached n p x).procSet i) =
      (reached n { p with status := .unused } x).procSet := by
    intro x
    funext i
    by_cases hi : i = 6
    · subst hi
      rw [reached_six, reached_six, if_pos ⟨by decide, hp⟩]
    · rw [reached_other hi, reached_other hi, if_neg fun he => (pidOf_other hlow hhigh hi).1 he.2]
  have hfreed : ∀ x : Nat × PageInfoTable × List Event,
      (reached n p x).procSetStatus (pidOf n) .unused = reached n { p with status := .unused } x := by
    intro x
    simp only [Kernel.procSetStatus, hslots x]
    rfl
  exact hfreed (r.1 + 1, Earth.freePages r.2.1 (pidOf n), r.2.2 ++
    [.terminated (received.procSet 5).lifecycle] ++ [.mmuFree (pidOf n)])

/-- One process after the other is created in slot 6 and freed. -/
theorem reached_run (m : Nat) (hm : 6 + m ≤ 4294967293) : ∃ p r, p.status = .unused ∧
    (∀ q, p.claim q 1 = (received.procSet 6).claim q 1) ∧
    Run still (fun _ _ => True) (reached (UInt32.ofNat (6 + m)) p r) := by
  induction m with
  | zero =>
    refine ⟨received.procSet 6, (received.mtimeReads, received.pageInfoTable, received.log),
      received_six.1, fun _ => rfl, ?_⟩
    have hsame : reached (UInt32.ofNat (6 + 0)) (received.procSet 6)
        (received.mtimeReads, received.pageInfoTable, received.log) = received := by
      have hlast : UInt32.ofNat (6 + 0) = received.lastPid := received_six.2.2.1.symm
      rw [reached, Function.update_eq_self, hlast]
    rw [hsame]
    exact received_run
  | succ m ih =>
    obtain ⟨p, r, hunused, hclaim, hrun⟩ := ih (by omega)
    have hnext : UInt32.ofNat (6 + m) + 1 = UInt32.ofNat (6 + (m + 1)) := by
      rw [← Nat.add_assoc]
      exact (UInt32.ofNat_add (6 + m) 1).symm
    have hnat : (UInt32.ofNat (6 + (m + 1))).toNat = 6 + (m + 1) :=
      UInt32.toNat_ofNat_of_lt' (show _ < 4294967296 by omega)
    obtain ⟨r₁, halloc⟩ := reached_procAlloc (n := UInt32.ofNat (6 + m)) (r := r)
      hunused hclaim
    rw [hnext] at halloc
    have hcreated : Run still (fun _ _ => True) (reached (UInt32.ofNat (6 + (m + 1)))
        ((received.procSet 6).claim (pidOf (UInt32.ofNat (6 + (m + 1)))) 1) r₁) :=
      Run.step (a := .procAlloc) hrun reached_curr trivial (by rw [Action.step, halloc]; rfl)
    obtain ⟨-, -, hother⟩ := pidOf_other (n := UInt32.ofNat (6 + (m + 1))) (i := 5) (by omega) (by omega)
      (by decide)
    obtain ⟨r₂, hfree⟩ := reached_procFree (n := UInt32.ofNat (6 + (m + 1)))
      (p := (received.procSet 6).claim (pidOf (UInt32.ofNat (6 + (m + 1)))) 1) (r := r₁)
      (by omega) (by omega) rfl
    have hfreed := Run.step (a := .procFree _) hcreated ⟨reached_curr, hother⟩ trivial
      (congrArg Except.ok hfree)
    refine ⟨_, r₂, ?_, ?_, hfreed⟩
    · rfl
    · intro q
      rfl

/-- The process with the largest pid but one is in slot 6. -/
theorem reached_wrap : ∃ r, Run still (fun _ _ => True)
    (reached 4294967294 ((received.procSet 6).claim (-2) 1) r) := by
  obtain ⟨p, r, hunused, hclaim, hrun⟩ := reached_run 4294967287 (by decide)
  obtain ⟨r', halloc⟩ := reached_procAlloc (n := 4294967293) (r := r) hunused hclaim
  exact ⟨r', Run.step (a := .procAlloc) hrun reached_curr trivial
    (by rw [Action.step]; exact congrArg _ halloc)⟩

/-- Slot 7 takes the pid that is GPID_ALL, slot 6 the pids 0 and 1. -/
def wrapCounter : List Action :=
  [.procAlloc, .procFree (-2), .procAlloc, .procFree 0, .procAlloc]

/-- With the pid of GPID_PROCESS given out again, its next call wakes the receive that
slot 6 was left with, and process 2 still waits to send to process 1. -/
theorem wakeup_lost_after_wrap : ∃ k t k', Run still (fun _ _ => True) k ∧
    k.kernelEntry still t = .ok k' ∧ k'.Meets 2 6 := by
  let t : Trap := ⟨0, fun _ => 0, excpIdEcallU, ⟨.send, 2, 2, fun _ => 0, .done⟩⟩
  obtain ⟨k, hk, hentry⟩ : ∃ k, wrapCounter.foldlM (follow (fun _ _ => True) still)
      (reached 4294967294 ((received.procSet 6).claim (-2) 1) reached_wrap.choose) = some k ∧
      ((k.kernelEntry still t).toOption.any fun k' => k'.Meets 2 6) = true := by
    -- The records are not looked at, so that the rest of the run can be computed.
    have hrun : ((wrapCounter.foldlM (follow (fun _ _ => True) still)
        (reached 4294967294 ((received.procSet 6).claim (-2) 1) reached_wrap.choose)).any fun k =>
        (k.kernelEntry still t).toOption.any fun k' => k'.Meets 2 6) = true := by
      decide +kernel
    exact (Option.any_eq_true _ _).mp hrun
  obtain ⟨k₁, hstep, hmeets⟩ := ok_of_any hentry
  exact ⟨k, t, k₁, Run.foldlM reached_wrap.choose_spec hk, hstep, of_decide_eq_true hmeets⟩

end OsSuite.Grass
