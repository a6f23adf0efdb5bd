import OsSuite.KernelYield

/-! The entries of the kernel and the direct calls of GPID_PROCESS keep the
invariant. -/

namespace OsSuite.Grass

open Earth (Pid PageInfoTable)
open Rendezvous (Label Call Waiting waiting Valid Accepts)

variable {env : Env} {k k' : Kernel} {c i j s r : Slot} {us : List Slot}

namespace Kernel

/-- The process whose system call is taken over. -/
def calling (k : Kernel) (syscall : Syscall) : Process :=
  { k.curr.accept syscall with status := .pendingSyscall, mepc := k.curr.mepc + 4 }

/-- The state between taking over a system call and trying it. -/
def called (k : Kernel) (syscall : Syscall) : Kernel :=
  (k.set k.currProcIdx (k.calling syscall)).record (.copyIn k.curr.pid (k.curr.accept syscall).syscall)

theorem acceptSyscall_eq (hp : k.Pids) (hlive : k.curr.status ≠ .unused)
    (hcurr : k.currProcIdx.val < 16) (syscall : Syscall) :
    k.acceptSyscall syscall = (k.called syscall).procTrySyscall k.currProcIdx := by
  let p := k.curr.accept syscall
  let k₁ := (k.set k.currProcIdx p).record (.copyIn p.pid p.syscall)
  have hself : k₁.procSet k.currProcIdx = p := Function.update_self _ _ _
  have hm : k.Moves (k.set k.currProcIdx p) := .set rfl (Or.inl rfl)
  have hp₁ : k₁.Pids := hp.moves ⟨hm.pid, hm.status, hm.lastPid⟩
  let k₂ := k₁.set k.currProcIdx { p with status := .pendingSyscall }
  have hpending : k₁.procSetStatus p.pid .pendingSyscall = k₂ := by
    have hset := hp₁.procSetStatus_eq (by rw [hself]; exact hlive) hcurr .pendingSyscall
    rwa [hself] at hset
  have hadvance : k₂.set k.currProcIdx k₂.curr.advance = k.called syscall := by
    have hcurr₂ : k₂.curr = { p with status := .pendingSyscall } := Function.update_self _ _ _
    rw [hcurr₂]
    change (k₁.set _ _).set _ _ = _
    rw [set_set]
    change ((k.set _ _).record _).set _ _ = _
    rw [set_record, set_set]
    rfl
  have haccept : k.acceptSyscall syscall =
      ((k₁.procSetStatus p.pid .pendingSyscall).set k.currProcIdx
        (k₁.procSetStatus p.pid .pendingSyscall).curr.advance).procTrySyscall k.currProcIdx := rfl
  rw [haccept, hpending, hadvance]

theorem called_self (k : Kernel) (syscall : Syscall) :
    (k.called syscall).procSet k.currProcIdx = k.calling syscall := Function.update_self _ _ _

theorem called_other (k : Kernel) (syscall : Syscall) (hi : i ≠ k.currProcIdx) :
    (k.called syscall).procSet i = k.procSet i := Function.update_of_ne hi _ _

theorem called_blocked (k : Kernel) (syscall : Syscall) :
    (k.called syscall).Blocked i ↔ i = k.currProcIdx ∨ k.Blocked i := by
  by_cases hi : i = k.currProcIdx
  · rw [Blocked, hi, called_self]
    exact ⟨fun _ => Or.inl rfl, fun _ => rfl⟩
  · rw [Blocked, Blocked, called_other k syscall hi]
    exact ⟨Or.inr, fun h => h.resolve_left hi⟩

theorem Sound.not_blocked (h : k.Sound) : ¬k.Blocked k.currProcIdx := by
  intro hb
  rw [Blocked, (h.running k.currProcIdx).mpr rfl] at hb
  cases hb

theorem Sound.called_pids (h : k.Sound) (syscall : Syscall) : (k.called syscall).Pids := by
  have hm : k.Moves (k.set k.currProcIdx (k.calling syscall)) :=
    .set rfl (Or.inr ⟨h.current, h.live, nofun⟩)
  exact h.synced.pids.moves ⟨hm.pid, hm.status, hm.lastPid⟩

theorem called_pid (k : Kernel) (syscall : Syscall) (i : Slot) :
    ((k.called syscall).procSet i).pid = (k.procSet i).pid := by
  by_cases hi : i = k.currProcIdx
  · rw [hi, called_self]
    rfl
  · rw [called_other k syscall hi]

/-- The current slot comes last, after every other slot. -/
theorem later_scanOrder (hc : c.val < 16) (hs : s.val < 16) (hne : s ≠ c) :
    Later (scanOrder c) s c := by
  obtain ⟨pre, hpre⟩ := List.getLast?_eq_some_iff.mp (scanOrder_last c hc)
  have hmem : s ∈ pre := by
    have hs' : s ∈ scanOrder c := mem_scanOrder.mpr hs
    rw [hpre] at hs'
    simpa [hne] using hs'
  obtain ⟨a, b, rfl⟩ := List.append_of_mem hmem
  exact ⟨a, b ++ [c], by rw [hpre]; simp, by simp⟩

theorem called_meets (h : k.Sound) {syscall : Syscall} (hm : (k.called syscall).Meets s r) :
    (r = k.currProcIdx ∨ s = k.currProcIdx) ∧
      Later (k.currProcIdx :: scanOrder k.currProcIdx) s r := by
  have hpids := h.called_pids syscall
  have hne : s ≠ r := by
    rintro rfl
    have hrecv := hm.recv
    rw [hm.send] at hrecv
    cases hrecv
  by_cases hs : s = k.currProcIdx
  · subst hs
    exact ⟨Or.inr rfl, [], scanOrder k.currProcIdx, rfl,
      mem_scanOrder.mpr (hpids.blocked_lt hm.receiver)⟩
  · by_cases hr : r = k.currProcIdx
    · subst hr
      obtain ⟨pre, post, he, hmem⟩ :=
        later_scanOrder h.current (hpids.blocked_lt hm.sender) hne
      exact ⟨Or.inl rfl, k.currProcIdx :: pre, post, by rw [he]; rfl, hmem⟩
    · obtain ⟨hsender, hsend, hnames, hreceiver, hrecv, hpending, haccepts⟩ := hm
      rw [called_other k syscall hs] at hsend hnames haccepts
      rw [called_other k syscall hr] at hnames hrecv hpending haccepts
      have hm' : k.Meets s r := ⟨((called_blocked k syscall).mp hsender).resolve_left hs, hsend, hnames,
        ((called_blocked k syscall).mp hreceiver).resolve_left hr, hrecv, hpending, haccepts⟩
      obtain ⟨-, pre, post, he, -⟩ := h.synced.meets s r hm'
      simp at he

theorem Sound.called (h : k.Sound) {syscall : Syscall} {call : Call Pid Content}
    (hlabel : (Event.copyIn k.curr.pid (k.curr.accept syscall).syscall).label =
      some (.call k.curr.pid call))
    (hwaits : (syscall.type = .send ∧ call = .send syscall.receiver syscall.content) ∨
      (syscall.type = .recv ∧ call = .recv (senderOf syscall.sender))) :
    Synced k.currProcIdx (k.called syscall) (k.currProcIdx :: scanOrder k.currProcIdx) := by
  have hpids := h.called_pids syscall
  have hsynced := h.synced
  have hself : (k.called syscall).procSet k.currProcIdx = k.calling syscall := called_self k syscall
  have htrace : (k.called syscall).trace = k.trace ++ [.call k.curr.pid call] := by
    change ((k.set _ _).record _).trace = _
    rw [trace_record, hlabel]
    rfl
  have hfree : waiting k.trace k.curr.pid = none := by
    refine hsynced.idle _ fun i hi hpid => ?_
    have hic := hsynced.pids.live_eq h.live hpid
    subst hic
    exact h.not_blocked hi
  have hother : ∀ i, k.Blocked i → waiting (k.called syscall).trace (k.procSet i).pid =
      waiting k.trace (k.procSet i).pid := by
    intro i hi
    rw [htrace, Rendezvous.waiting_snoc]
    refine Function.update_of_ne (fun hpid => ?_) _ _
    have hic := hsynced.pids.live_eq h.live hpid
    subst hic
    exact h.not_blocked hi
  refine ⟨hpids, ?_, fun i hi => ?_, fun p hidle => ?_, fun i hi htype hdone => ?_,
    fun s r hm => called_meets h hm⟩
  · rw [htrace]
    exact hsynced.valid.snoc hfree
  · by_cases hic : i = k.currProcIdx
    · subst hic
      have hw : waiting (k.called syscall).trace k.curr.pid = some call := by
        rw [htrace, Rendezvous.waiting_snoc]
        exact Function.update_self _ _ _
      rcases hwaits with ⟨htype, hcall⟩ | ⟨htype, hcall⟩
      · exact .send (by rw [hself]; exact htype)
          (by rw [hself]; exact hw.trans (congrArg some hcall))
      · exact .recv (by rw [hself]; exact htype) (by rw [hself]; rfl)
          (by rw [hself]; exact hw.trans (congrArg some hcall))
    · have hi' := ((called_blocked k syscall).mp hi).resolve_left hic
      have hw := hother i hi'
      have heq := called_other k syscall hic
      cases hsynced.waits i hi' with
      | send htype hcall =>
        exact .send (by rw [heq]; exact htype) (by rw [heq, hw]; exact hcall)
      | recv htype hstatus hcall =>
        exact .recv (by rw [heq]; exact htype) (by rw [heq]; exact hstatus) (by rw [heq, hw]; exact hcall)
      | done htype hstatus => cases (hsynced.done i hi' htype hstatus).1
  · rw [htrace, Rendezvous.waiting_snoc]
    have hp : p ≠ k.curr.pid := by
      rintro rfl
      exact hidle k.currProcIdx ((called_blocked k syscall).mpr (Or.inl rfl)) (called_pid k syscall _)
    rw [Waiting.next, Function.update_of_ne hp]
    refine hsynced.idle p fun i hi hpid => ?_
    exact hidle i ((called_blocked k syscall).mpr (Or.inr hi)) ((called_pid k syscall i).trans hpid)
  · by_cases hic : i = k.currProcIdx
    · rw [hic, hself] at hdone
      cases hdone
    · rw [called_other k syscall hic] at htype hdone
      have hi' := ((called_blocked k syscall).mp hi).resolve_left hic
      cases (hsynced.done i hi' htype hdone).1

theorem label_send (p : Process) {syscall : Syscall} (h : syscall.type = .send) :
    (Event.copyIn p.pid (p.accept syscall).syscall).label =
      some (.call p.pid (.send syscall.receiver syscall.content)) := by
  obtain ⟨type, sender, receiver, content, status⟩ := syscall
  cases h
  rfl

theorem label_recv (p : Process) {syscall : Syscall} (h : syscall.type = .recv) :
    (Event.copyIn p.pid (p.accept syscall).syscall).label =
      some (.call p.pid (.recv (senderOf syscall.sender))) := by
  obtain ⟨type, sender, receiver, content, status⟩ := syscall
  cases h
  rfl

/-- The state in which the call of the current process is tried at once. -/
theorem Sound.accepted (h : k.Sound) {syscall : Syscall}
    (haccept : k.acceptSyscall syscall = .ok k') :
    Synced k.currProcIdx (k.called syscall) (k.currProcIdx :: scanOrder k.currProcIdx) ∧
      (k.called syscall).retry k.currProcIdx = .ok k' := by
  rw [acceptSyscall_eq h.synced.pids h.live h.current] at haccept
  have hself : (k.called syscall).procSet k.currProcIdx = k.calling syscall := called_self k syscall
  constructor
  · have htype : ((k.called syscall).procSet k.currProcIdx).syscall.type = syscall.type := by
      rw [hself]
      rfl
    obtain ⟨hrecv, -⟩ | ⟨hsend, -⟩ := procTrySyscall_ok haccept
    · have hcase : syscall.type = .recv := htype.symm.trans hrecv
      exact h.called (label_recv k.curr hcase) (Or.inr ⟨hcase, rfl⟩)
    · have hcase : syscall.type = .send := htype.symm.trans hsend
      exact h.called (label_send k.curr hcase) (Or.inl ⟨hcase, rfl⟩)
  · have hblocked : ((k.called syscall).procSet k.currProcIdx).status = .pendingSyscall := by
      rw [hself]
      rfl
    rw [retry, if_pos hblocked]
    exact haccept

theorem Sound.acceptSyscall (h : k.Sound) {syscall : Syscall}
    (haccept : k.acceptSyscall syscall = .ok k') : k'.Yielding := by
  have hself : (k.called syscall).procSet k.currProcIdx = k.calling syscall := called_self k syscall
  obtain ⟨hsynced, hretry⟩ := h.accepted haccept
  obtain ⟨hnext, hvisited⟩ := hsynced.retry hretry
  have hcurr : k'.currProcIdx = k.currProcIdx := hvisited.currProcIdx
  have hrunning : ∀ i, (k'.procSet i).status ≠ .running := by
    intro i hi
    rcases (hvisited.frame i).2.2 with he | ⟨-, he⟩
    · rw [he] at hi
      by_cases hic : i = k.currProcIdx
      · rw [hic, hself] at hi
        cases hi
      · rw [called_other k syscall hic] at hi
        exact hic ((h.running i).mp hi)
    · rw [he] at hi
      cases hi
  refine ⟨by rw [hcurr]; exact hnext, fun i => ?_, by rw [hcurr]; exact h.current, ?_,
    fun i hi => absurd hi (hrunning i)⟩
  · rw [(hvisited.frame i).2.1]
    have hlevels : (k.set k.currProcIdx (k.calling syscall)).Levels := h.levels.set (h.levels _)
    exact hlevels i
  · rw [curr, hcurr]
    rcases (hvisited.frame k.currProcIdx).2.2 with he | ⟨-, he⟩
    · rw [he, hself]
      rintro ⟨⟩
    · rw [he]
      rintro ⟨⟩

theorem Sound.yielding (h : k.Sound) : k.Yielding :=
  ⟨h.synced.start _ _, h.levels, h.current, h.live, fun i hi => (h.running i).mp hi⟩

theorem Sound.of_sameIpc (h : k.Sound) (hs : k.SameIpc k') (hl : k'.Levels) : k'.Sound := by
  refine ⟨?_, hl, by rw [hs.currProcIdx]; exact h.current, fun i => ?_⟩
  · rw [hs.currProcIdx]
    exact h.synced.of_sameCalls hs.sameCalls (h.synced.pids.moves hs.moves)
  · rw [hs.status, hs.currProcIdx]
    exact h.running i

/-- The state in which an entry calls `proc_yield`. -/
def untilYield (k : Kernel) (t : Trap) : Except Fatal Kernel :=
  let k := k.set k.currProcIdx { k.curr with mepc := t.mepc, savedRegisters := t.savedRegisters }
  if t.mcause &&& 0x80000000 ≠ 0 then
    if t.mcause &&& 0x3FF ≠ intrIdTimer then .error (.interrupt (t.mcause &&& 0x3FF))
    else .ok (if k.currProcIdx.val > 0 ∧ k.currProcIdx.val ≤ maxNprocess then
      k.set k.currProcIdx { k.curr with noInterrupts := k.curr.noInterrupts + 1 } else k)
  else if t.mcause ≥ excpIdEcallU ∧ t.mcause ≤ excpIdEcallM then k.acceptSyscall t.syscall
  else .error (.exception t.mcause)

theorem kernelEntry_eq (env : Env) (k : Kernel) (t : Trap) :
    k.kernelEntry env t = k.untilYield t >>= procYield env := by
  unfold kernelEntry untilYield intrEntry excpEntry
  dsimp only
  by_cases hintr : t.mcause &&& 0x80000000 ≠ 0
  · rw [if_pos hintr, if_pos hintr]
    by_cases htimer : t.mcause &&& 0x3FF ≠ intrIdTimer
    · rw [if_pos htimer, if_pos htimer]
      rfl
    · rw [if_neg htimer, if_neg htimer]
      rfl
  · rw [if_neg hintr, if_neg hintr]
    by_cases hecall : t.mcause ≥ excpIdEcallU ∧ t.mcause ≤ excpIdEcallM
    · rw [if_pos hecall, if_pos hecall]
    · rw [if_neg hecall, if_neg hecall]
      rfl

theorem kernelEntry_ok {t : Trap} (hentry : k.kernelEntry env t = .ok k') :
    ∃ k₁, k.untilYield t = .ok k₁ ∧ k₁.procYield env = .ok k' := by
  rw [kernelEntry_eq] at hentry
  exact bind_eq_ok hentry

/-- The current process may change in anything that IPC does not look at. -/
theorem Sound.update (h : k.Sound) {p : Process} (hpid : p.pid = k.curr.pid)
    (hsyscall : p.syscall = k.curr.syscall) (hstatus : p.status = k.curr.status)
    (hlevel : p.mlfqLevel = k.curr.mlfqLevel) : (k.set k.currProcIdx p).Sound :=
  h.of_sameIpc (.set hpid hstatus hsyscall)
    (h.levels.set (by rw [hlevel]; exact h.levels k.currProcIdx))

def saved (k : Kernel) (t : Trap) : Kernel :=
  k.set k.currProcIdx { k.curr with mepc := t.mepc, savedRegisters := t.savedRegisters }

def counted (k : Kernel) : Kernel :=
  k.set k.currProcIdx { k.curr with noInterrupts := k.curr.noInterrupts + 1 }

theorem untilYield_ok {t : Trap} (h : k.untilYield t = .ok k') :
    t.mcause &&& 0x80000000 ≠ 0 ∧ (k' = k.saved t ∨ k' = (k.saved t).counted) ∨
      ¬t.mcause &&& 0x80000000 ≠ 0 ∧ (k.saved t).acceptSyscall t.syscall = .ok k' := by
  unfold untilYield at h
  dsimp only at h
  split at h
  · rename_i hintr
    refine Or.inl ⟨hintr, ?_⟩
    split at h
    · cases h
    · cases h
      split
      · exact Or.inr rfl
      · exact Or.inl rfl
  · rename_i hintr
    refine Or.inr ⟨hintr, ?_⟩
    split at h
    · exact h
    · cases h

theorem Sound.saved (h : k.Sound) (t : Trap) : (k.saved t).Sound := h.update rfl rfl rfl rfl

theorem Sound.counted (h : k.Sound) : k.counted.Sound := h.update rfl rfl rfl rfl

theorem Sound.untilYield (h : k.Sound) {t : Trap} (ht : k.untilYield t = .ok k') : k'.Yielding := by
  rcases untilYield_ok ht with ⟨-, rfl | rfl⟩ | ⟨-, haccept⟩
  · exact (h.saved t).yielding
  · exact (h.saved t).counted.yielding
  · exact (h.saved t).acceptSyscall haccept

/-- A receive of the current process has not met its sender when `proc_yield` is called. -/
theorem Sound.untilYield_pending (h : k.Sound) {t : Trap} (ht : k.untilYield t = .ok k')
    (hb : k'.Blocked k'.currProcIdx) : (k'.procSet k'.currProcIdx).syscall.status = .pending := by
  rcases untilYield_ok ht with ⟨-, rfl | rfl⟩ | ⟨-, haccept⟩
  · exact absurd hb (h.saved t).not_blocked
  · exact absurd hb (h.saved t).counted.not_blocked
  · have h₁ := h.saved t
    generalize k.saved t = k₁ at h₁ haccept
    obtain ⟨hsynced, hretry⟩ := h₁.accepted haccept
    have hself : (k₁.called t.syscall).procSet k₁.currProcIdx = k₁.calling t.syscall :=
      called_self k₁ t.syscall
    obtain ⟨-, hvisited⟩ := hsynced.retry hretry
    rw [hvisited.currProcIdx] at hb ⊢
    change (k'.procSet k₁.currProcIdx).syscall.status = .pending
    cases hvisited with
    | same he =>
      rw [he, hself]
      rfl
    | marked hi r hsend hnames ha he =>
      have hne : k₁.currProcIdx ≠ r := by
        rintro rfl
        have hrecv := ha.1
        rw [hsend] at hrecv
        cases hrecv
      rw [he, mark_other _ hne, hself]
      rfl
    | delivered s hs hsend hi hrecv hdone hsender hd =>
      rw [hself] at hdone
      cases hdone

/-- Between entries the invariant is about the blocked slots only. -/
theorem Synced.of_fewer (h : Synced c k []) (hp : k'.Pids) (hvalid : Valid k'.trace)
    (hsub : ∀ i, k'.Blocked i → k.Blocked i ∧ (k'.procSet i).pid = (k.procSet i).pid ∧
      (k'.procSet i).syscall = (k.procSet i).syscall ∧
      waiting k'.trace (k.procSet i).pid = waiting k.trace (k.procSet i).pid)
    (hidle : ∀ p, (∀ i, k'.Blocked i → (k'.procSet i).pid ≠ p) → waiting k'.trace p = none) :
    Synced c k' [] := by
  refine ⟨hp, hvalid, fun i hi => ?_, hidle, fun i hi htype hdone => ?_, fun s r hm => ?_⟩
  · obtain ⟨hi', hpid, hsyscall, hw⟩ := hsub i hi
    cases h.waits i hi' with
    | send htype hcall =>
      exact .send (by rw [hsyscall]; exact htype) (by rw [hpid, hw, hsyscall]; exact hcall)
    | recv htype hstatus hcall =>
      exact .recv (by rw [hsyscall]; exact htype) (by rw [hsyscall]; exact hstatus)
        (by rw [hpid, hw, hsyscall]; exact hcall)
    | done htype hstatus => cases (h.done i hi' htype hstatus).1
  · obtain ⟨hi', -, hsyscall, -⟩ := hsub i hi
    rw [hsyscall] at htype hdone
    cases (h.done i hi' htype hdone).1
  · obtain ⟨hsender, hsend, hnames, hreceiver, hrecv, hpending, haccepts⟩ := hm
    obtain ⟨hs', hpid, hsyscall, -⟩ := hsub s hsender
    obtain ⟨hr', hpid', hsyscall', -⟩ := hsub r hreceiver
    rw [hsyscall] at hsend hnames
    rw [hsyscall'] at hrecv hpending haccepts
    rw [hpid'] at hnames
    rw [hpid] at haccepts
    obtain ⟨-, pre, post, he, -⟩ :=
      h.meets s r ⟨hs', hsend, hnames, hr', hrecv, hpending, haccepts⟩
    simp at he

theorem procAlloc_ok {p : Pid} (h : k.procAlloc env = .ok (p, k')) :
    ∃ i, k.unusedSlot = some i ∧ p = pidOf (k.lastPid + 1) ∧
      k' = { k.mtimeRead.set i ((k.procSet i).claim p (k.mtimeGet env)) with
        lastPid := k.lastPid + 1 } := by
  unfold procAlloc at h
  cases hi : k.unusedSlot with
  | none =>
    rw [hi] at h
    cases h
  | some i =>
    rw [hi] at h
    cases h
    exact ⟨i, rfl, rfl, rfl⟩

theorem unusedSlot_eq : k.unusedSlot = some i ↔ 0 < i.val ∧ (k.procSet i).status = .unused ∧
    ∀ j, 0 < j.val → j < i → (k.procSet j).status ≠ .unused := by
  rw [unusedSlot, find?_sorted allocSlots_sorted]
  simp only [mem_allocSlots, decide_eq_true_eq, decide_eq_false_iff_not, ne_eq]

theorem lt_succ_of_ne_zero {n : UInt32} (h : n + 1 ≠ 0) : n < n + 1 := by
  rw [UInt32.lt_iff_toNat_lt, UInt32.toNat_add, UInt32.toNat_one]
  have hn : n.toNat + 1 ≠ 2 ^ 32 := by
    intro he
    apply h
    rw [← UInt32.toNat_inj, UInt32.toNat_add, UInt32.toNat_one, he]
    rfl
  have := n.toNat_lt
  omega

theorem Pids.fresh (h : k.Pids) (hwrap : k.lastPid + 1 ≠ 0) (i : Slot) :
    (k.procSet i).pid ≠ pidOf (k.lastPid + 1) := by
  obtain ⟨n, hn, hpid⟩ := h.known i
  rw [hpid]
  intro he
  have hlt := lt_succ_of_ne_zero hwrap
  rw [← pidOf_injective he] at hlt
  exact absurd hn (UInt32.not_le.mpr hlt)

theorem Pids.claim (h : k.Pids) (hwrap : k.lastPid + 1 ≠ 0) (time : UInt64)
    (hslots : k'.procSet =
      Function.update k.procSet i ((k.procSet i).claim (pidOf (k.lastPid + 1)) time))
    (hlast : k'.lastPid = k.lastPid + 1) : k'.Pids := by
  have hself : k'.procSet i = (k.procSet i).claim (pidOf (k.lastPid + 1)) time := by
    rw [hslots, Function.update_self]
  have hother : ∀ j, j ≠ i → k'.procSet j = k.procSet j := fun j hj => by
    rw [hslots, Function.update_of_ne hj]
  refine ⟨fun j => ?_, fun j l hpid hne => ?_, fun j hj => ?_, ?_⟩
  · by_cases hj : j = i
    · rw [hj, hself, hlast]
      exact ⟨_, UInt32.le_refl _, rfl⟩
    · rw [hother j hj, hlast]
      obtain ⟨n, hn, hpid⟩ := h.known j
      exact ⟨n, UInt32.le_trans hn (UInt32.le_of_lt (lt_succ_of_ne_zero hwrap)), hpid⟩
  · by_cases hj : j = i <;> by_cases hl : l = i
    · rw [hj, hl]
    · rw [hj, hself, hother l hl] at hpid
      exact absurd hpid.symm (h.fresh hwrap l)
    · rw [hl, hself, hother j hj] at hpid
      exact absurd hpid (h.fresh hwrap j)
    · rw [hother j hj, hother l hl] at hpid
      rw [hother j hj] at hne
      exact h.distinct j l hpid hne
  · by_cases hji : j = i
    · rw [hji, hself] at hj
      exact absurd hj (pidOf_ne_zero hwrap)
    · rw [hother j hji] at hj ⊢
      exact h.vacant j hj
  · by_cases hi : (16 : Slot) = i
    · rw [hi, hself]
      exact Or.inr rfl
    · rw [hother 16 hi]
      exact h.last

theorem Sound.procAlloc (h : k.Sound) (hwrap : k.lastPid + 1 ≠ 0) {p : Pid}
    (halloc : k.procAlloc env = .ok (p, k')) : k'.Sound := by
  obtain ⟨i, hi, rfl, hk'⟩ := procAlloc_ok halloc
  obtain ⟨-, hunused, -⟩ := unusedSlot_eq.mp hi
  have hslots : k'.procSet =
      Function.update k.procSet i ((k.procSet i).claim (pidOf (k.lastPid + 1)) (k.mtimeGet env)) := by
    rw [hk']
    rfl
  have hself : k'.procSet i = (k.procSet i).claim (pidOf (k.lastPid + 1)) (k.mtimeGet env) := by
    rw [hslots, Function.update_self]
  have hother : ∀ j, j ≠ i → k'.procSet j = k.procSet j := fun j hj => by
    rw [hslots, Function.update_of_ne hj]
  have hcurr : k'.currProcIdx = k.currProcIdx := by rw [hk']; rfl
  have htrace : k'.trace = k.trace := by rw [hk']; rfl
  have hblocked : ∀ j, k'.Blocked j ↔ j ≠ i ∧ k.Blocked j := by
    intro j
    by_cases hj : j = i
    · rw [Blocked, hj, hself]
      exact ⟨by rintro ⟨⟩, fun hb => absurd rfl hb.1⟩
    · rw [Blocked, Blocked, hother j hj]
      exact ⟨fun hb => ⟨hj, hb⟩, fun hb => hb.2⟩
  have hpids := h.synced.pids.claim hwrap (k.mtimeGet env) hslots (by rw [hk'])
  refine ⟨h.synced.start _ _ |>.of_fewer hpids (by rw [htrace]; exact h.synced.valid)
    (fun j hj => ?_) (fun q hq => ?_), fun j => ?_, by rw [hcurr]; exact h.current, fun j => ?_⟩
  · obtain ⟨hj, hb⟩ := (hblocked j).mp hj
    rw [hother j hj, htrace]
    exact ⟨hb, rfl, rfl, rfl⟩
  · rw [htrace]
    refine h.synced.idle q fun j hb => ?_
    have hj : j ≠ i := by
      rintro rfl
      exact hb.live hunused
    have hne := hq j ((hblocked j).mpr ⟨hj, hb⟩)
    rwa [hother j hj] at hne
  · by_cases hj : j = i
    · rw [hj, hself]
      exact Nat.zero_le 4
    · rw [hother j hj]
      exact h.levels j
  · rw [hcurr]
    by_cases hj : j = i
    · have hne : i ≠ k.currProcIdx := by
        rintro rfl
        exact h.live hunused
      rw [hj, hself]
      exact ⟨by rintro ⟨⟩, fun he => absurd he hne⟩
    · rw [hother j hj]
      exact h.running j

theorem Sound.procSetReady (h : k.Sound) {p : Pid}
    (hloading : ∃ i, (k.procSet i).pid = p ∧ (k.procSet i).status = .loading) :
    (k.procSetReady p).Sound := by
  obtain ⟨i, rfl, hi⟩ := hloading
  have hlive : (k.procSet i).status ≠ .unused := by
    rw [hi]
    decide
  have hpids := h.synced.pids
  by_cases hlt : i.val < 16
  · have hne : i ≠ k.currProcIdx := by
      intro he
      have hrun := (h.running i).mpr he
      rw [hi] at hrun
      cases hrun
    have hblocked : ¬k.Blocked i := by
      intro hb
      rw [Blocked, hi] at hb
      cases hb
    have hset : k.procSetReady (k.procSet i).pid = k.set i { k.procSet i with status := .ready } :=
      hpids.procSetStatus_eq hlive hlt .ready
    rw [hset]
    refine ⟨h.synced.of_sameCalls (.set rfl rfl hblocked (by rintro ⟨⟩))
      (hpids.moves (.set rfl (Or.inr ⟨hlt, hlive, by rintro ⟨⟩⟩))), h.levels.set (h.levels i), h.current,
      fun j => ?_⟩
    by_cases hj : j = i
    · rw [hj, set_self]
      exact ⟨by rintro ⟨⟩, fun he => absurd he hne⟩
    · rw [set_of_ne k _ hj]
      exact h.running j
  · -- The loop of `proc_set_ready` stops before the last slot.
    have hsame : k.procSetReady (k.procSet i).pid = k := by
      have hslots : ∀ j, ¬(j.val < maxNprocess ∧ (k.procSet j).pid = (k.procSet i).pid) := by
        rintro j ⟨hj, hpid⟩
        rw [hpids.live_eq hlive hpid] at hj
        exact hlt hj
      simp only [Kernel.procSetReady, procSetStatus, if_neg (hslots _)]
    rw [hsame]
    exact h

/-- A process is gone, and with it the call that it waits in. -/
structure Released (k k' : Kernel) (p : Pid) : Prop where
  pid : ∀ i, (k'.procSet i).pid = (k.procSet i).pid
  syscall : ∀ i, (k'.procSet i).syscall = (k.procSet i).syscall
  level : ∀ i, (k'.procSet i).mlfqLevel = (k.procSet i).mlfqLevel
  status : ∀ i, (k'.procSet i).status =
    if i.val < 16 ∧ (k.procSet i).pid = p then .unused else (k.procSet i).status
  lastPid : k'.lastPid = k.lastPid
  currProcIdx : k'.currProcIdx = k.currProcIdx
  trace : k'.trace = k.trace ++ [.kill p]

theorem Released.blocked {p : Pid} (h : k.Released k' p) (hp : k.Pids) :
    k'.Blocked i ↔ k.Blocked i ∧ (k.procSet i).pid ≠ p := by
  rw [Blocked, h.status]
  constructor
  · intro hb
    split at hb
    · cases hb
    · rename_i hne
      exact ⟨hb, fun hpid => hne ⟨hp.blocked_lt hb, hpid⟩⟩
  · rintro ⟨hb, hpid⟩
    rw [if_neg fun he => hpid he.2]
    exact hb

theorem Pids.released {p : Pid} (hp : k.Pids) (h : k.Released k' p) : k'.Pids := by
  refine ⟨fun i => ?_, fun i j => ?_, fun i hi => ?_, ?_⟩
  · rw [h.pid, h.lastPid]
    exact hp.known i
  · rw [h.pid, h.pid]
    exact hp.distinct i j
  · rw [h.pid] at hi
    rw [h.status]
    split
    · rfl
    · exact hp.vacant i hi
  · rw [h.status, if_neg fun he => absurd he.1 (by decide)]
    exact hp.last

theorem Sound.released {p : Pid} (h : k.Sound) (hr : k.Released k' p) (hp : p ≠ k.curr.pid) :
    k'.Sound := by
  have hpids := h.synced.pids
  have hother : ∀ q, q ≠ p → waiting k'.trace q = waiting k.trace q := by
    intro q hq
    rw [hr.trace, Rendezvous.waiting_snoc]
    exact Function.update_of_ne hq _ _
  have hsynced : Synced k.currProcIdx k' [] := by
    refine h.synced.of_fewer (hpids.released hr) ?_ (fun i hi => ?_) fun q hq => ?_
    · rw [hr.trace]
      exact h.synced.valid.snoc trivial
    · obtain ⟨hb, hne⟩ := (hr.blocked hpids).mp hi
      exact ⟨hb, hr.pid i, hr.syscall i, hother _ hne⟩
    · by_cases hqp : q = p
      · rw [hqp, hr.trace, Rendezvous.waiting_snoc]
        exact Function.update_self _ _ _
      · rw [hother q hqp]
        refine h.synced.idle q fun i hi hpid => ?_
        have hi' : k'.Blocked i := (hr.blocked hpids).mpr ⟨hi, by rw [hpid]; exact hqp⟩
        exact hq i hi' ((hr.pid i).trans hpid)
  refine ⟨by rw [hr.currProcIdx]; exact hsynced, fun i => ?_,
    by rw [hr.currProcIdx]; exact h.current, fun i => ?_⟩
  · rw [hr.level]
    exact h.levels i
  · rw [hr.currProcIdx, hr.status]
    split
    · rename_i hi
      refine ⟨nofun, fun he => ?_⟩
      rw [he] at hi
      exact absurd hi.2.symm hp
    · exact h.running i

theorem terminate_trace (env : Env) (k : Kernel) (i : Slot) : (k.terminate env i).trace = k.trace := by
  rw [terminate, trace_record]
  simp only [Event.label, Option.toList_none, List.append_nil]
  rfl

theorem terminate_slot (env : Env) (k : Kernel) (i j : Slot) :
    (k.terminate env i).procSet j = k.procSet j ∨ (k.terminate env i).procSet j =
      { k.procSet j with timeTerminated := k.mtimeGet env } := by
  by_cases hj : j = i
  · subst hj
    exact Or.inr (Function.update_self _ _ _)
  · exact Or.inl (Function.update_of_ne hj _ _)

theorem procFree_released {p : Pid} (hp : p ≠ gpidAll) (hi : k.firstUser = some i) :
    k.Released (k.procFree env p) p := by
  have heq : k.procFree env p = ((k.terminate env i).mmuFree p).procSetStatus p .unused := by
    rw [Kernel.procFree, if_pos hp, hi]
  have htrace : (k.procFree env p).trace = k.trace ++ [.kill p] := by
    rw [heq]
    change ((k.terminate env i).record (.mmuFree p)).trace = _
    rw [trace_record, terminate_trace]
    rfl
  have hslot : ∀ j, ((k.procFree env p).procSet j).pid = (k.procSet j).pid ∧
      ((k.procFree env p).procSet j).syscall = (k.procSet j).syscall ∧
      ((k.procFree env p).procSet j).mlfqLevel = (k.procSet j).mlfqLevel ∧
      ((k.procFree env p).procSet j).status =
        if j.val < 16 ∧ (k.procSet j).pid = p then .unused else (k.procSet j).status := by
    intro j
    have hset : (k.procFree env p).procSet j =
        if j.val < maxNprocess ∧ ((k.terminate env i).procSet j).pid = p then
          { (k.terminate env i).procSet j with status := .unused }
        else (k.terminate env i).procSet j := by
      rw [heq]
      rfl
    rw [hset]
    rcases terminate_slot env k i j with he | he <;>
    · rw [he]
      by_cases hj : j.val < 16 ∧ (k.procSet j).pid = p
      · rw [if_pos hj, if_pos hj]
        exact ⟨rfl, rfl, rfl, rfl⟩
      · rw [if_neg hj, if_neg hj]
        exact ⟨rfl, rfl, rfl, rfl⟩
  refine ⟨fun j => (hslot j).1, fun j => (hslot j).2.1, fun j => (hslot j).2.2.1,
    fun j => (hslot j).2.2.2, ?_, ?_, htrace⟩ <;> rw [heq] <;> rfl

theorem freeUser_released (hp : k.Pids) (hi : i.val < 16) (hlive : (k.procSet i).LiveUser) :
    k.Released (k.freeUser env i) (k.procSet i).pid := by
  have hother : ∀ j, j ≠ i → (k.freeUser env i).procSet j = k.procSet j := by
    intro j hj
    rw [freeUser, if_pos hlive]
    exact (Function.update_of_ne hj _ _).trans (Function.update_of_ne hj _ _)
  have hself : (k.freeUser env i).procSet i =
      { k.procSet i with timeTerminated := k.mtimeGet env, status := .unused } := by
    rw [freeUser, if_pos hlive]
    change Function.update _ i _ i = _
    rw [Function.update_self]
    change ({ (k.terminate env i).procSet i with status := .unused } : Process) = _
    have hterm : (k.terminate env i).procSet i =
        { k.procSet i with timeTerminated := k.mtimeGet env } := Function.update_self _ _ _
    rw [hterm]
  have htrace : (k.freeUser env i).trace = k.trace ++ [.kill (k.procSet i).pid] := by
    rw [freeUser, if_pos hlive]
    change ((k.terminate env i).record (.mmuFree (k.procSet i).pid)).trace = _
    rw [trace_record, terminate_trace]
    rfl
  refine ⟨fun j => ?_, fun j => ?_, fun j => ?_, fun j => ?_, ?_, ?_, htrace⟩
  · by_cases hj : j = i
    · rw [hj, hself]
    · rw [hother j hj]
  · by_cases hj : j = i
    · rw [hj, hself]
    · rw [hother j hj]
  · by_cases hj : j = i
    · rw [hj, hself]
    · rw [hother j hj]
  · by_cases hj : j = i
    · rw [hj, hself, if_pos ⟨hi, rfl⟩]
    · rw [hother j hj, if_neg fun he => hj (hp.live_eq hlive.2 he.2)]
  · rw [freeUser, if_pos hlive]
    rfl
  · rw [freeUser, if_pos hlive]
    rfl

/-- The loop of `proc_free(GPID_ALL)`, while the current process is no user process. -/
theorem Sound.freeUsers {q : List Slot} (h : k.Sound) (hcurr : k.curr.pid = gpidProcess)
    (hq : ∀ i ∈ q, i.val < 16) :
    (q.foldl (freeUser env) k).Sound ∧ (q.foldl (freeUser env) k).curr.pid = gpidProcess := by
  induction q generalizing k with
  | nil => exact ⟨h, hcurr⟩
  | cons i q ih =>
    have hrest : ∀ j ∈ q, j.val < 16 := fun j hj => hq j (List.mem_cons_of_mem _ hj)
    by_cases hlive : (k.procSet i).LiveUser
    · have hr := @freeUser_released env _ _ h.synced.pids (hq i List.mem_cons_self) hlive
      have hne : (k.procSet i).pid ≠ k.curr.pid := by
        intro he
        have huser := hlive.1
        rw [he, hcurr] at huser
        exact absurd huser (by decide)
      have hcurr' : (k.freeUser env i).curr.pid = gpidProcess := by
        rw [curr, hr.currProcIdx, hr.pid]
        exact hcurr
      exact ih (h.released hr hne) hcurr' hrest
    · have hsame : k.freeUser env i = k := by rw [freeUser, if_neg hlive]
      rw [List.foldl_cons, hsame]
      exact ih h hcurr hrest

theorem Sound.procFree {p : Pid} (h : k.Sound) (hcurr : k.curr.pid = gpidProcess)
    (hp : p ≠ gpidProcess) : (k.procFree env p).Sound := by
  by_cases hall : p = gpidAll
  · rw [Kernel.procFree, if_neg (not_not_intro hall)]
    exact (h.freeUsers hcurr fun i hi => mem_scannedSlots.mp hi).1
  · cases hi : k.firstUser with
    | none =>
      rw [Kernel.procFree, if_pos hall, hi]
      exact h
    | some i => exact h.released (procFree_released hall hi) (by rw [hcurr]; exact hp)

end Kernel

theorem Action.procAlloc_ok (hstep : Action.procAlloc.step env k = .ok k') :
    ∃ pid, k.procAlloc env = .ok (pid, k') := by
  obtain ⟨⟨pid, k₁⟩, halloc, rfl⟩ := map_eq_ok hstep
  exact ⟨pid, halloc⟩

end OsSuite.Grass
