import OsSuite.Lifecycle

/-! What one entry of the kernel adds to the trace: the call of the current process, if it
makes one, then meetings. -/

namespace OsSuite.Grass

open Earth (Pid PageInfoTable)
open Rendezvous (Label Call waiting)

variable {env : Env} {k k' k'' : Kernel} {i : Slot} {us : List Slot}

def IsMeet (l : Label Pid Content) : Prop := ∃ s r m, l = .meet s r m

/-- Live slots stay live, and the trace grows by meetings. -/
structure Kernel.Exchanges (k k' : Kernel) : Prop where
  live : ∀ i, (k.procSet i).status ≠ .unused → (k'.procSet i).status ≠ .unused
  trace : ∃ ms, (∀ l ∈ ms, IsMeet l) ∧ k'.trace = k.trace ++ ms
  lastPid : k'.lastPid = k.lastPid

namespace Kernel

theorem Exchanges.of_trace (hlive : ∀ i, (k.procSet i).status ≠ .unused → (k'.procSet i).status ≠ .unused)
    (htrace : k'.trace = k.trace) (hlast : k'.lastPid = k.lastPid) : k.Exchanges k' :=
  ⟨hlive, ⟨[], nofun, htrace.trans (List.append_nil _).symm⟩, hlast⟩

theorem Exchanges.refl (k : Kernel) : k.Exchanges k := .of_trace (fun _ h => h) rfl rfl

theorem Exchanges.trans (h : k.Exchanges k') (h' : k'.Exchanges k'') : k.Exchanges k'' := by
  obtain ⟨ms, hms, htrace⟩ := h.trace
  obtain ⟨ms', hms', htrace'⟩ := h'.trace
  refine ⟨fun i hi => h'.live i (h.live i hi), ⟨ms ++ ms', fun l hl => ?_, ?_⟩,
    h'.lastPid.trans h.lastPid⟩
  · rcases List.mem_append.mp hl with hl | hl
    · exact hms l hl
    · exact hms' l hl
  · rw [htrace', htrace, List.append_assoc]

theorem Exchanges.set {p : Process} (hp : (k.procSet i).status ≠ .unused → p.status ≠ .unused) :
    k.Exchanges (k.set i p) := by
  refine .of_trace (fun j hj => ?_) rfl rfl
  by_cases hji : j = i
  · rw [hji, set_self]
    exact hp (hji ▸ hj)
  · rw [set_of_ne k p hji]
    exact hj

theorem exchanges_record {e : Event} (he : ∀ l ∈ e.label, IsMeet l) : k.Exchanges (k.record e) :=
  ⟨fun _ h => h, ⟨e.label.toList, fun l hl => he l (Option.mem_toList.mp hl), trace_record k e⟩, rfl⟩

theorem exchanges_quiet {e : Event} (he : e.label = none) : k.Exchanges (k.record e) := by
  refine exchanges_record fun l hl => ?_
  rw [he] at hl
  cases hl

theorem exchanges_procSetStatus (k : Kernel) (pid : Pid) {status : ProcStatus}
    (hstatus : status ≠ .unused) : k.Exchanges (k.procSetStatus pid status) := by
  refine .of_trace (fun i hi => ?_) rfl rfl
  simp only [procSetStatus]
  split
  · exact hstatus
  · exact hi

theorem SameIpc.exchanges (h : k.SameIpc k') : k.Exchanges k' :=
  .of_trace (fun i hi => by rw [h.status]; exact hi) (by rw [trace, trace, h.log]) h.lastPid

theorem procTrySyscall_exchanges (h : k.procTrySyscall i = .ok k') : k.Exchanges k' := by
  obtain ⟨-, rfl⟩ | ⟨-, hsend⟩ := procTrySyscall_ok h
  · unfold procTryRecv
    dsimp only
    split
    · exact .refl _
    · refine Exchanges.trans ?_ (exchanges_procSetStatus _ _ nofun)
      refine Exchanges.trans (exchanges_record ?_) (exchanges_procSetStatus _ _ nofun)
      intro l hl
      cases hl
      exact ⟨_, _, _, rfl⟩
  · obtain ⟨r, -, ⟨he, -⟩ | ⟨he, -⟩⟩ := procTrySend_ok hsend
    · rw [he]
      exact .refl k
    · rw [he]
      exact .set fun h => h

theorem retry_exchanges (h : k.retry i = .ok k') : k.Exchanges k' := by
  unfold retry at h
  split at h
  · exact procTrySyscall_exchanges h
  · cases h
    exact .refl k

end Kernel

theorem Scan.visits_exchanges {s s' : Scan} (h : us.foldlM Scan.visit s = .ok s') :
    s.kernel.Exchanges s'.kernel :=
  Scan.visits_rel Kernel.Exchanges.refl (fun _ _ _ => .trans) (fun _ _ _ => Kernel.retry_exchanges) h

namespace Kernel

theorem dispatch_exchanges (k : Kernel) (currentTime : UInt64) (i : Slot) :
    k.Exchanges (k.dispatch currentTime i) := by
  let p := (k.procSet i).stamp currentTime
  let k₁ := (k.set i p).record (.mmuSwitch p.pid)
  let k₂ : Kernel := { k₁ with currProcIdx := i }
  have hset : k.Exchanges (k.set i p) := .set fun h => h
  have hstamp : k.Exchanges k₁ := hset.trans (exchanges_quiet rfl)
  have hswitch : k₁.Exchanges k₂ := .of_trace (fun _ h => h) rfl rfl
  have henter : k₂.Exchanges (k₂.set i p.enter) := by
    refine .set fun h => ?_
    have hself : k₂.procSet i = p := Function.update_self _ _ _
    rw [hself] at h
    rw [(enter_ipc p).2.2.2]
    exact h
  have hrunning : (k₂.set i p.enter).Exchanges ((k₂.set i p.enter).procSetRunning p.pid) :=
    exchanges_procSetStatus _ _ nofun
  exact ((hstamp.trans hswitch).trans henter).trans (hrunning.trans (exchanges_quiet rfl))

/-- `proc_yield` adds meetings. -/
theorem procYield_exchanges (h : k.procYield env = .ok k') : k.Exchanges k' := by
  obtain ⟨s, hscan, -, rfl⟩ := procYield_ok h
  have hpause : k.Exchanges k.pause := by
    unfold pause
    split
    · exact exchanges_procSetStatus _ _ nofun
    · exact .refl k
  have haccount := hpause.trans (account_sameIpc env k).exchanges
  unfold Kernel.scan at hscan
  exact (haccount.trans (Scan.visits_exchanges hscan)).trans (dispatch_exchanges _ _ _)

theorem saved_pid (k : Kernel) (t : Trap) : (k.saved t).curr.pid = k.curr.pid := by
  have hself : (k.saved t).curr =
      { k.curr with mepc := t.mepc, savedRegisters := t.savedRegisters } := set_self _ _ _
  rw [hself]

def callLabels (k : Kernel) (t : Trap) : List (Label Pid Content) :=
  if t.mcause &&& 0x80000000 ≠ 0 then []
  else (t.syscall.call.map fun c => Label.call k.curr.pid c).toList

theorem Exchanges.of_eq {k₁ : Kernel} (h : k₁.Exchanges k')
    (hlive : ∀ i, (k.procSet i).status ≠ .unused → (k₁.procSet i).status ≠ .unused)
    {ls : List (Label Pid Content)} (htrace : k₁.trace = k.trace ++ ls) (hlast : k₁.lastPid = k.lastPid) :
    (∀ i, (k.procSet i).status ≠ .unused → (k'.procSet i).status ≠ .unused) ∧
      k'.lastPid = k.lastPid ∧ ∃ ms, (∀ l ∈ ms, IsMeet l) ∧ k'.trace = k.trace ++ ls ++ ms := by
  obtain ⟨ms, hms, hmeets⟩ := h.trace
  exact ⟨fun i hi => h.live i (hlive i hi), h.lastPid.trans hlast, ms, hms, by rw [hmeets, htrace]⟩

theorem called_trace (k : Kernel) (syscall : Syscall) : (k.called syscall).trace =
    k.trace ++ (syscall.call.map fun c => Label.call k.curr.pid c).toList := by
  have hlabel : (Event.copyIn k.curr.pid (k.curr.accept syscall).syscall).label =
      syscall.call.map fun c => Label.call k.curr.pid c := by
    obtain ⟨type, sender, receiver, content, status⟩ := syscall
    cases type <;> rfl
  change ((k.set _ _).record _).trace = _
  rw [trace_record, hlabel]
  rfl

theorem Sound.accept_exchanges (h : k.Sound) {syscall : Syscall}
    (haccept : k.acceptSyscall syscall = .ok k') : (k.called syscall).Exchanges k' :=
  retry_exchanges (h.accepted haccept).2

/-- An entry adds the call of the current process, then meetings. -/
theorem Sound.entry_trace (h : k.Sound) {t : Trap} (hentry : k.kernelEntry env t = .ok k') :
    (∀ i, (k.procSet i).status ≠ .unused → (k'.procSet i).status ≠ .unused) ∧
      k'.lastPid = k.lastPid ∧
      ∃ ms, (∀ l ∈ ms, IsMeet l) ∧ k'.trace = k.trace ++ k.callLabels t ++ ms := by
  obtain ⟨k₁, huntil, hentry⟩ := kernelEntry_ok hentry
  have hyield := procYield_exchanges hentry
  have hsaved : k.Exchanges (k.saved t) := .set fun h => h
  unfold callLabels
  rcases untilYield_ok huntil with ⟨hintr, rfl | rfl⟩ | ⟨hintr, haccept⟩
  · rw [if_pos hintr]
    exact (hsaved.trans hyield).of_eq (fun _ hi => hi) (List.append_nil _).symm rfl
  · have hcounted : (k.saved t).Exchanges (k.saved t).counted := .set fun h => h
    rw [if_pos hintr]
    exact ((hsaved.trans hcounted).trans hyield).of_eq (fun _ hi => hi) (List.append_nil _).symm rfl
  · rw [if_neg hintr]
    have hretry := (h.saved t).accept_exchanges haccept
    have htrace := called_trace (k.saved t) t.syscall
    rw [saved_pid] at htrace
    refine (hretry.trans hyield).of_eq (fun i hi => ?_) htrace rfl
    by_cases hic : i = k.currProcIdx
    · have hself := called_self (k.saved t) t.syscall
      change ((k.saved t).called t.syscall).procSet k.currProcIdx = _ at hself
      rw [hic, hself]
      nofun
    · rw [called_other (k.saved t) t.syscall hic]
      exact hsaved.live i hi

end Kernel

end OsSuite.Grass
