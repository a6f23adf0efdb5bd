import OsSuite.KernelRun

/-! The times that one entry of the kernel reads and writes: the charge of the current process
and the stamp of the next. -/

namespace OsSuite.Grass

open Earth (Pid PageInfoTable)

variable {env : Env} {k k' k'' : Kernel} {c i j : Slot} {us : List Slot}

/-- A process without what system calls, traps and level resets write. -/
def Process.timing (p : Process) : Process :=
  { p with
    syscall := Syscall.zero
    status := .unused
    mepc := 0
    savedRegisters := fun _ => 0
    mlfqLevel := 0
    noInterrupts := 0 }

/-- The times of the processes, the clock and the current slot are the same. -/
structure Kernel.SameTiming (k k' : Kernel) : Prop where
  timing : ∀ i, (k'.procSet i).timing = (k.procSet i).timing
  mtimeReads : k'.mtimeReads = k.mtimeReads
  currProcIdx : k'.currProcIdx = k.currProcIdx

/-- The times that the accounting of CPU time depends on. -/
structure Kernel.SameTimes (k k' : Kernel) : Prop where
  pid : ∀ i, (k'.procSet i).pid = (k.procSet i).pid
  total : ∀ i, (k'.procSet i).totalRuntime = (k.procSet i).totalRuntime
  last : ∀ i, (k'.procSet i).timeLastScheduled = (k.procSet i).timeLastScheduled
  mtimeReads : k'.mtimeReads = k.mtimeReads
  currProcIdx : k'.currProcIdx = k.currProcIdx

namespace Kernel

theorem SameTiming.refl (k : Kernel) : k.SameTiming k := ⟨fun _ => rfl, rfl, rfl⟩

theorem SameTiming.trans (h : k.SameTiming k') (h' : k'.SameTiming k'') : k.SameTiming k'' :=
  ⟨fun i => (h'.timing i).trans (h.timing i), h'.mtimeReads.trans h.mtimeReads,
    h'.currProcIdx.trans h.currProcIdx⟩

theorem SameTiming.set {p : Process} (h : p.timing = (k.procSet i).timing) : k.SameTiming (k.set i p) := by
  refine ⟨fun j => ?_, rfl, rfl⟩
  by_cases hj : j = i
  · rw [hj, set_self]
    exact h
  · rw [set_of_ne k p hj]

theorem SameTiming.field {β : Type} {f : Process → β} (hf : ∀ p, f p.timing = f p) (h : k.SameTiming k')
    (i : Slot) : f (k'.procSet i) = f (k.procSet i) :=
  calc f (k'.procSet i) = f (k'.procSet i).timing := (hf _).symm
    _ = f (k.procSet i).timing := congrArg f (h.timing i)
    _ = f (k.procSet i) := hf _

theorem SameTiming.sameTimes (h : k.SameTiming k') : k.SameTimes k' :=
  ⟨h.field fun _ => rfl, h.field fun _ => rfl, h.field fun _ => rfl, h.mtimeReads, h.currProcIdx⟩

theorem SameTimes.curr (h : k.SameTimes k') : k'.curr.pid = k.curr.pid ∧
    k'.curr.timeLastScheduled = k.curr.timeLastScheduled := by
  unfold Kernel.curr
  rw [h.currProcIdx]
  exact ⟨h.pid _, h.last _⟩

theorem sameTiming_record (k : Kernel) (e : Event) : k.SameTiming (k.record e) := ⟨fun _ => rfl, rfl, rfl⟩

theorem sameTiming_procSetStatus (k : Kernel) (pid : Pid) (status : ProcStatus) :
    k.SameTiming (k.procSetStatus pid status) := by
  refine ⟨fun i => ?_, rfl, rfl⟩
  simp only [procSetStatus]
  split <;> rfl

theorem procTrySyscall_sameTiming (h : k.procTrySyscall i = .ok k') : k.SameTiming k' := by
  obtain ⟨-, rfl⟩ | ⟨-, hsend⟩ := procTrySyscall_ok h
  · unfold procTryRecv
    dsimp only
    split
    · exact .refl _
    · exact ((sameTiming_record _ _).trans (sameTiming_procSetStatus _ _ _)).trans
        (sameTiming_procSetStatus _ _ _)
  · obtain ⟨r, -, ⟨he, -⟩ | ⟨he, -⟩⟩ := procTrySend_ok hsend
    · rw [he]
      exact .refl k
    · rw [he]
      exact .set rfl

theorem retry_sameTiming (h : k.retry i = .ok k') : k.SameTiming k' := by
  unfold retry at h
  split at h
  · exact procTrySyscall_sameTiming h
  · cases h
    exact .refl k

theorem acceptSyscall_sameTiming {syscall : Syscall} (h : k.acceptSyscall syscall = .ok k') :
    k.SameTiming k' := by
  unfold acceptSyscall at h
  have haccept : k.SameTiming (k.set k.currProcIdx (k.curr.accept syscall)) := .set rfl
  refine SameTiming.trans ?_ (procTrySyscall_sameTiming h)
  refine SameTiming.trans ?_ (.set rfl)
  exact (haccept.trans (sameTiming_record _ _)).trans (sameTiming_procSetStatus _ _ _)

theorem untilYield_sameTiming {t : Trap} (h : k.untilYield t = .ok k') : k.SameTiming k' := by
  have hsaved : k.SameTiming (k.saved t) := .set rfl
  rcases untilYield_ok h with ⟨-, rfl | rfl⟩ | ⟨-, haccept⟩
  · exact hsaved
  · exact hsaved.trans (.set rfl)
  · exact hsaved.trans (acceptSyscall_sameTiming haccept)

end Kernel

theorem Scan.visits_sameTiming {s s' : Scan} (h : us.foldlM Scan.visit s = .ok s') :
    s.kernel.SameTiming s'.kernel :=
  Scan.visits_rel Kernel.SameTiming.refl (fun _ _ _ => .trans) (fun _ _ _ => Kernel.retry_sameTiming) h

namespace Kernel

theorem resetShell_sameTiming (env : Env) (k : Kernel) : k.SameTiming (k.resetShell env) := by
  have hread : k.SameTiming { k with ttyReads := k.ttyReads + 1 } := ⟨fun _ => rfl, rfl, rfl⟩
  unfold resetShell
  dsimp only
  split
  · exact hread
  · split
    · exact hread.trans (.set rfl)
    · exact hread

theorem mlfqResetLevel_sameTiming (env : Env) (k : Kernel) :
    { k with mtimeReads := k.mtimeReads + 1 }.SameTiming (k.mlfqResetLevel env) := by
  obtain ⟨htiming, hreads, hcurr⟩ := resetShell_sameTiming env k
  have hreset : ∀ i, ((k.resetShell env).mtimeRead.resetAll.procSet i).timing = (k.procSet i).timing := by
    intro i
    rcases resetAll_apply (k.resetShell env).mtimeRead i with he | he
    · rw [he]
      exact htiming i
    · rw [he]
      exact htiming i
  unfold mlfqResetLevel
  dsimp only
  split
  · exact ⟨hreset, congrArg (· + 1) hreads, hcurr⟩
  · exact ⟨htiming, congrArg (· + 1) hreads, hcurr⟩

/-- What a yield adds to the run time of a slot. -/
def due (k : Kernel) (currentTime : UInt64) (i : Slot) : UInt64 :=
  if i = k.currProcIdx ∧ 0 < i.val ∧ 0 < k.curr.timeLastScheduled then
    currentTime - k.curr.timeLastScheduled
  else 0

theorem mlfqUpdateLevel_times (p : Process) (runtime : UInt64) :
    (mlfqUpdateLevel p runtime).pid = p.pid ∧
      (mlfqUpdateLevel p runtime).totalRuntime = p.totalRuntime + runtime ∧
      (mlfqUpdateLevel p runtime).timeLastScheduled = p.timeLastScheduled := by
  unfold mlfqUpdateLevel
  dsimp only
  split <;> exact ⟨rfl, rfl, rfl⟩

theorem charge_times (hlive : k.curr.status ≠ .unused) (currentTime : UInt64) :
    (∀ i, ((k.charge currentTime).procSet i).pid = (k.procSet i).pid) ∧
    (∀ i, ((k.charge currentTime).procSet i).totalRuntime =
      (k.procSet i).totalRuntime + k.due currentTime i) ∧
    (∀ i, ((k.charge currentTime).procSet i).timeLastScheduled = (k.procSet i).timeLastScheduled) ∧
    (k.charge currentTime).mtimeReads = k.mtimeReads ∧
    (k.charge currentTime).currProcIdx = k.currProcIdx := by
  have hbound : k.currProcIdx.val ≤ maxNprocess := Nat.le_of_lt_succ k.currProcIdx.isLt
  obtain ⟨hpid, htotal, hlast⟩ := mlfqUpdateLevel_times k.curr (currentTime - k.curr.timeLastScheduled)
  unfold charge due
  by_cases hcond : k.currProcIdx.val > 0 ∧ k.curr.timeLastScheduled > 0
  · rw [if_pos ⟨hcond.1, hbound, hlive, hcond.2⟩]
    refine ⟨fun i => ?_, fun i => ?_, fun i => ?_, rfl, rfl⟩
    · by_cases hi : i = k.currProcIdx
      · rw [hi, set_self]
        exact hpid
      · rw [set_of_ne k _ hi]
    · by_cases hi : i = k.currProcIdx
      · rw [hi, set_self, if_pos ⟨rfl, hcond.1, hcond.2⟩]
        exact htotal
      · rw [set_of_ne k _ hi, if_neg fun hc => hi hc.1, UInt64.add_zero]
    · by_cases hi : i = k.currProcIdx
      · rw [hi, set_self]
        exact hlast
      · rw [set_of_ne k _ hi]
  · rw [if_neg fun hc => hcond ⟨hc.1, hc.2.2.2⟩]
    refine ⟨fun _ => rfl, fun i => ?_, fun _ => rfl, rfl, rfl⟩
    rw [if_neg, UInt64.add_zero]
    rintro ⟨rfl, hpos, htime⟩
    exact hcond ⟨hpos, htime⟩

theorem Yielding.pause_live (h : k.Yielding) : k.pause.curr.status ≠ .unused := by
  rcases h.pause_eq with ⟨he, -⟩ | ⟨he, -⟩
  · rw [he]
    exact h.live
  · have hself : k.pause.curr = { k.curr with status := .runnable } := by
      rw [he]
      exact set_self _ _ _
    rw [hself]
    nofun

theorem pause_sameTiming (k : Kernel) : k.SameTiming k.pause := by
  unfold pause
  split
  · exact sameTiming_procSetStatus _ _ _
  · exact .refl k

theorem dispatch_times (hp : k.Pids) (hi : i.val < 16) (hlive : (k.procSet i).status ≠ .unused)
    (currentTime : UInt64) :
    (∀ j, ((k.dispatch currentTime i).procSet j).pid = (k.procSet j).pid) ∧
    (∀ j, ((k.dispatch currentTime i).procSet j).totalRuntime = (k.procSet j).totalRuntime) ∧
    (k.dispatch currentTime i).curr.timeLastScheduled = currentTime ∧
    (k.dispatch currentTime i).mtimeReads = k.mtimeReads := by
  let q : Process := { ((k.procSet i).stamp currentTime).enter with status := .running }
  have hq : q.pid = (k.procSet i).pid ∧ q.totalRuntime = (k.procSet i).totalRuntime ∧
      q.timeLastScheduled = currentTime := by
    simp only [q, Process.enter]
    split <;> exact ⟨rfl, rfl, rfl⟩
  have heq := dispatch_eq hp hi hlive currentTime
  have hself : (k.dispatch currentTime i).procSet i = q := by
    rw [heq]
    exact set_self k i q
  have hother : ∀ j, j ≠ i → (k.dispatch currentTime i).procSet j = k.procSet j := by
    intro j hj
    rw [heq]
    exact set_of_ne k q hj
  refine ⟨fun j => ?_, fun j => ?_, ?_, by rw [heq]; rfl⟩
  · by_cases hj : j = i
    · rw [hj, hself, hq.1]
    · rw [hother j hj]
  · by_cases hj : j = i
    · rw [hj, hself, hq.2.1]
    · rw [hother j hj]
  · have hcurr : (k.dispatch currentTime i).currProcIdx = i := by rw [heq]
    rw [curr, hcurr, hself]
    exact hq.2.2

/-- `proc_yield` charges the current process and stamps the next one. -/
theorem Yielding.times (h : k.Yielding) (hyield : k.procYield env = .ok k') :
    (∀ i, (k'.procSet i).pid = (k.procSet i).pid) ∧
    (∀ i, (k'.procSet i).totalRuntime = (k.procSet i).totalRuntime + k.due (k.mtimeGet env) i) ∧
    k'.curr.timeLastScheduled = k.mtimeGet env ∧ k'.mtimeReads = k.mtimeReads + 2 := by
  obtain ⟨s, hscan, hlt, rfl⟩ := procYield_ok hyield
  obtain ⟨hend, hselects⟩ := h.scan hscan
  have hpause := (pause_sameTiming k).sameTimes
  have htime : k.pause.mtimeGet env = k.mtimeGet env := by rw [mtimeGet, mtimeGet, hpause.mtimeReads]
  have hlive : k.pause.mtimeRead.curr.status ≠ .unused := h.pause_live
  obtain ⟨hpid, htotal, hlast, hreads, hcurr⟩ := charge_times hlive (k.mtimeGet env)
  have hdue : ∀ i, k.pause.mtimeRead.due (k.mtimeGet env) i = k.due (k.mtimeGet env) i := by
    intro i
    have hi := hpause.curr.2
    change (if i = k.pause.currProcIdx ∧ 0 < i.val ∧ 0 < k.pause.curr.timeLastScheduled then
      k.mtimeGet env - k.pause.curr.timeLastScheduled else 0) = _
    rw [hpause.currProcIdx, hi]
    rfl
  have hreset := (mlfqResetLevel_sameTiming env (k.pause.mtimeRead.charge (k.mtimeGet env))).sameTimes
  have haccount : k.account env = (k.pause.mtimeRead.charge (k.mtimeGet env)).mlfqResetLevel env := by
    rw [account_eq, htime]
  rw [← haccount] at hreset
  unfold Kernel.scan at hscan
  have hvisits := (Scan.visits_sameTiming hscan).sameTimes
  have hlive' : (s.kernel.procSet s.nextIdx).status ≠ .unused := by
    rcases hselects hlt with hd | hd <;> rw [hd] <;> decide
  have hpid' : ∀ i, (s.kernel.procSet i).pid = (k.procSet i).pid := fun i =>
    (hvisits.pid i).trans ((hreset.pid i).trans ((hpid i).trans (hpause.pid i)))
  have htotal' : ∀ i, (s.kernel.procSet i).totalRuntime =
      (k.procSet i).totalRuntime + k.due (k.mtimeGet env) i := by
    intro i
    refine (hvisits.total i).trans ((hreset.total i).trans ((htotal i).trans ?_))
    rw [hdue]
    exact congrArg (· + k.due (k.mtimeGet env) i) (hpause.total i)
  have hreads' : s.kernel.mtimeReads = k.mtimeReads + 2 := by
    rw [hvisits.mtimeReads, hreset.mtimeReads]
    change (k.pause.mtimeRead.charge (k.mtimeGet env)).mtimeReads + 1 = _
    rw [hreads]
    change k.pause.mtimeReads + 1 + 1 = _
    rw [hpause.mtimeReads]
  obtain ⟨hdpid, hdtotal, hdlast, hdreads⟩ :=
    dispatch_times hend.synced.pids hlt hlive' (k.mtimeGet env)
  exact ⟨fun i => (hdpid i).trans (hpid' i), fun i => (hdtotal i).trans (htotal' i), hdlast, hdreads.trans hreads'⟩

/-- An entry of the kernel: what it charges, and when. -/
theorem Sound.entry_times (h : k.Sound) {t : Trap} (hentry : k.kernelEntry env t = .ok k') :
    (∀ i, (k'.procSet i).pid = (k.procSet i).pid) ∧
    (∀ i, (k'.procSet i).totalRuntime = (k.procSet i).totalRuntime + k.due (k.mtimeGet env) i) ∧
    k'.curr.timeLastScheduled = k.mtimeGet env ∧ k'.mtimeReads = k.mtimeReads + 2 := by
  obtain ⟨k₁, huntil, hentry⟩ := kernelEntry_ok hentry
  have hsame := (untilYield_sameTiming huntil).sameTimes
  obtain ⟨hpid, htotal, hlast, hreads⟩ := (h.untilYield huntil).times hentry
  have htime : k₁.mtimeGet env = k.mtimeGet env := by rw [mtimeGet, mtimeGet, hsame.mtimeReads]
  have hdue : ∀ i, k₁.due (k.mtimeGet env) i = k.due (k.mtimeGet env) i := by
    intro i
    unfold due
    rw [hsame.currProcIdx, hsame.curr.2]
  rw [htime] at htotal hlast
  refine ⟨fun i => (hpid i).trans (hsame.pid i), fun i => ?_, hlast, by rw [hreads, hsame.mtimeReads]⟩
  rw [htotal, hdue, hsame.total]

end Kernel

end OsSuite.Grass
