import OsSuite.Kernel

/-! The process table over a run: pids name at most one slot, and what an entry
does to the statuses before and after its scan. -/

namespace OsSuite.Grass

open Earth (Pid)

variable {env : Env} {k k' k'' : Kernel} {i j : Slot}

theorem pidOf_injective : Function.Injective pidOf := by
  intro m n h
  have hi : m.toInt32 = n.toInt32 := Int32.toInt_inj.mp h
  simpa using congrArg Int32.toUInt32 hi

theorem pidOf_ne_zero {n : UInt32} (h : n ≠ 0) : pidOf n ≠ 0 := fun he => h (pidOf_injective he)

/-- Every pid was given out once. -/
structure Kernel.Pids (k : Kernel) : Prop where
  known : ∀ i, ∃ n ≤ k.lastPid, (k.procSet i).pid = pidOf n
  distinct : ∀ i j, (k.procSet i).pid = (k.procSet j).pid → (k.procSet i).pid ≠ 0 → i = j
  vacant : ∀ i, (k.procSet i).pid = 0 → (k.procSet i).status = .unused
  last : (k.procSet 16).status = .unused ∨ (k.procSet 16).status = .loading

theorem Kernel.Pids.live_pid (h : k.Pids) (hi : (k.procSet i).status ≠ .unused) :
    (k.procSet i).pid ≠ 0 := fun he => hi (h.vacant i he)

theorem Kernel.Pids.live_eq (h : k.Pids) (hi : (k.procSet i).status ≠ .unused)
    (hpid : (k.procSet j).pid = (k.procSet i).pid) : j = i :=
  (h.distinct i j hpid.symm (h.live_pid hi)).symm

theorem Kernel.Pids.scanned (h : k.Pids) (hunused : (k.procSet i).status ≠ .unused)
    (hloading : (k.procSet i).status ≠ .loading) : i.val < 16 := by
  by_contra hi
  have he : i = 16 := Fin.ext (by change i.val = 16; omega)
  subst he
  rcases h.last with h | h
  · exact hunused h
  · exact hloading h

/-- The loop over a pid reaches the one slot that holds it. -/
theorem Kernel.Pids.procSetStatus_eq (h : k.Pids) (hlive : (k.procSet i).status ≠ .unused)
    (hi : i.val < 16) (status : ProcStatus) :
    k.procSetStatus (k.procSet i).pid status = k.set i { k.procSet i with status := status } := by
  simp only [Kernel.procSetStatus, Kernel.set]
  congr 1
  funext j
  by_cases hj : j = i
  · subst hj
    rw [if_pos ⟨hi, rfl⟩, Function.update_self]
  · rw [Function.update_of_ne hj, if_neg]
    exact fun hpid => hj (h.live_eq hlive hpid.2)

/-- The kernel moves to a state with the same processes, live ones staying live. -/
structure Kernel.Moves (k k' : Kernel) : Prop where
  pid : ∀ i, (k'.procSet i).pid = (k.procSet i).pid
  status : ∀ i, (k'.procSet i).status = (k.procSet i).status ∨
    i.val < 16 ∧ (k.procSet i).status ≠ .unused ∧ (k'.procSet i).status ≠ .unused
  lastPid : k'.lastPid = k.lastPid

theorem Kernel.Pids.moves (h : k.Pids) (hm : k.Moves k') : k'.Pids := by
  refine ⟨fun i => ?_, fun i j => ?_, fun i hi => ?_, ?_⟩
  · rw [hm.pid, hm.lastPid]
    exact h.known i
  · rw [hm.pid, hm.pid]
    exact h.distinct i j
  · rw [hm.pid] at hi
    rcases hm.status i with he | ⟨-, hlive, -⟩
    · exact he.trans (h.vacant i hi)
    · exact absurd (h.vacant i hi) hlive
  · rcases hm.status 16 with he | ⟨hlt, -, -⟩
    · rw [he]
      exact h.last
    · exact absurd hlt (by decide)

theorem Kernel.Moves.set {p : Process} (hpid : p.pid = (k.procSet i).pid)
    (hstatus : p.status = (k.procSet i).status ∨
      i.val < 16 ∧ (k.procSet i).status ≠ .unused ∧ p.status ≠ .unused) : k.Moves (k.set i p) := by
  refine ⟨fun j => ?_, fun j => ?_, rfl⟩
  · by_cases hj : j = i
    · rw [hj, Kernel.set_self, hpid]
    · rw [Kernel.set_of_ne k p hj]
  · by_cases hj : j = i
    · rw [hj, Kernel.set_self]
      exact hstatus
    · rw [Kernel.set_of_ne k p hj]
      exact Or.inl rfl

/-- What IPC looks at is the same. -/
structure Kernel.SameIpc (k k' : Kernel) : Prop where
  pid : ∀ i, (k'.procSet i).pid = (k.procSet i).pid
  status : ∀ i, (k'.procSet i).status = (k.procSet i).status
  syscall : ∀ i, (k'.procSet i).syscall = (k.procSet i).syscall
  lastPid : k'.lastPid = k.lastPid
  currProcIdx : k'.currProcIdx = k.currProcIdx
  log : k'.log = k.log

theorem Kernel.SameIpc.refl (k : Kernel) : k.SameIpc k :=
  ⟨fun _ => rfl, fun _ => rfl, fun _ => rfl, rfl, rfl, rfl⟩

theorem Kernel.SameIpc.trans (h : k.SameIpc k') (h' : k'.SameIpc k'') : k.SameIpc k'' :=
  ⟨fun i => (h'.pid i).trans (h.pid i), fun i => (h'.status i).trans (h.status i),
    fun i => (h'.syscall i).trans (h.syscall i), h'.lastPid.trans h.lastPid,
    h'.currProcIdx.trans h.currProcIdx, h'.log.trans h.log⟩

theorem Kernel.SameIpc.moves (h : k.SameIpc k') : k.Moves k' :=
  ⟨h.pid, fun i => Or.inl (h.status i), h.lastPid⟩

theorem Kernel.SameIpc.set {p : Process} (hpid : p.pid = (k.procSet i).pid)
    (hstatus : p.status = (k.procSet i).status) (hsyscall : p.syscall = (k.procSet i).syscall) :
    k.SameIpc (k.set i p) := by
  refine ⟨fun j => ?_, fun j => ?_, fun j => ?_, rfl, rfl, rfl⟩ <;>
  · by_cases hj : j = i
    · rw [hj, Kernel.set_self]
      assumption
    · rw [Kernel.set_of_ne k p hj]

theorem mlfqUpdateLevel_ipc (p : Process) (runtime : UInt64) :
    (mlfqUpdateLevel p runtime).pid = p.pid ∧ (mlfqUpdateLevel p runtime).status = p.status ∧
      (mlfqUpdateLevel p runtime).syscall = p.syscall := by
  unfold mlfqUpdateLevel
  dsimp only
  split <;> exact ⟨rfl, rfl, rfl⟩

theorem mlfqUpdateLevel_level {p : Process} (h : p.mlfqLevel ≤ 4) (runtime : UInt64) :
    (mlfqUpdateLevel p runtime).mlfqLevel ≤ 4 := by
  unfold mlfqUpdateLevel
  dsimp only
  split
  · by_cases hlow : p.mlfqLevel < mlfqNlevels - 1
    · simp only [hlow, if_true]
      simp only [mlfqNlevels] at hlow
      omega
    · simp only [hlow, if_false]
      exact h
  · exact h

/-- No level is beyond the last. -/
def Kernel.Levels (k : Kernel) : Prop := ∀ i, (k.procSet i).mlfqLevel ≤ 4

theorem Kernel.Levels.set (h : k.Levels) {p : Process} (hp : p.mlfqLevel ≤ 4) : (k.set i p).Levels := by
  intro j
  by_cases hj : j = i
  · rw [hj, Kernel.set_self]
    exact hp
  · rw [Kernel.set_of_ne k p hj]
    exact h j

theorem sameIpc_ttyRead (k : Kernel) : k.SameIpc { k with ttyReads := k.ttyReads + 1 } :=
  ⟨fun _ => rfl, fun _ => rfl, fun _ => rfl, rfl, rfl, rfl⟩

theorem sameIpc_mtimeRead (k : Kernel) : k.SameIpc k.mtimeRead :=
  ⟨fun _ => rfl, fun _ => rfl, fun _ => rfl, rfl, rfl, rfl⟩

theorem resetShell_sameIpc (env : Env) (k : Kernel) : k.SameIpc (k.resetShell env) := by
  unfold Kernel.resetShell
  dsimp only
  split
  · exact sameIpc_ttyRead k
  · split
    · exact (sameIpc_ttyRead k).trans (.set rfl rfl rfl)
    · exact sameIpc_ttyRead k

theorem resetShell_levels (h : k.Levels) (env : Env) : (k.resetShell env).Levels := by
  unfold Kernel.resetShell
  dsimp only
  split
  · exact h
  · split
    · exact Kernel.Levels.set h (Nat.zero_le 4)
    · exact h

theorem resetAll_apply (k : Kernel) (i : Slot) : k.resetAll.procSet i = k.procSet i ∨
    k.resetAll.procSet i = { k.procSet i with mlfqLevel := 0 } := by
  unfold Kernel.resetAll
  dsimp only
  split
  · exact Or.inr rfl
  · exact Or.inl rfl

theorem resetAll_sameIpc (k : Kernel) : k.SameIpc k.resetAll := by
  refine ⟨fun i => ?_, fun i => ?_, fun i => ?_, rfl, rfl, rfl⟩ <;>
    rcases resetAll_apply k i with h | h <;> rw [h]

theorem resetAll_levels (h : k.Levels) : k.resetAll.Levels := by
  intro i
  rcases resetAll_apply k i with he | he <;> rw [he]
  · exact h i
  · exact Nat.zero_le 4

theorem mlfqResetLevel_sameIpc (env : Env) (k : Kernel) : k.SameIpc (k.mlfqResetLevel env) := by
  have hshell := (resetShell_sameIpc env k).trans (sameIpc_mtimeRead (k.resetShell env))
  unfold Kernel.mlfqResetLevel
  dsimp only
  split
  · have hall := hshell.trans (resetAll_sameIpc _)
    exact ⟨hall.pid, hall.status, hall.syscall, hall.lastPid, hall.currProcIdx, hall.log⟩
  · exact ⟨hshell.pid, hshell.status, hshell.syscall, hshell.lastPid, hshell.currProcIdx, hshell.log⟩

theorem mlfqResetLevel_levels (h : k.Levels) (env : Env) : (k.mlfqResetLevel env).Levels := by
  have hshell := resetShell_levels h env
  unfold Kernel.mlfqResetLevel
  dsimp only
  split
  · exact resetAll_levels hshell
  · exact hshell

/-- The charge of the current process, between the switch to RUNNABLE and the level reset. -/
def Kernel.charge (k : Kernel) (currentTime : UInt64) : Kernel :=
  if k.currProcIdx.val > 0 ∧ k.currProcIdx.val ≤ maxNprocess ∧ k.curr.status ≠ .unused ∧
      k.curr.timeLastScheduled > 0 then
    k.set k.currProcIdx (mlfqUpdateLevel k.curr (currentTime - k.curr.timeLastScheduled))
  else k

def Kernel.pause (k : Kernel) : Kernel :=
  if k.curr.status = .running then k.procSetRunnable k.curr.pid else k

theorem account_eq (env : Env) (k : Kernel) :
    k.account env = (k.pause.mtimeRead.charge (k.pause.mtimeGet env)).mlfqResetLevel env := rfl

theorem charge_sameIpc (k : Kernel) (currentTime : UInt64) : k.SameIpc (k.charge currentTime) := by
  unfold Kernel.charge
  split
  · obtain ⟨hpid, hstatus, hsyscall⟩ :=
      mlfqUpdateLevel_ipc k.curr (currentTime - k.curr.timeLastScheduled)
    exact .set hpid hstatus hsyscall
  · exact .refl k

theorem charge_levels (h : k.Levels) (currentTime : UInt64) : (k.charge currentTime).Levels := by
  unfold Kernel.charge
  split
  · exact h.set (mlfqUpdateLevel_level (h _) _)
  · exact h

theorem account_sameIpc (env : Env) (k : Kernel) : k.pause.SameIpc (k.account env) :=
  ((sameIpc_mtimeRead _).trans (charge_sameIpc _ _)).trans (mlfqResetLevel_sameIpc env _)

theorem procSetStatus_levels (h : k.Levels) (pid : Pid) (status : ProcStatus) :
    (k.procSetStatus pid status).Levels := by
  intro i
  simp only [Kernel.procSetStatus]
  split <;> exact h i

theorem account_levels (h : k.Levels) (env : Env) : (k.account env).Levels := by
  have hpause : k.pause.Levels := by
    unfold Kernel.pause
    split
    · exact procSetStatus_levels h _ _
    · exact h
  have hread : k.pause.mtimeRead.Levels := hpause
  exact mlfqResetLevel_levels (charge_levels hread _) env

end OsSuite.Grass
