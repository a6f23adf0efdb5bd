import OsSuite.Lifecycle
import OsSuite.TrapEntry
import OsSuite.YieldTimes

/-! The contexts of the processes: an entry of the kernel saves the one of the process that
trapped, loads the one of the process that it dispatches, and leaves the others alone. -/

namespace OsSuite.Grass

open Earth (Pid PageInfoTable)

variable {env : Env} {k k' k'' : Kernel} {c i j : Slot} {us : List Slot}

structure Context where
  pc : UInt32
  saved : Fin 32 → UInt32

def Process.context (p : Process) : Context := ⟨p.mepc, p.savedRegisters⟩

/-- Where the process goes on after a trap. An `ecall` is not repeated. -/
def Trap.context (t : Trap) : Context :=
  if t.mcause &&& 0x80000000 ≠ 0 then ⟨t.mepc, t.savedRegisters⟩ else ⟨t.mepc + 4, t.savedRegisters⟩

/-- The context with which a new process starts, whatever the slot held before. -/
def Context.enter (x : Context) : Context :=
  ⟨appsEntry, Function.update (Function.update x.saved 0 appsArg) 1 (appsArg + 4)⟩

/-- The process has been dispatched. -/
def Process.Begun (p : Process) : Prop :=
  p.status = .running ∨ p.status = .runnable ∨ p.status = .pendingSyscall

theorem Process.Begun.ne_ready {p : Process} (h : p.Begun) : p.status ≠ .ready := by
  rcases h with h | h | h <;> rw [h] <;> decide

namespace Kernel

def SameContexts (k k' : Kernel) : Prop := ∀ i, (k'.procSet i).context = (k.procSet i).context

theorem SameContexts.refl (k : Kernel) : k.SameContexts k := fun _ => rfl

theorem SameContexts.trans (h : k.SameContexts k') (h' : k'.SameContexts k'') : k.SameContexts k'' :=
  fun i => (h' i).trans (h i)

theorem SameContexts.set {p : Process} (h : p.context = (k.procSet i).context) : k.SameContexts (k.set i p) := by
  intro j
  by_cases hj : j = i
  · rw [hj, set_self]
    exact h
  · rw [set_of_ne k p hj]

theorem sameContexts_procSetStatus (k : Kernel) (pid : Pid) (status : ProcStatus) :
    k.SameContexts (k.procSetStatus pid status) := by
  intro i
  simp only [procSetStatus]
  split <;> rfl

theorem procTrySyscall_sameContexts (h : k.procTrySyscall i = .ok k') : k.SameContexts k' := by
  obtain ⟨-, rfl⟩ | ⟨-, hsend⟩ := procTrySyscall_ok h
  · unfold procTryRecv
    dsimp only
    split
    · exact .refl _
    · have hcopied : k.SameContexts (k.record (.copyOut (k.procSet i).pid (k.procSet i).syscall)) :=
        fun _ => rfl
      exact (hcopied.trans (sameContexts_procSetStatus _ _ _)).trans (sameContexts_procSetStatus _ _ _)
  · obtain ⟨r, -, ⟨he, -⟩ | ⟨he, -⟩⟩ := procTrySend_ok hsend
    · rw [he]
      exact .refl k
    · rw [he]
      exact .set rfl

theorem retry_sameContexts (h : k.retry i = .ok k') : k.SameContexts k' := by
  unfold retry at h
  split at h
  · exact procTrySyscall_sameContexts h
  · cases h
    exact .refl k

theorem pause_sameContexts (k : Kernel) : k.SameContexts k.pause := by
  unfold pause
  split
  · exact sameContexts_procSetStatus _ _ _
  · exact .refl k

theorem mlfqUpdateLevel_context (p : Process) (runtime : UInt64) :
    (mlfqUpdateLevel p runtime).context = p.context := by
  unfold mlfqUpdateLevel
  dsimp only
  split <;> rfl

theorem charge_sameContexts (k : Kernel) (currentTime : UInt64) : k.SameContexts (k.charge currentTime) := by
  unfold charge
  split
  · exact .set (mlfqUpdateLevel_context _ _)
  · exact .refl k

theorem resetShell_sameContexts (env : Env) (k : Kernel) : k.SameContexts (k.resetShell env) := by
  have hread : k.SameContexts { k with ttyReads := k.ttyReads + 1 } := fun _ => rfl
  unfold resetShell
  dsimp only
  split
  · exact hread
  · split
    · exact hread.trans (.set rfl)
    · exact hread

theorem mlfqResetLevel_sameContexts (env : Env) (k : Kernel) : k.SameContexts (k.mlfqResetLevel env) := by
  have hreset : ∀ k₁ : Kernel, k₁.SameContexts k₁.resetAll := by
    intro k₁ i
    rcases resetAll_apply k₁ i with he | he <;> rw [he]
    rfl
  have hshell := resetShell_sameContexts env k
  unfold mlfqResetLevel
  dsimp only
  split
  · exact hshell.trans (hreset (k.resetShell env).mtimeRead)
  · exact hshell

theorem account_sameContexts (env : Env) (k : Kernel) : k.SameContexts (k.account env) := by
  rw [account_eq]
  exact ((pause_sameContexts k).trans (charge_sameContexts k.pause.mtimeRead _)).trans
    (mlfqResetLevel_sameContexts env _)

/-- No process begins, and none is lost. -/
def Progress (k k' : Kernel) : Prop :=
  ∀ i, (k'.procSet i).status = (k.procSet i).status ∨ (k.procSet i).Begun ∧ (k'.procSet i).Begun

theorem Progress.refl (k : Kernel) : k.Progress k := fun _ => Or.inl rfl

theorem Progress.of_status (h : ∀ i, (k'.procSet i).status = (k.procSet i).status) : k.Progress k' :=
  fun i => Or.inl (h i)

theorem Progress.begun (h : k.Progress k') : (k'.procSet i).Begun ↔ (k.procSet i).Begun := by
  rcases h i with he | ⟨hi, hi'⟩
  · rw [Process.Begun, he]
    rfl
  · exact ⟨fun _ => hi, fun _ => hi'⟩

theorem Progress.trans (h : k.Progress k') (h' : k'.Progress k'') : k.Progress k'' := by
  intro i
  rcases h' i with he' | ⟨hi', hi''⟩
  · rcases h i with he | ⟨hi, hi'⟩
    · exact Or.inl (he'.trans he)
    · refine Or.inr ⟨hi, ?_⟩
      rw [Process.Begun, he']
      exact hi'
  · exact Or.inr ⟨h.begun.mp hi', hi''⟩

theorem Progress.set {p : Process} (hi : (k.procSet i).Begun) (hp : p.Begun) : k.Progress (k.set i p) := by
  intro j
  by_cases hj : j = i
  · rw [hj, set_self]
    exact Or.inr ⟨hi, hp⟩
  · rw [set_of_ne k p hj]
    exact Or.inl rfl

theorem Progress.set_same {p : Process} (hp : p.status = (k.procSet i).status) : k.Progress (k.set i p) := by
  intro j
  by_cases hj : j = i
  · rw [hj, set_self]
    exact Or.inl hp
  · rw [set_of_ne k p hj]
    exact Or.inl rfl

theorem Visited.progress (h : k.Visited i k') : k.Progress k' := by
  intro j
  rcases (h.frame j).2.2 with he | ⟨hb, hrun⟩
  · exact Or.inl he
  · exact Or.inr ⟨Or.inr (Or.inr hb), Or.inr (Or.inl hrun)⟩

end Kernel

theorem Scan.visits_sameContexts {s s' : Scan} (h : us.foldlM Scan.visit s = .ok s') :
    s.kernel.SameContexts s'.kernel :=
  Scan.visits_rel Kernel.SameContexts.refl (fun _ _ _ => .trans)
    (fun _ _ _ => Kernel.retry_sameContexts) h

theorem Scan.visits_progress {s s' : Scan} (h : Kernel.Scanning c s.kernel us)
    (hvisits : us.foldlM Scan.visit s = .ok s') : s.kernel.Progress s'.kernel := by
  induction us generalizing s with
  | nil =>
    cases hvisits
    exact .refl _
  | cons i us ih =>
    rw [List.foldlM_cons] at hvisits
    obtain ⟨s₁, hvisit, hvisits⟩ := bind_eq_ok hvisits
    obtain ⟨k₁, hretry, hs₁⟩ := Scan.visit_ok hvisit
    obtain ⟨hnext, hvisited⟩ := h.retry hretry
    have hkernel : s₁.kernel = k₁ := by
      rw [hs₁]
      split <;> rfl
    rw [← hkernel] at hnext hvisited
    exact hvisited.progress.trans (ih hnext hvisits)

namespace Kernel

theorem Yielding.pause_progress (h : k.Yielding) : k.Progress k.pause := by
  rcases h.pause_eq with ⟨he, -⟩ | ⟨he, hrun⟩
  · rw [he]
    exact .refl k
  · rw [he]
    exact .set (Or.inl hrun) (Or.inr (Or.inl rfl))

/-- The contexts after an entry, those of the current process and of the next one apart. -/
structure Switched (k k' : Kernel) (x : Slot → Context) : Prop where
  pid : ∀ i, (k'.procSet i).pid = (k.procSet i).pid
  kept : ∀ i, i ≠ k'.currProcIdx → (k'.procSet i).context = x i
  status : ∀ i, i ≠ k'.currProcIdx →
    (k'.procSet i).status = (k.procSet i).status ∨ (k.procSet i).Begun ∧ (k'.procSet i).Begun
  resumed : (k.procSet k'.currProcIdx).Begun → k'.curr.context = x k'.currProcIdx
  entered : ¬(k.procSet k'.currProcIdx).Begun →
    (k.procSet k'.currProcIdx).status = .ready ∧ k'.curr.context = (x k'.currProcIdx).enter

theorem dispatch_switched (hp : k.Pids) (hi : i.val < 16) (hd : (k.procSet i).Dispatchable)
    (currentTime : UInt64) :
    k.Switched (k.dispatch currentTime i) fun j => (k.procSet j).context := by
  have hlive : (k.procSet i).status ≠ .unused := by
    rcases hd with hd | hd <;> rw [hd] <;> decide
  let q : Process := { ((k.procSet i).stamp currentTime).enter with status := .running }
  have hpid : q.pid = (k.procSet i).pid := by
    change ((k.procSet i).stamp currentTime).enter.pid = _
    unfold Process.enter
    split <;> rfl
  have hcontext : q.context =
      if (k.procSet i).status = .ready then (k.procSet i).context.enter else (k.procSet i).context := by
    change Process.context ((k.procSet i).stamp currentTime).enter = _
    have hstatus : ((k.procSet i).stamp currentTime).status = (k.procSet i).status := rfl
    unfold Process.enter
    rw [hstatus]
    split <;> rfl
  have heq := dispatch_eq hp hi hlive currentTime
  have hslots : (k.dispatch currentTime i).procSet = (k.set i q).procSet := by
    rw [heq]
  have hcurr : (k.dispatch currentTime i).currProcIdx = i := by rw [heq]
  have hself : (k.dispatch currentTime i).curr = q := by
    rw [curr, hcurr, hslots]
    exact set_self k i q
  refine ⟨fun j => ?_, fun j hj => ?_, fun j hj => ?_, fun hbegun => ?_, fun hnew => ?_⟩
  · rw [hslots]
    by_cases hj : j = i
    · rw [hj, set_self, hpid]
    · rw [set_of_ne k q hj]
  · rw [hcurr] at hj
    rw [hslots, set_of_ne k q hj]
  · rw [hcurr] at hj
    rw [hslots, set_of_ne k q hj]
    exact Or.inl rfl
  · rw [hcurr] at hbegun
    rw [hself, hcontext, hcurr, if_neg hbegun.ne_ready]
  · rw [hcurr] at hnew
    have hready : (k.procSet i).status = .ready := hd.resolve_right fun hr => hnew (Or.inr (Or.inl hr))
    rw [hself, hcontext, hcurr, if_pos hready]
    exact ⟨hready, rfl⟩

/-- What comes before the dispatch. -/
theorem Switched.after {x : Slot → Context} {k₁ : Kernel} (h : k₁.Switched k' fun i => (k₁.procSet i).context)
    (hpid : ∀ i, (k₁.procSet i).pid = (k.procSet i).pid) (hprogress : k.Progress k₁)
    (hcontext : ∀ i, (k₁.procSet i).context = x i) : k.Switched k' x := by
  refine ⟨fun i => (h.pid i).trans (hpid i), fun i hi => (h.kept i hi).trans (hcontext i), fun i hi => ?_,
    fun hbegun => ?_, fun hnew => ?_⟩
  · rcases h.status i hi with he | ⟨hi₁, hi'⟩
    · rcases hprogress i with he₁ | ⟨hk, hk₁⟩
      · exact Or.inl (he.trans he₁)
      · refine Or.inr ⟨hk, ?_⟩
        rw [Process.Begun, he]
        exact hk₁
    · exact Or.inr ⟨hprogress.begun.mp hi₁, hi'⟩
  · exact (h.resumed (hprogress.begun.mpr hbegun)).trans (hcontext _)
  · obtain ⟨hready, henter⟩ := h.entered fun hbegun => hnew (hprogress.begun.mp hbegun)
    refine ⟨?_, henter.trans (congrArg Context.enter (hcontext _))⟩
    rcases hprogress k'.currProcIdx with he | ⟨hbegun, -⟩
    · exact he.symm.trans hready
    · exact absurd hbegun hnew

theorem Yielding.switched (h : k.Yielding) (hyield : k.procYield env = .ok k') :
    k.Switched k' fun i => (k.procSet i).context := by
  obtain ⟨s, hscan, hlt, rfl⟩ := procYield_ok hyield
  obtain ⟨hend, hselects⟩ := h.scan hscan
  have hstart := h.account env
  unfold Kernel.scan at hscan
  rw [hstart.currProcIdx] at hscan
  have hpaused : k.Progress (k.account env) :=
    h.pause_progress.trans (.of_status (account_sameIpc env k).status)
  have hprogress := hpaused.trans
    (Scan.visits_progress (s := ⟨k.account env, 5, Fin.ofNat 17 maxNprocess⟩) hstart hscan)
  have hcontexts := (account_sameContexts env k).trans (Scan.visits_sameContexts hscan)
  have hpids := Scan.visits_sameTiming hscan
  have hpid : ∀ i, (s.kernel.procSet i).pid = (k.procSet i).pid := by
    intro i
    refine (hpids.field (fun _ => rfl) i).trans (((account_sameIpc env k).pid i).trans ?_)
    exact (pause_sameTiming k).field (fun _ => rfl) i
  exact (dispatch_switched hend.synced.pids hlt (hselects hlt) _).after hpid hprogress hcontexts

/-- What a trap leaves to `proc_yield`. -/
def trapped (k : Kernel) (t : Trap) : Slot → Context :=
  Function.update (fun i => (k.procSet i).context) k.currProcIdx t.context

theorem trapped_saved (k : Kernel) (t : Trap) (h : t.context = ⟨t.mepc, t.savedRegisters⟩) (i : Slot) :
    ((k.saved t).procSet i).context = k.trapped t i := by
  unfold trapped
  by_cases hi : i = k.currProcIdx
  · rw [hi, Function.update_self, h]
    exact congrArg Process.context (set_self k _ _)
  · rw [Function.update_of_ne hi]
    exact congrArg Process.context (set_of_ne k _ hi)

theorem trapped_called (k : Kernel) (t : Trap) (h : t.context = ⟨t.mepc + 4, t.savedRegisters⟩) (i : Slot) :
    (((k.saved t).called t.syscall).procSet i).context = k.trapped t i := by
  unfold trapped
  by_cases hi : i = k.currProcIdx
  · have hself : (k.saved t).curr =
        { k.curr with mepc := t.mepc, savedRegisters := t.savedRegisters } := set_self k _ _
    have hcalled := called_self (k.saved t) t.syscall
    rw [hi, Function.update_self, h]
    change Process.context (((k.saved t).called t.syscall).procSet (k.saved t).currProcIdx) = _
    rw [hcalled, calling, hself]
    rfl
  · rw [Function.update_of_ne hi]
    refine (congrArg Process.context (called_other (k.saved t) t.syscall hi)).trans ?_
    exact congrArg Process.context (set_of_ne k _ hi)

theorem called_progress (hrun : k.curr.Begun) (syscall : Syscall) : k.Progress (k.called syscall) := by
  intro i
  by_cases hi : i = k.currProcIdx
  · rw [hi, called_self]
    exact Or.inr ⟨hrun, Or.inr (Or.inr rfl)⟩
  · rw [called_other k syscall hi]
    exact Or.inl rfl

theorem Sound.untilYield_contexts (h : k.Sound) {t : Trap} (ht : k.untilYield t = .ok k') :
    k.Progress k' ∧ ∀ i, (k'.procSet i).context = k.trapped t i := by
  have hsaved : k.Progress (k.saved t) := .set_same rfl
  rcases untilYield_ok ht with ⟨hintr, rfl | rfl⟩ | ⟨hintr, haccept⟩
  · exact ⟨hsaved, trapped_saved k t (if_pos hintr)⟩
  · have hcounted : (k.saved t).SameContexts (k.saved t).counted := .set rfl
    refine ⟨hsaved.trans (.set_same rfl), fun i => ?_⟩
    exact (hcounted i).trans (trapped_saved k t (if_pos hintr) i)
  · have hs := h.saved t
    obtain ⟨hsynced, hretry⟩ := hs.accepted haccept
    obtain ⟨-, hvisited⟩ := hsynced.retry hretry
    have hbegun : (k.saved t).curr.Begun := Or.inl ((hs.running _).mpr rfl)
    refine ⟨(hsaved.trans (called_progress hbegun t.syscall)).trans hvisited.progress,
      fun i => ?_⟩
    exact (retry_sameContexts hretry i).trans (trapped_called k t (if_neg hintr) i)

/-- An entry of the kernel switches from the context in which the current process trapped. -/
theorem Sound.entry_switched (h : k.Sound) {t : Trap} (hentry : k.kernelEntry env t = .ok k') :
    k.Switched k' (k.trapped t) := by
  obtain ⟨k₁, huntil, hyield⟩ := kernelEntry_ok hentry
  obtain ⟨hprogress, hcontexts⟩ := h.untilYield_contexts huntil
  have hpid := (untilYield_sameTiming huntil).field (f := Process.pid) (fun _ => rfl)
  exact ((h.untilYield huntil).switched hyield).after hpid hprogress hcontexts

end Kernel

end OsSuite.Grass
