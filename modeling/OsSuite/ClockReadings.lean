import OsSuite.YieldTimes

/-! A run depends only on the readings of the clock that it has made. -/

namespace OsSuite.Grass

open Earth (Pid PageInfoTable)

variable {env env' : Env} {k k' : Kernel} {condition : Kernel → Action → Prop} {m n : Nat} {i : Slot}

/-- The readings of the clock from number `m` to before `n` are the same in `env'`, and the
keyboard is. -/
structure Env.Agrees (m n : Nat) (env env' : Env) : Prop where
  mtime : ∀ l, m ≤ l → l < n → env'.mtime l = env.mtime l
  tty : env'.ttyInputEmpty = env.ttyInputEmpty

theorem Env.Agrees.mono {m' n' : Nat} (h : env.Agrees m n env') (hm : m ≤ m') (hn : n' ≤ n) :
    env.Agrees m' n' env' :=
  ⟨fun l hl hlt => h.mtime l (hm.trans hl) (hlt.trans_le hn), h.tty⟩

namespace Kernel

theorem mtimeGet_agrees (h : env.Agrees m n env') (hle : m ≤ k.mtimeReads) (hlt : k.mtimeReads < n) :
    k.mtimeGet env' = k.mtimeGet env := h.mtime _ hle hlt

theorem mlfqResetLevel_agrees (h : env.Agrees k.mtimeReads (k.mtimeReads + 1) env') :
    k.mlfqResetLevel env' = k.mlfqResetLevel env := by
  have hshell : k.resetShell env' = k.resetShell env := by
    unfold resetShell
    rw [h.tty]
  have htime : (k.resetShell env).mtimeGet env' = (k.resetShell env).mtimeGet env := by
    have hreads := (resetShell_sameTiming env k).mtimeReads
    refine mtimeGet_agrees h ?_ ?_ <;> omega
  unfold mlfqResetLevel
  dsimp only
  rw [hshell, htime]

theorem charge_mtimeReads (k : Kernel) (currentTime : UInt64) :
    (k.charge currentTime).mtimeReads = k.mtimeReads := by
  unfold charge
  split <;> rfl

theorem account_agrees (h : env.Agrees k.mtimeReads (k.mtimeReads + 2) env') :
    k.account env' = k.account env ∧ (k.account env).mtimeReads = k.mtimeReads + 2 := by
  have hpause := (pause_sameTiming k).mtimeReads
  have htime : k.pause.mtimeGet env' = k.pause.mtimeGet env := by
    refine mtimeGet_agrees h ?_ ?_ <;> omega
  have hreads : (k.pause.mtimeRead.charge (k.pause.mtimeGet env)).mtimeReads = k.mtimeReads + 1 := by
    rw [charge_mtimeReads, mtimeRead, hpause]
  rw [account_eq, account_eq, htime]
  constructor
  · refine mlfqResetLevel_agrees ?_
    rw [hreads]
    exact h.mono (Nat.le_succ _) le_rfl
  · rw [(mlfqResetLevel_sameTiming env _).mtimeReads]
    exact congrArg (· + 1) hreads

theorem dispatch_mtimeReads (k : Kernel) (currentTime : UInt64) (i : Slot) :
    (k.dispatch currentTime i).mtimeReads = k.mtimeReads := rfl

theorem procYield_reads (h : k.procYield env = .ok k') : k'.mtimeReads = k.mtimeReads + 2 := by
  obtain ⟨s, hscan, -, rfl⟩ := procYield_ok h
  unfold scan at hscan
  rw [dispatch_mtimeReads, (Scan.visits_sameTiming hscan).mtimeReads]
  exact (account_agrees ⟨fun _ _ _ => rfl, rfl⟩).2

theorem procYield_agrees (h : env.Agrees k.mtimeReads (k.mtimeReads + 2) env') :
    k.procYield env' = k.procYield env := by
  have htime : k.mtimeGet env' = k.mtimeGet env := by
    refine mtimeGet_agrees h ?_ ?_ <;> omega
  unfold procYield
  rw [(account_agrees h).1, htime]

theorem terminate_agrees (h : env.Agrees k.mtimeReads (k.mtimeReads + 1) env') (i : Slot) :
    k.terminate env' i = k.terminate env i := by
  unfold terminate
  rw [mtimeGet_agrees h le_rfl (Nat.lt_succ_self _)]

theorem procAlloc_agrees {pid : Pid} (halloc : k.procAlloc env = .ok (pid, k')) :
    k'.mtimeReads = k.mtimeReads + 1 ∧
      (env.Agrees k.mtimeReads (k.mtimeReads + 1) env' → k.procAlloc env' = .ok (pid, k')) := by
  obtain ⟨i, hslot, -, hk'⟩ := procAlloc_ok halloc
  refine ⟨by rw [hk']; rfl, fun hagrees => ?_⟩
  rw [← halloc]
  unfold procAlloc
  rw [hslot]
  dsimp only
  rw [mtimeGet_agrees hagrees le_rfl (Nat.lt_succ_self _)]

theorem freeUser_reads (env : Env) (k : Kernel) (i : Slot) :
    k.mtimeReads ≤ (k.freeUser env i).mtimeReads := by
  unfold freeUser
  split
  · exact Nat.le_succ _
  · exact le_rfl

theorem freeUser_agrees (h : env.Agrees k.mtimeReads (k.freeUser env i).mtimeReads env') :
    k.freeUser env' i = k.freeUser env i := by
  unfold freeUser at h ⊢
  split
  · rename_i hlive
    rw [if_pos hlive] at h
    rw [terminate_agrees h]
  · rfl

theorem freeUsers_reads (env : Env) (q : List Slot) (k : Kernel) :
    k.mtimeReads ≤ (q.foldl (freeUser env) k).mtimeReads := by
  induction q generalizing k with
  | nil => exact le_rfl
  | cons i q ih => exact (freeUser_reads env k i).trans (ih _)

theorem freeUsers_agrees (q : List Slot) (k : Kernel)
    (h : env.Agrees k.mtimeReads (q.foldl (freeUser env) k).mtimeReads env') :
    q.foldl (freeUser env') k = q.foldl (freeUser env) k := by
  induction q generalizing k with
  | nil => rfl
  | cons i q ih =>
    rw [List.foldl_cons] at h
    have hi := freeUser_agrees (h.mono le_rfl (freeUsers_reads env q _))
    rw [List.foldl_cons, List.foldl_cons, hi]
    exact ih _ (h.mono (freeUser_reads env k i) le_rfl)

theorem procFree_reads (env : Env) (k : Kernel) (pid : Pid) :
    k.mtimeReads ≤ (k.procFree env pid).mtimeReads := by
  unfold procFree
  split
  · split
    · exact Nat.le_succ _
    · exact le_rfl
  · exact freeUsers_reads env _ k

theorem procFree_agrees {pid : Pid}
    (h : env.Agrees k.mtimeReads (k.procFree env pid).mtimeReads env') :
    k.procFree env' pid = k.procFree env pid := by
  unfold procFree at h ⊢
  split
  · rename_i hpid
    rw [if_pos hpid] at h
    cases hfirst : k.firstUser with
    | none => rfl
    | some i =>
      rw [hfirst] at h
      dsimp only
      rw [terminate_agrees h]
  · rename_i hpid
    rw [if_neg hpid] at h
    exact freeUsers_agrees _ k h

end Kernel

theorem Kernel.kernelEntry_agrees {t : Trap} (hentry : k.kernelEntry env t = .ok k') :
    k'.mtimeReads = k.mtimeReads + 2 ∧
      (env.Agrees k.mtimeReads (k.mtimeReads + 2) env' → k.kernelEntry env' t = .ok k') := by
  obtain ⟨k₁, huntil, hyield⟩ := kernelEntry_ok hentry
  have hsame := untilYield_sameTiming huntil
  refine ⟨(procYield_reads hyield).trans (congrArg (· + 2) hsame.mtimeReads), fun hagrees => ?_⟩
  rw [← hsame.mtimeReads] at hagrees
  rw [kernelEntry_eq, huntil]
  exact (procYield_agrees hagrees).trans hyield

theorem Action.step_agrees {a : Action} (hstep : a.step env k = .ok k') :
    k.mtimeReads ≤ k'.mtimeReads ∧
      (env.Agrees k.mtimeReads k'.mtimeReads env' → a.step env' k = .ok k') := by
  cases a with
  | trap t =>
    obtain ⟨hreads, hsame⟩ := Kernel.kernelEntry_agrees hstep
    rw [hreads]
    exact ⟨Nat.le_add_right _ 2, hsame⟩
  | procAlloc =>
    obtain ⟨pid, halloc⟩ := Action.procAlloc_ok hstep
    obtain ⟨hreads, hsame⟩ := Kernel.procAlloc_agrees halloc
    refine ⟨hreads ▸ Nat.le_succ _, fun hagrees => ?_⟩
    change (·.2) <$> k.procAlloc env' = _
    rw [hsame (hreads ▸ hagrees)]
    rfl
  | procSetReady p =>
    cases hstep
    exact ⟨le_rfl, fun _ => rfl⟩
  | procFree p =>
    cases hstep
    exact ⟨Kernel.procFree_reads env k p, fun hagrees => congrArg _ (Kernel.procFree_agrees hagrees)⟩

theorem Run.agrees (h : Run env condition k) (hagrees : env.Agrees 0 k.mtimeReads env') :
    Run env' condition k := by
  induction h with
  | @boot table k h =>
    unfold Kernel.grassEntry at h
    obtain ⟨⟨pid, k₁⟩, halloc, hend⟩ := bind_eq_ok h
    cases hend
    obtain ⟨hreads, hsame⟩ := Kernel.procAlloc_agrees halloc
    have halloc' := hsame (hreads ▸ hagrees)
    refine .boot (show Kernel.grassEntry env' table = _ from ?_)
    unfold Kernel.grassEntry
    rw [halloc']
    rfl
  | @step k k' a h hallowed hcondition hstep ih =>
    obtain ⟨hreads, hsame⟩ := Action.step_agrees hstep
    exact .step (ih (hagrees.mono le_rfl hreads)) hallowed hcondition
      (hsame (hagrees.mono (Nat.zero_le _) le_rfl))

end OsSuite.Grass
