import OsSuite.ClockReadings
import OsSuite.WakeUp

/-! CPU time over a run: the time between two yields is charged once, to the process that was
current. Once the counter of `proc_alloc` has wrapped, slot 0 can be dispatched, and is not
charged. -/

namespace OsSuite.Grass

open Earth (Pid PageInfoTable)

variable {env : Env} {k k' : Kernel} {condition : Kernel → Action → Prop} {i : Slot}

namespace Kernel

def running (k : Kernel) : Slot × Pid := (k.currProcIdx, k.curr.pid)

end Kernel

/-- A yield: its time, the process that was current, the one dispatched next, and what the yield
adds to the run time of each slot. -/
structure Yield where
  time : UInt64
  current : Slot × Pid
  next : Slot × Pid
  added : Slot → UInt64

def Yield.between (env : Env) (k k' : Kernel) : Yield where
  time := k.mtimeGet env
  current := k.running
  next := k'.running
  added i := (k'.procSet i).totalRuntime - (k.procSet i).totalRuntime

/-- A run with its yields. -/
inductive History (env : Env) (condition : Kernel → Action → Prop) : Kernel → List Yield → Prop where
  | boot {table : PageInfoTable} {k : Kernel} (h : Kernel.grassEntry env table = .ok k) :
    History env condition k []
  | trap {k k' : Kernel} {ys : List Yield} {t : Trap} (h : History env condition k ys)
    (hcondition : condition k (.trap t)) (hentry : k.kernelEntry env t = .ok k') :
    History env condition k' (ys ++ [.between env k k'])
  | call {k k' : Kernel} {ys : List Yield} {a : Action} (h : History env condition k ys)
    (hcall : ∀ t, a ≠ .trap t) (hallowed : a.Allowed k) (hcondition : condition k a)
    (hstep : a.step env k = .ok k') : History env condition k' ys

variable {ys : List Yield} {x y : Yield}

theorem History.run (h : History env condition k ys) : Run env condition k := by
  induction h with
  | boot h => exact .boot h
  | @trap k k' ys t h hcondition hentry ih => exact Run.step (a := .trap t) ih trivial hcondition hentry
  | call h hcall hallowed hcondition hstep ih => exact .step ih hallowed hcondition hstep

theorem Run.history (h : Run env condition k) : ∃ ys, History env condition k ys := by
  induction h with
  | boot h => exact ⟨[], .boot h⟩
  | @step k k' a h hallowed hcondition hstep ih =>
    obtain ⟨ys, hys⟩ := ih
    cases a with
    | trap t => exact ⟨_, .trap hys hcondition hstep⟩
    | procAlloc => exact ⟨ys, .call hys (fun _ => Action.noConfusion) hallowed hcondition hstep⟩
    | procSetReady p => exact ⟨ys, .call hys (fun _ => Action.noConfusion) hallowed hcondition hstep⟩
    | procFree p => exact ⟨ys, .call hys (fun _ => Action.noConfusion) hallowed hcondition hstep⟩

def firstTime (ys : List Yield) : Nat := (ys.head?.elim 0 Yield.time).toNat

def lastTime (ys : List Yield) : Nat := (ys.getLast?.elim 0 Yield.time).toNat

def charged (ys : List Yield) : Nat := (ys.map fun y => ∑ i, (y.added i).toNat).sum

/-- Each interval between yields is charged once, to the process that was dispatched at its
beginning and is current at its end, and nothing else is charged. -/
structure Conserves (ys : List Yield) : Prop where
  sorted : ys.Pairwise fun x y => x.time ≤ y.time
  first : ∀ y ∈ ys.head?, ∀ i, y.added i = 0
  interval : ∀ n x y, ys[n]? = some x → ys[n + 1]? = some y → y.current = x.next ∧
    ∀ i, y.added i = if i = x.next.1 then y.time - x.time else 0
  total : charged ys = lastTime ys - firstTime ys

theorem lastTime_snoc (ys : List Yield) (y : Yield) : lastTime (ys ++ [y]) = y.time.toNat := by
  rw [lastTime, List.getLast?_append]
  rfl

theorem charged_snoc (ys : List Yield) (y : Yield) :
    charged (ys ++ [y]) = charged ys + ∑ i, (y.added i).toNat := by
  rw [charged, List.map_append, List.sum_append, List.map_singleton, List.sum_singleton, charged]

theorem Conserves.singleton (h : ∀ i, y.added i = 0) : Conserves [y] := by
  refine ⟨List.pairwise_singleton _ _, fun _ hy => ?_, fun n x z _ hz => ?_, ?_⟩
  · cases hy
    exact h
  · cases hz
  · have hsum : ∑ i, (y.added i).toNat = 0 := Finset.sum_eq_zero fun i _ => by rw [h i]; rfl
    have hcharged : charged [y] = 0 := by
      rw [charged, List.map_singleton, List.sum_singleton, hsum]
    have htimes : lastTime [y] = firstTime [y] := rfl
    rw [hcharged, htimes, Nat.sub_self]

theorem Conserves.snoc (h : Conserves (ys ++ [x])) (hle : ∀ z ∈ ys ++ [x], z.time ≤ y.time)
    (hcurrent : y.current = x.next)
    (hadded : ∀ i, y.added i = if i = x.next.1 then y.time - x.time else 0) :
    Conserves (ys ++ [x] ++ [y]) := by
  refine ⟨?_, ?_, fun n z w hz hw => ?_, ?_⟩
  · rw [List.pairwise_append]
    refine ⟨h.sorted, List.pairwise_singleton _ _, fun z hz w hw => ?_⟩
    rw [List.mem_singleton.mp hw]
    exact hle z hz
  · cases ys with
    | nil => exact h.first
    | cons => exact h.first
  · have hlen : (ys ++ [x]).length = ys.length + 1 := List.length_append
    rcases Nat.lt_trichotomy (n + 1) (ys.length + 1) with hn | hn | hn
    · rw [List.getElem?_append_left (by omega)] at hz hw
      exact h.interval n z w hz hw
    · rw [List.getElem?_append_left (by omega), List.getElem?_append_right (by omega),
        show n - ys.length = 0 by omega] at hz
      rw [List.getElem?_append_right (by omega), show n + 1 - (ys ++ [x]).length = 0 by omega] at hw
      cases hz
      cases hw
      exact ⟨hcurrent, hadded⟩
    · rw [List.getElem?_eq_none (by rw [List.length_append, hlen]; exact hn)] at hw
      cases hw
  · have hx : x.time ≤ y.time := hle x (List.mem_append_right _ (List.mem_singleton_self x))
    have hsum : ∑ i, (y.added i).toNat = y.time.toNat - x.time.toNat := by
      calc ∑ i, (y.added i).toNat
          = ∑ i, if i = x.next.1 then (y.time - x.time).toNat else 0 := by
            refine Finset.sum_congr rfl fun i _ => ?_
            rw [hadded i]
            split <;> rfl
        _ = (y.time - x.time).toNat := by
            rw [Finset.sum_ite_eq', if_pos (Finset.mem_univ _)]
        _ = y.time.toNat - x.time.toNat := UInt64.toNat_sub_of_le _ _ hx
    have hfirst : firstTime (ys ++ [x] ++ [y]) = firstTime (ys ++ [x]) := by
      cases ys <;> rfl
    have hfirstLe : firstTime (ys ++ [x]) ≤ x.time.toNat := by
      cases ys with
      | nil => exact le_rfl
      | cons z zs =>
        exact (List.pairwise_cons.mp h.sorted).1 x (List.mem_append_right _ (List.mem_singleton_self x))
    have hxy : x.time.toNat ≤ y.time.toNat := hx
    rw [charged_snoc, h.total, hsum, lastTime_snoc, lastTime_snoc, hfirst]
    omega

namespace Kernel

/-- Slot 0 is never used. -/
def IdleSlot (k : Kernel) : Prop := (k.procSet 0).pid = 0

theorem Sound.current_pos (h : k.Sound) (hidle : k.IdleSlot) : 0 < k.currProcIdx.val := by
  by_contra hzero
  have hcurr : k.currProcIdx = 0 := Fin.ext (Nat.eq_zero_of_not_pos hzero)
  have hunused := h.synced.pids.vacant 0 hidle
  rw [(h.running 0).mpr hcurr.symm] at hunused
  cases hunused

/-- What the direct calls leave alone: the pids that are in use, and the current process. -/
structure Calls (k k' : Kernel) : Prop where
  idle : (k'.procSet 0).pid = (k.procSet 0).pid
  running : k'.running = k.running
  last : k'.curr.timeLastScheduled = k.curr.timeLastScheduled
  mtimeReads : k.mtimeReads ≤ k'.mtimeReads

theorem Calls.refl (k : Kernel) : k.Calls k := ⟨rfl, rfl, rfl, le_rfl⟩

theorem Calls.trans {k₁ : Kernel} (h : k.Calls k₁) (h' : k₁.Calls k') : k.Calls k' :=
  ⟨h'.idle.trans h.idle, h'.running.trans h.running, h'.last.trans h.last,
    h.mtimeReads.trans h'.mtimeReads⟩

theorem SameTimes.calls (h : k.SameTimes k') : k.Calls k' := by
  obtain ⟨hpid, hlast⟩ := h.curr
  exact ⟨h.pid 0, Prod.ext h.currProcIdx hpid, hlast, h.mtimeReads.ge⟩

theorem terminate_calls (env : Env) (k : Kernel) (j : Slot) : k.Calls (k.terminate env j) := by
  have hslot := terminate_slot env k j
  refine ⟨?_, Prod.ext rfl ?_, ?_, Nat.le_succ _⟩
  · rcases hslot 0 with he | he <;> rw [he]
  · change ((k.terminate env j).procSet k.currProcIdx).pid = _
    rcases hslot k.currProcIdx with he | he <;> rw [he] <;> rfl
  · change ((k.terminate env j).procSet k.currProcIdx).timeLastScheduled = _
    rcases hslot k.currProcIdx with he | he <;> rw [he] <;> rfl

theorem mmuFree_sameTiming (k : Kernel) (p : Pid) : k.SameTiming (k.mmuFree p) :=
  ⟨fun _ => rfl, rfl, rfl⟩

theorem freeUser_calls (env : Env) (k : Kernel) (j : Slot) : k.Calls (k.freeUser env j) := by
  unfold freeUser
  split
  · have hfreed := (terminate_calls env k j).trans (mmuFree_sameTiming _ (k.procSet j).pid).sameTimes.calls
    generalize (k.terminate env j).mmuFree (k.procSet j).pid = k₁ at hfreed ⊢
    have hset : k₁.SameTiming (k₁.set j { k₁.procSet j with status := .unused }) := .set rfl
    exact hfreed.trans hset.sameTimes.calls
  · exact .refl k

theorem procFree_calls (env : Env) (k : Kernel) (p : Pid) : k.Calls (k.procFree env p) := by
  unfold procFree
  split
  · split
    · rename_i j hj
      exact ((terminate_calls env k j).trans (mmuFree_sameTiming _ _).sameTimes.calls).trans
        (sameTiming_procSetStatus _ _ _).sameTimes.calls
    · exact .refl k
  · generalize scannedSlots = q
    induction q generalizing k with
    | nil => exact .refl k
    | cons j q ih => exact (freeUser_calls env k j).trans (ih _)

theorem Sound.procAlloc_calls (h : k.Sound) {p : Pid} (halloc : k.procAlloc env = .ok (p, k')) :
    k.Calls k' := by
  obtain ⟨j, hj, -, rfl⟩ := procAlloc_ok halloc
  obtain ⟨hpos, hunused, -⟩ := unusedSlot_eq.mp hj
  have hzero : (0 : Slot) ≠ j := by
    rintro rfl
    exact absurd hpos (by decide)
  have hcurr : k.currProcIdx ≠ j := by
    rintro rfl
    exact h.live hunused
  refine ⟨congrArg Process.pid (Function.update_of_ne hzero _ _), Prod.ext rfl ?_, ?_, Nat.le_succ _⟩
  · exact congrArg Process.pid (Function.update_of_ne hcurr _ _)
  · exact congrArg Process.timeLastScheduled (Function.update_of_ne hcurr _ _)

end Kernel

theorem Action.step_calls {a : Action} (h : k.Sound) (hcall : ∀ t, a ≠ .trap t)
    (hstep : a.step env k = .ok k') : k.Calls k' := by
  cases a with
  | trap t => exact absurd rfl (hcall t)
  | procAlloc =>
    obtain ⟨pid, halloc⟩ := Action.procAlloc_ok hstep
    exact h.procAlloc_calls halloc
  | procSetReady p =>
    cases hstep
    exact (Kernel.sameTiming_procSetStatus _ _ _).sameTimes.calls
  | procFree p =>
    cases hstep
    exact Kernel.procFree_calls env k p

/-- The stamp of the current process is the time of the last yield. -/
structure Clocked (env : Env) (k : Kernel) (ys : List Yield) : Prop where
  idle : k.IdleSlot
  none : ys = [] → k.curr.timeLastScheduled = 0
  stamp : ∀ y ∈ ys.getLast?, y.next = k.running ∧ k.curr.timeLastScheduled = y.time
  read : ∀ y ∈ ys, ∃ n < k.mtimeReads, y.time = env.mtime n
  conserves : Conserves ys

theorem Clocked.calls (h : Clocked env k ys) (hc : k.Calls k') : Clocked env k' ys := by
  refine ⟨hc.idle.trans h.idle, fun he => hc.last.trans (h.none he), fun y hy => ?_, fun y hy => ?_,
    h.conserves⟩
  · rw [hc.running, hc.last]
    exact h.stamp y hy
  · obtain ⟨n, hn, htime⟩ := h.read y hy
    exact ⟨n, hn.trans_le hc.mtimeReads, htime⟩

theorem Clocked.boot {table : PageInfoTable} (h : Kernel.grassEntry env table = .ok k) :
    Clocked env k [] := by
  obtain ⟨hslots, hcurr, -, -⟩ := Kernel.grassEntry_slots h
  refine ⟨?_, fun _ => ?_, nofun, nofun, .nil, nofun, nofun, rfl⟩
  · rw [Kernel.IdleSlot, hslots, if_neg (by decide)]
    rfl
  · rw [Kernel.curr, hcurr, hslots, if_pos rfl]
    rfl

/-- The yield of an entry charges the time since the last one to the current process. -/
theorem Clocked.trap (hpos : ∀ n, 0 < env.mtime n) (hmono : ∀ m n, m ≤ n → env.mtime m ≤ env.mtime n) (hsound : k.Sound)
    (h : Clocked env k ys) {t : Trap} (hentry : k.kernelEntry env t = .ok k') :
    Clocked env k' (ys ++ [.between env k k']) := by
  obtain ⟨hpid, htotal, hlast, hreads⟩ := hsound.entry_times hentry
  have hcurrent := hsound.current_pos h.idle
  have hadded : ∀ i, (Yield.between env k k').added i = k.due (k.mtimeGet env) i := by
    intro i
    change (k'.procSet i).totalRuntime - (k.procSet i).totalRuntime = _
    rw [htotal i, UInt64.add_comm, UInt64.add_sub_cancel]
  refine ⟨(hpid 0).trans h.idle, fun he => absurd he (List.append_ne_nil_of_right_ne_nil _ (List.cons_ne_nil _ _)),
    fun y hy => ?_, fun y hy => ?_, ?_⟩
  · rw [List.getLast?_append] at hy
    cases hy
    exact ⟨rfl, hlast⟩
  · rcases List.mem_append.mp hy with hy | hy
    · obtain ⟨n, hn, htime⟩ := h.read y hy
      exact ⟨n, by omega, htime⟩
    · rw [List.mem_singleton.mp hy]
      exact ⟨k.mtimeReads, by omega, rfl⟩
  · rcases List.eq_nil_or_concat ys with rfl | ⟨zs, x, rfl⟩
    · refine Conserves.singleton fun i => ?_
      rw [hadded, Kernel.due, h.none rfl, if_neg fun hc => absurd hc.2.2 (by decide)]
    · rw [List.concat_eq_append] at h ⊢
      obtain ⟨hnext, hstamp⟩ := h.stamp x (by rw [List.getLast?_append]; rfl)
      refine Conserves.snoc h.conserves (fun z hz => ?_) hnext.symm fun i => ?_
      · obtain ⟨n, hn, htime⟩ := h.read z hz
        rw [htime]
        exact hmono n _ hn.le
      · obtain ⟨n, -, htime⟩ := h.read x (List.mem_append_right _ (List.mem_singleton_self x))
        have hx : 0 < k.curr.timeLastScheduled := by
          rw [hstamp, htime]
          exact hpos n
        rw [hadded, Kernel.due, hnext]
        by_cases hi : i = k.currProcIdx
        · rw [if_pos ⟨hi, hi ▸ hcurrent, hx⟩, hstamp]
          exact (if_pos hi).symm
        · rw [if_neg fun hc => hi hc.1]
          exact (if_neg hi).symm

/-- As long as the pid counter of `proc_alloc` does not wrap, the time from the first yield of a run
to its last is charged, each interval once and to the process that was current. -/
theorem cpu_time_conserved (env : Env) (hpos : ∀ n, 0 < env.mtime n) (hmono : ∀ m n, m ≤ n → env.mtime m ≤ env.mtime n)
    (k : Kernel) (ys : List Yield) (h : History env Unwrapped k ys) : Conserves ys := by
  suffices hclocked : Clocked env k ys from hclocked.conserves
  induction h with
  | boot h => exact .boot h
  | trap h hcondition hentry ih => exact ih.trap hpos hmono (h.run.sound fun _ _ h => h) hentry
  | call h hcall hallowed hcondition hstep ih =>
    exact ih.calls (Action.step_calls (h.run.sound fun _ _ h => h) hcall hstep)

/-- The clock steps from 1 to 2 at its reading number `n`. -/
def tick (n : Nat) : Env := ⟨fun m => if m < n then 1 else 2, fun _ => true⟩

theorem tick_pos (n m : Nat) : 0 < (tick n).mtime m := by
  dsimp only [tick]
  split <;> decide

theorem tick_mono (n l m : Nat) (h : l ≤ m) : (tick n).mtime l ≤ (tick n).mtime m := by
  dsimp only [tick]
  split <;> split
  · decide
  · decide
  · omega
  · decide

theorem cpu_time_conserved_sample : ∃ k ys, History (tick 6) Unwrapped k ys ∧ Conserves ys := by
  obtain ⟨k, hk⟩ : ∃ k, replay Unwrapped (tick 6) exchange = some k :=
    Option.isSome_iff_exists.mp (by decide +kernel)
  obtain ⟨ys, hys⟩ := (Run.replay hk).history
  exact ⟨k, ys, hys, cpu_time_conserved (tick 6) (tick_pos 6) (tick_mono 6) k ys hys⟩

/-- Pid 0 is given out and made ready, and slot 0 with it. After ten yields it is its turn. -/
def readyZero : List Action :=
  [.procAlloc, .procFree (-2), .procAlloc, .procSetReady 0] ++ List.replicate 10 timer

def twoYields (k : Kernel) : Option (Kernel × Kernel) :=
  (k.kernelEntry still timerTrap).toOption.bind fun k₁ =>
    (k₁.kernelEntry (tick 0) timerTrap).toOption.map fun k₂ => (k₁, k₂)

theorem twoYields_eq {k₁ k₂ : Kernel} (h : twoYields k = some (k₁, k₂)) :
    k.kernelEntry still timerTrap = .ok k₁ ∧ k₁.kernelEntry (tick 0) timerTrap = .ok k₂ := by
  obtain ⟨_, hfirst, hrest⟩ := Option.bind_eq_some_iff.mp h
  obtain ⟨_, hsecond, hpair⟩ := Option.map_eq_some_iff.mp hrest
  cases hpair
  exact ⟨ok_of_toOption hfirst, ok_of_toOption hsecond⟩

/-- After the counter has wrapped, slot 0 is dispatched, and its run time stays. -/
theorem slot_zero_dispatched : ∃ k k₁ k₂, Run still (fun _ _ => True) k ∧
    k.kernelEntry still timerTrap = .ok k₁ ∧ k₁.kernelEntry (tick 0) timerTrap = .ok k₂ ∧
    k₁.currProcIdx = 0 ∧ (k₂.procSet 0).totalRuntime = (k₁.procSet 0).totalRuntime := by
  have hrun : ((readyZero.foldlM (follow (fun _ _ => True) still)
      (reached 4294967294 ((received.procSet 6).claim (-2) 1) reached_wrap.choose)).any fun k =>
      (twoYields k).any fun (k₁, k₂) => decide (k₁.currProcIdx = 0) &&
        decide ((k₂.procSet 0).totalRuntime = (k₁.procSet 0).totalRuntime)) = true := by
    decide +kernel
  obtain ⟨k, hk, hentries⟩ := (Option.any_eq_true _ _).mp hrun
  obtain ⟨⟨k₁, k₂⟩, hyields, hkept⟩ := (Option.any_eq_true _ _).mp hentries
  obtain ⟨hcurr, htotal⟩ := Bool.and_eq_true_iff.mp hkept
  obtain ⟨hfirst, hsecond⟩ := twoYields_eq hyields
  exact ⟨k, k₁, k₂, Run.foldlM reached_wrap.choose_spec hk, hfirst, hsecond, of_decide_eq_true hcurr,
    of_decide_eq_true htotal⟩

/-- The time in which slot 0 is current is not charged. -/
theorem slot_zero_not_charged : ∃ env k ys, (∀ n, 0 < env.mtime n) ∧
    (∀ m n, m ≤ n → env.mtime m ≤ env.mtime n) ∧ History env (fun _ _ => True) k ys ∧ ¬Conserves ys := by
  obtain ⟨k, k₁, k₂, hrun, hfirst, hsecond, hcurr, htotal⟩ := slot_zero_dispatched
  let env := tick k₁.mtimeReads
  have hbefore : ∀ m, still.Agrees m k₁.mtimeReads env := fun m => ⟨fun l _ hl => if_pos hl, rfl⟩
  have hafter : (tick 0).Agrees k₁.mtimeReads (k₁.mtimeReads + 2) env :=
    ⟨fun l hl _ => if_neg (Nat.not_lt.mpr hl), rfl⟩
  obtain ⟨hreads, hsame⟩ := Kernel.kernelEntry_agrees hfirst
  have hlt : k.mtimeReads < k₁.mtimeReads := by omega
  obtain ⟨ys, hys⟩ := (hrun.agrees ((hbefore 0).mono le_rfl hlt.le)).history
  have hx := History.trap hys trivial (hsame (hreads ▸ hbefore _))
  have hy := History.trap hx trivial ((Kernel.kernelEntry_agrees hsecond).2 hafter)
  refine ⟨env, k₂, _, tick_pos _, tick_mono _, hy, fun hconserves => ?_⟩
  obtain ⟨-, hadded⟩ := hconserves.interval ys.length (.between env k k₁) (.between env k₁ k₂)
    (by simp) (by simp)
  have hzero := hadded 0
  have htimes : (Yield.between env k₁ k₂).time - (Yield.between env k k₁).time = 1 := by
    have hlater : k₁.mtimeGet env = 2 := if_neg (lt_irrefl _)
    have hearlier : k.mtimeGet env = 1 := if_pos hlt
    change k₁.mtimeGet env - k.mtimeGet env = 1
    rw [hlater, hearlier]
    rfl
  rw [htimes, if_pos (show 0 = (Yield.between env k k₁).next.1 from hcurr.symm)] at hzero
  change (k₂.procSet 0).totalRuntime - (k₁.procSet 0).totalRuntime = 1 at hzero
  rw [htotal, UInt64.sub_self] at hzero
  cases hzero

end OsSuite.Grass
