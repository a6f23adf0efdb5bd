import OsSuite.YieldTimes

/-! The lifecycle statistics of `proc_free`: allocation, first dispatch, last dispatch and
termination come in this order, and a process is not charged for more time than has passed since
its first dispatch. -/

namespace OsSuite.Grass

open Earth (Pid PageInfoTable)

variable {env : Env} {k k' : Kernel} {i j : Slot} {y t : UInt64}

/-- What the statistics of a process are made of, but for its termination. -/
structure Dates where
  created : UInt64
  first : UInt64
  last : UInt64
  cpu : UInt64

namespace Dates

def charge (x : Dates) (t : UInt64) : Dates := { x with cpu := x.cpu + (t - x.last) }

def stamp (x : Dates) (t : UInt64) : Dates :=
  { x with last := t, first := if x.first = 0 then t else x.first }

/-- Allocation, first and last dispatch and the latest yield come in this order, and the CPU time
is within the time from the first dispatch on. -/
structure Ordered (x : Dates) (y : UInt64) : Prop where
  created : x.created ≤ x.first
  positive : 0 < x.first
  first : x.first ≤ x.last
  last : x.last ≤ y
  cpu : x.cpu.toNat ≤ y.toNat - x.first.toNat

theorem Ordered.mono {x : Dates} (h : x.Ordered y) (hle : y ≤ t) : x.Ordered t := by
  have hcpu := h.cpu
  have hnat : y.toNat ≤ t.toNat := hle
  exact ⟨h.created, h.positive, h.first, UInt64.le_trans h.last hle, by omega⟩

theorem Ordered.charge {x : Dates} (h : x.Ordered y) (hlast : x.last = y) (hle : y ≤ t) :
    (x.charge t).Ordered t := by
  have hnat : y.toNat ≤ t.toNat := hle
  have hfirst : x.first.toNat ≤ y.toNat := UInt64.le_trans h.first h.last
  have hcpu := h.cpu
  have hsub : (t - x.last).toNat = t.toNat - y.toNat := by
    rw [hlast, UInt64.toNat_sub_of_le _ _ hle]
  have hadd : (x.cpu + (t - x.last)).toNat = x.cpu.toNat + (t.toNat - y.toNat) := by
    have ht := t.toNat_lt
    rw [UInt64.toNat_add, hsub]
    exact Nat.mod_eq_of_lt (by omega)
  refine ⟨h.created, h.positive, h.first, UInt64.le_trans h.last hle, ?_⟩
  change (x.cpu + (t - x.last)).toNat ≤ t.toNat - x.first.toNat
  rw [hadd]
  omega

theorem Ordered.stamp {x : Dates} (h : x.Ordered t) : (x.stamp t).Ordered t := by
  have hne : x.first ≠ 0 := fun h0 => absurd h.positive (by rw [h0]; decide)
  have hfirst : (x.stamp t).first = x.first := if_neg hne
  refine ⟨by rw [hfirst]; exact h.created, by rw [hfirst]; exact h.positive, ?_, UInt64.le_refl t, ?_⟩
  · rw [hfirst]
    exact UInt64.le_trans h.first h.last
  · rw [hfirst]
    exact h.cpu

theorem stamp_first {x : Dates} (hfirst : x.first = 0) (hcpu : x.cpu = 0) (hcreated : x.created ≤ t)
    (hpos : 0 < t) : (x.stamp t).Ordered t := by
  have hself : (x.stamp t).first = t := if_pos hfirst
  refine ⟨by rw [hself]; exact hcreated, by rw [hself]; exact hpos, by rw [hself]; exact UInt64.le_refl t,
    UInt64.le_refl t, ?_⟩
  change x.cpu.toNat ≤ _
  rw [hcpu]
  exact Nat.zero_le _

end Dates

def Process.dates (p : Process) : Dates :=
  ⟨p.timeCreated, p.timeFirstScheduled, p.timeLastScheduled, p.cpuRuntime⟩

namespace Kernel

theorem SameTiming.dates (h : k.SameTiming k') (i : Slot) : (k'.procSet i).dates = (k.procSet i).dates :=
  h.field (fun _ => rfl) i

theorem mlfqUpdateLevel_dates (p : Process) (t : UInt64) :
    (mlfqUpdateLevel p (t - p.timeLastScheduled)).dates = p.dates.charge t := by
  unfold mlfqUpdateLevel
  dsimp only
  split <;> rfl

theorem charge_dates (k : Kernel) (t : UInt64) :
    (∀ i, i ≠ k.currProcIdx → ((k.charge t).procSet i).dates = (k.procSet i).dates) ∧
      (((k.charge t).procSet k.currProcIdx).dates = k.curr.dates ∨
        0 < k.curr.dates.last ∧ ((k.charge t).procSet k.currProcIdx).dates = k.curr.dates.charge t) := by
  unfold charge
  split
  · rename_i hcond
    refine ⟨fun i hi => by rw [set_of_ne k _ hi], Or.inr ⟨hcond.2.2.2, ?_⟩⟩
    rw [set_self]
    exact mlfqUpdateLevel_dates _ _
  · exact ⟨fun _ _ => rfl, Or.inl rfl⟩

theorem dispatch_dates (k : Kernel) (t : UInt64) (i : Slot) :
    (k.dispatch t i).currProcIdx = i ∧
    (∀ j, j ≠ i → ((k.dispatch t i).procSet j).dates = (k.procSet j).dates) ∧
      ((k.dispatch t i).procSet i).dates = (k.procSet i).dates.stamp t := by
  have hstamped : ∀ j, ((k.dispatch t i).procSet j).dates =
      ((k.set i ((k.procSet i).stamp t)).procSet j).dates := by
    intro j
    unfold dispatch
    dsimp only
    refine ((sameTiming_procSetStatus _ _ _).dates j).trans ?_
    change (Function.update (Function.update k.procSet i _) i _ j).dates = (Function.update k.procSet i _ j).dates
    by_cases hj : j = i
    · rw [hj, Function.update_self, Function.update_self]
      unfold Process.enter
      split <;> rfl
    · rw [Function.update_of_ne hj]
  refine ⟨rfl, fun j hj => ?_, ?_⟩
  · rw [hstamped, set_of_ne k _ hj]
  · rw [hstamped, set_self]
    rfl

/-- One entry: the current process may be charged for the time since its dispatch, and the next one
is stamped. -/
theorem entry_dates {t : Trap} (hentry : k.kernelEntry env t = .ok k') :
    k'.mtimeReads = k.mtimeReads + 2 ∧ ∃ x : Slot → Dates,
      (∀ i, i ≠ k.currProcIdx → x i = (k.procSet i).dates) ∧
      (x k.currProcIdx = k.curr.dates ∨
        0 < k.curr.dates.last ∧ x k.currProcIdx = k.curr.dates.charge (k.mtimeGet env)) ∧
      (∀ i, i ≠ k'.currProcIdx → (k'.procSet i).dates = x i) ∧
      (k'.procSet k'.currProcIdx).dates = (x k'.currProcIdx).stamp (k.mtimeGet env) := by
  obtain ⟨k₁, huntil, hentry⟩ := kernelEntry_ok hentry
  obtain ⟨s, hscan, -, rfl⟩ := procYield_ok hentry
  have hsame := (untilYield_sameTiming huntil).trans (pause_sameTiming k₁)
  have htime : k₁.pause.mtimeGet env = k.mtimeGet env := by rw [mtimeGet, mtimeGet, hsame.mtimeReads]
  have htime₁ : k₁.mtimeGet env = k.mtimeGet env := by
    rw [mtimeGet, mtimeGet, (untilYield_sameTiming huntil).mtimeReads]
  obtain ⟨hother, hcurr⟩ := charge_dates k₁.pause.mtimeRead (k.mtimeGet env)
  have hreset := mlfqResetLevel_sameTiming env (k₁.pause.mtimeRead.charge (k.mtimeGet env))
  have haccount : k₁.account env = (k₁.pause.mtimeRead.charge (k.mtimeGet env)).mlfqResetLevel env := by
    rw [account_eq, htime]
  rw [← haccount] at hreset
  unfold Kernel.scan at hscan
  have hvisits := Scan.visits_sameTiming hscan
  obtain ⟨hidx, hkept, hstamp⟩ := dispatch_dates s.kernel (k₁.mtimeGet env) s.nextIdx
  have hcharged : ∀ i, (s.kernel.procSet i).dates =
      ((k₁.pause.mtimeRead.charge (k.mtimeGet env)).procSet i).dates :=
    fun i => (hvisits.dates i).trans (hreset.dates i)
  have hslot : k₁.pause.mtimeRead.currProcIdx = k.currProcIdx := hsame.currProcIdx
  have hcurrent : k₁.pause.mtimeRead.curr.dates = k.curr.dates := by
    unfold Kernel.curr
    rw [hslot]
    exact hsame.dates _
  rw [hslot, hcurrent] at hcurr
  refine ⟨?_, fun i => ((k₁.pause.mtimeRead.charge (k.mtimeGet env)).procSet i).dates, fun i hi => ?_,
    hcurr, fun i hi => ?_, ?_⟩
  · change s.kernel.mtimeReads = _
    rw [hvisits.mtimeReads, hreset.mtimeReads]
    change (k₁.pause.mtimeRead.charge (k.mtimeGet env)).mtimeReads + 1 = _
    have hreads : (k₁.pause.mtimeRead.charge (k.mtimeGet env)).mtimeReads = k₁.pause.mtimeReads + 1 := by
      unfold charge
      split <;> rfl
    rw [hreads, hsame.mtimeReads]
  · exact (hother i (by rw [hslot]; exact hi)).trans (hsame.dates i)
  · rw [hidx] at hi
    exact (hkept i hi).trans (hcharged i)
  · rw [hidx, hstamp, htime₁, hcharged]

end Kernel

/-- The runs of the kernel, with the time of the latest yield and the slots whose processes have
been dispatched since `proc_alloc` filled them. -/
inductive Dispatches (env : Env) : Kernel → UInt64 → (Slot → Prop) → Prop where
  | boot {table : PageInfoTable} {k : Kernel} (h : Kernel.grassEntry env table = .ok k) :
    Dispatches env k 0 fun _ => False
  | trap {k k' : Kernel} {y : UInt64} {d : Slot → Prop} {t : Trap} (h : Dispatches env k y d)
    (hentry : k.kernelEntry env t = .ok k') :
    Dispatches env k' (k.mtimeGet env) fun i => d i ∨ i = k'.currProcIdx
  | alloc {k k' : Kernel} {y : UInt64} {d : Slot → Prop} {pid : Pid} (h : Dispatches env k y d)
    (halloc : k.procAlloc env = .ok (pid, k')) :
    Dispatches env k' y fun i => d i ∧ k.unusedSlot ≠ some i
  | setReady {k : Kernel} {y : UInt64} {d : Slot → Prop} (h : Dispatches env k y d) (pid : Pid) :
    Dispatches env (k.procSetReady pid) y d
  | free {k : Kernel} {y : UInt64} {d : Slot → Prop} (h : Dispatches env k y d) (pid : Pid) :
    Dispatches env (k.procFree env pid) y d

theorem Run.dispatches {condition : Kernel → Action → Prop} (h : Run env condition k) :
    ∃ y d, Dispatches env k y d := by
  induction h with
  | boot h => exact ⟨_, _, .boot h⟩
  | @step k k' a h hallowed hcondition hstep ih =>
    obtain ⟨y, d, hd⟩ := ih
    cases a with
    | trap t => exact ⟨_, _, hd.trap hstep⟩
    | procAlloc =>
      obtain ⟨pid, halloc⟩ := Action.procAlloc_ok hstep
      exact ⟨_, _, hd.alloc halloc⟩
    | procSetReady p =>
      cases hstep
      exact ⟨_, _, hd.setReady p⟩
    | procFree p =>
      cases hstep
      exact ⟨_, _, hd.free p⟩

/-- The dates of all slots, at any time after the latest yield. -/
structure Timed (env : Env) (k : Kernel) (y : UInt64) (d : Slot → Prop) : Prop where
  yield : ∀ n, k.mtimeReads ≤ n → y ≤ env.mtime n
  created : ∀ i n, k.mtimeReads ≤ n → (k.procSet i).timeCreated ≤ env.mtime n
  waits : ∀ i, ¬d i → (k.procSet i).dates.first = 0 ∧ (k.procSet i).dates.last = 0 ∧ (k.procSet i).dates.cpu = 0
  ran : ∀ i, d i → (k.procSet i).dates.Ordered y
  current : d k.currProcIdx → k.curr.dates.last = y

namespace Timed

variable {d : Slot → Prop}

theorem boot {table : PageInfoTable} (h : Kernel.grassEntry env table = .ok k)
    (hmono : ∀ m n, m ≤ n → env.mtime m ≤ env.mtime n) : Timed env k 0 fun _ => False := by
  obtain ⟨hslots, -, -, -⟩ := Kernel.grassEntry_slots h
  refine ⟨fun n _ => UInt64.zero_le, fun i n _ => ?_, fun i _ => ?_, nofun, nofun⟩
  · rw [hslots]
    split
    · exact hmono 0 n (Nat.zero_le n)
    · exact UInt64.zero_le
  · rw [hslots]
    split <;> exact ⟨rfl, rfl, rfl⟩

theorem trap (h : Timed env k y d) (hpos : ∀ n, 0 < env.mtime n)
    (hmono : ∀ m n, m ≤ n → env.mtime m ≤ env.mtime n) {t : Trap} (hentry : k.kernelEntry env t = .ok k') :
    Timed env k' (k.mtimeGet env) fun i => d i ∨ i = k'.currProcIdx := by
  obtain ⟨hreads, x, hother, hcurr, hkept, hstamp⟩ := Kernel.entry_dates hentry
  have hnow : y ≤ k.mtimeGet env := h.yield _ le_rfl
  -- The charge leaves the others as they are, and those that have not been dispatched.
  have hcreated : ∀ i, (x i).created = (k.procSet i).timeCreated := by
    intro i
    by_cases hi : i = k.currProcIdx
    · rw [hi]
      rcases hcurr with hsame | ⟨-, hcharge⟩
      · rw [hsame]
        rfl
      · rw [hcharge]
        rfl
    · rw [hother i hi]
      rfl
  have hran : ∀ i, d i → (x i).Ordered (k.mtimeGet env) := by
    intro i hi
    by_cases hic : i = k.currProcIdx
    · subst hic
      rcases hcurr with hsame | ⟨-, hcharge⟩
      · rw [hsame]
        exact (h.ran _ hi).mono hnow
      · rw [hcharge]
        exact (h.ran _ hi).charge (h.current hi) hnow
    · rw [hother i hic]
      exact (h.ran i hi).mono hnow
  have hwaits : ∀ i, ¬d i → (x i).first = 0 ∧ (x i).last = 0 ∧ (x i).cpu = 0 := by
    intro i hi
    by_cases hic : i = k.currProcIdx
    · subst hic
      rcases hcurr with hsame | ⟨hlast, -⟩
      · rw [hsame]
        exact h.waits _ hi
      · have hzero : k.curr.dates.last = 0 := (h.waits _ hi).2.1
        rw [hzero] at hlast
        exact absurd hlast (by decide)
    · rw [hother i hic]
      exact h.waits i hi
  refine ⟨fun n hn => hmono _ _ (by omega), fun i n hn => ?_, fun i hi => ?_, fun i hi => ?_, fun _ => ?_⟩
  · have hsame : (k'.procSet i).timeCreated = (k.procSet i).timeCreated := by
      rw [← hcreated]
      by_cases hic : i = k'.currProcIdx
      · subst hic
        exact congrArg Dates.created hstamp
      · exact congrArg Dates.created (hkept i hic)
    rw [hsame]
    exact h.created i n (by omega)
  · obtain ⟨hd, hic⟩ := not_or.mp hi
    rw [hkept i hic]
    exact hwaits i hd
  · by_cases hic : i = k'.currProcIdx
    · subst hic
      rw [hstamp]
      by_cases hd : d k'.currProcIdx
      · exact (hran _ hd).stamp
      · obtain ⟨hfirst, -, hcpu⟩ := hwaits _ hd
        refine Dates.stamp_first hfirst hcpu ?_ (hpos _)
        rw [hcreated]
        exact h.created _ _ le_rfl
    · rw [hkept i hic]
      exact hran i (hi.resolve_right hic)
  · change (k'.procSet k'.currProcIdx).dates.last = _
    rw [hstamp]
    rfl

theorem keep (h : Timed env k y d) (hdates : ∀ i, (k'.procSet i).dates = (k.procSet i).dates)
    (hreads : k.mtimeReads ≤ k'.mtimeReads) (hcurr : k'.currProcIdx = k.currProcIdx) : Timed env k' y d := by
  refine ⟨fun n hn => h.yield n (by omega), fun i n hn => ?_, fun i hi => ?_, fun i hi => ?_, fun hd => ?_⟩
  · rw [show (k'.procSet i).timeCreated = _ from congrArg Dates.created (hdates i)]
    exact h.created i n (by omega)
  · rw [hdates]
    exact h.waits i hi
  · rw [hdates]
    exact h.ran i hi
  · unfold Kernel.curr
    rw [hdates, hcurr]
    rw [hcurr] at hd
    exact h.current hd

theorem alloc (h : Timed env k y d) (hmono : ∀ m n, m ≤ n → env.mtime m ≤ env.mtime n) {pid : Pid}
    (halloc : k.procAlloc env = .ok (pid, k')) : Timed env k' y fun i => d i ∧ k.unusedSlot ≠ some i := by
  obtain ⟨j, hj, -, rfl⟩ := Kernel.procAlloc_ok halloc
  let k₁ : Kernel := { k.mtimeRead.set j ((k.procSet j).claim pid (k.mtimeGet env)) with
    lastPid := k.lastPid + 1 }
  change Timed env k₁ y _
  have hself : k₁.procSet j = (k.procSet j).claim pid (k.mtimeGet env) := Function.update_self _ _ _
  have hother : ∀ i, i ≠ j → k₁.procSet i = k.procSet i := fun i hi => Function.update_of_ne hi _ _
  have hreads : k₁.mtimeReads = k.mtimeReads + 1 := rfl
  have hslot : ∀ {i}, k.unusedSlot ≠ some i → i ≠ j := by
    rintro i hi rfl
    exact hi hj
  refine ⟨fun n hn => h.yield n (by omega), fun i n hn => ?_, fun i hi => ?_, fun i hi => ?_, fun hd => ?_⟩
  · by_cases hij : i = j
    · rw [hij, hself]
      exact hmono _ _ (by omega)
    · rw [hother i hij]
      exact h.created i n (by omega)
  · by_cases hij : i = j
    · rw [hij, hself]
      exact ⟨rfl, rfl, rfl⟩
    · rw [hother i hij]
      refine h.waits i fun hd => hi ⟨hd, fun he => hij ?_⟩
      rw [hj] at he
      exact (Option.some.inj he).symm
  · rw [hother i (hslot hi.2)]
    exact h.ran i hi.1
  · have hcurr : k₁.curr = k.curr := hother _ (hslot hd.2)
    rw [hcurr]
    exact h.current hd.1

end Timed

namespace Kernel

theorem terminate_dates (env : Env) (k : Kernel) (i j : Slot) :
    ((k.terminate env i).procSet j).dates = (k.procSet j).dates := by
  rcases terminate_slot env k i j with he | he
  · rw [he]
  · rw [he]
    rfl

/-- Freeing keeps the dates, and prints statistics of live user processes. -/
structure Frees (env : Env) (k k' : Kernel) : Prop where
  dates : ∀ i, (k'.procSet i).dates = (k.procSet i).dates
  mtimeReads : k.mtimeReads ≤ k'.mtimeReads
  currProcIdx : k'.currProcIdx = k.currProcIdx
  printed : ∀ s, .terminated s ∈ k'.log → .terminated s ∈ k.log ∨ ∃ i n, (k.procSet i).LiveUser ∧
    k.mtimeReads ≤ n ∧ s = { k.procSet i with timeTerminated := env.mtime n }.lifecycle

theorem Frees.refl (env : Env) (k : Kernel) : k.Frees env k :=
  ⟨fun _ => rfl, le_rfl, rfl, fun _ h => Or.inl h⟩

/-- The second part finds the live user processes as the first part found them. -/
theorem Frees.trans {k'' : Kernel} (h : k.Frees env k') (h' : k'.Frees env k'')
    (hlive : ∀ i, (k'.procSet i).LiveUser → k'.procSet i = k.procSet i) : k.Frees env k'' := by
  refine ⟨fun i => (h'.dates i).trans (h.dates i), h.mtimeReads.trans h'.mtimeReads,
    h'.currProcIdx.trans h.currProcIdx, fun s hs => ?_⟩
  rcases h'.printed s hs with hs | ⟨i, n, hi, hn, rfl⟩
  · exact h.printed s hs
  · have hsame := hlive i hi
    rw [hsame] at hi ⊢
    exact Or.inr ⟨i, n, hi, h.mtimeReads.trans hn, rfl⟩

/-- What is freed has its statistics printed, whatever its slot is set to. -/
theorem terminate_frees (env : Env) (k : Kernel) {p : Pid} (hi : (k.procSet i).LiveUser)
    (hdates : ∀ j, (k'.procSet j).dates = ((k.terminate env i).procSet j).dates)
    (hreads : k'.mtimeReads = k.mtimeReads + 1) (hcurr : k'.currProcIdx = k.currProcIdx)
    (hlog : k'.log = (k.terminate env i).log ++ [.mmuFree p]) : k.Frees env k' := by
  refine ⟨fun j => (hdates j).trans (terminate_dates env k i j), by omega, hcurr, fun s hs => ?_⟩
  rw [hlog] at hs
  have hprinted : (k.terminate env i).log =
      k.log ++ [.terminated { k.procSet i with timeTerminated := k.mtimeGet env }.lifecycle] := rfl
  rw [hprinted, List.append_assoc] at hs
  rcases List.mem_append.mp hs with hs | hs
  · exact Or.inl hs
  · rcases List.mem_cons.mp hs with hs | hs
    · cases hs
      exact Or.inr ⟨i, k.mtimeReads, hi, le_rfl, rfl⟩
    · rcases List.mem_singleton.mp hs with ⟨⟩

theorem freeUser_frees (env : Env) (k : Kernel) (i : Slot) : k.Frees env (k.freeUser env i) ∧
    ∀ j, ((k.freeUser env i).procSet j).LiveUser → (k.freeUser env i).procSet j = k.procSet j := by
  by_cases hi : (k.procSet i).LiveUser
  · have heq : k.freeUser env i = ((k.terminate env i).mmuFree (k.procSet i).pid).set i
        { ((k.terminate env i).mmuFree (k.procSet i).pid).procSet i with status := .unused } := if_pos hi
    rw [heq]
    refine ⟨terminate_frees env k hi (fun j => ?_) rfl rfl rfl, fun j hj => ?_⟩
    · by_cases hji : j = i
      · rw [hji, set_self]
        rfl
      · rw [set_of_ne _ _ hji]
        rfl
    · by_cases hji : j = i
      · rw [hji, set_self] at hj
        exact absurd rfl hj.2
      · rw [set_of_ne _ _ hji]
        exact set_of_ne k _ hji
  · have heq : k.freeUser env i = k := if_neg hi
    rw [heq]
    exact ⟨.refl env k, fun _ _ => rfl⟩

theorem freeUsers_frees (env : Env) (q : List Slot) (k : Kernel) :
    k.Frees env (q.foldl (freeUser env) k) := by
  induction q generalizing k with
  | nil => exact .refl env k
  | cons i q ih =>
    obtain ⟨hfrees, hlive⟩ := freeUser_frees env k i
    exact hfrees.trans (ih _) hlive

theorem procFree_frees (env : Env) (k : Kernel) (p : Pid) : k.Frees env (k.procFree env p) := by
  unfold procFree
  split
  · cases hfirst : k.firstUser with
    | none => exact .refl env k
    | some i =>
      have hi : (k.procSet i).LiveUser := of_decide_eq_true ((find?_sorted scannedSlots_sorted).mp hfirst).2.1
      have hstatus := sameTiming_procSetStatus ((k.terminate env i).mmuFree p) p .unused
      exact terminate_frees env k hi (fun j => hstatus.dates j) hstatus.mtimeReads hstatus.currProcIdx rfl
  · exact freeUsers_frees env _ k

end Kernel

theorem Dispatches.timed {d : Slot → Prop} (hpos : ∀ n, 0 < env.mtime n)
    (hmono : ∀ m n, m ≤ n → env.mtime m ≤ env.mtime n) (h : Dispatches env k y d) : Timed env k y d := by
  induction h with
  | boot h => exact .boot h hmono
  | trap h hentry ih => exact ih.trap hpos hmono hentry
  | alloc h halloc ih => exact ih.alloc hmono halloc
  | @setReady k y d h pid ih =>
    have hsame := Kernel.sameTiming_procSetStatus k pid .ready
    exact ih.keep (fun i => hsame.dates i) hsame.mtimeReads.ge hsame.currProcIdx
  | @free k y d h pid ih =>
    have hfrees := Kernel.procFree_frees env k pid
    exact ih.keep hfrees.dates hfrees.mtimeReads hfrees.currProcIdx

namespace Process

/-- `turnaround_time` and `response_time` in `proc_free`. -/
def turnaroundTime (p : Process) : UInt64 :=
  if p.timeTerminated > p.timeCreated then p.timeTerminated - p.timeCreated else 0

def responseTime (p : Process) : UInt64 :=
  if p.timeFirstScheduled > 0 then p.timeFirstScheduled - p.timeCreated else 0

theorem lifecycle_eq (p : Process) : p.lifecycle =
    ⟨p.pid, p.turnaroundTime.toUInt32.toInt32, p.responseTime.toUInt32.toInt32,
      p.cpuRuntime.toUInt32.toInt32, p.noInterrupts⟩ := rfl

/-- No subtraction of `proc_free` wraps, and the process has waited and run within its life. -/
structure Consistent (p : Process) : Prop where
  turnaround : p.timeCreated ≤ p.timeTerminated
  response : 0 < p.timeFirstScheduled → p.timeCreated ≤ p.timeFirstScheduled
  within : p.responseTime.toNat + p.cpuRuntime.toNat ≤ p.turnaroundTime.toNat

/-- A process is in order: before its first dispatch at `y`, the time of the latest yield, and now. -/
structure InOrder (p : Process) (y now : UInt64) (dispatched : Prop) : Prop where
  before : ¬dispatched → p.timeFirstScheduled = 0 ∧ p.timeLastScheduled = 0 ∧ p.cpuRuntime = 0
  created : dispatched → p.timeCreated ≤ p.timeFirstScheduled
  first : dispatched → p.timeFirstScheduled ≤ p.timeLastScheduled
  last : dispatched → p.timeLastScheduled ≤ now
  cpu : dispatched → p.timeFirstScheduled ≤ y ∧ p.cpuRuntime.toNat ≤ y.toNat - p.timeFirstScheduled.toNat

theorem inOrder {p : Process} {now : UInt64} {dispatched : Prop} (hnow : y ≤ now)
    (hwaits : ¬dispatched → p.dates.first = 0 ∧ p.dates.last = 0 ∧ p.dates.cpu = 0)
    (hran : dispatched → p.dates.Ordered y) : p.InOrder y now dispatched where
  before := hwaits
  created hd := (hran hd).created
  first hd := (hran hd).first
  last hd := UInt64.le_trans (hran hd).last hnow
  cpu hd := ⟨UInt64.le_trans (hran hd).first (hran hd).last, (hran hd).cpu⟩

/-- What is printed of a process in order, when it is terminated now. -/
theorem InOrder.consistent {p : Process} {now : UInt64} {dispatched : Prop} (h : p.InOrder y now dispatched)
    (hnow : y ≤ now) (hcreated : p.timeCreated ≤ now) (hpos : dispatched → 0 < p.timeFirstScheduled) :
    Consistent { p with timeTerminated := now } := by
  have hturnaround : (turnaroundTime { p with timeTerminated := now }).toNat =
      now.toNat - p.timeCreated.toNat := by
    unfold turnaroundTime
    split
    · exact UInt64.toNat_sub_of_le _ _ hcreated
    · rename_i hnot
      have hle : now.toNat ≤ p.timeCreated.toNat := Nat.not_lt.mp hnot
      rw [UInt64.toNat_zero, Nat.sub_eq_zero_of_le hle]
  by_cases hd : dispatched
  · obtain ⟨hfirst, hcpu⟩ := h.cpu hd
    have hresponse : (responseTime { p with timeTerminated := now }).toNat =
        p.timeFirstScheduled.toNat - p.timeCreated.toNat := by
      unfold responseTime
      rw [if_pos (show p.timeFirstScheduled > 0 from hpos hd)]
      exact UInt64.toNat_sub_of_le _ _ (h.created hd)
    have h₁ : p.timeCreated.toNat ≤ p.timeFirstScheduled.toNat := h.created hd
    have h₂ : p.timeFirstScheduled.toNat ≤ y.toNat := hfirst
    have h₃ : y.toNat ≤ now.toNat := hnow
    refine ⟨hcreated, fun _ => h.created hd, ?_⟩
    rw [hturnaround, hresponse]
    change _ + p.cpuRuntime.toNat ≤ _
    omega
  · obtain ⟨hfirst, -, hcpu⟩ := h.before hd
    have hresponse : responseTime { p with timeTerminated := now } = 0 := by
      unfold responseTime
      rw [if_neg]
      change ¬p.timeFirstScheduled > 0
      rw [hfirst]
      decide
    refine ⟨hcreated, fun hpos => ?_, ?_⟩
    · have hpos : 0 < p.timeFirstScheduled := hpos
      rw [hfirst] at hpos
      exact absurd hpos (by decide)
    · rw [hresponse]
      change _ + p.cpuRuntime.toNat ≤ _
      rw [hcpu]
      exact Nat.zero_le _

end Process

/-- With a clock that is positive and does not go back, the dates of every live user process are in
order at any later time, and so are the statistics that `proc_free` prints. -/
theorem lifecycle_consistent (env : Env) (hpos : ∀ n, 0 < env.mtime n)
    (hmono : ∀ m n, m ≤ n → env.mtime m ≤ env.mtime n) {d : Slot → Prop} (h : Dispatches env k y d) :
    (∀ i, (k.procSet i).LiveUser → ∀ n, k.mtimeReads ≤ n →
      (k.procSet i).InOrder y (env.mtime n) (d i) ∧
        Process.Consistent { k.procSet i with timeTerminated := env.mtime n }) ∧
    ∀ p s, .terminated s ∈ (k.procFree env p).log → .terminated s ∈ k.log ∨
      ∃ i n, (k.procSet i).LiveUser ∧ s = Process.lifecycle { k.procSet i with timeTerminated := env.mtime n } ∧
        Process.Consistent { k.procSet i with timeTerminated := env.mtime n } := by
  have htimed := h.timed hpos hmono
  have hslot : ∀ i n, k.mtimeReads ≤ n → (k.procSet i).InOrder y (env.mtime n) (d i) ∧
      Process.Consistent { k.procSet i with timeTerminated := env.mtime n } := by
    intro i n hn
    have horder : (k.procSet i).InOrder y (env.mtime n) (d i) :=
      Process.inOrder (htimed.yield n hn) (htimed.waits i) (htimed.ran i)
    exact ⟨horder, horder.consistent (htimed.yield n hn) (htimed.created i n hn)
      fun hd => (htimed.ran i hd).positive⟩
  refine ⟨fun i _ n hn => hslot i n hn, fun p s hs => ?_⟩
  rcases (Kernel.procFree_frees env k p).printed s hs with hs | ⟨i, n, hi, hn, rfl⟩
  · exact Or.inl hs
  · exact Or.inr ⟨i, n, hi, rfl, (hslot i n hn).2⟩

/-- Process 5 is made ready, dispatched by a timer interrupt, and preempted by another. -/
def preempted : List Action :=
  [.procAlloc, .procAlloc, .procAlloc, .procAlloc, .procSetReady 5, timer, timer]

theorem lifecycle_consistent_preempted : ∃ k y d, Dispatches still k y d ∧
    (k.procSet 5).LiveUser ∧ (k.procSet 5).timeFirstScheduled = 1 ∧
    (k.procSet 5).InOrder y (still.mtime k.mtimeReads) (d 5) ∧
    Process.Consistent { k.procSet 5 with timeTerminated := still.mtime k.mtimeReads } := by
  have hrun : ((replay Unwrapped still preempted).any fun k =>
      decide (k.procSet 5).LiveUser && decide ((k.procSet 5).timeFirstScheduled = 1)) = true := by
    decide +kernel
  obtain ⟨k, hk, hslot⟩ := (Option.any_eq_true _ _).mp hrun
  obtain ⟨hlive, hfirst⟩ := Bool.and_eq_true_iff.mp hslot
  obtain ⟨y, d, hd⟩ := (Run.replay hk).dispatches
  have hpos : ∀ n, 0 < still.mtime n := fun _ => show (0 : UInt64) < 1 by decide
  have hmono : ∀ m n, m ≤ n → still.mtime m ≤ still.mtime n := fun _ _ _ => UInt64.le_refl _
  exact ⟨k, y, d, hd, of_decide_eq_true hlive, of_decide_eq_true hfirst,
    (lifecycle_consistent still hpos hmono hd).1 5 (of_decide_eq_true hlive) _ le_rfl⟩

end OsSuite.Grass
