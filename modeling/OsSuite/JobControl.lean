import OsSuite.SchedulerRuns

/-! What SimpleShell and SimpleScheduler do with the jobs over a run: whether finished jobs
are found, how many jobs execute, and which are left when the scheduler exits. -/

namespace OsSuite.Scheduler

variable {s t u : World} {a : Action} {i : Fin maxJobs} {ncpu : Nat}
  {history pre post : List (World × Action)} {x y : World × Action}

theorem append_snoc (h : history ++ [y] = pre ++ x :: post) :
    post = [] ∧ history = pre ∧ x = y ∨ ∃ post', post = post' ++ [y] ∧ history = pre ++ x :: post' := by
  rcases List.eq_nil_or_concat post with rfl | ⟨post', z, rfl⟩
  · obtain ⟨hpre, hlast⟩ := List.append_inj' h rfl
    cases hlast
    exact Or.inl ⟨rfl, hpre, rfl⟩
  · have hmove : pre ++ x :: (post'.concat z) = (pre ++ x :: post') ++ [z] := by simp
    rw [hmove] at h
    obtain ⟨hpre, hlast⟩ := List.append_inj' h rfl
    cases hlast
    exact Or.inr ⟨post', by simp, hpre⟩

theorem Run.before (h : Run ncpu history s) (he : history = pre ++ x :: post) :
    Run ncpu pre x.1 ∧ x.2.Enabled x.1 := by
  induction h generalizing post with
  | init hne => simp at he
  | step h henabled ih =>
    rcases append_snoc he with ⟨-, rfl, rfl⟩ | ⟨post', -, he'⟩
    · exact ⟨h, henabled⟩
    · exact ih he'

/-- What the actions after `x` preserve holds from `x` on. -/
theorem Run.after {P : World → Prop} (h : Run ncpu history s) (he : history = pre ++ x :: post)
    (hstep : ∀ u b, (u, b) ∈ post → Inv u → P u → P (b.step u)) (hx : P (x.2.step x.1)) :
    P s ∧ ∀ y ∈ post, P y.1 := by
  induction h generalizing post with
  | init hne => simp at he
  | @step history s a hrun henabled ih =>
    rcases append_snoc he with ⟨rfl, -, rfl⟩ | ⟨post', rfl, he'⟩
    · exact ⟨hx, fun y hy => absurd hy List.not_mem_nil⟩
    · obtain ⟨hs, hpost⟩ := ih he' fun u b hmem => hstep u b (List.mem_append_left _ hmem)
      refine ⟨hstep s a (by simp) hrun.inv hs, fun y hy => ?_⟩
      rcases List.mem_append.mp hy with hy | hy
      · exact hpost y hy
      · rw [List.mem_singleton.mp hy]
        exact hs

namespace World

theorem submit_job {pid : Pid} {prog : String} (hi : s.submitted i) :
    (s.submit pid prog).submitted i ∧ (s.submit pid prog).job i = s.job i := by
  unfold submit
  split
  · rename_i hlt
    have hne : i ≠ ⟨s.shm.jobCount, hlt⟩ := by
      rintro rfl
      exact Nat.lt_irrefl _ hi
    exact ⟨Nat.lt_succ_of_lt hi, Function.update_of_ne hne _ _⟩
  · exact ⟨hi, rfl⟩

theorem submit_new {pid : Pid} {prog : String} (hlt : s.shm.jobCount < maxJobs) :
    (s.submit pid prog).submitted ⟨s.shm.jobCount, hlt⟩ ∧
      (s.submit pid prog).job ⟨s.shm.jobCount, hlt⟩ = ⟨pid, prog, .ready, 0, 0⟩ ∧
      (s.submit pid prog).life ⟨s.shm.jobCount, hlt⟩ = .executing := by
  have hsubmit : s.submit pid prog = { s with
      os := s.os.fork s.shellPid pid
      shm := { s.shm with
        jobs := Function.update s.shm.jobs ⟨s.shm.jobCount, hlt⟩ ⟨pid, prog, .ready, 0, 0⟩
        jobCount := s.shm.jobCount + 1 } } := by rw [submit, dif_pos hlt]
  have hjob : (s.submit pid prog).job ⟨s.shm.jobCount, hlt⟩ = ⟨pid, prog, .ready, 0, 0⟩ := by
    rw [hsubmit]
    exact Function.update_self _ _ _
  refine ⟨?_, hjob, ?_⟩
  · rw [hsubmit]
    exact Nat.lt_succ_self _
  · rw [life, hjob, hsubmit]
    exact Function.update_self _ _ _

theorem schedule_start (hs : s.stage = .start) : ∃ n, s.schedule =
    { (s.readyQueue.take n).foldl startJob s with running := n, stage := .stop } := by
  unfold schedule
  rw [hs]
  exact ⟨_, rfl⟩

theorem start_state (hs : s.stage = .start) : s.schedule.readyQueue = s.readyQueue ∧
    (s.schedule.submitted i ↔ s.submitted i) ∧ (s.schedule.job i).state =
      if i ∈ s.schedule.quantum then .running else (s.job i).state := by
  obtain ⟨n, hn⟩ := schedule_start hs
  have hk := startJobs_keeps (s.readyQueue.take n) s
  have hquantum : s.schedule.quantum = s.readyQueue.take n := by
    rw [hn, quantum, hk.readyQueue]
  refine ⟨by rw [hn]; exact hk.readyQueue, by rw [hn]; exact hk.submitted_iff, ?_⟩
  rw [hquantum, hn]
  exact startJobs_state _ s i

theorem stop_state (h : Inv s) (hs : s.stage = .stop) : (s.schedule.submitted i ↔ s.submitted i) ∧
    (s.schedule.job i).state =
      if i ∈ s.quantum then (if s.shm.schedulerRunning then .ready else .finished)
      else (s.job i).state := by
  have hstopped := h.stopped
  rw [schedule_stop hs]
  exact ⟨hstopped.keeps.submitted_iff, hstopped.state i⟩

theorem stop_queue (h : Inv s) (hs : s.stage = .stop) : s.schedule.readyQueue =
    if s.shm.schedulerRunning then s.readyQueue else s.readyQueue.drop s.running := by
  have hstopped := h.stopped
  rw [schedule_stop hs]
  dsimp only
  rw [hstopped.new]
  split
  · exact List.take_append_drop _ _
  · rfl

/-- The stages that start and stop no job leave the job table alone. -/
theorem schedule_shm (hstart : s.stage ≠ .start) (hstop : s.stage ≠ .stop) :
    s.schedule.shm = s.shm := by
  unfold schedule
  cases hs : s.stage with
  | start => exact absurd hs hstart
  | stop => exact absurd hs hstop
  | test =>
    dsimp only
    split <;> rfl
  | rebuild => rfl
  | idle => rfl
  | left => rfl

def Over (s : World) (i : Fin maxJobs) : Prop := s.submitted i ∧ (s.job i).state = .finished

theorem Over.step (h : s.Over i) (hinv : Inv s) (a : Action) : (a.step s).Over i := by
  obtain ⟨hi, hstate⟩ := h
  cases a with
  | submit pid prog =>
    obtain ⟨hsub, hjob⟩ := @submit_job _ _ pid prog hi
    exact ⟨hsub, by rw [Action.step, hjob]; exact hstate⟩
  | exit => exact ⟨hi, hstate⟩
  | finish j => exact ⟨hi, hstate⟩
  | schedule =>
    by_cases hstart : s.stage = .start
    · obtain ⟨hqueue, hsub, hafter⟩ := start_state (i := i) hstart
      have hmem : i ∉ s.schedule.quantum := by
        intro hmem
        have hq : i ∈ s.readyQueue := hqueue ▸ List.mem_of_mem_take hmem
        rw [hinv.ready hstart i hq] at hstate
        cases hstate
      rw [if_neg hmem] at hafter
      exact ⟨hsub.mpr hi, hafter.trans hstate⟩
    · by_cases hstop : s.stage = .stop
      · obtain ⟨hsub, hafter⟩ := stop_state (i := i) hinv hstop
        have hmem : i ∉ s.quantum := by
          intro hmem
          rw [(hinv.running i hi).mpr ⟨hstop, hmem⟩] at hstate
          cases hstate
        rw [if_neg hmem] at hafter
        exact ⟨hsub.mpr hi, hafter.trans hstate⟩
      · have hshm := schedule_shm hstart hstop
        refine ⟨?_, ?_⟩
        · change i.val < s.schedule.shm.jobCount
          rw [hshm]
          exact hi
        · change (s.schedule.shm.jobs i).state = _
          rw [hshm]
          exact hstate

end World

open World

/-- Whenever a quantum ends in which a job of it has terminated, that job is put in state 2 and
is in no later quantum. -/
def Detects (history : List (World × Action)) : Prop :=
  ∀ pre t post, history = pre ++ (t, .schedule) :: post → t.stage = .stop →
    ∀ i ∈ t.quantum, t.life i = .ended → (t.schedule.job i).state = .finished ∧
      ∀ u, (u, .schedule) ∈ post → u.stage = .start → i ∉ u.schedule.quantum

/-- A quantum ends in which a job of it has terminated, before `exit`. -/
def Misses (s : World) : Prop :=
  s.stage = .stop ∧ s.shm.schedulerRunning = true ∧ ∃ i ∈ s.quantum, s.life i = .ended

instance (s : World) : Decidable (Misses s) := inferInstanceAs (Decidable (_ ∧ _))

/-- The scheduler finds its finished jobs only by giving up all jobs. -/
theorem detects_iff (ncpu : Nat) (history : List (World × Action)) (s : World)
    (h : Run ncpu history s) :
    Detects history ↔ ∀ x ∈ history, x.2 = .schedule → ¬Misses x.1 := by
  constructor
  · rintro hdetects ⟨t, a⟩ hmem rfl ⟨hstop, hrunning, i, hi, hended⟩
    obtain ⟨pre, post, he⟩ := List.append_of_mem hmem
    have hinv := (h.before he).1.inv
    have hstate := (hdetects pre t post he hstop i hi hended).1
    rw [(stop_state hinv hstop).2, if_pos hi, hrunning] at hstate
    cases hstate
  · intro hmisses pre t post he hstop i hi hended
    have hinv := (h.before he).1.inv
    have hrunning : t.shm.schedulerRunning = false := by
      cases hrun : t.shm.schedulerRunning with
      | false => rfl
      | true => exact absurd ⟨hstop, hrun, i, hi, hended⟩ (hmisses (t, .schedule) (by rw [he]; simp) rfl)
    have hstate : (t.schedule.job i).state = .finished := by
      rw [(stop_state hinv hstop).2, if_pos hi, hrunning]
      rfl
    have hover : t.schedule.Over i :=
      ⟨(stop_state hinv hstop).1.mpr (hinv.queued i (List.mem_of_mem_take hi)), hstate⟩
    refine ⟨hstate, fun u hu hstart hmem => ?_⟩
    have hlater := (h.after he (P := fun w => Over w i) (fun w b _ hw ho => ho.step hw b) hover).2
      (u, .schedule) hu
    obtain ⟨pre', post', he'⟩ := List.append_of_mem hu
    have hinvu : Inv u := by
      have hsplit : history = (pre ++ (t, .schedule) :: pre') ++ (u, .schedule) :: post' := by
        rw [he, he']
        simp
      exact (h.before hsplit).1.inv
    have hqueue : i ∈ u.readyQueue :=
      (start_state (i := i) hstart).1 ▸ List.mem_of_mem_take hmem
    have hready := hinvu.ready hstart i hqueue
    rw [hlater.2] at hready
    cases hready

def endsRunning : List Action := [.submit 3 "fib", .schedule, .schedule, .schedule, .finish 0]

/-- When `exit` comes before the end of the quantum, the job is put in state 2. -/
theorem detects_iff_sample :
    Detects (trail (World.init 1 1 2) (endsRunning ++ [.exit, .schedule])) :=
  (detects_iff 1 _ _ (Run.ofActions (by decide +kernel))).mpr (by decide +kernel)

/-- Otherwise it goes back to state 0. -/
theorem finished_not_detected : ∃ history s, Run 1 history s ∧ ¬Detects history := by
  refine ⟨trail (World.init 1 1 2) (endsRunning ++ [.schedule]), _, Run.ofActions (by decide +kernel), ?_⟩
  intro hdetects
  have hstate := (hdetects _ _ [] (trail_snoc _ endsRunning .schedule) (by decide +kernel) 0
    (by decide +kernel) (by decide +kernel)).1
  revert hstate
  decide +kernel

def World.executing (s : World) : List (Fin maxJobs) :=
  (List.finRange maxJobs).filter fun i => s.submitted i ∧ s.life i = .executing

/-- At most `ncpu` jobs execute, and none that is in state 0. -/
def Bounded (s : World) : Prop :=
  s.executing.length ≤ s.shm.ncpu ∧
    ∀ i, s.submitted i → (s.job i).state = .ready → s.life i ≠ .executing

theorem jobCount_step (h : Inv s) (ha : ∀ pid prog, a ≠ .submit pid prog) :
    (a.step s).shm.jobCount = s.shm.jobCount := by
  cases a with
  | submit pid prog => exact absurd rfl (ha pid prog)
  | exit => rfl
  | finish i => rfl
  | schedule =>
    by_cases hstart : s.stage = .start
    · obtain ⟨n, hn⟩ := schedule_start hstart
      rw [Action.step, hn]
      exact (startJobs_keeps _ s).jobCount
    · by_cases hstop : s.stage = .stop
      · rw [Action.step, schedule_stop hstop]
        exact h.stopped.keeps.jobCount
      · rw [Action.step, schedule_shm hstart hstop]

/-- The bound holds throughout exactly when there is nothing to bound: a job executes from
its submission on. -/
theorem bounded_iff (ncpu : Nat) (history : List (World × Action)) (s : World)
    (h : Run ncpu history s) :
    ((∀ x ∈ history, Bounded x.1) ∧ Bounded s) ↔ ∀ x ∈ history, ∀ pid prog, x.2 ≠ .submit pid prog := by
  have hempty : ∀ u : World, u.shm.jobCount = 0 → Bounded u := by
    intro u hu
    have hnone : ∀ i, ¬u.submitted i := fun i hi => by
      rw [submitted, hu] at hi
      exact Nat.not_lt_zero _ hi
    refine ⟨?_, fun i hi => absurd hi (hnone i)⟩
    have hlist : u.executing = [] := List.filter_eq_nil_iff.mpr fun i _ => by simp [hnone i]
    rw [hlist]
    exact Nat.zero_le _
  have hmain : ((∀ x ∈ history, Bounded x.1) ∧ Bounded s → s.shm.jobCount = 0 ∧
      ∀ x ∈ history, ∀ pid prog, x.2 ≠ .submit pid prog) ∧
      ((∀ x ∈ history, ∀ pid prog, x.2 ≠ .submit pid prog) → s.shm.jobCount = 0 ∧
        (∀ x ∈ history, Bounded x.1) ∧ Bounded s) := by
    induction h with
    | init hne =>
      have hnone {P : World × Action → Prop} : ∀ x ∈ ([] : List (World × Action)), P x :=
        fun x hx => absurd hx List.not_mem_nil
      exact ⟨fun _ => ⟨rfl, hnone⟩, fun _ => ⟨rfl, hnone, hempty _ rfl⟩⟩
    | @step history s a hrun henabled ih =>
      constructor
      · rintro ⟨hall, hlast⟩
        obtain ⟨hzero, hnone⟩ := ih.1 ⟨fun x hx => hall x (List.mem_append_left _ hx), hall (s, a) (by simp)⟩
        have ha : ∀ pid prog, a ≠ .submit pid prog := by
          rintro pid prog rfl
          have hlt : s.shm.jobCount < maxJobs := by
            rw [hzero]
            decide
          obtain ⟨hsub, hjob, hlife⟩ := @submit_new _ pid prog hlt
          exact hlast.2 _ hsub (by rw [Action.step, hjob]) hlife
        refine ⟨(jobCount_step hrun.inv ha).trans hzero, fun x hx => ?_⟩
        rcases List.mem_append.mp hx with hx | hx
        · exact hnone x hx
        · rw [List.mem_singleton.mp hx]
          exact ha
      · intro hnone
        obtain ⟨hzero, hall, hs⟩ := ih.2 fun x hx => hnone x (List.mem_append_left _ hx)
        have hzero' := (jobCount_step hrun.inv (hnone (s, a) (by simp))).trans hzero
        refine ⟨hzero', fun x hx => ?_, hempty _ hzero'⟩
        rcases List.mem_append.mp hx with hx | hx
        · exact hall x hx
        · rw [List.mem_singleton.mp hx]
          exact hs
  exact ⟨fun hall => (hmain.1 hall).2, fun hnone => (hmain.2 hnone).2⟩

theorem bounded_iff_sample : Bounded (final (World.init 1 1 2) [.schedule, .schedule, .exit]) := by
  have hrun : Run 1 (trail (World.init 1 1 2) [.schedule, .schedule, .exit])
      (final (World.init 1 1 2) [.schedule, .schedule, .exit]) := Run.ofActions (by decide +kernel)
  refine ((bounded_iff 1 _ _ hrun).mpr fun x hx pid prog => ?_).2
  simp only [trail, List.mem_cons, List.not_mem_nil, or_false] at hx
  rcases hx with rfl | rfl | rfl <;> rintro ⟨⟩

instance (s : World) : Decidable (Bounded s) := inferInstanceAs (Decidable (_ ∧ ∀ _, _ → _ → _))

/-- Two jobs on one CPU, both executing, and both in state 0. -/
theorem submitted_all_execute : ∃ history s, Run 1 history s ∧ s.executing.length = 2 ∧ ¬Bounded s :=
  ⟨_, final (World.init 1 1 2) [.submit 3 "fib", .submit 4 "fib"], Run.ofActions (by decide +kernel),
    by decide +kernel, by decide +kernel⟩

/-- A job is submitted, and the ready queue is never rebuilt after that. -/
def SubmittedLate (history : List (World × Action)) : Prop :=
  ∃ pre t pid prog post, history = pre ++ (t, .submit pid prog) :: post ∧ t.shm.jobCount < maxJobs ∧
    ∀ u, (u, .schedule) ∈ post → u.stage ≠ .rebuild

theorem submittedLate_snoc : SubmittedLate (history ++ [(s, a)]) ↔
    (∃ pid prog, a = .submit pid prog) ∧ s.shm.jobCount < maxJobs ∨
      SubmittedLate history ∧ ¬(a = .schedule ∧ s.stage = .rebuild) := by
  constructor
  · rintro ⟨pre, t, pid, prog, post, he, hlt, hpost⟩
    rcases append_snoc he with ⟨-, -, hx⟩ | ⟨post', rfl, he'⟩
    · cases hx
      exact Or.inl ⟨⟨pid, prog, rfl⟩, hlt⟩
    · refine Or.inr ⟨⟨pre, t, pid, prog, post', he', hlt, fun u hu => ?_⟩, ?_⟩
      · exact hpost u (List.mem_append_left _ hu)
      · rintro ⟨rfl, hs⟩
        exact hpost s (by simp) hs
  · rintro (⟨⟨pid, prog, rfl⟩, hlt⟩ | ⟨⟨pre, t, pid, prog, post, rfl, hlt, hpost⟩, hne⟩)
    · exact ⟨history, s, pid, prog, [], rfl, hlt, fun u hu => absurd hu List.not_mem_nil⟩
    · refine ⟨pre, t, pid, prog, post ++ [(s, a)], by simp, hlt, fun u hu hs => ?_⟩
      rcases List.mem_append.mp hu with hu | hu
      · exact hpost u hu hs
      · cases List.mem_singleton.mp hu
        exact hne ⟨rfl, hs⟩

namespace World

/-- A job in state 0 that the scheduler has not taken into its queue. -/
def Unqueued (s : World) (i : Fin maxJobs) : Prop :=
  s.submitted i ∧ (s.job i).state = .ready ∧ i ∉ s.readyQueue

/-- Only the rebuild of the queue takes in such a job. -/
theorem schedule_unqueued (h : Inv s) (hs : s.stage ≠ .rebuild) :
    s.schedule.Unqueued i ↔ s.Unqueued i := by
  by_cases hstart : s.stage = .start
  · obtain ⟨hqueue, hsub, hafter⟩ := start_state (i := i) hstart
    unfold Unqueued
    rw [hqueue, hsub, hafter]
    refine and_congr_right fun _ => and_congr_left fun hq => ?_
    have hmem : i ∉ s.schedule.quantum := fun hmem => hq (hqueue ▸ List.mem_of_mem_take hmem)
    rw [if_neg hmem]
  · by_cases hstop : s.stage = .stop
    · obtain ⟨hsub, hafter⟩ := stop_state (i := i) h hstop
      unfold Unqueued
      rw [stop_queue h hstop, hsub, hafter]
      refine and_congr_right fun _ => ?_
      have hsplit : i ∈ s.readyQueue ↔ i ∈ s.quantum ∨ i ∈ s.readyQueue.drop s.running := by
        rw [quantum, ← List.mem_append, List.take_append_drop]
      by_cases hmem : i ∈ s.quantum
      · rw [if_pos hmem]
        cases hrun : s.shm.schedulerRunning with
        | true => simp [hsplit, hmem]
        | false => simp [hsplit, hmem]
      · rw [if_neg hmem]
        cases hrun : s.shm.schedulerRunning with
        | true => rfl
        | false => simp [hsplit, hmem]
    · have hshm := schedule_shm hstart hstop
      have hqueue : s.schedule.readyQueue = s.readyQueue := by
        unfold schedule
        cases hstage : s.stage with
        | rebuild => exact absurd hstage hs
        | start => exact absurd hstage hstart
        | stop => exact absurd hstage hstop
        | test =>
          dsimp only
          split <;> rfl
        | idle => rfl
        | left => rfl
      unfold Unqueued submitted job
      rw [hshm, hqueue]

theorem rebuild_unqueued (hs : s.stage = .rebuild) : ¬s.schedule.Unqueued i := by
  rintro ⟨hi, hstate, hq⟩
  unfold schedule at hi hstate hq
  rw [hs] at hi hstate hq
  exact hq (mem_readyJobs.mpr ⟨hi, hstate⟩)

/-- The scheduler leaves its loop with an empty queue. -/
theorem left_step (h : s.stage = .left → s.readyQueue = []) (a : Action) :
    (a.step s).stage = .left → (a.step s).readyQueue = [] := by
  cases a with
  | submit pid prog =>
    change (s.submit pid prog).stage = .left → (s.submit pid prog).readyQueue = []
    unfold submit
    split <;> exact h
  | exit => exact h
  | finish i => exact h
  | schedule =>
    change s.schedule.stage = .left → s.schedule.readyQueue = []
    unfold schedule
    cases hs : s.stage with
    | test =>
      dsimp only
      split
      · nofun
      · rename_i htest
        intro
        have hlength : s.readyQueue.length = 0 := by
          by_contra hne
          exact htest (Or.inr (Nat.pos_of_ne_zero hne))
        exact List.length_eq_zero_iff.mp hlength
    | rebuild =>
      dsimp only
      split <;> nofun
    | idle => nofun
    | start => nofun
    | stop => nofun
    | left => exact h

end World

theorem Run.left (h : Run ncpu history s) : s.stage = .left → s.readyQueue = [] := by
  induction h with
  | init hne => nofun
  | step h henabled ih => exact left_step ih _

/-- The jobs that the scheduler has yet to find are those submitted since the last rebuild. -/
theorem Run.unqueued_iff (h : Run ncpu history s) : (∃ i, s.Unqueued i) ↔ SubmittedLate history := by
  induction h with
  | init hne =>
    constructor
    · rintro ⟨i, hi, -⟩
      exact absurd hi (Nat.not_lt_zero _)
    · rintro ⟨pre, t, pid, prog, post, he, -⟩
      simp at he
  | @step history s a hrun henabled ih =>
    rw [submittedLate_snoc, ← ih]
    cases a with
    | exit => simp [Action.step, World.exit, Unqueued, submitted, World.job]
    | finish j => simp [Action.step, World.finish, Unqueued, submitted, World.job]
    | submit pid prog =>
      by_cases hlt : s.shm.jobCount < maxJobs
      · obtain ⟨hsub, hjob, -⟩ := @submit_new _ pid prog hlt
        have hqueue : (s.submit pid prog).readyQueue = s.readyQueue := by
          unfold World.submit
          split <;> rfl
        refine iff_of_true ⟨⟨s.shm.jobCount, hlt⟩, hsub, by rw [Action.step, hjob], fun hq => ?_⟩
          (Or.inl ⟨⟨pid, prog, rfl⟩, hlt⟩)
        rw [Action.step, hqueue] at hq
        exact Nat.lt_irrefl _ (hrun.inv.queued _ hq)
      · have hfull : s.submit pid prog = s := dif_neg hlt
        simp [Action.step, hfull, hlt]
    | schedule =>
      by_cases hs : s.stage = .rebuild
      · simp [Action.step, rebuild_unqueued hs, hs]
      · simp [Action.step, schedule_unqueued hrun.inv hs, hs]

/-- The scheduler shuts down cleanly unless a job was submitted too late. -/
theorem clean_shutdown_iff (ncpu : Nat) (history : List (World × Action)) (s : World)
    (h : Run ncpu history s) (hleft : s.stage = .left) :
    (∀ i, s.submitted i → (s.job i).state = .finished ∧ s.life i = .ended) ↔
      ¬SubmittedLate history := by
  rw [← h.unqueued_iff]
  constructor
  · rintro hclean ⟨i, hi, hstate, -⟩
    rw [(hclean i hi).1] at hstate
    cases hstate
  · intro hlate i hi
    have hstate : (s.job i).state = .finished := by
      cases hstate : (s.job i).state with
      | finished => rfl
      | ready => exact absurd ⟨i, hi, hstate, by rw [h.left hleft]; exact List.not_mem_nil⟩ hlate
      | running =>
        have hstop := ((h.inv.running i hi).mp hstate).1
        rw [hleft] at hstop
        cases hstop
    exact ⟨hstate, h.inv.ended i hi hstate⟩

/-- The scheduler finds no job, and the shell submits one and exits during the idle sleep. -/
def submitsLate : List Action :=
  [.schedule, .schedule, .submit 3 "fib", .exit, .schedule, .schedule]

theorem late_submission_left : ∃ history s, Run 1 history s ∧ s.stage = .left ∧
    s.submitted 0 ∧ (s.job 0).state = .ready ∧ s.life 0 = .executing :=
  ⟨_, final (World.init 1 1 2) submitsLate, Run.ofActions (by decide +kernel), by decide +kernel,
    by decide +kernel, by decide +kernel, by decide +kernel⟩

/-- The shell submits a job and exits during its quantum. -/
def submitsEarly : List Action :=
  [.submit 3 "fib", .schedule, .schedule, .schedule, .exit, .schedule, .schedule]

theorem clean_shutdown_iff_sample :
    ¬SubmittedLate (trail (World.init 1 1 2) submitsEarly) := by
  have hrun : Run 1 (trail (World.init 1 1 2) submitsEarly) (final (World.init 1 1 2) submitsEarly) :=
    Run.ofActions (by decide +kernel)
  exact (clean_shutdown_iff 1 _ _ hrun (by decide +kernel)).mp (by decide +kernel)

end OsSuite.Scheduler
