import OsSuite.SchedulerRuns

/-! The order in which SimpleScheduler runs its jobs. The queue that a quantum leaves is
thrown away when the next iteration rebuilds it from the job table. -/

namespace OsSuite.Scheduler

variable {s : World} {i : Fin maxJobs} {ncpu k : Nat} {history : List (World × Action)}

namespace World

/-- The queue of the iteration that begins at the loop test. -/
def queueAt (s : World) : List (Fin maxJobs) := s.schedule.schedule.readyQueue

def ran (s : World) : List (Fin maxJobs) := s.schedule.schedule.schedule.quantum

/-- The whole iteration: loop test, rebuild, start and end of the quantum. -/
def iteration (s : World) : World := s.schedule.schedule.schedule.schedule

/-- Before the loop test, with jobs to run and no `exit` issued. -/
structure Looping (s : World) : Prop where
  inv : Inv s
  stage : s.stage = .test
  schedulerRunning : s.shm.schedulerRunning = true
  jobs : s.readyJobs ≠ []

theorem Looping.rebuilt (h : s.Looping) :
    s.schedule.schedule = { s with readyQueue := s.readyJobs, stage := .start } := by
  have htest : s.schedule = { s with stage := .rebuild } := by
    unfold schedule
    rw [h.stage]
    exact if_pos (Or.inl h.schedulerRunning)
  have hlength : ¬s.readyJobs.length = 0 := fun he => h.jobs (List.length_eq_zero_iff.mp he)
  rw [htest]
  change ({ s with readyQueue := s.readyJobs
                   stage := if s.readyJobs.length = 0 then .idle else .start } : World) = _
  rw [if_neg hlength]

theorem Looping.started (h : s.Looping) : s.schedule.schedule.schedule =
    { (s.readyJobs.take (min s.readyJobs.length s.shm.ncpu)).foldl startJob
        { s with readyQueue := s.readyJobs, stage := .start } with
      running := min s.readyJobs.length s.shm.ncpu
      stage := .stop } := by
  have hmin : (if s.readyJobs.length < s.shm.ncpu then s.readyJobs.length else s.shm.ncpu) =
      min s.readyJobs.length s.shm.ncpu := by
    split <;> omega
  rw [h.rebuilt, ← hmin]
  rfl

theorem Looping.queueAt_eq (h : s.Looping) : s.queueAt = s.readyJobs := by
  rw [queueAt, h.rebuilt]

theorem Looping.ran_eq (h : s.Looping) :
    s.ran = s.readyJobs.take (min s.readyJobs.length s.shm.ncpu) := by
  have hk := startJobs_keeps (s.readyJobs.take (min s.readyJobs.length s.shm.ncpu))
    { s with readyQueue := s.readyJobs, stage := .start }
  rw [ran, h.started, quantum, hk.readyQueue]

theorem Looping.iteration (h : s.Looping) : s.iteration.Looping ∧
    s.iteration.readyJobs = s.readyJobs ∧ s.iteration.shm.ncpu = s.shm.ncpu := by
  have hinv := h.inv.schedule.schedule.schedule
  have hk := startJobs_keeps (s.readyJobs.take (min s.readyJobs.length s.shm.ncpu))
    { s with readyQueue := s.readyJobs, stage := .start }
  have hstate := startJobs_state (s.readyJobs.take (min s.readyJobs.length s.shm.ncpu))
    { s with readyQueue := s.readyJobs, stage := .start }
  have hquantum := h.ran_eq
  have hstarted := h.started
  unfold World.iteration
  unfold ran at hquantum
  generalize s.schedule.schedule.schedule = t at hinv hquantum hstarted ⊢
  have hstage : t.stage = .stop := by rw [hstarted]
  have hstopped := hinv.stopped
  have hrun : t.shm.schedulerRunning = true := by
    rw [hstarted]
    exact hk.schedulerRunning.trans h.schedulerRunning
  have hcount : t.schedule.shm.jobCount = s.shm.jobCount := by
    rw [schedule_stop hstage]
    refine hstopped.keeps.jobCount.trans ?_
    rw [hstarted]
    exact hk.jobCount
  have hready : t.schedule.readyJobs = s.readyJobs := by
    refine List.filter_congr fun j _ => decide_eq_decide.mpr ?_
    rw [submitted, submitted, hcount]
    refine and_congr_right fun hj => ?_
    have hafter : (t.schedule.job j).state =
        if j ∈ t.quantum then .ready else (t.job j).state := by
      have := hstopped.state j
      rw [hrun, if_pos rfl] at this
      rw [schedule_stop hstage]
      exact this
    rw [hafter, hquantum]
    split
    · rename_i hmem
      exact ⟨fun _ => (mem_readyJobs.mp (List.mem_of_mem_take hmem)).2, fun _ => rfl⟩
    · rename_i hmem
      have hbefore : (t.job j).state = (s.job j).state := by
        rw [hstarted]
        change (((s.readyJobs.take _).foldl startJob _).job j).state = _
        rw [hstate, if_neg hmem]
        rfl
      rw [hbefore]
  have hncpu : t.schedule.shm.ncpu = s.shm.ncpu := by
    rw [schedule_stop hstage]
    refine hstopped.keeps.ncpu.trans ?_
    rw [hstarted]
    exact hk.ncpu
  refine ⟨⟨hinv.schedule, by rw [schedule_stop hstage], ?_, by rw [hready]; exact h.jobs⟩, hready, hncpu⟩
  rw [schedule_stop hstage]
  exact hstopped.keeps.schedulerRunning.trans hrun

theorem Looping.iterate (h : s.Looping) (n : Nat) : (World.iteration^[n] s).Looping ∧
    (World.iteration^[n] s).readyJobs = s.readyJobs ∧
    (World.iteration^[n] s).shm.ncpu = s.shm.ncpu := by
  induction n with
  | zero => exact ⟨h, rfl, rfl⟩
  | succ n ih =>
    obtain ⟨hloop, hready, hncpu⟩ := ih
    obtain ⟨hloop', hready', hncpu'⟩ := hloop.iteration
    rw [Function.iterate_succ_apply']
    exact ⟨hloop', hready'.trans hready, hncpu'.trans hncpu⟩

/-- Round robin among `k` jobs. -/
structure RoundRobin (s : World) (k : Nat) : Prop where
  ran : ∀ n, (World.iteration^[n] s).ran = (World.iteration^[n] s).queueAt.take (min k s.shm.ncpu)
  rotates : ∀ n, (World.iteration^[n + 1] s).queueAt =
    (World.iteration^[n] s).queueAt.drop (min k s.shm.ncpu) ++
      (World.iteration^[n] s).queueAt.take (min k s.shm.ncpu)
  fair : ∀ m, ∀ i ∈ s.readyJobs, ∃ n < k, i ∈ (World.iteration^[m + n] s).ran

end World

/-- SimpleScheduler is round robin exactly when there is a CPU for each job. -/
theorem round_robin_iff (ncpu k : Nat) (history : List (World × Action)) (s : World)
    (h : Run ncpu history s) (hstage : s.stage = .test) (hrun : s.shm.schedulerRunning = true)
    (hk : s.readyJobs.length = k) (hpos : 1 ≤ k) (hncpu : 1 ≤ s.shm.ncpu) :
    s.RoundRobin k ↔ k ≤ s.shm.ncpu := by
  have hne : s.readyJobs ≠ [] := by
    intro he
    rw [he] at hk
    simp at hk
    omega
  have hloop : s.Looping := ⟨h.inv, hstage, hrun, hne⟩
  have hqueue : ∀ n, (World.iteration^[n] s).queueAt = s.readyJobs := fun n => by
    obtain ⟨hn, hready, -⟩ := hloop.iterate n
    rw [hn.queueAt_eq, hready]
  have hran : ∀ n, (World.iteration^[n] s).ran = s.readyJobs.take (min k s.shm.ncpu) := fun n => by
    obtain ⟨hn, hready, hcpus⟩ := hloop.iterate n
    rw [hn.ran_eq, hready, hcpus, hk]
  constructor
  · intro hrr
    by_contra hlt
    -- The queue would have to start with a job that it does not start with.
    have hmin : min k s.shm.ncpu = s.shm.ncpu := Nat.min_eq_right (by omega)
    have hrotate := hrr.rotates 0
    rw [hqueue, hqueue, hmin] at hrotate
    have hnodup : s.readyJobs.Nodup := (List.nodup_finRange _).filter _
    have hfirst := congrArg (fun q => q[0]?) hrotate
    have hdrop : (s.readyJobs.drop s.shm.ncpu).length ≠ 0 := by
      rw [List.length_drop]
      omega
    rw [List.getElem?_append_left (by omega), List.getElem?_drop, Nat.add_zero] at hfirst
    have h0 : 0 < s.readyJobs.length := by omega
    have hn : s.shm.ncpu < s.readyJobs.length := by omega
    rw [List.getElem?_eq_getElem h0, List.getElem?_eq_getElem hn, Option.some.injEq] at hfirst
    have hindex := (List.Nodup.getElem_inj_iff hnodup).mp hfirst
    omega
  · intro hle
    have hmin : min k s.shm.ncpu = k := Nat.min_eq_left hle
    refine ⟨fun n => by rw [hran, hqueue], fun n => ?_, fun m i hi => ⟨0, hpos, ?_⟩⟩
    · rw [hqueue, hqueue, hmin, ← hk, List.drop_length, List.take_length, List.nil_append]
    · rw [hran, hmin, ← hk, List.take_length]
      exact hi

def twoJobs : List Action := [.submit 3 "fib", .submit 4 "fib"]

theorem round_robin_iff_sample : (final (World.init 2 1 2) twoJobs).RoundRobin 2 := by
  have hrun : Run 2 (trail (World.init 2 1 2) twoJobs) (final (World.init 2 1 2) twoJobs) :=
    Run.ofActions (by decide)
  exact (round_robin_iff 2 2 _ _ hrun rfl rfl (by decide +kernel) (by decide) (by decide)).mpr (by decide)

/-- On one CPU the second is never run. -/
theorem round_robin_starves : ∃ history s, Run 1 history s ∧ s.stage = .test ∧
    s.shm.schedulerRunning = true ∧ s.readyJobs.length = 2 ∧ ¬s.RoundRobin 2 := by
  have hrun : Run 1 (trail (World.init 1 1 2) twoJobs) (final (World.init 1 1 2) twoJobs) :=
    Run.ofActions (by decide)
  refine ⟨_, _, hrun, rfl, rfl, by decide +kernel, fun hrr => ?_⟩
  have hrotate := hrr.rotates 0
  revert hrotate
  decide +kernel

end OsSuite.Scheduler
