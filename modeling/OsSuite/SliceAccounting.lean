import OsSuite.JobControl

/-! The time slices in the summary that SimpleShell prints at `exit`, against the quanta of the
run. A quantum goes from the stage that starts its jobs to the one that stops them. -/

namespace OsSuite.Scheduler

variable {s t : World} {a : Action} {i j : Fin maxJobs} {ncpu : Nat} {history : List (World × Action)}

namespace World

/-- A quantum starts in which the job is scheduled. -/
def Picks (s : World) (i : Fin maxJobs) : Prop := s.stage = .start ∧ i ∈ s.readyQueue.take s.shm.ncpu

/-- A quantum starts in which the job, ready and not completed, is not scheduled. -/
def PassesOver (s : World) (i : Fin maxJobs) : Prop :=
  s.stage = .start ∧ s.submitted i ∧ (s.job i).state = .ready ∧ s.life i ≠ .ended ∧
    i ∉ s.readyQueue.take s.shm.ncpu

/-- A quantum starts during the stay of the job in the system. -/
def Hosts (s : World) (i : Fin maxJobs) : Prop := s.stage = .start ∧ s.submitted i ∧ s.life i ≠ .ended

/-- A quantum of the job is to end. -/
def Stops (s : World) (i : Fin maxJobs) : Prop := s.stage = .stop ∧ i ∈ s.quantum

instance (s : World) (i : Fin maxJobs) : Decidable (s.Picks i) := inferInstanceAs (Decidable (_ ∧ _))

instance (s : World) (i : Fin maxJobs) : Decidable (s.PassesOver i) :=
  inferInstanceAs (Decidable (_ ∧ _ ∧ _ ∧ _ ∧ _))

instance (s : World) (i : Fin maxJobs) : Decidable (s.Hosts i) := inferInstanceAs (Decidable (_ ∧ _ ∧ _))

instance (s : World) (i : Fin maxJobs) : Decidable (s.Stops i) := inferInstanceAs (Decidable (_ ∧ _))

end World

open World

/-- The steps of the scheduler in a run that start in such a state. -/
def steps (P : World → Prop) [DecidablePred P] (history : List (World × Action)) : Nat :=
  history.countP fun x => x.2 = .schedule ∧ P x.1

/-- The quanta in which the job was scheduled, up to the one in which it finished. -/
def runQuanta (history : List (World × Action)) (i : Fin maxJobs) : Nat :=
  steps (fun u => u.Picks i ∧ u.life i ≠ .ended) history

def waitQuanta (history : List (World × Action)) (i : Fin maxJobs) : Nat :=
  steps (fun u => u.PassesOver i) history

def stayQuanta (history : List (World × Action)) (i : Fin maxJobs) : Nat :=
  steps (fun u => u.Hosts i) history

/-- The quanta that the job is given although it has ended. -/
def lateQuanta (history : List (World × Action)) (i : Fin maxJobs) : Nat :=
  steps (fun u => u.Picks i ∧ u.life i = .ended) history

/-- The quanta of the job that end after `exit`. -/
def cutQuanta (history : List (World × Action)) (i : Fin maxJobs) : Nat :=
  steps (fun u => u.Stops i ∧ u.shm.schedulerRunning = false) history

/-- The summary is right about the job. -/
structure Summarised (s : World) (history : List (World × Action)) (i : Fin maxJobs) : Prop where
  run : (s.job i).runTimeSlices = runQuanta history i
  wait : (s.job i).waitTimeSlices = waitQuanta history i
  stay : (s.job i).runTimeSlices + (s.job i).waitTimeSlices = stayQuanta history i

section Steps

variable {P Q R : World → Prop} [DecidablePred P] [DecidablePred Q] [DecidablePred R]

@[simp] theorem steps_nil : steps P [] = 0 := rfl

theorem steps_snoc (P : World → Prop) [DecidablePred P] : steps P (history ++ [(s, a)]) =
    steps P history + if a = .schedule ∧ P s then 1 else 0 := by
  simp [steps, List.countP_append, List.countP_cons]

theorem steps_split (hsplit : ∀ u, P u ↔ Q u ∨ R u) (hdisj : ∀ u, Q u → ¬R u) (history : List (World × Action)) :
    steps P history = steps Q history + steps R history := by
  induction history using List.reverseRecOn with
  | nil => rfl
  | append_singleton history x ih =>
    obtain ⟨u, b⟩ := x
    rw [steps_snoc, steps_snoc, steps_snoc, ih]
    by_cases hb : b = .schedule
    · by_cases hq : Q u
      · have hr := hdisj u hq
        have hp : P u := (hsplit u).mpr (Or.inl hq)
        simp only [hb, hp, hq, hr, and_self, and_false, if_true, if_false]
        omega
      · have hiff : P u ↔ R u := by simp [hsplit u, hq]
        simp only [hiff, hq, and_false, if_false]
        omega
    · simp [hb]

end Steps

namespace World

theorem startJobs_slices (q : List (Fin maxJobs)) (s : World) (j : Fin maxJobs) :
    ((q.foldl startJob s).job j).runTimeSlices = (s.job j).runTimeSlices ∧
      ((q.foldl startJob s).job j).waitTimeSlices = (s.job j).waitTimeSlices := by
  induction q generalizing s with
  | nil => exact ⟨rfl, rfl⟩
  | cons i q ih =>
    have hstart : ((s.startJob i).job j).runTimeSlices = (s.job j).runTimeSlices ∧
        ((s.startJob i).job j).waitTimeSlices = (s.job j).waitTimeSlices := by
      have hcont : (s.signal i .cont).job = s.job := rfl
      unfold startJob
      by_cases hji : j = i
      · subst hji
        rw [setJob_self]
        exact ⟨rfl, rfl⟩
      · rw [setJob_other _ _ hji, hcont]
        exact ⟨rfl, rfl⟩
    rw [List.foldl_cons]
    exact ⟨(ih _).1.trans hstart.1, (ih _).2.trans hstart.2⟩

theorem stopJob_slices (s : World) (i : Fin maxJobs) :
    ((s.stopJob i).job i).runTimeSlices = (s.job i).runTimeSlices + (if s.retires i then 0 else 1) ∧
      ((s.stopJob i).job i).waitTimeSlices = (s.job i).waitTimeSlices := by
  unfold stopJob
  by_cases h : s.retires i
  · rw [if_pos h, if_pos h]
    dsimp only
    have hset : (s.setJob i { s.job i with state := .finished }).job i = { s.job i with state := .finished } :=
      setJob_self _ _ _
    split
    · rw [hset]
      exact ⟨rfl, rfl⟩
    · change (((s.setJob i _).job i).runTimeSlices = _) ∧ ((s.setJob i _).job i).waitTimeSlices = _
      rw [hset]
      exact ⟨rfl, rfl⟩
  · rw [if_neg h, if_neg h]
    dsimp only
    rw [setJob_self]
    exact ⟨rfl, rfl⟩

theorem Forked.stopped_slices (h : s.Forked) {q new : List (Fin maxJobs)} (hq : ∀ i ∈ q, s.submitted i)
    (hnodup : q.Nodup) (j : Fin maxJobs) :
    ((q.foldl stopRound (s, new)).1.job j).runTimeSlices = (s.job j).runTimeSlices +
        (if j ∈ q ∧ s.shm.schedulerRunning = true then 1 else 0) ∧
      ((q.foldl stopRound (s, new)).1.job j).waitTimeSlices = (s.job j).waitTimeSlices := by
  induction q generalizing s new with
  | nil => exact ⟨rfl, rfl⟩
  | cons i q ih =>
    have hk := stopJob_keeps s i
    have hretires := h.retires_iff (hq i List.mem_cons_self)
    obtain ⟨hi, hnodup⟩ := List.nodup_cons.mp hnodup
    obtain ⟨hrun, hwait⟩ := @ih _ (h.keeps hk) (if s.retires i then new else new ++ [i])
      (fun j hj => hk.submitted_iff.mpr (hq j (List.mem_cons_of_mem i hj))) hnodup
    rw [List.foldl_cons]
    change ((q.foldl stopRound (s.stopJob i, _)).1.job j).runTimeSlices = _ ∧
      ((q.foldl stopRound (s.stopJob i, _)).1.job j).waitTimeSlices = _
    rw [hrun, hwait, hk.schedulerRunning]
    by_cases hji : j = i
    · subst hji
      obtain ⟨hself, hself'⟩ := stopJob_slices s j
      rw [hself, hself']
      cases hexit : s.shm.schedulerRunning <;> simp [hi, hretires, hexit]
    · rw [stopJob_other s hji]
      simp [hji]

end World

theorem slices_step (h : Inv s) (hi : s.submitted i) (a : Action) :
    ((a.step s).job i).runTimeSlices = (s.job i).runTimeSlices +
        (if a = .schedule ∧ s.Stops i ∧ s.shm.schedulerRunning = true then 1 else 0) ∧
      ((a.step s).job i).waitTimeSlices = (s.job i).waitTimeSlices := by
  cases a with
  | submit pid prog =>
    have hjob := (@submit_job s i pid prog hi).2
    rw [Action.step, hjob]
    simp
  | exit => simp [Action.step, World.exit, World.job]
  | finish j => simp [Action.step, World.finish, World.job]
  | schedule =>
    rw [Action.step]
    by_cases hstart : s.stage = .start
    · obtain ⟨n, hn⟩ := schedule_start hstart
      have hstarted := startJobs_slices (s.readyQueue.take n) s i
      have hjob : s.schedule.job i = ((s.readyQueue.take n).foldl startJob s).job i := by
        rw [hn]
        rfl
      rw [hjob]
      simpa [Stops, hstart] using hstarted
    · by_cases hstop : s.stage = .stop
      · have hsub : s.quantum.Sublist s.readyQueue := List.take_sublist _ _
        have hstopped := @Forked.stopped_slices s h.forked s.quantum [] (fun j hj => h.queued j (hsub.subset hj))
          (h.nodup.sublist hsub) i
        have hjob : s.schedule.job i = (s.quantum.foldl stopRound (s, [])).1.job i := by
          rw [schedule_stop hstop]
          rfl
        rw [hjob]
        simpa [Stops, hstop] using hstopped
      · have hjob : s.schedule.job i = s.job i := congrArg (fun shm => shm.jobs i) (schedule_shm hstart hstop)
        rw [hjob]
        simp [Stops, hstop]

theorem not_stops (h : s.stage ≠ .stop) : ¬s.Stops i := fun hc => h hc.1

theorem not_picks (h : s.stage ≠ .start) : ¬s.Picks i := fun hc => h hc.1

theorem schedule_stage (hstart : s.stage ≠ .start) : s.schedule.stage ≠ .stop := by
  unfold schedule
  cases hs : s.stage with
  | start => exact absurd hs hstart
  | test =>
    dsimp only
    split <;> simp
  | rebuild =>
    dsimp only
    split <;> simp
  | idle => simp
  | stop => simp
  | left => simp [hs]

theorem start_quantum (hs : s.stage = .start) : s.schedule.Stops i ↔ s.Picks i := by
  have htake : s.readyQueue.take (if s.readyQueue.length < s.shm.ncpu then s.readyQueue.length else s.shm.ncpu) =
      s.readyQueue.take s.shm.ncpu := by
    split
    · next hlt => rw [List.take_length, List.take_of_length_le hlt.le]
    · rfl
  have hk := startJobs_keeps (s.readyQueue.take s.shm.ncpu) s
  unfold Stops Picks quantum schedule
  rw [hs]
  dsimp only
  rw [htake, hk.readyQueue, htake]
  exact and_congr_left fun _ => iff_of_true rfl rfl

/-- A quantum of the job that starts ends later. -/
theorem stops_step (s : World) (a : Action) (i : Fin maxJobs) :
    (if (a.step s).Stops i then 1 else 0) + (if a = .schedule ∧ s.Stops i then 1 else 0) =
      (if s.Stops i then 1 else 0) + (if a = .schedule ∧ s.Picks i then 1 else 0) := by
  cases a with
  | submit pid prog =>
    have hsame : (s.submit pid prog).Stops i ↔ s.Stops i := by
      unfold World.submit
      split <;> rfl
    simp [Action.step, hsame]
  | exit =>
    have hsame : s.exit.Stops i ↔ s.Stops i := Iff.rfl
    simp [Action.step, hsame]
  | finish j =>
    have hsame : (s.finish j).Stops i ↔ s.Stops i := Iff.rfl
    simp [Action.step, hsame]
  | schedule =>
    rw [Action.step]
    by_cases hstart : s.stage = .start
    · have hstop : ¬s.Stops i := not_stops (by rw [hstart]; decide)
      simp [start_quantum hstart, hstop]
    · have hafter : ¬s.schedule.Stops i := not_stops (schedule_stage hstart)
      simp [hafter, not_picks hstart]

theorem Run.stops_eq (h : Run ncpu history s) (i : Fin maxJobs) :
    steps (fun u => u.Stops i) history + (if s.Stops i then 1 else 0) = steps (fun u => u.Picks i) history := by
  induction h with
  | @init shellPid schedPid hne =>
    have hstop : ¬(World.init ncpu shellPid schedPid).Stops i := not_stops (by simp [World.init])
    simp [hstop]
  | @step history s a hrun henabled ih =>
    have hstep := stops_step s a i
    rw [steps_snoc, steps_snoc]
    omega

theorem submitted_step (h : Inv s) (a : Action) (hi : (a.step s).submitted i) : s.submitted i ∨
    ((a.step s).job i).runTimeSlices = 0 ∧ ((a.step s).job i).waitTimeSlices = 0 := by
  by_cases ha : ∃ pid prog, a = .submit pid prog
  · obtain ⟨pid, prog, rfl⟩ := ha
    by_cases hlt : s.shm.jobCount < maxJobs
    · by_cases hnew : i = ⟨s.shm.jobCount, hlt⟩
      · subst hnew
        have hjob := (@submit_new s pid prog hlt).2.1
        right
        rw [Action.step, hjob]
        exact ⟨rfl, rfl⟩
      · left
        have hcount : (s.submit pid prog).shm.jobCount = s.shm.jobCount + 1 := by
          rw [World.submit, dif_pos hlt]
        have hval : i.val ≠ s.shm.jobCount := fun he => hnew (Fin.ext he)
        unfold submitted at hi ⊢
        rw [Action.step, hcount] at hi
        omega
    · left
      have hfull : s.submit pid prog = s := dif_neg hlt
      rwa [Action.step, hfull] at hi
  · left
    push Not at ha
    have hcount := jobCount_step h ha
    unfold submitted at hi ⊢
    rwa [hcount] at hi

/-- The counters of a job: the slices of the quanta that ended before `exit`, and no waiting. -/
theorem Run.slices_eq (h : Run ncpu history s) (i : Fin maxJobs) :
    (s.submitted i → (s.job i).runTimeSlices =
        steps (fun u => u.Stops i ∧ u.shm.schedulerRunning = true) history ∧ (s.job i).waitTimeSlices = 0) ∧
      (¬s.submitted i → steps (fun u => u.Stops i ∧ u.shm.schedulerRunning = true) history = 0) := by
  induction h with
  | init hne => exact ⟨fun hi => absurd hi (Nat.not_lt_zero _), fun _ => rfl⟩
  | @step history s a hrun henabled ih =>
    have hinv := hrun.inv
    rw [steps_snoc]
    by_cases hold : s.submitted i
    · obtain ⟨hrun', hwait'⟩ := slices_step hinv hold a
      obtain ⟨ihrun, ihwait⟩ := ih.1 hold
      have hkept : (a.step s).submitted i := by
        cases a with
        | submit pid prog => exact (submit_job hold).1
        | exit => exact hold
        | finish j => exact hold
        | schedule =>
          have hcount := jobCount_step hinv (a := .schedule) (by simp)
          unfold submitted at hold ⊢
          rwa [hcount]
      refine ⟨fun _ => ⟨?_, hwait'.trans ihwait⟩, fun hnot => absurd hkept hnot⟩
      rw [hrun', ihrun]
    · have hidle : ¬s.Stops i := fun hstops => hold (hinv.queued i (List.mem_of_mem_take hstops.2))
      rw [if_neg fun hc => hidle hc.2.1, ih.2 hold]
      refine ⟨fun hi => ?_, fun _ => rfl⟩
      exact (submitted_step hinv a hi).resolve_left hold

/-- Each quantum of a job's stay either schedules it or passes it over. -/
theorem Run.stay_eq (h : Run ncpu history s) (i : Fin maxJobs) :
    stayQuanta history i = runQuanta history i + waitQuanta history i := by
  induction h with
  | init hne => rfl
  | @step history s a hrun henabled ih =>
    have hinv := hrun.inv
    unfold stayQuanta runQuanta waitQuanta at ih ⊢
    rw [steps_snoc, steps_snoc, steps_snoc, ih]
    by_cases hhosts : a = .schedule ∧ s.Hosts i
    · obtain ⟨ha, hstart, hi, hlife⟩ := hhosts
      have hready : (s.job i).state = .ready := by
        cases hstate : (s.job i).state with
        | ready => rfl
        | running =>
          have hstop := ((hinv.running i hi).mp hstate).1
          rw [hstart] at hstop
          cases hstop
        | finished => exact absurd (hinv.ended i hi hstate) hlife
      by_cases hpick : i ∈ s.readyQueue.take s.shm.ncpu
      · simp [ha, Hosts, Picks, PassesOver, hstart, hi, hlife, hpick]
        omega
      · simp [ha, Hosts, Picks, PassesOver, hstart, hi, hlife, hpick, hready]
        omega
    · have hpick : ¬(a = .schedule ∧ s.Picks i ∧ s.life i ≠ .ended) := by
        rintro ⟨ha, ⟨hstart, hmem⟩, hlife⟩
        exact hhosts ⟨ha, hstart, hinv.queued i (List.mem_of_mem_take hmem), hlife⟩
      have hpass : ¬(a = .schedule ∧ s.PassesOver i) := by
        rintro ⟨ha, hstart, hi, -, hlife, -⟩
        exact hhosts ⟨ha, hstart, hi, hlife⟩
      simp only [if_neg hhosts, if_neg hpick, if_neg hpass, Nat.add_zero]

end OsSuite.Scheduler
