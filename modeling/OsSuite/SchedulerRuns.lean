import OsSuite.Scheduler

/-! The invariant of the job table over runs of the shell and the scheduler. -/

namespace OsSuite.Scheduler

variable {s t u : World} {i j : Fin maxJobs} {ncpu : Nat} {history : List (World × Action)}

namespace World

/-- What a loop of the scheduler leaves alone: who the jobs are, and which have ended. -/
structure Keeps (s t : World) : Prop where
  pid : ∀ i, (t.job i).pid = (s.job i).pid
  jobCount : t.shm.jobCount = s.shm.jobCount
  ncpu : t.shm.ncpu = s.shm.ncpu
  schedulerRunning : t.shm.schedulerRunning = s.shm.schedulerRunning
  parent : t.os.parent = s.os.parent
  shellPid : t.shellPid = s.shellPid
  schedPid : t.schedPid = s.schedPid
  readyQueue : t.readyQueue = s.readyQueue
  running : t.running = s.running
  ended : ∀ p, s.os.life p = .ended → t.os.life p = .ended
  unborn : ∀ p, t.os.life p = .unborn ↔ s.os.life p = .unborn

theorem Keeps.refl (s : World) : s.Keeps s :=
  ⟨fun _ => rfl, rfl, rfl, rfl, rfl, rfl, rfl, rfl, rfl, fun _ h => h, fun _ => Iff.rfl⟩

theorem Keeps.trans (h : s.Keeps t) (h' : t.Keeps u) : s.Keeps u :=
  ⟨fun i => (h'.pid i).trans (h.pid i), h'.jobCount.trans h.jobCount, h'.ncpu.trans h.ncpu,
    h'.schedulerRunning.trans h.schedulerRunning, h'.parent.trans h.parent,
    h'.shellPid.trans h.shellPid, h'.schedPid.trans h.schedPid, h'.readyQueue.trans h.readyQueue,
    h'.running.trans h.running, fun p hp => h'.ended p (h.ended p hp),
    fun p => (h'.unborn p).trans (h.unborn p)⟩

theorem Keeps.submitted_iff (h : s.Keeps t) : t.submitted i ↔ s.submitted i := by
  rw [submitted, submitted, h.jobCount]

theorem kill_life (os : Os) (p q : Pid) (sig : Signal) :
    (os.life q = .ended → (os.kill p sig).life q = .ended) ∧
      ((os.kill p sig).life q = .unborn ↔ os.life q = .unborn) := by
  by_cases hq : q = p
  · subst hq
    unfold Os.kill
    simp only [Function.update_self]
    cases sig <;> cases hlife : os.life q <;> simp
  · simp [Os.kill, Function.update_of_ne hq]

theorem signal_keeps (s : World) (i : Fin maxJobs) (sig : Signal) : s.Keeps (s.signal i sig) :=
  ⟨fun _ => rfl, rfl, rfl, rfl, rfl, rfl, rfl, rfl, rfl, fun p => (kill_life s.os _ p sig).1,
    fun p => (kill_life s.os _ p sig).2⟩

theorem setJob_self (s : World) (i : Fin maxJobs) (job : Job) : (s.setJob i job).job i = job :=
  Function.update_self _ _ _

theorem setJob_other (s : World) (job : Job) (h : j ≠ i) : (s.setJob i job).job j = s.job j :=
  Function.update_of_ne h _ _

theorem setJob_keeps {job : Job} (hpid : job.pid = (s.job i).pid) : s.Keeps (s.setJob i job) := by
  refine ⟨fun j => ?_, rfl, rfl, rfl, rfl, rfl, rfl, rfl, rfl, fun _ h => h, fun _ => Iff.rfl⟩
  by_cases hj : j = i
  · rw [hj, setJob_self, hpid]
  · rw [setJob_other s job hj]

theorem startJob_keeps (s : World) (i : Fin maxJobs) : s.Keeps (s.startJob i) :=
  (signal_keeps s i .cont).trans (setJob_keeps rfl)

theorem stopJob_keeps (s : World) (i : Fin maxJobs) : s.Keeps (s.stopJob i) := by
  unfold stopJob
  split
  · have hset : s.Keeps (s.setJob i { s.job i with state := .finished }) := setJob_keeps rfl
    dsimp only
    split
    · exact hset
    · exact hset.trans (signal_keeps _ i .kill)
  · exact (signal_keeps s i .stop).trans (setJob_keeps rfl)

theorem startJobs_keeps (q : List (Fin maxJobs)) (s : World) : s.Keeps (q.foldl startJob s) := by
  induction q generalizing s with
  | nil => exact .refl s
  | cons i q ih => exact (startJob_keeps s i).trans (ih _)

theorem startJobs_state (q : List (Fin maxJobs)) (s : World) (j : Fin maxJobs) :
    ((q.foldl startJob s).job j).state = if j ∈ q then .running else (s.job j).state := by
  induction q generalizing s with
  | nil => rfl
  | cons i q ih =>
    rw [List.foldl_cons, ih]
    by_cases hq : j ∈ q
    · rw [if_pos hq, if_pos (List.mem_cons_of_mem i hq)]
    · rw [if_neg hq]
      by_cases hji : j = i
      · subst hji
        rw [if_pos List.mem_cons_self]
        exact congrArg Job.state (setJob_self _ _ _)
      · rw [if_neg fun hmem => (List.mem_cons.mp hmem).elim hji hq]
        exact congrArg Job.state (setJob_other _ _ hji)

theorem stopJob_state_self (s : World) (i : Fin maxJobs) :
    ((s.stopJob i).job i).state = if s.retires i then .finished else .ready := by
  unfold stopJob
  by_cases h : s.retires i
  · rw [if_pos h, if_pos h]
    dsimp only
    split
    · exact congrArg Job.state (setJob_self _ _ _)
    · exact congrArg Job.state (setJob_self _ _ _)
  · rw [if_neg h, if_neg h]
    exact congrArg Job.state (setJob_self _ _ _)

theorem stopJob_other (s : World) (h : j ≠ i) : (s.stopJob i).job j = s.job j := by
  unfold stopJob
  split
  · dsimp only
    split
    · exact setJob_other s _ h
    · exact setJob_other s _ h
  · exact setJob_other _ _ h

/-- The jobs were forked by the shell, not by the scheduler. -/
structure Forked (s : World) : Prop where
  apart : s.shellPid ≠ s.schedPid
  pos : ∀ i, s.submitted i → 0 < (s.job i).pid
  parent : ∀ i, s.submitted i → s.os.parent (s.job i).pid = s.shellPid

theorem Forked.keeps (h : s.Forked) (hk : s.Keeps t) : t.Forked := by
  refine ⟨?_, fun i hi => ?_, fun i hi => ?_⟩
  · rw [hk.shellPid, hk.schedPid]
    exact h.apart
  · rw [hk.pid]
    exact h.pos i (hk.submitted_iff.mp hi)
  · rw [hk.pid, hk.parent, hk.shellPid]
    exact h.parent i (hk.submitted_iff.mp hi)

/-- So `waitpid` never reports one to the scheduler. -/
theorem Forked.retires_iff (h : s.Forked) (hi : s.submitted i) :
    s.retires i ↔ s.shm.schedulerRunning = false := by
  refine ⟨fun hretires => hretires.resolve_left fun hwait => ?_, Or.inr⟩
  unfold Os.waitpid at hwait
  split at hwait
  · rename_i hchild
    exact h.apart ((h.parent i hi).symm.trans hchild.1)
  · have hpos := h.pos i hi
    rw [← hwait] at hpos
    exact absurd hpos (by decide)

theorem stopJob_ended (s : World) (i : Fin maxJobs) (hexit : s.shm.schedulerRunning = false)
    (hborn : s.life i ≠ .unborn) : (s.stopJob i).os.life (s.job i).pid = .ended := by
  have hpid : ((s.setJob i { s.job i with state := .finished }).job i).pid = (s.job i).pid := by
    rw [setJob_self]
  have hkilled : s.stopJob i = (s.setJob i { s.job i with state := .finished }).signal i .kill := by
    have hretires : s.retires i := Or.inr hexit
    unfold stopJob
    rw [if_pos hretires, hexit]
    rfl
  have hos : (s.setJob i { s.job i with state := .finished }).os = s.os := rfl
  rw [hkilled, signal, hpid, hos]
  unfold life at hborn
  unfold Os.kill
  simp only [Function.update_self]
  cases hlife : s.os.life (s.job i).pid with
  | unborn => exact absurd hlife hborn
  | executing => rfl
  | stopped => rfl
  | ended => rfl

/-- What the end of a quantum does to the jobs that have run. -/
structure Stopped (s : World) (q new : List (Fin maxJobs)) (t : World × List (Fin maxJobs)) : Prop where
  keeps : s.Keeps t.1
  state : ∀ j, (t.1.job j).state =
    if j ∈ q then (if s.shm.schedulerRunning then .ready else .finished) else (s.job j).state
  new : t.2 = new ++ if s.shm.schedulerRunning then q else []
  ended : s.shm.schedulerRunning = false → ∀ j ∈ q, s.life j ≠ .unborn → t.1.life j = .ended

theorem Forked.stopped (h : s.Forked) {q new : List (Fin maxJobs)} (hq : ∀ i ∈ q, s.submitted i) :
    s.Stopped q new (q.foldl stopRound (s, new)) := by
  induction q generalizing s new with
  | nil => exact ⟨.refl s, fun _ => rfl, by split <;> simp, fun _ j hj => absurd hj List.not_mem_nil⟩
  | cons i q ih =>
    have hk := stopJob_keeps s i
    have hi := hq i List.mem_cons_self
    have hretires := h.retires_iff hi
    have hrest := @ih _ (h.keeps hk) (if s.retires i then new else new ++ [i]) fun j hj =>
      hk.submitted_iff.mpr (hq j (List.mem_cons_of_mem i hj))
    have hrunning := hk.schedulerRunning
    refine ⟨hk.trans hrest.keeps, fun j => ?_, ?_, fun hexit j hj hborn => ?_⟩
    · rw [List.foldl_cons]
      change ((q.foldl stopRound (s.stopJob i, _)).1.job j).state = _
      rw [hrest.state, hrunning]
      by_cases hjq : j ∈ q
      · rw [if_pos hjq, if_pos (List.mem_cons_of_mem i hjq)]
      · rw [if_neg hjq]
        by_cases hji : j = i
        · subst hji
          rw [if_pos List.mem_cons_self, stopJob_state_self]
          cases hrun : s.shm.schedulerRunning with
          | true => rw [if_neg (by rw [hretires, hrun]; decide), if_pos rfl]
          | false => rw [if_pos (hretires.mpr hrun), if_neg (by decide)]
        · rw [if_neg fun hmem => (List.mem_cons.mp hmem).elim hji hjq, stopJob_other s hji]
    · rw [List.foldl_cons]
      change (q.foldl stopRound (s.stopJob i, _)).2 = _
      rw [hrest.new, hrunning]
      cases hrun : s.shm.schedulerRunning with
      | true => rw [if_neg (by rw [hretires, hrun]; decide), if_pos rfl, if_pos rfl]; simp
      | false => rw [if_pos (hretires.mpr hrun)]; simp
    · change (q.foldl stopRound (s.stopJob i, _)).1.life j = .ended
      by_cases hji : j = i
      · subst hji
        rw [life, hrest.keeps.pid, hk.pid]
        exact hrest.keeps.ended _ (stopJob_ended s j hexit hborn)
      · have hjq := (List.mem_cons.mp hj).resolve_left hji
        refine hrest.ended (hrunning.trans hexit) j hjq ?_
        rw [life, hk.pid]
        exact fun hu => hborn ((hk.unborn _).mp hu)

end World

open World

/-- The invariant between the stages. -/
structure Inv (s : World) : Prop where
  forked : s.Forked
  count : s.shm.jobCount ≤ maxJobs
  born : ∀ i, s.submitted i → s.life i ≠ .unborn
  ended : ∀ i, s.submitted i → (s.job i).state = .finished → s.life i = .ended
  queued : ∀ i ∈ s.readyQueue, s.submitted i
  nodup : s.readyQueue.Nodup
  ready : s.stage = .start → ∀ i ∈ s.readyQueue, (s.job i).state = .ready
  running : ∀ i, s.submitted i → ((s.job i).state = .running ↔ s.stage = .stop ∧ i ∈ s.quantum)

theorem Inv.init {shellPid schedPid : Pid} (hne : shellPid ≠ schedPid) :
    Inv (World.init ncpu shellPid schedPid) := by
  have hnone : ∀ i, ¬(World.init ncpu shellPid schedPid).submitted i := fun i => Nat.not_lt_zero _
  exact ⟨⟨hne, fun i hi => absurd hi (hnone i), fun i hi => absurd hi (hnone i)⟩, Nat.zero_le _,
    fun i hi => absurd hi (hnone i), fun i hi => absurd hi (hnone i), fun i hi => absurd hi List.not_mem_nil,
    List.nodup_nil, nofun, fun i hi => absurd hi (hnone i)⟩

theorem Inv.submit (h : Inv s) {pid : Pid} {prog : String} (hpos : 0 < pid)
    (hnew : s.os.life pid = .unborn) : Inv (s.submit pid prog) := by
  unfold World.submit
  split
  · rename_i hlt
    have hfresh : ∀ i, s.submitted i → (s.job i).pid ≠ pid := by
      rintro i hi rfl
      exact h.born i hi hnew
    let new : Fin maxJobs := ⟨s.shm.jobCount, hlt⟩
    let job : Job := ⟨pid, prog, .ready, 0, 0⟩
    have hself : Function.update s.shm.jobs new job new = job := Function.update_self _ _ _
    have hold : ∀ i : Fin maxJobs, i.val < s.shm.jobCount + 1 → i ≠ new → s.submitted i ∧
        Function.update s.shm.jobs new job i = s.job i := by
      intro i hi hne
      have hval : i.val ≠ s.shm.jobCount := fun he => hne (Fin.ext he)
      exact ⟨show i.val < _ by omega, Function.update_of_ne hne _ _⟩
    refine ⟨⟨h.forked.apart, fun i hi => ?_, fun i hi => ?_⟩, hlt, fun i hi => ?_, fun i hi hstate => ?_,
      fun i hi => Nat.lt_succ_of_lt (h.queued i hi), h.nodup, fun hstage i hi => ?_, fun i hi => ?_⟩
    · by_cases hne : i = new
      · change 0 < (Function.update s.shm.jobs new job i).pid
        rw [hne, hself]
        exact hpos
      · obtain ⟨hsub, hjob⟩ := hold i hi hne
        change 0 < (Function.update s.shm.jobs new job i).pid
        rw [hjob]
        exact h.forked.pos i hsub
    · by_cases hne : i = new
      · change Function.update s.os.parent pid s.shellPid (Function.update s.shm.jobs new job i).pid = _
        rw [hne, hself]
        exact Function.update_self _ _ _
      · obtain ⟨hsub, hjob⟩ := hold i hi hne
        change Function.update s.os.parent pid s.shellPid (Function.update s.shm.jobs new job i).pid = _
        rw [hjob, Function.update_of_ne (hfresh i hsub)]
        exact h.forked.parent i hsub
    · by_cases hne : i = new
      · change Function.update s.os.life pid .executing (Function.update s.shm.jobs new job i).pid ≠ _
        rw [hne, hself, Function.update_self]
        decide
      · obtain ⟨hsub, hjob⟩ := hold i hi hne
        change Function.update s.os.life pid .executing (Function.update s.shm.jobs new job i).pid ≠ _
        rw [hjob, Function.update_of_ne (hfresh i hsub)]
        exact h.born i hsub
    · change (Function.update s.shm.jobs new job i).state = _ at hstate
      by_cases hne : i = new
      · rw [hne, hself] at hstate
        cases hstate
      · obtain ⟨hsub, hjob⟩ := hold i hi hne
        change Function.update s.os.life pid .executing (Function.update s.shm.jobs new job i).pid = _
        rw [hjob] at hstate ⊢
        rw [Function.update_of_ne (hfresh i hsub)]
        exact h.ended i hsub hstate
    · have hne : i ≠ new := fun he => Nat.lt_irrefl _ (he ▸ h.queued i hi : s.submitted new)
      change (Function.update s.shm.jobs new job i).state = _
      rw [Function.update_of_ne hne]
      exact h.ready hstage i hi
    · change (Function.update s.shm.jobs new job i).state = _ ↔ _
      by_cases hne : i = new
      · rw [hne, hself]
        refine ⟨nofun, fun hq => ?_⟩
        exact absurd (h.queued new (List.mem_of_mem_take hq.2)) (Nat.lt_irrefl _)
      · obtain ⟨hsub, hjob⟩ := hold i hi hne
        rw [hjob]
        exact h.running i hsub
  · exact h

theorem Inv.exit (h : Inv s) : Inv s.exit :=
  ⟨⟨h.forked.apart, h.forked.pos, h.forked.parent⟩, h.count, h.born, h.ended, h.queued, h.nodup, h.ready,
    h.running⟩

theorem Inv.finish (h : Inv s) (i : Fin maxJobs) : Inv (s.finish i) := by
  have hlife : ∀ p, s.os.life p ≠ .unborn → (s.finish i).os.life p ≠ .unborn := by
    intro p hp
    by_cases hpi : p = (s.job i).pid
    · subst hpi
      change Function.update s.os.life (s.job i).pid .ended (s.job i).pid ≠ _
      rw [Function.update_self]
      decide
    · change Function.update s.os.life (s.job i).pid .ended p ≠ _
      rw [Function.update_of_ne hpi]
      exact hp
  have hended : ∀ p, s.os.life p = .ended → (s.finish i).os.life p = .ended := by
    intro p hp
    change Function.update s.os.life (s.job i).pid .ended p = _
    by_cases hpi : p = (s.job i).pid
    · rw [hpi, Function.update_self]
    · rw [Function.update_of_ne hpi, hp]
  exact ⟨⟨h.forked.apart, h.forked.pos, h.forked.parent⟩, h.count, fun j hj => hlife _ (h.born j hj),
    fun j hj hstate => hended _ (h.ended j hj hstate), h.queued, h.nodup, h.ready, h.running⟩

theorem Inv.stage (h : Inv s) {stage : Stage} (hs : s.stage ≠ .stop) (hstop : stage ≠ .stop)
    (hstart : stage ≠ .start) : Inv { s with stage := stage } := by
  refine ⟨⟨h.forked.apart, h.forked.pos, h.forked.parent⟩, h.count, h.born, h.ended, h.queued, h.nodup,
    fun he => absurd he hstart, fun i hi => ?_⟩
  have hidle : (s.job i).state ≠ .running := fun hrun => hs ((h.running i hi).mp hrun).1
  exact ⟨fun hrun => absurd hrun hidle, fun hq => absurd hq.1 hstop⟩

theorem mem_readyJobs : i ∈ s.readyJobs ↔ s.submitted i ∧ (s.job i).state = .ready := by
  simp [readyJobs]

theorem Inv.rebuild (h : Inv s) (hs : s.stage ≠ .stop) {stage : Stage} (hstop : stage ≠ .stop) :
    Inv { s with readyQueue := s.readyJobs, stage := stage } := by
  refine ⟨⟨h.forked.apart, h.forked.pos, h.forked.parent⟩, h.count, h.born, h.ended,
    fun i hi => (mem_readyJobs.mp hi).1, (List.nodup_finRange _).filter _,
    fun _ i hi => (mem_readyJobs.mp hi).2, fun i hi => ?_⟩
  have hidle : (s.job i).state ≠ .running := fun hrun => hs ((h.running i hi).mp hrun).1
  exact ⟨fun hrun => absurd hrun hidle, fun hq => absurd hq.1 hstop⟩

theorem Inv.start (h : Inv s) (hs : s.stage = .start) (n : Nat) :
    Inv { (s.readyQueue.take n).foldl startJob s with running := n, stage := .stop } := by
  have hk := startJobs_keeps (s.readyQueue.take n) s
  have hstate := startJobs_state (s.readyQueue.take n) s
  obtain ⟨hapart, hpos, hparent⟩ := h.forked.keeps hk
  refine ⟨⟨hapart, hpos, hparent⟩, by rw [hk.jobCount]; exact h.count, fun i hi => ?_,
    fun i hi hfinished => ?_, fun i hi => ?_, by rw [hk.readyQueue]; exact h.nodup, nofun, fun i hi => ?_⟩
  · have hborn := h.born i (hk.submitted_iff.mp hi)
    change ((s.readyQueue.take n).foldl startJob s).life i ≠ _
    rw [life, hk.pid]
    exact fun hu => hborn ((hk.unborn _).mp hu)
  · change (((s.readyQueue.take n).foldl startJob s).job i).state = _ at hfinished
    change ((s.readyQueue.take n).foldl startJob s).life i = _
    rw [hstate] at hfinished
    split at hfinished
    · cases hfinished
    · rw [life, hk.pid]
      exact hk.ended _ (h.ended i (hk.submitted_iff.mp hi) hfinished)
  · change i ∈ ((s.readyQueue.take n).foldl startJob s).readyQueue at hi
    rw [hk.readyQueue] at hi
    exact hk.submitted_iff.mpr (h.queued i hi)
  · have hquantum : ({ (s.readyQueue.take n).foldl startJob s with running := n, stage := .stop } :
        World).quantum = s.readyQueue.take n := by
      rw [quantum, hk.readyQueue]
    rw [hquantum]
    change (((s.readyQueue.take n).foldl startJob s).job i).state = _ ↔ _
    rw [hstate]
    have hidle : (s.job i).state ≠ .running := by
      intro hrun
      have hstop := ((h.running i (hk.submitted_iff.mp hi)).mp hrun).1
      rw [hs] at hstop
      cases hstop
    split
    · rename_i hmem
      exact ⟨fun _ => ⟨rfl, hmem⟩, fun _ => rfl⟩
    · rename_i hmem
      exact ⟨fun hrun => absurd hrun hidle, fun hq => absurd hq.2 hmem⟩

theorem schedule_stop (hs : s.stage = .stop) : s.schedule =
    { (s.quantum.foldl stopRound (s, [])).1 with
      readyQueue := (s.quantum.foldl stopRound (s, [])).2 ++ s.readyQueue.drop s.running
      stage := .test } := by
  unfold schedule
  rw [hs]

theorem Inv.stopped (h : Inv s) : s.Stopped s.quantum [] (s.quantum.foldl stopRound (s, [])) :=
  h.forked.stopped fun i hi => h.queued i (List.mem_of_mem_take hi)

theorem Inv.stop (h : Inv s) (hs : s.stage = .stop) : Inv s.schedule := by
  rw [schedule_stop hs]
  obtain ⟨hk, hstate, hnew, hended⟩ := h.stopped
  generalize s.quantum.foldl stopRound (s, []) = t at hk hstate hnew hended
  obtain ⟨hapart, hpos, hparent⟩ := h.forked.keeps hk
  have hqueue : t.2 ++ s.readyQueue.drop s.running = s.readyQueue ∨
      t.2 ++ s.readyQueue.drop s.running = s.readyQueue.drop s.running := by
    rw [hnew]
    split
    · exact Or.inl (List.take_append_drop _ _)
    · exact Or.inr rfl
  have hsub : (t.2 ++ s.readyQueue.drop s.running).Sublist s.readyQueue := by
    rcases hqueue with he | he <;> rw [he]
    exact List.drop_sublist _ _
  refine ⟨⟨hapart, hpos, hparent⟩, by rw [hk.jobCount]; exact h.count, fun i hi => ?_,
    fun i hi hfinished => ?_, fun i hi => ?_, h.nodup.sublist hsub, nofun, fun i hi => ?_⟩
  · change t.1.life i ≠ _
    rw [life, hk.pid]
    exact fun hu => h.born i (hk.submitted_iff.mp hi) ((hk.unborn _).mp hu)
  · change (t.1.job i).state = _ at hfinished
    change t.1.life i = _
    have hi' := hk.submitted_iff.mp hi
    rw [hstate] at hfinished
    split at hfinished
    · rename_i hmem
      cases hrun : s.shm.schedulerRunning with
      | true =>
        rw [hrun, if_pos rfl] at hfinished
        cases hfinished
      | false => exact hended hrun i hmem (h.born i hi')
    · rw [life, hk.pid]
      exact hk.ended _ (h.ended i hi' hfinished)
  · exact hk.submitted_iff.mpr (h.queued i (hsub.subset hi))
  · refine ⟨fun hrun => ?_, fun hq => nomatch hq.1⟩
    change (t.1.job i).state = _ at hrun
    rw [hstate] at hrun
    split at hrun
    · split at hrun <;> cases hrun
    · rename_i hmem
      exact absurd ((h.running i (hk.submitted_iff.mp hi)).mp hrun).2 hmem

theorem Inv.schedule (h : Inv s) : Inv s.schedule := by
  cases hs : s.stage with
  | test =>
    unfold World.schedule
    rw [hs]
    dsimp only
    split
    · exact h.stage (by rw [hs]; decide) (by decide) (by decide)
    · exact h.stage (by rw [hs]; decide) (by decide) (by decide)
  | rebuild =>
    unfold World.schedule
    rw [hs]
    exact h.rebuild (by rw [hs]; decide) (by split <;> decide)
  | idle =>
    unfold World.schedule
    rw [hs]
    exact h.stage (by rw [hs]; decide) (by decide) (by decide)
  | start =>
    unfold World.schedule
    rw [hs]
    exact h.start hs _
  | stop => exact h.stop hs
  | left =>
    unfold World.schedule
    rw [hs]
    exact h

theorem Run.inv (h : Run ncpu history s) : Inv s := by
  induction h with
  | init hne => exact .init hne
  | @step history s a _ henabled ih =>
    cases a with
    | submit pid prog =>
      obtain ⟨-, hpos, -, -, hnew⟩ := henabled
      exact ih.submit hpos hnew
    | exit => exact ih.exit
    | finish i => exact ih.finish i
    | schedule => exact ih.schedule

/-- The state after a list of actions, and the history of getting there. -/
def final (s : World) (actions : List Action) : World := actions.foldl (fun s a => a.step s) s

def trail (s : World) : List Action → List (World × Action)
  | [] => []
  | a :: actions => (s, a) :: trail (a.step s) actions

def AllEnabled (s : World) (actions : List Action) : Prop := ∀ x ∈ trail s actions, x.2.Enabled x.1

instance (s : World) (actions : List Action) : Decidable (AllEnabled s actions) :=
  inferInstanceAs (Decidable (∀ x ∈ trail s actions, _))

theorem trail_snoc (s : World) (actions : List Action) (a : Action) :
    trail s (actions ++ [a]) = trail s actions ++ [(final s actions, a)] := by
  induction actions generalizing s with
  | nil => rfl
  | cons b actions ih => exact congrArg ((s, b) :: ·) (ih (b.step s))

theorem Run.trail {actions : List Action} (h : Run ncpu history s) (henabled : AllEnabled s actions) :
    Run ncpu (history ++ trail s actions) (final s actions) := by
  induction actions generalizing s history with
  | nil =>
    rw [Scheduler.trail, List.append_nil]
    exact h
  | cons a actions ih =>
    have hnext := Run.step h (henabled (s, a) List.mem_cons_self)
    have hrest := ih hnext fun x hx => henabled x (List.mem_cons_of_mem _ hx)
    rw [List.append_assoc] at hrest
    exact hrest

theorem Run.ofActions {actions : List Action} (henabled : AllEnabled (World.init ncpu 1 2) actions) :
    Run ncpu (Scheduler.trail (World.init ncpu 1 2) actions) (final (World.init ncpu 1 2) actions) := by
  have hrun := Run.trail (.init (by decide)) henabled
  rw [List.nil_append] at hrun
  exact hrun

end OsSuite.Scheduler
