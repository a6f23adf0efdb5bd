import Mathlib

/-! SimpleShell and SimpleScheduler: the job table in shared memory, the processes
that both programs signal, and the stages of the scheduler's loop. -/

namespace OsSuite.Scheduler

abbrev Pid := Int

abbrev maxJobs : Nat := 100

/-- The values 0, 1 and 2 of `state`. -/
inductive JobState where
  | ready
  | running
  | finished
  deriving DecidableEq

structure Job where
  pid : Pid
  name : String
  state : JobState
  runTimeSlices : Nat
  waitTimeSlices : Nat

structure SharedData where
  jobs : Fin maxJobs → Job
  jobCount : Nat
  ncpu : Nat
  schedulerRunning : Bool

/-- A process that has ended stays a zombie: the shell waits for the scheduler alone. -/
inductive Life where
  | unborn
  | executing
  | stopped
  | ended
  deriving DecidableEq

inductive Signal where
  | cont
  | stop
  | kill

structure Os where
  life : Pid → Life
  parent : Pid → Pid

namespace Os

def fork (os : Os) (caller pid : Pid) : Os :=
  ⟨Function.update os.life pid .executing, Function.update os.parent pid caller⟩

def kill (os : Os) (pid : Pid) (sig : Signal) : Os :=
  let life := match sig, os.life pid with
    | .cont, .stopped => .executing
    | .stop, .executing => .stopped
    | .kill, .executing => .ended
    | .kill, .stopped => .ended
    | _, life => life
  { os with life := Function.update os.life pid life }

/-- `waitpid` with WNOHANG, in the process `caller`. -/
def waitpid (os : Os) (caller pid : Pid) : Int :=
  if os.parent pid = caller ∧ os.life pid = .ended then pid else -1

end Os

/-- Where the scheduler stands in its loop. -/
inductive Stage where
  | test
  | rebuild
  | idle
  | start
  | stop
  | left
  deriving DecidableEq

/-- Both programs. The local variables `ready_queue`, up to `queue_len`, and `running` are
those of the scheduler. -/
structure World where
  shm : SharedData
  os : Os
  shellPid : Pid
  schedPid : Pid
  shellExited : Bool
  stage : Stage
  readyQueue : List (Fin maxJobs)
  running : Nat

def Job.zero : Job := ⟨0, "", .ready, 0, 0⟩

/-- The shell has set up the shared memory and forked the scheduler. -/
def World.init (ncpu : Nat) (shellPid schedPid : Pid) : World where
  shm := ⟨fun _ => Job.zero, 0, ncpu, true⟩
  os := Os.fork ⟨fun _ => .unborn, fun _ => 0⟩ shellPid schedPid
  shellPid := shellPid
  schedPid := schedPid
  shellExited := false
  stage := .test
  readyQueue := []
  running := 0

namespace World

variable (s : World)

def job (i : Fin maxJobs) : Job := s.shm.jobs i

def submitted (i : Fin maxJobs) : Prop := i.val < s.shm.jobCount

instance (i : Fin maxJobs) : Decidable (s.submitted i) := inferInstanceAs (Decidable (_ < _))

def life (i : Fin maxJobs) : Life := s.os.life (s.job i).pid

def setJob (i : Fin maxJobs) (job : Job) : World :=
  { s with shm := { s.shm with jobs := Function.update s.shm.jobs i job } }

def signal (i : Fin maxJobs) (sig : Signal) : World := { s with os := s.os.kill (s.job i).pid sig }

/-- The command `submit`; `pid` is what `fork` returns. -/
def submit (pid : Pid) (prog : String) : World :=
  if h : s.shm.jobCount < maxJobs then
    { s with
      os := s.os.fork s.shellPid pid
      shm := { s.shm with
        jobs := Function.update s.shm.jobs ⟨s.shm.jobCount, h⟩ ⟨pid, prog, .ready, 0, 0⟩
        jobCount := s.shm.jobCount + 1 } }
  else s

/-- The command `exit`, after which the shell waits for the scheduler. -/
def exit : World :=
  { s with shm := { s.shm with schedulerRunning := false }, shellExited := true }

def finish (i : Fin maxJobs) : World :=
  { s with os := { s.os with life := Function.update s.os.life (s.job i).pid .ended } }

/-- The loop that rebuilds the ready queue. -/
def readyJobs : List (Fin maxJobs) :=
  (List.finRange maxJobs).filter fun i => s.submitted i ∧ (s.job i).state = .ready

def quantum : List (Fin maxJobs) := s.readyQueue.take s.running

def startJob (i : Fin maxJobs) : World :=
  let s := s.signal i .cont
  s.setJob i { s.job i with state := .running }

/-- The job is over, or the scheduler is to stop. -/
def retires (i : Fin maxJobs) : Prop :=
  s.os.waitpid s.schedPid (s.job i).pid = (s.job i).pid ∨ s.shm.schedulerRunning = false

instance (i : Fin maxJobs) : Decidable (s.retires i) := inferInstanceAs (Decidable (_ ∨ _))

/-- The state of a job that has run, at the end of the quantum. -/
def stopJob (i : Fin maxJobs) : World :=
  if s.retires i then
    let running := s.shm.schedulerRunning
    let s := s.setJob i { s.job i with state := .finished }
    if running then s else s.signal i .kill
  else
    let s := s.signal i .stop
    s.setJob i { s.job i with
      runTimeSlices := (s.job i).runTimeSlices + 1
      state := .ready }

/-- One round of the loop at the end of a quantum, with `new_queue`. -/
def stopRound (t : World × List (Fin maxJobs)) (i : Fin maxJobs) : World × List (Fin maxJobs) :=
  (t.1.stopJob i, if t.1.retires i then t.2 else t.2 ++ [i])

/-- The next stage of the scheduler's loop. -/
def schedule : World :=
  match s.stage with
  | .test =>
    if s.shm.schedulerRunning ∨ s.readyQueue.length > 0 then { s with stage := .rebuild }
    else { s with stage := .left }
  | .rebuild =>
    let queue := s.readyJobs
    { s with readyQueue := queue, stage := if queue.length = 0 then .idle else .start }
  | .idle => { s with stage := .test }
  | .start =>
    let running :=
      if s.readyQueue.length < s.shm.ncpu then s.readyQueue.length else s.shm.ncpu
    { (s.readyQueue.take running).foldl startJob s with running := running, stage := .stop }
  | .stop =>
    let (s', newQueue) := s.quantum.foldl stopRound (s, [])
    { s' with readyQueue := newQueue ++ s.readyQueue.drop s.running, stage := .test }
  | .left => s

end World

inductive Action where
  | submit (pid : Pid) (prog : String)
  | exit
  | finish (i : Fin maxJobs)
  | schedule
  deriving DecidableEq

namespace Action

/-- The shell acts until it has exited, a fork returns a new pid, and a process ends only
while it executes. -/
def Enabled (s : World) : Action → Prop
  | .submit pid _ => s.shellExited = false ∧ 0 < pid ∧ pid ≠ s.shellPid ∧ pid ≠ s.schedPid ∧
    s.os.life pid = .unborn
  | .exit => s.shellExited = false
  | .finish i => s.submitted i ∧ s.life i = .executing
  | .schedule => s.stage ≠ .left

instance (s : World) (a : Action) : Decidable (a.Enabled s) := by
  unfold Enabled
  split <;> infer_instance

def step (s : World) : Action → World
  | .submit pid prog => s.submit pid prog
  | .exit => s.exit
  | .finish i => s.finish i
  | .schedule => s.schedule

end Action

/-- A run: the states before each action, with the actions, and the state reached. -/
inductive Run (ncpu : Nat) : List (World × Action) → World → Prop where
  | init {shellPid schedPid : Pid} (hne : shellPid ≠ schedPid) :
    Run ncpu [] (World.init ncpu shellPid schedPid)
  | step {history : List (World × Action)} {s : World} {a : Action} (h : Run ncpu history s)
    (henabled : a.Enabled s) : Run ncpu (history ++ [(s, a)]) (a.step s)

end OsSuite.Scheduler
