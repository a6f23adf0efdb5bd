import OsSuite.SoftTlb

/-! The process table of the grass layer and the functions of process.c. The
clock and the keyboard are read through an environment, calls to the earth layer
and printed statistics are recorded in a log. -/

namespace OsSuite.Grass

open Earth (Pid PageInfoTable)

abbrev maxNprocess : Nat := 16

/-- One of the `MAX_NPROCESS + 1` places of `proc_set`. Place 0 is for idle cores. -/
abbrev Slot := Fin 17

instance slot_neZero : NeZero 17 := ⟨by decide⟩

abbrev gpidAll : Pid := -1
abbrev gpidProcess : Pid := 1
abbrev gpidTerminal : Pid := 2
abbrev gpidFile : Pid := 3
abbrev gpidShell : Pid := 4
abbrev gpidUserStart : Pid := 5

inductive SyscallType where
  | unused
  | recv
  | send
  | other (code : UInt32)
  deriving DecidableEq

inductive SyscallStatus where
  | pending
  | done
  deriving DecidableEq

abbrev Content := Fin 1024 → UInt8

instance registers_neZero : NeZero 32 := ⟨by decide⟩

structure Syscall where
  type : SyscallType
  sender : Pid
  receiver : Pid
  content : Content
  status : SyscallStatus

inductive ProcStatus where
  | unused
  | loading
  | ready
  | running
  | runnable
  | pendingSyscall
  deriving DecidableEq

structure Process where
  pid : Pid
  syscall : Syscall
  status : ProcStatus
  mepc : UInt32
  savedRegisters : Fin 32 → UInt32
  mlfqLevel : Nat
  remainingtOnlevel : UInt64
  currentLevelRuntime : UInt64
  totalRuntime : UInt64
  sleepUntilTime : UInt64
  timeCreated : UInt64
  timeTerminated : UInt64
  cpuRuntime : UInt64
  noInterrupts : Int
  timeFirstScheduled : UInt64
  timeLastScheduled : UInt64

def Syscall.zero : Syscall := ⟨.unused, 0, 0, fun _ => 0, .pending⟩

def Process.zero : Process :=
  ⟨0, Syscall.zero, .unused, 0, fun _ => 0, 0, 0, 0, 0, 0, 0, 0, 0, 0, 0, 0⟩

/-- What `proc_free` prints of a terminated process, as the `int`s it prints. -/
structure Lifecycle where
  pid : Pid
  turnaroundTime : Int32
  responseTime : Int32
  cpuTime : Int32
  noInterrupts : Int

inductive Event where
  | copyIn (pid : Pid) (syscall : Syscall)
  | copyOut (pid : Pid) (syscall : Syscall)
  | terminated (statistics : Lifecycle)
  | mmuFree (pid : Pid)
  | mmuSwitch (pid : Pid)
  | timerReset

inductive Fatal where
  | limitOfProcesses
  | unknownReceiver (pid : Pid)
  | unknownSyscall (type : SyscallType)
  | noProcessToRun
  | exception (id : UInt32)
  | interrupt (id : UInt32)

/-- The results of successive calls of `mtime_get` and `tty_input_empty`. -/
structure Env where
  mtime : Nat → UInt64
  ttyInputEmpty : Nat → Bool

structure Kernel where
  procSet : Slot → Process
  currProcIdx : Slot
  /-- The static `curr_pid` of `proc_alloc`. -/
  lastPid : UInt32
  mlfqLastResetTime : UInt64
  pageInfoTable : PageInfoTable
  mtimeReads : Nat
  ttyReads : Nat
  log : List Event

/-- The slots `0 .. MAX_NPROCESS - 1`, which all loops but that of `proc_alloc` visit. -/
def scannedSlots : List Slot := (List.finRange 17).filter (·.val < maxNprocess)

/-- The slots `1 .. MAX_NPROCESS`, which `proc_alloc` visits. -/
def allocSlots : List Slot := (List.finRange 17).filter (0 < ·.val)

@[simp] theorem mem_scannedSlots {i : Slot} : i ∈ scannedSlots ↔ i.val < 16 := by
  simp [scannedSlots]

@[simp] theorem mem_allocSlots {i : Slot} : i ∈ allocSlots ↔ 0 < i.val := by
  simp [allocSlots]

theorem scannedSlots_sorted : scannedSlots.Pairwise (· < ·) :=
  (List.pairwise_lt_finRange _).filter _

theorem allocSlots_sorted : allocSlots.Pairwise (· < ·) := (List.pairwise_lt_finRange _).filter _

/-- A loop that stops at the first slot with a property. -/
theorem find?_sorted {q : List Slot} (hq : q.Pairwise (· < ·)) {pred : Slot → Bool} {i : Slot} :
    q.find? pred = some i ↔ i ∈ q ∧ pred i = true ∧ ∀ j ∈ q, j < i → pred j = false := by
  induction q with
  | nil => simp
  | cons x q ih =>
    obtain ⟨hx, hq⟩ := List.pairwise_cons.mp hq
    cases hpx : pred x with
    | true =>
      rw [List.find?_cons_of_pos hpx, Option.some.injEq]
      constructor
      · rintro rfl
        refine ⟨List.mem_cons_self, hpx, fun j hj hlt => ?_⟩
        rcases List.mem_cons.mp hj with rfl | hj
        · exact absurd hlt (lt_irrefl j)
        · exact absurd (hx j hj) hlt.asymm
      · rintro ⟨hi, hpi, hbefore⟩
        rcases List.mem_cons.mp hi with rfl | hi
        · rfl
        · have := hbefore x List.mem_cons_self (hx i hi)
          rw [hpx] at this
          cases this
    | false =>
      rw [List.find?_cons_of_neg (by simp [hpx]), ih hq]
      constructor
      · rintro ⟨hi, hpi, hbefore⟩
        refine ⟨List.mem_cons_of_mem _ hi, hpi, fun j hj hlt => ?_⟩
        rcases List.mem_cons.mp hj with rfl | hj
        · exact hpx
        · exact hbefore j hj hlt
      · rintro ⟨hi, hpi, hbefore⟩
        refine ⟨?_, hpi, fun j hj => hbefore j (List.mem_cons_of_mem _ hj)⟩
        rcases List.mem_cons.mp hi with rfl | hi
        · rw [hpx] at hpi
          cases hpi
        · exact hi

def mlfqNlevels : Nat := 5

def mlfqResetPeriod : UInt64 := 10000000

def mlfqLevelRuntime (x : Nat) : UInt64 := UInt64.ofNat ((x + 1) * 100000)

/-- The `int` that `proc_alloc` stores for its unsigned counter. -/
def pidOf (n : UInt32) : Pid := n.toInt32.toInt

def mlfqUpdateLevel (p : Process) (runtime : UInt64) : Process :=
  let charged := { p with
    totalRuntime := p.totalRuntime + runtime
    currentLevelRuntime := p.currentLevelRuntime + runtime
    cpuRuntime := p.cpuRuntime + runtime
    remainingtOnlevel := p.remainingtOnlevel - runtime }
  if charged.remainingtOnlevel ≤ 0 then
    let level := if p.mlfqLevel < mlfqNlevels - 1 then p.mlfqLevel + 1 else p.mlfqLevel
    { charged with
      mlfqLevel := level
      remainingtOnlevel := mlfqLevelRuntime level
      currentLevelRuntime := 0 }
  else charged

/-- The slot as `proc_alloc` leaves it. -/
def Process.claim (p : Process) (pid : Pid) (time : UInt64) : Process :=
  { p with
    pid := pid
    status := .loading
    mlfqLevel := 0
    remainingtOnlevel := mlfqLevelRuntime 0
    currentLevelRuntime := 0
    totalRuntime := 0
    sleepUntilTime := 0
    timeCreated := time
    timeTerminated := 0
    cpuRuntime := 0
    noInterrupts := 0
    timeFirstScheduled := 0
    timeLastScheduled := 0 }

/-- A process that `proc_free` takes for a user process. -/
def Process.LiveUser (p : Process) : Prop := p.pid ≥ gpidUserStart ∧ p.status ≠ .unused

instance (p : Process) : Decidable p.LiveUser := inferInstanceAs (Decidable (_ ∧ _))

def Process.lifecycle (p : Process) : Lifecycle :=
  let turnaroundTime :=
    if p.timeTerminated > p.timeCreated then p.timeTerminated - p.timeCreated else 0
  let responseTime :=
    if p.timeFirstScheduled > 0 then p.timeFirstScheduled - p.timeCreated else 0
  ⟨p.pid, turnaroundTime.toUInt32.toInt32, responseTime.toUInt32.toInt32,
    p.cpuRuntime.toUInt32.toInt32, p.noInterrupts⟩

namespace Kernel

/-- The kernel before `grass_entry`, with the pages of GPID_PROCESS loaded. -/
def zero (table : PageInfoTable) : Kernel := ⟨fun _ => Process.zero, 0, 0, 0, table, 0, 0, []⟩

def set (k : Kernel) (i : Slot) (p : Process) : Kernel :=
  { k with procSet := Function.update k.procSet i p }

def record (k : Kernel) (e : Event) : Kernel := { k with log := k.log ++ [e] }

def mtimeGet (env : Env) (k : Kernel) : UInt64 := env.mtime k.mtimeReads

def mtimeRead (k : Kernel) : Kernel := { k with mtimeReads := k.mtimeReads + 1 }

@[simp] theorem set_self (k : Kernel) (i : Slot) (p : Process) : (k.set i p).procSet i = p :=
  Function.update_self _ _ _

theorem set_of_ne (k : Kernel) {i j : Slot} (p : Process) (h : j ≠ i) :
    (k.set i p).procSet j = k.procSet j := Function.update_of_ne h _ _

theorem set_set (k : Kernel) (i : Slot) (p q : Process) : (k.set i p).set i q = k.set i q := by
  simp only [set, Function.update_idem]

theorem set_record (k : Kernel) (i : Slot) (p : Process) (e : Event) :
    (k.record e).set i p = (k.set i p).record e := rfl

def procSetStatus (k : Kernel) (pid : Pid) (status : ProcStatus) : Kernel :=
  { k with procSet := fun i =>
      if i.val < maxNprocess ∧ (k.procSet i).pid = pid then
        { k.procSet i with status := status }
      else k.procSet i }

def procSetReady (k : Kernel) (pid : Pid) : Kernel := k.procSetStatus pid .ready
def procSetRunning (k : Kernel) (pid : Pid) : Kernel := k.procSetStatus pid .running
def procSetRunnable (k : Kernel) (pid : Pid) : Kernel := k.procSetStatus pid .runnable
def procSetPending (k : Kernel) (pid : Pid) : Kernel := k.procSetStatus pid .pendingSyscall

/-- The slot that `proc_alloc` fills. -/
def unusedSlot (k : Kernel) : Option Slot :=
  allocSlots.find? fun i => (k.procSet i).status = .unused

def procAlloc (env : Env) (k : Kernel) : Except Fatal (Pid × Kernel) :=
  match k.unusedSlot with
  | none => .error .limitOfProcesses
  | some i =>
    let lastPid := k.lastPid + 1
    let p := (k.procSet i).claim (pidOf lastPid) (k.mtimeGet env)
    .ok (pidOf lastPid, { k.mtimeRead.set i p with lastPid := lastPid })

/-- Stamp and print the statistics of a slot. -/
def terminate (env : Env) (k : Kernel) (i : Slot) : Kernel :=
  let p := { k.procSet i with timeTerminated := k.mtimeGet env }
  (k.mtimeRead.set i p).record (.terminated p.lifecycle)

def mmuFree (k : Kernel) (pid : Pid) : Kernel :=
  { k.record (.mmuFree pid) with pageInfoTable := Earth.freePages k.pageInfoTable pid }

/-- The slot that the loop of `proc_free` stops at. -/
def firstUser (k : Kernel) : Option Slot := scannedSlots.find? fun i => (k.procSet i).LiveUser

/-- One round of the loop of `proc_free(GPID_ALL)`. -/
def freeUser (env : Env) (k : Kernel) (i : Slot) : Kernel :=
  if (k.procSet i).LiveUser then
    let k := (k.terminate env i).mmuFree (k.procSet i).pid
    k.set i { k.procSet i with status := .unused }
  else k

def procFree (env : Env) (k : Kernel) (pid : Pid) : Kernel :=
  if pid ≠ gpidAll then
    match k.firstUser with
    | some i => ((k.terminate env i).mmuFree pid).procSetStatus pid .unused
    | none => k
  else scannedSlots.foldl (freeUser env) k

/-- The first half of `mlfq_reset_level`: keyboard input brings the shell to level 0. -/
def resetShell (env : Env) (k : Kernel) : Kernel :=
  let k' := { k with ttyReads := k.ttyReads + 1 }
  if env.ttyInputEmpty k.ttyReads then k'
  else
    match scannedSlots.find? fun i => (k.procSet i).pid = gpidShell with
    | some i => k'.set i { k.procSet i with mlfqLevel := 0 }
    | none => k'

/-- The loop that brings every process to level 0. -/
def resetAll (k : Kernel) : Kernel :=
  { k with procSet := fun i =>
      if i.val < maxNprocess ∧ (k.procSet i).status ≠ .unused then
        { k.procSet i with mlfqLevel := 0 }
      else k.procSet i }

/-- The static `MLFQ_last_reset_time`, set at the first call. -/
def lastResetTime (k : Kernel) (currentTime : UInt64) : UInt64 :=
  if k.mlfqLastResetTime = 0 then currentTime else k.mlfqLastResetTime

def mlfqResetLevel (env : Env) (k : Kernel) : Kernel :=
  let k := k.resetShell env
  let currentTime := k.mtimeGet env
  let lastResetTime := k.lastResetTime currentTime
  if currentTime - lastResetTime ≥ mlfqResetPeriod then
    { k.mtimeRead.resetAll with mlfqLastResetTime := currentTime }
  else { k.mtimeRead with mlfqLastResetTime := lastResetTime }

end Kernel

end OsSuite.Grass
