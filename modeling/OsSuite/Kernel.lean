import OsSuite.Process

/-! The two entries of the kernel, rendezvous IPC and `proc_yield`, with the
calls that GPID_PROCESS makes directly, as steps of one core. -/

namespace OsSuite.Grass

open Earth (Pid PageInfoTable)

def excpIdEcallU : UInt32 := 8
def excpIdEcallM : UInt32 := 11
def intrIdTimer : UInt32 := 7

def appsEntry : UInt32 := 0x80200000
def appsArg : UInt32 := 0x80300000

namespace Kernel

def curr (k : Kernel) : Process := k.procSet k.currProcIdx

/-- The slot that the loop of `proc_try_send` finds. -/
def receiverSlot (k : Kernel) (receiver : Pid) : Option Slot :=
  scannedSlots.find? fun i => (k.procSet i).pid = receiver ∧ (k.procSet i).status ≠ .unused

def procTrySend (k : Kernel) (sender : Slot) : Except Fatal Kernel :=
  let s := k.procSet sender
  match k.receiverSlot s.syscall.receiver with
  | none => .error (.unknownReceiver s.syscall.receiver)
  | some i =>
    let dst := k.procSet i
    if ¬(dst.syscall.type = .recv ∧ dst.syscall.status = .pending) then .ok k
    else if ¬(dst.syscall.sender = gpidAll ∨ dst.syscall.sender = s.pid) then .ok k
    else
      let syscall := { dst.syscall with
        status := .done
        sender := s.pid
        content := s.syscall.content }
      .ok (k.set i { dst with syscall := syscall })

def procTryRecv (k : Kernel) (receiver : Slot) : Kernel :=
  let r := k.procSet receiver
  if r.syscall.status = .pending then k
  else ((k.record (.copyOut r.pid r.syscall)).procSetRunnable r.pid).procSetRunnable r.syscall.sender

def procTrySyscall (k : Kernel) (i : Slot) : Except Fatal Kernel :=
  match (k.procSet i).syscall.type with
  | .recv => .ok (k.procTryRecv i)
  | .send => k.procTrySend i
  | type => .error (.unknownSyscall type)

/-- The scan tries a blocked system call again. -/
def retry (k : Kernel) (i : Slot) : Except Fatal Kernel :=
  if (k.procSet i).status = .pendingSyscall then k.procTrySyscall i else .ok k

/-- The current process is charged for its run, and the levels are reset when it is time. -/
def account (env : Env) (k : Kernel) : Kernel :=
  let k := if k.curr.status = .running then k.procSetRunnable k.curr.pid else k
  let currentTime := k.mtimeGet env
  let k := k.mtimeRead
  let k :=
    if k.currProcIdx.val > 0 ∧ k.currProcIdx.val ≤ maxNprocess ∧ k.curr.status ≠ .unused ∧
        k.curr.timeLastScheduled > 0 then
      k.set k.currProcIdx (mlfqUpdateLevel k.curr (currentTime - k.curr.timeLastScheduled))
    else k
  k.mlfqResetLevel env

end Kernel

structure Scan where
  kernel : Kernel
  lowestLevel : Nat
  nextIdx : Slot

def Process.Dispatchable (p : Process) : Prop := p.status = .ready ∨ p.status = .runnable

instance (p : Process) : Decidable p.Dispatchable := inferInstanceAs (Decidable (_ ∨ _))

def Scan.visit (s : Scan) (i : Slot) : Except Fatal Scan := do
  let k ← s.kernel.retry i
  let p := k.procSet i
  if p.Dispatchable ∧ p.mlfqLevel < s.lowestLevel then return ⟨k, p.mlfqLevel, i⟩
  else return { s with kernel := k }

/-- The slots in the order in which `proc_yield` visits them, the current one last. -/
def scanOrder (currProcIdx : Slot) : List Slot :=
  (List.range' 1 maxNprocess).map fun i => Fin.ofNat 17 ((currProcIdx.val + i) % maxNprocess)

/-- The times of scheduling that `proc_yield` records. -/
def Process.stamp (p : Process) (currentTime : UInt64) : Process :=
  { p with
    timeLastScheduled := currentTime
    timeFirstScheduled := if p.timeFirstScheduled = 0 then currentTime else p.timeFirstScheduled }

/-- A newly created process starts at its entry, with argc and argv. -/
def Process.enter (p : Process) : Process :=
  if p.status = .ready then
    { p with
      savedRegisters := Function.update (Function.update p.savedRegisters 0 appsArg) 1 (appsArg + 4)
      mepc := appsEntry }
  else p

namespace Kernel

def scan (k : Kernel) : Except Fatal Scan :=
  (scanOrder k.currProcIdx).foldlM Scan.visit ⟨k, 5, Fin.ofNat 17 maxNprocess⟩

def dispatch (k : Kernel) (currentTime : UInt64) (nextIdx : Slot) : Kernel :=
  let p := (k.procSet nextIdx).stamp currentTime
  let k := { (k.set nextIdx p).record (.mmuSwitch p.pid) with currProcIdx := nextIdx }
  ((k.set nextIdx p.enter).procSetRunning p.pid).record .timerReset

def procYield (env : Env) (k : Kernel) : Except Fatal Kernel := do
  let currentTime := k.mtimeGet env
  let s ← (k.account env).scan
  if s.nextIdx.val < maxNprocess then return s.kernel.dispatch currentTime s.nextIdx
  else throw .noProcessToRun

end Kernel

/-- A trap of the running process: its context, the cause, and the system call
struct that its memory holds at SYSCALL_ARG. -/
structure Trap where
  mepc : UInt32
  savedRegisters : Fin 32 → UInt32
  mcause : UInt32
  syscall : Syscall

/-- The struct is copied from user space, its status set to PENDING. -/
def Process.accept (p : Process) (syscall : Syscall) : Process :=
  { p with syscall := { syscall with status := .pending } }

def Process.advance (p : Process) : Process := { p with mepc := p.mepc + 4 }

namespace Kernel

/-- The system call of the current process is taken over, and tried at once. -/
def acceptSyscall (k : Kernel) (syscall : Syscall) : Except Fatal Kernel :=
  let p := k.curr.accept syscall
  let k := ((k.set k.currProcIdx p).record (.copyIn p.pid p.syscall)).procSetPending p.pid
  let k := k.set k.currProcIdx k.curr.advance
  k.procTrySyscall k.currProcIdx

def excpEntry (env : Env) (k : Kernel) (id : UInt32) (syscall : Syscall) : Except Fatal Kernel :=
  if id ≥ excpIdEcallU ∧ id ≤ excpIdEcallM then do
    let k ← k.acceptSyscall syscall
    k.procYield env
  else .error (.exception id)

def intrEntry (env : Env) (k : Kernel) (id : UInt32) : Except Fatal Kernel :=
  if id ≠ intrIdTimer then .error (.interrupt id)
  else
    let k :=
      if k.currProcIdx.val > 0 ∧ k.currProcIdx.val ≤ maxNprocess then
        k.set k.currProcIdx { k.curr with noInterrupts := k.curr.noInterrupts + 1 }
      else k
    k.procYield env

def kernelEntry (env : Env) (k : Kernel) (t : Trap) : Except Fatal Kernel :=
  let p := { k.curr with mepc := t.mepc, savedRegisters := t.savedRegisters }
  let k := k.set k.currProcIdx p
  if t.mcause &&& 0x80000000 ≠ 0 then k.intrEntry env (t.mcause &&& 0x3FF)
  else k.excpEntry env t.mcause t.syscall

def grassEntry (env : Env) (table : PageInfoTable) : Except Fatal Kernel := do
  let (pid, k) ← (Kernel.zero table).procAlloc env
  let k := { k.procSetRunning pid with currProcIdx := 1 }
  return k.record (.mmuSwitch gpidProcess)

end Kernel

/-- What happens on the core: a trap of the current process, or a direct call
while GPID_PROCESS is the current process. -/
inductive Action where
  | trap (t : Trap)
  | procAlloc
  | procSetReady (pid : Pid)
  | procFree (pid : Pid)

/-- GPID_PROCESS makes a process ready that it has allocated, and never frees itself:
it frees senders of messages it has received, or all user processes. -/
def Action.Allowed (k : Kernel) : Action → Prop
  | .trap _ => True
  | .procAlloc => k.curr.pid = gpidProcess
  | .procSetReady pid => k.curr.pid = gpidProcess ∧
    ∃ i, (k.procSet i).pid = pid ∧ (k.procSet i).status = .loading
  | .procFree pid => k.curr.pid = gpidProcess ∧ pid ≠ gpidProcess

instance (k : Kernel) (a : Action) : Decidable (a.Allowed k) := by
  unfold Action.Allowed
  split <;> infer_instance

def Action.step (env : Env) (k : Kernel) : Action → Except Fatal Kernel
  | .trap t => k.kernelEntry env t
  | .procAlloc => (·.2) <$> k.procAlloc env
  | .procSetReady pid => .ok (k.procSetReady pid)
  | .procFree pid => .ok (k.procFree env pid)

/-- The runs from boot whose steps all meet a condition, none of them reaching FATAL. -/
inductive Run (env : Env) (condition : Kernel → Action → Prop) : Kernel → Prop where
  | boot {table : PageInfoTable} {k : Kernel} (h : Kernel.grassEntry env table = .ok k) :
    Run env condition k
  | step {k k' : Kernel} {a : Action} (h : Run env condition k) (hallowed : a.Allowed k)
    (hcondition : condition k a) (hstep : a.step env k = .ok k') : Run env condition k'

/-- The counter of `proc_alloc` does not wrap. -/
def Unwrapped (k : Kernel) (a : Action) : Prop := a = .procAlloc → k.lastPid + 1 ≠ 0

end OsSuite.Grass
