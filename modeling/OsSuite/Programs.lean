import OsSuite.Kernel

/-! The programs that run on the kernel: the servers, the shell and the user applications,
each as what it may do next. -/

namespace OsSuite.Grass

open Earth (Pid)

def byteAt (m : Content) (offset : Nat) : UInt8 := if h : offset < 1024 then m ⟨offset, h⟩ else 0

def word (m : Content) (offset : Nat) : UInt32 :=
  (byteAt m offset).toUInt32 ||| (byteAt m (offset + 1)).toUInt32 <<< 8 |||
    (byteAt m (offset + 2)).toUInt32 <<< 16 ||| (byteAt m (offset + 3)).toUInt32 <<< 24

def procSpawn : UInt32 := 0
def procExit : UInt32 := 1
def procKillall : UInt32 := 2

def cmdOk : UInt32 := 0
def cmdError : UInt32 := 1

def termInput : UInt32 := 0
def termOutput : UInt32 := 1

def fileRead : UInt32 := 1

def cmdNargs : Nat := 16
def cmdArgLen : Nat := 32
def termBufSize : UInt32 := 512

/-- The first field of every request and reply. -/
def msgType (m : Content) : UInt32 := word m 0

/-- The fields of a `struct proc_request`. -/
def argc (m : Content) : Nat := (word m 4).toNat

def argv (m : Content) (i j : Nat) : UInt8 := byteAt m (8 + cmdArgLen * i + j)

/-- The last argument starts with `&`. -/
def Background (m : Content) : Prop := argv m (argc m - 1) 0 = 38

instance (m : Content) : Decidable (Background m) := inferInstanceAs (Decidable (_ = _))

/-- `sys_send`. Past the size of the message the content is what was there before. -/
def Syscall.SendsTo (syscall : Syscall) (receiver : Pid) : Prop :=
  syscall.type = .send ∧ syscall.receiver = receiver

/-- `sys_recv`. -/
def Syscall.ReceivesFrom (syscall : Syscall) (sender : Pid) : Prop :=
  syscall.type = .recv ∧ syscall.sender = sender

instance (syscall : Syscall) (p : Pid) : Decidable (syscall.SendsTo p) :=
  inferInstanceAs (Decidable (_ ∧ _))

instance (syscall : Syscall) (p : Pid) : Decidable (syscall.ReceivesFrom p) :=
  inferInstanceAs (Decidable (_ ∧ _))

/-- Where the shell is in its loop. `req` is its own copy of the request. -/
inductive Shell where
  | command
  | requested (req : Content)
  | receiving (req : Content)
  | replied (req : Content) (type : UInt32)
  | waiting

namespace Shell

/-- The next command line that makes a request. `parse_request` accepts a line with at least
one token with 1 to `CMD_NARGS` of them. -/
def issue (syscall : Syscall) : Option Shell :=
  if ¬syscall.SendsTo gpidProcess then none
  else if msgType syscall.content = procKillall then some .command
  else if msgType syscall.content = procSpawn ∧ 1 ≤ argc syscall.content ∧
      argc syscall.content ≤ cmdNargs then some (.requested syscall.content)
  else none

def call : Shell → Syscall → Option Shell
  | .command, syscall => issue syscall
  | .requested req, syscall =>
    if syscall.ReceivesFrom gpidProcess then some (.receiving req) else none
  | .replied req type, syscall =>
    if type ≠ cmdOk ∨ Background req then issue syscall
    else if syscall.ReceivesFrom gpidProcess then some .waiting
    else none
  | .receiving _, _ => none
  | .waiting, _ => none

def hear : Shell → Content → Shell
  | .receiving req, m => .replied req (msgType m)
  | .waiting, _ => .command
  | s, _ => s

end Shell

/-- A server that tells GPID_PROCESS that it has started, then answers requests. -/
inductive Responder where
  | boot
  | ready
  | receiving
  | serving (client : Pid)
  | fatal

inductive Handling where
  | reply
  | done
  | fatal
  deriving DecidableEq

/-- The cases of sys_terminal.c. -/
def handleTerminal (req : Content) : Handling :=
  if word req 4 > termBufSize then .fatal
  else if msgType req = termInput then .reply
  else if msgType req = termOutput then .done
  else .fatal

/-- The cases of sys_file.c. -/
def handleFile (req : Content) : Handling := if msgType req = fileRead then .reply else .fatal

namespace Responder

def call : Responder → Syscall → Option Responder
  | .boot, syscall => if syscall.SendsTo gpidProcess then some .ready else none
  | .ready, syscall => if syscall.ReceivesFrom gpidAll then some .receiving else none
  | .serving client, syscall => if syscall.SendsTo client then some .ready else none
  | .receiving, _ => none
  | .fatal, _ => none

def hear (handle : Content → Handling) : Responder → Pid → Content → Responder
  | .receiving, sender, m =>
    match handle m with
    | .reply => .serving sender
    | .done => .ready
    | .fatal => .fatal
  | s, _, _ => s

end Responder

/-- What `app_spawn` reads a block for: the directory /bin, the program in it, or the image
of the process it has allocated. -/
inductive Reading where
  | root
  | bin
  | header (pid : Pid)
  | image (pid : Pid)

/-- Where GPID_PROCESS is: in `sys_spawn` of a system process, or in the loop of `main`. -/
inductive ProcessAt where
  | spawn (app : Pid)
  | load (app : Pid) (pid : Pid)
  | started (app : Pid)
  | greeting (app : Pid)
  | loop
  | receiving
  | handling (sender : Pid) (req : Content)
  | asked (r : Reading) (req : Content)
  | awaiting (r : Reading) (req : Content)
  | read (r : Reading) (req : Content)
  | allocated (pid : Pid) (req : Content)
  | loaded (pid : Pid) (req : Content)
  | freed (sender : Pid) (req : Content)

/-- GPID_PROCESS with the variables that outlive a request. -/
structure ProcessServer where
  pc : ProcessAt
  appPid : Pid
  shellWaiting : Bool

namespace ProcessServer

def ask (s : ProcessServer) (r : Reading) (req : Content) (syscall : Syscall) : Option ProcessServer :=
  if syscall.SendsTo gpidFile ∧ msgType syscall.content = fileRead then
    some { s with pc := .asked r req }
  else none

/-- The reply to PROC_SPAWN. It overwrites the type of the request, and keeps its arguments. -/
def reply (s : ProcessServer) (type : UInt32) (req : Content) (syscall : Syscall) :
    Option ProcessServer :=
  if syscall.SendsTo gpidShell ∧ msgType syscall.content = type then
    some { s with pc := .loop, shellWaiting := decide (¬Background req ∧ type = cmdOk) }
  else none

def listen (s : ProcessServer) (syscall : Syscall) : Option ProcessServer :=
  if syscall.ReceivesFrom gpidAll then some { s with pc := .receiving } else none

def call (s : ProcessServer) (syscall : Syscall) : Option ProcessServer :=
  match s.pc with
  | .started app =>
    if syscall.ReceivesFrom app then some { s with pc := .greeting app } else none
  | .loop => s.listen syscall
  | .handling _ req => if msgType req = procSpawn then s.ask .root req syscall else none
  | .asked r req =>
    if syscall.ReceivesFrom gpidFile then some { s with pc := .awaiting r req } else none
  | .read .root req => s.ask .bin req syscall
  | .read .bin req => s.reply cmdError req syscall
  | .allocated pid req => s.ask (.header pid) req syscall
  | .read (.header pid) req => s.ask (.image pid) req syscall
  | .read (.image pid) req => s.ask (.image pid) req syscall
  | .loaded _ req => s.reply cmdOk req syscall
  | .freed sender req =>
    if s.shellWaiting ∧ s.appPid = sender then
      if syscall.SendsTo gpidShell ∧ msgType syscall.content = msgType req then
        some { s with pc := .loop }
      else none
    else s.listen syscall
  | _ => none

def alloc (s : ProcessServer) (pid : Pid) : Option ProcessServer :=
  match s.pc with
  | .spawn app => some { s with pc := .load app pid }
  | .read .bin req => some { s with pc := .allocated pid req, appPid := pid }
  | _ => none

def setReady (s : ProcessServer) (pid : Pid) : Option ProcessServer :=
  match s.pc with
  | .load app p =>
    if pid ≠ p then none
    else if app = gpidShell then some { s with pc := .loop }
    else some { s with pc := .started app }
  | .read (.header p) req => if pid = p then some { s with pc := .loaded p req } else none
  | .read (.image p) req => if pid = p then some { s with pc := .loaded p req } else none
  | _ => none

def free (s : ProcessServer) (pid : Pid) : Option ProcessServer :=
  match s.pc with
  | .handling sender req =>
    if msgType req = procExit then
      if pid = sender then some { s with pc := .freed sender req } else none
    else if msgType req = procKillall then
      if pid = gpidAll then some { s with pc := .loop } else none
    else none
  | _ => none

def hear (s : ProcessServer) (sender : Pid) (m : Content) : ProcessServer :=
  match s.pc with
  | .greeting app => { s with pc := .spawn (app + 1) }
  | .receiving => { s with pc := .handling sender m }
  | .awaiting r req => { s with pc := .read r req }
  | _ => s

end ProcessServer

/-- How user applications behave. -/
structure Conduct (U : Type) where
  init : U
  call : U → Syscall → Option U
  hear : U → Pid → Content → U

/-- The programs of all processes, those of the users by pid. -/
structure Programs (U : Type) where
  process : ProcessServer
  terminal : Responder
  file : Responder
  shell : Shell
  user : Pid → U

namespace Programs

variable {U : Type}

/-- The programs before their first step. `shell_waiting` is not initialised. -/
def boot (conduct : Conduct U) (shellWaiting : Bool) : Programs U :=
  ⟨⟨.spawn gpidTerminal, 0, shellWaiting⟩, .boot, .boot, .command, fun _ => conduct.init⟩

def call (conduct : Conduct U) (ps : Programs U) (p : Pid) (syscall : Syscall) : Option (Programs U) :=
  if p = gpidProcess then (ps.process.call syscall).map fun s => { ps with process := s }
  else if p = gpidTerminal then (ps.terminal.call syscall).map fun s => { ps with terminal := s }
  else if p = gpidFile then (ps.file.call syscall).map fun s => { ps with file := s }
  else if p = gpidShell then (ps.shell.call syscall).map fun s => { ps with shell := s }
  else (conduct.call (ps.user p) syscall).map fun u => { ps with user := Function.update ps.user p u }

/-- A receive of `r` ends with the message `m` of `s`. -/
def hear (conduct : Conduct U) (ps : Programs U) (s r : Pid) (m : Content) : Programs U :=
  if r = gpidProcess then { ps with process := ps.process.hear s m }
  else if r = gpidTerminal then { ps with terminal := ps.terminal.hear handleTerminal s m }
  else if r = gpidFile then { ps with file := ps.file.hear handleFile s m }
  else if r = gpidShell then { ps with shell := ps.shell.hear m }
  else { ps with user := Function.update ps.user r (conduct.hear (ps.user r) s m) }

end Programs

end OsSuite.Grass
