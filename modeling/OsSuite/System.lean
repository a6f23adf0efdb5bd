import OsSuite.ProgramSteps
import OsSuite.KernelRun

/-! The kernel with the programs of its processes. What GPID_PROCESS and the shell do for one
another is noted along a run. -/

namespace OsSuite.Grass

open Earth (Pid PageInfoTable)
open Rendezvous (Label Call waiting)

/-- What happens between GPID_PROCESS and the shell. -/
inductive Note where
  /-- GPID_PROCESS receives a PROC_SPAWN. -/
  | spawn (req : Content)
  /-- `app_spawn` makes its process ready. -/
  | ready (pid : Pid)
  /-- GPID_PROCESS handles a PROC_EXIT. -/
  | exit (pid : Pid)
  /-- GPID_PROCESS handles a PROC_KILLALL. -/
  | killall
  /-- GPID_PROCESS calls `sys_send` to the shell. -/
  | send (m : Content)
  /-- The first `sys_recv` of the shell ends. -/
  | reply (m : Content)
  /-- The second `sys_recv` of the shell ends. -/
  | release

structure System (U : Type) where
  kernel : Kernel
  programs : Programs U

variable {U : Type}

namespace Programs

/-- The step that the program of the current process takes. -/
def next (conduct : Conduct U) (k : Kernel) (ps : Programs U) : Action → Option (Programs U)
  | .trap t =>
    if t.mcause &&& 0x80000000 ≠ 0 then some ps else ps.call conduct k.curr.pid t.syscall
  | .procAlloc =>
    if k.curr.pid = gpidProcess then
      (ps.process.alloc (pidOf (k.lastPid + 1))).map fun s => { ps with process := s }
    else none
  | .procSetReady pid =>
    if k.curr.pid = gpidProcess then
      (ps.process.setReady pid).map fun s => { ps with process := s }
    else none
  | .procFree pid =>
    if k.curr.pid = gpidProcess then (ps.process.free pid).map fun s => { ps with process := s }
    else none

def after (conduct : Conduct U) (ps : Programs U) : Label Pid Content → Programs U
  | .meet s r m => ps.hear conduct s r m
  | .call _ _ => ps
  | .kill _ => ps

def noteLabel (ps : Programs U) : Label Pid Content → List Note
  | .call p (.send r m) => if p = gpidProcess ∧ r = gpidShell then [.send m] else []
  | .call _ (.recv _) => []
  | .meet _ r m =>
    if r = gpidProcess then
      match ps.process.pc with
      | .receiving => if msgType m = procSpawn then [.spawn m] else []
      | _ => []
    else if r = gpidShell then
      match ps.shell with
      | .receiving _ => [.reply m]
      | .waiting => [.release]
      | _ => []
    else []
  | .kill _ => []

def afterAll (conduct : Conduct U) (ps : Programs U) (ls : List (Label Pid Content)) : Programs U :=
  ls.foldl (after conduct) ps

def notes (conduct : Conduct U) (ps : Programs U) : List (Label Pid Content) → List Note
  | [] => []
  | l :: ls => ps.noteLabel l ++ (ps.after conduct l).notes conduct ls

/-- What the direct calls of GPID_PROCESS are noted as. -/
def noteAction (ps : Programs U) : Action → List Note
  | .procSetReady pid =>
    match ps.process.pc with
    | .read _ _ => [.ready pid]
    | _ => []
  | .procFree pid =>
    match ps.process.pc with
    | .handling _ req => if msgType req = procExit then [.exit pid] else [.killall]
    | _ => []
  | _ => []

end Programs

/-- The rendezvous that a step adds to the trace. -/
def Kernel.labels (k k' : Kernel) : List (Label Pid Content) := k'.trace.drop k.trace.length

namespace System

/-- A step with its notes, if the program of the current process takes it. -/
def step (env : Env) (conduct : Conduct U) (S : System U) (a : Action) :
    Option (Except Fatal (System U × List Note)) :=
  (S.programs.next conduct S.kernel a).map fun ps => (a.step env S.kernel).map fun k =>
    (⟨k, ps.afterAll conduct (S.kernel.labels k)⟩,
      S.programs.noteAction a ++ ps.notes conduct (S.kernel.labels k))

end System

/-- The runs of the system, with their notes. -/
inductive Session (env : Env) (conduct : Conduct U) (condition : System U → Action → Prop) :
    System U → List Note → Prop where
  | boot {table : PageInfoTable} {k : Kernel} (shellWaiting : Bool)
    (h : Kernel.grassEntry env table = .ok k) :
    Session env conduct condition ⟨k, .boot conduct shellWaiting⟩ []
  | step {S S' : System U} {ns ms : List Note} {a : Action} (h : Session env conduct condition S ns)
    (hcondition : condition S a) (hstep : S.step env conduct a = some (.ok (S', ms))) :
    Session env conduct condition S' (ns ++ ms)

section Replay

variable {env : Env} {conduct : Conduct U} {condition : System U → Action → Prop}
  [∀ S a, Decidable (condition S a)]

/-- One step of a session with its notes so far, if the action meets what the session asks of it. -/
def System.follow (condition : System U → Action → Prop) [∀ S a, Decidable (condition S a)] (env : Env)
    (conduct : Conduct U) (s : System U × List Note) (a : Action) : Option (System U × List Note) :=
  if condition s.1 a then
    ((s.1.step env conduct a).bind Except.toOption).map fun r => (r.1, s.2 ++ r.2)
  else none

/-- The session of a list of actions from boot, with no page in use. -/
def System.replay (condition : System U → Action → Prop) [∀ S a, Decidable (condition S a)] (env : Env)
    (conduct : Conduct U) (actions : List Action) : Option (System U × List Note) :=
  (Kernel.grassEntry env fun _ => Earth.PageInfo.zero).toOption.bind fun k =>
    actions.foldlM (System.follow condition env conduct) (⟨k, .boot conduct false⟩, [])

theorem Session.foldlM {actions : List Action} {S S' : System U} {ns ns' : List Note}
    (h : Session env conduct condition S ns)
    (hsteps : actions.foldlM (System.follow condition env conduct) (S, ns) = some (S', ns')) :
    Session env conduct condition S' ns' := by
  induction actions generalizing S ns with
  | nil =>
    cases hsteps
    exact h
  | cons a actions ih =>
    rw [List.foldlM_cons] at hsteps
    obtain ⟨⟨S₁, ns₁⟩, hfollow, hrest⟩ := Option.bind_eq_some_iff.mp hsteps
    unfold System.follow at hfollow
    split at hfollow
    · rename_i hcondition
      obtain ⟨⟨S₂, ms⟩, hstep, he⟩ := Option.map_eq_some_iff.mp hfollow
      cases he
      obtain ⟨e, hstep, hok⟩ := Option.bind_eq_some_iff.mp hstep
      rw [ok_of_toOption hok] at hstep
      exact ih (h.step hcondition hstep) hrest
    · cases hfollow

theorem Session.replay {actions : List Action} {S : System U} {ns : List Note}
    (h : System.replay condition env conduct actions = some (S, ns)) :
    Session env conduct condition S ns := by
  obtain ⟨k, hboot, hsteps⟩ := Option.bind_eq_some_iff.mp h
  exact Session.foldlM (.boot false (ok_of_toOption hboot)) hsteps

end Replay

/-- A message of which only the type matters. -/
def message (type : UInt8) : Content := fun i => if i.val = 0 then type else 0

/-- A PROC_SPAWN of `c`, with a second argument that may be `&`. -/
def spawnMessage (background : Bool) : Content := fun i =>
  if i.val = 4 then if background then 2 else 1
  else if i.val = 8 then 99
  else if i.val = 40 ∧ background then 38
  else 0

def sendTo (p : Pid) (content : Content) : Action := ecall .send p content

def receiveFrom (p : Pid) : Action := ecall .recv p fun _ => 0

/-- The servers and the shell start, and wait or are at their first command. -/
def bootActions : List Action :=
  [.procAlloc, .procSetReady 2, receiveFrom 2, sendTo 1 (message 9), .procAlloc, .procSetReady 3, receiveFrom 3,
    receiveFrom gpidAll, sendTo 1 (message 9), .procAlloc, .procSetReady 4, receiveFrom gpidAll, receiveFrom gpidAll]

/-- The shell spawns process 5, and receives the reply; GPID_FILE waits for a request. -/
def spawnActions (background : Bool) : List Action :=
  [sendTo 1 (spawnMessage background), sendTo 3 (message 1), sendTo 1 (message 0), receiveFrom 1, receiveFrom 3,
    sendTo 3 (message 1), receiveFrom gpidAll, sendTo 1 (message 0), receiveFrom 3, .procAlloc,
    sendTo 3 (message 1), receiveFrom gpidAll, sendTo 1 (message 0), receiveFrom 3, .procSetReady 5,
    sendTo 4 (message 0), receiveFrom gpidAll]

end OsSuite.Grass
