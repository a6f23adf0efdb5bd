import OsSuite.Programs

/-! What a call of each program can be, case by case. -/

namespace OsSuite.Grass

open Earth (Pid)

variable {syscall : Syscall}

def Reading.loads : Reading → Option Pid
  | .root => none
  | .bin => none
  | .header pid => some pid
  | .image pid => some pid

namespace ProcessAt

def loads : ProcessAt → Option Pid
  | .load _ pid => some pid
  | .asked r _ => r.loads
  | .awaiting r _ => r.loads
  | .read r _ => r.loads
  | .allocated pid _ => some pid
  | _ => none

/-- The next block to be read. -/
def asks : ProcessAt → Option (Reading × Content)
  | .handling _ req => if msgType req = procSpawn then some (.root, req) else none
  | .read .root req => some (.bin, req)
  | .allocated pid req => some (.header pid, req)
  | .read (.header pid) req => some (.image pid, req)
  | .read (.image pid) req => some (.image pid, req)
  | _ => none

theorem asks_loads {pc : ProcessAt} {r : Reading} {req : Content} (h : pc.asks = some (r, req)) :
    pc.loads = r.loads := by
  unfold asks at h
  split at h
  · split at h <;> cases h
    rfl
  · cases h
    rfl
  · cases h
    rfl
  · cases h
    rfl
  · cases h
    rfl
  · cases h

/-- The reply to PROC_SPAWN that is due. -/
def replies : ProcessAt → Option (UInt32 × Content)
  | .read .bin req => some (cmdError, req)
  | .loaded _ req => some (cmdOk, req)
  | _ => none

end ProcessAt

namespace ProcessServer

variable {s s' : ProcessServer} {syscall : Syscall} {pid : Pid}

/-- The second message to the shell is due. -/
def Releases (s : ProcessServer) (sender : Pid) : Prop := s.shellWaiting = true ∧ s.appPid = sender

/-- What a system call of GPID_PROCESS can be. -/
inductive Calls (s : ProcessServer) (syscall : Syscall) : ProcessServer → Prop where
  | greet (app : Pid) (hpc : s.pc = .started app) (hrecv : syscall.ReceivesFrom app) :
    Calls s syscall { s with pc := .greeting app }
  | listen (hpc : s.pc = .loop ∨ ∃ sender req, s.pc = .freed sender req ∧ ¬s.Releases sender)
    (hrecv : syscall.ReceivesFrom gpidAll) : Calls s syscall { s with pc := .receiving }
  | ask (r : Reading) (req : Content) (hpc : s.pc.asks = some (r, req))
    (hsend : syscall.SendsTo gpidFile) (htype : msgType syscall.content = fileRead) :
    Calls s syscall { s with pc := .asked r req }
  | await (r : Reading) (req : Content) (hpc : s.pc = .asked r req)
    (hrecv : syscall.ReceivesFrom gpidFile) : Calls s syscall { s with pc := .awaiting r req }
  | reply (type : UInt32) (req : Content) (hpc : s.pc.replies = some (type, req))
    (hsend : syscall.SendsTo gpidShell) (htype : msgType syscall.content = type) :
    Calls s syscall
      { s with pc := .loop, shellWaiting := decide (¬Background req ∧ type = cmdOk) }
  | release (sender : Pid) (req : Content) (hpc : s.pc = .freed sender req) (hwaits : s.Releases sender)
    (hsend : syscall.SendsTo gpidShell) (htype : msgType syscall.content = msgType req) :
    Calls s syscall { s with pc := .loop }

theorem ask_some {r : Reading} {req : Content} (h : s.ask r req syscall = some s') :
    syscall.SendsTo gpidFile ∧ msgType syscall.content = fileRead ∧
      s' = { s with pc := .asked r req } := by
  unfold ask at h
  split at h
  · rename_i hsend
    cases h
    exact ⟨hsend.1, hsend.2, rfl⟩
  · cases h

theorem reply_some {type : UInt32} {req : Content} (h : s.reply type req syscall = some s') :
    syscall.SendsTo gpidShell ∧ msgType syscall.content = type ∧ s' =
      { s with pc := .loop, shellWaiting := decide (¬Background req ∧ type = cmdOk) } := by
  unfold reply at h
  split at h
  · rename_i hsend
    cases h
    exact ⟨hsend.1, hsend.2, rfl⟩
  · cases h

theorem listen_some (h : s.listen syscall = some s') :
    syscall.ReceivesFrom gpidAll ∧ s' = { s with pc := .receiving } := by
  unfold listen at h
  split at h
  · rename_i hrecv
    cases h
    exact ⟨hrecv, rfl⟩
  · cases h

theorem calls_of_ask {r : Reading} {req : Content} (hpc : s.pc.asks = some (r, req))
    (h : s.ask r req syscall = some s') : s.Calls syscall s' := by
  obtain ⟨hsend, htype, rfl⟩ := ask_some h
  exact .ask r req hpc hsend htype

theorem calls_of_reply {type : UInt32} {req : Content} (hpc : s.pc.replies = some (type, req))
    (h : s.reply type req syscall = some s') : s.Calls syscall s' := by
  obtain ⟨hsend, htype, rfl⟩ := reply_some h
  exact .reply type req hpc hsend htype

theorem calls_of_listen (hpc : s.pc = .loop ∨ ∃ sender req, s.pc = .freed sender req ∧ ¬s.Releases sender)
    (h : s.listen syscall = some s') : s.Calls syscall s' := by
  obtain ⟨hrecv, rfl⟩ := listen_some h
  exact .listen hpc hrecv

theorem call_some (h : s.call syscall = some s') : s.Calls syscall s' := by
  unfold call at h
  cases hpc : s.pc with
  | started app =>
    rw [hpc] at h
    dsimp only at h
    split at h
    · rename_i hrecv
      cases h
      exact .greet app hpc hrecv
    · cases h
  | loop =>
    rw [hpc] at h
    exact calls_of_listen (Or.inl hpc) h
  | handling sender req =>
    rw [hpc] at h
    dsimp only at h
    split at h
    · rename_i htype
      refine calls_of_ask ?_ h
      rw [hpc, ProcessAt.asks, if_pos htype]
    · cases h
  | asked r req =>
    rw [hpc] at h
    dsimp only at h
    split at h
    · rename_i hrecv
      cases h
      exact .await r req hpc hrecv
    · cases h
  | read r req =>
    rw [hpc] at h
    cases r with
    | root => exact calls_of_ask (by rw [hpc]; rfl) h
    | bin => exact calls_of_reply (by rw [hpc]; rfl) h
    | header pid => exact calls_of_ask (by rw [hpc]; rfl) h
    | image pid => exact calls_of_ask (by rw [hpc]; rfl) h
  | allocated pid req =>
    rw [hpc] at h
    exact calls_of_ask (by rw [hpc]; rfl) h
  | loaded pid req =>
    rw [hpc] at h
    exact calls_of_reply (by rw [hpc]; rfl) h
  | freed sender req =>
    rw [hpc] at h
    dsimp only at h
    split at h
    · rename_i hwaits
      split at h
      · rename_i hsend
        cases h
        exact .release sender req hpc hwaits hsend.1 hsend.2
      · cases h
    · rename_i hwaits
      exact calls_of_listen (Or.inr ⟨sender, req, hpc, hwaits⟩) h
  | spawn app =>
    rw [hpc] at h
    cases h
  | load app pid =>
    rw [hpc] at h
    cases h
  | greeting app =>
    rw [hpc] at h
    cases h
  | receiving =>
    rw [hpc] at h
    cases h
  | awaiting r req =>
    rw [hpc] at h
    cases h

theorem alloc_some (h : s.alloc pid = some s') :
    (∃ app, s.pc = .spawn app ∧ s' = { s with pc := .load app pid }) ∨
      ∃ req, s.pc = .read .bin req ∧ s' = { s with pc := .allocated pid req, appPid := pid } := by
  unfold alloc at h
  split at h
  · rename_i app hpc
    cases h
    exact Or.inl ⟨app, hpc, rfl⟩
  · rename_i req hpc
    cases h
    exact Or.inr ⟨req, hpc, rfl⟩
  · cases h

theorem setReady_some (h : s.setReady pid = some s') :
    (∃ app, s.pc = .load app pid ∧
      s' = { s with pc := if app = gpidShell then .loop else .started app }) ∨
    ∃ r req, s.pc = .read r req ∧ r.loads = some pid ∧ s' = { s with pc := .loaded pid req } := by
  unfold setReady at h
  split at h
  · rename_i app p hpc
    split at h
    · cases h
    · rename_i hp
      refine Or.inl ⟨app, by rw [hpc, not_not.mp hp], ?_⟩
      split at h <;> cases h
      · rename_i happ
        rw [if_pos happ]
      · rename_i happ
        rw [if_neg happ]
  · rename_i p req hpc
    split at h
    · rename_i hp
      cases h
      exact Or.inr ⟨.header p, req, hpc, congrArg some hp.symm, by rw [hp]⟩
    · cases h
  · rename_i p req hpc
    split at h
    · rename_i hp
      cases h
      exact Or.inr ⟨.image p, req, hpc, congrArg some hp.symm, by rw [hp]⟩
    · cases h
  · cases h

theorem free_some (h : s.free pid = some s') :
    ∃ sender req, s.pc = .handling sender req ∧
      (msgType req = procExit ∧ pid = sender ∧ s' = { s with pc := .freed sender req } ∨
        msgType req = procKillall ∧ pid = gpidAll ∧ s' = { s with pc := .loop }) := by
  unfold free at h
  split at h
  · rename_i sender req hpc
    refine ⟨sender, req, hpc, ?_⟩
    split at h
    · rename_i htype
      split at h
      · rename_i hp
        cases h
        exact Or.inl ⟨htype, hp, rfl⟩
      · cases h
    · split at h
      · rename_i htype
        split at h
        · rename_i hp
          cases h
          exact Or.inr ⟨htype, hp, rfl⟩
        · cases h
      · cases h
  · cases h

theorem Calls.loads (h : s.Calls syscall s') (hpid : s'.pc.loads = some pid) : s.pc.loads = some pid := by
  cases h with
  | greet app hpc hrecv => cases hpid
  | listen hpc hrecv => cases hpid
  | ask r req hpc hsend htype =>
    rw [ProcessAt.asks_loads hpc]
    exact hpid
  | await r req hpc hrecv =>
    rw [hpc]
    exact hpid
  | reply type req hpc hsend htype => cases hpid
  | release sender req hpc hwaits hsend htype => cases hpid

theorem hear_loads {sender : Pid} {m : Content} (hpid : (s.hear sender m).pc.loads = some pid) :
    s.pc.loads = some pid := by
  unfold hear at hpid
  split at hpid
  · cases hpid
  · cases hpid
  · rename_i r req hpc
    rw [hpc]
    exact hpid
  · exact hpid

theorem Calls.not_handling {sender : Pid} {req : Content} (h : s.Calls syscall s') :
    s'.pc ≠ .handling sender req := by
  cases h <;> nofun

theorem hear_handling {q sender : Pid} {m req : Content} (hpc : (s.hear q m).pc = .handling sender req) :
    s.pc = .receiving ∧ sender = q ∧ req = m ∨ s.pc = .handling sender req := by
  unfold hear at hpc
  split at hpc
  · cases hpc
  · rename_i hs
    cases hpc
    exact Or.inl ⟨hs, rfl, rfl⟩
  · cases hpc
  · exact Or.inr hpc

end ProcessServer

namespace Shell

variable {s s' : Shell}

/-- The shell is back at its prompt. -/
inductive Prompts : Shell → Prop where
  | command : Prompts .command
  | replied (req : Content) (type : UInt32) (h : type ≠ cmdOk ∨ Background req) :
    Prompts (.replied req type)

/-- What a system call of the shell can be. -/
inductive Calls (s : Shell) (syscall : Syscall) : Shell → Prop where
  | killall (hs : s.Prompts) (hsend : syscall.SendsTo gpidProcess)
    (htype : msgType syscall.content = procKillall) : Calls s syscall .command
  | spawn (hs : s.Prompts) (hsend : syscall.SendsTo gpidProcess)
    (htype : msgType syscall.content = procSpawn) : Calls s syscall (.requested syscall.content)
  | first (req : Content) (hs : s = .requested req) (hrecv : syscall.ReceivesFrom gpidProcess) :
    Calls s syscall (.receiving req)
  | second (req : Content) (hs : s = .replied req cmdOk) (hreq : ¬Background req)
    (hrecv : syscall.ReceivesFrom gpidProcess) : Calls s syscall .waiting

theorem calls_of_issue (hs : s.Prompts) (h : issue syscall = some s') : s.Calls syscall s' := by
  unfold issue at h
  split at h
  · cases h
  · rename_i hsend
    split at h
    · rename_i htype
      cases h
      exact .killall hs (not_not.mp hsend) htype
    · split at h
      · rename_i htype
        cases h
        exact .spawn hs (not_not.mp hsend) htype.1
      · cases h

theorem call_some (h : s.call syscall = some s') : s.Calls syscall s' := by
  cases s with
  | command => exact calls_of_issue .command h
  | requested req =>
    dsimp only [call] at h
    split at h
    · rename_i hrecv
      cases h
      exact .first req rfl hrecv
    · cases h
  | replied req type =>
    dsimp only [call] at h
    split at h
    · rename_i hdone
      exact calls_of_issue (.replied req type hdone) h
    · rename_i hdone
      obtain ⟨htype, hreq⟩ := not_or.mp hdone
      split at h
      · rename_i hrecv
        cases h
        exact .second req (by rw [not_not.mp htype]) hreq hrecv
      · cases h
  | receiving req => cases h
  | waiting => cases h

end Shell

namespace Responder

variable {s s' : Responder}

/-- What a system call of GPID_TERMINAL or GPID_FILE can be. -/
inductive Calls (s : Responder) (syscall : Syscall) : Responder → Prop where
  | greet (hs : s = .boot) (hsend : syscall.SendsTo gpidProcess) : Calls s syscall .ready
  | listen (hs : s = .ready) (hrecv : syscall.ReceivesFrom gpidAll) : Calls s syscall .receiving
  | reply (client : Pid) (hs : s = .serving client) (hsend : syscall.SendsTo client) :
    Calls s syscall .ready

theorem call_some (h : s.call syscall = some s') : s.Calls syscall s' := by
  cases s with
  | boot =>
    dsimp only [call] at h
    split at h
    · rename_i hsend
      cases h
      exact .greet rfl hsend
    · cases h
  | ready =>
    dsimp only [call] at h
    split at h
    · rename_i hrecv
      cases h
      exact .listen rfl hrecv
    · cases h
  | serving client =>
    dsimp only [call] at h
    split at h
    · rename_i hsend
      cases h
      exact .reply client rfl hsend
    · cases h
  | receiving => cases h
  | fatal => cases h

end Responder

namespace Programs

variable {U : Type} {conduct : Conduct U} {ps ps' : Programs U} {p : Pid}

/-- A pid that none of the servers and not the shell has. -/
def UserPid (p : Pid) : Prop := p ≠ gpidProcess ∧ p ≠ gpidTerminal ∧ p ≠ gpidFile ∧ p ≠ gpidShell

/-- Whose system call it is. -/
inductive Calls (conduct : Conduct U) (ps : Programs U) (p : Pid) (syscall : Syscall) :
    Programs U → Prop where
  | process (hp : p = gpidProcess) (s : ProcessServer) (h : ps.process.Calls syscall s) :
    Calls conduct ps p syscall { ps with process := s }
  | terminal (hp : p = gpidTerminal) (s : Responder) (h : ps.terminal.Calls syscall s) :
    Calls conduct ps p syscall { ps with terminal := s }
  | file (hp : p = gpidFile) (s : Responder) (h : ps.file.Calls syscall s) :
    Calls conduct ps p syscall { ps with file := s }
  | shell (hp : p = gpidShell) (s : Shell) (h : ps.shell.Calls syscall s) :
    Calls conduct ps p syscall { ps with shell := s }
  | user (hp : UserPid p) (u : U) (h : conduct.call (ps.user p) syscall = some u) :
    Calls conduct ps p syscall { ps with user := Function.update ps.user p u }

theorem call_some {syscall : Syscall} (h : ps.call conduct p syscall = some ps') :
    ps.Calls conduct p syscall ps' := by
  unfold call at h
  split at h
  · rename_i hp
    obtain ⟨s, hs, rfl⟩ := Option.map_eq_some_iff.mp h
    exact .process hp s (ProcessServer.call_some hs)
  · rename_i hprocess
    split at h
    · rename_i hp
      obtain ⟨s, hs, rfl⟩ := Option.map_eq_some_iff.mp h
      exact .terminal hp s (Responder.call_some hs)
    · rename_i hterminal
      split at h
      · rename_i hp
        obtain ⟨s, hs, rfl⟩ := Option.map_eq_some_iff.mp h
        exact .file hp s (Responder.call_some hs)
      · rename_i hfile
        split at h
        · rename_i hp
          obtain ⟨s, hs, rfl⟩ := Option.map_eq_some_iff.mp h
          exact .shell hp s (Shell.call_some hs)
        · rename_i hshell
          obtain ⟨u, hu, rfl⟩ := Option.map_eq_some_iff.mp h
          exact .user ⟨hprocess, hterminal, hfile, hshell⟩ u hu

/-! Who hears a message. -/

section Hear

variable {s r : Pid} {m : Content}

theorem hear_process (hr : r = gpidProcess) :
    (ps.hear conduct s r m).process = ps.process.hear s m := by
  rw [hear, if_pos hr]

theorem hear_process_of_ne (hr : r ≠ gpidProcess) : (ps.hear conduct s r m).process = ps.process := by
  unfold hear
  split
  · contradiction
  · repeat' split
    all_goals rfl

theorem hear_shell_of_ne (hr : r ≠ gpidShell) : (ps.hear conduct s r m).shell = ps.shell := by
  unfold hear
  repeat' split
  all_goals first | contradiction | rfl

theorem hear_user_of_ne (hp : p ≠ r) : (ps.hear conduct s r m).user p = ps.user p := by
  unfold hear
  repeat' split
  all_goals first | rfl | exact Function.update_of_ne hp _ _

end Hear

end Programs

end OsSuite.Grass
