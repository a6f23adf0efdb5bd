import OsSuite.Receivers
import OsSuite.Wiring

/-! User applications that call the library, and PROC_KILLALL. A server that still owes a
process its reply when that process is killed halts the kernel, and nothing else does for an
unknown receiver. -/

namespace OsSuite.Grass

open Earth (Pid)
open Rendezvous (Label Call Waiting Enabled waiting)

/-- The servers whose replies user applications receive. -/
inductive Server where
  | terminal
  | file

namespace Server

def pid : Server → Pid
  | .terminal => gpidTerminal
  | .file => gpidFile

def handle : Server → Content → Handling
  | .terminal => handleTerminal
  | .file => handleFile

theorem pid_ne_process (server : Server) : server.pid ≠ gpidProcess := by
  cases server <;> decide

theorem pid_ne_shell (server : Server) : server.pid ≠ gpidShell := by
  cases server <;> decide

theorem not_userPid (server : Server) : ¬Programs.UserPid server.pid := by
  cases server with
  | terminal => exact fun h => h.2.1 rfl
  | file => exact fun h => h.2.2.1 rfl

theorem pid_injective {server server' : Server} (h : server.pid = server'.pid) : server = server' := by
  cases server <;> cases server' <;> first | rfl | cases h

end Server

def Programs.responder {U : Type} (ps : Programs U) : Server → Responder
  | .terminal => ps.terminal
  | .file => ps.file

/-- A user application in the functions of servers.c. -/
inductive LibraryApp where
  | running
  | requested (server : Server)
  | receiving (server : Server)
  | exited

namespace LibraryApp

/-- `file_read`, `term_read`, `term_write` and `exit`. -/
def call : LibraryApp → Syscall → Option LibraryApp
  | .running, syscall =>
    if syscall.SendsTo gpidFile ∧ msgType syscall.content = fileRead then some (.requested .file)
    else if syscall.SendsTo gpidTerminal ∧ msgType syscall.content = termInput then
      some (.requested .terminal)
    else if syscall.SendsTo gpidTerminal ∧ msgType syscall.content = termOutput then some .running
    else if syscall.SendsTo gpidProcess ∧ msgType syscall.content = procExit then some .exited
    else none
  | .requested server, syscall =>
    if syscall.ReceivesFrom server.pid then some (.receiving server) else none
  | .receiving _, _ => none
  | .exited, _ => none

def hear : LibraryApp → Pid → Content → LibraryApp
  | .receiving _, _, _ => .running
  | u, _, _ => u

end LibraryApp

def libraryApps : Conduct LibraryApp := ⟨.running, LibraryApp.call, LibraryApp.hear⟩

/-- What a call of a user application can be. -/
inductive LibraryApp.Calls (syscall : Syscall) : LibraryApp → LibraryApp → Prop where
  | read (hsend : syscall.SendsTo gpidFile) (htype : msgType syscall.content = fileRead) :
    Calls syscall .running (.requested .file)
  | input (hsend : syscall.SendsTo gpidTerminal) (htype : msgType syscall.content = termInput) :
    Calls syscall .running (.requested .terminal)
  | output (hsend : syscall.SendsTo gpidTerminal) (htype : msgType syscall.content = termOutput) :
    Calls syscall .running .running
  | exit (hsend : syscall.SendsTo gpidProcess) (htype : msgType syscall.content = procExit) :
    Calls syscall .running .exited
  | receive (server : Server) (hrecv : syscall.ReceivesFrom server.pid) :
    Calls syscall (.requested server) (.receiving server)

theorem LibraryApp.call_some {syscall : Syscall} {u u' : LibraryApp} (h : u.call syscall = some u') :
    Calls syscall u u' := by
  cases u with
  | running =>
    dsimp only [call] at h
    split at h
    · rename_i hread
      cases h
      exact .read hread.1 hread.2
    · split at h
      · rename_i hinput
        cases h
        exact .input hinput.1 hinput.2
      · split at h
        · rename_i houtput
          cases h
          exact .output houtput.1 houtput.2
        · split at h
          · rename_i hexit
            cases h
            exact .exit hexit.1 hexit.2
          · cases h
  | requested server =>
    dsimp only [call] at h
    split at h
    · rename_i hrecv
      cases h
      exact .receive server hrecv
    · cases h
  | receiving server => cases h
  | exited => cases h

theorem libraryApps_civil : libraryApps.Civil (· = .exited) where
  live := by
    rintro u u' syscall h rfl
    cases h
  shell := by
    intro u u' syscall h hsend
    cases LibraryApp.call_some h with
    | read hsend' htype => cases hsend'.2.symm.trans hsend.2
    | input hsend' htype => cases hsend'.2.symm.trans hsend.2
    | output hsend' htype => cases hsend'.2.symm.trans hsend.2
    | exit hsend' htype => cases hsend'.2.symm.trans hsend.2
    | receive server hrecv => cases hrecv.1.symm.trans hsend.1
  exit := by
    intro u u' syscall h hsend
    cases LibraryApp.call_some h with
    | read hsend' htype => cases hsend'.2.symm.trans hsend.2
    | input hsend' htype => cases hsend'.2.symm.trans hsend.2
    | output hsend' htype => cases hsend'.2.symm.trans hsend.2
    | exit hsend' htype => exact ⟨htype, rfl⟩
    | receive server hrecv => cases hrecv.1.symm.trans hsend.1
  hear := by
    rintro u s m rfl
    rfl

namespace World

/-- A server has received a request of the client, or has not got rid of its reply. -/
def Owes {U : Type} (W : World U) (server : Server) (client : Pid) : Prop :=
  W.programs.responder server = .serving client ∨ ∃ m, W.waiting server.pid = some (.send client m)

/-- The clients of the servers wait for their replies, and everyone is there whom somebody
sends to. -/
structure Heard (W : World LibraryApp) : Prop where
  system : ∀ n : UInt32, n ≠ 0 → n ≤ 4 → n ≤ W.lastPid → W.present (pidOf n)
  started : 1 ≤ W.lastPid
  callers : ∀ p c, W.waiting p = some c → W.present p
  receivers : ∀ p r m, W.waiting p = some (.send r m) → W.present r
  clients : ∀ server q, W.Owes server q → q = gpidProcess ∨ Programs.UserPid q ∧ W.present q ∧
    (W.programs.user q = .requested server ∨ W.programs.user q = .receiving server)
  requests : ∀ server q m, Programs.UserPid q → W.waiting q = some (.send server.pid m) →
    server.handle m = .reply → W.programs.user q = .requested server
  replies : ∀ q sender, Programs.UserPid q → W.waiting q = some (.recv sender) →
    ∃ server, W.programs.user q = .receiving server ∧ sender = some server.pid
  sends : ∀ q r m, Programs.UserPid q → W.waiting q = some (.send r m) →
    r = gpidProcess ∨ ∃ server : Server, r = server.pid

theorem Heard.boot (shellWaiting : Bool) : Heard (World.boot libraryApps shellWaiting) where
  system := by
    intro n h0 h4 h1
    have he : n = 1 := by
      have hle : n.toNat ≤ 1 := UInt32.le_iff_toNat_le.mp h1
      have hne : n.toNat ≠ 0 := fun h => h0 (UInt32.toNat_inj.mp h)
      exact UInt32.toNat_inj.mp (show n.toNat = 1 by omega)
    rw [he]
    rfl
  started := UInt32.le_refl _
  callers := nofun
  receivers := nofun
  clients := by
    rintro server q (h | ⟨m, hm⟩)
    · cases server <;> cases h
    · cases hm
  requests := nofun
  replies := nofun
  sends := nofun

variable {W : World LibraryApp} {ps : Programs LibraryApp} {syscall : Syscall} {c : Call Pid Content} {p : Pid}

theorem Heard.process (h : W.Heard) : W.present gpidProcess := h.system 1 (by decide) (by decide) h.started

theorem Heard.callSystem (h : W.Heard) (hpresent : W.present p) (hp : ¬Programs.UserPid p)
    (huser : ps.user = W.programs.user) (hreceiver : ∀ r m, c = .send r m → W.present r)
    (howes : ∀ server q, World.Owes { W with waiting := W.waiting.next (.call p c), programs := ps } server q →
      q = gpidProcess ∨ W.Owes server q) :
    World.Heard { W with waiting := W.waiting.next (.call p c), programs := ps } := by
  have husers : ∀ q, Programs.UserPid q → W.waiting.next (.call p c) q = W.waiting q :=
    fun q hq => Rendezvous.next_call_of_ne _ _ (show q ≠ p by rintro rfl; exact hp hq)
  refine ⟨h.system, h.started, fun q d hw => ?_, fun q r m hw => ?_, fun server q hq => ?_,
    fun server q m hq hw => ?_, fun q sender hq hw => ?_, fun q r m hq hw => ?_⟩
  · by_cases hqp : q = p
    · rw [hqp]
      exact hpresent
    · exact h.callers q d ((Rendezvous.next_call_of_ne _ _ hqp).symm.trans hw)
  · change W.waiting.next (.call p c) q = _ at hw
    by_cases hqp : q = p
    · rw [hqp, Rendezvous.next_call_self] at hw
      exact hreceiver r m (Option.some.inj hw)
    · rw [Rendezvous.next_call_of_ne _ _ hqp] at hw
      exact h.receivers q r m hw
  · change q = gpidProcess ∨ Programs.UserPid q ∧ W.present q ∧
      (ps.user q = .requested server ∨ ps.user q = .receiving server)
    rw [huser]
    rcases howes server q hq with hprocess | howes
    · exact Or.inl hprocess
    · exact h.clients server q howes
  · change server.handle m = .reply → ps.user q = _
    rw [huser]
    exact h.requests server q m hq ((husers q hq).symm.trans hw)
  · change ∃ server, ps.user q = _ ∧ _
    rw [huser]
    exact h.replies q sender hq ((husers q hq).symm.trans hw)
  · exact h.sends q r m hq ((husers q hq).symm.trans hw)

/-- GPID_PROCESS sends to GPID_FILE and to the shell, once they have started. -/
theorem Heard.callProcess {s : ProcessServer} (h : W.Heard) (hwired : Wired (· = .exited) W)
    (hcalls : W.programs.process.Calls syscall s) (hc : syscall.call = some c) :
    World.Heard { W with
      waiting := W.waiting.next (.call gpidProcess c)
      programs := { W.programs with process := s } } := by
  have hnext := hwired.callProcess hcalls hc
  refine h.callSystem h.process (fun hp => hp.1 rfl) rfl ?_ fun server q howes => Or.inr ?_
  · rintro r m rfl
    have hcalling := hnext.process
    change s.pc.Calling (W.waiting.next (.call gpidProcess (.send r m)) gpidProcess) at hcalling
    rw [Rendezvous.next_call_self] at hcalling
    have hlast : 4 ≤ W.lastPid := by
      refine hnext.placed.booted.resolve_left ?_
      rcases hcalling.send with ⟨-, -, b, req, hpc⟩ | ⟨-, hpc⟩
      · change ¬∃ app, s.pc = _ ∨ s.pc.Boots app
        rw [hpc]
        rintro ⟨app, h | h⟩ <;> cases h
      · change ¬∃ app, s.pc = _ ∨ s.pc.Boots app
        rw [hpc]
        rintro ⟨app, h | h⟩ <;> cases h
    rcases hcalling.send with ⟨rfl, -⟩ | ⟨rfl, -⟩
    · exact h.system 3 (by decide) (by decide) (UInt32.le_trans (by decide) hlast)
    · exact h.system 4 (by decide) (by decide) hlast
  · refine howes.imp ?_ fun ⟨m, hm⟩ => ⟨m, ?_⟩
    · cases server <;> exact id
    · exact (Rendezvous.next_call_of_ne _ _ server.pid_ne_process).symm.trans hm

theorem Heard.callShell {s : Shell} (h : W.Heard) (hpresent : W.present gpidShell)
    (hcalls : W.programs.shell.Calls syscall s) (hc : syscall.call = some c) :
    World.Heard { W with
      waiting := W.waiting.next (.call gpidShell c)
      programs := { W.programs with shell := s } } := by
  refine h.callSystem hpresent (fun hp => hp.2.2.2 rfl) rfl ?_ fun server q howes => Or.inr ?_
  · rintro r m rfl
    rw [(hcalls.calling hc).send.1]
    exact h.process
  · refine howes.imp ?_ fun ⟨m, hm⟩ => ⟨m, ?_⟩
    · cases server <;> exact id
    · exact (Rendezvous.next_call_of_ne _ _ server.pid_ne_shell).symm.trans hm

/-- A server replies to a client that waits for it. -/
theorem Heard.callServer {server : Server} {s : Responder} (h : W.Heard) (hpresent : W.present server.pid)
    (hcalls : (W.programs.responder server).Calls syscall s) (hc : syscall.call = some c)
    (hsame : ps.responder server = s)
    (hother : ∀ server', server' ≠ server → ps.responder server' = W.programs.responder server')
    (huser : ps.user = W.programs.user) :
    World.Heard { W with waiting := W.waiting.next (.call server.pid c), programs := ps } := by
  have hsend : ∀ r m, c = .send r m → r = gpidProcess ∨ W.Owes server r := by
    rintro r m rfl
    rcases hcalls.send hc with ⟨-, hr⟩ | hserves
    · exact Or.inl hr
    · exact Or.inr (Or.inl hserves)
  refine h.callSystem hpresent server.not_userPid huser ?_ fun server' q howes => ?_
  · intro r m hcall
    rcases hsend r m hcall with rfl | howes
    · exact h.process
    · rcases h.clients server r howes with rfl | ⟨-, hr, -⟩
      · exact h.process
      · exact hr
  · by_cases hs : server' = server
    · subst hs
      rcases howes with hserves | ⟨m, hm⟩
      · exact absurd (hsame.symm.trans hserves) hcalls.not_serving
      · change W.waiting.next (.call server'.pid c) server'.pid = _ at hm
        rw [Rendezvous.next_call_self] at hm
        exact hsend q m (Option.some.inj hm)
    · refine Or.inr (howes.imp (fun hserves => (hother server' hs).symm.trans hserves) fun ⟨m, hm⟩ => ⟨m, ?_⟩)
      exact (Rendezvous.next_call_of_ne _ _ fun he => hs (Server.pid_injective he)).symm.trans hm

/-- Once there is a user process, all system processes are there. -/
theorem Heard.started_of_user (h : W.Heard) (hp : Programs.UserPid p) (hne : p ≠ 0)
    (hknown : ∃ n ≤ W.lastPid, p = pidOf n) (server : Server) : W.present server.pid := by
  obtain ⟨n, hn, rfl⟩ := hknown
  have hlast : 3 ≤ W.lastPid := by
    refine UInt32.le_trans ?_ hn
    rw [UInt32.le_iff_toNat_le]
    by_contra hlt
    have hlt : ¬3 ≤ n.toNat := hlt
    have hcases : n.toNat = 0 ∨ n.toNat = 1 ∨ n.toNat = 2 := by omega
    rcases hcases with h0 | h1 | h2
    · exact hne (by rw [UInt32.toNat_inj.mp (show n.toNat = (0 : UInt32).toNat from h0)]; rfl)
    · exact hp.1 (by rw [UInt32.toNat_inj.mp (show n.toNat = (1 : UInt32).toNat from h1)]; rfl)
    · exact hp.2.1 (by rw [UInt32.toNat_inj.mp (show n.toNat = (2 : UInt32).toNat from h2)]; rfl)
  cases server with
  | terminal => exact h.system 2 (by decide) (by decide) (UInt32.le_trans (by decide) hlast)
  | file => exact h.system 3 (by decide) (by decide) hlast

theorem Heard.callUser {u : LibraryApp} (h : W.Heard) (hpresent : W.present p) (hp : Programs.UserPid p)
    (hserver : ∀ server : Server, W.present server.pid)
    (hcalls : LibraryApp.Calls syscall (W.programs.user p) u) (hc : syscall.call = some c) :
    World.Heard { W with
      waiting := W.waiting.next (.call p c)
      programs := { W.programs with user := Function.update W.programs.user p u } } := by
  have hother : ∀ q, q ≠ p → W.waiting.next (.call p c) q = W.waiting q :=
    fun q hq => Rendezvous.next_call_of_ne _ _ hq
  have huser : ∀ q, q ≠ p → Function.update W.programs.user p u q = W.programs.user q :=
    fun q hq => Function.update_of_ne hq _ _
  have hself : Function.update W.programs.user p u p = u := Function.update_self _ _ _
  have hsend : ∀ r m, c = .send r m → (r = gpidProcess ∨ ∃ server : Server, r = server.pid) ∧
      ∀ server : Server, r = server.pid → server.handle m = .reply → u = .requested server := by
    rintro r m rfl
    obtain ⟨hsends, rfl⟩ := Syscall.sendsTo_of_call hc
    generalize W.programs.user p = v at hcalls
    cases hcalls with
    | read hsend htype =>
      cases hsends.2.symm.trans hsend.2
      refine ⟨Or.inr ⟨.file, rfl⟩, fun server hs _ => ?_⟩
      rw [@Server.pid_injective .file _ hs]
    | input hsend htype =>
      cases hsends.2.symm.trans hsend.2
      refine ⟨Or.inr ⟨.terminal, rfl⟩, fun server hs _ => ?_⟩
      rw [@Server.pid_injective .terminal _ hs]
    | output hsend htype =>
      cases hsends.2.symm.trans hsend.2
      refine ⟨Or.inr ⟨.terminal, rfl⟩, fun server hs hreply => ?_⟩
      rw [← @Server.pid_injective .terminal _ hs] at hreply
      have hnone : handleTerminal syscall.content ≠ .reply := by
        rw [handleTerminal, htype]
        split <;> decide
      exact absurd hreply hnone
    | exit hsend htype =>
      cases hsends.2.symm.trans hsend.2
      exact ⟨Or.inl rfl, fun server hs => absurd hs.symm server.pid_ne_process⟩
    | receive server hrecv => cases hsends.1.symm.trans hrecv.1
  refine ⟨h.system, h.started, fun q d hw => ?_, fun q r m hw => ?_, fun server q howes => ?_,
    fun server q m hq hw hreply => ?_, fun q sender hq hw => ?_, fun q r m hq hw => ?_⟩
  · by_cases hqp : q = p
    · rw [hqp]
      exact hpresent
    · exact h.callers q d ((hother q hqp).symm.trans hw)
  · change W.waiting.next (.call p c) q = _ at hw
    by_cases hqp : q = p
    · rw [hqp, Rendezvous.next_call_self] at hw
      rcases (hsend r m (Option.some.inj hw)).1 with rfl | ⟨server, rfl⟩
      · exact h.process
      · exact hserver server
    · rw [hother q hqp] at hw
      exact h.receivers q r m hw
  · have howes' : W.Owes server q := by
      refine howes.imp (fun hs => by cases server <;> exact hs) fun ⟨m, hm⟩ => ⟨m, ?_⟩
      have hne : server.pid ≠ p := by
        rintro rfl
        exact server.not_userPid hp
      exact (hother _ hne).symm.trans hm
    rcases h.clients server q howes' with hprocess | ⟨hq, hq', hwaits⟩
    · exact Or.inl hprocess
    · refine Or.inr ⟨hq, hq', ?_⟩
      change Function.update W.programs.user p u q = _ ∨ Function.update W.programs.user p u q = _
      by_cases hqp : q = p
      · subst hqp
        rw [hself]
        rcases hwaits with hs | hs
        · rw [hs] at hcalls
          cases hcalls with
          | receive _ hrecv => exact Or.inr rfl
        · rw [hs] at hcalls
          cases hcalls
      · rw [huser q hqp]
        exact hwaits
  · change W.waiting.next (.call p c) q = _ at hw
    change Function.update W.programs.user p u q = _
    by_cases hqp : q = p
    · rw [hqp, Rendezvous.next_call_self] at hw
      rw [hqp, hself]
      exact (hsend _ m (Option.some.inj hw)).2 server rfl hreply
    · rw [hother q hqp] at hw
      rw [huser q hqp]
      exact h.requests server q m hq hw hreply
  · change W.waiting.next (.call p c) q = _ at hw
    change ∃ server, Function.update W.programs.user p u q = _ ∧ _
    by_cases hqp : q = p
    · rw [hqp, Rendezvous.next_call_self] at hw
      rw [hqp, hself]
      cases hw
      generalize W.programs.user p = v at hcalls
      cases hcalls with
      | receive server hrecv =>
        rw [hrecv.call] at hc
        cases hc
        exact ⟨server, rfl, by cases server <;> rfl⟩
      | read hsends htype => cases hsends.call.symm.trans hc
      | input hsends htype => cases hsends.call.symm.trans hc
      | output hsends htype => cases hsends.call.symm.trans hc
      | exit hsends htype => cases hsends.call.symm.trans hc
    · rw [hother q hqp] at hw
      rw [huser q hqp]
      exact h.replies q sender hq hw
  · change W.waiting.next (.call p c) q = _ at hw
    by_cases hqp : q = p
    · rw [hqp, Rendezvous.next_call_self] at hw
      exact (hsend r m (Option.some.inj hw)).1
    · rw [hother q hqp] at hw
      exact h.sends q r m hq hw

theorem Heard.call (h : W.Heard) (hwired : Wired (· = .exited) W) (hpresent : W.present p)
    (hknown : ∃ n ≤ W.lastPid, p = pidOf n) (hne : p ≠ 0) (hc : syscall.call = some c)
    (hcalls : W.programs.Calls libraryApps p syscall ps) :
    World.Heard { W with waiting := W.waiting.next (.call p c), programs := ps } := by
  cases hcalls with
  | process hp s hcalls =>
    subst hp
    exact h.callProcess hwired hcalls hc
  | terminal hp s hcalls =>
    subst hp
    refine @Heard.callServer _ _ _ _ .terminal _ h hpresent hcalls hc rfl (fun server hs => ?_) rfl
    cases server with
    | terminal => exact absurd rfl hs
    | file => rfl
  | file hp s hcalls =>
    subst hp
    refine @Heard.callServer _ _ _ _ .file _ h hpresent hcalls hc rfl (fun server hs => ?_) rfl
    cases server with
    | terminal => rfl
    | file => exact absurd rfl hs
  | shell hp s hcalls =>
    subst hp
    exact h.callShell hpresent hcalls hc
  | user hp u hcall =>
    exact h.callUser hpresent hp (h.started_of_user hp hne hknown) (LibraryApp.call_some hcall) hc

theorem serving_idle {server : Server} {q : Pid} (hwired : Wired (· = .exited) W)
    (hs : W.programs.responder server = .serving q) : W.waiting server.pid = none := by
  cases server with
  | terminal => exact (hwired.terminal.serves q hs).1
  | file => exact (hwired.file.serves q hs).1

/-- What a client receives in the reply comes from the server that owes it. -/
theorem Heard.owed_sender {server : Server} {q s : Pid} {sender : Option Pid} (h : W.Heard)
    (howes : W.Owes server q) (hq : Programs.UserPid q) (hrecv : W.waiting q = some (.recv sender))
    (haccepts : Rendezvous.Accepts sender s) : s = server.pid := by
  obtain ⟨server', huser, rfl⟩ := h.replies q sender hq hrecv
  rcases h.clients server q howes with rfl | ⟨-, -, hwaits | hwaits⟩
  · exact absurd rfl hq.1
  · rw [huser] at hwaits
    cases hwaits
  · rw [huser] at hwaits
    cases hwaits
    exact (haccepts _ rfl).symm

theorem responder_hear {server : Server} {ps : Programs LibraryApp} {s r : Pid} {m : Content} :
    (ps.hear libraryApps s r m).responder server =
      if r = server.pid then (ps.responder server).hear server.handle s m else ps.responder server := by
  by_cases hr : r = server.pid
  · rw [if_pos hr, hr]
    cases server <;> rfl
  · rw [if_neg hr]
    unfold Programs.hear
    cases server with
    | terminal =>
      rw [if_neg (show ¬r = gpidTerminal from hr)]
      split
      · rfl
      · split
        · rfl
        · split <;> rfl
    | file =>
      rw [if_neg (show ¬r = gpidFile from hr)]
      split
      · rfl
      · split
        · rfl
        · split <;> rfl

/-- A server that serves a process after it has received a message serves its sender. -/
theorem hear_serving {server : Server} {s q : Pid} {m : Content} {t : Responder}
    (h : t.hear server.handle s m = .serving q) : s = q ∧ server.handle m = .reply ∨ t = .serving q := by
  cases t with
  | receiving =>
    dsimp only [Responder.hear] at h
    split at h
    · rename_i hreply
      cases h
      exact Or.inl ⟨rfl, hreply⟩
    · cases h
    · cases h
  | serving client => exact Or.inr h
  | boot => cases h
  | ready => cases h
  | fatal => cases h

theorem Heard.meet {s r : Pid} {m : Content} (h : W.Heard) (hwired : Wired (· = .exited) W)
    (hmeet : Enabled W.waiting (.meet s r m)) :
    World.Heard { W with
      waiting := W.waiting.next (.meet s r m)
      programs := W.programs.hear libraryApps s r m } := by
  obtain ⟨hsend, sender, hrecv, haccepts⟩ := hmeet
  have hkept : ∀ {p d}, W.waiting.next (.meet s r m) p = some d → W.waiting p = some d ∧ p ≠ s ∧ p ≠ r := by
    intro p d hw
    have hps : p ≠ s := by
      rintro rfl
      rw [Rendezvous.next_meet_sender] at hw
      cases hw
    have hpr : p ≠ r := by
      rintro rfl
      rw [Rendezvous.next_meet_receiver] at hw
      cases hw
    rw [Rendezvous.next_meet_of_ne _ _ hps hpr] at hw
    exact ⟨hw, hps, hpr⟩
  have hsr : s ≠ r := by
    rintro rfl
    rw [hsend] at hrecv
    cases hrecv
  have huser : ∀ {q}, q ≠ r → (W.programs.hear libraryApps s r m).user q = W.programs.user q :=
    fun hq => Programs.hear_user_of_ne hq
  -- Somebody to whom a server owes a reply hears from nobody else.
  have howed : ∀ {server q}, W.Owes server q → s ≠ server.pid →
      q = gpidProcess ∨ Programs.UserPid q ∧ W.present q ∧
        ((W.programs.hear libraryApps s r m).user q = .requested server ∨
          (W.programs.hear libraryApps s r m).user q = .receiving server) := by
    intro server q howes hs
    rcases h.clients server q howes with hprocess | ⟨hq, hpresent, hwaits⟩
    · exact Or.inl hprocess
    · have hqr : q ≠ r := by
        rintro rfl
        exact hs (h.owed_sender howes hq hrecv haccepts)
      rw [huser hqr]
      exact Or.inr ⟨hq, hpresent, hwaits⟩
  refine ⟨h.system, h.started, fun q d hw => h.callers q d (hkept hw).1,
    fun q r' m' hw => h.receivers q r' m' (hkept hw).1, fun server q howes => ?_,
    fun server q m' hq hw hreply => ?_, fun q sender' hq hw => ?_,
    fun q r' m' hq hw => h.sends q r' m' hq (hkept hw).1⟩
  · rcases howes with hserves | ⟨m', hw⟩
    · have hidle : ∀ {q}, W.programs.responder server = .serving q → s ≠ server.pid := by
        rintro q hs rfl
        rw [serving_idle hwired hs] at hsend
        cases hsend
      change (W.programs.hear libraryApps s r m).responder server = _ at hserves
      rw [responder_hear] at hserves
      split at hserves
      · rename_i hr
        subst hr
        rcases hear_serving hserves with ⟨rfl, hreply⟩ | hs
        · by_cases hprocess : s = gpidProcess
          · exact Or.inl hprocess
          · have hserver : ∀ server' : Server, s ≠ server'.pid := by
              rintro server' rfl
              rcases h.clients server' server.pid (Or.inr ⟨m, hsend⟩) with hp | ⟨hp, -⟩
              · exact server.pid_ne_process hp
              · exact server.not_userPid hp
            have hshell : s ≠ gpidShell := by
              rintro rfl
              have hcalling := hwired.shell
              rw [hsend] at hcalling
              exact server.pid_ne_process hcalling.send.1
            have hs : Programs.UserPid s := ⟨hprocess, hserver .terminal, hserver .file, hshell⟩
            refine Or.inr ⟨hs, h.callers s _ hsend, Or.inl ?_⟩
            exact (huser hsr).trans (h.requests server s m hs hsend hreply)
        · exact howed (Or.inl hs) (hidle hs)
      · exact howed (Or.inl hserves) (hidle hserves)
    · obtain ⟨hw, hs, -⟩ := hkept hw
      exact howed (Or.inr ⟨m', hw⟩) hs.symm
  · obtain ⟨hw, -, hqr⟩ := hkept hw
    exact (huser hqr).trans (h.requests server q m' hq hw hreply)
  · obtain ⟨hw, -, hqr⟩ := hkept hw
    obtain ⟨server, hreceiving, hsender⟩ := h.replies q sender' hq hw
    exact ⟨server, (huser hqr).trans hreceiving, hsender⟩

theorem Heard.alloc {s : ProcessServer} {found : Prop} (h : W.Heard) (hwrap : W.lastPid + 1 ≠ 0)
    (hfound : W.lastPid < 4 → found) :
    World.Heard { W with
      present := fun p => W.present p ∨ p = pidOf (W.lastPid + 1) ∧ found
      lastPid := W.lastPid + 1
      programs := { W.programs with process := s } } where
  system := by
    intro n h0 h4 hn
    rcases le_add_one hn with hn | rfl
    · exact Or.inl (h.system n h0 h4 hn)
    · refine Or.inr ⟨rfl, hfound ?_⟩
      rw [UInt32.le_iff_toNat_le, UInt32.toNat_add] at h4
      have hlt := Kernel.lt_succ_of_ne_zero hwrap
      rw [UInt32.lt_iff_toNat_lt, UInt32.toNat_add] at hlt
      rw [UInt32.lt_iff_toNat_lt]
      have h4' : (4 : UInt32).toNat = 4 := rfl
      omega
  started := UInt32.le_trans h.started (UInt32.le_of_lt (Kernel.lt_succ_of_ne_zero hwrap))
  callers := fun p c hw => Or.inl (h.callers p c hw)
  receivers := fun p r m hw => Or.inl (h.receivers p r m hw)
  clients := by
    intro server q howes
    have howes' : W.Owes server q := howes.imp_left fun hs => by cases server <;> exact hs
    exact (h.clients server q howes').imp_right fun ⟨hq, hpresent, hwaits⟩ => ⟨hq, Or.inl hpresent, hwaits⟩
  requests := h.requests
  replies := h.replies
  sends := h.sends

theorem Heard.setReady {s : ProcessServer} (h : W.Heard) :
    World.Heard { W with programs := { W.programs with process := s } } where
  system := h.system
  started := h.started
  callers := h.callers
  receivers := h.receivers
  clients := by
    intro server q howes
    exact h.clients server q (howes.imp_left fun hs => by cases server <;> exact hs)
  requests := h.requests
  replies := h.replies
  sends := h.sends

/-- PROC_KILLALL finds no process whose reply a server has in hand. -/
def Unowed {U : Type} (W : World U) (pid : Pid) : Prop :=
  pid = gpidAll → ∀ server q, gpidUserStart ≤ q → ¬W.Owes server q

theorem system_userPid {n : UInt32} (h0 : n ≠ 0) (h4 : n ≤ 4) : ¬Programs.UserPid (pidOf n) := by
  intro hp
  have hle : n.toNat ≤ 4 := UInt32.le_iff_toNat_le.mp h4
  have hcases : n.toNat = 0 ∨ n.toNat = 1 ∨ n.toNat = 2 ∨ n.toNat = 3 ∨ n.toNat = 4 := by omega
  rcases hcases with h | h | h | h | h
  · exact h0 (UInt32.toNat_inj.mp h)
  · rw [UInt32.toNat_inj.mp (show n.toNat = (1 : UInt32).toNat from h)] at hp
    exact hp.1 rfl
  · rw [UInt32.toNat_inj.mp (show n.toNat = (2 : UInt32).toNat from h)] at hp
    exact hp.2.1 rfl
  · rw [UInt32.toNat_inj.mp (show n.toNat = (3 : UInt32).toNat from h)] at hp
    exact hp.2.2.1 rfl
  · rw [UInt32.toNat_inj.mp (show n.toNat = (4 : UInt32).toNat from h)] at hp
    exact hp.2.2.2 rfl

theorem Heard.free {s : ProcessServer} {pid : Pid} {w : Waiting Pid Content} {kills : Pid → Prop}
    (h : W.Heard) (hwired : Wired (· = .exited) W) (hunowed : W.Unowed pid)
    (hfree : W.programs.process.free pid = some s)
    (hkills : ∀ p, kills p → p = pid ∧ pid ≠ gpidAll ∨ pid = gpidAll ∧ gpidUserStart ≤ p)
    (hkilled : ∀ p, kills p → w p = none) (hkept : ∀ p, ¬kills p → w p = W.waiting p) :
    World.Heard { W with
      waiting := w
      present := fun p => W.present p ∧ ¬kills p
      programs := { W.programs with process := s } } := by
  have huserPid : ∀ q, kills q → Programs.UserPid q := fun q hq => hwired.kills_user hfree (hkills q hq)
  have hsome : ∀ {q d}, w q = some d → W.waiting q = some d ∧ ¬kills q := by
    intro q d hq
    by_cases hk : kills q
    · rw [hkilled q hk] at hq
      cases hq
    · exact ⟨(hkept q hk).symm.trans hq, hk⟩
  -- Nobody is killed who still waits for a reply.
  have howed : ∀ server q, W.Owes server q → ¬kills q := by
    intro server q howes hk
    have hq := huserPid q hk
    rcases hkills q hk with ⟨rfl, hne⟩ | ⟨hall, hle⟩
    · obtain ⟨sender, req, hpc, hcase⟩ := ProcessServer.free_some hfree
      rcases hcase with ⟨htype, rfl, -⟩ | ⟨-, rfl, -⟩
      · rcases hwired.handling q req hpc with ⟨rfl, -⟩ | ⟨-, -, hexited, -⟩
        · exact hq.2.2.2 rfl
        · rcases h.clients server q howes with rfl | ⟨-, -, hwaits | hwaits⟩
          · exact hq.1 rfl
          · rw [hexited] at hwaits
            cases hwaits
          · rw [hexited] at hwaits
            cases hwaits
      · exact hne rfl
    · exact hunowed hall server q hle howes
  have howes : ∀ {server q}, World.Owes { W with
      waiting := w
      present := fun p => W.present p ∧ ¬kills p
      programs := { W.programs with process := s } } server q → W.Owes server q := by
    rintro server q (hs | ⟨m, hm⟩)
    · exact Or.inl (by cases server <;> exact hs)
    · exact Or.inr ⟨m, (hsome hm).1⟩
  refine ⟨fun n h0 h4 hn => ⟨h.system n h0 h4 hn, fun hk => system_userPid h0 h4 (huserPid _ hk)⟩, h.started,
    fun p c hw => ⟨h.callers p c (hsome hw).1, (hsome hw).2⟩, fun p r m hw => ?_,
    fun server q hq => ?_, fun server q m hq hw => h.requests server q m hq (hsome hw).1,
    fun q sender hq hw => h.replies q sender hq (hsome hw).1,
    fun q r m hq hw => h.sends q r m hq (hsome hw).1⟩
  · obtain ⟨hw, hp⟩ := hsome hw
    refine ⟨h.receivers p r m hw, fun hk => ?_⟩
    have hr := huserPid r hk
    have hserver : ∀ server : Server, p ≠ server.pid := by
      rintro server rfl
      exact howed server r (Or.inr ⟨m, hw⟩) hk
    by_cases hprocess : p = gpidProcess
    · subst hprocess
      have hcalling := hwired.process
      rw [hw] at hcalling
      rcases hcalling.send with ⟨rfl, -⟩ | ⟨rfl, -⟩
      · exact hr.2.2.1 rfl
      · exact hr.2.2.2 rfl
    · by_cases hshell : p = gpidShell
      · subst hshell
        have hcalling := hwired.shell
        rw [hw] at hcalling
        exact hr.1 hcalling.send.1
      · rcases h.sends p r m ⟨hprocess, hserver .terminal, hserver .file, hshell⟩ hw with rfl | ⟨server, rfl⟩
        · exact hr.1 rfl
        · exact server.not_userPid hr
  · have howes := howes hq
    refine (h.clients server q howes).imp_right fun ⟨hq, hpresent, hwaits⟩ => ?_
    exact ⟨hq, ⟨hpresent, howed server q howes⟩, hwaits⟩

theorem Heard.step {W' : World LibraryApp} {ns : List Note} (h : W.Heard) (hwired : Wired (· = .exited) W)
    (hstep : World.Step libraryApps Unowed W ns W') : W'.Heard := by
  cases hstep with
  | call hpresent hknown hne hidle hc hcall =>
    exact h.call hwired hpresent hknown hne hc (Programs.call_some hcall)
  | meet henabled => exact h.meet hwired henabled
  | alloc hwrap hfound halloc => exact h.alloc hwrap hfound
  | setReady hready => exact h.setReady
  | free hguard hfree hkills hkilled hkept => exact h.free hwired hguard hfree hkills hkilled hkept

theorem Run.heard {ns : List Note} (h : World.Run libraryApps Unowed W ns) : W.Heard := by
  induction h with
  | boot shellWaiting => exact .boot shellWaiting
  | step h hstep ih => exact ih.step (h.wired libraryApps_civil) hstep

/-- A reply to a user process is in hand. -/
def owesUser {U : Type} (W : World U) (server : Server) : Bool :=
  (match W.programs.responder server with
    | .serving q => decide (gpidUserStart ≤ q)
    | _ => false) ||
  match W.waiting server.pid with
  | some (.send q _) => decide (gpidUserStart ≤ q)
  | _ => false

theorem owesUser_iff {U : Type} {W : World U} {server : Server} :
    W.owesUser server = true ↔ ∃ q, gpidUserStart ≤ q ∧ W.Owes server q := by
  rw [owesUser, Bool.or_eq_true]
  constructor
  · rintro (h | h)
    · split at h
      · rename_i q hserves
        exact ⟨q, of_decide_eq_true h, Or.inl hserves⟩
      · cases h
    · split at h
      · rename_i q m hw
        exact ⟨q, of_decide_eq_true h, Or.inr ⟨m, hw⟩⟩
      · cases h
  · rintro ⟨q, hq, hserves | ⟨m, hw⟩⟩
    · rw [hserves]
      exact Or.inl (decide_eq_true hq)
    · rw [hw]
      exact Or.inr (decide_eq_true hq)

instance {U : Type} (W : World U) (pid : Pid) : Decidable (W.Unowed pid) :=
  decidable_of_iff (pid = gpidAll → W.owesUser .terminal = false ∧ W.owesUser .file = false) (by
    have hserver : ∀ server, W.owesUser server = false ↔ ∀ q, gpidUserStart ≤ q → ¬W.Owes server q := by
      intro server
      rw [← Bool.not_eq_true, owesUser_iff]
      exact ⟨fun h q hq howes => h ⟨q, hq, howes⟩, fun h ⟨q, hq, howes⟩ => h q hq howes⟩
    rw [hserver, hserver]
    constructor
    · intro h hpid server
      cases server with
      | terminal => exact (h hpid).1
      | file => exact (h hpid).2
    · exact fun h hpid => ⟨h hpid .terminal, h hpid .file⟩)

end World

/-- The pid counter does not wrap, and PROC_KILLALL finds no reply in hand. -/
def Spares (S : System LibraryApp) (a : Action) : Prop :=
  Unwrapped S.kernel a ∧ ∀ pid, a = .procFree pid → S.world.Unowed pid

instance (S : System LibraryApp) (a : Action) : Decidable (∀ pid, a = .procFree pid → S.world.Unowed pid) :=
  match a with
  | .trap _ => isTrue nofun
  | .procAlloc => isTrue nofun
  | .procSetReady _ => isTrue nofun
  | .procFree pid => decidable_of_iff (S.world.Unowed pid)
    ⟨fun h _ hpid => Action.procFree.inj hpid ▸ h, fun h => h pid rfl⟩

instance (S : System LibraryApp) (a : Action) : Decidable (Spares S a) := inferInstanceAs (Decidable (_ ∧ _))

variable {env : Env} {S : System LibraryApp} {ns : List Note}

theorem Session.heard (h : Session env libraryApps Spares S ns) :
    S.Sane ∧ World.Run libraryApps World.Unowed S.world ns :=
  h.world (fun _ _ h => h.1) fun _ _ h => h.2 _ rfl

/-- The world after a call of the current process, before the kernel tries it. -/
theorem Session.heard_call (h : Session env libraryApps Spares S ns) {t : Trap} {ps : Programs LibraryApp}
    (hnext : S.programs.next libraryApps S.kernel (.trap t) = some ps) (p r : Pid) (m : Content)
    (hw : waiting (S.kernel.trace ++ S.kernel.callLabels t) p = some (.send r m)) : S.kernel.Present r := by
  obtain ⟨hsane, hrun⟩ := h.heard
  have hsound := hsane.kernel
  have hnext : (if t.mcause &&& 0x80000000 ≠ 0 then some S.programs
      else S.programs.call libraryApps S.kernel.curr.pid t.syscall) = some ps := hnext
  unfold Kernel.callLabels at hw
  by_cases hintr : t.mcause &&& 0x80000000 ≠ 0
  · rw [if_pos hintr, List.append_nil] at hw
    exact hrun.heard.receivers p r m hw
  · rw [if_neg hintr] at hnext hw
    cases hc : t.syscall.call with
    | none =>
      rw [hc, Option.map_none, Option.toList_none, List.append_nil] at hw
      exact hrun.heard.receivers p r m hw
    | some c =>
      rw [hc] at hw
      have hidle : waiting S.kernel.trace S.kernel.curr.pid = none := by
        refine hsound.synced.idle _ fun i hi hpid => ?_
        have hcurr := hsound.synced.pids.live_eq hi.live hpid.symm
        rw [← hcurr, Kernel.Blocked, (hsound.running _).mpr rfl] at hi
        cases hi
      have hcall := hrun.step (.call (W := S.world) hsound.current_present (hsound.synced.pids.known _)
        (hsound.synced.pids.live_pid hsound.live) hidle hc hnext)
      refine hcall.heard.receivers p r m ?_
      change waiting (S.kernel.trace ++ [.call S.kernel.curr.pid c]) p = _ at hw
      rw [Rendezvous.waiting_snoc] at hw
      exact hw

/-- While PROC_KILLALL finds no reply in hand, the receiver of every blocked sender has a slot, and
no step halts for an unknown receiver. -/
theorem receivers_present (h : Session env libraryApps Spares S ns) :
    (∀ i, S.kernel.Blocked i → (S.kernel.procSet i).syscall.type = .send →
      S.kernel.Present (S.kernel.procSet i).syscall.receiver) ∧
    ∀ a r, S.step env libraryApps a ≠ some (.error (.unknownReceiver r)) := by
  obtain ⟨hsane, hrun⟩ := h.heard
  constructor
  · intro i hi htype
    obtain ⟨c, hc, hw⟩ := hsane.kernel.waits hi
    rw [Syscall.SendsTo.call ⟨htype, rfl⟩] at hc
    cases hc
    exact hrun.heard.receivers _ _ _ hw
  · intro a r hstep
    obtain ⟨ps, hnext, hstep⟩ := Option.map_eq_some_iff.mp hstep
    cases a with
    | trap t =>
      refine @Kernel.Sound.entry_receiver env _ hsane.kernel t (h.heard_call hnext) r ?_
      change (S.kernel.kernelEntry env t).map _ = _ at hstep
      cases hentry : S.kernel.kernelEntry env t with
      | ok k' =>
        rw [hentry] at hstep
        cases hstep
      | error e =>
        rw [hentry] at hstep
        cases hstep
        rfl
    | procAlloc =>
      change Except.map _ ((·.2) <$> S.kernel.procAlloc env) = _ at hstep
      unfold Kernel.procAlloc at hstep
      split at hstep <;> cases hstep
    | procSetReady pid => cases hstep
    | procFree pid => cases hstep

/-- The file server has the request of process 5 when PROC_KILLALL frees that process. -/
def killed : List Action :=
  bootActions ++ spawnActions true ++
    [timer, sendTo 3 (message 1), receiveFrom gpidAll, timer, sendTo 1 (message 2), receiveFrom 3, .procFree gpidAll,
      receiveFrom gpidAll]

/-- The receiver that a step has not found. -/
def haltedFor {α : Type} : Option (Except Fatal α) → Option Pid
  | some (.error (.unknownReceiver p)) => some p
  | _ => none

theorem of_haltedFor {α : Type} {r : Option (Except Fatal α)} {p : Pid} (h : haltedFor r = some p) :
    r = some (.error (.unknownReceiver p)) := by
  unfold haltedFor at h
  split at h
  · cases h
    rfl
  · cases h

/-- When PROC_KILLALL comes between the request of a user process and the reply, the file server
sends to nobody. -/
theorem killed_unknown : ∃ S ns, Session still libraryApps (fun S a => Unwrapped S.kernel a) S ns ∧
    S.step still libraryApps (sendTo 5 (message 0)) = some (.error (.unknownReceiver 5)) := by
  have hrun : ((System.replay (fun S a => Unwrapped S.kernel a) still libraryApps killed).any fun r =>
      decide (haltedFor (r.1.step still libraryApps (sendTo 5 (message 0))) = some 5)) = true := by
    decide +kernel
  obtain ⟨⟨S, ns⟩, hreplay, hstep⟩ := (Option.any_eq_true _ _).mp hrun
  exact ⟨S, ns, Session.replay hreplay, of_haltedFor (of_decide_eq_true hstep)⟩

/-- Process 5 is freed before it has made a request. -/
def spared : List Action :=
  bootActions ++ spawnActions true ++
    [sendTo 1 (message 2), timer, receiveFrom gpidAll, timer, .procFree gpidAll, receiveFrom gpidAll]

theorem receivers_present_spared : ∃ S ns, Session still libraryApps Spares S ns ∧
    S.kernel.receiverSlot 5 = none ∧
    (∀ i, S.kernel.Blocked i → (S.kernel.procSet i).syscall.type = .send →
      S.kernel.Present (S.kernel.procSet i).syscall.receiver) ∧
    ∀ a r, S.step still libraryApps a ≠ some (.error (.unknownReceiver r)) := by
  have hrun : ((System.replay Spares still libraryApps spared).any fun r =>
      decide (r.1.kernel.receiverSlot 5 = none)) = true := by
    decide +kernel
  obtain ⟨⟨S, ns⟩, hreplay, hgone⟩ := (Option.any_eq_true _ _).mp hrun
  have hsession := Session.replay hreplay
  exact ⟨S, ns, hsession, of_decide_eq_true hgone, receivers_present hsession⟩

end OsSuite.Grass
