import OsSuite.World
import OsSuite.KernelTable

/-! Who sends to whom, when the user applications behave: nothing reaches GPID_PROCESS but
greetings, blocks that it has asked for, commands of the shell and PROC_EXIT, and nobody but
GPID_PROCESS sends to the shell. -/

namespace OsSuite.Grass

open Earth (Pid)
open Rendezvous (Label Call Waiting Enabled Accepts)

variable {U : Type} {conduct : Conduct U} {exited : U → Prop} {W W' : World U}

theorem Syscall.SendsTo.call {syscall : Syscall} {r : Pid} (h : syscall.SendsTo r) :
    syscall.call = some (.send r syscall.content) := by
  unfold Syscall.call
  rw [h.1, h.2]

theorem Syscall.ReceivesFrom.call {syscall : Syscall} {s : Pid} (h : syscall.ReceivesFrom s) :
    syscall.call = some (.recv (senderOf s)) := by
  unfold Syscall.call
  rw [h.1, h.2]

theorem Syscall.sendsTo_of_call {syscall : Syscall} {r : Pid} {m : Content}
    (h : syscall.call = some (.send r m)) : syscall.SendsTo r ∧ syscall.content = m := by
  unfold Syscall.call at h
  split at h
  · rename_i htype
    cases h
    exact ⟨⟨htype, rfl⟩, rfl⟩
  · cases h
  · cases h

/-- User applications send GPID_PROCESS nothing but PROC_EXIT, which is the last thing they do,
and they send the shell nothing. -/
structure Conduct.Civil (conduct : Conduct U) (exited : U → Prop) : Prop where
  live : ∀ {u u' syscall}, conduct.call u syscall = some u' → ¬exited u
  shell : ∀ {u u' syscall}, conduct.call u syscall = some u' → ¬syscall.SendsTo gpidShell
  exit : ∀ {u u' syscall}, conduct.call u syscall = some u' → syscall.SendsTo gpidProcess →
    msgType syscall.content = procExit ∧ exited u'
  hear : ∀ {u s m}, exited u → exited (conduct.hear u s m)

namespace ProcessAt

/-- GPID_PROCESS has allocated a system process and does not yet know that it runs. -/
def Boots (app : Pid) : ProcessAt → Prop
  | .load app' _ => app' = app
  | .started app' => app' = app
  | .greeting app' => app' = app
  | _ => False

/-- GPID_PROCESS has asked GPID_FILE for a block. -/
def Reads : ProcessAt → Prop
  | .asked _ _ => True
  | .awaiting _ _ => True
  | _ => False

/-- The call that GPID_PROCESS waits in. -/
def Calling (c : Option (Call Pid Content)) : ProcessAt → Prop
  | .greeting app => c = some (.recv (some app))
  | .receiving => c = some (.recv none)
  | .awaiting _ _ => c = some (.recv (some gpidFile))
  | .asked _ _ => c = none ∨ ∃ m, c = some (.send gpidFile m) ∧ msgType m = fileRead
  | .loop => c = none ∨ ∃ m, c = some (.send gpidShell m)
  | _ => c = none

variable {pc : ProcessAt} {r : Pid} {m : Content}

theorem asks_part {b : Reading} {req : Content} (h : pc.asks = some (b, req)) :
    (∀ app, ¬pc.Boots app) ∧ ∀ app, pc ≠ .spawn app := by
  cases pc <;> first | (cases h; done) | exact ⟨fun _ => id, nofun⟩

theorem replies_part {type : UInt32} {req : Content} (h : pc.replies = some (type, req)) :
    (∀ app, ¬pc.Boots app) ∧ ¬pc.Reads ∧ ∀ app, pc ≠ .spawn app := by
  cases pc <;> first | (cases h; done) | exact ⟨fun _ => id, id, nofun⟩

theorem Calling.send (h : pc.Calling (some (.send r m))) :
    r = gpidFile ∧ msgType m = fileRead ∧ (∃ b req, pc = .asked b req) ∨ r = gpidShell ∧ pc = .loop := by
  cases pc with
  | asked b req =>
    rcases h with h | ⟨m', h, htype⟩
    · cases h
    · cases h
      exact Or.inl ⟨rfl, htype, b, req, rfl⟩
  | loop =>
    rcases h with h | ⟨m', h⟩
    · cases h
    · cases h
      exact Or.inr ⟨rfl, rfl⟩
  | _ => cases h

theorem Calling.recv {sender : Option Pid} (h : pc.Calling (some (.recv sender))) :
    (∃ app, pc = .greeting app ∧ sender = some app) ∨ pc = .receiving ∨
      ∃ b req, pc = .awaiting b req ∧ sender = some gpidFile := by
  cases pc with
  | greeting app =>
    cases h
    exact Or.inl ⟨app, rfl, rfl⟩
  | receiving => exact Or.inr (Or.inl rfl)
  | awaiting b req =>
    cases h
    exact Or.inr (Or.inr ⟨b, req, rfl, rfl⟩)
  | asked b req => rcases h with h | ⟨m', h, -⟩ <;> cases h
  | loop => rcases h with h | ⟨m', h⟩ <;> cases h
  | _ => cases h

theorem Calling.sent (h : pc.Calling (some (.send r m))) : pc.Calling none := by
  rcases h.send with ⟨-, -, b, req, rfl⟩ | ⟨-, rfl⟩
  · exact Or.inl rfl
  · exact Or.inl rfl

end ProcessAt

namespace Shell

/-- The call that the shell waits in. -/
def Calling (c : Option (Call Pid Content)) : Shell → Prop
  | .command => c = none ∨ ∃ m, c = some (.send gpidProcess m) ∧ msgType m = procKillall
  | .requested req => msgType req = procSpawn ∧ (c = none ∨ c = some (.send gpidProcess req))
  | .receiving _ => c = some (.recv (some gpidProcess))
  | .replied _ _ => c = none
  | .waiting => c = some (.recv (some gpidProcess))

variable {s : Shell} {r : Pid} {m : Content}

theorem Calling.send (h : s.Calling (some (.send r m))) :
    r = gpidProcess ∧ (s = .command ∧ msgType m = procKillall ∨ s = .requested m ∧ msgType m = procSpawn) := by
  cases s with
  | command =>
    rcases h with h | ⟨m', h, htype⟩
    · cases h
    · cases h
      exact ⟨rfl, Or.inl ⟨rfl, htype⟩⟩
  | requested req =>
    obtain ⟨htype, h | h⟩ := h
    · cases h
    · cases h
      exact ⟨rfl, Or.inr ⟨rfl, htype⟩⟩
  | _ => cases h

theorem Calling.recv {sender : Option Pid} (h : s.Calling (some (.recv sender))) :
    sender = some gpidProcess ∧ ((∃ req, s = .receiving req) ∨ s = .waiting) := by
  cases s with
  | receiving req =>
    cases h
    exact ⟨rfl, Or.inl ⟨req, rfl⟩⟩
  | waiting =>
    cases h
    exact ⟨rfl, Or.inr rfl⟩
  | command => rcases h with h | ⟨m', h, -⟩ <;> cases h
  | requested req => rcases h.2 with h | h <;> cases h
  | replied req type => cases h

theorem Calling.sent (h : s.Calling (some (.send r m))) : s.Calling none := by
  rcases h.send.2 with ⟨rfl, -⟩ | ⟨rfl, htype⟩
  · exact Or.inl rfl
  · exact ⟨htype, Or.inl rfl⟩

end Shell

namespace Shell

theorem Calls.calling {s s' : Shell} {syscall : Syscall} {c : Call Pid Content} (h : s.Calls syscall s')
    (hc : syscall.call = some c) : s'.Calling (some c) := by
  cases h with
  | killall hs hsend htype =>
    rw [← hc, hsend.call]
    exact Or.inr ⟨_, rfl, htype⟩
  | spawn hs hsend htype =>
    rw [← hc, hsend.call]
    exact ⟨htype, Or.inr rfl⟩
  | first req hs hrecv =>
    rw [← hc, hrecv.call]
    rfl
  | second req hs hreq hrecv =>
    rw [← hc, hrecv.call]
    rfl

end Shell

/-- The system processes, with their place in the order of allocation. -/
inductive Stage : Pid → UInt32 → Prop where
  | terminal : Stage gpidTerminal 2
  | file : Stage gpidFile 3
  | shell : Stage gpidShell 4

theorem le_add_one {n m : UInt32} (h : n ≤ m + 1) : n ≤ m ∨ n = m + 1 := by
  rw [UInt32.le_iff_toNat_le, UInt32.toNat_add] at h
  rw [UInt32.le_iff_toNat_le, ← UInt32.toNat_inj, UInt32.toNat_add]
  have hn := n.toNat_lt
  have hm := m.toNat_lt
  have h1 : (1 : UInt32).toNat = 1 := rfl
  omega

theorem Stage.pid {app : Pid} {n : UInt32} (h : Stage app n) : app = pidOf n := by
  cases h <;> rfl

theorem Stage.ne_all {app : Pid} {n : UInt32} (h : Stage app n) : app ≠ gpidAll := by
  cases h <;> decide

theorem Stage.succ {app : Pid} {n : UInt32} (h : Stage app n) (happ : app ≠ gpidShell) :
    Stage (app + 1) (n + 1) := by
  cases h with
  | terminal => exact .file
  | file => exact .shell
  | shell => exact absurd rfl happ

/-- How far GPID_PROCESS is with the system processes. -/
structure ProcessAt.Placed (lastPid : UInt32) (pc : ProcessAt) : Prop where
  spawn : ∀ app, pc = .spawn app → Stage app (lastPid + 1)
  boots : ∀ app, pc.Boots app → Stage app lastPid
  greets : ∀ app, pc = .started app ∨ pc = .greeting app → app ≠ gpidShell
  booted : (∃ app, pc = .spawn app ∨ pc.Boots app) ∨ 4 ≤ lastPid

namespace ProcessServer

variable {s s' : ProcessServer} {syscall : Syscall} {c : Call Pid Content}

theorem Calls.calling (h : s.Calls syscall s') (hgreets : ∀ app, s.pc = .started app → app ≠ gpidAll)
    (hc : syscall.call = some c) : s'.pc.Calling (some c) := by
  cases h with
  | greet app hpc hrecv =>
    rw [← hc, hrecv.call, senderOf, if_neg (hgreets app hpc)]
    rfl
  | listen hpc hrecv =>
    rw [← hc, hrecv.call]
    rfl
  | ask r req hpc hsend htype =>
    rw [← hc, hsend.call]
    exact Or.inr ⟨_, rfl, htype⟩
  | await r req hpc hrecv =>
    rw [← hc, hrecv.call]
    rfl
  | reply type req hpc hsend htype =>
    rw [← hc, hsend.call]
    exact Or.inr ⟨_, rfl⟩
  | release sender req hpc hwaits hsend htype =>
    rw [← hc, hsend.call]
    exact Or.inr ⟨_, rfl⟩

theorem Calls.part (h : s.Calls syscall s') :
    (∀ app, s'.pc.Boots app ↔ s.pc.Boots app) ∧ (s.pc.Reads → s'.pc.Reads) ∧
      (∀ app, s.pc ≠ .spawn app) ∧ ∀ app, s'.pc ≠ .spawn app := by
  cases h with
  | greet app hpc hrecv =>
    rw [hpc]
    exact ⟨fun _ => Iff.rfl, nofun, nofun, nofun⟩
  | listen hpc hrecv =>
    rcases hpc with hpc | ⟨sender, req, hpc, -⟩ <;>
    · rw [hpc]
      exact ⟨fun _ => Iff.rfl, nofun, nofun, nofun⟩
  | ask r req hpc hsend htype =>
    obtain ⟨hboots, hspawn⟩ := ProcessAt.asks_part hpc
    exact ⟨fun app => ⟨nofun, fun h => absurd h (hboots app)⟩, fun _ => trivial, hspawn, nofun⟩
  | await r req hpc hrecv =>
    rw [hpc]
    exact ⟨fun _ => Iff.rfl, fun _ => trivial, nofun, nofun⟩
  | reply type req hpc hsend htype =>
    obtain ⟨hboots, hreads, hspawn⟩ := ProcessAt.replies_part hpc
    exact ⟨fun app => ⟨nofun, fun h => absurd h (hboots app)⟩, fun h => absurd h hreads, hspawn, nofun⟩
  | release sender req hpc hwaits hsend htype =>
    rw [hpc]
    exact ⟨fun _ => Iff.rfl, nofun, nofun, nofun⟩

theorem Calls.placed {lastPid : UInt32} (h : s.Calls syscall s') (hpc : s.pc.Placed lastPid) :
    s'.pc.Placed lastPid := by
  obtain ⟨hboots, -, hspawn, hspawn'⟩ := h.part
  refine ⟨fun app happ => absurd happ (hspawn' app), fun app happ => hpc.boots app ((hboots app).mp happ),
    fun app happ => ?_, ?_⟩
  · cases h with
    | greet app' hstarted hrecv =>
      rcases happ with happ | happ <;> cases happ
      exact hpc.greets _ (Or.inl hstarted)
    | _ => rcases happ with happ | happ <;> cases happ
  · rcases hpc.booted with ⟨app, happ | happ⟩ | hlast
    · exact absurd happ (hspawn app)
    · exact Or.inl ⟨app, Or.inr ((hboots app).mpr happ)⟩
    · exact Or.inr hlast

end ProcessServer

namespace Responder

variable {s s' : Responder} {syscall : Syscall} {r : Pid} {m : Content}

theorem Calls.not_boot (h : s.Calls syscall s') : s' ≠ .boot := by
  cases h <;> nofun

theorem Calls.not_serving (h : s.Calls syscall s') {client : Pid} : s' ≠ .serving client := by
  cases h <;> nofun

theorem Calls.send (h : s.Calls syscall s') (hc : syscall.call = some (.send r m)) :
    s = .boot ∧ r = gpidProcess ∨ s = .serving r := by
  cases h with
  | greet hs hsend =>
    rw [hsend.call] at hc
    cases hc
    exact Or.inl ⟨hs, rfl⟩
  | listen hs hrecv =>
    rw [hrecv.call] at hc
    cases hc
  | reply client hs hsend =>
    rw [hsend.call] at hc
    cases hc
    exact Or.inr hs

/-- A server that sends to GPID_PROCESS only when it starts, or when it has been asked, and
never to the shell. -/
structure Attached (lastPid : UInt32) (pc : ProcessAt) (server : Pid) (asked : Prop)
    (c : Option (Call Pid Content)) (s : Responder) : Prop where
  boot : s = .boot → c = none ∧ ((∀ n ≤ lastPid, server ≠ pidOf n) ∨ pc.Boots server)
  serves : ∀ client, s = .serving client →
    c = none ∧ client ≠ gpidShell ∧ (client = gpidProcess → asked)
  greets : ∀ m, c = some (.send gpidProcess m) → pc.Boots server ∨ asked
  shell : ∀ m, c ≠ some (.send gpidShell m)

variable {lastPid : UInt32} {pc pc' : ProcessAt} {server : Pid} {asked asked' : Prop}
  {w : Option (Call Pid Content)} {c : Call Pid Content}

theorem Attached.call (h : s.Attached lastPid pc server asked w) (hcalls : s.Calls syscall s')
    (hc : syscall.call = some c) (hknown : ∃ n ≤ lastPid, server = pidOf n) :
    s'.Attached lastPid pc server asked (some c) := by
  refine ⟨fun hboot => absurd hboot hcalls.not_boot,
    fun client hserves => absurd hserves hcalls.not_serving, fun m hm => ?_, fun m hm => ?_⟩
  · rcases hcalls.send (hc.trans hm) with ⟨hboot, -⟩ | hserves
    · obtain ⟨n, hn, hserver⟩ := hknown
      exact Or.inl ((h.boot hboot).2.resolve_left fun hnew => hnew n hn hserver)
    · exact Or.inr ((h.serves _ hserves).2.2 rfl)
  · rcases hcalls.send (hc.trans hm) with ⟨-, hr⟩ | hserves
    · cases hr
    · exact (h.serves _ hserves).2.1 rfl

theorem Attached.imp (h : s.Attached lastPid pc server asked w) (hboots : pc.Boots server → pc'.Boots server)
    (hasked : asked → asked') : s.Attached lastPid pc' server asked' w :=
  ⟨fun hboot => ⟨(h.boot hboot).1, (h.boot hboot).2.imp_right hboots⟩,
    fun client hserves => (h.serves client hserves).imp_right (And.imp_right fun hask hp => hasked (hask hp)),
    fun m hm => (h.greets m hm).imp hboots hasked, h.shell⟩

theorem Attached.sent (h : s.Attached lastPid pc server asked w) :
    s.Attached lastPid pc server asked none :=
  ⟨fun hboot => ⟨rfl, (h.boot hboot).2⟩, fun client hserves => ⟨rfl, (h.serves client hserves).2⟩, nofun,
    nofun⟩

theorem Attached.calling (h : s.Attached lastPid pc server asked (some c)) :
    s ≠ .boot ∧ ∀ client, s ≠ .serving client := by
  constructor
  · intro hboot
    cases (h.boot hboot).1
  · intro client hserves
    cases (h.serves client hserves).1

theorem Attached.alloc (h : s.Attached lastPid pc server asked w) (hpc : ¬pc.Boots server)
    (hserver : server = pidOf (lastPid + 1) → pc'.Boots server) (hasked : asked → asked') :
    s.Attached (lastPid + 1) pc' server asked' w := by
  refine ⟨fun hs => ?_, fun client hs => ?_, fun m hm => ?_, h.shell⟩
  · obtain ⟨hw, hnew⟩ := h.boot hs
    refine ⟨hw, ?_⟩
    by_cases he : server = pidOf (lastPid + 1)
    · exact Or.inr (hserver he)
    · refine Or.inl fun n hn => ?_
      rcases le_add_one hn with hn | rfl
      · exact hnew.resolve_right hpc n hn
      · exact he
  · obtain ⟨hw, hshell, hprocess⟩ := h.serves client hs
    exact ⟨hw, hshell, fun hp => hasked (hprocess hp)⟩
  · exact Or.inr (hasked ((h.greets m hm).resolve_left hpc))

theorem Attached.done (h : s.Attached lastPid pc server asked w) {r : Pid} {m : Content}
    (hw : w = some (.send r m)) : s.Attached lastPid pc' server asked' none := by
  rw [hw] at h
  obtain ⟨hboot, hserving⟩ := h.calling
  exact ⟨fun hs => absurd hs hboot, fun client hs => absurd hs (hserving client), nofun, nofun⟩

theorem Attached.hear {sender : Option Pid} {q : Pid} {handle : Content → Handling}
    (h : s.Attached lastPid pc server asked (some (.recv sender))) (hshell : q ≠ gpidShell)
    (hasked : q = gpidProcess → asked) : (s.hear handle q m).Attached lastPid pc server asked none := by
  obtain ⟨hboot, hserving⟩ := h.calling
  unfold Responder.hear
  split
  · split
    · refine ⟨nofun, fun client hserves => ?_, nofun, nofun⟩
      cases hserves
      exact ⟨rfl, hshell, hasked⟩
    · exact ⟨nofun, nofun, nofun, nofun⟩
    · exact ⟨nofun, nofun, nofun, nofun⟩
  · exact ⟨fun hs => absurd hs hboot, fun client hs => absurd hs (hserving client), nofun, nofun⟩

end Responder

/-- What reaches GPID_PROCESS from the others is a greeting, a block that it has asked for, a
command of the shell or a PROC_EXIT; nobody else sends to the shell. -/
structure Wired (exited : U → Prop) (W : World U) : Prop where
  process : W.programs.process.pc.Calling (W.waiting gpidProcess)
  shell : W.programs.shell.Calling (W.waiting gpidShell)
  placed : W.programs.process.pc.Placed W.lastPid
  terminal : W.programs.terminal.Attached W.lastPid W.programs.process.pc gpidTerminal False
    (W.waiting gpidTerminal)
  file : W.programs.file.Attached W.lastPid W.programs.process.pc gpidFile
    W.programs.process.pc.Reads (W.waiting gpidFile)
  users : ∀ p m, Programs.UserPid p → W.waiting p = some (.send gpidProcess m) →
    p ≠ 0 ∧ msgType m = procExit ∧ exited (W.programs.user p)
  toShell : ∀ p m, Programs.UserPid p → W.waiting p ≠ some (.send gpidShell m)
  handling : ∀ p req, W.programs.process.pc = .handling p req →
    p = gpidShell ∧ (msgType req = procSpawn ∨ msgType req = procKillall) ∨
      Programs.UserPid p ∧ msgType req = procExit ∧ exited (W.programs.user p) ∧ W.waiting p = none

theorem ne_pidOf {m n lastPid : UInt32} (hn : n ≤ lastPid) (hm : ¬m ≤ lastPid) : pidOf m ≠ pidOf n :=
  fun he => hm (pidOf_injective he ▸ hn)

namespace Wired

theorem boot (shellWaiting : Bool) : Wired exited (World.boot conduct shellWaiting) where
  process := rfl
  shell := Or.inl rfl
  placed := by
    refine ⟨?_, nofun, ?_, Or.inl ⟨gpidTerminal, Or.inl rfl⟩⟩
    · rintro app ⟨⟩
      exact .terminal
    · rintro app (h | h) <;> cases h
  terminal := ⟨fun _ => ⟨rfl, Or.inl fun n hn => ne_pidOf (m := 2) hn
    (show ¬(2 : UInt32) ≤ 1 by decide)⟩, nofun, nofun, nofun⟩
  file := ⟨fun _ => ⟨rfl, Or.inl fun n hn => ne_pidOf (m := 3) hn
    (show ¬(3 : UInt32) ≤ 1 by decide)⟩, nofun, nofun, nofun⟩
  users := nofun
  toShell := nofun
  handling := nofun

variable {syscall : Syscall} {c : Call Pid Content} {p s r : Pid} {m : Content}

theorem callProcess {s : ProcessServer} (h : Wired exited W) (hcalls : W.programs.process.Calls syscall s)
    (hc : syscall.call = some c) :
    Wired exited { W with
      waiting := W.waiting.next (.call gpidProcess c)
      programs := { W.programs with process := s } } := by
  obtain ⟨hboots, hreads, -, -⟩ := hcalls.part
  have hother : ∀ q, q ≠ gpidProcess → W.waiting.next (.call gpidProcess c) q = W.waiting q :=
    fun q hq => Rendezvous.next_call_of_ne _ _ hq
  have hgreets : ∀ app, W.programs.process.pc = .started app → app ≠ gpidAll := by
    intro app hpc
    exact (h.placed.boots app (by rw [hpc]; rfl)).ne_all
  constructor
  · change s.pc.Calling (W.waiting.next (.call gpidProcess c) gpidProcess)
    rw [Rendezvous.next_call_self]
    exact hcalls.calling hgreets hc
  · change W.programs.shell.Calling (W.waiting.next (.call gpidProcess c) gpidShell)
    rw [hother _ (by decide)]
    exact h.shell
  · exact hcalls.placed h.placed
  · change W.programs.terminal.Attached _ _ _ _ (W.waiting.next (.call gpidProcess c) gpidTerminal)
    rw [hother _ (by decide)]
    exact h.terminal.imp (hboots _).mpr id
  · change W.programs.file.Attached _ _ _ _ (W.waiting.next (.call gpidProcess c) gpidFile)
    rw [hother _ (by decide)]
    exact h.file.imp (hboots _).mpr hreads
  · intro p m hp hw
    change W.waiting.next (.call gpidProcess c) p = _ at hw
    rw [hother p hp.1] at hw
    exact h.users p m hp hw
  · intro p m hp
    change W.waiting.next (.call gpidProcess c) p ≠ _
    rw [hother p hp.1]
    exact h.toShell p m hp
  · exact fun p req hpc => absurd hpc hcalls.not_handling

/-- A system process other than GPID_PROCESS moves, and leaves the rest as it is. -/
theorem moveSystem {ps : Programs U} {d : Option (Call Pid Content)} (h : Wired exited W)
    (hp : ¬Programs.UserPid p) (hne : p ≠ gpidProcess) (hprocess : ps.process = W.programs.process)
    (huser : ps.user = W.programs.user)
    (hshell : ps.shell.Calling (Function.update W.waiting p d gpidShell))
    (hterminal : ps.terminal.Attached W.lastPid W.programs.process.pc gpidTerminal False
      (Function.update W.waiting p d gpidTerminal))
    (hfile : ps.file.Attached W.lastPid W.programs.process.pc gpidFile W.programs.process.pc.Reads
      (Function.update W.waiting p d gpidFile)) :
    Wired exited { W with waiting := Function.update W.waiting p d, programs := ps } := by
  have husers : ∀ q, Programs.UserPid q → Function.update W.waiting p d q = W.waiting q :=
    fun q hq => Function.update_of_ne (show q ≠ p by rintro rfl; exact hp hq) _ _
  constructor
  · change ps.process.pc.Calling (Function.update W.waiting p d gpidProcess)
    rw [Function.update_of_ne hne.symm, hprocess]
    exact h.process
  · exact hshell
  · change ps.process.pc.Placed W.lastPid
    rw [hprocess]
    exact h.placed
  · change ps.terminal.Attached W.lastPid ps.process.pc _ _ _
    rw [hprocess]
    exact hterminal
  · change ps.file.Attached W.lastPid ps.process.pc _ ps.process.pc.Reads _
    rw [hprocess]
    exact hfile
  · intro q m hq hw
    change q ≠ 0 ∧ msgType m = procExit ∧ exited (ps.user q)
    rw [huser]
    exact h.users q m hq ((husers q hq).symm.trans hw)
  · exact fun q m hq hw => h.toShell q m hq ((husers q hq).symm.trans hw)
  · intro q req hpc
    change ps.process.pc = _ at hpc
    rw [hprocess] at hpc
    refine (h.handling q req hpc).imp_right fun ⟨hq, htype, hexited, hw⟩ => ?_
    refine ⟨hq, htype, ?_, (husers q hq).trans hw⟩
    change exited (ps.user q)
    rw [huser]
    exact hexited

theorem moveTerminal {s : Responder} {d : Option (Call Pid Content)} (h : Wired exited W)
    (hs : s.Attached W.lastPid W.programs.process.pc gpidTerminal False d) :
    Wired exited { W with
      waiting := Function.update W.waiting gpidTerminal d
      programs := { W.programs with terminal := s } } := by
  refine h.moveSystem (fun hp => hp.2.1 rfl) (by decide) rfl rfl ?_ ?_ ?_
  · rw [Function.update_of_ne (by decide)]
    exact h.shell
  · rw [Function.update_self]
    exact hs
  · rw [Function.update_of_ne (by decide)]
    exact h.file

theorem moveFile {s : Responder} {d : Option (Call Pid Content)} (h : Wired exited W)
    (hs : s.Attached W.lastPid W.programs.process.pc gpidFile W.programs.process.pc.Reads d) :
    Wired exited { W with
      waiting := Function.update W.waiting gpidFile d
      programs := { W.programs with file := s } } := by
  refine h.moveSystem (fun hp => hp.2.2.1 rfl) (by decide) rfl rfl ?_ ?_ ?_
  · rw [Function.update_of_ne (by decide)]
    exact h.shell
  · rw [Function.update_of_ne (by decide)]
    exact h.terminal
  · rw [Function.update_self]
    exact hs

theorem moveShell {s : Shell} {d : Option (Call Pid Content)} (h : Wired exited W) (hs : s.Calling d) :
    Wired exited { W with
      waiting := Function.update W.waiting gpidShell d
      programs := { W.programs with shell := s } } := by
  refine h.moveSystem (fun hp => hp.2.2.2 rfl) (by decide) rfl rfl ?_ ?_ ?_
  · rw [Function.update_self]
    exact hs
  · rw [Function.update_of_ne (by decide)]
    exact h.terminal
  · rw [Function.update_of_ne (by decide)]
    exact h.file

/-- A user application moves. What it sends to GPID_PROCESS ends it. -/
theorem moveUser {u : U} {d : Option (Call Pid Content)} (h : Wired exited W) (hp : Programs.UserPid p)
    (hprocess : ∀ m, d = some (.send gpidProcess m) → p ≠ 0 ∧ msgType m = procExit ∧ exited u)
    (hshell : ∀ m, d ≠ some (.send gpidShell m))
    (hexited : exited (W.programs.user p) → exited u ∧ (W.waiting p = none → d = none)) :
    Wired exited { W with
      waiting := Function.update W.waiting p d
      programs := { W.programs with user := Function.update W.programs.user p u } } := by
  have hother : ∀ q, q ≠ p → Function.update W.waiting p d q = W.waiting q :=
    fun q hq => Function.update_of_ne hq _ _
  constructor
  · change W.programs.process.pc.Calling (Function.update W.waiting p d gpidProcess)
    rw [hother _ hp.1.symm]
    exact h.process
  · change W.programs.shell.Calling (Function.update W.waiting p d gpidShell)
    rw [hother _ hp.2.2.2.symm]
    exact h.shell
  · exact h.placed
  · change W.programs.terminal.Attached _ _ _ _ (Function.update W.waiting p d gpidTerminal)
    rw [hother _ hp.2.1.symm]
    exact h.terminal
  · change W.programs.file.Attached _ _ _ _ (Function.update W.waiting p d gpidFile)
    rw [hother _ hp.2.2.1.symm]
    exact h.file
  · intro q m hq hw
    change Function.update W.waiting p d q = _ at hw
    change q ≠ 0 ∧ msgType m = procExit ∧ exited (Function.update W.programs.user p u q)
    by_cases hqp : q = p
    · rw [hqp, Function.update_self] at hw
      rw [hqp, Function.update_self]
      exact hprocess m hw
    · rw [hother q hqp] at hw
      rw [Function.update_of_ne hqp]
      exact h.users q m hq hw
  · intro q m hq hw
    change Function.update W.waiting p d q = _ at hw
    by_cases hqp : q = p
    · rw [hqp, Function.update_self] at hw
      exact hshell m hw
    · rw [hother q hqp] at hw
      exact h.toShell q m hq hw
  · intro q req hpc
    refine (h.handling q req hpc).imp_right fun ⟨hq, htype, hgone, hw⟩ => ?_
    by_cases hqp : q = p
    · subst hqp
      obtain ⟨hu, hd⟩ := hexited hgone
      refine ⟨hq, htype, ?_, ?_⟩
      · change exited (Function.update W.programs.user q u q)
        rw [Function.update_self]
        exact hu
      · change Function.update W.waiting q d q = none
        rw [Function.update_self]
        exact hd hw
    · refine ⟨hq, htype, ?_, (hother q hqp).trans hw⟩
      change exited (Function.update W.programs.user p u q)
      rw [Function.update_of_ne hqp]
      exact hgone

theorem call (h : Wired exited W) (hcivil : conduct.Civil exited) {ps : Programs U}
    (hknown : ∃ n ≤ W.lastPid, p = pidOf n) (hne : p ≠ 0) (hc : syscall.call = some c)
    (hcalls : W.programs.Calls conduct p syscall ps) :
    Wired exited { W with waiting := W.waiting.next (.call p c), programs := ps } := by
  cases hcalls with
  | process hp s hcalls =>
    subst hp
    exact h.callProcess hcalls hc
  | terminal hp s hcalls =>
    subst hp
    exact h.moveTerminal (h.terminal.call hcalls hc hknown)
  | file hp s hcalls =>
    subst hp
    exact h.moveFile (h.file.call hcalls hc hknown)
  | shell hp s hcalls =>
    subst hp
    exact h.moveShell (hcalls.calling hc)
  | user hp u hcall =>
    refine h.moveUser hp (fun m hd => ?_) (fun m hd => ?_) fun hexited => absurd hexited (hcivil.live hcall)
    · cases hd
      obtain ⟨hsends, rfl⟩ := Syscall.sendsTo_of_call hc
      exact ⟨hne, hcivil.exit hcall hsends⟩
    · cases hd
      exact hcivil.shell hcall (Syscall.sendsTo_of_call hc).1

theorem sent (h : Wired exited W) (hw : W.waiting s = some (.send r m)) :
    Wired exited { W with waiting := Function.update W.waiting s none } := by
  have hother : ∀ q, q ≠ s → Function.update W.waiting s none q = W.waiting q :=
    fun q hq => Function.update_of_ne hq _ _
  have hself : Function.update W.waiting s none s = none := Function.update_self _ _ _
  have hkept : ∀ {q d}, Function.update W.waiting s none q = some d → W.waiting q = some d := by
    intro q d hq
    by_cases hqs : q = s
    · rw [hqs, hself] at hq
      cases hq
    · rwa [hother q hqs] at hq
  constructor
  · change W.programs.process.pc.Calling (Function.update W.waiting s none gpidProcess)
    by_cases hs : gpidProcess = s
    · have hcalling := h.process
      rw [hs, hw] at hcalling
      rw [hs, hself]
      exact hcalling.sent
    · rw [hother _ hs]
      exact h.process
  · change W.programs.shell.Calling (Function.update W.waiting s none gpidShell)
    by_cases hs : gpidShell = s
    · have hcalling := h.shell
      rw [hs, hw] at hcalling
      rw [hs, hself]
      exact hcalling.sent
    · rw [hother _ hs]
      exact h.shell
  · exact h.placed
  · change W.programs.terminal.Attached _ _ _ _ (Function.update W.waiting s none gpidTerminal)
    by_cases hs : gpidTerminal = s
    · rw [hs, hself, ← hs]
      exact h.terminal.sent
    · rw [hother _ hs]
      exact h.terminal
  · change W.programs.file.Attached _ _ _ _ (Function.update W.waiting s none gpidFile)
    by_cases hs : gpidFile = s
    · rw [hs, hself, ← hs]
      exact h.file.sent
    · rw [hother _ hs]
      exact h.file
  · exact fun p m hp hq => h.users p m hp (hkept hq)
  · exact fun p m hp hq => h.toShell p m hp (hkept hq)
  · intro p req hpc
    refine (h.handling p req hpc).imp_right fun ⟨hp, htype, hexited, hnone⟩ => ?_
    refine ⟨hp, htype, hexited, ?_⟩
    by_cases hps : p = s
    · exact hps ▸ hself
    · exact (hother p hps).trans hnone

/-- Who a message to GPID_PROCESS can be from. -/
theorem sender (h : Wired exited W) (hw : W.waiting s = some (.send gpidProcess m)) :
    s = gpidTerminal ∧ W.programs.process.pc.Boots gpidTerminal ∨
      s = gpidFile ∧ (W.programs.process.pc.Boots gpidFile ∨ W.programs.process.pc.Reads) ∨
      s = gpidShell ∧ (msgType m = procSpawn ∨ msgType m = procKillall) ∨
      Programs.UserPid s ∧ s ≠ 0 ∧ msgType m = procExit ∧ exited (W.programs.user s) := by
  by_cases hprocess : s = gpidProcess
  · have hcalling := h.process
    rw [← hprocess, hw] at hcalling
    rcases hcalling.send with ⟨hr, -⟩ | ⟨hr, -⟩ <;> cases hr
  by_cases hterminal : s = gpidTerminal
  · rw [hterminal] at hw
    exact Or.inl ⟨hterminal, (h.terminal.greets m hw).resolve_right id⟩
  by_cases hfile : s = gpidFile
  · rw [hfile] at hw
    exact Or.inr (Or.inl ⟨hfile, h.file.greets m hw⟩)
  by_cases hshell : s = gpidShell
  · have hcalling := h.shell
    rw [← hshell, hw] at hcalling
    exact Or.inr (Or.inr (Or.inl ⟨hshell, hcalling.send.2.symm.imp And.right And.right⟩))
  · have hs : Programs.UserPid s := ⟨hprocess, hterminal, hfile, hshell⟩
    exact Or.inr (Or.inr (Or.inr ⟨hs, h.users s m hs hw⟩))

/-- Only GPID_PROCESS sends to the shell. -/
theorem shellSender (h : Wired exited W) (hw : W.waiting s = some (.send gpidShell m)) :
    s = gpidProcess ∧ W.programs.process.pc = .loop := by
  by_cases hprocess : s = gpidProcess
  · have hcalling := h.process
    rw [← hprocess, hw] at hcalling
    rcases hcalling.send with ⟨hr, -⟩ | ⟨-, hpc⟩
    · cases hr
    · exact ⟨hprocess, hpc⟩
  by_cases hterminal : s = gpidTerminal
  · rw [hterminal] at hw
    exact absurd hw (h.terminal.shell m)
  by_cases hfile : s = gpidFile
  · rw [hfile] at hw
    exact absurd hw (h.file.shell m)
  by_cases hshell : s = gpidShell
  · have hcalling := h.shell
    rw [← hshell, hw] at hcalling
    cases hcalling.send.1
  · exact absurd hw (h.toShell s m ⟨hprocess, hterminal, hfile, hshell⟩)

theorem moveProcess {s : ProcessServer} (h : Wired exited W) (hcalling : s.pc.Calling none)
    (hplaced : s.pc.Placed W.lastPid)
    (hterminal : W.programs.terminal.Attached W.lastPid s.pc gpidTerminal False (W.waiting gpidTerminal))
    (hfile : W.programs.file.Attached W.lastPid s.pc gpidFile s.pc.Reads (W.waiting gpidFile))
    (hhandling : ∀ p req, s.pc = .handling p req →
      p = gpidShell ∧ (msgType req = procSpawn ∨ msgType req = procKillall) ∨
        Programs.UserPid p ∧ msgType req = procExit ∧ exited (W.programs.user p) ∧ W.waiting p = none) :
    Wired exited { W with
      waiting := Function.update W.waiting gpidProcess none
      programs := { W.programs with process := s } } := by
  have hother : ∀ q, q ≠ gpidProcess → Function.update W.waiting gpidProcess none q = W.waiting q :=
    fun q hq => Function.update_of_ne hq _ _
  constructor
  · change s.pc.Calling (Function.update W.waiting gpidProcess none gpidProcess)
    rw [Function.update_self]
    exact hcalling
  · change W.programs.shell.Calling (Function.update W.waiting gpidProcess none gpidShell)
    rw [hother _ (by decide)]
    exact h.shell
  · exact hplaced
  · change W.programs.terminal.Attached _ _ _ _ (Function.update W.waiting gpidProcess none gpidTerminal)
    rw [hother _ (by decide)]
    exact hterminal
  · change W.programs.file.Attached _ _ _ _ (Function.update W.waiting gpidProcess none gpidFile)
    rw [hother _ (by decide)]
    exact hfile
  · exact fun p m hp hw => h.users p m hp ((hother p hp.1).symm.trans hw)
  · exact fun p m hp hw => h.toShell p m hp ((hother p hp.1).symm.trans hw)
  · intro p req hpc
    refine (hhandling p req hpc).imp_right fun ⟨hp, htype, hexited, hw⟩ => ?_
    exact ⟨hp, htype, hexited, (hother p hp.1).trans hw⟩

theorem hearProcess {sender : Option Pid} (h : Wired exited W)
    (hsend : W.waiting s = some (.send gpidProcess m)) (hrecv : W.waiting gpidProcess = some (.recv sender))
    (haccepts : Accepts sender s) :
    Wired exited { W with
      waiting := Function.update (Function.update W.waiting s none) gpidProcess none
      programs := { W.programs with process := W.programs.process.hear s m } } := by
  have h₁ := h.sent hsend
  have hgone : Function.update W.waiting s none s = none := Function.update_self _ _ _
  have hcalling := h.process
  rw [hrecv] at hcalling
  rcases hcalling.recv with ⟨app, hpc, rfl⟩ | hpc | ⟨b, req, hpc, rfl⟩
  · have hs : app = s := haccepts app rfl
    have hstage := h.placed.boots app (by rw [hpc]; rfl)
    have hshell := h.placed.greets app (Or.inr hpc)
    have hnext : W.programs.process.hear s m = { W.programs.process with pc := .spawn (app + 1) } := by
      rw [ProcessServer.hear, hpc]
    have hboots : ∀ server, W.programs.process.pc.Boots server → s = server := by
      intro server hserver
      rw [hpc] at hserver
      exact hs.symm.trans hserver
    rw [hnext]
    refine h₁.moveProcess rfl ⟨?_, nofun, ?_, Or.inl ⟨app + 1, Or.inl rfl⟩⟩ ?_ ?_ nofun
    · rintro app' ⟨⟩
      exact hstage.succ hshell
    · rintro app' (h | h) <;> cases h
    · by_cases hterminal : s = gpidTerminal
      · subst hterminal
        change Responder.Attached _ _ _ _ (Function.update W.waiting gpidTerminal none gpidTerminal) _
        rw [hgone]
        exact h.terminal.done hsend
      · exact h₁.terminal.imp (fun hb => absurd (hboots _ hb) hterminal) id
    · by_cases hfile : s = gpidFile
      · subst hfile
        change Responder.Attached _ _ _ _ (Function.update W.waiting gpidFile none gpidFile) _
        rw [hgone]
        exact h.file.done hsend
      · refine h₁.file.imp (fun hb => absurd (hboots _ hb) hfile) fun hreads => ?_
        change W.programs.process.pc.Reads at hreads
        rw [hpc] at hreads
        exact hreads
  · have hnext : W.programs.process.hear s m = { W.programs.process with pc := .handling s m } := by
      rw [ProcessServer.hear, hpc]
    have hboots : ∀ server, ¬W.programs.process.pc.Boots server := by
      intro server
      rw [hpc]
      exact id
    have hreads : ¬W.programs.process.pc.Reads := by
      rw [hpc]
      exact id
    have hlast := h.placed.booted.resolve_left (by rw [hpc]; rintro ⟨app, h | h⟩ <;> cases h)
    rw [hnext]
    refine h₁.moveProcess rfl ⟨nofun, nofun, nofun, Or.inr hlast⟩
      (h₁.terminal.imp (fun hb => absurd hb (hboots _)) id)
      (h₁.file.imp (fun hb => absurd hb (hboots _)) fun hr => absurd hr hreads) ?_
    rintro p req ⟨⟩
    rcases h.sender hsend with ⟨-, hb⟩ | ⟨-, hb | hr⟩ | hshell | ⟨hs, -, htype, hexited⟩
    · exact absurd hb (hboots _)
    · exact absurd hb (hboots _)
    · exact absurd hr hreads
    · exact Or.inl hshell
    · exact Or.inr ⟨hs, htype, hexited, hgone⟩
  · have hs : gpidFile = s := haccepts gpidFile rfl
    have hnext : W.programs.process.hear s m = { W.programs.process with pc := .read b req } := by
      rw [ProcessServer.hear, hpc]
    have hboots : ∀ server, ¬W.programs.process.pc.Boots server := by
      intro server
      rw [hpc]
      exact id
    have hlast := h.placed.booted.resolve_left (by rw [hpc]; rintro ⟨app, h | h⟩ <;> cases h)
    rw [hnext]
    refine h₁.moveProcess rfl ⟨nofun, nofun, nofun, Or.inr hlast⟩
      (h₁.terminal.imp (fun hb => absurd hb (hboots _)) id) ?_ nofun
    subst hs
    change Responder.Attached _ _ _ _ (Function.update W.waiting gpidFile none gpidFile) _
    rw [hgone]
    exact h.file.done hsend

theorem meet (h : Wired exited W) (hcivil : conduct.Civil exited) (hmeet : Enabled W.waiting (.meet s r m)) :
    Wired exited { W with
      waiting := W.waiting.next (.meet s r m)
      programs := W.programs.hear conduct s r m } := by
  obtain ⟨hsend, sender, hrecv, haccepts⟩ := hmeet
  have h₁ := h.sent hsend
  have hsr : r ≠ s := by
    rintro rfl
    rw [hsend] at hrecv
    cases hrecv
  have hwaits : Function.update W.waiting s none r = some (.recv sender) :=
    (Function.update_of_ne hsr _ _).trans hrecv
  have hsystem : r = gpidTerminal ∨ r = gpidFile →
      s ≠ gpidShell ∧ (s = gpidProcess → r = gpidFile ∧ W.programs.process.pc.Reads) := by
    intro hr
    constructor
    · rintro rfl
      have hcalling := h.shell
      rw [hsend] at hcalling
      rcases hr with rfl | rfl <;> cases hcalling.send.1
    · rintro rfl
      have hcalling := h.process
      rw [hsend] at hcalling
      rcases hcalling.send with ⟨hr, -, b, req, hpc⟩ | ⟨rfl, -⟩
      · rw [hpc]
        exact ⟨hr, trivial⟩
      · rcases hr with hr | hr <;> cases hr
  unfold Programs.hear
  split
  · rename_i hr
    subst hr
    exact h.hearProcess hsend hrecv haccepts
  · split
    · rename_i hr
      subst hr
      obtain ⟨hshell, hprocess⟩ := hsystem (Or.inl rfl)
      have hattached := h₁.terminal
      change W.programs.terminal.Attached _ _ _ _ (Function.update W.waiting s none gpidTerminal) at hattached
      rw [hwaits] at hattached
      exact h₁.moveTerminal (hattached.hear hshell fun hs => nomatch (hprocess hs).1)
    · split
      · rename_i hr
        subst hr
        obtain ⟨hshell, hprocess⟩ := hsystem (Or.inr rfl)
        have hattached := h₁.file
        change W.programs.file.Attached _ _ _ _ (Function.update W.waiting s none gpidFile) at hattached
        rw [hwaits] at hattached
        exact h₁.moveFile (hattached.hear hshell fun hs => (hprocess hs).2)
      · split
        · rename_i hr
          subst hr
          have hcalling := h.shell
          rw [hrecv] at hcalling
          refine h₁.moveShell ?_
          rcases hcalling.recv.2 with ⟨req, hs⟩ | hs
          · rw [hs]
            rfl
          · rw [hs]
            exact Or.inl rfl
        · rename_i hprocess hterminal hfile hshell
          exact h₁.moveUser ⟨hprocess, hterminal, hfile, hshell⟩ nofun nofun
            fun hexited => ⟨hcivil.hear hexited, fun _ => rfl⟩

theorem alloc {s : ProcessServer} {present : Pid → Prop} (h : Wired exited W) (hwrap : W.lastPid + 1 ≠ 0)
    (halloc : W.programs.process.alloc (pidOf (W.lastPid + 1)) = some s) :
    Wired exited ⟨W.waiting, present, W.lastPid + 1, { W.programs with process := s }⟩ := by
  have hcalling := h.process
  rcases ProcessServer.alloc_some halloc with ⟨app, hpc, rfl⟩ | ⟨req, hpc, rfl⟩
  · rw [hpc] at hcalling
    have hstage := h.placed.spawn app hpc
    have hboots : ∀ server, ¬W.programs.process.pc.Boots server := by
      intro server
      rw [hpc]
      exact id
    have hreads : ¬W.programs.process.pc.Reads := by
      rw [hpc]
      exact id
    refine ⟨hcalling, h.shell, ⟨nofun, ?_, ?_, Or.inl ⟨app, Or.inr rfl⟩⟩,
      h.terminal.alloc (hboots _) (fun he => hstage.pid.trans he.symm) id,
      h.file.alloc (hboots _) (fun he => hstage.pid.trans he.symm) fun hr => absurd hr hreads, h.users,
      h.toShell, nofun⟩
    · rintro app' rfl
      exact hstage
    · rintro app' (hs | hs) <;> cases hs
  · rw [hpc] at hcalling
    have hboots : ∀ server, ¬W.programs.process.pc.Boots server := by
      intro server
      rw [hpc]
      exact id
    have hreads : ¬W.programs.process.pc.Reads := by
      rw [hpc]
      exact id
    have hbooted := h.placed.booted.resolve_left (by rw [hpc]; rintro ⟨app, h | h⟩ <;> cases h)
    have hlast := UInt32.le_trans hbooted (UInt32.le_of_lt (Kernel.lt_succ_of_ne_zero hwrap))
    refine ⟨hcalling, h.shell, ⟨nofun, nofun, ?_, Or.inr hlast⟩,
      h.terminal.alloc (hboots _) (fun he => ?_) id,
      h.file.alloc (hboots _) (fun he => ?_) fun hr => absurd hr hreads, h.users, h.toShell, nofun⟩
    · rintro app' (hs | hs) <;> cases hs
    · rw [← pidOf_injective (show pidOf 2 = _ from he)] at hlast
      exact absurd hlast (by decide)
    · rw [← pidOf_injective (show pidOf 3 = _ from he)] at hlast
      exact absurd hlast (by decide)

theorem setReady {s : ProcessServer} {pid : Pid} (h : Wired exited W)
    (hready : W.programs.process.setReady pid = some s) :
    Wired exited { W with programs := { W.programs with process := s } } := by
  have hcalling := h.process
  rcases ProcessServer.setReady_some hready with ⟨app, hpc, rfl⟩ | ⟨b, req, hpc, hb, rfl⟩
  · rw [hpc] at hcalling
    have hstage := h.placed.boots app (by rw [hpc]; rfl)
    have hreads : ¬W.programs.process.pc.Reads := by
      rw [hpc]
      exact id
    have hboots : ∀ server, W.programs.process.pc.Boots server → app = server := by
      intro server hserver
      rw [hpc] at hserver
      exact hserver
    by_cases happ : app = gpidShell
    · rw [if_pos happ]
      subst happ
      have hlast : 4 ≤ W.lastPid := by
        rw [← pidOf_injective (show pidOf 4 = _ from hstage.pid)]
        decide
      refine ⟨Or.inl hcalling, h.shell, ⟨nofun, nofun, ?_, Or.inr hlast⟩,
        h.terminal.imp (fun hb => absurd (hboots _ hb) (by decide)) id,
        h.file.imp (fun hb => absurd (hboots _ hb) (by decide)) fun hr => absurd hr hreads, h.users,
        h.toShell, nofun⟩
      rintro app' (hs | hs) <;> cases hs
    · rw [if_neg happ]
      refine ⟨hcalling, h.shell, ⟨nofun, ?_, ?_, Or.inl ⟨app, Or.inr rfl⟩⟩,
        h.terminal.imp (hboots _) id, h.file.imp (hboots _) fun hr => absurd hr hreads, h.users,
        h.toShell, nofun⟩
      · rintro app' rfl
        exact hstage
      · rintro app' (hs | hs) <;> cases hs
        exact happ
  · rw [hpc] at hcalling
    have hboots : ∀ server, ¬W.programs.process.pc.Boots server := by
      intro server
      rw [hpc]
      exact id
    have hreads : ¬W.programs.process.pc.Reads := by
      rw [hpc]
      exact id
    have hlast := h.placed.booted.resolve_left (by rw [hpc]; rintro ⟨app, h | h⟩ <;> cases h)
    refine ⟨hcalling, h.shell, ⟨nofun, nofun, ?_, Or.inr hlast⟩,
      h.terminal.imp (fun hb => absurd hb (hboots _)) id,
      h.file.imp (fun hb => absurd hb (hboots _)) fun hr => absurd hr hreads, h.users, h.toShell, nofun⟩
    rintro app' (hs | hs) <;> cases hs

/-- `proc_free` frees no system process. -/
theorem kills_user {s : ProcessServer} {pid q : Pid} (h : Wired exited W)
    (hfree : W.programs.process.free pid = some s)
    (hq : q = pid ∧ pid ≠ gpidAll ∨ pid = gpidAll ∧ gpidUserStart ≤ q) :
    Programs.UserPid q := by
  obtain ⟨sender, req, hpc, hcase⟩ := ProcessServer.free_some hfree
  have hall : gpidUserStart ≤ q → Programs.UserPid q := by
    intro hle
    refine ⟨?_, ?_, ?_, ?_⟩ <;>
    · rintro rfl
      exact absurd hle (by decide)
  rcases hq with ⟨rfl, hne⟩ | ⟨-, hle⟩
  · rcases hcase with ⟨htype, rfl, -⟩ | ⟨-, rfl, -⟩
    · rcases h.handling q req hpc with ⟨-, htype' | htype'⟩ | ⟨hq, -⟩
      · rw [htype] at htype'
        cases htype'
      · rw [htype] at htype'
        cases htype'
      · exact hq
    · exact absurd rfl hne
  · exact hall hle

theorem free {s : ProcessServer} {pid : Pid} {w : Waiting Pid Content} {present kills : Pid → Prop}
    (h : Wired exited W) (hfree : W.programs.process.free pid = some s)
    (hkills : ∀ q, kills q → Programs.UserPid q) (hkilled : ∀ q, kills q → w q = none)
    (hkept : ∀ q, ¬kills q → w q = W.waiting q) :
    Wired exited ⟨w, present, W.lastPid, { W.programs with process := s }⟩ := by
  obtain ⟨sender, req, hpc, hcase⟩ := ProcessServer.free_some hfree
  have hsystem : ∀ q, ¬Programs.UserPid q → w q = W.waiting q := fun q hq => hkept q fun hk => hq (hkills q hk)
  have hsome : ∀ {q d}, w q = some d → W.waiting q = some d := by
    intro q d hq
    by_cases hk : kills q
    · rw [hkilled q hk] at hq
      cases hq
    · rwa [hkept q hk] at hq
  have hboots : ∀ server, ¬W.programs.process.pc.Boots server := by
    intro server
    rw [hpc]
    exact id
  have hreads : ¬W.programs.process.pc.Reads := by
    rw [hpc]
    exact id
  have hidle : w gpidProcess = none := by
    have hcalling := h.process
    rw [hpc] at hcalling
    exact (hsystem _ fun hp => hp.1 rfl).trans hcalling
  have hlast := h.placed.booted.resolve_left (by rw [hpc]; rintro ⟨app, h | h⟩ <;> cases h)
  have hshell : W.programs.shell.Calling (w gpidShell) := by
    rw [hsystem _ fun hp => hp.2.2.2 rfl]
    exact h.shell
  have hterminal := h.terminal
  have hfile := h.file
  rw [← hsystem _ fun hp => hp.2.1 rfl] at hterminal
  rw [← hsystem _ fun hp => hp.2.2.1 rfl] at hfile
  rcases hcase with ⟨-, -, rfl⟩ | ⟨-, -, rfl⟩
  · refine ⟨hidle, hshell, ⟨nofun, nofun, ?_, Or.inr hlast⟩,
      hterminal.imp (fun hb => absurd hb (hboots _)) id,
      hfile.imp (fun hb => absurd hb (hboots _)) fun hr => absurd hr hreads,
      fun q m hq hw => h.users q m hq (hsome hw), fun q m hq hw => h.toShell q m hq (hsome hw), nofun⟩
    rintro app' (hs | hs) <;> cases hs
  · refine ⟨Or.inl hidle, hshell, ⟨nofun, nofun, ?_, Or.inr hlast⟩,
      hterminal.imp (fun hb => absurd hb (hboots _)) id,
      hfile.imp (fun hb => absurd hb (hboots _)) fun hr => absurd hr hreads,
      fun q m hq hw => h.users q m hq (hsome hw), fun q m hq hw => h.toShell q m hq (hsome hw), nofun⟩
    rintro app' (hs | hs) <;> cases hs

theorem step {guard : World U → Pid → Prop} {ms : List Note} (h : Wired exited W)
    (hcivil : conduct.Civil exited) (hstep : World.Step conduct guard W ms W') : Wired exited W' := by
  cases hstep with
  | call hpresent hknown hne hidle hc hcall => exact h.call hcivil hknown hne hc (Programs.call_some hcall)
  | meet henabled => exact h.meet hcivil henabled
  | alloc hwrap hfound halloc => exact h.alloc hwrap halloc
  | setReady hready => exact h.setReady hready
  | free hguard hfree hkills hkilled hkept =>
    exact h.free hfree (fun q hq => h.kills_user hfree (hkills q hq)) hkilled hkept

end Wired

theorem World.Run.wired {guard : World U → Pid → Prop} {ns : List Note} (hcivil : conduct.Civil exited)
    (h : World.Run conduct guard W ns) : Wired exited W := by
  induction h with
  | boot shellWaiting => exact .boot shellWaiting
  | step h hstep ih => exact ih.step hcivil hstep

end OsSuite.Grass
