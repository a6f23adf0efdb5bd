import OsSuite.Wiring

/-! The shell and GPID_PROCESS agree on every command: a reply for each PROC_SPAWN, a second
message for each foreground process once it has exited, and a receive of the shell for each of
them. -/

namespace OsSuite.Grass

open Earth (Pid)
open Rendezvous (Label Call Waiting Enabled waiting)

variable {U : Type} {conduct : Conduct U} {exited : U → Prop} {W W' : World U}

/-- How far GPID_PROCESS and the shell are with a command. -/
inductive Phase where
  | idle
  | spawning (req : Content)
  | loaded (req : Content) (pid : Pid)
  /-- The reply is sent, for a process that the shell will wait for or for none. -/
  | replying (m : Content) (foreground : Option Pid)
  | running (pid : Pid)
  | finishing (pid : Pid)
  | releasing

/-- The order of the protocol. -/
def Phase.next : Phase → Note → Option Phase
  | .idle, .spawn req => some (.spawning req)
  | .idle, .exit _ => some .idle
  | .idle, .killall => some .idle
  | .spawning req, .ready pid => some (.loaded req pid)
  | .spawning _, .send m => if msgType m = cmdError then some (.replying m none) else none
  | .loaded req pid, .send m =>
    if msgType m = cmdOk then some (.replying m (if Background req then none else some pid)) else none
  | .replying m none, .reply m' => if m' = m then some .idle else none
  | .replying m (some pid), .reply m' => if m' = m then some (.running pid) else none
  | .running pid, .exit q => if q = pid then some (.finishing pid) else some (.running pid)
  | .finishing _, .send _ => some .releasing
  | .releasing, .release => some .idle
  | _, _ => none

namespace ProcessAt

/-- GPID_PROCESS is not at work on a PROC_SPAWN. -/
def Resting (c : Option (Call Pid Content)) : ProcessAt → Prop
  | .spawn _ => True
  | .load _ _ => True
  | .started _ => True
  | .greeting _ => True
  | .loop => c = none
  | .receiving => True
  | .handling _ req => msgType req ≠ procSpawn
  | .freed _ _ => True
  | _ => False

/-- GPID_PROCESS is in `app_spawn`. -/
def Spawns (req : Content) : ProcessAt → Prop
  | .handling _ req' => req' = req ∧ msgType req = procSpawn
  | .asked _ req' => req' = req
  | .awaiting _ req' => req' = req
  | .read _ req' => req' = req
  | .allocated _ req' => req' = req
  | _ => False

/-- GPID_PROCESS is at work on the exit of a process. -/
def Exits (q : Pid) (pc : ProcessAt) : Prop :=
  ∃ req, pc = .handling q req ∧ msgType req = procExit ∨ pc = .freed q req

variable {pc : ProcessAt} {req req' : Content} {c : Option (Call Pid Content)}

theorem Spawns.unique (h : pc.Spawns req) (h' : pc.Spawns req') : req = req' := by
  cases pc with
  | handling q m => exact h.1.symm.trans h'.1
  | asked r m => exact h.symm.trans h'
  | awaiting r m => exact h.symm.trans h'
  | read r m => exact h.symm.trans h'
  | allocated p m => exact h.symm.trans h'
  | _ => cases h

theorem Spawns.not_resting (h : pc.Spawns req) : ¬pc.Resting c := by
  cases pc with
  | handling q m =>
    obtain ⟨rfl, htype⟩ := h
    exact fun hrest => hrest htype
  | asked r m => exact id
  | awaiting r m => exact id
  | read r m => exact id
  | allocated p m => exact id
  | _ => cases h

theorem spawns_of_asks {r : Reading} (h : pc.asks = some (r, req)) : pc.Spawns req := by
  unfold asks at h
  split at h
  · split at h <;> cases h
    rename_i htype
    exact ⟨rfl, htype⟩
  · cases h
    rfl
  · cases h
    rfl
  · cases h
    rfl
  · cases h
    rfl
  · cases h

theorem replies_some {type : UInt32} (h : pc.replies = some (type, req)) :
    type = cmdError ∧ pc = .read .bin req ∨ type = cmdOk ∧ ∃ pid, pc = .loaded pid req := by
  unfold replies at h
  split at h
  · cases h
    exact Or.inl ⟨rfl, rfl⟩
  · cases h
    exact Or.inr ⟨rfl, _, rfl⟩
  · cases h

end ProcessAt

namespace Shell

/-- The shell is about to receive the reply, or receives it. -/
def FirstDue (req : Content) (c : Option (Call Pid Content)) (s : Shell) : Prop :=
  s = .requested req ∧ c = none ∨ s = .receiving req

/-- The shell is about to wait for its foreground process, or waits for it. -/
def SecondDue (s : Shell) : Prop := (∃ req, s = .replied req cmdOk ∧ ¬Background req) ∨ s = .waiting

/-- The shell expects nothing, and has at most sent a command. -/
def Free (c : Option (Call Pid Content)) (s : Shell) : Prop :=
  s.Prompts ∨ ∃ req, s = .requested req ∧ c = some (.send gpidProcess req)

theorem SecondDue.not_prompts {s : Shell} (h : s.SecondDue) : ¬s.Prompts := by
  rintro (_ | ⟨req, type, htype⟩)
  · rcases h with ⟨req', h, -⟩ | h <;> cases h
  · rcases h with ⟨req', h, hreq⟩ | h
    · cases h
      exact htype.elim (fun hok => hok rfl) hreq
    · cases h

theorem FirstDue.not_prompts {s : Shell} {req : Content} {c : Option (Call Pid Content)}
    (h : s.FirstDue req c) : ¬s.Prompts := by
  rintro (_ | ⟨req', type, htype⟩) <;> rcases h with ⟨h, -⟩ | h <;> cases h

end Shell

namespace World

/-- A user process that has exited. -/
def Silent (exited : U → Prop) (W : World U) (p : Pid) : Prop :=
  Programs.UserPid p ∧ exited (W.programs.user p) ∧ W.waiting p = none

/-- No process that can still exit is taken for the foreground process. -/
def Settled (exited : U → Prop) (W : World U) : Prop :=
  W.programs.process.shellWaiting = true →
    W.programs.process.appPid = 0 ∨ W.Silent exited W.programs.process.appPid

theorem Settled.imp (h : W.Settled exited)
    (happ : W'.programs.process.appPid = W.programs.process.appPid)
    (hwaiting : W'.programs.process.shellWaiting = W.programs.process.shellWaiting)
    (hsilent : ∀ p, W.Silent exited p → W'.Silent exited p) : W'.Settled exited := by
  intro hw
  rw [hwaiting] at hw
  rw [happ]
  exact (h hw).imp_right (hsilent _)

end World

/-- Where the two are in each phase, with the variables of GPID_PROCESS. -/
def Phase.Holds (exited : U → Prop) (W : World U) : Phase → Prop
  | .idle =>
    W.programs.process.pc.Resting (W.waiting gpidProcess) ∧ W.Settled exited ∧
      (∀ q, W.programs.process.pc.Exits q → ¬W.programs.process.Releases q) ∧
      W.programs.shell.Free (W.waiting gpidShell)
  | .spawning req =>
    W.programs.process.pc.Spawns req ∧
      (∀ p, W.programs.process.pc.loads = some p → W.programs.process.appPid = p) ∧
      W.programs.shell.FirstDue req (W.waiting gpidShell)
  | .loaded req pid =>
    W.programs.process.pc = .loaded pid req ∧ W.programs.process.appPid = pid ∧
      W.programs.shell.FirstDue req (W.waiting gpidShell)
  | .replying m foreground =>
    W.waiting gpidProcess = some (.send gpidShell m) ∧
      ∃ req, W.programs.shell.FirstDue req (W.waiting gpidShell) ∧
        match foreground with
        | some pid => msgType m = cmdOk ∧ ¬Background req ∧ W.programs.process.Releases pid
        | none => (msgType m ≠ cmdOk ∨ Background req) ∧ W.programs.process.shellWaiting = false
  | .running pid =>
    W.programs.process.pc.Resting (W.waiting gpidProcess) ∧ W.programs.process.Releases pid ∧
      W.programs.shell.SecondDue ∧
      (∀ q req, W.programs.process.pc = .handling q req → msgType req = procExit) ∧
      ∀ q req, W.programs.process.pc = .freed q req → q ≠ pid
  | .finishing pid =>
    (∃ req, W.programs.process.pc = .freed pid req) ∧ W.programs.process.Releases pid ∧
      W.programs.shell.SecondDue ∧ W.Silent exited pid
  | .releasing =>
    (∃ m, W.waiting gpidProcess = some (.send gpidShell m)) ∧ W.programs.shell.SecondDue ∧
      W.Settled exited

namespace Phase

/-- GPID_PROCESS stays where it is, and the shell expects the same of it. -/
theorem Holds.shell {φ : Phase} (h : φ.Holds exited W) (hprocess : W'.programs.process = W.programs.process)
    (hwaits : W'.waiting gpidProcess = W.waiting gpidProcess)
    (hsilent : ∀ p, W.Silent exited p → W'.Silent exited p)
    (hfree : W.programs.shell.Free (W.waiting gpidShell) → W'.programs.shell.Free (W'.waiting gpidShell))
    (hfirst : ∀ req, W.programs.shell.FirstDue req (W.waiting gpidShell) →
      W'.programs.shell.FirstDue req (W'.waiting gpidShell))
    (hsecond : W.programs.shell.SecondDue → W'.programs.shell.SecondDue) : φ.Holds exited W' := by
  have hsettled : W.Settled exited → W'.Settled exited :=
    fun hs => hs.imp (by rw [hprocess]) (by rw [hprocess]) hsilent
  cases φ with
  | idle =>
    obtain ⟨hpc, hs, hexits, hcommand⟩ := h
    exact ⟨by rw [hprocess, hwaits]; exact hpc, hsettled hs, by rw [hprocess]; exact hexits,
      hfree hcommand⟩
  | spawning req =>
    obtain ⟨hpc, hloads, hdue⟩ := h
    exact ⟨by rw [hprocess]; exact hpc, by rw [hprocess]; exact hloads, hfirst req hdue⟩
  | loaded req pid =>
    obtain ⟨hpc, happ, hdue⟩ := h
    exact ⟨by rw [hprocess]; exact hpc, by rw [hprocess]; exact happ, hfirst req hdue⟩
  | replying m foreground =>
    obtain ⟨hsend, req, hdue, hcase⟩ := h
    exact ⟨by rw [hwaits]; exact hsend, req, hfirst req hdue, by rw [hprocess]; exact hcase⟩
  | running pid =>
    obtain ⟨hpc, hreleases, hdue, hhandling, hfreed⟩ := h
    exact ⟨by rw [hprocess, hwaits]; exact hpc, by rw [hprocess]; exact hreleases, hsecond hdue,
      by rw [hprocess]; exact hhandling, by rw [hprocess]; exact hfreed⟩
  | finishing pid =>
    obtain ⟨hpc, hreleases, hdue, hs⟩ := h
    exact ⟨by rw [hprocess]; exact hpc, by rw [hprocess]; exact hreleases, hsecond hdue, hsilent _ hs⟩
  | releasing =>
    obtain ⟨hsend, hdue, hs⟩ := h
    exact ⟨by rw [hwaits]; exact hsend, hsecond hdue, hsettled hs⟩

/-- Steps of the others are not seen. -/
theorem Holds.frame {φ : Phase} (h : φ.Holds exited W) (hprocess : W'.programs.process = W.programs.process)
    (hwaits : W'.waiting gpidProcess = W.waiting gpidProcess)
    (hshell : W'.programs.shell = W.programs.shell) (hwaits' : W'.waiting gpidShell = W.waiting gpidShell)
    (hsilent : ∀ p, W.Silent exited p → W'.Silent exited p) : φ.Holds exited W' :=
  h.shell hprocess hwaits hsilent (by rw [hshell, hwaits']; exact id) (by rw [hshell, hwaits']; exact fun _ => id)
    (by rw [hshell]; exact id)

/-- GPID_PROCESS is not at work for the shell. -/
inductive Rests : Phase → Prop where
  | idle : Rests .idle
  | running (pid : Pid) : Rests (.running pid)

theorem Holds.rests {φ : Phase} (h : φ.Holds exited W)
    (hsend : ∀ m, W.waiting gpidProcess ≠ some (.send gpidShell m))
    (hspawns : ∀ req, ¬W.programs.process.pc.Spawns req)
    (hloaded : ∀ pid req, W.programs.process.pc ≠ .loaded pid req)
    (hfreed : ∀ q req, W.programs.process.pc = .freed q req → ¬W.programs.process.Releases q) :
    φ.Rests := by
  cases φ with
  | idle => exact .idle
  | spawning req => exact absurd h.1 (hspawns req)
  | loaded req pid => exact absurd h.1 (hloaded pid req)
  | replying m foreground => exact absurd h.1 (hsend m)
  | running pid => exact .running pid
  | finishing pid =>
    obtain ⟨⟨req, hpc⟩, hreleases, -⟩ := h
    exact absurd hreleases (hfreed pid req hpc)
  | releasing =>
    obtain ⟨⟨m, hm⟩, -⟩ := h
    exact absurd hm (hsend m)

theorem Holds.spawning {φ : Phase} {req : Content} (h : φ.Holds exited W)
    (hsend : ∀ m, W.waiting gpidProcess ≠ some (.send gpidShell m))
    (hpc : W.programs.process.pc.Spawns req) : φ = .spawning req := by
  cases φ with
  | idle => exact absurd h.1 hpc.not_resting
  | spawning req' => rw [h.1.unique hpc]
  | loaded req' pid =>
    rw [h.1] at hpc
    cases hpc
  | replying m foreground => exact absurd h.1 (hsend m)
  | running pid => exact absurd h.1 hpc.not_resting
  | finishing pid =>
    obtain ⟨⟨req', hfreed⟩, -⟩ := h
    rw [hfreed] at hpc
    cases hpc
  | releasing =>
    obtain ⟨⟨m, hm⟩, -⟩ := h
    exact absurd hm (hsend m)

theorem Holds.loaded {φ : Phase} {req : Content} {pid : Pid} (h : φ.Holds exited W)
    (hsend : ∀ m, W.waiting gpidProcess ≠ some (.send gpidShell m))
    (hpc : W.programs.process.pc = .loaded pid req) : φ = .loaded req pid := by
  cases φ with
  | idle =>
    have hrest := h.1
    rw [hpc] at hrest
    cases hrest
  | spawning req' =>
    have hspawns := h.1
    rw [hpc] at hspawns
    cases hspawns
  | loaded req' pid' =>
    have he := h.1.symm.trans hpc
    cases he
    rfl
  | replying m foreground => exact absurd h.1 (hsend m)
  | running pid =>
    have hrest := h.1
    rw [hpc] at hrest
    cases hrest
  | finishing pid =>
    obtain ⟨⟨req', hfreed⟩, -⟩ := h
    rw [hfreed] at hpc
    cases hpc
  | releasing =>
    obtain ⟨⟨m, hm⟩, -⟩ := h
    exact absurd hm (hsend m)

theorem Holds.finishing {φ : Phase} {req : Content} {pid : Pid} (h : φ.Holds exited W)
    (hsend : ∀ m, W.waiting gpidProcess ≠ some (.send gpidShell m))
    (hpc : W.programs.process.pc = .freed pid req) (hreleases : W.programs.process.Releases pid) :
    φ = .finishing pid := by
  cases φ with
  | idle => exact absurd hreleases (h.2.2.1 pid ⟨req, Or.inr hpc⟩)
  | spawning req' =>
    have hspawns := h.1
    rw [hpc] at hspawns
    cases hspawns
  | loaded req' pid' => cases h.1.symm.trans hpc
  | replying m foreground => exact absurd h.1 (hsend m)
  | running pid' => exact absurd (hreleases.2.symm.trans h.2.1.2) (h.2.2.2.2 pid req hpc)
  | finishing pid' =>
    obtain ⟨⟨req', hfreed⟩, -⟩ := h
    cases hfreed.symm.trans hpc
    rfl
  | releasing =>
    obtain ⟨⟨m, hm⟩, -⟩ := h
    exact absurd hm (hsend m)

theorem Holds.rest {φ : Phase} (h : φ.Holds exited W) (hrests : φ.Rests)
    (happ : W'.programs.process.appPid = W.programs.process.appPid)
    (hwaiting : W'.programs.process.shellWaiting = W.programs.process.shellWaiting)
    (hpc : W'.programs.process.pc.Resting (W'.waiting gpidProcess))
    (hquiet : ∀ q req, W'.programs.process.pc ≠ .handling q req ∧ W'.programs.process.pc ≠ .freed q req)
    (hshell : W'.programs.shell = W.programs.shell)
    (hwaits : W'.waiting gpidShell = W.waiting gpidShell)
    (hsilent : ∀ p, W.Silent exited p → W'.Silent exited p) : φ.Holds exited W' := by
  cases hrests with
  | idle =>
    obtain ⟨-, hs, -, hfree⟩ := h
    refine ⟨hpc, hs.imp happ hwaiting hsilent, ?_, by rw [hshell, hwaits]; exact hfree⟩
    rintro q ⟨req, ⟨hq, -⟩ | hq⟩
    · exact absurd hq (hquiet q req).1
    · exact absurd hq (hquiet q req).2
  | running pid =>
    obtain ⟨-, hreleases, hdue, -, -⟩ := h
    refine ⟨hpc, ?_, by rw [hshell]; exact hdue, fun q req hq => absurd hq (hquiet q req).1,
      fun q req hq => absurd hq (hquiet q req).2⟩
    rw [ProcessServer.Releases, hwaiting, happ]
    exact hreleases

end Phase

namespace World

variable {syscall : Syscall} {c : Call Pid Content} {p q : Pid}

theorem Silent.call {ps : Programs U} (h : W.Silent exited p) (hq : p ≠ q)
    (huser : ps.user p = W.programs.user p) :
    World.Silent exited { W with waiting := W.waiting.next (.call q c), programs := ps } p := by
  obtain ⟨hp, hexited, hw⟩ := h
  refine ⟨hp, ?_, (Rendezvous.next_call_of_ne _ _ hq).trans hw⟩
  change exited (ps.user p)
  rw [huser]
  exact hexited

end World

theorem Programs.noteLabel_call (ps ps' : Programs U) (p : Pid) (c : Call Pid Content) :
    ps.noteLabel (.call p c) = ps'.noteLabel (.call p c) := by
  cases c <;> rfl

namespace Phase

variable {φ : Phase} {syscall : Syscall} {c : Call Pid Content}

theorem next_of_eq {φ φ' : Phase} {n : Note} (h : φ.next n = some φ') :
    [n].foldlM Phase.next φ = some φ' := by
  rw [List.foldlM_cons, h]
  rfl

theorem next_reply (m : Content) (foreground : Option Pid) :
    Phase.next (.replying m foreground) (.reply m) = some (foreground.elim .idle .running) := by
  cases foreground <;> simp [Phase.next]

theorem Holds.callProcess {s : ProcessServer} (h : φ.Holds exited W)
    (hidle : W.waiting gpidProcess = none) (hcalls : W.programs.process.Calls syscall s)
    (hc : syscall.call = some c) :
    ∃ φ', (W.programs.noteLabel (.call gpidProcess c)).foldlM Phase.next φ = some φ' ∧
      φ'.Holds exited { W with
        waiting := W.waiting.next (.call gpidProcess c)
        programs := { W.programs with process := s } } := by
  have hsend : ∀ m, W.waiting gpidProcess ≠ some (.send gpidShell m) := by
    rw [hidle]
    nofun
  have hsilent : ∀ p, W.Silent exited p → World.Silent exited { W with
      waiting := W.waiting.next (.call gpidProcess c)
      programs := { W.programs with process := s } } p := fun p hp => hp.call hp.1.1 rfl
  have hshell : W.waiting.next (.call gpidProcess c) gpidShell = W.waiting gpidShell :=
    Rendezvous.next_call_of_ne _ _ (by decide)
  have hfirst : ∀ req, W.programs.shell.FirstDue req (W.waiting gpidShell) →
      W.programs.shell.FirstDue req (W.waiting.next (.call gpidProcess c) gpidShell) := by
    rw [hshell]
    exact fun _ h => h
  have hself := Rendezvous.next_call_self W.waiting gpidProcess c
  cases hcalls with
  | greet app hpc hrecv =>
    have hrests := h.rests hsend (by rw [hpc]; nofun) (by rw [hpc]; nofun) (by rw [hpc]; nofun)
    rw [hrecv.call] at hc
    cases hc
    exact ⟨φ, rfl, h.rest hrests rfl rfl trivial (fun q req => ⟨nofun, nofun⟩) rfl hshell hsilent⟩
  | listen hpc hrecv =>
    have hrests : φ.Rests := by
      rcases hpc with hpc | ⟨sender, req, hpc, hreleases⟩
      · exact h.rests hsend (by rw [hpc]; nofun) (by rw [hpc]; nofun) (by rw [hpc]; nofun)
      · refine h.rests hsend (by rw [hpc]; nofun) (by rw [hpc]; nofun) ?_
        rintro q req' hq
        rw [hpc] at hq
        cases hq
        exact hreleases
    rw [hrecv.call] at hc
    cases hc
    exact ⟨φ, rfl, h.rest hrests rfl rfl trivial (fun q req => ⟨nofun, nofun⟩) rfl hshell hsilent⟩
  | ask r req hpc hsend' htype =>
    have hφ := h.spawning hsend (ProcessAt.spawns_of_asks hpc)
    subst hφ
    obtain ⟨-, hloads, hdue⟩ := h
    rw [hsend'.call] at hc
    cases hc
    refine ⟨.spawning req, rfl, rfl, fun p hp => hloads p ?_, hfirst req hdue⟩
    rw [ProcessAt.asks_loads hpc]
    exact hp
  | await r req hpc hrecv =>
    have hφ := @Holds.spawning _ _ _ _ req h hsend (by rw [hpc]; rfl)
    subst hφ
    obtain ⟨-, hloads, hdue⟩ := h
    rw [hrecv.call] at hc
    cases hc
    refine ⟨.spawning req, rfl, rfl, fun p hp => hloads p ?_, hfirst req hdue⟩
    rw [hpc]
    exact hp
  | reply type req hpc hsend' htype =>
    rw [hsend'.call] at hc
    cases hc
    rcases ProcessAt.replies_some hpc with ⟨rfl, hread⟩ | ⟨rfl, pid, hloaded⟩
    · have hφ := @Holds.spawning _ _ _ _ req h hsend (by rw [hread]; rfl)
      subst hφ
      obtain ⟨-, -, hdue⟩ := h
      refine ⟨.replying syscall.content none, next_of_eq (if_pos htype), hself, req,
        hfirst req hdue, Or.inl ?_, ?_⟩
      · rw [htype]
        decide
      · exact decide_eq_false fun hreq => absurd hreq.2 (by decide)
    · have hφ := h.loaded hsend hloaded
      subst hφ
      obtain ⟨-, happ, hdue⟩ := h
      refine ⟨.replying syscall.content (if Background req then none else some pid),
        next_of_eq (if_pos htype), hself, req, hfirst req hdue, ?_⟩
      by_cases hreq : Background req
      · rw [if_pos hreq]
        exact ⟨Or.inr hreq, decide_eq_false fun h => h.1 hreq⟩
      · rw [if_neg hreq]
        exact ⟨htype, hreq, decide_eq_true ⟨hreq, rfl⟩, happ⟩
  | release sender req hpc hwaits hsend' htype =>
    have hφ : φ = .finishing sender := h.finishing hsend hpc hwaits
    subst hφ
    obtain ⟨-, hreleases, hdue, hs⟩ := h
    rw [hsend'.call] at hc
    cases hc
    refine ⟨.releasing, rfl, ⟨syscall.content, hself⟩, hdue, fun _ => Or.inr ?_⟩
    change World.Silent exited _ W.programs.process.appPid
    rw [hreleases.2]
    exact hsilent sender hs

theorem Holds.callShell {s : Shell} (h : φ.Holds exited W) (hidle : W.waiting gpidShell = none)
    (hcalls : W.programs.shell.Calls syscall s) (hc : syscall.call = some c) :
    φ.Holds exited { W with
      waiting := W.waiting.next (.call gpidShell c)
      programs := { W.programs with shell := s } } := by
  have hself := Rendezvous.next_call_self W.waiting gpidShell c
  have hprocess : W.waiting.next (.call gpidShell c) gpidProcess = W.waiting gpidProcess :=
    Rendezvous.next_call_of_ne _ _ (by decide)
  refine h.shell rfl hprocess (fun p hp => hp.call hp.1.2.2.2 rfl) ?_ ?_ ?_
  · intro hfree
    cases hcalls with
    | killall hs hsend htype => exact Or.inl .command
    | spawn hs hsend htype =>
      rw [hsend.call] at hc
      cases hc
      exact Or.inr ⟨_, rfl, hself⟩
    | first req hs hrecv =>
      rw [hs] at hfree
      rcases hfree with hprompts | ⟨req', -, hw⟩
      · cases hprompts
      · rw [hidle] at hw
        cases hw
    | second req hs hreq hrecv =>
      rw [hs] at hfree
      rcases hfree with hprompts | ⟨req', hs', -⟩
      · cases hprompts with
        | replied _ _ htype => exact absurd htype (not_or.mpr ⟨not_not_intro rfl, hreq⟩)
      · cases hs'
  · intro req hdue
    cases hcalls with
    | killall hs hsend htype => exact absurd hs hdue.not_prompts
    | spawn hs hsend htype => exact absurd hs hdue.not_prompts
    | first req' hs hrecv =>
      rcases hdue with ⟨hs', -⟩ | hs'
      · cases hs.symm.trans hs'
        exact Or.inr rfl
      · cases hs.symm.trans hs'
    | second req' hs hreq hrecv => rcases hdue with ⟨hs', -⟩ | hs' <;> cases hs.symm.trans hs'
  · intro hdue
    cases hcalls with
    | killall hs hsend htype => exact absurd hs hdue.not_prompts
    | spawn hs hsend htype => exact absurd hs hdue.not_prompts
    | first req hs hrecv => rcases hdue with ⟨req', hs', -⟩ | hs' <;> cases hs.symm.trans hs'
    | second req hs hreq hrecv => exact Or.inr rfl

theorem Holds.call {p : Pid} {ps : Programs U} (h : φ.Holds exited W) (hcivil : conduct.Civil exited)
    (hidle : W.waiting p = none) (hc : syscall.call = some c)
    (hcalls : W.programs.Calls conduct p syscall ps) :
    ∃ φ', (ps.noteLabel (.call p c)).foldlM Phase.next φ = some φ' ∧
      φ'.Holds exited { W with waiting := W.waiting.next (.call p c), programs := ps } := by
  have hnone : p ≠ gpidProcess → ps.noteLabel (.call p c) = [] := by
    intro hp
    cases c with
    | send r m => exact if_neg fun h => hp h.1
    | recv sender => rfl
  have hother : ∀ q, q ≠ p → W.waiting.next (.call p c) q = W.waiting q :=
    fun q hq => Rendezvous.next_call_of_ne _ _ hq
  cases hcalls with
  | process hp s hcalls =>
    subst hp
    rw [Programs.noteLabel_call _ W.programs]
    exact h.callProcess hidle hcalls hc
  | terminal hp s hcalls =>
    subst hp
    rw [hnone (by decide)]
    exact ⟨φ, rfl, h.frame rfl (hother gpidProcess (by decide)) rfl
      (hother gpidShell (by decide)) fun q hq => hq.call hq.1.2.1 rfl⟩
  | file hp s hcalls =>
    subst hp
    rw [hnone (by decide)]
    exact ⟨φ, rfl, h.frame rfl (hother gpidProcess (by decide)) rfl
      (hother gpidShell (by decide)) fun q hq => hq.call hq.1.2.2.1 rfl⟩
  | shell hp s hcalls =>
    subst hp
    rw [hnone (by decide)]
    exact ⟨φ, rfl, h.callShell hidle hcalls hc⟩
  | user hp u hcall =>
    rw [hnone hp.1]
    refine ⟨φ, rfl, h.frame rfl (hother _ hp.1.symm) rfl (hother _ hp.2.2.2.symm) fun q hq => ?_⟩
    have hqp : q ≠ p := by
      rintro rfl
      exact hcivil.live hcall hq.2.1
    exact hq.call hqp (Function.update_of_ne hqp _ _)

end Phase

namespace World

variable {s r p : Pid} {m : Content}

theorem Silent.meet (h : W.Silent exited p) (hmeet : Enabled W.waiting (.meet s r m)) :
    World.Silent exited { W with
      waiting := W.waiting.next (.meet s r m)
      programs := W.programs.hear conduct s r m } p := by
  obtain ⟨hp, hexited, hw⟩ := h
  obtain ⟨hsend, sender, hrecv, -⟩ := hmeet
  have hps : p ≠ s := by
    rintro rfl
    rw [hw] at hsend
    cases hsend
  have hpr : p ≠ r := by
    rintro rfl
    rw [hw] at hrecv
    cases hrecv
  refine ⟨hp, ?_, ?_⟩
  · change exited ((W.programs.hear conduct s r m).user p)
    rw [Programs.hear_user_of_ne hpr]
    exact hexited
  · exact (Rendezvous.next_meet_of_ne _ m hps hpr).trans hw

end World

namespace Phase

variable {φ : Phase} {s r : Pid} {m : Content}

theorem Holds.hearProcess (h : φ.Holds exited W) (hwired : Wired exited W)
    (hmeet : Enabled W.waiting (.meet s gpidProcess m)) :
    ∃ φ', (W.programs.noteLabel (.meet s gpidProcess m)).foldlM Phase.next φ = some φ' ∧
      φ'.Holds exited { W with
        waiting := W.waiting.next (.meet s gpidProcess m)
        programs := W.programs.hear conduct s gpidProcess m } := by
  have hsilent : ∀ p, W.Silent exited p → World.Silent exited { W with
      waiting := W.waiting.next (.meet s gpidProcess m)
      programs := W.programs.hear conduct s gpidProcess m } p := fun p hp => hp.meet hmeet
  obtain ⟨hsend, sender, hrecv, haccepts⟩ := hmeet
  have hnone : ∀ m, W.waiting gpidProcess ≠ some (.send gpidShell m) := by
    rw [hrecv]
    rintro m ⟨⟩
  have hother : s ≠ gpidShell → W.waiting.next (.meet s gpidProcess m) gpidShell = W.waiting gpidShell :=
    fun hs => Rendezvous.next_meet_of_ne _ _ hs.symm (by decide)
  have hshell : (W.programs.hear conduct s gpidProcess m).shell = W.programs.shell :=
    Programs.hear_shell_of_ne (by decide)
  have hprocess : (W.programs.hear conduct s gpidProcess m).process = W.programs.process.hear s m := rfl
  have hcalling := hwired.process
  rw [hrecv] at hcalling
  rcases hcalling.recv with ⟨app, hpc, rfl⟩ | hpc | ⟨b, req, hpc, rfl⟩
  · have hs : app = s := haccepts app rfl
    have hne : s ≠ gpidShell := hs ▸ hwired.placed.greets app (Or.inr hpc)
    have hnext : W.programs.process.hear s m = { W.programs.process with pc := .spawn (app + 1) } := by
      rw [ProcessServer.hear, hpc]
    have hnote : W.programs.noteLabel (.meet s gpidProcess m) = [] := by
      rw [Programs.noteLabel, if_pos rfl, hpc]
    have hrests := h.rests hnone (by rw [hpc]; rintro _ ⟨⟩) (by rw [hpc]; rintro _ _ ⟨⟩)
      (by rw [hpc]; rintro _ _ ⟨⟩)
    rw [hnote]
    refine ⟨φ, rfl, h.rest hrests ?_ ?_ ?_ (fun q req => ?_) hshell (hother hne) hsilent⟩
    · rw [hprocess, hnext]
    · rw [hprocess, hnext]
    · rw [hprocess, hnext]
      exact trivial
    · rw [hprocess, hnext]
      exact ⟨by rintro ⟨⟩, by rintro ⟨⟩⟩
  · have hboots : ∀ server, ¬W.programs.process.pc.Boots server := by
      intro server
      rw [hpc]
      exact id
    have hreads : ¬W.programs.process.pc.Reads := by
      rw [hpc]
      exact id
    have hnext : W.programs.process.hear s m = { W.programs.process with pc := .handling s m } := by
      rw [ProcessServer.hear, hpc]
    have hnote : W.programs.noteLabel (.meet s gpidProcess m) =
        if msgType m = procSpawn then [.spawn m] else [] := by
      rw [Programs.noteLabel, if_pos rfl, hpc]
    have hrests := h.rests hnone (by rw [hpc]; rintro _ ⟨⟩) (by rw [hpc]; rintro _ _ ⟨⟩)
      (by rw [hpc]; rintro _ _ ⟨⟩)
    rcases hwired.sender hsend with ⟨-, hb⟩ | ⟨-, hb | hr⟩ | ⟨rfl, htype⟩ | ⟨hs, hs0, htype, -⟩
    · exact absurd hb (hboots _)
    · exact absurd hb (hboots _)
    · exact absurd hr hreads
    · have hcommand := hwired.shell
      rw [hsend] at hcommand
      have hgone : W.waiting.next (.meet gpidShell gpidProcess m) gpidShell = none :=
        Rendezvous.next_meet_sender _ _ _ _
      have hprompts : ¬W.programs.shell.SecondDue := by
        rintro (⟨req, hs, -⟩ | hs)
        · rw [hs] at hcommand
          cases hcommand
        · rw [hs] at hcommand
          cases hcommand
      cases hrests with
      | running pid => exact absurd h.2.2.1 hprompts
      | idle =>
        obtain ⟨-, hsettled, -, -⟩ := h
        rcases hcommand.send.2 with ⟨hs, hkillall⟩ | ⟨hs, hspawn⟩
        · refine ⟨.idle, ?_, ?_, ?_, ?_, Or.inl ?_⟩
          · rw [hnote, hkillall]
            rfl
          · rw [hprocess, hnext]
            change msgType m ≠ procSpawn
            rw [hkillall]
            decide
          · exact hsettled.imp (by rw [hprocess, hnext]) (by rw [hprocess, hnext]) hsilent
          · rw [hprocess, hnext]
            rintro q ⟨req, ⟨hq, hexit⟩ | hq⟩
            · cases hq
              rw [hkillall] at hexit
              cases hexit
            · cases hq
          · rw [hshell, hs]
            exact .command
        · refine ⟨.spawning m, ?_, ?_, ?_, Or.inl ⟨?_, hgone⟩⟩
          · rw [hnote, if_pos hspawn]
            rfl
          · rw [hprocess, hnext]
            exact ⟨rfl, hspawn⟩
          · rw [hprocess, hnext]
            rintro q ⟨⟩
          · rw [hshell, hs]
    · have hne : s ≠ gpidShell := hs.2.2.2
      have hspawn : msgType m ≠ procSpawn := by
        rw [htype]
        decide
      rw [hnote, if_neg hspawn]
      refine ⟨φ, rfl, ?_⟩
      cases hrests with
      | idle =>
        obtain ⟨-, hsettled, -, hfree⟩ := h
        refine ⟨?_, ?_, ?_, ?_⟩
        · rw [hprocess, hnext]
          exact hspawn
        · exact hsettled.imp (by rw [hprocess, hnext]) (by rw [hprocess, hnext]) hsilent
        · rw [hprocess, hnext]
          rintro q ⟨req, ⟨hq, -⟩ | hq⟩ hreleases
          · cases hq
            rcases hsettled hreleases.1 with happ | ⟨-, -, hw⟩
            · exact hs0 (hreleases.2.symm.trans happ)
            · rw [hreleases.2, hsend] at hw
              cases hw
          · cases hq
        · rw [hshell]
          change W.programs.shell.Free (W.waiting.next (.meet s gpidProcess m) gpidShell)
          rw [hother hne]
          exact hfree
      | running pid =>
        obtain ⟨-, hreleases, hdue, -, -⟩ := h
        refine ⟨?_, ?_, ?_, ?_, ?_⟩
        · rw [hprocess, hnext]
          exact hspawn
        · rw [hprocess, hnext]
          exact hreleases
        · rw [hshell]
          exact hdue
        · rw [hprocess, hnext]
          rintro q req ⟨⟩
          exact htype
        · rw [hprocess, hnext]
          rintro q _ ⟨⟩
  · have hs : gpidFile = s := haccepts gpidFile rfl
    have hne : s ≠ gpidShell := by
      rintro rfl
      cases hs
    have hnext : W.programs.process.hear s m = { W.programs.process with pc := .read b req } := by
      rw [ProcessServer.hear, hpc]
    have hnote : W.programs.noteLabel (.meet s gpidProcess m) = [] := by
      rw [Programs.noteLabel, if_pos rfl, hpc]
    have hφ := @Holds.spawning _ _ _ _ req h hnone (by rw [hpc]; rfl)
    subst hφ
    obtain ⟨-, hloads, hdue⟩ := h
    rw [hnote]
    refine ⟨.spawning req, rfl, ?_, ?_, ?_⟩
    · rw [hprocess, hnext]
      rfl
    · rw [hprocess, hnext]
      intro p hp
      apply hloads
      rw [hpc]
      exact hp
    · rw [hshell]
      change W.programs.shell.FirstDue req (W.waiting.next (.meet s gpidProcess m) gpidShell)
      rw [hother hne]
      exact hdue

theorem Programs.noteLabel_reply {ps : Programs U} {req : Content} (h : ps.shell = .receiving req) :
    ps.noteLabel (.meet gpidProcess gpidShell m) = [.reply m] := by
  obtain ⟨⟩ := ps
  cases h
  rfl

theorem Programs.noteLabel_release {ps : Programs U} (h : ps.shell = .waiting) :
    ps.noteLabel (.meet gpidProcess gpidShell m) = [.release] := by
  obtain ⟨⟩ := ps
  cases h
  rfl

theorem Holds.hearShell (h : φ.Holds exited W) (hwired : Wired exited W)
    (hmeet : Enabled W.waiting (.meet s gpidShell m)) :
    ∃ φ', (W.programs.noteLabel (.meet s gpidShell m)).foldlM Phase.next φ = some φ' ∧
      φ'.Holds exited { W with
        waiting := W.waiting.next (.meet s gpidShell m)
        programs := W.programs.hear conduct s gpidShell m } := by
  have hsilent : ∀ p, W.Silent exited p → World.Silent exited { W with
      waiting := W.waiting.next (.meet s gpidShell m)
      programs := W.programs.hear conduct s gpidShell m } p := fun p hp => hp.meet hmeet
  obtain ⟨hsend, sender, hrecv, -⟩ := hmeet
  obtain ⟨rfl, hpc⟩ := hwired.shellSender hsend
  have hgone : W.waiting.next (.meet gpidProcess gpidShell m) gpidProcess = none :=
    Rendezvous.next_meet_sender _ _ _ _
  have hprocess : (W.programs.hear conduct gpidProcess gpidShell m).process = W.programs.process :=
    Programs.hear_process_of_ne (by decide)
  have hshell : (W.programs.hear conduct gpidProcess gpidShell m).shell = W.programs.shell.hear m := rfl
  have hresting : W.programs.process.pc.Resting (W.waiting.next (.meet gpidProcess gpidShell m) gpidProcess) := by
    rw [hpc]
    exact hgone
  have hexits : ∀ q, ¬W.programs.process.pc.Exits q := by
    rw [hpc]
    rintro q ⟨req, ⟨hq, -⟩ | hq⟩ <;> cases hq
  have hcalling := hwired.shell
  rw [hrecv] at hcalling
  have hwaits := hcalling.recv.2
  cases φ with
  | idle =>
    have hrest := h.1
    rw [hpc, hsend] at hrest
    cases hrest
  | spawning req =>
    have hspawns := h.1
    rw [hpc] at hspawns
    cases hspawns
  | loaded req pid => cases hpc.symm.trans h.1
  | running pid =>
    have hrest := h.1
    rw [hpc, hsend] at hrest
    cases hrest
  | finishing pid =>
    obtain ⟨⟨req, hfreed⟩, -⟩ := h
    cases hpc.symm.trans hfreed
  | replying m' foreground =>
    obtain ⟨hreply, req, hdue, hcase⟩ := h
    cases hreply.symm.trans hsend
    have hs : W.programs.shell = .receiving req := by
      rcases hdue with ⟨-, hw⟩ | hs
      · rw [hrecv] at hw
        cases hw
      · exact hs
    have hreplied : (W.programs.hear conduct gpidProcess gpidShell m).shell = .replied req (msgType m) := by
      rw [hshell, hs]
      rfl
    rw [Programs.noteLabel_reply hs]
    cases foreground with
    | none =>
      obtain ⟨hprompts, hwaiting⟩ := hcase
      refine ⟨.idle, next_of_eq (next_reply m none), ?_, ?_, ?_, Or.inl ?_⟩
      · rw [hprocess]
        exact hresting
      · intro hw
        rw [hprocess, hwaiting] at hw
        cases hw
      · rw [hprocess]
        exact fun q hq => absurd hq (hexits q)
      · rw [hreplied]
        exact .replied req _ hprompts
    | some pid =>
      obtain ⟨htype, hreq, hreleases⟩ := hcase
      refine ⟨.running pid, next_of_eq (next_reply m (some pid)), ?_, ?_, ?_, ?_, ?_⟩
      · rw [hprocess]
        exact hresting
      · rw [hprocess]
        exact hreleases
      · rw [hreplied, htype]
        exact Or.inl ⟨req, rfl, hreq⟩
      · rw [hprocess, hpc]
        rintro q _ ⟨⟩
      · rw [hprocess, hpc]
        rintro q _ ⟨⟩
  | releasing =>
    obtain ⟨-, hdue, hsettled⟩ := h
    have hs : W.programs.shell = .waiting := by
      rcases hdue with ⟨req, hs, -⟩ | hs
      · rw [hs] at hwaits
        rcases hwaits with ⟨req', hs'⟩ | hs' <;> cases hs'
      · exact hs
    rw [Programs.noteLabel_release hs]
    refine ⟨.idle, next_of_eq rfl, ?_, ?_, ?_, Or.inl ?_⟩
    · rw [hprocess]
      exact hresting
    · exact hsettled.imp (by rw [hprocess]) (by rw [hprocess]) hsilent
    · rw [hprocess]
      exact fun q hq => absurd hq (hexits q)
    · rw [hshell, hs]
      exact .command

theorem Holds.meet (h : φ.Holds exited W) (hwired : Wired exited W)
    (hmeet : Enabled W.waiting (.meet s r m)) :
    ∃ φ', (W.programs.noteLabel (.meet s r m)).foldlM Phase.next φ = some φ' ∧
      φ'.Holds exited { W with
        waiting := W.waiting.next (.meet s r m)
        programs := W.programs.hear conduct s r m } := by
  by_cases hprocess : r = gpidProcess
  · subst hprocess
    exact h.hearProcess hwired hmeet
  by_cases hshell : r = gpidShell
  · subst hshell
    exact h.hearShell hwired hmeet
  have hnote : W.programs.noteLabel (.meet s r m) = [] := by
    rw [Programs.noteLabel, if_neg hprocess, if_neg hshell]
  have hsilent : ∀ p, W.Silent exited p → World.Silent exited { W with
      waiting := W.waiting.next (.meet s r m)
      programs := W.programs.hear conduct s r m } p := fun p hp => hp.meet hmeet
  obtain ⟨hsend, -⟩ := hmeet
  have hsame : (W.programs.hear conduct s r m).process = W.programs.process :=
    Programs.hear_process_of_ne hprocess
  have hsame' : (W.programs.hear conduct s r m).shell = W.programs.shell :=
    Programs.hear_shell_of_ne hshell
  have hs : s ≠ gpidShell := by
    rintro rfl
    have hcalling := hwired.shell
    rw [hsend] at hcalling
    exact hprocess hcalling.send.1
  have hwaits : W.waiting.next (.meet s r m) gpidShell = W.waiting gpidShell :=
    Rendezvous.next_meet_of_ne _ _ hs.symm (Ne.symm hshell)
  rw [hnote]
  by_cases hs1 : s = gpidProcess
  · subst hs1
    have hcalling := hwired.process
    rw [hsend] at hcalling
    rcases hcalling.send with ⟨-, -, b, req, hpc⟩ | ⟨hr, -⟩
    · have hφ : φ = .spawning req := by
        refine h.spawning (fun m' hm => ?_) (by rw [hpc]; rfl)
        cases hsend.symm.trans hm
        exact hshell rfl
      subst hφ
      obtain ⟨hspawns, hloads, hdue⟩ := h
      refine ⟨.spawning req, rfl, ?_, ?_, ?_⟩
      · rw [hsame]
        exact hspawns
      · rw [hsame]
        exact hloads
      · rw [hsame']
        change W.programs.shell.FirstDue req (W.waiting.next (.meet gpidProcess r m) gpidShell)
        rw [hwaits]
        exact hdue
    · exact absurd hr hshell
  · exact ⟨φ, rfl, h.frame hsame (Rendezvous.next_meet_of_ne _ m (Ne.symm hs1) (Ne.symm hprocess)) hsame'
      hwaits hsilent⟩

theorem Holds.alloc {s : ProcessServer} {present : Pid → Prop} {lastPid : UInt32} {pid : Pid}
    (h : φ.Holds exited W) (hwired : Wired exited W) (halloc : W.programs.process.alloc pid = some s) :
    φ.Holds exited ⟨W.waiting, present, lastPid, { W.programs with process := s }⟩ := by
  have hidle : ∀ m, W.waiting gpidProcess ≠ some (.send gpidShell m) := by
    have hcalling := hwired.process
    rcases ProcessServer.alloc_some halloc with ⟨app, hpc, -⟩ | ⟨req, hpc, -⟩ <;>
    · rw [hpc] at hcalling
      rw [show W.waiting gpidProcess = none from hcalling]
      nofun
  rcases ProcessServer.alloc_some halloc with ⟨app, hpc, rfl⟩ | ⟨req, hpc, rfl⟩
  · have hrests := h.rests hidle (by rw [hpc]; nofun) (by rw [hpc]; nofun) (by rw [hpc]; nofun)
    exact h.rest hrests rfl rfl trivial (fun q req => ⟨nofun, nofun⟩) rfl rfl fun p hp => hp
  · have hφ := @Holds.spawning _ _ _ _ req h hidle (by rw [hpc]; rfl)
    subst hφ
    obtain ⟨-, -, hdue⟩ := h
    refine ⟨rfl, fun p hp => ?_, hdue⟩
    cases hp
    rfl

theorem Holds.setReady {s : ProcessServer} {pid : Pid} (h : φ.Holds exited W) (hwired : Wired exited W)
    (hready : W.programs.process.setReady pid = some s) :
    ∃ φ', (W.programs.noteAction (.procSetReady pid)).foldlM Phase.next φ = some φ' ∧
      φ'.Holds exited { W with programs := { W.programs with process := s } } := by
  have hcalling := hwired.process
  rcases ProcessServer.setReady_some hready with ⟨app, hpc, rfl⟩ | ⟨b, req, hpc, hb, rfl⟩
  · rw [hpc] at hcalling
    have hidle : W.waiting gpidProcess = none := hcalling
    have hrests := h.rests (by rw [hidle]; nofun) (by rw [hpc]; nofun) (by rw [hpc]; nofun)
      (by rw [hpc]; nofun)
    have hnote : W.programs.noteAction (.procSetReady pid) = [] := by rw [Programs.noteAction, hpc]
    rw [hnote]
    refine ⟨φ, rfl, h.rest hrests rfl rfl ?_ (fun q req => ?_) rfl rfl fun p hp => hp⟩
    · change ProcessAt.Resting (W.waiting gpidProcess) (if app = gpidShell then .loop else .started app)
      split
      · exact hidle
      · exact trivial
    · change (if app = gpidShell then ProcessAt.loop else .started app) ≠ _ ∧
        (if app = gpidShell then ProcessAt.loop else .started app) ≠ _
      split <;> exact ⟨nofun, nofun⟩
  · rw [hpc] at hcalling
    have hidle : W.waiting gpidProcess = none := hcalling
    have hφ := @Holds.spawning _ _ _ _ req h (by rw [hidle]; nofun) (by rw [hpc]; rfl)
    subst hφ
    obtain ⟨-, hloads, hdue⟩ := h
    have hnote : W.programs.noteAction (.procSetReady pid) = [.ready pid] := by
      rw [Programs.noteAction, hpc]
    rw [hnote]
    refine ⟨.loaded req pid, next_of_eq rfl, rfl, hloads pid ?_, hdue⟩
    rw [hpc]
    exact hb

theorem Holds.free {s : ProcessServer} {pid : Pid} {w : Waiting Pid Content} {present kills : Pid → Prop}
    (h : φ.Holds exited W) (hwired : Wired exited W) (hfree : W.programs.process.free pid = some s)
    (hkills : ∀ q, kills q → Programs.UserPid q) (hkilled : ∀ q, kills q → w q = none)
    (hkept : ∀ q, ¬kills q → w q = W.waiting q) :
    ∃ φ', (W.programs.noteAction (.procFree pid)).foldlM Phase.next φ = some φ' ∧
      φ'.Holds exited ⟨w, present, W.lastPid, { W.programs with process := s }⟩ := by
  obtain ⟨sender, req, hpc, hcase⟩ := ProcessServer.free_some hfree
  have hprocess : w gpidProcess = W.waiting gpidProcess := hkept _ fun hk => (hkills _ hk).1 rfl
  have hshell : w gpidShell = W.waiting gpidShell := hkept _ fun hk => (hkills _ hk).2.2.2 rfl
  have hidle : W.waiting gpidProcess = none := by
    have hcalling := hwired.process
    rw [hpc] at hcalling
    exact hcalling
  have hnone : ∀ p, W.waiting p = none → w p = none := by
    intro p hp
    by_cases hk : kills p
    · exact hkilled p hk
    · exact (hkept p hk).trans hp
  have hsilent : ∀ p, W.Silent exited p →
      World.Silent exited ⟨w, present, W.lastPid, { W.programs with process := s }⟩ p :=
    fun p ⟨hp, hexited, hw⟩ => ⟨hp, hexited, hnone p hw⟩
  have hspawn : msgType req ≠ procSpawn := by
    rcases hcase with ⟨htype, -⟩ | ⟨htype, -⟩ <;>
    · rw [htype]
      decide
  have hrests := h.rests (by rw [hidle]; nofun) (by rw [hpc]; exact fun m hm => hspawn (hm.1 ▸ hm.2))
    (by rw [hpc]; nofun) (by rw [hpc]; nofun)
  rcases hcase with ⟨htype, rfl, rfl⟩ | ⟨htype, rfl, rfl⟩
  · have hnote : W.programs.noteAction (.procFree pid) = [.exit pid] := by
      rw [Programs.noteAction, hpc]
      exact if_pos htype
    rw [hnote]
    cases hrests with
    | idle =>
      obtain ⟨-, hsettled, hexits, hcommand⟩ := h
      refine ⟨.idle, next_of_eq rfl, trivial, hsettled.imp rfl rfl hsilent, ?_, ?_⟩
      · rintro q ⟨req', ⟨hq, -⟩ | hq⟩
        · cases hq
        · cases hq
          exact hexits pid ⟨req, Or.inl ⟨hpc, htype⟩⟩
      · change W.programs.shell.Free (w gpidShell)
        rw [hshell]
        exact hcommand
    | running fg =>
      obtain ⟨-, hreleases, hdue, -, -⟩ := h
      by_cases hp : pid = fg
      · have hs : W.Silent exited fg := by
          rcases hwired.handling pid req hpc with ⟨-, ht | ht⟩ | ⟨hu, -, hexited, hw⟩
          · exact absurd ht hspawn
          · rw [htype] at ht
            cases ht
          · exact hp ▸ ⟨hu, hexited, hw⟩
        exact ⟨.finishing fg, next_of_eq (if_pos hp), ⟨req, by rw [hp]⟩, hreleases, hdue, hsilent fg hs⟩
      · refine ⟨.running fg, next_of_eq (if_neg hp), trivial, hreleases, hdue, nofun, ?_⟩
        rintro q req' ⟨⟩
        exact hp
  · have hnote : W.programs.noteAction (.procFree gpidAll) = [.killall] := by
      rw [Programs.noteAction, hpc]
      exact if_neg (by rw [htype]; decide)
    rw [hnote]
    cases hrests with
    | idle =>
      obtain ⟨-, hsettled, -, hcommand⟩ := h
      refine ⟨.idle, next_of_eq rfl, hprocess.trans hidle, hsettled.imp rfl rfl hsilent, ?_, ?_⟩
      · rintro q ⟨req', ⟨hq, -⟩ | hq⟩ <;> cases hq
      · change W.programs.shell.Free (w gpidShell)
        rw [hshell]
        exact hcommand
    | running fg =>
      have hexit := h.2.2.2.1 sender req hpc
      rw [htype] at hexit
      cases hexit

theorem Holds.step {guard : World U → Pid → Prop} {ms : List Note} (h : φ.Holds exited W)
    (hwired : Wired exited W) (hcivil : conduct.Civil exited)
    (hstep : World.Step conduct guard W ms W') :
    ∃ φ', ms.foldlM Phase.next φ = some φ' ∧ φ'.Holds exited W' := by
  cases hstep with
  | call hpresent hknown hne hidle hc hcall => exact h.call hcivil hidle hc (Programs.call_some hcall)
  | meet henabled => exact h.meet hwired henabled
  | alloc hwrap hfound halloc => exact ⟨φ, rfl, h.alloc hwired halloc⟩
  | setReady hready => exact h.setReady hwired hready
  | free hguard hfree hkills hkilled hkept =>
    exact h.free hwired hfree (fun q hq => hwired.kills_user hfree (hkills q hq)) hkilled hkept

end Phase

theorem World.Run.phase {guard : World U → Pid → Prop} {ns : List Note} (hcivil : conduct.Civil exited)
    (h : World.Run conduct guard W ns) :
    ∃ φ : Phase, ns.foldlM Phase.next .idle = some φ ∧ φ.Holds exited W := by
  induction h with
  | boot shellWaiting =>
    refine ⟨.idle, rfl, trivial, fun _ => Or.inl rfl, ?_, Or.inl .command⟩
    rintro q ⟨req, ⟨hq, -⟩ | hq⟩ <;> cases hq
  | @step W W' ns ms h hstep ih =>
    obtain ⟨φ, hns, hholds⟩ := ih
    obtain ⟨φ', hms, hholds'⟩ := hholds.step (h.wired hcivil) hcivil hstep
    refine ⟨φ', ?_, hholds'⟩
    rw [List.foldlM_append, hns]
    exact hms

/-! The order of the notes. -/

namespace Phase

/-- A foreground process, from PROC_SPAWN to the reply that the shell has received. -/
def Starts (ns : List Note) (pid : Pid) : Prop :=
  ∃ as req m, ns = as ++ [.spawn req, .ready pid, .send m, .reply m] ∧ ¬Background req ∧ msgType m = cmdOk

/-- Since its reply only other processes have exited. -/
def Runs (ns : List Note) (pid : Pid) : Prop :=
  ∃ as es, ns = as ++ es ∧ Starts as pid ∧ ∀ n ∈ es, ∃ q, q ≠ pid ∧ n = .exit q

/-- How the notes end in each phase. -/
def Ends (ns : List Note) : Phase → Prop
  | .idle => True
  | .spawning req => ∃ as, ns = as ++ [.spawn req]
  | .loaded req pid => ∃ as, ns = as ++ [.spawn req, .ready pid]
  | .replying _ none => True
  | .replying m (some pid) =>
    ∃ as req, ns = as ++ [.spawn req, .ready pid, .send m] ∧ ¬Background req ∧ msgType m = cmdOk
  | .running pid => Runs ns pid
  | .finishing pid => ∃ as, ns = as ++ [.exit pid] ∧ Runs as pid
  | .releasing => ∃ as pid m, ns = as ++ [.exit pid, .send m] ∧ Runs as pid

theorem Ends.next {ns : List Note} {φ φ' : Phase} {n : Note} (h : φ.Ends ns) (hnext : φ.next n = some φ') :
    φ'.Ends (ns ++ [n]) := by
  cases φ with
  | idle => cases n <;> cases hnext <;> first | exact trivial | exact ⟨ns, rfl⟩
  | spawning req =>
    obtain ⟨as, rfl⟩ := h
    cases n with
    | ready pid =>
      cases hnext
      exact ⟨as, List.append_assoc _ _ _⟩
    | send m =>
      dsimp only [Phase.next] at hnext
      split at hnext <;> cases hnext
      exact trivial
    | _ => cases hnext
  | loaded req pid =>
    obtain ⟨as, rfl⟩ := h
    cases n with
    | send m =>
      dsimp only [Phase.next] at hnext
      split at hnext
      · rename_i htype
        cases hnext
        split
        · exact trivial
        · rename_i hreq
          exact ⟨as, req, List.append_assoc _ _ _, hreq, htype⟩
      · cases hnext
    | _ => cases hnext
  | replying m foreground =>
    cases foreground with
    | none =>
      cases n with
      | reply m' =>
        dsimp only [Phase.next] at hnext
        split at hnext <;> cases hnext
        exact trivial
      | _ => cases hnext
    | some pid =>
      obtain ⟨as, req, rfl, hreq, htype⟩ := h
      cases n with
      | reply m' =>
        dsimp only [Phase.next] at hnext
        split at hnext
        · rename_i hm
          cases hnext
          subst hm
          exact ⟨_, [], (List.append_nil _).symm, ⟨as, req, m', List.append_assoc _ _ _, hreq, htype⟩, nofun⟩
        · cases hnext
      | _ => cases hnext
  | running pid =>
    cases n with
    | exit q =>
      dsimp only [Phase.next] at hnext
      split at hnext
      · rename_i hq
        cases hnext
        exact ⟨ns, by rw [hq], h⟩
      · rename_i hq
        cases hnext
        obtain ⟨as, es, rfl, hstarts, hes⟩ := h
        refine ⟨as, es ++ [.exit q], List.append_assoc _ _ _, hstarts, fun n hn => ?_⟩
        rcases List.mem_append.mp hn with hn | hn
        · exact hes n hn
        · exact ⟨q, hq, List.mem_singleton.mp hn⟩
    | _ => cases hnext
  | finishing pid =>
    obtain ⟨as, rfl, hruns⟩ := h
    cases n with
    | send m =>
      cases hnext
      exact ⟨as, pid, m, List.append_assoc _ _ _, hruns⟩
    | _ => cases hnext
  | releasing =>
    cases n <;> cases hnext
    exact trivial

theorem ends {ns : List Note} {φ : Phase} (h : ns.foldlM Phase.next .idle = some φ) : φ.Ends ns := by
  induction ns using List.reverseRecOn generalizing φ with
  | nil =>
    cases h
    exact trivial
  | append_singleton ns n ih =>
    rw [List.foldlM_append] at h
    obtain ⟨φ₁, hns, hn⟩ := Option.bind_eq_some_iff.mp h
    rw [List.foldlM_cons] at hn
    obtain ⟨φ₂, hnext, hnil⟩ := Option.bind_eq_some_iff.mp hn
    cases hnil
    exact (ih hns).next hnext

/-- Before each release, the process that the shell waits for has exited, and the message that
releases it has been sent. -/
theorem released {as bs : List Note} {φ : Phase}
    (h : (as ++ .release :: bs).foldlM Phase.next .idle = some φ) : Phase.releasing.Ends as := by
  rw [List.foldlM_append] at h
  obtain ⟨φ₁, has, hrest⟩ := Option.bind_eq_some_iff.mp h
  rw [List.foldlM_cons] at hrest
  obtain ⟨φ₂, hnext, -⟩ := Option.bind_eq_some_iff.mp hrest
  cases φ₁ with
  | releasing => exact ends has
  | replying m foreground => cases foreground <;> cases hnext
  | _ => cases hnext

end Phase

/-- A user application: it calls what it likes but for sends to the shell, and for sends to
GPID_PROCESS other than that of `exit`, from which it does not return. -/
inductive UserApp where
  | running
  | exited

def UserApp.call : UserApp → Syscall → Option UserApp
  | .running, syscall =>
    if syscall.SendsTo gpidProcess then
      if msgType syscall.content = procExit then some .exited else none
    else if syscall.SendsTo gpidShell then none
    else some .running
  | .exited, _ => none

def userApps : Conduct UserApp := ⟨.running, UserApp.call, fun u _ _ => u⟩

theorem userApps_civil : userApps.Civil (· = .exited) where
  live := by
    rintro u u' syscall h rfl
    cases h
  shell := by
    intro u u' syscall h hsend
    cases u with
    | running =>
      change (if syscall.SendsTo gpidProcess then _ else _) = _ at h
      have hprocess : ¬syscall.SendsTo gpidProcess := fun hp => by cases hp.2.symm.trans hsend.2
      rw [if_neg hprocess, if_pos hsend] at h
      cases h
    | exited => cases h
  exit := by
    intro u u' syscall h hsend
    cases u with
    | running =>
      change (if syscall.SendsTo gpidProcess then _ else _) = _ at h
      rw [if_pos hsend] at h
      split at h
      · rename_i htype
        cases h
        exact ⟨htype, rfl⟩
      · cases h
    | exited => cases h
  hear := id

/-- A side that is blocked on a message has a partner that owes it. -/
structure Phase.Fits (φ : Phase) (S : System U) : Prop where
  /-- GPID_PROCESS in `sys_send` to the shell. -/
  sender : ∀ i, S.kernel.Blocked i → (S.kernel.procSet i).pid = gpidProcess →
    (S.kernel.procSet i).syscall.SendsTo gpidShell →
    (∃ foreground, φ = .replying (S.kernel.procSet i).syscall.content foreground) ∧
        (∃ req, S.programs.shell = .requested req ∨ S.programs.shell = .receiving req) ∨
      φ = .releasing ∧ S.programs.shell.SecondDue
  /-- The shell in its first or its second `sys_recv`. -/
  receiver : ∀ i, S.kernel.Blocked i → (S.kernel.procSet i).pid = gpidShell →
    (S.kernel.procSet i).syscall.type = .recv →
    ((∃ req, φ = .spawning req) ∨ (∃ req pid, φ = .loaded req pid) ∨ ∃ m foreground, φ = .replying m foreground) ∧
        (∃ req, S.programs.shell = .receiving req) ∨
      ((∃ pid, φ = .running pid ∨ φ = .finishing pid) ∨ φ = .releasing) ∧ S.programs.shell = .waiting

theorem Phase.Holds.fits {φ : Phase} {S : System U} (h : φ.Holds exited S.world)
    (hwired : Wired exited S.world) (hsound : S.kernel.Sound) : φ.Fits S := by
  constructor
  · intro i hi hpid hsends
    obtain ⟨c, hc, hw⟩ := hsound.waits hi
    rw [hsends.call] at hc
    cases hc
    rw [hpid] at hw
    have hloop := (hwired.shellSender hw).2
    cases φ with
    | idle =>
      have hrest := h.1
      rw [hloop, show S.world.waiting gpidProcess = _ from hw] at hrest
      cases hrest
    | spawning req =>
      have hspawns := h.1
      rw [hloop] at hspawns
      cases hspawns
    | loaded req pid => cases hloop.symm.trans h.1
    | running pid =>
      have hrest := h.1
      rw [hloop, show S.world.waiting gpidProcess = _ from hw] at hrest
      cases hrest
    | finishing pid =>
      obtain ⟨⟨req, hfreed⟩, -⟩ := h
      cases hloop.symm.trans hfreed
    | replying m foreground =>
      obtain ⟨hsend, req, hdue, -⟩ := h
      cases hw.symm.trans hsend
      exact Or.inl ⟨⟨foreground, rfl⟩, req, hdue.imp And.left id⟩
    | releasing => exact Or.inr ⟨rfl, h.2.1⟩
  · intro i hi hpid htype
    obtain ⟨c, hc, hw⟩ := hsound.waits hi
    have hrecv : (S.kernel.procSet i).syscall.ReceivesFrom (S.kernel.procSet i).syscall.sender := ⟨htype, rfl⟩
    rw [hrecv.call] at hc
    cases hc
    rw [hpid] at hw
    have hcalling := hwired.shell
    rw [show S.world.waiting gpidShell = _ from hw] at hcalling
    have hfirst : ∀ {req c}, S.programs.shell.FirstDue req c → ∃ req, S.programs.shell = .receiving req := by
      rintro req c (⟨hs, -⟩ | hs)
      · rcases hcalling.recv.2 with hs' | hs'
        · exact hs'
        · cases hs.symm.trans hs'
      · exact ⟨req, hs⟩
    have hsecond : S.programs.shell.SecondDue → S.programs.shell = .waiting := by
      rintro (⟨req, hs, -⟩ | hs)
      · rcases hcalling.recv.2 with ⟨req', hs'⟩ | hs' <;> cases hs.symm.trans hs'
      · exact hs
    cases φ with
    | idle =>
      rcases h.2.2.2 with hprompts | ⟨req, hs, -⟩
      · rcases hcalling.recv.2 with ⟨req', hs⟩ | hs <;>
        · rw [show S.world.programs.shell = _ from hs] at hprompts
          cases hprompts
      · rcases hcalling.recv.2 with ⟨req', hs'⟩ | hs' <;> cases hs.symm.trans hs'
    | spawning req => exact Or.inl ⟨Or.inl ⟨req, rfl⟩, hfirst h.2.2⟩
    | loaded req pid => exact Or.inl ⟨Or.inr (Or.inl ⟨req, pid, rfl⟩), hfirst h.2.2⟩
    | replying m foreground =>
      obtain ⟨-, req, hdue, -⟩ := h
      exact Or.inl ⟨Or.inr (Or.inr ⟨m, foreground, rfl⟩), hfirst hdue⟩
    | running pid => exact Or.inr ⟨Or.inl ⟨pid, Or.inl rfl⟩, hsecond h.2.2.1⟩
    | finishing pid => exact Or.inr ⟨Or.inl ⟨pid, Or.inr rfl⟩, hsecond h.2.2.1⟩
    | releasing => exact Or.inr ⟨Or.inr rfl, hsecond h.2.1⟩

/-- The shell spawns a foreground process, which exits. -/
def foreground : List Action :=
  bootActions ++ spawnActions false ++
    [receiveFrom 1, sendTo 1 (message 1), receiveFrom gpidAll, .procFree 5, sendTo 4 (message 1)]

def Note.IsRelease : Note → Bool
  | .release => true
  | _ => false

end OsSuite.Grass
