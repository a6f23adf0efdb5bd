import OsSuite.Contexts
import OsSuite.EntryTrace

/-! Preemption is transparent: whatever the other processes do in between, a process goes on with
the registers and at the place at which it trapped. -/

namespace OsSuite.Grass

open Earth (Pid PageInfoTable)

variable {env : Env} {k k' : Kernel} {i j : Slot}

/-- What a process sees of its context. -/
structure View where
  pc : UInt32
  regs : Reg → UInt32

def Context.view (x : Context) : View := ⟨x.pc, fun r => x.saved r.saved⟩

def Machine.view (m : Machine) : View := ⟨m.pc, m.regs⟩

/-- `kernel_entry`, as `trap_entry` calls it. It keeps `sp`, as every function does, and changes
the other registers and the rest of the kernel stack as it likes. -/
structure KernelEntry (env : Env) (k k' : Kernel) (mcause : UInt32) (syscall : Syscall)
    (m m' : Machine) : Prop where
  entry : k.kernelEntry env ⟨m.mepc, m.savedArea, mcause, syscall⟩ = .ok k'
  mepc : m'.mepc = k'.curr.mepc
  area : m'.savedArea = k'.curr.savedRegisters
  sp : m'.regs .sp = m.regs .sp

inductive Switch where
  | left (pid : Pid) (view : View)
  | entered (pid : Pid) (view : View)

/-- The view with which a trap leaves the process. It comes back behind an `ecall`. -/
def Machine.leaves (m : Machine) (mcause : UInt32) : View :=
  if mcause &&& 0x80000000 ≠ 0 then ⟨m.pc, m.regs⟩ else ⟨m.pc + 4, m.regs⟩

/-- The runs of one core. Between traps the process, or GPID_PROCESS and its calls of the kernel,
may do anything to the registers and to the memory of the machine. -/
inductive CoreRun (env : Env) : Kernel → Machine → List Switch → Prop where
  | boot {table : PageInfoTable} {k : Kernel} (h : Kernel.grassEntry env table = .ok k) (m : Machine) :
    CoreRun env k m []
  | compute {k : Kernel} {m : Machine} {es : List Switch} (h : CoreRun env k m es) (m' : Machine) :
    CoreRun env k m' es
  | call {k k' : Kernel} {m : Machine} {es : List Switch} {a : Action} (h : CoreRun env k m es)
    (hcall : ∀ t, a ≠ .trap t) (hallowed : a.Allowed k) (hwrap : Unwrapped k a)
    (hstep : a.step env k = .ok k') : CoreRun env k' m es
  | trap {k k' : Kernel} {m m' : Machine} {es : List Switch} {mcause : UInt32} {syscall : Syscall}
    (h : CoreRun env k m es)
    (hexec : Machine.Exec (KernelEntry env k k' mcause syscall) trapEntry { m with mepc := m.pc } m') :
    CoreRun env k' m' (es ++ [.left k.curr.pid (m.leaves mcause), .entered k'.curr.pid m'.view])

/-- How the process was left last. -/
def lastLeft (p : Pid) (es : List Switch) : Option View :=
  es.foldl (fun last e => match e with
    | .left q v => if q = p then some v else last
    | .entered _ _ => last) none

@[simp] theorem lastLeft_left (p q : Pid) (es : List Switch) (v : View) :
    lastLeft p (es ++ [.left q v]) = if q = p then some v else lastLeft p es := by
  rw [lastLeft, List.foldl_append]
  rfl

@[simp] theorem lastLeft_entered (p q : Pid) (es : List Switch) (v : View) :
    lastLeft p (es ++ [.entered q v]) = lastLeft p es := by
  rw [lastLeft, List.foldl_append]
  rfl

theorem lastLeft_switch (p q r : Pid) (es : List Switch) (v w : View) :
    lastLeft p (es ++ [.left q v, .entered r w]) = if q = p then some v else lastLeft p es := by
  have hsplit : es ++ [.left q v, .entered r w] = es ++ [.left q v] ++ [.entered r w] := by simp
  rw [hsplit, lastLeft_entered, lastLeft_left]

/-- A process starts at its entry, with argc and argv. -/
def View.Starts (v : View) : Prop := v.pc = appsEntry ∧ v.regs .a0 = appsArg ∧ v.regs .a1 = appsArg + 4

/-- The process goes on as it was left, or starts. -/
def Resumes (last : Option View) (v : View) : Prop := last.elim v.Starts fun w => v = w

theorem Context.enter_starts (x : Context) : x.enter.view.Starts := ⟨rfl, rfl, rfl⟩

/-- The saved contexts are those with which the processes were left. -/
structure Faithful (k : Kernel) (es : List Switch) : Prop where
  sound : k.Sound
  begun : ∀ i, (k.procSet i).Begun → i ≠ k.currProcIdx →
    lastLeft (k.procSet i).pid es = some (k.procSet i).context.view
  new : ∀ i, (k.procSet i).status = .loading ∨ (k.procSet i).status = .ready →
    lastLeft (k.procSet i).pid es = none
  fresh : ∀ n, k.lastPid < n → lastLeft (pidOf n) es = none

theorem Faithful.boot {table : PageInfoTable} (h : Kernel.grassEntry env table = .ok k) : Faithful k [] := by
  obtain ⟨hslots, hcurr, -, -⟩ := Kernel.grassEntry_slots h
  refine ⟨Kernel.Sound.boot h, fun i hbegun hi => ?_, fun _ _ => rfl, fun _ _ => rfl⟩
  rw [hslots, if_neg (hcurr ▸ hi)] at hbegun
  rcases hbegun with h | h | h <;> cases h

namespace Kernel

/-- A call of the kernel by GPID_PROCESS makes no context its own. -/
structure Keeps (k k' : Kernel) : Prop where
  slot : ∀ i, (k'.procSet i).pid = (k.procSet i).pid ∧ (k'.procSet i).context = (k.procSet i).context
  level : ∀ i, (k'.procSet i).mlfqLevel = (k.procSet i).mlfqLevel
  status : ∀ i, (k'.procSet i).status = (k.procSet i).status ∨ (k'.procSet i).status = .unused
  lastPid : k'.lastPid = k.lastPid
  currProcIdx : k'.currProcIdx = k.currProcIdx

theorem Keeps.refl (k : Kernel) : k.Keeps k := ⟨fun _ => ⟨rfl, rfl⟩, fun _ => rfl, fun _ => Or.inl rfl, rfl, rfl⟩

theorem Keeps.trans {k'' : Kernel} (h : k.Keeps k') (h' : k'.Keeps k'') : k.Keeps k'' := by
  refine ⟨fun i => ⟨(h'.slot i).1.trans (h.slot i).1, (h'.slot i).2.trans (h.slot i).2⟩,
    fun i => (h'.level i).trans (h.level i), fun i => ?_, h'.lastPid.trans h.lastPid,
    h'.currProcIdx.trans h.currProcIdx⟩
  rcases h'.status i with he | he
  · rw [he]
    exact h.status i
  · exact Or.inr he

theorem Keeps.set {p : Process} (hpid : p.pid = (k.procSet i).pid) (hcontext : p.context = (k.procSet i).context)
    (hlevel : p.mlfqLevel = (k.procSet i).mlfqLevel)
    (hstatus : p.status = (k.procSet i).status ∨ p.status = .unused) : k.Keeps (k.set i p) := by
  refine ⟨fun j => ?_, fun j => ?_, fun j => ?_, rfl, rfl⟩
  · by_cases hj : j = i
    · rw [hj, set_self]
      exact ⟨hpid, hcontext⟩
    · rw [set_of_ne k p hj]
      exact ⟨rfl, rfl⟩
  · by_cases hj : j = i
    · rw [hj, set_self]
      exact hlevel
    · rw [set_of_ne k p hj]
  · by_cases hj : j = i
    · rw [hj, set_self]
      exact hstatus
    · rw [set_of_ne k p hj]
      exact Or.inl rfl

theorem terminate_keeps (env : Env) (k : Kernel) (i : Slot) (p : Pid) :
    k.Keeps ((k.terminate env i).mmuFree p) := by
  have hset : k.Keeps (k.set i { k.procSet i with timeTerminated := k.mtimeGet env }) := .set rfl rfl rfl (Or.inl rfl)
  exact ⟨hset.slot, hset.level, hset.status, rfl, rfl⟩

theorem freeUser_keeps (env : Env) (k : Kernel) (i : Slot) : k.Keeps (k.freeUser env i) := by
  unfold freeUser
  dsimp only
  split
  · exact (terminate_keeps env k i _).trans (.set rfl rfl rfl (Or.inr rfl))
  · exact .refl k

theorem freeUsers_keeps (env : Env) (q : List Slot) (k : Kernel) : k.Keeps (q.foldl (freeUser env) k) := by
  induction q generalizing k with
  | nil => exact .refl k
  | cons i q ih => exact (freeUser_keeps env k i).trans (ih _)

theorem procFree_keeps (env : Env) (k : Kernel) (p : Pid) : k.Keeps (k.procFree env p) := by
  unfold procFree
  split
  · split
    · rename_i i _
      refine (terminate_keeps env k i p).trans ⟨fun j => ?_, fun j => ?_, fun j => ?_, rfl, rfl⟩ <;>
      · simp only [procSetStatus]
        split <;> simp [Process.context]
    · exact .refl k
  · exact freeUsers_keeps env _ k

end Kernel

variable {es : List Switch}

theorem Faithful.keeps (h : Faithful k es) (hkeeps : k.Keeps k') (hsound : k'.Sound) : Faithful k' es := by
  refine ⟨hsound, fun i hbegun hi => ?_, fun i hnew => ?_, fun n hn => ?_⟩
  · obtain ⟨hpid, hcontext⟩ := hkeeps.slot i
    have hsame := (hkeeps.status i).resolve_right fun hu => by rcases hbegun with h | h | h <;> rw [hu] at h <;> cases h
    rw [hpid, hcontext]
    rw [Process.Begun, hsame] at hbegun
    exact h.begun i hbegun (hkeeps.currProcIdx ▸ hi)
  · have hsame := (hkeeps.status i).resolve_right fun hu => by rcases hnew with h | h <;> rw [hu] at h <;> cases h
    rw [(hkeeps.slot i).1]
    rw [hsame] at hnew
    exact h.new i hnew
  · rw [hkeeps.lastPid] at hn
    exact h.fresh n hn

theorem Faithful.procSetReady {p : Pid} (h : Faithful k es) (hallowed : (Action.procSetReady p).Allowed k) :
    Faithful (k.procSetReady p) es := by
  obtain ⟨-, i, rfl, hi⟩ := hallowed
  have hlive : (k.procSet i).status ≠ .unused := by
    rw [hi]
    decide
  have hslot : ∀ j, (k.procSetReady (k.procSet i).pid).procSet j = k.procSet j ∨
      j = i ∧ (k.procSetReady (k.procSet i).pid).procSet j = { k.procSet j with status := .ready } := by
    intro j
    simp only [Kernel.procSetReady, Kernel.procSetStatus]
    split
    · rename_i hj
      exact Or.inr ⟨h.sound.synced.pids.live_eq hlive hj.2, rfl⟩
    · exact Or.inl rfl
  refine ⟨h.sound.procSetReady ⟨i, rfl, hi⟩, fun j hbegun hj => ?_, fun j hnew => ?_, h.fresh⟩
  · rcases hslot j with he | ⟨-, he⟩ <;> rw [he] at hbegun ⊢
    · exact h.begun j hbegun hj
    · exact absurd rfl hbegun.ne_ready
  · rcases hslot j with he | ⟨rfl, he⟩ <;> rw [he] at hnew ⊢
    · exact h.new j hnew
    · exact h.new j (Or.inl hi)

theorem Faithful.procAlloc {p : Pid} (h : Faithful k es) (hwrap : k.lastPid + 1 ≠ 0)
    (halloc : k.procAlloc env = .ok (p, k')) : Faithful k' es := by
  have hsound := h.sound.procAlloc hwrap halloc
  have hlast := Kernel.lt_succ_of_ne_zero hwrap
  obtain ⟨i, -, rfl, hk'⟩ := Kernel.procAlloc_ok halloc
  have hself : k'.procSet i = (k.procSet i).claim (pidOf (k.lastPid + 1)) (k.mtimeGet env) := by
    rw [hk']
    exact Function.update_self _ _ _
  have hother : ∀ j, j ≠ i → k'.procSet j = k.procSet j := by
    intro j hj
    rw [hk']
    exact Function.update_of_ne hj _ _
  have hcurr : k'.currProcIdx = k.currProcIdx := by rw [hk']; rfl
  refine ⟨hsound, fun j hbegun hj => ?_, fun j hnew => ?_, fun n hn => ?_⟩
  · by_cases hji : j = i
    · rw [hji, hself] at hbegun
      rcases hbegun with h | h | h <;> cases h
    · rw [hother j hji] at hbegun ⊢
      exact h.begun j hbegun (hcurr ▸ hj)
  · by_cases hji : j = i
    · rw [hji, hself]
      exact h.fresh _ hlast
    · rw [hother j hji] at hnew ⊢
      exact h.new j hnew
  · rw [hk'] at hn
    exact h.fresh n (UInt32.lt_trans hlast hn)

/-- A process that has not run yet is not the one that is running. -/
theorem Kernel.Sound.new_ne {i : Slot} (h : k.Sound)
    (hnew : (k.procSet i).status = .loading ∨ (k.procSet i).status = .ready) : i ≠ k.currProcIdx := by
  rintro rfl
  rw [(h.running _).mpr rfl] at hnew
  rcases hnew with h | h <;> cases h

theorem Kernel.Sound.pid_ne {i : Slot} (h : k.Sound) (hi : i ≠ k.currProcIdx) : k.curr.pid ≠ (k.procSet i).pid :=
  fun hpid => hi (h.synced.pids.live_eq h.live hpid.symm)

section Switch

variable {x : Context}

/-- After the switch the contexts are still those with which the processes were left. -/
theorem Faithful.switch (h : Faithful k es) (hsound : k'.Sound)
    (hswitched : k.Switched k' (Function.update (fun i => (k.procSet i).context) k.currProcIdx x))
    (hlast : k'.lastPid = k.lastPid) (p : Pid) (v : View) :
    Faithful k' (es ++ [.left k.curr.pid x.view, .entered p v]) := by
  refine ⟨hsound, fun i hbegun hi => ?_, fun i hnew => ?_, fun n hn => ?_⟩
  · have hbefore : (k.procSet i).Begun := by
      rcases hswitched.status i hi with he | ⟨hk, -⟩
      · rw [Process.Begun, ← he]
        exact hbegun
      · exact hk
    rw [lastLeft_switch, hswitched.pid, hswitched.kept i hi]
    by_cases hic : i = k.currProcIdx
    · rw [hic, if_pos (show k.curr.pid = (k.procSet k.currProcIdx).pid from rfl), Function.update_self]
    · rw [if_neg (h.sound.pid_ne hic), Function.update_of_ne hic]
      exact h.begun i hbefore hic
  · have hstatus := (hswitched.status i (hsound.new_ne hnew)).resolve_right fun hb => by
      rcases hb.2 with h | h | h <;> rcases hnew with h' | h' <;> rw [h'] at h <;> cases h
    rw [hstatus] at hnew
    rw [lastLeft_switch, hswitched.pid, if_neg (h.sound.pid_ne (h.sound.new_ne hnew))]
    exact h.new i hnew
  · rw [hlast] at hn
    obtain ⟨n', hn', hpid⟩ := h.sound.synced.pids.known k.currProcIdx
    have hne : k.curr.pid ≠ pidOf n := by
      intro he
      rw [← pidOf_injective (hpid.symm.trans he)] at hn
      exact UInt32.not_lt.mpr hn' hn
    rw [lastLeft_switch, if_neg hne]
    exact h.fresh n hn

/-- The process that is switched to goes on as it was left, or starts. -/
theorem Faithful.resumes (h : Faithful k es)
    (hswitched : k.Switched k' (Function.update (fun i => (k.procSet i).context) k.currProcIdx x)) :
    Resumes (lastLeft k'.curr.pid (es ++ [.left k.curr.pid x.view])) k'.curr.context.view := by
  rw [lastLeft_left, show k'.curr.pid = (k.procSet k'.currProcIdx).pid from hswitched.pid _]
  by_cases hic : k'.currProcIdx = k.currProcIdx
  · have hcurrent : k.curr.Begun := Or.inl ((h.sound.running _).mpr rfl)
    rw [hswitched.resumed (hic ▸ hcurrent), hic, if_pos (show k.curr.pid = (k.procSet k.currProcIdx).pid from rfl),
      Function.update_self]
    rfl
  · rw [if_neg (h.sound.pid_ne hic)]
    by_cases hbegun : (k.procSet k'.currProcIdx).Begun
    · rw [hswitched.resumed hbegun, Function.update_of_ne hic, h.begun _ hbegun hic]
      rfl
    · obtain ⟨hready, henter⟩ := hswitched.entered hbegun
      rw [henter, h.new _ (Or.inr hready)]
      exact Context.enter_starts _

end Switch

section Trap

variable {m m' : Machine} {mcause : UInt32} {syscall : Syscall}

theorem unwrapped_trap (k : Kernel) (t : Trap) : Unwrapped k (.trap t) := by
  intro h
  cases h

/-- What the two ends of `trap_entry` do, put together. -/
theorem trap_switches (h : k.Sound)
    (hexec : Machine.Exec (KernelEntry env k k' mcause syscall) trapEntry { m with mepc := m.pc } m') :
    ∃ x, k'.Sound ∧ k.Switched k' (Function.update (fun i => (k.procSet i).context) k.currProcIdx x) ∧
      x.view = m.leaves mcause ∧ m'.view = k'.curr.context.view ∧ k'.lastPid = k.lastPid := by
  obtain ⟨m₁, m₂, hsaves, hentry, hrestores⟩ := Machine.exec_trapEntry (fun _ _ hcall => hcall.sp) hexec
  let t : Trap := ⟨m₁.mepc, m₁.savedArea, mcause, syscall⟩
  have hk' : k.kernelEntry env t = .ok k' := hentry.entry
  have hsaved : (fun r => m₁.savedArea (Reg.saved r)) = m.regs := funext hsaves.area
  refine ⟨t.context, Action.step_sound (a := .trap t) h trivial (unwrapped_trap k t) hk', h.entry_switched hk', ?_, ?_,
    (h.entry_trace hk').2.1⟩
  · have hmepc : t.mepc = m.pc := hsaves.mepc
    unfold Trap.context Machine.leaves Context.view
    rw [hmepc]
    split <;> exact congrArg (View.mk _) hsaved
  · have hregs : m'.regs = fun r => k'.curr.savedRegisters r.saved := by
      funext r
      rw [hrestores.regs, hentry.area]
    unfold Machine.view
    rw [hregs, hrestores.pc, hentry.mepc]
    rfl

theorem Faithful.trap (h : Faithful k es)
    (hexec : Machine.Exec (KernelEntry env k k' mcause syscall) trapEntry { m with mepc := m.pc } m') :
    Faithful k' (es ++ [.left k.curr.pid (m.leaves mcause), .entered k'.curr.pid m'.view]) ∧
      Resumes (lastLeft k'.curr.pid (es ++ [.left k.curr.pid (m.leaves mcause)])) m'.view := by
  obtain ⟨x, hsound, hswitched, hleaves, hview, hlast⟩ := trap_switches h.sound hexec
  rw [← hleaves, hview]
  exact ⟨h.switch hsound hswitched hlast _ _, h.resumes hswitched⟩

end Trap

theorem CoreRun.faithful {m : Machine} (h : CoreRun env k m es) : Faithful k es := by
  induction h with
  | boot h m => exact .boot h
  | compute _ m' ih => exact ih
  | @call k k' m es a _ hcall hallowed hwrap hstep ih =>
    have hsound := Action.step_sound ih.sound hallowed hwrap hstep
    cases a with
    | trap t => exact absurd rfl (hcall t)
    | procAlloc =>
      obtain ⟨pid, halloc⟩ := Action.procAlloc_ok hstep
      exact ih.procAlloc (hwrap rfl) halloc
    | procSetReady p =>
      cases hstep
      exact ih.procSetReady hallowed
    | procFree p =>
      cases hstep
      exact ih.keeps (Kernel.procFree_keeps env k p) hsound
  | trap _ hexec ih => exact (ih.trap hexec).1

/-- Any answer of the kernel can be left in the saved area. -/
def Machine.answer (m : Machine) (x : Context) : Machine :=
  { m with mepc := x.pc, mem := fun a => x.saved (Fin.ofNat 32 ((a - savedRegisterAddr).toNat / 4)) }

theorem Machine.answer_area (m : Machine) (x : Context) : (m.answer x).savedArea = x.saved := by
  have hword : ∀ i : Fin 32, Fin.ofNat 32
      ((savedRegisterAddr + UInt32.ofNat (4 * i.val) - savedRegisterAddr).toNat / 4) = i := by decide
  funext i
  exact congrArg x.saved (hword i)

/-- The machine of a process that is about to trap. -/
def Trap.machine (t : Trap) : Machine :=
  { regs := fun r => t.savedRegisters r.saved
    pc := t.mepc
    mepc := t.mepc
    mscratch := 0
    mem := fun _ => t.savedRegisters 31 }

/-- Every entry of the kernel is reached by a trap of a machine. -/
theorem CoreRun.exists_trap {m : Machine} {t : Trap} (h : CoreRun env k m es)
    (hentry : k.kernelEntry env t = .ok k') :
    ∃ m', CoreRun env k' m' (es ++ [.left k.curr.pid (t.machine.leaves t.mcause), .entered k'.curr.pid m'.view]) := by
  obtain ⟨m₁, hsaves, hcall⟩ :=
    Machine.exists_trapEntry (KernelEntry env k k' t.mcause t.syscall) { t.machine with mepc := t.mepc }
  have harea : m₁.savedArea = t.savedRegisters := by
    funext i
    rcases saved_surjective i with rfl | rfl | ⟨x, -, rfl⟩
    · exact hsaves.unused
    · exact hsaves.area .sp
    · exact hsaves.area x.1
  have hmepc : m₁.mepc = t.mepc := hsaves.mepc
  obtain ⟨m', hexec⟩ := hcall (m₁.answer k'.curr.context)
    ⟨by rw [hmepc, harea]; exact hentry, rfl, m₁.answer_area _, rfl⟩
  exact ⟨m', (h.compute t.machine).trap hexec⟩

/-- The runs of the kernel are those of a core, with the registers left out. -/
theorem coreRun_iff : (∃ m es, CoreRun env k m es) ↔ Run env Unwrapped k := by
  constructor
  · rintro ⟨m, es, h⟩
    induction h with
    | boot h m => exact .boot h
    | compute _ _ ih => exact ih
    | call _ _ hallowed hwrap hstep ih => exact .step ih hallowed hwrap hstep
    | trap _ hexec ih =>
      obtain ⟨m₁, m₂, -, hentry, -⟩ := Machine.exec_trapEntry (fun _ _ hcall => hcall.sp) hexec
      exact .step (a := .trap _) ih trivial (unwrapped_trap _ _) hentry.entry
  · intro h
    induction h with
    | boot h => exact ⟨Trap.machine ⟨0, fun _ => 0, 0, Syscall.zero⟩, [], .boot h _⟩
    | @step k k' a _ hallowed hwrap hstep ih =>
      obtain ⟨m, es, hrun⟩ := ih
      by_cases hcall : ∃ t, a = .trap t
      · obtain ⟨t, rfl⟩ := hcall
        obtain ⟨m', hrun'⟩ := hrun.exists_trap hstep
        exact ⟨m', _, hrun'⟩
      · exact ⟨m, es, hrun.call (fun t he => hcall ⟨t, he⟩) hallowed hwrap hstep⟩

/-- In every run of a core, however the processes trap, are created and are freed, a process that
is entered finds all registers and the program counter as it last left them, behind the `ecall` if
it left by one, and a process that is entered for the first time starts with its arguments. -/
theorem contexts_restored (env : Env) (k : Kernel) (m : Machine) (es : List Switch)
    (h : CoreRun env k m es) (before : List Switch) (p : Pid) (v : View)
    (hentered : before ++ [.entered p v] <+: es) : Resumes (lastLeft p before) v := by
  induction h with
  | boot h m =>
    have hlen := hentered.length_le
    simp at hlen
  | compute _ m' ih => exact ih hentered
  | call _ _ _ _ _ ih => exact ih hentered
  | @trap k k' m m' es mcause syscall hrun hexec ih =>
    have hsplit : es ++ [.left k.curr.pid (m.leaves mcause), .entered k'.curr.pid m'.view] =
        es ++ [.left k.curr.pid (m.leaves mcause)] ++ [.entered k'.curr.pid m'.view] := by simp
    rw [hsplit] at hentered
    rcases List.prefix_concat_iff.mp hentered with he | hentered
    · obtain ⟨rfl, hlast⟩ := List.append_inj' he rfl
      cases hlast
      exact (hrun.faithful.trap hexec).2
    · rcases List.prefix_concat_iff.mp hentered with he | hentered
      · obtain ⟨-, hlast⟩ := List.append_inj' he rfl
        cases hlast
      · exact ih hentered

theorem CoreRun.calls {m : Machine} {actions : List Action} (h : CoreRun env k m es)
    (hcalls : ∀ a ∈ actions, ∀ t, a ≠ .trap t)
    (hsteps : actions.foldlM (follow Unwrapped env) k = some k') : CoreRun env k' m es := by
  induction actions generalizing k with
  | nil =>
    cases hsteps
    exact h
  | cons a actions ih =>
    rw [List.foldlM_cons] at hsteps
    obtain ⟨k₁, hstep, hrest⟩ := Option.bind_eq_some_iff.mp hsteps
    obtain ⟨hallowed, hwrap, hstep⟩ := follow_eq hstep
    exact ih (h.call (hcalls a List.mem_cons_self) hallowed hwrap hstep)
      (fun b hb => hcalls b (List.mem_cons_of_mem a hb)) hrest

/-- GPID_PROCESS creates a process and is interrupted, and the interrupt of that process brings
it back. -/
theorem contexts_restored_sample : ∃ k m before v w, CoreRun still k m (before ++ [.entered 1 v]) ∧
    lastLeft 1 before = some w ∧ Resumes (lastLeft 1 before) v := by
  have hchain : ((replay Unwrapped still [.procAlloc, .procSetReady 2]).any fun k =>
      k.curr.pid = 1 ∧ ((k.kernelEntry still timerTrap).toOption.any fun k₁ =>
        k₁.curr.pid = 2 ∧ ((k₁.kernelEntry still timerTrap).toOption.any fun k₂ =>
          k₂.curr.pid = 1) = true) = true) = true := by
    decide +kernel
  obtain ⟨k, hreplay, hk⟩ := (Option.any_eq_true _ _).mp hchain
  obtain ⟨hpid, hfirst⟩ := of_decide_eq_true hk
  obtain ⟨k₁, hentry, hk₁⟩ := ok_of_any hfirst
  obtain ⟨hpid₁, hsecond⟩ := of_decide_eq_true hk₁
  obtain ⟨k₂, hentry₁, hpid₂⟩ := ok_of_any hsecond
  have hpid₂ := of_decide_eq_true hpid₂
  obtain ⟨k₀, hboot, hcalls⟩ := Option.bind_eq_some_iff.mp hreplay
  have hrun : CoreRun still k timerTrap.machine [] :=
    .calls (.boot (ok_of_toOption hboot) _) (by simp) hcalls
  obtain ⟨m₁, hrun⟩ := hrun.exists_trap hentry
  obtain ⟨m₂, hrun⟩ := hrun.exists_trap hentry₁
  rw [hpid, hpid₁, hpid₂, List.append_cons _ _ [_]] at hrun
  have hleft : lastLeft 1 ([] ++ [Switch.left 1 (timerTrap.machine.leaves timerTrap.mcause),
      .entered 2 m₁.view] ++ [.left 2 (timerTrap.machine.leaves timerTrap.mcause)]) =
      some (timerTrap.machine.leaves timerTrap.mcause) := by
    rw [lastLeft_left, if_neg (by decide), lastLeft_switch, if_pos rfl]
  exact ⟨k₂, m₂, _, _, _, hrun, hleft, contexts_restored still k₂ m₂ _ hrun _ 1 _ (List.prefix_refl _)⟩

end OsSuite.Grass
