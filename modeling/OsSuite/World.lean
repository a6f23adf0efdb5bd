import OsSuite.EntryTrace
import OsSuite.YieldTimes
import OsSuite.System

/-! The system as its messages: who waits in which call, who has a slot, and where each
program is. Every session of the system is a run of these steps. -/

namespace OsSuite.Grass

open Earth (Pid PageInfoTable)
open Rendezvous (Label Call Waiting waiting Valid Enabled)

variable {U : Type} {env : Env} {conduct : Conduct U} {k k' k'' : Kernel} {i j : Slot} {p q : Pid}

structure World (U : Type) where
  waiting : Waiting Pid Content
  /-- `proc_try_send` finds the process. -/
  present : Pid → Prop
  lastPid : UInt32
  programs : Programs U

namespace World

def boot (conduct : Conduct U) (shellWaiting : Bool) : World U :=
  ⟨fun _ => none, fun p => p = gpidProcess, 1, .boot conduct shellWaiting⟩

/-- The steps of the processes. Messages are exchanged at any time; `proc_free` is called when
the guard holds. -/
inductive Step (conduct : Conduct U) (guard : World U → Pid → Prop) :
    World U → List Note → World U → Prop where
  | call {W : World U} {p : Pid} {syscall : Syscall} {c : Call Pid Content} {ps : Programs U}
    (hpresent : W.present p) (hknown : ∃ n ≤ W.lastPid, p = pidOf n) (hne : p ≠ 0)
    (hidle : W.waiting p = none) (hc : syscall.call = some c)
    (hcall : W.programs.call conduct p syscall = some ps) :
    Step conduct guard W (ps.noteLabel (.call p c))
      { W with waiting := W.waiting.next (.call p c), programs := ps }
  | meet {W : World U} {s r : Pid} {m : Content} (h : Enabled W.waiting (.meet s r m)) :
    Step conduct guard W (W.programs.noteLabel (.meet s r m))
      { W with waiting := W.waiting.next (.meet s r m), programs := W.programs.hear conduct s r m }
  | alloc {W : World U} {s : ProcessServer} {found : Prop} (hwrap : W.lastPid + 1 ≠ 0)
    (hfound : W.lastPid < 4 → found) (halloc : W.programs.process.alloc (pidOf (W.lastPid + 1)) = some s) :
    Step conduct guard W []
      { W with
        present := fun p => W.present p ∨ p = pidOf (W.lastPid + 1) ∧ found
        lastPid := W.lastPid + 1
        programs := { W.programs with process := s } }
  | setReady {W : World U} {pid : Pid} {s : ProcessServer}
    (hready : W.programs.process.setReady pid = some s) :
    Step conduct guard W (W.programs.noteAction (.procSetReady pid))
      { W with programs := { W.programs with process := s } }
  | free {W : World U} {pid : Pid} {s : ProcessServer} {w : Waiting Pid Content} {kills : Pid → Prop}
    (hguard : guard W pid) (hfree : W.programs.process.free pid = some s)
    (hkills : ∀ p, kills p → p = pid ∧ pid ≠ gpidAll ∨ pid = gpidAll ∧ gpidUserStart ≤ p)
    (hkilled : ∀ p, kills p → w p = none) (hkept : ∀ p, ¬kills p → w p = W.waiting p) :
    Step conduct guard W (W.programs.noteAction (.procFree pid))
      { W with
        waiting := w
        present := fun p => W.present p ∧ ¬kills p
        programs := { W.programs with process := s } }

inductive Run (conduct : Conduct U) (guard : World U → Pid → Prop) : World U → List Note → Prop where
  | boot (shellWaiting : Bool) : Run conduct guard (.boot conduct shellWaiting) []
  | step {W W' : World U} {ns ms : List Note} (h : Run conduct guard W ns)
    (hstep : Step conduct guard W ms W') : Run conduct guard W' (ns ++ ms)

variable {guard : World U → Pid → Prop}

/-- GPID_PROCESS does not hear from itself. -/
theorem Run.sender_ne {W : World U} {ns : List Note} (h : Run conduct guard W ns) {s : Pid} {req : Content}
    (hpc : W.programs.process.pc = .handling s req) : s ≠ gpidProcess := by
  induction h with
  | boot shellWaiting => cases hpc
  | @step W W' ns ms h hstep ih =>
    cases hstep with
    | call hpresent hknown hne hidle hc hcall =>
      cases Programs.call_some hcall with
      | process hp s' h => exact absurd hpc h.not_handling
      | terminal hp s' h => exact ih hpc
      | file hp s' h => exact ih hpc
      | shell hp s' h => exact ih hpc
      | user hp u h => exact ih hpc
    | @meet q r m henabled =>
      change (W.programs.hear conduct q r m).process.pc = _ at hpc
      by_cases hr : r = gpidProcess
      · rw [Programs.hear_process hr] at hpc
        rcases ProcessServer.hear_handling hpc with ⟨-, rfl, -⟩ | hpc
        · rintro rfl
          obtain ⟨hsend, sender, hrecv, -⟩ := henabled
          rw [hr, hsend] at hrecv
          cases hrecv
        · exact ih hpc
      · rw [Programs.hear_process_of_ne hr] at hpc
        exact ih hpc
    | alloc hwrap hfound halloc =>
      rcases ProcessServer.alloc_some halloc with ⟨app, -, rfl⟩ | ⟨req, -, rfl⟩ <;> cases hpc
    | setReady hready =>
      rcases ProcessServer.setReady_some hready with ⟨app, -, rfl⟩ | ⟨r, req, -, -, rfl⟩
      · change (if app = gpidShell then ProcessAt.loop else .started app) = _ at hpc
        split at hpc <;> cases hpc
      · cases hpc
    | free hguard hfree hkills hkilled hkept =>
      obtain ⟨sender, req, -, ⟨-, -, rfl⟩ | ⟨-, -, rfl⟩⟩ := ProcessServer.free_some hfree <;> cases hpc

end World

namespace Kernel

def Present (k : Kernel) (p : Pid) : Prop :=
  ∃ i : Slot, i.val < 16 ∧ (k.procSet i).pid = p ∧ (k.procSet i).status ≠ .unused

def Loading (k : Kernel) (p : Pid) : Prop :=
  ∃ i, (k.procSet i).pid = p ∧ (k.procSet i).status = .loading

theorem present_congr (hpid : ∀ i, (k'.procSet i).pid = (k.procSet i).pid)
    (hstatus : ∀ i, (k'.procSet i).status = .unused ↔ (k.procSet i).status = .unused) :
    k'.Present p ↔ k.Present p := by
  constructor
  · rintro ⟨i, hi, hp, hlive⟩
    exact ⟨i, hi, (hpid i).symm.trans hp, fun h => hlive ((hstatus i).mpr h)⟩
  · rintro ⟨i, hi, hp, hlive⟩
    exact ⟨i, hi, (hpid i).trans hp, fun h => hlive ((hstatus i).mp h)⟩

theorem Sound.entry_present (h : k.Sound) {t : Trap} (hentry : k.kernelEntry env t = .ok k') :
    k'.Present p ↔ k.Present p := by
  obtain ⟨hlive, -, -⟩ := h.entry_trace hentry
  refine present_congr (h.entry_times hentry).1 fun i => ⟨fun hi => ?_, fun hi => ?_⟩
  · by_contra hne
    exact hlive i hne hi
  · exact (h.entry_dormant hentry (Or.inl hi)).1.trans hi

theorem Sound.entry_loading (h : k.Sound) {t : Trap} (hentry : k.kernelEntry env t = .ok k')
    (hp : k.Loading p) : k'.Loading p := by
  obtain ⟨i, hpid, hi⟩ := hp
  exact ⟨i, ((h.entry_times hentry).1 i).trans hpid, (h.entry_dormant hentry (Or.inr hi)).1.trans hi⟩

theorem Sound.current_present (h : k.Sound) : k.Present k.curr.pid :=
  ⟨k.currProcIdx, h.current, rfl, h.live⟩

theorem Pids.unusedSlot_lt (h : k.Pids) (hslot : k.unusedSlot = some i) (hlast : k.lastPid < 4) :
    i.val < 16 := by
  obtain ⟨-, -, hused⟩ := unusedSlot_eq.mp hslot
  by_contra hi
  have hpid : ∀ j : Slot, 0 < j.val → j.val < 5 → ∃ n : UInt32, 0 < n.toNat ∧ n.toNat < 4 ∧
      (k.procSet j).pid = pidOf n ∧ (k.procSet j).pid ≠ 0 := by
    intro j h0 hj
    obtain ⟨n, hn, hpid⟩ := h.known j
    have hne := h.live_pid (hused j h0 (by change j.val < i.val; omega))
    have hzero : n ≠ 0 := by
      rintro rfl
      exact hne hpid
    have hlt : n < 4 := UInt32.lt_of_le_of_lt hn hlast
    refine ⟨n, Nat.pos_of_ne_zero fun h0 => hzero (UInt32.toNat_inj.mp h0), ?_, hpid, hne⟩
    exact UInt32.lt_iff_toNat_lt.mp hlt
  have hdistinct : ∀ {j l : Slot} {n m : UInt32}, j ≠ l → (k.procSet j).pid = pidOf n →
      (k.procSet j).pid ≠ 0 → (k.procSet l).pid = pidOf m → n.toNat ≠ m.toNat := by
    intro j l n m hjl hj hne hl he
    rw [UInt32.toNat_inj.mp he] at hj
    exact hjl (h.distinct j l (hj.trans hl.symm) hne)
  obtain ⟨a, ha0, ha, hpa, hna⟩ := hpid 1 (by decide) (by decide)
  obtain ⟨b, hb0, hb, hpb, hnb⟩ := hpid 2 (by decide) (by decide)
  obtain ⟨c, hc0, hc, hpc, hnc⟩ := hpid 3 (by decide) (by decide)
  obtain ⟨d, hd0, hd, hpd, -⟩ := hpid 4 (by decide) (by decide)
  have hab := hdistinct (show (1 : Slot) ≠ 2 by decide) hpa hna hpb
  have hac := hdistinct (show (1 : Slot) ≠ 3 by decide) hpa hna hpc
  have had := hdistinct (show (1 : Slot) ≠ 4 by decide) hpa hna hpd
  have hbc := hdistinct (show (2 : Slot) ≠ 3 by decide) hpb hnb hpc
  have hbd := hdistinct (show (2 : Slot) ≠ 4 by decide) hpb hnb hpd
  have hcd := hdistinct (show (3 : Slot) ≠ 4 by decide) hpc hnc hpd
  omega

/-- The new process may be out of sight, in the last slot. -/
theorem procAlloc_present (hp : k.Pids) (halloc : k.procAlloc env = .ok (p, k')) :
    k'.Loading p ∧ ∃ found, (k.lastPid < 4 → found) ∧
      ∀ q, k'.Present q ↔ k.Present q ∨ q = p ∧ found := by
  obtain ⟨i, hslot, -, rfl⟩ := procAlloc_ok halloc
  obtain ⟨-, hunused, -⟩ := unusedSlot_eq.mp hslot
  let k₁ : Kernel := { k.mtimeRead.set i ((k.procSet i).claim p (k.mtimeGet env)) with
    lastPid := k.lastPid + 1 }
  change k₁.Loading p ∧ ∃ found, _ ∧ ∀ q, k₁.Present q ↔ _
  have hself : k₁.procSet i = (k.procSet i).claim p (k.mtimeGet env) := Function.update_self _ _ _
  have hother : ∀ j, j ≠ i → k₁.procSet j = k.procSet j := fun j hj => Function.update_of_ne hj _ _
  refine ⟨⟨i, by rw [hself]; rfl, by rw [hself]; rfl⟩, i.val < 16, hp.unusedSlot_lt hslot,
    fun q => ⟨?_, ?_⟩⟩
  · rintro ⟨j, hj, hq, hlive⟩
    by_cases hji : j = i
    · rw [hji] at hj hq
      rw [hself] at hq
      exact Or.inr ⟨hq.symm, hj⟩
    · rw [hother j hji] at hq hlive
      exact Or.inl ⟨j, hj, hq, hlive⟩
  · rintro (⟨j, hj, hq, hlive⟩ | ⟨rfl, hi⟩)
    · have hji : j ≠ i := by
        rintro rfl
        exact hlive hunused
      exact ⟨j, hj, by rw [hother j hji]; exact hq, by rw [hother j hji]; exact hlive⟩
    · exact ⟨i, hi, by rw [hself]; rfl, by rw [hself]; nofun⟩

theorem Sound.procSetReady_present (h : k.Sound) (hp : k.Loading p) :
    (k.procSetReady p).Present q ↔ k.Present q := by
  obtain ⟨i, rfl, hi⟩ := hp
  have hlive : (k.procSet i).status ≠ .unused := by
    rw [hi]
    decide
  refine present_congr (sameTiming_procSetStatus k _ _).sameTimes.pid fun j => ?_
  simp only [Kernel.procSetReady, procSetStatus]
  split
  · rename_i hj
    rw [h.synced.pids.live_eq hlive hj.2, hi]
    exact ⟨by rintro ⟨⟩, by rintro ⟨⟩⟩
  · exact Iff.rfl

def IsKill (l : Label Pid Content) : Prop := ∃ p, l = .kill p

/-- Some processes are gone, with the calls that they wait in. -/
structure Kills (k k' : Kernel) (kills : Pid → Prop) : Prop where
  trace : ∃ ls, (∀ l ∈ ls, IsKill l) ∧ k'.trace = k.trace ++ ls
  present : ∀ p, k'.Present p ↔ k.Present p ∧ ¬kills p
  killed : ∀ p, kills p → waiting k'.trace p = none
  kept : ∀ p, ¬kills p → waiting k'.trace p = waiting k.trace p
  lastPid : k'.lastPid = k.lastPid

theorem Kills.refl (k : Kernel) : k.Kills k fun _ => False :=
  ⟨⟨[], nofun, (List.append_nil _).symm⟩, fun _ => ⟨fun h => ⟨h, id⟩, fun h => h.1⟩, nofun,
    fun _ _ => rfl, rfl⟩

theorem Kills.trans {kills kills' : Pid → Prop} (h : k.Kills k' kills) (h' : k'.Kills k'' kills') :
    k.Kills k'' fun p => kills p ∨ kills' p := by
  obtain ⟨ls, hls, htrace⟩ := h.trace
  obtain ⟨ls', hls', htrace'⟩ := h'.trace
  refine ⟨⟨ls ++ ls', fun l hl => ?_, by rw [htrace', htrace, List.append_assoc]⟩, fun p => ?_,
    fun p hp => ?_, fun p hp => ?_, h'.lastPid.trans h.lastPid⟩
  · rcases List.mem_append.mp hl with hl | hl
    · exact hls l hl
    · exact hls' l hl
  · rw [h'.present, h.present, not_or, and_assoc]
  · by_cases hp' : kills' p
    · exact h'.killed p hp'
    · rw [h'.kept p hp']
      exact h.killed p (hp.resolve_right hp')
  · obtain ⟨hp, hp'⟩ := not_or.mp hp
    rw [h'.kept p hp', h.kept p hp]

theorem Released.kills (h : k.Released k' p) : k.Kills k' fun q => q = p := by
  refine ⟨⟨[.kill p], fun l hl => ⟨p, List.mem_singleton.mp hl⟩, h.trace⟩, fun q => ⟨?_, ?_⟩,
    fun q hq => ?_, fun q hq => ?_, h.lastPid⟩
  · rintro ⟨i, hi, hpid, hlive⟩
    rw [h.status] at hlive
    rw [h.pid] at hpid
    split at hlive
    · exact absurd rfl hlive
    · rename_i hne
      exact ⟨⟨i, hi, hpid, hlive⟩, fun hq => hne ⟨hi, hpid.trans hq⟩⟩
  · rintro ⟨⟨i, hi, hpid, hlive⟩, hq⟩
    refine ⟨i, hi, (h.pid i).trans hpid, ?_⟩
    rw [h.status, if_neg fun he => hq (hpid.symm.trans he.2)]
    exact hlive
  · rw [h.trace, Rendezvous.waiting_snoc, hq]
    exact Function.update_self _ _ _
  · rw [h.trace, Rendezvous.waiting_snoc]
    exact Function.update_of_ne hq _ _

theorem freeUsers_kills {us : List Slot} (hp : k.Pids) (hus : ∀ i ∈ us, i.val < 16) :
    ∃ kills, (∀ p, kills p → gpidUserStart ≤ p) ∧ k.Kills (us.foldl (freeUser env) k) kills := by
  induction us generalizing k with
  | nil => exact ⟨_, nofun, .refl k⟩
  | cons i us ih =>
    have hrest : ∀ j ∈ us, j.val < 16 := fun j hj => hus j (List.mem_cons_of_mem _ hj)
    rw [List.foldl_cons]
    by_cases hlive : (k.procSet i).LiveUser
    · have hr := @freeUser_released env _ _ hp (hus i List.mem_cons_self) hlive
      obtain ⟨kills, huser, hkills⟩ := ih (hp.released hr) hrest
      refine ⟨_, fun p hpk => ?_, hr.kills.trans hkills⟩
      rcases hpk with rfl | hpk
      · exact hlive.1
      · exact huser p hpk
    · have hsame : k.freeUser env i = k := by rw [freeUser, if_neg hlive]
      rw [hsame]
      exact ih hp hrest

theorem procFree_kills (hp : k.Pids) (env : Env) (p : Pid) :
    ∃ kills, (∀ q, kills q → q = p ∧ p ≠ gpidAll ∨ p = gpidAll ∧ gpidUserStart ≤ q) ∧
      k.Kills (k.procFree env p) kills := by
  by_cases hall : p = gpidAll
  · obtain ⟨kills, huser, hkills⟩ := @freeUsers_kills env _ scannedSlots hp fun i hi => mem_scannedSlots.mp hi
    refine ⟨kills, fun q hq => Or.inr ⟨hall, huser q hq⟩, ?_⟩
    rw [procFree, if_neg (not_not_intro hall)]
    exact hkills
  · cases hfirst : k.firstUser with
    | none =>
      refine ⟨fun _ => False, fun _ h => h.elim, ?_⟩
      rw [procFree, if_pos hall, hfirst]
      exact .refl k
    | some i => exact ⟨fun q => q = p, fun q hq => Or.inl ⟨hq, hall⟩, (procFree_released hall hfirst).kills⟩

end Kernel

namespace Programs

variable {ps : Programs U} {ls : List (Label Pid Content)}

theorem afterAll_kills (h : ∀ l ∈ ls, Kernel.IsKill l) :
    ps.afterAll conduct ls = ps ∧ ps.notes conduct ls = [] := by
  induction ls with
  | nil => exact ⟨rfl, rfl⟩
  | cons l ls ih =>
    obtain ⟨p, rfl⟩ := h l List.mem_cons_self
    exact ih fun l hl => h l (List.mem_cons_of_mem _ hl)

theorem hear_process_loads {s r p : Pid} {m : Content}
    (h : (ps.hear conduct s r m).process.pc.loads = some p) : ps.process.pc.loads = some p := by
  by_cases hr : r = gpidProcess
  · rw [hear_process hr] at h
    exact ProcessServer.hear_loads h
  · rw [hear_process_of_ne hr] at h
    exact h

theorem afterAll_loads {p : Pid} (h : (ps.afterAll conduct ls).process.pc.loads = some p) :
    ps.process.pc.loads = some p := by
  induction ls generalizing ps with
  | nil => exact h
  | cons l ls ih =>
    have hrest := @ih (ps.after conduct l) h
    cases l with
    | call p c => exact hrest
    | meet s r m => exact hear_process_loads hrest
    | kill p => exact hrest

theorem Calls.loads {ps' : Programs U} {syscall : Syscall} (h : ps.Calls conduct p syscall ps') {q : Pid}
    (hq : ps'.process.pc.loads = some q) : ps.process.pc.loads = some q := by
  cases h with
  | process hp s h => exact h.loads hq
  | terminal hp s h => exact hq
  | file hp s h => exact hq
  | shell hp s h => exact hq
  | user hp u h => exact hq

end Programs

namespace World

variable {guard : World U → Pid → Prop}

/-- Meetings that the trace allows are steps of the processes. -/
theorem Run.meets {t ms : List (Label Pid Content)} {present : Pid → Prop} {lastPid : UInt32}
    {ps : Programs U} {ns : List Note} (hms : ∀ l ∈ ms, IsMeet l) (hvalid : Valid (t ++ ms))
    (h : Run conduct guard ⟨Rendezvous.waiting t, present, lastPid, ps⟩ ns) :
    Run conduct guard ⟨Rendezvous.waiting (t ++ ms), present, lastPid, ps.afterAll conduct ms⟩
      (ns ++ ps.notes conduct ms) := by
  induction ms generalizing t ps ns with
  | nil =>
    rw [List.append_nil]
    change Run conduct guard _ (ns ++ [])
    rw [List.append_nil]
    exact h
  | cons l ms ih =>
    obtain ⟨s, r, m, rfl⟩ := hms l List.mem_cons_self
    have henabled : Enabled (Rendezvous.waiting t) (.meet s r m) := by
      have he := hvalid.enabled (j := t.length) (l := .meet s r m) (by simp)
      rwa [List.take_left'] at he
      rfl
    have hsplit : t ++ Label.meet s r m :: ms = t ++ [.meet s r m] ++ ms := by simp
    rw [hsplit] at hvalid ⊢
    have hstep := Run.step h (Step.meet henabled)
    rw [← Rendezvous.waiting_snoc] at hstep
    have hrest := ih (fun l hl => hms l (List.mem_cons_of_mem _ hl)) hvalid hstep
    rw [List.append_assoc ns] at hrest
    exact hrest

end World

namespace Kernel

theorem labels_eq {ls : List (Label Pid Content)} (h : k'.trace = k.trace ++ ls) : k.labels k' = ls := by
  rw [labels, h, List.drop_left']
  rfl

theorem entry_call {t : Trap} (h : k.Sound) (hecall : ¬t.mcause &&& 0x80000000 ≠ 0)
    (hentry : k.kernelEntry env t = .ok k') : ∃ c, t.syscall.call = some c := by
  obtain ⟨k₁, huntil, -⟩ := kernelEntry_ok hentry
  rcases untilYield_ok huntil with ⟨hintr, -⟩ | ⟨-, haccept⟩
  · exact absurd hintr hecall
  · have hs := h.saved t
    rw [acceptSyscall_eq hs.synced.pids hs.live hs.current] at haccept
    have htried := procTrySyscall_ok haccept
    rw [called_self] at htried
    unfold Syscall.call
    obtain ⟨hrecv, -⟩ | ⟨hsend, -⟩ := htried
    · have htype : t.syscall.type = .recv := hrecv
      rw [htype]
      exact ⟨_, rfl⟩
    · have htype : t.syscall.type = .send := hsend
      rw [htype]
      exact ⟨_, rfl⟩

end Kernel

namespace System

variable {S S' : System U} {ms : List Note} {a : Action}

def world (S : System U) : World U :=
  ⟨waiting S.kernel.trace, S.kernel.Present, S.kernel.lastPid, S.programs⟩

/-- The kernel is sound, and what GPID_PROCESS is loading is being loaded. -/
structure Sane (S : System U) : Prop where
  kernel : S.kernel.Sound
  loads : ∀ p, S.programs.process.pc.loads = some p → S.kernel.Loading p

theorem step_ok (hstep : S.step env conduct a = some (.ok (S', ms))) :
    ∃ ps k, S.programs.next conduct S.kernel a = some ps ∧ a.step env S.kernel = .ok k ∧
      S' = ⟨k, ps.afterAll conduct (S.kernel.labels k)⟩ ∧
      ms = S.programs.noteAction a ++ ps.notes conduct (S.kernel.labels k) := by
  unfold step at hstep
  obtain ⟨ps, hnext, hmap⟩ := Option.map_eq_some_iff.mp hstep
  obtain ⟨k, hk, heq⟩ := map_eq_ok hmap
  cases heq
  exact ⟨ps, k, hnext, hk, rfl, rfl⟩

variable {guard : World U → Pid → Prop} {ns : List Note}

theorem Sane.trap {t : Trap} (h : S.Sane) (hrun : World.Run conduct guard S.world ns)
    (hstep : S.step env conduct (.trap t) = some (.ok (S', ms))) :
    S'.Sane ∧ World.Run conduct guard S'.world (ns ++ ms) := by
  obtain ⟨ps, k', hnext, hentry, rfl, rfl⟩ := step_ok hstep
  have hentry : S.kernel.kernelEntry env t = .ok k' := hentry
  have hsound : k'.Sound := Action.step_sound (a := .trap t) h.kernel trivial nofun hentry
  obtain ⟨-, hlast, meets, hmeets, htrace⟩ := h.kernel.entry_trace hentry
  have hpresent : k'.Present = S.kernel.Present :=
    funext fun p => propext (h.kernel.entry_present hentry)
  have hvalid := hsound.synced.valid
  have hworld : ∀ ps, (⟨k', ps⟩ : System U).world =
      ⟨waiting k'.trace, S.kernel.Present, S.kernel.lastPid, ps⟩ := by
    intro ps
    rw [world, hpresent, hlast]
  have hnext : (if t.mcause &&& 0x80000000 ≠ 0 then some S.programs
      else S.programs.call conduct S.kernel.curr.pid t.syscall) = some ps := hnext
  unfold Kernel.callLabels at htrace
  by_cases hintr : t.mcause &&& 0x80000000 ≠ 0
  · rw [if_pos hintr] at hnext htrace
    cases hnext
    rw [List.append_nil] at htrace
    rw [htrace] at hvalid
    rw [Kernel.labels_eq htrace, hworld, htrace]
    refine ⟨⟨hsound, fun p hp => h.kernel.entry_loading hentry (h.loads p ?_)⟩, ?_⟩
    · exact Programs.afterAll_loads hp
    · exact World.Run.meets hmeets hvalid hrun
  · rw [if_neg hintr] at hnext htrace
    obtain ⟨c, hc⟩ := Kernel.entry_call h.kernel hintr hentry
    rw [hc] at htrace
    change k'.trace = S.kernel.trace ++ [.call S.kernel.curr.pid c] ++ meets at htrace
    have hlabels : S.kernel.labels k' = .call S.kernel.curr.pid c :: meets :=
      Kernel.labels_eq (by rw [htrace, List.append_assoc]; rfl)
    rw [htrace] at hvalid
    rw [hlabels, hworld, htrace]
    have hidle : waiting S.kernel.trace S.kernel.curr.pid = none := by
      have he := hvalid.enabled (j := S.kernel.trace.length) (l := .call S.kernel.curr.pid c) (by simp)
      rw [List.append_assoc, List.take_left'] at he
      · exact he
      · rfl
    have hcalls := Programs.call_some hnext
    have hcall := hrun.step (.call (W := S.world) h.kernel.current_present
      (h.kernel.synced.pids.known _) (h.kernel.synced.pids.live_pid h.kernel.live) hidle hc hnext)
    have hwaiting : (waiting S.kernel.trace).next (.call S.kernel.curr.pid c) =
        waiting (S.kernel.trace ++ [.call S.kernel.curr.pid c]) := (Rendezvous.waiting_snoc _ _).symm
    change World.Run conduct guard
      ⟨(waiting S.kernel.trace).next (.call S.kernel.curr.pid c), _, _, _⟩ _ at hcall
    rw [hwaiting] at hcall
    have hmet := hcall.meets hmeets hvalid
    rw [List.append_assoc ns] at hmet
    refine ⟨⟨hsound, fun p hp => h.kernel.entry_loading hentry (h.loads p ?_)⟩, hmet⟩
    exact hcalls.loads (Programs.afterAll_loads hp)

theorem Sane.procAlloc (h : S.Sane) (hrun : World.Run conduct guard S.world ns)
    (hwrap : S.kernel.lastPid + 1 ≠ 0) (hstep : S.step env conduct .procAlloc = some (.ok (S', ms))) :
    S'.Sane ∧ World.Run conduct guard S'.world (ns ++ ms) := by
  obtain ⟨ps, k', hnext, hk, rfl, rfl⟩ := step_ok hstep
  unfold Programs.next at hnext
  dsimp only at hnext
  split at hnext
  · obtain ⟨s, hs, rfl⟩ := Option.map_eq_some_iff.mp hnext
    obtain ⟨p, halloc⟩ := Action.procAlloc_ok hk
    obtain ⟨hloading, found, hfound, hpresent⟩ := Kernel.procAlloc_present h.kernel.synced.pids halloc
    have hsound := h.kernel.procAlloc hwrap halloc
    obtain ⟨i, hslot, rfl, hk'⟩ := Kernel.procAlloc_ok halloc
    have htrace : k'.trace = S.kernel.trace := by rw [hk']; rfl
    have hlast : k'.lastPid = S.kernel.lastPid + 1 := by rw [hk']
    have hlabels : S.kernel.labels k' = [] := Kernel.labels_eq (by rw [htrace, List.append_nil])
    have hworld := hrun.step (.alloc (W := S.world) hwrap hfound hs)
    refine ⟨⟨hsound, fun q hq => ?_⟩, ?_⟩
    · change (Programs.afterAll conduct _ (S.kernel.labels k')).process.pc.loads = some q at hq
      rw [hlabels] at hq
      change k'.Loading q
      have hq : s.pc.loads = some q := hq
      rcases ProcessServer.alloc_some hs with ⟨app, -, rfl⟩ | ⟨req, -, rfl⟩ <;>
      · cases hq
        exact hloading
    · rw [hlabels]
      have he : (⟨k', { S.programs with process := s }⟩ : System U).world =
          { S.world with
            present := fun p => S.kernel.Present p ∨ p = pidOf (S.kernel.lastPid + 1) ∧ found
            lastPid := S.kernel.lastPid + 1
            programs := { S.programs with process := s } } := by
        rw [world, htrace, hlast]
        congr 1
        exact funext fun q => propext (hpresent q)
      change World.Run conduct guard (⟨k', { S.programs with process := s }⟩ : System U).world _
      rw [he]
      exact hworld
  · cases hnext

theorem Sane.procSetReady {pid : Pid} (h : S.Sane) (hrun : World.Run conduct guard S.world ns)
    (hstep : S.step env conduct (.procSetReady pid) = some (.ok (S', ms))) :
    S'.Sane ∧ World.Run conduct guard S'.world (ns ++ ms) := by
  obtain ⟨ps, k', hnext, hk, rfl, rfl⟩ := step_ok hstep
  cases hk
  unfold Programs.next at hnext
  dsimp only at hnext
  split at hnext
  · obtain ⟨s, hs, rfl⟩ := Option.map_eq_some_iff.mp hnext
    have hloading : S.kernel.Loading pid := by
      apply h.loads
      rcases ProcessServer.setReady_some hs with ⟨app, hpc, -⟩ | ⟨r, req, hpc, hr, -⟩
      · rw [hpc]
        rfl
      · rw [hpc]
        exact hr
    have hloads : s.pc.loads = none := by
      rcases ProcessServer.setReady_some hs with ⟨app, -, rfl⟩ | ⟨r, req, -, -, rfl⟩
      · dsimp only
        split <;> rfl
      · rfl
    have hlabels : S.kernel.labels (S.kernel.procSetReady pid) = [] :=
      Kernel.labels_eq (List.append_nil _).symm
    have hworld := hrun.step (.setReady (W := S.world) hs)
    refine ⟨⟨h.kernel.procSetReady hloading, fun q hq => ?_⟩, ?_⟩
    · rw [hlabels] at hq
      have hq : s.pc.loads = some q := hq
      rw [hloads] at hq
      cases hq
    · rw [hlabels]
      have he : (⟨S.kernel.procSetReady pid, { S.programs with process := s }⟩ : System U).world =
          { S.world with programs := { S.programs with process := s } } := by
        change World.mk _ _ _ _ = World.mk _ _ _ _
        congr 1
        exact funext fun q => propext (h.kernel.procSetReady_present hloading)
      change World.Run conduct guard
        (⟨S.kernel.procSetReady pid, { S.programs with process := s }⟩ : System U).world
        (ns ++ (S.programs.noteAction (.procSetReady pid) ++ []))
      rw [List.append_nil, he]
      exact hworld
  · cases hnext

theorem Sane.procFree {pid : Pid} (h : S.Sane) (hrun : World.Run conduct guard S.world ns)
    (hguard : guard S.world pid) (hstep : S.step env conduct (.procFree pid) = some (.ok (S', ms))) :
    S'.Sane ∧ World.Run conduct guard S'.world (ns ++ ms) := by
  obtain ⟨ps, k', hnext, hk, rfl, rfl⟩ := step_ok hstep
  cases hk
  unfold Programs.next at hnext
  dsimp only at hnext
  split at hnext
  · rename_i hcurr
    obtain ⟨s, hs, rfl⟩ := Option.map_eq_some_iff.mp hnext
    obtain ⟨kills, hwhich, hkills⟩ := Kernel.procFree_kills h.kernel.synced.pids env pid
    obtain ⟨sender, req, hpc, hcase⟩ := ProcessServer.free_some hs
    have hne : pid ≠ gpidProcess := by
      rcases hcase with ⟨-, rfl, -⟩ | ⟨-, rfl, -⟩
      · exact hrun.sender_ne hpc
      · decide
    have hloads : s.pc.loads = none := by
      rcases hcase with ⟨-, -, rfl⟩ | ⟨-, -, rfl⟩ <;> rfl
    obtain ⟨ls, hls, htrace⟩ := hkills.trace
    obtain ⟨hafter, hnotes⟩ : Programs.afterAll conduct { S.programs with process := s } ls = _ ∧ _ = [] :=
      Programs.afterAll_kills hls
    have hworld := hrun.step (.free (W := S.world) hguard hs hwhich hkills.killed hkills.kept)
    rw [Kernel.labels_eq htrace, hafter, hnotes, List.append_nil]
    refine ⟨⟨h.kernel.procFree hcurr hne, fun q hq => ?_⟩, ?_⟩
    · have hq : s.pc.loads = some q := hq
      rw [hloads] at hq
      cases hq
    · have he : (⟨S.kernel.procFree env pid, { S.programs with process := s }⟩ : System U).world =
          { S.world with
            waiting := waiting (S.kernel.procFree env pid).trace
            present := fun p => S.kernel.Present p ∧ ¬kills p
            programs := { S.programs with process := s } } := by
        rw [world, hkills.lastPid]
        congr 1
        exact funext fun q => propext (hkills.present q)
      rw [he]
      exact hworld
  · cases hnext

end System

theorem System.boot_world {table : PageInfoTable} {k : Kernel} (h : Kernel.grassEntry env table = .ok k)
    (shellWaiting : Bool) :
    (⟨k, .boot conduct shellWaiting⟩ : System U).world = .boot conduct shellWaiting := by
  obtain ⟨hslots, -, hlast, htrace⟩ := Kernel.grassEntry_slots h
  have hpresent : ∀ p, k.Present p ↔ p = gpidProcess := by
    intro p
    constructor
    · rintro ⟨i, -, hpid, hlive⟩
      rw [hslots] at hpid hlive
      split at hpid
      · exact hpid.symm
      · rename_i hi
        rw [if_neg hi] at hlive
        exact absurd rfl hlive
    · rintro rfl
      exact ⟨1, by decide, by rw [hslots]; rfl, by rw [hslots]; nofun⟩
  rw [world, htrace, hlast]
  congr 1
  exact funext fun p => propext (hpresent p)

theorem Session.world {condition : System U → Action → Prop} {guard : World U → Pid → Prop}
    {S : System U} {ns : List Note} (h : Session env conduct condition S ns)
    (hwrap : ∀ S a, condition S a → Unwrapped S.kernel a)
    (hguard : ∀ S pid, condition S (.procFree pid) → guard S.world pid) :
    S.Sane ∧ World.Run conduct guard S.world ns := by
  induction h with
  | boot shellWaiting h =>
    rw [System.boot_world h]
    exact ⟨⟨Kernel.Sound.boot h, nofun⟩, .boot shellWaiting⟩
  | @step S S' ns ms a h hcondition hstep ih =>
    obtain ⟨hsane, hrun⟩ := ih
    cases a with
    | trap t => exact hsane.trap hrun hstep
    | procAlloc => exact hsane.procAlloc hrun (hwrap _ _ hcondition rfl) hstep
    | procSetReady pid => exact hsane.procSetReady hrun hstep
    | procFree pid => exact hsane.procFree hrun (hguard _ _ hcondition) hstep

end OsSuite.Grass
