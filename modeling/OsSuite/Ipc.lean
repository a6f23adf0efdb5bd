import OsSuite.KernelTable
import OsSuite.Rendezvous

/-! The log of the kernel as a trace of rendezvous, and the invariant that ties
the system call structs to it while `proc_yield` visits the slots. -/

namespace OsSuite.Grass

open Earth (Pid)
open Rendezvous (Label Call Waiting waiting Valid Accepts)

variable {env : Env} {k k' : Kernel} {c i j s r : Slot} {us : List Slot}

/-- The sender that a receive asks for. -/
def senderOf (sender : Pid) : Option Pid := if sender = gpidAll then none else some sender

theorem senderOf_accepts {sender p : Pid} (h : sender = gpidAll ∨ sender = p) :
    Accepts (senderOf sender) p := by
  intro q hq
  unfold senderOf at hq
  split at hq
  · cases hq
  · rename_i hne
    cases hq
    exact h.resolve_left hne

def Event.label : Event → Option (Label Pid Content)
  | .copyIn pid syscall =>
    match syscall.type with
    | .send => some (.call pid (.send syscall.receiver syscall.content))
    | .recv => some (.call pid (.recv (senderOf syscall.sender)))
    | _ => none
  | .copyOut pid syscall => some (.meet syscall.sender pid syscall.content)
  | .mmuFree pid => some (.kill pid)
  | _ => none

namespace Kernel

def trace (k : Kernel) : List (Label Pid Content) := k.log.filterMap Event.label

theorem trace_record (k : Kernel) (e : Event) :
    (k.record e).trace = k.trace ++ e.label.toList := by
  rw [trace, record, List.filterMap_append]
  cases h : e.label <;> simp [h, trace]

def Blocked (k : Kernel) (i : Slot) : Prop := (k.procSet i).status = .pendingSyscall

/-- A blocked sender and a blocked receiver that accept each other. -/
structure Meets (k : Kernel) (s r : Slot) : Prop where
  sender : k.Blocked s
  send : (k.procSet s).syscall.type = .send
  names : (k.procSet s).syscall.receiver = (k.procSet r).pid
  receiver : k.Blocked r
  recv : (k.procSet r).syscall.type = .recv
  pending : (k.procSet r).syscall.status = .pending
  accepts : (k.procSet r).syscall.sender = gpidAll ∨ (k.procSet r).syscall.sender = (k.procSet s).pid

instance (k : Kernel) (i : Slot) : Decidable (k.Blocked i) := inferInstanceAs (Decidable (_ = _))

instance (k : Kernel) (s r : Slot) : Decidable (k.Meets s r) :=
  decidable_of_iff (k.Blocked s ∧ (k.procSet s).syscall.type = .send ∧
    (k.procSet s).syscall.receiver = (k.procSet r).pid ∧ k.Blocked r ∧
    (k.procSet r).syscall.type = .recv ∧ (k.procSet r).syscall.status = .pending ∧
    ((k.procSet r).syscall.sender = gpidAll ∨ (k.procSet r).syscall.sender = (k.procSet s).pid))
    ⟨fun ⟨hs, hsend, hnames, hr, hrecv, hpending, haccepts⟩ =>
      ⟨hs, hsend, hnames, hr, hrecv, hpending, haccepts⟩,
    fun ⟨hs, hsend, hnames, hr, hrecv, hpending, haccepts⟩ =>
      ⟨hs, hsend, hnames, hr, hrecv, hpending, haccepts⟩⟩

/-- A blocked slot waits in the call it made. A receive that a sender has marked as
done still does, and so does that sender. -/
inductive Waits (k : Kernel) (w : Waiting Pid Content) (i : Slot) : Prop where
  | send (htype : (k.procSet i).syscall.type = .send)
    (hw : w (k.procSet i).pid =
      some (.send (k.procSet i).syscall.receiver (k.procSet i).syscall.content))
  | recv (htype : (k.procSet i).syscall.type = .recv)
    (hstatus : (k.procSet i).syscall.status = .pending)
    (hw : w (k.procSet i).pid = some (.recv (senderOf (k.procSet i).syscall.sender)))
  | done (htype : (k.procSet i).syscall.type = .recv)
    (hstatus : (k.procSet i).syscall.status = .done) (s : Slot) (hs : k.Blocked s)
    (hsend : (k.procSet s).syscall.type = .send)
    (hnames : (k.procSet s).syscall.receiver = (k.procSet i).pid)
    (hsender : (k.procSet i).syscall.sender = (k.procSet s).pid)
    (hcontent : (k.procSet i).syscall.content = (k.procSet s).syscall.content)
    (sender : Option Pid) (hw : w (k.procSet i).pid = some (.recv sender))
    (haccepts : Accepts sender (k.procSet s).pid)

/-- The slots of `us` are visited in turn, `r` after `s`. -/
def Later (us : List Slot) (s r : Slot) : Prop := ∃ pre post, us = pre ++ s :: post ∧ r ∈ post

theorem Later.tail (h : Later (i :: us) s r) (hs : s ≠ i) : Later us s r := by
  obtain ⟨pre, post, he, hr⟩ := h
  cases pre with
  | nil =>
    cases he
    exact absurd rfl hs
  | cons x pre =>
    cases he
    exact ⟨pre, post, rfl, hr⟩

theorem Later.mem_tail (h : Later (s :: us) s r) : r ∈ us := by
  obtain ⟨pre, post, he, hr⟩ := h
  cases pre with
  | nil =>
    cases he
    exact hr
  | cons x pre =>
    cases he
    exact List.mem_append_right _ (List.mem_cons_of_mem _ hr)

/-- The invariant while the slots of `us` are still to be visited and `c` is the current
slot. A receive that is marked as done will be visited, and so will the receiver of a
pair that accept each other, after its sender. Between entries `us` is empty. -/
structure Synced (c : Slot) (k : Kernel) (us : List Slot) : Prop where
  pids : k.Pids
  valid : Valid k.trace
  waits : ∀ i, k.Blocked i → k.Waits (waiting k.trace) i
  idle : ∀ p, (∀ i, k.Blocked i → (k.procSet i).pid ≠ p) → waiting k.trace p = none
  done : ∀ i, k.Blocked i → (k.procSet i).syscall.type = .recv →
    (k.procSet i).syscall.status = .done →
    i ∈ us ∧ (i = c ∨ (k.procSet i).syscall.sender = (k.procSet c).pid)
  meets : ∀ s r, k.Meets s r → (r = c ∨ s = c) ∧ Later us s r

theorem Blocked.live (h : k.Blocked i) : (k.procSet i).status ≠ .unused := by
  rw [h]
  decide

theorem Pids.blocked_lt (h : k.Pids) (hi : k.Blocked i) : i.val < 16 :=
  h.scanned hi.live (by rw [hi]; decide)

structure SameCalls (k k' : Kernel) : Prop where
  pid : ∀ i, (k'.procSet i).pid = (k.procSet i).pid
  syscall : ∀ i, (k'.procSet i).syscall = (k.procSet i).syscall
  blocked : ∀ i, k'.Blocked i ↔ k.Blocked i
  trace : k'.trace = k.trace

theorem SameIpc.sameCalls (h : k.SameIpc k') : k.SameCalls k' :=
  ⟨h.pid, h.syscall, fun i => by rw [Blocked, Blocked, h.status], by rw [trace, trace, h.log]⟩

theorem Meets.of_sameCalls (h : k.SameCalls k') (hm : k'.Meets s r) : k.Meets s r := by
  obtain ⟨hs, hsend, hnames, hr, hrecv, hpending, haccepts⟩ := hm
  rw [h.syscall] at hsend hrecv hpending haccepts hnames
  rw [h.pid] at hnames haccepts
  exact ⟨(h.blocked s).mp hs, hsend, hnames, (h.blocked r).mp hr, hrecv, hpending, haccepts⟩

theorem Synced.of_sameCalls (h : Synced c k us) (hs : k.SameCalls k') (hp : k'.Pids) :
    Synced c k' us := by
  refine ⟨hp, by rw [hs.trace]; exact h.valid, fun i hi => ?_, fun p hidle => ?_,
    fun i hi => ?_, fun s r hm => h.meets s r (hm.of_sameCalls hs)⟩
  · rw [hs.trace]
    cases h.waits i ((hs.blocked i).mp hi) with
    | send htype hw =>
      exact .send (by rw [hs.syscall]; exact htype) (by rw [hs.syscall, hs.pid]; exact hw)
    | recv htype hstatus hw =>
      exact .recv (by rw [hs.syscall]; exact htype) (by rw [hs.syscall]; exact hstatus)
        (by rw [hs.syscall, hs.pid]; exact hw)
    | done htype hstatus s hb hsend hnames hsender hcontent sender hw haccepts =>
      exact .done (by rw [hs.syscall]; exact htype) (by rw [hs.syscall]; exact hstatus) s
        ((hs.blocked s).mpr hb) (by rw [hs.syscall]; exact hsend)
        (by rw [hs.syscall, hs.pid]; exact hnames) (by rw [hs.syscall, hs.pid]; exact hsender)
        (by rw [hs.syscall, hs.syscall]; exact hcontent) sender (by rw [hs.pid]; exact hw)
        (by rw [hs.pid]; exact haccepts)
  · rw [hs.trace]
    exact h.idle p fun i hi => hs.pid i ▸ hidle i ((hs.blocked i).mpr hi)
  · rw [hs.syscall, hs.pid]
    exact h.done i ((hs.blocked i).mp hi)

/-- The receive of `r` ends with the message of `s`, and both go on. -/
structure Delivered (k k' : Kernel) (s r : Slot) : Prop where
  pid : ∀ i, (k'.procSet i).pid = (k.procSet i).pid
  syscall : ∀ i, (k'.procSet i).syscall = (k.procSet i).syscall
  level : ∀ i, (k'.procSet i).mlfqLevel = (k.procSet i).mlfqLevel
  status : ∀ i, (k'.procSet i).status = if i = s ∨ i = r then .runnable else (k.procSet i).status
  trace : k'.trace =
    k.trace ++ [.meet (k.procSet s).pid (k.procSet r).pid (k.procSet s).syscall.content]
  lastPid : k'.lastPid = k.lastPid
  currProcIdx : k'.currProcIdx = k.currProcIdx

theorem Delivered.blocked (h : k.Delivered k' s r) :
    k'.Blocked i ↔ k.Blocked i ∧ i ≠ s ∧ i ≠ r := by
  rw [Blocked, Blocked, h.status]
  by_cases hi : i = s ∨ i = r
  · rw [if_pos hi]
    constructor
    · intro he
      cases he
    · rintro ⟨-, hs, hr⟩
      exact absurd hi (not_or.mpr ⟨hs, hr⟩)
  · rw [if_neg hi]
    exact ⟨fun he => ⟨he, not_or.mp hi⟩, fun he => he.1⟩

theorem procTryRecv_delivers (hp : k.Pids) (hs : k.Blocked s) (hr : k.Blocked r)
    (hsend : (k.procSet s).syscall.type = .send) (hrecv : (k.procSet r).syscall.type = .recv)
    (hdone : (k.procSet r).syscall.status = .done)
    (hsender : (k.procSet r).syscall.sender = (k.procSet s).pid)
    (hcontent : (k.procSet r).syscall.content = (k.procSet s).syscall.content) :
    k.Delivered (k.procTryRecv r) s r := by
  have hne : s ≠ r := by
    rintro rfl
    rw [hsend] at hrecv
    cases hrecv
  let k₁ := k.record (.copyOut (k.procSet r).pid (k.procSet r).syscall)
  have hp₁ : k₁.Pids := ⟨hp.known, hp.distinct, hp.vacant, hp.last⟩
  let k₂ := k₁.set r { k.procSet r with status := .runnable }
  have hp₂ : k₂.Pids := hp₁.moves (.set rfl (Or.inr ⟨hp.blocked_lt hr, hr.live, nofun⟩))
  have hs₂ : k₂.procSet s = k.procSet s := set_of_ne k₁ _ hne
  have hslive : (k₂.procSet s).status ≠ .unused := by
    rw [hs₂]
    exact hs.live
  have heq : k.procTryRecv r = k₂.set s { k.procSet s with status := .runnable } := by
    have hsecond := hp₂.procSetStatus_eq hslive (hp.blocked_lt hs) .runnable
    rw [hs₂] at hsecond
    have hstatus : (k.procSet r).syscall.status ≠ .pending := by
      rw [hdone]
      decide
    rw [procTryRecv, if_neg hstatus, hsender]
    change ((k₁.procSetStatus (k₁.procSet r).pid .runnable).procSetStatus _ .runnable) = _
    rw [hp₁.procSetStatus_eq hr.live (hp.blocked_lt hr)]
    exact hsecond
  have hkeep : ∀ i, i ≠ s → i ≠ r → (k.procTryRecv r).procSet i = k.procSet i := by
    intro i his hir
    rw [heq, set_of_ne k₂ _ his]
    exact set_of_ne k₁ _ hir
  have hself : (k.procTryRecv r).procSet s = { k.procSet s with status := .runnable } := by
    rw [heq, set_self]
  have hother : (k.procTryRecv r).procSet r = { k.procSet r with status := .runnable } := by
    rw [heq, set_of_ne k₂ _ hne.symm]
    exact set_self k₁ _ _
  have hcases : ∀ i, (k.procTryRecv r).procSet i =
      if i = s ∨ i = r then { k.procSet i with status := .runnable } else k.procSet i := by
    intro i
    by_cases his : i = s
    · rw [if_pos (Or.inl his), his, hself]
    · by_cases hir : i = r
      · rw [if_pos (Or.inr hir), hir, hother]
      · rw [if_neg (not_or.mpr ⟨his, hir⟩), hkeep i his hir]
  refine ⟨fun i => ?_, fun i => ?_, fun i => ?_, fun i => ?_, ?_, by rw [heq]; rfl, by rw [heq]; rfl⟩
  · rw [hcases]
    split <;> rfl
  · rw [hcases]
    split <;> rfl
  · rw [hcases]
    split <;> rfl
  · rw [hcases]
    split <;> rfl
  · have htrace : (k.procTryRecv r).trace = k₁.trace := by
      rw [heq]
      rfl
    rw [htrace, trace_record]
    simp only [Event.label, Option.toList_some, hsender, hcontent]

theorem Delivered.pids (h : k.Delivered k' s r) (hp : k.Pids) (hs : k.Blocked s) (hr : k.Blocked r) :
    k'.Pids := by
  refine hp.moves ⟨h.pid, fun i => ?_, h.lastPid⟩
  rw [h.status]
  by_cases hi : i = s ∨ i = r
  · rw [if_pos hi]
    have hb : k.Blocked i := by
      rcases hi with rfl | rfl
      · exact hs
      · exact hr
    exact Or.inr ⟨hp.blocked_lt hb, hb.live, nofun⟩
  · rw [if_neg hi]
    exact Or.inl rfl

theorem Synced.deliver (h : Synced c k (r :: us)) (hd : k.Delivered k' s r) (hs : k.Blocked s)
    (hr : k.Blocked r) (hsend : (k.procSet s).syscall.type = .send)
    (hrecv : (k.procSet r).syscall.type = .recv)
    (hnames : (k.procSet s).syscall.receiver = (k.procSet r).pid) (sender : Option Pid)
    (hw : waiting k.trace (k.procSet r).pid = some (.recv sender))
    (haccepts : Accepts sender (k.procSet s).pid) : Synced c k' us := by
  have hws : waiting k.trace (k.procSet s).pid =
      some (.send (k.procSet r).pid (k.procSet s).syscall.content) := by
    cases h.waits s hs with
    | send _ hw => rw [hw, hnames]
    | recv htype => rw [hsend] at htype; cases htype
    | done htype => rw [hsend] at htype; cases htype
  have hwait : ∀ i, k.Blocked i → i ≠ s → i ≠ r →
      waiting k'.trace (k.procSet i).pid = waiting k.trace (k.procSet i).pid := by
    intro i hi his hir
    rw [hd.trace, Rendezvous.waiting_snoc]
    apply Rendezvous.next_of_not_involves
    rintro (hpid | hpid)
    · exact his (h.pids.live_eq hs.live hpid)
    · exact hir (h.pids.live_eq hr.live hpid)
  refine ⟨hd.pids h.pids hs hr, ?_, fun i hi => ?_, fun p hidle => ?_, fun i hi htype hdone => ?_,
    fun s' r' hm => ?_⟩
  · rw [hd.trace]
    exact h.valid.snoc ⟨hws, sender, hw, haccepts⟩
  · obtain ⟨hi, his, hir⟩ := hd.blocked.mp hi
    cases h.waits i hi with
    | send htype hw =>
      exact .send (by rw [hd.syscall]; exact htype)
        (by rw [hd.pid, hwait i hi his hir, hd.syscall]; exact hw)
    | recv htype hstatus hw =>
      exact .recv (by rw [hd.syscall]; exact htype) (by rw [hd.syscall]; exact hstatus)
        (by rw [hd.pid, hwait i hi his hir, hd.syscall]; exact hw)
    | done htype hstatus s' hs' hsend' hnames' hsender' hcontent' sender' hw' haccepts' =>
      have hs's : s' ≠ s := by
        rintro rfl
        rw [hnames] at hnames'
        exact hir (h.pids.live_eq hr.live hnames'.symm)
      have hs'r : s' ≠ r := by
        rintro rfl
        rw [hrecv] at hsend'
        cases hsend'
      exact .done (by rw [hd.syscall]; exact htype) (by rw [hd.syscall]; exact hstatus) s'
        (hd.blocked.mpr ⟨hs', hs's, hs'r⟩) (by rw [hd.syscall]; exact hsend')
        (by rw [hd.syscall, hd.pid]; exact hnames') (by rw [hd.syscall, hd.pid]; exact hsender')
        (by rw [hd.syscall, hd.syscall]; exact hcontent') sender'
        (by rw [hd.pid, hwait i hi his hir]; exact hw') (by rw [hd.pid]; exact haccepts')
  · rw [hd.trace, Rendezvous.waiting_snoc]
    by_cases hp : p = (k.procSet s).pid ∨ p = (k.procSet r).pid
    · rcases hp with rfl | rfl <;> simp [Waiting.next, Function.update_apply]
    · have hquiet : ¬(Label.meet (k.procSet s).pid (k.procSet r).pid
          (k.procSet s).syscall.content).Involves p := hp
      rw [Rendezvous.next_of_not_involves hquiet]
      obtain ⟨hps, hpr⟩ := not_or.mp hp
      refine h.idle p fun i hi he => ?_
      have his : i ≠ s := fun hi => hps (by rw [← he, hi])
      have hir : i ≠ r := fun hi => hpr (by rw [← he, hi])
      exact hidle i (hd.blocked.mpr ⟨hi, his, hir⟩) ((hd.pid i).trans he)
  · rw [hd.syscall] at htype hdone
    obtain ⟨hi, his, hir⟩ := hd.blocked.mp hi
    obtain ⟨hmem, hcurr⟩ := h.done i hi htype hdone
    rw [hd.syscall, hd.pid]
    exact ⟨(List.mem_cons.mp hmem).resolve_left hir, hcurr⟩
  · obtain ⟨hs', hsend', hnames', hr', hrecv', hpending', haccepts'⟩ := hm
    rw [hd.syscall] at hsend' hnames' hrecv' hpending' haccepts'
    rw [hd.pid] at hnames' haccepts'
    have hm : k.Meets s' r' := ⟨(hd.blocked.mp hs').1, hsend', hnames', (hd.blocked.mp hr').1,
      hrecv', hpending', haccepts'⟩
    obtain ⟨hcurr, hlater⟩ := h.meets s' r' hm
    exact ⟨hcurr, hlater.tail (hd.blocked.mp hs').2.2⟩

theorem receiverSlot_some {p : Pid} (hfind : k.receiverSlot p = some r) :
    r.val < 16 ∧ (k.procSet r).pid = p ∧ (k.procSet r).status ≠ .unused := by
  have hmem := List.mem_of_find?_eq_some hfind
  have hpred := List.find?_some hfind
  simp only [mem_scannedSlots] at hmem
  simp only [ne_eq, Bool.decide_and, Bool.and_eq_true, decide_eq_true_eq] at hpred
  exact ⟨hmem, hpred⟩

/-- What `proc_try_send` does when the receiver accepts. -/
def mark (k : Kernel) (s r : Slot) : Kernel :=
  let syscall := { (k.procSet r).syscall with
    status := .done
    sender := (k.procSet s).pid
    content := (k.procSet s).syscall.content }
  k.set r { k.procSet r with syscall := syscall }

def Accepting (k : Kernel) (s r : Slot) : Prop :=
  (k.procSet r).syscall.type = .recv ∧ (k.procSet r).syscall.status = .pending ∧
    ((k.procSet r).syscall.sender = gpidAll ∨ (k.procSet r).syscall.sender = (k.procSet s).pid)

theorem procTrySend_ok (h : k.procTrySend s = .ok k') :
    ∃ r, k.receiverSlot (k.procSet s).syscall.receiver = some r ∧
      (k' = k ∧ ¬k.Accepting s r ∨ k' = k.mark s r ∧ k.Accepting s r) := by
  unfold procTrySend at h
  dsimp only at h
  cases hfind : k.receiverSlot (k.procSet s).syscall.receiver with
  | none =>
    rw [hfind] at h
    cases h
  | some r =>
    rw [hfind] at h
    dsimp only at h
    refine ⟨r, rfl, ?_⟩
    split at h
    · rename_i hnot
      cases h
      exact Or.inl ⟨rfl, fun ha => hnot ⟨ha.1, ha.2.1⟩⟩
    · rename_i hreceives
      split at h
      · rename_i hnot
        cases h
        exact Or.inl ⟨rfl, fun ha => hnot ha.2.2⟩
      · rename_i hsender
        cases h
        exact Or.inr ⟨rfl, (not_not.mp hreceives).1, (not_not.mp hreceives).2, not_not.mp hsender⟩

theorem procTrySyscall_ok (h : k.procTrySyscall i = .ok k') :
    (k.procSet i).syscall.type = .recv ∧ k' = k.procTryRecv i ∨
      (k.procSet i).syscall.type = .send ∧ k.procTrySend i = .ok k' := by
  unfold procTrySyscall at h
  cases htype : (k.procSet i).syscall.type with
  | recv =>
    rw [htype] at h
    cases h
    exact Or.inl ⟨rfl, rfl⟩
  | send =>
    rw [htype] at h
    exact Or.inr ⟨rfl, h⟩
  | unused =>
    rw [htype] at h
    cases h
  | other code =>
    rw [htype] at h
    cases h

/-- A sender that has been tried has no receiver any more. -/
theorem Meets.accepting (hp : k.Pids) (hm : k.Meets s j)
    (hfind : k.receiverSlot (k.procSet s).syscall.receiver = some r) :
    j = r ∧ k.Accepting s r := by
  obtain ⟨hlt, hpid, hlive⟩ := receiverSlot_some hfind
  have hj : j = r := hp.live_eq hlive (hm.names.symm.trans hpid.symm)
  exact ⟨hj, hj ▸ hm.recv, hj ▸ hm.pending, hj ▸ hm.accepts⟩

theorem mark_other (k : Kernel) (hi : i ≠ r) : (k.mark s r).procSet i = k.procSet i :=
  set_of_ne k _ hi

theorem mark_pid (k : Kernel) (s r i : Slot) :
    ((k.mark s r).procSet i).pid = (k.procSet i).pid ∧
      ((k.mark s r).procSet i).status = (k.procSet i).status ∧
      ((k.mark s r).procSet i).mlfqLevel = (k.procSet i).mlfqLevel := by
  by_cases hi : i = r
  · subst hi
    simp [mark]
  · rw [mark_other k hi]
    exact ⟨rfl, rfl, rfl⟩

theorem Synced.mark (h : Synced c k (s :: us)) (hs : k.Blocked s)
    (hsend : (k.procSet s).syscall.type = .send)
    (hfind : k.receiverSlot (k.procSet s).syscall.receiver = some r) (ha : k.Accepting s r) :
    Synced c (k.mark s r) us := by
  obtain ⟨hlt, hnames, hlive⟩ := receiverSlot_some hfind
  obtain ⟨hrecv, hpending, haccepts⟩ := ha
  have hpid := fun i => (mark_pid k s r i).1
  have hblocked : ∀ i, (k.mark s r).Blocked i ↔ k.Blocked i := by
    intro i
    rw [Blocked, Blocked, (mark_pid k s r i).2.1]
  have hsr : s ≠ r := by
    rintro rfl
    rw [hsend] at hrecv
    cases hrecv
  have hself : ((k.mark s r).procSet r).syscall = { (k.procSet r).syscall with
      status := .done
      sender := (k.procSet s).pid
      content := (k.procSet s).syscall.content } := by simp [Kernel.mark]
  have hmeets : ∀ s' r', (k.mark s r).Meets s' r' → s' ≠ r ∧ r' ≠ r ∧ k.Meets s' r' := by
    intro s' r' hm
    have hs' : s' ≠ r := by
      rintro rfl
      have htype := hm.send
      rw [hself] at htype
      rw [hrecv] at htype
      cases htype
    have hr' : r' ≠ r := by
      rintro rfl
      have hstatus := hm.pending
      rw [hself] at hstatus
      cases hstatus
    refine ⟨hs', hr', ?_⟩
    obtain ⟨hb, hsend', hnames', hb', hrecv', hpending', haccepts'⟩ := hm
    rw [mark_other k hs'] at hsend' hnames' haccepts'
    rw [mark_other k hr'] at hnames' hrecv' hpending' haccepts'
    exact ⟨(hblocked s').mp hb, hsend', hnames', (hblocked r').mp hb', hrecv', hpending', haccepts'⟩
  have hmoves : k.Moves (k.mark s r) :=
    ⟨hpid, fun i => Or.inl (mark_pid k s r i).2.1, rfl⟩
  have hpair : k.Blocked r → (r = c ∨ s = c) ∧ Later (s :: us) s r := fun hb =>
    h.meets s r ⟨hs, hsend, hnames.symm, hb, hrecv, hpending, haccepts⟩
  refine ⟨h.pids.moves hmoves, h.valid, fun i hi => ?_, fun p hidle => ?_,
    fun i hi htype hdone => ?_, fun s' r' hm => ?_⟩
  · have hi' := (hblocked i).mp hi
    by_cases hir : i = r
    · subst hir
      cases h.waits i hi' with
      | send htype => rw [hrecv] at htype; cases htype
      | done _ hstatus => rw [hpending] at hstatus; cases hstatus
      | recv _ _ hw =>
        exact .done (by rw [hself]; exact hrecv) (by rw [hself]) s ((hblocked s).mpr hs)
          (by rw [mark_other k hsr]; exact hsend) (by rw [mark_other k hsr, hpid]; exact hnames.symm)
          (by rw [hself, hpid]) (by rw [hself, mark_other k hsr]) _ (by rw [hpid]; exact hw)
          (by rw [hpid]; exact senderOf_accepts haccepts)
    · cases h.waits i hi' with
      | send htype hw =>
        exact .send (by rw [mark_other k hir]; exact htype) (by rw [mark_other k hir]; exact hw)
      | recv htype hstatus hw =>
        exact .recv (by rw [mark_other k hir]; exact htype) (by rw [mark_other k hir]; exact hstatus)
          (by rw [mark_other k hir]; exact hw)
      | done htype hstatus s' hs' hsend' hnames' hsender' hcontent' sender' hw' haccepts' =>
        have hs'r : s' ≠ r := by
          rintro rfl
          rw [hrecv] at hsend'
          cases hsend'
        exact .done (by rw [mark_other k hir]; exact htype)
          (by rw [mark_other k hir]; exact hstatus) s' ((hblocked s').mpr hs')
          (by rw [mark_other k hs'r]; exact hsend') (by rw [mark_other k hs'r, hpid]; exact hnames')
          (by rw [mark_other k hir, hpid]; exact hsender')
          (by rw [mark_other k hir, mark_other k hs'r]; exact hcontent') sender'
          (by rw [mark_other k hir]; exact hw') (by rw [hpid]; exact haccepts')
  · exact h.idle p fun i hi => hpid i ▸ hidle i ((hblocked i).mpr hi)
  · have hi' := (hblocked i).mp hi
    by_cases hir : i = r
    · subst hir
      obtain ⟨hcurr, hlater⟩ := hpair hi'
      refine ⟨hlater.mem_tail, hcurr.imp_right ?_⟩
      rintro rfl
      rw [hself, hpid]
    · rw [mark_other k hir] at htype hdone ⊢
      rw [hpid]
      obtain ⟨hmem, hcurr⟩ := h.done i hi' htype hdone
      refine ⟨(List.mem_cons.mp hmem).resolve_left ?_, hcurr⟩
      rintro rfl
      rw [hsend] at htype
      cases htype
  · obtain ⟨hs'r, hr'r, hm'⟩ := hmeets s' r' hm
    obtain ⟨hcurr, hlater⟩ := h.meets s' r' hm'
    refine ⟨hcurr, hlater.tail ?_⟩
    rintro rfl
    exact hr'r (hm'.accepting h.pids hfind).1

theorem Synced.skip (h : Synced c k (i :: us))
    (hdone : k.Blocked i → (k.procSet i).syscall.type = .recv → (k.procSet i).syscall.status ≠ .done)
    (hmeets : ∀ r, ¬k.Meets i r) : Synced c k us := by
  refine ⟨h.pids, h.valid, h.waits, h.idle, fun j hj htype hstatus => ?_, fun s r hm => ?_⟩
  · obtain ⟨hmem, hcurr⟩ := h.done j hj htype hstatus
    refine ⟨(List.mem_cons.mp hmem).resolve_left ?_, hcurr⟩
    rintro rfl
    exact hdone hj htype hstatus
  · obtain ⟨hcurr, hlater⟩ := h.meets s r hm
    refine ⟨hcurr, hlater.tail ?_⟩
    rintro rfl
    exact hmeets r hm

/-- What a visit of a slot can do: nothing, mark the receiver of its message, or end
its receive. -/
inductive Visited (k : Kernel) (i : Slot) (k' : Kernel) : Prop where
  | same (h : k' = k)
  | marked (hi : k.Blocked i) (r : Slot) (hsend : (k.procSet i).syscall.type = .send)
    (hnames : (k.procSet i).syscall.receiver = (k.procSet r).pid) (hr : k.Accepting i r)
    (h : k' = k.mark i r)
  | delivered (s : Slot) (hs : k.Blocked s) (hsend : (k.procSet s).syscall.type = .send)
    (hi : k.Blocked i) (hrecv : (k.procSet i).syscall.type = .recv) (hdone : (k.procSet i).syscall.status = .done)
    (hsender : (k.procSet i).syscall.sender = (k.procSet s).pid) (h : k.Delivered k' s i)

theorem Synced.retry (h : Synced c k (i :: us)) (hretry : k.retry i = .ok k') : Synced c k' us ∧ k.Visited i k' := by
  unfold Kernel.retry at hretry
  by_cases hi : (k.procSet i).status = .pendingSyscall
  · rw [if_pos hi, procTrySyscall] at hretry
    cases h.waits i hi with
    | send htype hw =>
      rw [htype] at hretry
      obtain ⟨r, hfind, ⟨rfl, hnot⟩ | ⟨rfl, ha⟩⟩ := procTrySend_ok hretry
      · refine ⟨h.skip (fun _ hrecv => ?_) fun r hm => ?_, .same rfl⟩
        · rw [htype] at hrecv
          cases hrecv
        · exact hnot (hm.accepting h.pids hfind).2
      · exact ⟨h.mark hi htype hfind ha, .marked hi r htype (receiverSlot_some hfind).2.1.symm ha rfl⟩
    | recv htype hstatus hw =>
      rw [htype] at hretry
      have hsame : k' = k := by
        simp only [procTryRecv, hstatus, if_true, Except.ok.injEq] at hretry
        exact hretry.symm
      subst hsame
      refine ⟨h.skip (fun _ _ hdone => ?_) fun r hm => ?_, .same rfl⟩
      · rw [hstatus] at hdone
        cases hdone
      · have hsend := hm.send
        rw [htype] at hsend
        cases hsend
    | done htype hstatus s hs hsend hnames hsender hcontent sender hw haccepts =>
      rw [htype] at hretry
      cases hretry
      have hd := procTryRecv_delivers h.pids hs hi hsend htype hstatus hsender hcontent
      exact ⟨h.deliver hd hs hi hsend htype hnames sender hw haccepts,
        .delivered s hs hsend hi htype hstatus hsender hd⟩
  · rw [if_neg hi] at hretry
    cases hretry
    exact ⟨h.skip (fun hb => absurd hb hi) fun r hm => absurd hm.sender hi, .same rfl⟩

end Kernel

end OsSuite.Grass
