import OsSuite.World

/-! FATAL for an unknown receiver needs a sender that is blocked, or that calls, and whose
receiver is not there. -/

namespace OsSuite.Grass

open Earth (Pid)
open Rendezvous (Label Call waiting)

variable {env : Env} {k k' : Kernel} {c i : Slot} {us : List Slot}

theorem waiting_meets {t ms : List (Label Pid Content)} (hms : ∀ l ∈ ms, IsMeet l) {p : Pid}
    {d : Call Pid Content} (h : waiting (t ++ ms) p = some d) : waiting t p = some d := by
  induction ms using List.reverseRecOn with
  | nil => rwa [List.append_nil] at h
  | append_singleton ms l ih =>
    obtain ⟨s, r, m, hl⟩ := hms l (List.mem_append_right _ List.mem_cons_self)
    rw [← List.append_assoc, Rendezvous.waiting_snoc] at h
    refine ih (fun l hl => hms l (List.mem_append_left _ hl)) ?_
    by_cases hp : l.Involves p
    · rw [hl] at h hp
      cases Rendezvous.next_of_involves hp h
    · rwa [Rendezvous.next_of_not_involves hp] at h

namespace Kernel

/-- The receiver of every blocked sender is there. -/
def Heard (k : Kernel) : Prop := ∀ p r m, waiting k.trace p = some (.send r m) → k.Present r

theorem Heard.exchanges (h : k.Heard) (he : k.Exchanges k')
    (hpid : ∀ i, (k'.procSet i).pid = (k.procSet i).pid) : k'.Heard := by
  obtain ⟨ms, hms, htrace⟩ := he.trace
  intro p r m hw
  rw [htrace] at hw
  obtain ⟨i, hi, hr, hlive⟩ := h p r m (waiting_meets hms hw)
  exact ⟨i, hi, (hpid i).trans hr, he.live i hlive⟩

theorem receiverSlot_of_present {r : Pid} (h : k.Present r) : k.receiverSlot r ≠ none := by
  obtain ⟨i, hi, hr, hlive⟩ := h
  intro hnone
  have hall := List.find?_eq_none.mp hnone i (mem_scannedSlots.mpr hi)
  exact hall (decide_eq_true ⟨hr, hlive⟩)

theorem Synced.retry_receiver (h : Synced c k (i :: us)) (hheard : k.Heard) (r : Pid) :
    k.retry i ≠ .error (.unknownReceiver r) := by
  intro herror
  unfold Kernel.retry at herror
  split at herror
  · rename_i hi
    unfold procTrySyscall at herror
    cases htype : (k.procSet i).syscall.type with
    | send =>
      rw [htype] at herror
      change k.procTrySend i = _ at herror
      have hpresent : k.Present (k.procSet i).syscall.receiver := by
        cases h.waits i hi with
        | send _ hw => exact hheard _ _ _ hw
        | recv hrecv => cases htype.symm.trans hrecv
        | done hrecv => cases htype.symm.trans hrecv
      unfold procTrySend at herror
      dsimp only at herror
      cases hslot : k.receiverSlot (k.procSet i).syscall.receiver with
      | none => exact receiverSlot_of_present hpresent hslot
      | some j =>
        rw [hslot] at herror
        dsimp only at herror
        split at herror
        · cases herror
        · split at herror <;> cases herror
    | recv =>
      rw [htype] at herror
      cases herror
    | unused =>
      rw [htype] at herror
      cases herror
    | other code =>
      rw [htype] at herror
      cases herror
  · cases herror

end Kernel

theorem Scan.visits_receiver {s : Scan} (h : Kernel.Scanning c s.kernel us) (hheard : s.kernel.Heard)
    (r : Pid) : us.foldlM Scan.visit s ≠ .error (.unknownReceiver r) := by
  induction us generalizing s with
  | nil => nofun
  | cons i us ih =>
    intro herror
    rw [List.foldlM_cons] at herror
    cases hretry : s.kernel.retry i with
    | error e =>
      unfold Scan.visit at herror
      rw [hretry] at herror
      cases herror
      exact h.synced.retry_receiver hheard r hretry
    | ok k =>
      obtain ⟨hnext, hvisited⟩ := h.retry hretry
      have hheard' : k.Heard :=
        hheard.exchanges (Kernel.retry_exchanges hretry) fun j => (hvisited.frame j).1
      unfold Scan.visit at herror
      rw [hretry] at herror
      by_cases hsel : (k.procSet i).Dispatchable ∧ (k.procSet i).mlfqLevel < s.lowestLevel
      · change ((if _ then Except.ok _ else Except.ok _) >>= fun s => us.foldlM Scan.visit s) = _ at herror
        rw [if_pos hsel] at herror
        exact ih (s := ⟨k, (k.procSet i).mlfqLevel, i⟩) hnext hheard' herror
      · change ((if _ then Except.ok _ else Except.ok _) >>= fun s => us.foldlM Scan.visit s) = _ at herror
        rw [if_neg hsel] at herror
        exact ih (s := ⟨k, s.lowestLevel, s.nextIdx⟩) hnext hheard' herror

namespace Kernel

theorem Yielding.receiver (h : k.Yielding) (hheard : k.Heard) (r : Pid) :
    k.procYield env ≠ .error (.unknownReceiver r) := by
  intro herror
  have hpause : k.Exchanges k.pause ∧ ∀ i, (k.pause.procSet i).pid = (k.procSet i).pid := by
    unfold Kernel.pause
    split
    · exact ⟨exchanges_procSetStatus _ _ nofun, (sameTiming_procSetStatus k _ _).sameTimes.pid⟩
    · exact ⟨.refl k, fun _ => rfl⟩
  have hsame := account_sameIpc env k
  have hheard' : (k.account env).Heard :=
    hheard.exchanges (hpause.1.trans hsame.exchanges) fun i => (hsame.pid i).trans (hpause.2 i)
  have haccount := h.account env
  unfold procYield at herror
  cases hscan : (k.account env).scan with
  | error e =>
    rw [hscan] at herror
    cases herror
    unfold Kernel.scan at hscan
    rw [haccount.currProcIdx] at hscan
    exact Scan.visits_receiver haccount hheard' r hscan
  | ok s =>
    rw [hscan] at herror
    change (if s.nextIdx.val < maxNprocess then Except.ok _ else Except.error _) = _ at herror
    split at herror <;> cases herror

theorem present_of_live (hpid : ∀ i, (k'.procSet i).pid = (k.procSet i).pid)
    (hlive : ∀ i, (k.procSet i).status ≠ .unused → (k'.procSet i).status ≠ .unused) {r : Pid}
    (h : k.Present r) : k'.Present r := by
  obtain ⟨i, hi, hr, hi'⟩ := h
  exact ⟨i, hi, (hpid i).trans hr, hlive i hi'⟩

theorem called_live (k : Kernel) (syscall : Syscall) (hi : (k.procSet i).status ≠ .unused) :
    ((k.called syscall).procSet i).status ≠ .unused := by
  by_cases hic : i = k.currProcIdx
  · rw [hic, called_self]
    nofun
  · rw [called_other k syscall hic]
    exact hi

theorem Sound.accept_receiver (h : k.Sound) {syscall : Syscall} (hheard : (k.called syscall).Heard)
    (r : Pid) : k.acceptSyscall syscall ≠ .error (.unknownReceiver r) := by
  have hself : (k.called syscall).procSet k.currProcIdx = k.calling syscall := called_self k syscall
  have hblocked : ((k.called syscall).procSet k.currProcIdx).status = .pendingSyscall := by
    rw [hself]
    rfl
  have htype : ((k.called syscall).procSet k.currProcIdx).syscall.type = syscall.type := by
    rw [hself]
    rfl
  rw [acceptSyscall_eq h.synced.pids h.live h.current]
  cases hcase : syscall.type with
  | send =>
    have hretry := (h.called (label_send k.curr hcase) (Or.inl ⟨hcase, rfl⟩)).retry_receiver hheard r
    rw [Kernel.retry, if_pos hblocked] at hretry
    exact hretry
  | recv =>
    unfold procTrySyscall
    rw [htype, hcase]
    rintro ⟨⟩
  | unused =>
    unfold procTrySyscall
    rw [htype, hcase]
    rintro ⟨⟩
  | other code =>
    unfold procTrySyscall
    rw [htype, hcase]
    rintro ⟨⟩

theorem Sound.entry_receiver (h : k.Sound) {t : Trap}
    (hheard : ∀ p r m, waiting (k.trace ++ k.callLabels t) p = some (.send r m) → k.Present r) (r : Pid) :
    k.kernelEntry env t ≠ .error (.unknownReceiver r) := by
  have hs := h.saved t
  have hsame : k.SameIpc (k.saved t) := .set rfl rfl rfl
  have hcounted : (k.saved t).SameIpc (k.saved t).counted := .set rfl rfl rfl
  have hcalled : ¬t.mcause &&& 0x80000000 ≠ 0 → ((k.saved t).called t.syscall).Heard := by
    intro hecall p q m hw
    rw [called_trace, saved_pid] at hw
    have hlabels : k.callLabels t = (t.syscall.call.map fun c => Label.call k.curr.pid c).toList :=
      if_neg hecall
    exact present_of_live (called_pid _ _) (fun i => called_live _ _)
      (present_of_live hsame.pid hsame.exchanges.live (hheard p q m (by rw [hlabels]; exact hw)))
  have hquiet : t.mcause &&& 0x80000000 ≠ 0 → (k.saved t).Heard := by
    intro hintr p q m hw
    have hlabels : k.callLabels t = [] := if_pos hintr
    refine present_of_live hsame.pid hsame.exchanges.live (hheard p q m ?_)
    rw [hlabels, List.append_nil]
    exact hw
  rw [kernelEntry_eq]
  cases huntil : k.untilYield t with
  | error e =>
    rintro ⟨⟩
    unfold Kernel.untilYield at huntil
    dsimp only at huntil
    split at huntil
    · split at huntil <;> cases huntil
    · rename_i hecall
      split at huntil
      · exact hs.accept_receiver (hcalled hecall) r huntil
      · cases huntil
  | ok k₁ =>
    have hyielding := h.untilYield huntil
    refine hyielding.receiver ?_ r
    rcases untilYield_ok huntil with ⟨hintr, rfl | rfl⟩ | ⟨hecall, haccept⟩
    · exact hquiet hintr
    · exact (hquiet hintr).exchanges hcounted.exchanges hcounted.pid
    · obtain ⟨hsynced, hretry⟩ := hs.accepted haccept
      obtain ⟨-, hvisited⟩ := hsynced.retry hretry
      exact (hcalled hecall).exchanges (retry_exchanges hretry) fun j => (hvisited.frame j).1

end Kernel

end OsSuite.Grass
