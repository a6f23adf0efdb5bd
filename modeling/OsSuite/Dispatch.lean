import OsSuite.KernelRun
import Mathlib.Data.List.MinMax

/-! Which process `proc_yield` dispatches. The scan keeps the first slot of the lowest
level, of those that it finds ready when it visits them. A sender that the last
visit wakes has been passed by then. -/

namespace OsSuite.Grass

open Earth (Pid)

variable {env : Env} {K k k' k₁ : Kernel} {c i j r s : Slot} {us v : List Slot}

/-- The first minimum of a list is that of the rest, or the one left out. -/
theorem argmin_filter_ne {α : Type} [DecidableEq α] (f : α → Nat) (x : α) (q : List α) :
    q.argmin f = (q.filter (· ≠ x)).argmin f ∨ q.argmin f = some x := by
  induction q with
  | nil => exact Or.inl rfl
  | cons y q ih =>
    by_cases hy : y = x
    · subst hy
      have hrest : (y :: q).filter (· ≠ y) = q.filter (· ≠ y) := by simp
      rw [hrest, List.argmin_cons]
      cases hq : q.argmin f with
      | none => exact Or.inr rfl
      | some m =>
        rw [hq] at ih
        by_cases hlt : f m < f y
        · simp only [hlt, if_true]
          exact ih
        · simp only [hlt, if_false]
          exact Or.inr trivial
    · have hrest : (y :: q).filter (· ≠ x) = y :: q.filter (· ≠ x) := by simp [hy]
      rw [hrest, List.argmin_cons, List.argmin_cons]
      rcases ih with he | hx
      · exact Or.inl (by rw [he])
      · rw [hx]
        by_cases hlt : f x < f y
        · simp only [hlt, if_true]
          exact Or.inr trivial
        · simp only [hlt, if_false]
          left
          cases hm : (q.filter (· ≠ x)).argmin f with
          | none => rfl
          | some m =>
            have hmem : m ∈ q := (List.mem_filter.mp (List.argmin_mem hm)).1
            have hle : f x ≤ f m := List.le_of_mem_argmin hmem hx
            have hnot : ¬f m < f y := by omega
            simp only [hnot, if_false]

namespace Kernel

/-- The slots of `q` that could be dispatched. -/
def ready (k : Kernel) (q : List Slot) : List Slot := q.filter fun i => (k.procSet i).Dispatchable

/-- The first slot of the lowest level after `c`, of those that can be dispatched. -/
def choice (k : Kernel) (c : Slot) : Option Slot :=
  (k.ready (scanOrder c)).argmin fun i => (k.procSet i).mlfqLevel

/-- The current process `c` receives, and its first sender comes before all that can be
dispatched when the scan starts, and before `c`. -/
def WokenLate (k : Kernel) (c : Slot) : Prop :=
  ∃ s, (scanOrder c).find? (fun i => k.Meets i c) = some s ∧
    ((scanOrder c).filter fun i => (k.procSet i).Dispatchable ∨ i = c ∨ i = s).argmin
      (fun i => (k.procSet i).mlfqLevel) = some s

instance (k : Kernel) (c : Slot) : Decidable (k.WokenLate c) :=
  inferInstanceAs (Decidable (∃ _, _ ∧ _))

/-- For the slots of `q` the scan sees the same. -/
def Agrees (k k' : Kernel) (q : List Slot) : Prop :=
  ∀ j ∈ q, ((k'.procSet j).Dispatchable ↔ (k.procSet j).Dispatchable) ∧
    (k'.procSet j).mlfqLevel = (k.procSet j).mlfqLevel

theorem Agrees.ready (h : k.Agrees k' v) : k'.ready v = k.ready v :=
  List.filter_congr fun j hj => decide_eq_decide.mpr (h j hj).1

theorem argmin_congr {q : List Slot} {f g : Slot → Nat} (h : ∀ j ∈ q, f j = g j) :
    q.argmin f = q.argmin g := by
  induction q with
  | nil => rfl
  | cons x q ih =>
    rw [List.argmin_cons, List.argmin_cons, ih fun j hj => h j (List.mem_cons_of_mem x hj)]
    cases hq : q.argmin g with
    | none => rfl
    | some m =>
      have hm := h m (List.mem_cons_of_mem x (List.argmin_mem hq))
      simp only [hm, h x List.mem_cons_self]

end Kernel

/-- The scan has found the choice among the slots of `v`. -/
inductive Scan.Tracks (s : Scan) (v : List Slot) : Prop where
  | none (h : s.kernel.ready v = []) (hnext : s.nextIdx = Fin.ofNat 17 maxNprocess)
    (hlevel : s.lowestLevel = 5)
  | some (h : (s.kernel.ready v).argmin (fun i => (s.kernel.procSet i).mlfqLevel) = some s.nextIdx)
    (hlevel : s.lowestLevel = (s.kernel.procSet s.nextIdx).mlfqLevel)

theorem Scan.Tracks.visit {s s' : Scan} (h : s.Tracks v) (hvisit : s.visit i = .ok s')
    (hagrees : s.kernel.Agrees s'.kernel v) (hlevels : s'.kernel.Levels) : s'.Tracks (v ++ [i]) := by
  obtain ⟨k', -, hs'⟩ := Scan.visit_ok hvisit
  have hkernel : s'.kernel = k' := by
    rw [hs']
    split <;> rfl
  rw [hkernel] at hagrees hlevels
  have hready : k'.ready (v ++ [i]) =
      s.kernel.ready v ++ if (k'.procSet i).Dispatchable then [i] else [] := by
    rw [Kernel.ready, List.filter_append]
    congr 1
    · exact hagrees.ready
    · by_cases hd : (k'.procSet i).Dispatchable <;> simp [hd]
  have hmin : (s.kernel.ready v).argmin (fun i => (k'.procSet i).mlfqLevel) =
      (s.kernel.ready v).argmin fun i => (s.kernel.procSet i).mlfqLevel :=
    Kernel.argmin_congr fun j hj => (hagrees j (List.mem_filter.mp hj).1).2
  by_cases hd : (k'.procSet i).Dispatchable
  · rw [if_pos hd] at hready
    cases h with
    | none hnone hnext hlevel =>
      have hlow : (k'.procSet i).mlfqLevel < s.lowestLevel := by
        have := hlevels i
        omega
      rw [if_pos ⟨hd, hlow⟩] at hs'
      subst hs'
      refine .some ?_ rfl
      rw [hready, hnone]
      rfl
    | some hsome hlevel =>
      have hmem : s.nextIdx ∈ v := (List.mem_filter.mp (List.argmin_mem hsome)).1
      have hsame := (hagrees s.nextIdx hmem).2
      rw [← hmin] at hsome
      have hconcat := List.argmin_concat (fun i => (k'.procSet i).mlfqLevel) i (s.kernel.ready v)
      rw [hsome] at hconcat
      by_cases hlow : (k'.procSet i).mlfqLevel < s.lowestLevel
      · rw [if_pos ⟨hd, hlow⟩] at hs'
        subst hs'
        refine .some ?_ rfl
        rw [hready, hconcat]
        rw [hlevel, ← hsame] at hlow
        simp only [hlow, if_true]
      · rw [if_neg fun h => hlow h.2] at hs'
        subst hs'
        refine .some ?_ (hlevel.trans hsame.symm)
        rw [hready, hconcat]
        rw [hlevel, ← hsame] at hlow
        simp only [hlow, if_false]
  · rw [if_neg hd, List.append_nil] at hready
    rw [if_neg fun h => hd h.1] at hs'
    subst hs'
    cases h with
    | none hnone hnext hlevel => exact .none (hready.trans hnone) hnext hlevel
    | some hsome hlevel =>
      have hmem : s.nextIdx ∈ v := (List.mem_filter.mp (List.argmin_mem hsome)).1
      refine .some ?_ (hlevel.trans (hagrees s.nextIdx hmem).2.symm)
      rw [hready, hmin, hsome]

namespace Kernel

/-- The current process `c` waits to receive in `K`, and nothing else has changed since but
that its first sender of `v` has been found. -/
structure Receives (K k : Kernel) (c : Slot) (v : List Slot) : Prop where
  pid : ∀ j, (k.procSet j).pid = (K.procSet j).pid
  status : ∀ j, (k.procSet j).status = (K.procSet j).status
  level : ∀ j, (k.procSet j).mlfqLevel = (K.procSet j).mlfqLevel
  calls : ∀ j, j ≠ c → K.Blocked j → (k.procSet j).syscall = (K.procSet j).syscall
  blocked : K.Blocked c
  recv : (K.procSet c).syscall.type = .recv
  own : v.find? (fun i => K.Meets i c) = none ∧ (k.procSet c).syscall = (K.procSet c).syscall ∨
    ∃ s, v.find? (fun i => K.Meets i c) = some s ∧ (k.procSet c).syscall.type = .recv ∧
      (k.procSet c).syscall.status = .done ∧ (k.procSet c).syscall.sender = (K.procSet s).pid

theorem Receives.start (hc : K.Blocked c) (hrecv : (K.procSet c).syscall.type = .recv) :
    K.Receives K c [] :=
  ⟨fun _ => rfl, fun _ => rfl, fun _ => rfl, fun _ _ _ => rfl, hc, hrecv, Or.inl ⟨rfl, rfl⟩⟩

theorem Receives.blocked_iff (h : K.Receives k c v) : k.Blocked j ↔ K.Blocked j := by
  rw [Blocked, Blocked, h.status]

theorem Receives.recv_self (h : K.Receives k c v) : (k.procSet c).syscall.type = .recv := by
  rcases h.own with ⟨-, hcall⟩ | ⟨s, -, htype, -⟩
  · rw [hcall]
    exact h.recv
  · exact htype

theorem Receives.meets_iff (h : K.Receives k c v)
    (hcall : (k.procSet c).syscall = (K.procSet c).syscall) (hi : i ≠ c) :
    k.Meets i c ↔ K.Meets i c := by
  constructor
  · rintro ⟨hb, hsend, hnames, hbc, hrecv, hpending, haccepts⟩
    have hb' := h.blocked_iff.mp hb
    rw [h.calls i hi hb'] at hsend hnames
    rw [hcall] at hrecv hpending haccepts
    rw [h.pid] at hnames haccepts
    exact ⟨hb', hsend, hnames, h.blocked, hrecv, hpending, haccepts⟩
  · rintro ⟨hb, hsend, hnames, hbc, hrecv, hpending, haccepts⟩
    rw [← h.calls i hi hb] at hsend hnames
    rw [← hcall] at hrecv hpending haccepts
    rw [← h.pid] at hnames haccepts
    exact ⟨h.blocked_iff.mpr hb, hsend, hnames, h.blocked_iff.mpr hbc, hrecv, hpending, haccepts⟩

theorem Later.mem (h : Later us s r) : s ∈ us := by
  obtain ⟨pre, post, rfl, -⟩ := h
  simp

/-- Before the last visit no receive of another slot can end. -/
theorem Receives.visit (h : K.Receives k c v) (hsynced : Synced c k (i :: us))
    (hnext : Synced c k' us) (hvisited : k.Visited i k') (hi : i ≠ c) (hus : i ∉ us) :
    K.Receives k' c (v ++ [i]) := by
  have hrecv := h.recv_self
  cases hvisited with
  | same he =>
    subst he
    refine ⟨h.pid, h.status, h.level, h.calls, h.blocked, h.recv, ?_⟩
    rcases h.own with ⟨hnone, hcall⟩ | ⟨s, hsome, hrest⟩
    · have hnot : ¬K.Meets i c := by
        intro hm
        obtain ⟨-, hlater⟩ := hnext.meets i c ((h.meets_iff hcall hi).mpr hm)
        exact hus (Later.mem hlater)
      refine Or.inl ⟨?_, hcall⟩
      rw [List.find?_append, hnone]
      simp [hnot]
    · refine Or.inr ⟨s, ?_, hrest⟩
      rw [List.find?_append, hsome]
      rfl
  | marked hb r hsend hnames ha he =>
    have hframe := fun j => mark_pid k i r j
    rw [← he] at hframe
    by_cases hrc : r = c
    · subst hrc
      have hcall : v.find? (fun i => K.Meets i r) = none ∧
          (k.procSet r).syscall = (K.procSet r).syscall := by
        rcases h.own with hown | ⟨s, -, -, hdone, -⟩
        · exact hown
        · rw [ha.2.1] at hdone
          cases hdone
      have hm : K.Meets i r := (h.meets_iff hcall.2 hi).mp
        ⟨hb, hsend, hnames, h.blocked_iff.mpr h.blocked, ha.1, ha.2.1, ha.2.2⟩
      have hself : (k'.procSet r).syscall = { (k.procSet r).syscall with
          status := .done
          sender := (k.procSet i).pid
          content := (k.procSet i).syscall.content } := by
        rw [he]
        simp [Kernel.mark]
      refine ⟨fun j => (hframe j).1.trans (h.pid j), fun j => (hframe j).2.1.trans (h.status j),
        fun j => (hframe j).2.2.trans (h.level j), fun j hj hbj => ?_, h.blocked, h.recv,
        Or.inr ⟨i, ?_, ?_, ?_, ?_⟩⟩
      · rw [he, mark_other k hj]
        exact h.calls j hj hbj
      · rw [List.find?_append, hcall.1]
        simp [hm]
      · rw [hself]
        exact ha.1
      · rw [hself]
      · rw [hself]
        exact h.pid i
    · have hidle : ¬k.Blocked r := by
        intro hbr
        rcases (hsynced.meets i r ⟨hb, hsend, hnames, hbr, ha.1, ha.2.1, ha.2.2⟩).1 with hr | hic
        · exact hrc hr
        · exact hi hic
      have hc : (k'.procSet c).syscall = (k.procSet c).syscall := by
        rw [he, mark_other k fun hcr => hrc hcr.symm]
      refine ⟨fun j => (hframe j).1.trans (h.pid j), fun j => (hframe j).2.1.trans (h.status j),
        fun j => (hframe j).2.2.trans (h.level j), fun j hj hbj => ?_, h.blocked, h.recv, ?_⟩
      · have hjr : j ≠ r := by
          rintro rfl
          exact hidle (h.blocked_iff.mpr hbj)
        rw [he, mark_other k hjr]
        exact h.calls j hj hbj
      · rw [hc]
        rcases h.own with ⟨hnone, hcall⟩ | ⟨s, hsome, hrest⟩
        · have hnot : ¬K.Meets i c := by
            intro hm
            have hm' := (h.meets_iff hcall hi).mpr hm
            have hpid := hm'.names.symm.trans hnames
            exact hrc (hsynced.pids.live_eq (Blocked.live hm'.receiver) hpid.symm)
          refine Or.inl ⟨?_, hcall⟩
          rw [List.find?_append, hnone]
          simp [hnot]
        · refine Or.inr ⟨s, ?_, hrest⟩
          rw [List.find?_append, hsome]
          rfl
  | delivered s hs hsend hb htype hdone hsender hd =>
    exfalso
    rcases (hsynced.done i hb htype hdone).2 with hic | hpid
    · exact hi hic
    · rw [hsender] at hpid
      have hsc : s = c := (hsynced.pids.live_eq (Blocked.live hs) hpid.symm).symm
      rw [hsc, hrecv] at hsend
      cases hsend

theorem Visited.agrees (h : k.Visited i k') (hsynced : Synced c k (i :: us)) (hi : i ≠ c)
    (hiv : i ∉ v) (hcv : c ∉ v) : k.Agrees k' v := by
  intro j hj
  cases h with
  | same he =>
    rw [he]
    exact ⟨Iff.rfl, rfl⟩
  | marked hb r hsend hnames ha he =>
    obtain ⟨-, hstatus, hlevel⟩ := mark_pid k i r j
    rw [he, Process.Dispatchable, Process.Dispatchable, hstatus]
    exact ⟨Iff.rfl, hlevel⟩
  | delivered s hs hsend hb htype hdone hsender hd =>
    have hsc : s = c := by
      rcases (hsynced.done i hb htype hdone).2 with hic | hpid
      · exact absurd hic hi
      · rw [hsender] at hpid
        exact (hsynced.pids.live_eq (Blocked.live hs) hpid.symm).symm
    have hjs : j ≠ s := by
      rintro rfl
      exact hcv (hsc ▸ hj)
    have hji : j ≠ i := by
      rintro rfl
      exact hiv hj
    rw [Process.Dispatchable, Process.Dispatchable, hd.status, if_neg (not_or.mpr ⟨hjs, hji⟩)]
    exact ⟨Iff.rfl, hd.level j⟩

theorem Visited.type (h : k.Visited i k') (hb : k'.Blocked j) :
    k.Blocked j ∧ (k'.procSet j).syscall.type = (k.procSet j).syscall.type := by
  cases h with
  | same he =>
    rw [he] at hb ⊢
    exact ⟨hb, rfl⟩
  | marked hi r hsend hnames ha he =>
    obtain ⟨-, hstatus, -⟩ := mark_pid k i r j
    rw [he, Blocked, hstatus] at hb
    refine ⟨hb, ?_⟩
    by_cases hjr : j = r
    · rw [he, hjr]
      simp [Kernel.mark]
    · rw [he, mark_other k hjr]
  | delivered s hs hsend hi htype hdone hsender hd =>
    exact ⟨(hd.blocked.mp hb).1, by rw [hd.syscall]⟩

end Kernel

/-- The visits of all slots but the current one. -/
structure Scan.Passed (c : Slot) (s s' : Scan) (v us : List Slot) : Prop where
  scanning : Kernel.Scanning c s'.kernel [c]
  tracks : s'.Tracks (v ++ us)
  receives : ∀ K, Kernel.Receives K s.kernel c v → Kernel.Receives K s'.kernel c (v ++ us)
  type : s'.kernel.Blocked c → s.kernel.Blocked c ∧
    (s'.kernel.procSet c).syscall.type = (s.kernel.procSet c).syscall.type

theorem Scan.passed {s s' : Scan} (h : Kernel.Scanning c s.kernel (us ++ [c])) (htracks : s.Tracks v)
    (hcv : c ∉ v) (hcu : c ∉ us) (hnodup : (v ++ us).Nodup)
    (hvisits : us.foldlM Scan.visit s = .ok s') : Scan.Passed c s s' v us := by
  induction us generalizing s v with
  | nil =>
    cases hvisits
    exact ⟨h, by rw [List.append_nil]; exact htracks, fun K hK => by rw [List.append_nil]; exact hK,
      fun hb => ⟨hb, rfl⟩⟩
  | cons i us ih =>
    rw [List.foldlM_cons] at hvisits
    obtain ⟨s₁, hvisit, hvisits⟩ := bind_eq_ok hvisits
    have hmove : v ++ i :: us = v ++ [i] ++ us := by simp
    rw [hmove] at hnodup
    have hiv : i ∉ v := by
      intro hmem
      exact (List.nodup_append.mp (List.nodup_append.mp hnodup).1).2.2 i hmem i (by simp) rfl
    have hiu : i ∉ us := fun hmem => (List.nodup_append.mp hnodup).2.2 i (by simp) i hmem rfl
    have hic : i ≠ c := fun he => hcu (he ▸ List.mem_cons_self)
    have hiuc : i ∉ us ++ [c] := by simp [hiu, hic]
    obtain ⟨k₁, hretry, hs₁⟩ := Scan.visit_ok hvisit
    have hkernel : s₁.kernel = k₁ := by
      rw [hs₁]
      split <;> rfl
    obtain ⟨hnext, hvisited⟩ := Kernel.Scanning.retry h hretry
    rw [← hkernel] at hnext hvisited
    have hagrees := hvisited.agrees (v := v) h.synced hic hiv hcv
    have htracks₁ := htracks.visit hvisit hagrees hnext.levels
    have hrest := ih hnext htracks₁ (by simp [hcv, hic.symm])
      (fun hmem => hcu (List.mem_cons_of_mem i hmem)) hnodup hvisits
    refine ⟨hrest.scanning, by rw [hmove]; exact hrest.tracks, fun K hK => ?_, fun hb => ?_⟩
    · rw [hmove]
      exact hrest.receives K (hK.visit h.synced hnext.synced hvisited hic hiuc)
    · obtain ⟨hb₁, htype₁⟩ := hrest.type hb
      obtain ⟨hb₀, htype₀⟩ := hvisited.type hb₁
      exact ⟨hb₀, htype₁.trans htype₀⟩

namespace Kernel

theorem procYield_eq {s : Scan} (h : (k.account env).scan = .ok s) : k.procYield env =
    if s.nextIdx.val < maxNprocess then .ok (s.kernel.dispatch (k.mtimeGet env) s.nextIdx)
    else .error .noProcessToRun := by
  unfold procYield
  rw [h]
  rfl

theorem account_call (env : Env) (k : Kernel) (hb : (k.account env).Blocked i) :
    k.Blocked i ∧ ((k.account env).procSet i).syscall = (k.procSet i).syscall := by
  have hsame := account_sameIpc env k
  rw [Blocked, hsame.status] at hb
  rw [hsame.syscall]
  unfold pause at hb ⊢
  split at hb
  · rename_i hrun
    rw [if_pos hrun]
    simp only [procSetRunnable, procSetStatus] at hb ⊢
    split at hb
    · cases hb
    · rename_i hpid
      rw [if_neg hpid]
      exact ⟨hb, rfl⟩
  · rename_i hrun
    rw [if_neg hrun]
    exact ⟨hb, rfl⟩

theorem scanOrder_split (hc : c.val < 16) : ∃ pre, scanOrder c = pre ++ [c] ∧ c ∉ pre ∧ pre.Nodup := by
  obtain ⟨pre, hpre⟩ := List.getLast?_eq_some_iff.mp (scanOrder_last c hc)
  have hnodup := scanOrder_nodup c
  rw [hpre] at hnodup
  obtain ⟨hfirst, -, hne⟩ := List.nodup_append.mp hnodup
  exact ⟨pre, hpre, fun hmem => hne c hmem c (by simp) rfl, hfirst⟩

end Kernel

theorem Scan.split {s' : Scan} (h : Kernel.Scanning c K (scanOrder c)) (hc : c.val < 16)
    (hscan : K.scan = .ok s') : ∃ pre s₁, scanOrder c = pre ++ [c] ∧ c ∉ pre ∧
      Scan.Passed c ⟨K, 5, Fin.ofNat 17 maxNprocess⟩ s₁ [] pre ∧ s₁.visit c = .ok s' := by
  obtain ⟨pre, hpre, hcp, hnodup⟩ := Kernel.scanOrder_split hc
  unfold Kernel.scan at hscan
  rw [h.currProcIdx, hpre, List.foldlM_append] at hscan
  obtain ⟨s₁, hvisits, hscan⟩ := bind_eq_ok hscan
  rw [List.foldlM_cons] at hscan
  obtain ⟨s₂, hlast, hend⟩ := bind_eq_ok hscan
  cases hend
  refine ⟨pre, s₁, hpre, hcp, ?_, hlast⟩
  rw [hpre] at h
  exact Scan.passed (v := []) h (.none rfl rfl rfl) List.not_mem_nil hcp hnodup hvisits

/-- How the scan ends. Either it has chosen among all slots, or the last visit has woken a
sender, and it has chosen among the others. -/
inductive Scan.Ends (K : Kernel) (c : Slot) (s : Scan) : Prop where
  | all (h : s.Tracks (scanOrder c)) (hlate : ¬K.WokenLate c)
  | late (x : Slot) (hx : x ≠ s.nextIdx) (hnext : s.nextIdx ∈ s.kernel.ready (scanOrder c))
    (h : s.kernel.choice c = some s.nextIdx ∨ s.kernel.choice c = some x)
    (hlate : K.WokenLate c ↔ s.kernel.choice c = some x)

theorem Scan.Tracks.congr {s : Scan} {w : List Slot} (h : s.Tracks v)
    (hready : s.kernel.ready w = s.kernel.ready v) : s.Tracks w := by
  cases h with
  | none hnone hnext hlevel => exact .none (hready.trans hnone) hnext hlevel
  | some hsome hlevel => exact .some (by rw [hready]; exact hsome) hlevel

namespace Kernel

theorem meets_of_find? (h : v.find? (fun i => K.Meets i c) = some s) : K.Meets s c := by
  have hmeets := List.find?_some h
  exact of_decide_eq_true hmeets

theorem not_meets_self : ¬k.Meets i i := by
  intro hm
  have hsend := hm.send
  rw [hm.recv] at hsend
  cases hsend

/-- The first sender to `c` comes before `c`. -/
theorem find?_scanOrder {pre : List Slot} (hpre : scanOrder c = pre ++ [c]) :
    (scanOrder c).find? (fun i => K.Meets i c) = pre.find? fun i => K.Meets i c := by
  rw [hpre, List.find?_append]
  have hlast : [c].find? (fun i => K.Meets i c) = none := by simp [not_meets_self]
  rw [hlast, Option.or_none]

end Kernel

/-- When the last visit does not end a receive, no sender is woken late. -/
theorem Scan.ends_all {s₁ s' : Scan} {pre : List Slot} (hpre : scanOrder c = pre ++ [c])
    (hpassed : Scan.Passed c ⟨K, 5, Fin.ofNat 17 maxNprocess⟩ s₁ [] pre) (hlast : s₁.visit c = .ok s')
    (hnext : Kernel.Scanning c s'.kernel []) (hagrees : s₁.kernel.Agrees s'.kernel pre)
    (hcalls : s₁.kernel.Blocked c → (s₁.kernel.procSet c).syscall.type = .recv →
      s'.kernel.Blocked c ∧ (s'.kernel.procSet c).syscall = (s₁.kernel.procSet c).syscall) :
    Scan.Ends K c s' := by
  have htracks := hpassed.tracks.visit hlast hagrees hnext.levels
  rw [List.nil_append, ← hpre] at htracks
  refine .all htracks ?_
  rintro ⟨x, hfind, -⟩
  have hm : K.Meets x c := Kernel.meets_of_find? hfind
  have hreceives := hpassed.receives K (.start hm.receiver hm.recv)
  rw [Kernel.find?_scanOrder hpre] at hfind
  rcases hreceives.own with ⟨hnone, -⟩ | ⟨s, -, htype, hdone, -⟩
  · rw [List.nil_append, hfind] at hnone
    cases hnone
  · obtain ⟨hb, hcall⟩ := hcalls (hreceives.blocked_iff.mpr hm.receiver) htype
    rw [← hcall] at htype hdone
    cases (hnext.synced.done c hb htype hdone).1

/-- When it does, the sender is the first that `c` accepts, and has been passed. -/
theorem Scan.ends_late {s₁ s' : Scan} {pre : List Slot} {x : Slot} (hK : K.Pids)
    (hpre : scanOrder c = pre ++ [c]) (hcp : c ∉ pre)
    (hpassed : Scan.Passed c ⟨K, 5, Fin.ofNat 17 maxNprocess⟩ s₁ [] pre) (hlast : s₁.visit c = .ok s')
    (hpending : K.Blocked c → (K.procSet c).syscall.status = .pending)
    (hlevels : s'.kernel.Levels) (hx : s₁.kernel.Blocked x)
    (hsend : (s₁.kernel.procSet x).syscall.type = .send) (hb : s₁.kernel.Blocked c)
    (hrecv : (s₁.kernel.procSet c).syscall.type = .recv)
    (hdone : (s₁.kernel.procSet c).syscall.status = .done)
    (hsender : (s₁.kernel.procSet c).syscall.sender = (s₁.kernel.procSet x).pid)
    (hd : s₁.kernel.Delivered s'.kernel x c) : Scan.Ends K c s' := by
  obtain ⟨hbK, htypeK⟩ := hpassed.type hb
  have hreceives := hpassed.receives K (.start hbK (htypeK.symm.trans hrecv))
  rw [List.nil_append] at hreceives
  have hfind : (scanOrder c).find? (fun i => K.Meets i c) = some x := by
    rw [Kernel.find?_scanOrder hpre]
    rcases hreceives.own with ⟨-, hcall⟩ | ⟨y, hfirst, -, -, hpid⟩
    · rw [hcall, hpending hbK] at hdone
      cases hdone
    · have hm : K.Meets y c := Kernel.meets_of_find? hfirst
      rw [hsender, hreceives.pid] at hpid
      rw [hfirst, hK.live_eq (Kernel.Blocked.live hm.sender) hpid]
  have hxc : x ≠ c := by
    rintro rfl
    rw [hsend] at hrecv
    cases hrecv
  have hready : ∀ j, (s'.kernel.procSet j).Dispatchable ↔
      (K.procSet j).Dispatchable ∨ j = c ∨ j = x := by
    intro j
    rw [Process.Dispatchable, hd.status, hreceives.status]
    by_cases hj : j = x ∨ j = c
    · rw [if_pos hj]
      exact ⟨fun _ => Or.inr hj.symm, fun _ => Or.inr rfl⟩
    · rw [if_neg hj]
      exact ⟨Or.inl, fun h => h.resolve_right fun he => hj he.symm⟩
  have hchoice : s'.kernel.choice c =
      ((scanOrder c).filter fun j => (K.procSet j).Dispatchable ∨ j = c ∨ j = x).argmin
        fun j => (K.procSet j).mlfqLevel := by
    have hfilter : s'.kernel.ready (scanOrder c) =
        (scanOrder c).filter fun j => (K.procSet j).Dispatchable ∨ j = c ∨ j = x :=
      List.filter_congr fun j _ => decide_eq_decide.mpr (hready j)
    rw [Kernel.choice, hfilter]
    exact Kernel.argmin_congr fun j _ => (hd.level j).trans (hreceives.level j)
  have hlate : K.WokenLate c ↔ s'.kernel.choice c = some x := by
    rw [hchoice]
    constructor
    · rintro ⟨y, hfirst, hmin⟩
      rw [hfind] at hfirst
      cases hfirst
      exact hmin
    · exact fun hmin => ⟨x, hfind, hmin⟩
  -- The scan never looks at `x` again: it might as well not have visited it.
  have hskip : s₁.Tracks (pre.filter (· ≠ x)) := by
    refine hpassed.tracks.congr ?_
    have hidle : ¬(s₁.kernel.procSet x).Dispatchable := by
      have hstatus : (s₁.kernel.procSet x).status = .pendingSyscall := hx
      rw [Process.Dispatchable, hstatus]
      rintro (h | h)
      · cases h
      · cases h
    rw [Kernel.ready, Kernel.ready, List.filter_filter]
    refine List.filter_congr fun j _ => ?_
    by_cases hj : j = x
    · subst hj
      simp [hidle]
    · simp [hj]
  have hagrees : s₁.kernel.Agrees s'.kernel (pre.filter (· ≠ x)) := by
    intro j hj
    obtain ⟨hmem, hne⟩ := List.mem_filter.mp hj
    have hjc : j ≠ c := fun he => hcp (he ▸ hmem)
    rw [Process.Dispatchable, Process.Dispatchable, hd.status,
      if_neg (not_or.mpr ⟨of_decide_eq_true hne, hjc⟩)]
    exact ⟨Iff.rfl, hd.level j⟩
  have hrest : s'.kernel.ready (pre.filter (· ≠ x) ++ [c]) =
      (s'.kernel.ready (scanOrder c)).filter (· ≠ x) := by
    have horder : pre.filter (· ≠ x) ++ [c] = (scanOrder c).filter (· ≠ x) := by
      rw [hpre, List.filter_append]
      simp [hxc.symm]
    rw [horder, Kernel.ready, Kernel.ready, List.filter_filter, List.filter_filter]
    exact List.filter_congr fun j _ => Bool.and_comm _ _
  have htracks := hskip.visit hlast hagrees hlevels
  cases htracks with
  | none hnone =>
    have hmem : c ∈ s'.kernel.ready (pre.filter (· ≠ x) ++ [c]) :=
      List.mem_filter.mpr ⟨by simp, decide_eq_true ((hready c).mpr (Or.inr (Or.inl rfl)))⟩
    rw [hnone] at hmem
    cases hmem
  | some hsome =>
    rw [hrest] at hsome
    obtain ⟨hmem, hne⟩ := List.mem_filter.mp (List.argmin_mem hsome)
    refine .late x (fun he => of_decide_eq_true hne he.symm) hmem ?_ hlate
    rcases argmin_filter_ne (fun j => (s'.kernel.procSet j).mlfqLevel) x
      (s'.kernel.ready (scanOrder c)) with he | he
    · exact Or.inl (he.trans hsome)
    · exact Or.inr he

theorem Scan.ends {s' : Scan} (h : Kernel.Scanning c K (scanOrder c)) (hc : c.val < 16)
    (hpending : K.Blocked c → (K.procSet c).syscall.status = .pending)
    (hscan : K.scan = .ok s') : Scan.Ends K c s' := by
  obtain ⟨pre, s₁, hpre, hcp, hpassed, hlast⟩ := Scan.split h hc hscan
  obtain ⟨k', hretry, hs'⟩ := Scan.visit_ok hlast
  have hkernel : s'.kernel = k' := by
    rw [hs']
    split <;> rfl
  obtain ⟨hnext, hvisited⟩ := hpassed.scanning.retry hretry
  rw [← hkernel] at hnext hvisited
  cases hvisited with
  | same he =>
    refine Scan.ends_all hpre hpassed hlast hnext (fun j _ => ?_) fun hb _ => ?_
    · rw [he]
      exact ⟨Iff.rfl, rfl⟩
    · rw [he]
      exact ⟨hb, rfl⟩
  | marked hb r hsend hnames ha he =>
    refine Scan.ends_all hpre hpassed hlast hnext (fun j _ => ?_) fun _ hrecv => ?_
    · obtain ⟨-, hstatus, hlevel⟩ := Kernel.mark_pid s₁.kernel c r j
      rw [he, Process.Dispatchable, Process.Dispatchable, hstatus]
      exact ⟨Iff.rfl, hlevel⟩
    · rw [hsend] at hrecv
      cases hrecv
  | delivered x hx hsend hb hrecv hdone hsender hd =>
    exact Scan.ends_late h.synced.pids hpre hcp hpassed hlast hpending hnext.levels hx hsend hb hrecv
      hdone hsender hd

/-- `proc_yield` dispatches the first process of the lowest level of all that can be dispatched
when its scan ends, except when the scan ends by waking a sender that comes first. -/
theorem dispatches_lowest_iff (env : Env) (k k₁ : Kernel) (t : Trap) (s : Scan)
    (h : Run env Unwrapped k) (hentry : k.untilYield t = .ok k₁)
    (hscan : (k₁.account env).scan = .ok s) :
    (∀ i, s.kernel.choice k₁.currProcIdx = some i → ∃ k', k₁.procYield env = .ok k' ∧
      k'.currProcIdx = i ∧ (k'.procSet i).status = .running) ↔
    ¬(k₁.account env).WokenLate k₁.currProcIdx := by
  have hsound := h.sound fun _ _ hwrap => hwrap
  have hyielding := hsound.untilYield hentry
  have hpending : (k₁.account env).Blocked k₁.currProcIdx →
      ((k₁.account env).procSet k₁.currProcIdx).syscall.status = .pending := by
    intro hb
    obtain ⟨hb₁, hcall⟩ := Kernel.account_call env k₁ hb
    rw [hcall]
    exact hsound.untilYield_pending hentry hb₁
  have hends := Scan.ends (hyielding.account env) hyielding.current hpending hscan
  obtain ⟨hend, hselects⟩ := hyielding.scan hscan
  have hpicks : s.nextIdx.val < 16 → ∃ k', k₁.procYield env = .ok k' ∧ k'.currProcIdx = s.nextIdx ∧
      (k'.procSet s.nextIdx).status = .running := by
    intro hlt
    have hdispatch := hend.dispatch hlt (hselects hlt) (k₁.mtimeGet env)
    have hcurr : (s.kernel.dispatch (k₁.mtimeGet env) s.nextIdx).currProcIdx = s.nextIdx := rfl
    refine ⟨_, ?_, hcurr, (hdispatch.running s.nextIdx).mpr hcurr.symm⟩
    rw [Kernel.procYield_eq hscan, if_pos hlt]
  have hnext : ∀ {q}, s.nextIdx ∈ s.kernel.ready q → q = scanOrder k₁.currProcIdx →
      s.nextIdx.val < 16 := by
    rintro q hmem rfl
    exact mem_scanOrder.mp (List.mem_filter.mp hmem).1
  cases hends with
  | all htracks hlate =>
    refine ⟨fun _ => hlate, fun _ i hi => ?_⟩
    cases htracks with
    | none hnone =>
      rw [Kernel.choice, hnone] at hi
      cases hi
    | some hsome =>
      have hsame : s.nextIdx = i := Option.some.inj (hsome.symm.trans hi)
      rw [← hsame]
      exact hpicks (hnext (List.argmin_mem hsome) rfl)
  | late x hx hmem hchoice hlate =>
    obtain ⟨k', hyield, hcurr, hrun⟩ := hpicks (hnext hmem rfl)
    rw [hlate]
    constructor
    · intro hall hsome
      obtain ⟨k'', hyield', hcurr', -⟩ := hall x hsome
      rw [hyield] at hyield'
      cases hyield'
      exact hx (hcurr'.symm.trans hcurr)
    · intro hnot i hi
      have hsome := hchoice.resolve_right hnot
      rw [hi] at hsome
      cases hsome
      exact ⟨k', hyield, hcurr, hrun⟩

def scanOf (env : Env) (k : Kernel) (t : Trap) : Option (Kernel × Scan) :=
  (k.untilYield t).toOption.bind fun k₁ => (k₁.account env).scan.toOption.map fun s => (k₁, s)

theorem scanOf_eq {t : Trap} {s : Scan} (h : scanOf env k t = some (k₁, s)) :
    k.untilYield t = .ok k₁ ∧ (k₁.account env).scan = .ok s := by
  obtain ⟨_, huntil, hrest⟩ := Option.bind_eq_some_iff.mp h
  obtain ⟨_, hscan, hpair⟩ := Option.map_eq_some_iff.mp hrest
  cases hpair
  exact ⟨ok_of_toOption huntil, ok_of_toOption hscan⟩

/-- A timer interrupt hands the core from process 1 to process 2. -/
theorem dispatches_lowest_iff_sample : ∃ k k₁ s k', Run still Unwrapped k ∧
    k.untilYield timerTrap = .ok k₁ ∧ (k₁.account still).scan = .ok s ∧
    s.kernel.choice k₁.currProcIdx = some 2 ∧ k₁.procYield still = .ok k' ∧ k'.currProcIdx = 2 := by
  obtain ⟨k, hk, hsome⟩ : ∃ k, replay Unwrapped still [.procAlloc, .procSetReady 2] = some k ∧
      ((scanOf still k timerTrap).any fun (k₁, s) => s.kernel.choice k₁.currProcIdx = some 2 ∧
        ¬(k₁.account still).WokenLate k₁.currProcIdx) = true :=
    (Option.any_eq_true _ _).mp (by decide +kernel)
  obtain ⟨⟨k₁, s⟩, hscan, hnot⟩ := (Option.any_eq_true _ _).mp hsome
  obtain ⟨hentry, hscan⟩ := scanOf_eq hscan
  obtain ⟨hchoice, hnot⟩ := of_decide_eq_true hnot
  obtain ⟨k', hyield, hcurr, -⟩ :=
    (dispatches_lowest_iff still k k₁ timerTrap s (Run.replay hk) hentry hscan).mpr hnot 2 hchoice
  exact ⟨k, k₁, s, k', Run.replay hk, hentry, hscan, hchoice, hyield, hcurr⟩

/-- Process 2 waits to send to process 1. -/
def sendFirst : List Action := [.procAlloc, .procSetReady 2, timer, ecall .send 1 fun _ => 7]

def recvTrap : Trap := ⟨0, fun _ => 0, excpIdEcallU, ⟨.recv, gpidAll, 0, fun _ => 0, .done⟩⟩

/-- When process 1 then receives, process 2 is the first that can be dispatched, on the same
level, but process 1 is dispatched again. -/
theorem dispatches_over_woken : ∃ k k₁ s k', Run still Unwrapped k ∧
    k.untilYield recvTrap = .ok k₁ ∧ (k₁.account still).scan = .ok s ∧
    s.kernel.choice k₁.currProcIdx = some 2 ∧ k₁.procYield still = .ok k' ∧ k'.currProcIdx = 1 := by
  obtain ⟨k, hk, hsome⟩ : ∃ k, replay Unwrapped still sendFirst = some k ∧
      ((scanOf still k recvTrap).any fun (k₁, s) => s.kernel.choice k₁.currProcIdx = some 2 ∧
        (k₁.procYield still).toOption.any fun k' => k'.currProcIdx = 1) = true :=
    (Option.any_eq_true _ _).mp (by decide +kernel)
  obtain ⟨⟨k₁, s⟩, hscan, hchoice⟩ := (Option.any_eq_true _ _).mp hsome
  obtain ⟨hentry, hscan⟩ := scanOf_eq hscan
  obtain ⟨hchoice, hyield⟩ := of_decide_eq_true hchoice
  obtain ⟨k', hstep, hcurr⟩ := ok_of_any hyield
  exact ⟨k, k₁, s, k', Run.replay hk, hentry, hscan, hchoice, hstep, of_decide_eq_true hcurr⟩

end OsSuite.Grass
