import OsSuite.Process

/-! What `proc_free` frees. Its loop picks the first user process, stamps and prints
that one, and frees the process it was asked to free. -/

namespace OsSuite.Grass

open Earth (Pid)

variable {env : Env} {k k' : Kernel} {us : List Slot}

namespace Kernel

def DistinctLive (k : Kernel) : Prop :=
  ∀ i j, (k.procSet i).status ≠ .unused → (k.procSet j).status ≠ .unused →
    (k.procSet i).pid = (k.procSet j).pid → i = j

instance (k : Kernel) : Decidable k.DistinctLive :=
  inferInstanceAs (Decidable (∀ _ _, _ → _ → _ → _))

/-- A slot of `us`, stamped when the slots before it have been. -/
def stamped (env : Env) (k : Kernel) (us : List Slot) (i : Slot) : Process :=
  { k.procSet i with timeTerminated := env.mtime (k.mtimeReads + us.idxOf i) }

def liveUsers (k : Kernel) : List Slot :=
  (List.finRange 17).filter fun i => (k.procSet i).LiveUser

end Kernel

/-- Exactly the processes of `us` are stamped, printed and freed with their pages. -/
structure Frees (env : Env) (k : Kernel) (us : List Slot) (k' : Kernel) : Prop where
  slots : ∀ i, k'.procSet i =
    if i ∈ us then { k.stamped env us i with status := .unused } else k.procSet i
  pages : ∀ x, k'.pageInfoTable x =
    if (k.pageInfoTable x).use ∧ ∃ i ∈ us, (k.procSet i).pid = (k.pageInfoTable x).pid then
      Earth.PageInfo.zero
    else k.pageInfoTable x
  log : k'.log = k.log ++ us.flatMap fun i =>
    [.terminated (k.stamped env us i).lifecycle, .mmuFree (k.procSet i).pid]
  reads : k'.mtimeReads = k.mtimeReads + us.length
  others : k'.currProcIdx = k.currProcIdx ∧ k'.lastPid = k.lastPid ∧
    k'.mlfqLastResetTime = k.mlfqLastResetTime ∧ k'.ttyReads = k.ttyReads

theorem Frees.nil : Frees env k [] k := by
  refine ⟨fun _ => rfl, fun x => ?_, by simp, rfl, rfl, rfl, rfl, rfl⟩
  simp

theorem stamped_append {i : Slot} (hi : i ∈ us) (j : Slot) : k.stamped env (us ++ [j]) i = k.stamped env us i := by
  rw [Kernel.stamped, Kernel.stamped, List.idxOf_append_of_mem hi]

theorem stamped_last {i : Slot} (hi : i ∉ us) : k.stamped env (us ++ [i]) i =
    { k.procSet i with timeTerminated := env.mtime (k.mtimeReads + us.length) } := by
  rw [Kernel.stamped, List.idxOf_append_of_notMem hi]
  simp

theorem Frees.freeUser (h : Frees env k us k') {i : Slot} (hi : i ∉ us)
    (hlive : (k.procSet i).LiveUser) : Frees env k (us ++ [i]) (k'.freeUser env i) := by
  have hslot : k'.procSet i = k.procSet i := by rw [h.slots, if_neg hi]
  have hstamp : ({ k'.procSet i with timeTerminated := k'.mtimeGet env } : Process) =
      k.stamped env (us ++ [i]) i := by
    rw [stamped_last hi, hslot, Kernel.mtimeGet, h.reads]
  have heq : k'.freeUser env i = ((k'.terminate env i).mmuFree (k.procSet i).pid).set i
      { k.stamped env (us ++ [i]) i with status := .unused } := by
    rw [Kernel.freeUser, hslot, if_pos hlive, ← hstamp]
    simp [Kernel.mmuFree, Kernel.terminate, Kernel.record, Kernel.set, hslot]
  rw [heq]
  refine ⟨fun j => ?_, fun x => ?_, ?_, ?_, h.others⟩
  · by_cases hj : j = i
    · subst hj
      simp
    · have hmem : j ∈ us ++ [i] ↔ j ∈ us := by simp [hj]
      rw [Kernel.set_of_ne _ _ hj, if_congr hmem rfl rfl]
      have hkeep : ((k'.terminate env i).mmuFree (k.procSet i).pid).procSet j = k'.procSet j :=
        Function.update_of_ne hj _ _
      rw [hkeep, h.slots]
      split
      · rename_i hmem
        rw [stamped_append hmem]
      · rfl
  · have hfree : (((k'.terminate env i).mmuFree (k.procSet i).pid).set i
        { k.stamped env (us ++ [i]) i with status := .unused }).pageInfoTable x =
        Earth.freePages k'.pageInfoTable (k.procSet i).pid x := rfl
    rw [hfree, Earth.freePages]
    by_cases hold : (k.pageInfoTable x).use ∧ ∃ j ∈ us, (k.procSet j).pid = (k.pageInfoTable x).pid
    · have hzero : k'.pageInfoTable x = Earth.PageInfo.zero := by rw [h.pages, if_pos hold]
      obtain ⟨huse, j, hj, hpid⟩ := hold
      rw [hzero, if_neg (fun hz => by cases hz.1), if_pos ⟨huse, j, List.mem_append_left _ hj, hpid⟩]
    · have hkeep : k'.pageInfoTable x = k.pageInfoTable x := by rw [h.pages, if_neg hold]
      rw [hkeep]
      refine if_congr ?_ rfl rfl
      constructor
      · intro hx
        exact ⟨hx.1, i, by simp, hx.2.symm⟩
      · rintro ⟨huse, j, hj, hpid⟩
        rcases List.mem_append.mp hj with hj | hj
        · exact absurd ⟨huse, j, hj, hpid⟩ hold
        · rw [List.mem_singleton] at hj
          subst hj
          exact ⟨huse, hpid.symm⟩
  · have hlog : (((k'.terminate env i).mmuFree (k.procSet i).pid).set i
        { k.stamped env (us ++ [i]) i with status := .unused }).log = k'.log ++
        [.terminated (k.stamped env (us ++ [i]) i).lifecycle, .mmuFree (k.procSet i).pid] := by
      rw [← hstamp]
      simp [Kernel.mmuFree, Kernel.terminate, Kernel.record, Kernel.set, Kernel.mtimeRead]
    rw [hlog, h.log, List.flatMap_append, List.append_assoc]
    congr 2
    refine List.flatMap_congr fun j hj => ?_
    rw [stamped_append hj]
  · simp [Kernel.mmuFree, Kernel.terminate, Kernel.record, Kernel.set, Kernel.mtimeRead, h.reads,
      Nat.add_assoc]

theorem frees_loop {q : List Slot} (hq : q.Nodup) :
    Frees env k (q.filter fun i => (k.procSet i).LiveUser) (q.foldl (Kernel.freeUser env) k) := by
  induction q using List.reverseRecOn with
  | nil => exact .nil
  | append_singleton q i ih =>
    have hnd := List.nodup_append.mp hq
    have hi : i ∉ q := fun hmem => hnd.2.2 i hmem i (by simp) rfl
    have hloop := ih hnd.1
    have hi' : i ∉ q.filter fun i => (k.procSet i).LiveUser := fun hmem => hi (List.mem_filter.mp hmem).1
    rw [List.foldl_append, List.foldl_cons, List.foldl_nil, List.filter_append]
    by_cases hlive : (k.procSet i).LiveUser
    · simpa [hlive] using hloop.freeUser hi' hlive
    · have hsame : (q.foldl (Kernel.freeUser env) k).freeUser env i = q.foldl (Kernel.freeUser env) k := by
        rw [Kernel.freeUser, hloop.slots, if_neg hi', if_neg hlive]
      simpa [hlive, hsame] using hloop

theorem firstUser_eq {i : Slot} : k.firstUser = some i ↔
    i.val < 16 ∧ (k.procSet i).LiveUser ∧ ∀ j < i, ¬(k.procSet j).LiveUser := by
  rw [Kernel.firstUser, find?_sorted scannedSlots_sorted]
  simp only [mem_scannedSlots, decide_eq_true_eq, decide_eq_false_iff_not]
  constructor
  · rintro ⟨hi, hlive, hfirst⟩
    exact ⟨hi, hlive, fun j hj => hfirst j (Nat.lt_trans hj hi) hj⟩
  · rintro ⟨hi, hlive, hfirst⟩
    exact ⟨hi, hlive, fun j _ hj => hfirst j hj⟩

theorem procFree_user {p : Pid} (hp : p ≥ gpidUserStart) {i : Slot} (hi : k.firstUser = some i) :
    k.procFree env p = ((k.terminate env i).mmuFree p).procSetStatus p .unused := by
  have hne : p ≠ gpidAll := by
    rintro rfl
    exact absurd hp (by decide)
  rw [Kernel.procFree, if_pos hne, hi]

theorem procFree_user_none {p : Pid} (hp : p ≥ gpidUserStart) (hnone : k.firstUser = none) :
    k.procFree env p = k := by
  have hne : p ≠ gpidAll := by
    rintro rfl
    exact absurd hp (by decide)
  rw [Kernel.procFree, if_pos hne, hnone]

/-- When the loop stops at the process itself, it is one round of the loop for all. -/
theorem procFree_own (hdistinct : k.DistinctLive) {i : Slot} (hi : k.firstUser = some i) :
    k.procFree env (k.procSet i).pid = k.freeUser env i := by
  obtain ⟨hlt, hlive, -⟩ := firstUser_eq.mp hi
  rw [procFree_user hlive.1 hi, Kernel.freeUser, if_pos hlive]
  have hterm : ∀ j, j ≠ i → ((k.terminate env i).mmuFree (k.procSet i).pid).procSet j = k.procSet j :=
    fun j hj => Function.update_of_ne hj _ _
  have hself : (((k.terminate env i).mmuFree (k.procSet i).pid).procSet i).pid = (k.procSet i).pid := by
    simp [Kernel.mmuFree, Kernel.terminate, Kernel.record]
  simp only [Kernel.procSetStatus, Kernel.set]
  congr 1
  funext j
  by_cases hj : j = i
  · subst hj
    rw [Function.update_self, if_pos ⟨hlt, hself⟩]
  · rw [Function.update_of_ne hj, hterm j hj]
    split
    · rename_i hpid
      have hdead : (k.procSet j).status = .unused := by
        by_contra hne
        exact hj (hdistinct j i hne hlive.2 hpid.2)
      rw [← hdead]
    · rfl

theorem frees_own (hdistinct : k.DistinctLive) {i : Slot} (hi : k.firstUser = some i) :
    Frees env k [i] (k.procFree env (k.procSet i).pid) := by
  rw [procFree_own hdistinct hi]
  exact Frees.nil.freeUser List.not_mem_nil (firstUser_eq.mp hi).2.1

theorem firstUser_of_frees (hdistinct : k.DistinctLive) {i : Slot} (hlive : (k.procSet i).LiveUser)
    (h : Frees env k [i] (k.procFree env (k.procSet i).pid)) : k.firstUser = some i := by
  cases hj : k.firstUser with
  | none =>
    rw [procFree_user_none hlive.1 hj] at h
    have hslot := h.slots i
    rw [if_pos (List.mem_singleton.mpr rfl)] at hslot
    exact absurd (congrArg Process.status hslot) hlive.2
  | some j =>
    have hlog := h.log
    rw [procFree_user hlive.1 hj] at hlog
    have hprinted : (k.procSet j).pid = (k.procSet i).pid := by
      have htail : [Event.terminated ({ k.procSet j with timeTerminated := k.mtimeGet env } : Process).lifecycle,
          .mmuFree (k.procSet i).pid] =
          [.terminated (k.stamped env [i] i).lifecycle, .mmuFree (k.procSet i).pid] := by
        simpa [Kernel.procSetStatus, Kernel.mmuFree, Kernel.terminate, Kernel.record, Kernel.set,
          Kernel.mtimeRead] using hlog
      injection htail with hevent _
      injection hevent with hlifecycle
      exact congrArg Lifecycle.pid hlifecycle
    rw [hdistinct j i (firstUser_eq.mp hj).2.1.2 hlive.2 hprinted]

theorem frees_all_iff : Frees env k k.liveUsers (k.procFree env gpidAll) ↔
    ¬(k.procSet 16).LiveUser := by
  have hrun : Frees env k (scannedSlots.filter fun i => (k.procSet i).LiveUser)
      (k.procFree env gpidAll) := by
    rw [Kernel.procFree, if_neg (not_not_intro rfl)]
    exact frees_loop (scannedSlots_sorted.imp fun h => ne_of_lt h)
  constructor
  · intro h hlive
    have hslot := h.slots 16
    rw [if_pos (by simpa [Kernel.liveUsers] using hlive), hrun.slots,
      if_neg (by simp)] at hslot
    exact hlive.2 (congrArg Process.status hslot)
  · intro hlast
    have hsame : k.liveUsers = scannedSlots.filter fun i => (k.procSet i).LiveUser := by
      rw [Kernel.liveUsers, scannedSlots, List.filter_filter]
      refine List.filter_congr fun i _ => ?_
      by_cases hi : i.val < 16
      · simp [hi]
      · have he : i = 16 := Fin.ext (by change i.val = 16; omega)
        rw [he] at hi ⊢
        simp [hlast]
    rw [hsame]
    exact hrun

/-- `proc_free(p)` frees the process `p` and nothing else exactly when it is the first user
process of the slots scanned, and `proc_free(GPID_ALL)` all of them exactly when none is in
the last slot. -/
theorem procFree_frees_iff (env : Env) (k : Kernel) (hdistinct : k.DistinctLive) :
    (∀ i, (k.procSet i).LiveUser → (Frees env k [i] (k.procFree env (k.procSet i).pid) ↔
      i.val < 16 ∧ ∀ j < i, ¬(k.procSet j).LiveUser)) ∧
    (Frees env k k.liveUsers (k.procFree env gpidAll) ↔ ¬(k.procSet 16).LiveUser) := by
  refine ⟨fun i hlive => ⟨fun h => ?_, fun h => ?_⟩, frees_all_iff⟩
  · have hi := firstUser_eq.mp (firstUser_of_frees hdistinct hlive h)
    exact ⟨hi.1, hi.2.2⟩
  · exact frees_own hdistinct (firstUser_eq.mpr ⟨h.1, hlive, h.2⟩)

/-- Two background processes, in slots 5 and 6. -/
def twoUsers : Kernel :=
  ((Kernel.zero fun _ => Earth.PageInfo.zero).set 5 (Process.zero.claim 5 1)).set 6
    (Process.zero.claim 6 2)

theorem procFree_frees_iff_sample :
    Frees ⟨fun _ => 9, fun _ => true⟩ twoUsers [5] (twoUsers.procFree ⟨fun _ => 9, fun _ => true⟩ 5) :=
  ((procFree_frees_iff ⟨fun _ => 9, fun _ => true⟩ twoUsers (by decide)).1 5 (by decide)).mpr
    (by decide)

/-- The second process exits first: slot 5 is stamped, and process 5 printed. -/
theorem procFree_stamps_other : twoUsers.DistinctLive ∧ (twoUsers.procSet 6).LiveUser ∧
    ¬Frees ⟨fun _ => 9, fun _ => true⟩ twoUsers [6]
      (twoUsers.procFree ⟨fun _ => 9, fun _ => true⟩ 6) := by
  refine ⟨by decide, by decide, fun h => ?_⟩
  have hslot := congrArg Process.timeTerminated (h.slots 5)
  revert hslot
  decide +kernel

end OsSuite.Grass
