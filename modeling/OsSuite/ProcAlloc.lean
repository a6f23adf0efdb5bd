import OsSuite.KernelRun
import OsSuite.ProcFree

/-! Which processes created by `proc_alloc` the rest of the kernel sees. The loop of
`proc_alloc` ends at slot MAX_NPROCESS, all others before it. -/

namespace OsSuite.Grass

open Earth (Pid PageInfoTable)

variable {env : Env} {k k' : Kernel} {i : Slot} {p : Pid}

/-- The slot `i` of the new process `p` is one that the other operations look at. -/
structure VisibleAt (env : Env) (k : Kernel) (p : Pid) (i : Slot) : Prop where
  filled : (k.procSet i).pid = p ∧ (k.procSet i).status = .loading
  ready : k.procSetReady p = k.set i { k.procSet i with status := .ready }
  scanned : ∀ currProcIdx, i ∈ scanOrder currProcIdx
  selected : ∀ lowestLevel > 0, ∀ nextIdx,
    Scan.visit ⟨k.procSetReady p, lowestLevel, nextIdx⟩ i = .ok ⟨k.procSetReady p, 0, i⟩
  found : k.receiverSlot p = some i
  released : ∀ table q, q = p ∨ q = gpidAll →
    ((({ k with pageInfoTable := table } : Kernel).procFree env q).procSet i).status = .unused ∧
    ∀ x, ((({ k with pageInfoTable := table } : Kernel).procFree env q).pageInfoTable x).use →
      ((({ k with pageInfoTable := table } : Kernel).procFree env q).pageInfoTable x).pid ≠ p

def Visible (env : Env) (k : Kernel) (p : Pid) : Prop := ∃ i, VisibleAt env k p i

theorem freePages_pid {table : PageInfoTable} {x : Earth.PageId}
    (huse : (Earth.freePages table p x).use = true) : (Earth.freePages table p x).pid ≠ p := by
  unfold Earth.freePages at huse ⊢
  split
  · rename_i hfree
    rw [if_pos hfree] at huse
    cases huse
  · rename_i hkeep
    rw [if_neg hkeep] at huse
    exact fun hpid => hkeep ⟨huse, hpid⟩

namespace Kernel

theorem released_own (hi : i.val < 16) (hlive : (k.procSet i).LiveUser) :
    ((k.procFree env (k.procSet i).pid).procSet i).status = .unused ∧
    ∀ x, ((k.procFree env (k.procSet i).pid).pageInfoTable x).use →
      ((k.procFree env (k.procSet i).pid).pageInfoTable x).pid ≠ (k.procSet i).pid := by
  have hall : (k.procSet i).pid ≠ gpidAll := by
    intro he
    have huser := hlive.1
    rw [he] at huser
    exact absurd huser (by decide)
  cases hfirst : k.firstUser with
  | none =>
    have hnone := List.find?_eq_none.mp hfirst i (mem_scannedSlots.mpr hi)
    exact absurd hlive (by simpa using hnone)
  | some j =>
    constructor
    · rw [(procFree_released hall hfirst).status, if_pos ⟨hi, rfl⟩]
    · have heq : (k.procFree env (k.procSet i).pid).pageInfoTable =
          Earth.freePages k.pageInfoTable (k.procSet i).pid := by
        rw [procFree_user hlive.1 hfirst]
        rfl
      rw [heq]
      exact fun x => freePages_pid

theorem released_all (hi : i.val < 16) (hlive : (k.procSet i).LiveUser) :
    ((k.procFree env gpidAll).procSet i).status = .unused ∧
    ∀ x, ((k.procFree env gpidAll).pageInfoTable x).use →
      ((k.procFree env gpidAll).pageInfoTable x).pid ≠ (k.procSet i).pid := by
  have hfrees : Frees env k (scannedSlots.filter fun i => (k.procSet i).LiveUser)
      (k.procFree env gpidAll) := by
    rw [procFree, if_neg (not_not_intro rfl)]
    exact frees_loop (scannedSlots_sorted.imp fun h => ne_of_lt h)
  have hmem : i ∈ scannedSlots.filter fun i => (k.procSet i).LiveUser :=
    List.mem_filter.mpr ⟨mem_scannedSlots.mpr hi, by simpa using hlive⟩
  constructor
  · rw [hfrees.slots, if_pos hmem]
  · intro x huse hpid
    rw [hfrees.pages] at huse hpid
    split at huse
    · cases huse
    · rename_i hkeep
      rw [if_neg hkeep] at hpid
      exact hkeep ⟨huse, i, hmem, hpid.symm⟩

theorem Pids.visibleAt (h : k.Pids) (hi : i.val < 16) (hp : (k.procSet i).pid = p)
    (hloading : (k.procSet i).status = .loading) (hlevel : (k.procSet i).mlfqLevel = 0)
    (huser : p ≥ gpidUserStart) : VisibleAt env k p i := by
  subst hp
  have hlive : (k.procSet i).status ≠ .unused := by
    rw [hloading]
    decide
  have hready : k.procSetReady (k.procSet i).pid = k.set i { k.procSet i with status := .ready } :=
    h.procSetStatus_eq hlive hi .ready
  refine ⟨⟨rfl, hloading⟩, hready, fun c => mem_scanOrder.mpr hi, fun lowest hlowest next => ?_, ?_,
    fun table q hq => ?_⟩
  · rw [hready]
    have hidle : (k.set i { k.procSet i with status := .ready }).retry i =
        .ok (k.set i { k.procSet i with status := .ready }) := by
      rw [retry, set_self, if_neg (by rintro ⟨⟩)]
    rw [Scan.visit, hidle]
    change (if (_ : Process).Dispatchable ∧ (_ : Nat) < lowest then Except.ok _ else Except.ok _) = _
    rw [set_self, if_pos ⟨Or.inl rfl, by rw [hlevel]; exact hlowest⟩]
    rw [hlevel]
  · rw [receiverSlot, find?_sorted scannedSlots_sorted]
    refine ⟨mem_scannedSlots.mpr hi, by simpa using hlive, fun j hj hlt => ?_⟩
    have hne : ¬(k.procSet j).pid = (k.procSet i).pid := fun he => ne_of_lt hlt (h.live_eq hlive he)
    simp [hne]
  · rcases hq with rfl | rfl
    · exact released_own (k := { k with pageInfoTable := table }) hi ⟨huser, hlive⟩
    · exact released_all (k := { k with pageInfoTable := table }) hi ⟨huser, hlive⟩

theorem VisibleAt.user (h : VisibleAt env k p i) : p ≥ gpidUserStart := by
  by_contra hlow
  have hfree := (h.released k.pageInfoTable gpidAll (Or.inr rfl)).1
  have hfrees : Frees env k (scannedSlots.filter fun i => (k.procSet i).LiveUser)
      (k.procFree env gpidAll) := by
    rw [procFree, if_neg (not_not_intro rfl)]
    exact frees_loop (scannedSlots_sorted.imp fun h => ne_of_lt h)
  have hmem : i ∉ scannedSlots.filter fun i => (k.procSet i).LiveUser := by
    intro hmem
    have hlive : (k.procSet i).LiveUser := by simpa using (List.mem_filter.mp hmem).2
    rw [Process.LiveUser, h.filled.1] at hlive
    exact hlow hlive.1
  rw [hfrees.slots, if_neg hmem, h.filled.2] at hfree
  cases hfree

end Kernel

/-- A new process is visible exactly when a slot before the last was free, and the counter is
past the pids of the system processes and not beyond the largest `int`. -/
theorem procAlloc_visible_iff (env : Env) (k k' : Kernel) (p : Pid) (h : Run env Unwrapped k)
    (hwrap : k.lastPid + 1 ≠ 0) (halloc : k.procAlloc env = .ok (p, k')) :
    Visible env k' p ↔ (∃ i : Slot, 0 < i.val ∧ i.val < 16 ∧ (k.procSet i).status = .unused) ∧
      pidOf (k.lastPid + 1) ≥ gpidUserStart := by
  have hsound := h.sound fun _ _ hwrap => hwrap
  have hpids : k'.Pids := (hsound.procAlloc hwrap halloc).synced.pids
  obtain ⟨i, hi, hp, hk'⟩ := Kernel.procAlloc_ok halloc
  obtain ⟨hpos, hunused, hfirst⟩ := Kernel.unusedSlot_eq.mp hi
  have hself : k'.procSet i = (k.procSet i).claim p (k.mtimeGet env) := by
    rw [hk']
    exact Function.update_self _ _ _
  rw [← hp]
  constructor
  · rintro ⟨j, hj⟩
    have hji : j = i := by
      refine hpids.live_eq (i := i) (by rw [hself]; nofun) ?_
      rw [hj.filled.1, hself]
      rfl
    subst hji
    exact ⟨⟨j, hpos, mem_scanOrder.mp (hj.scanned 0), hunused⟩, Kernel.VisibleAt.user hj⟩
  · rintro ⟨⟨j, hjpos, hj, hjunused⟩, huser⟩
    have hij : ¬j < i := fun hlt => hfirst j hjpos hlt hjunused
    have hlt : i.val < 16 := by
      have : i.val ≤ j.val := not_lt.mp hij
      omega
    exact ⟨i, hpids.visibleAt hlt (by rw [hself]; rfl) (by rw [hself]; rfl) (by rw [hself]; rfl) huser⟩

/-- Processes 2 to `n + 1` are created. -/
def spawn (n : Nat) : List Action :=
  (List.range' 2 n).flatMap fun p => [.procAlloc, .procSetReady p]

theorem procAlloc_visible_iff_sample : ∃ k k', Run still Unwrapped k ∧
    k.procAlloc still = .ok (5, k') ∧ Visible still k' 5 := by
  obtain ⟨k, hk, hnext⟩ : ∃ k, replay Unwrapped still (spawn 3) = some k ∧
      decide (k.lastPid = 4 ∧ (k.procSet 5).status = .unused ∧
        (k.procAlloc still).toOption.isSome) = true :=
    (Option.any_eq_true _ _).mp (by decide +kernel)
  obtain ⟨hlast, hunused, hsome⟩ := of_decide_eq_true hnext
  obtain ⟨⟨p, k'⟩, halloc⟩ := Option.isSome_iff_exists.mp hsome
  have hok : k.procAlloc still = .ok (p, k') := ok_of_toOption halloc
  obtain ⟨-, -, hp, -⟩ := Kernel.procAlloc_ok hok
  have hfive : p = 5 := by
    rw [hp, hlast]
    rfl
  have hwrap : k.lastPid + 1 ≠ 0 := by
    rw [hlast]
    decide
  have huser : pidOf (k.lastPid + 1) ≥ gpidUserStart := by
    rw [hlast]
    decide
  subst hfive
  exact ⟨k, k', Run.replay hk, hok, (procAlloc_visible_iff still k k' 5 (Run.replay hk) hwrap hok).mpr
    ⟨⟨5, by decide, by decide, hunused⟩, huser⟩⟩

/-- With slots 1 to 15 in use, process 16 is created in slot 16. -/
theorem procAlloc_last_slot : ∃ k p k', Run still Unwrapped k ∧ k.procAlloc still = .ok (p, k') ∧
    p ≥ gpidUserStart ∧ ¬Visible still k' p := by
  obtain ⟨k, hk, hnext⟩ : ∃ k, replay Unwrapped still (spawn 14) = some k ∧
      ((k.procAlloc still).toOption.any fun result => decide (result.1 ≥ gpidUserStart ∧
        ∀ i : Slot, i.val < 16 → (result.2.procSet i).pid ≠ result.1)) = true :=
    (Option.any_eq_true _ _).mp (by decide +kernel)
  obtain ⟨⟨p, k'⟩, hstep, hresult⟩ := ok_of_any hnext
  obtain ⟨huser, hnone⟩ := of_decide_eq_true hresult
  refine ⟨k, p, k', Run.replay hk, hstep, huser, ?_⟩
  rintro ⟨i, hi⟩
  exact hnone i (mem_scanOrder.mp (hi.scanned 0)) hi.filled.1

end OsSuite.Grass
