import OsSuite.KernelRun

/-! What a run of the kernel guarantees to the processes that exchange messages:
each message is delivered once, and no pair that could meet is left waiting. -/

namespace OsSuite.Grass

open Earth (Pid PageInfoTable)
open Rendezvous (Label Call waiting Matched)

variable {env : Env} {k k' : Kernel} {i : Slot}

/-- The call that a struct asks for. -/
def Syscall.call (syscall : Syscall) : Option (Call Pid Content) :=
  match syscall.type with
  | .send => some (.send syscall.receiver syscall.content)
  | .recv => some (.recv (senderOf syscall.sender))
  | _ => none

/-- Between entries a blocked slot waits in the call of its struct. -/
theorem Kernel.Sound.waits (h : k.Sound) (hi : k.Blocked i) :
    ∃ c, (k.procSet i).syscall.call = some c ∧ waiting k.trace (k.procSet i).pid = some c := by
  cases h.synced.waits i hi with
  | send htype hw => exact ⟨_, by rw [Syscall.call, htype], hw⟩
  | recv htype hstatus hw => exact ⟨_, by rw [Syscall.call, htype], hw⟩
  | done htype hstatus => cases (h.synced.done i hi htype hstatus).1

theorem Kernel.Sound.waiting_iff (h : k.Sound) {p : Pid} {c : Call Pid Content} :
    waiting k.trace p = some c ↔
      ∃ i, k.Blocked i ∧ (k.procSet i).pid = p ∧ (k.procSet i).syscall.call = some c := by
  constructor
  · intro hw
    have hblocked : ∃ i, k.Blocked i ∧ (k.procSet i).pid = p := by
      by_contra hnone
      have hidle := h.synced.idle p fun i hi hpid => hnone ⟨i, hi, hpid⟩
      rw [hw] at hidle
      cases hidle
    obtain ⟨i, hi, hpid⟩ := hblocked
    obtain ⟨d, hd, hw'⟩ := h.waits hi
    rw [hpid, hw] at hw'
    cases hw'
    exact ⟨i, hi, hpid, hd⟩
  · rintro ⟨i, hi, hpid, hc⟩
    obtain ⟨d, hd, hw⟩ := h.waits hi
    rw [hpid] at hw
    rw [hc] at hd
    cases hd
    exact hw

/-- Receives that complete and sends that complete are matched one to one, each receive
with a send to it of the same content. A call ends in its match, or because the process
is freed; until then the process is blocked, and in that call. -/
theorem ipc_exactly_once (env : Env) (k : Kernel) (h : Run env Unwrapped k) :
    (∃ sendOf recvOf, Matched k.trace sendOf recvOf) ∧
    ∀ p c, waiting k.trace p = some c ↔
      ∃ i, k.Blocked i ∧ (k.procSet i).pid = p ∧ (k.procSet i).syscall.call = some c := by
  have hsound := h.sound fun _ _ hwrap => hwrap
  exact ⟨Rendezvous.exactly_once hsound.synced.valid, fun p c => hsound.waiting_iff⟩

/-- Process 2 is created, process 1 receives and process 2 sends to it. -/
def exchange : List Action :=
  [.procAlloc, .procSetReady 2, ecall .recv gpidAll fun _ => 0, ecall .send 1 fun _ => 7]

theorem ipc_exactly_once_sample : ∃ k, replay Unwrapped still exchange = some k ∧ k.trace.length = 3 ∧
    (∃ sendOf recvOf, Matched k.trace sendOf recvOf) ∧
    ∀ p c, waiting k.trace p = some c ↔
      ∃ i, k.Blocked i ∧ (k.procSet i).pid = p ∧ (k.procSet i).syscall.call = some c := by
  obtain ⟨k, hk, hlength⟩ : ∃ k, replay Unwrapped still exchange = some k ∧ k.trace.length = 3 := by
    have hrun : (replay Unwrapped still exchange).map (fun k => k.trace.length) = some 3 := by decide +kernel
    exact Option.map_eq_some_iff.mp hrun
  exact ⟨k, hk, hlength, ipc_exactly_once still k (Run.replay hk)⟩

end OsSuite.Grass
