import OsSuite.FileService
import OsSuite.Terminal

/-! `term_read` of any process, through the kernel and the terminal server. The keys typed are shared
out among the readers, a line each, in the order in which the server takes their requests. -/

namespace OsSuite.Grass

open Earth (Pid)
open Rendezvous
open CString (Text)
open Library (Editor)

variable {env : Env} {k : Kernel} {p : Pid} {q m : Content} {f : Nat → Server Pid Content Text} {keys rest : Text}
  {a b c d : Nat}

/-- The reply to TERM_INPUT, with the keys that are left. It stands where the request was. -/
structure InputReply (q : Content) (keys rest : Text) (m : Content) : Prop where
  returned : ∃ value, (Apps.serveInput q keys).1 = .returned value rest ∧ word m 0 = value.toUInt32
  buf : ∀ j < 512, byteAt m (4 + j) = (Apps.serveInput q keys).2.buf j

/-- One round of the loop of sys_terminal.c. The state is what will be typed. -/
def terminalServer : Handler Content Text := fun keys q rest reply =>
  (handleTerminal q = .reply ∧ ∃ m, reply = some m ∧ InputReply q keys rest m) ∨
    (handleTerminal q = .done ∧ rest = keys ∧ reply = none)

/-- What `term_read` returns, and the characters of its buffer. -/
def termReadValue (m : Content) : Nat := (word m 0).toNat

def termReadBuf (m : Content) (j : Nat) : UInt8 := byteAt m (4 + j)

/-- The client has the line, with a NUL behind it. -/
structure Has (m : Content) (line : Text) (value : Nat) : Prop where
  value : termReadValue m = value
  chars : ∀ j (h : j < line.length), termReadBuf m j = line.get ⟨j, h⟩
  nul : termReadBuf m line.length = 0

/-- A line read from the keys, edited as the reference editor does, ended by Enter or by its length. -/
inductive LineRead (len : Nat) (keys rest : Text) (m : Content) : Prop where
  | entered (e : Editor) (hedit : Editor.edit (len - 1) keys ⟨[], []⟩ = .entered e rest)
    (hline : Has m e.line (if e.line = [] then 0 else e.line.length + 1))
  | full (e : Editor) (hedit : Editor.edit (len - 1) keys ⟨[], []⟩ = .full e rest) (hline : Has m e.line len)

theorem termLoop_suffix {len : UInt32} {keys rest : Text} {i value : Int32} {s : Library.Tty}
    (h : (Library.termLoop len keys i s).1 = .returned value rest) : rest <:+ keys := by
  induction keys generalizing i s with
  | nil =>
    rw [Library.termLoop] at h
    split at h
    · cases h
    · cases h
      exact List.suffix_rfl
  | cons c keys ih =>
    rw [Library.termLoop] at h
    split at h
    · dsimp only at h
      split at h
      · split at h
        · split at h
          · cases h
            exact List.suffix_cons _ _
          · cases h
        · cases h
          exact List.suffix_cons _ _
      · split at h
        · split at h
          · exact (ih h).trans (List.suffix_cons c keys)
          · cases h
        · split at h
          · exact (ih h).trans (List.suffix_cons c keys)
          · cases h
    · cases h
      exact List.suffix_rfl

theorem InputReply.suffix (h : InputReply q keys rest m) : rest <:+ keys := by
  obtain ⟨value, hvalue, -⟩ := h.returned
  exact termLoop_suffix hvalue

theorem InputReply.has {e : Editor} {echo rest' : Text} {n : Nat} (h : InputReply q keys rest m)
    (hline : e.line.length < 512) (hn : n ≤ 512)
    (hended : Library.Ended (word q 4) e echo n rest' (Apps.serveInput q keys)) : rest' = rest ∧ Has m e.line n := by
  obtain ⟨value, hvalue, hword⟩ := h.returned
  obtain ⟨value', hvalue', hn'⟩ := hended.returned
  rw [hvalue] at hvalue'
  cases hvalue'
  refine ⟨rfl, ?_, fun j hj => ?_, ?_⟩
  · rw [termReadValue, hword]
    exact (CInt.toInt_eq_iff (by omega)).mp hn'
  · rw [termReadBuf, h.buf j (by omega)]
    exact hended.chars j hj
  · rw [termReadBuf, h.buf _ hline]
    exact hended.nul

theorem InputReply.lineRead (h : InputReply q keys rest m) (hlen : 1 ≤ (word q 4).toNat) (hle : (word q 4).toNat ≤ 512) :
    LineRead (word q 4).toNat keys rest m := by
  have hfollows := Library.termRead_follows (fun j => byteAt q (4 + j).toNat) keys hlen (by omega)
  have hcap (e : Editor) (he : (Editor.edit ((word q 4).toNat - 1) keys ⟨[], []⟩).Ends e) :
      e.line.length ≤ (word q 4).toNat - 1 := Editor.edit_length_le (Nat.zero_le _) he
  cases hedit : Editor.edit ((word q 4).toNat - 1) keys ⟨[], []⟩ with
  | editing e =>
    rw [hedit] at hfollows
    obtain ⟨value, hvalue, -⟩ := h.returned
    have hreading : (Apps.serveInput q keys).1 = .reading := hfollows.1
    rw [hvalue] at hreading
    cases hreading
  | entered e rest' =>
    have hline := hcap e ⟨rest', Or.inl hedit⟩
    rw [hedit] at hfollows
    have hcast : ((if e.line = [] then 0 else e.line.length + 1 : Nat) : Int) =
        if e.line = [] then 0 else (e.line.length : Int) + 1 := by
      split <;> rfl
    have hended : Library.Ended (word q 4) e Library.newline ((if e.line = [] then 0 else e.line.length + 1 : Nat) : Int)
        rest' (Apps.serveInput q keys) := by
      rw [hcast]
      exact hfollows
    obtain ⟨rfl, hhas⟩ := h.has (by omega) (by split <;> omega) hended
    exact .entered e hedit hhas
  | full e rest' =>
    have hline := hcap e ⟨rest', Or.inr hedit⟩
    rw [hedit] at hfollows
    obtain ⟨rfl, hhas⟩ := h.has (by omega) hle hfollows
    exact .full e hedit hhas

theorem terminalServer_suffix {keys rest : Text} {q : Content} {reply : Option Content}
    (h : terminalServer keys q rest reply) : rest <:+ keys := by
  rcases h with ⟨-, m, -, hreply⟩ | ⟨-, rfl, -⟩
  · exact hreply.suffix
  · exact List.suffix_rfl

section Sample

/-- A request for a line of at most 16 characters. -/
def inputRequest : Content := fun i => if i.val = 4 then 16 else 0

/-- The reply, after h, i and Enter. -/
def inputReply : Content := fun i =>
  if i.val = 0 then 3 else if i.val = 4 then 104 else if i.val = 5 then 105 else 0

theorem inputReply_answers : terminalServer [104, 105, Library.enter, 7] inputRequest [7] (some inputReply) :=
  Or.inl ⟨by decide +kernel, _, rfl, ⟨3, by decide +kernel, by decide +kernel⟩, by decide +kernel⟩

theorem terminal_replay : ∃ k, replay Unwrapped still ([.procAlloc, .procSetReady 2] ++
    sampleActions gpidTerminal inputRequest inputReply) = some k ∧
      k.trace = sampleTrace gpidTerminal inputRequest inputReply := replay_traced (by decide +kernel)

end Sample

end OsSuite.Grass
