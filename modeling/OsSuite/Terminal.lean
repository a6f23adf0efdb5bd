import OsSuite.Programs
import OsSuite.TermRead

/-! The terminal server on a request for input. The bound on the length that a request gives
travels from its check to the loop of `term_read` and back to the client's copy. -/

namespace OsSuite.Apps

open Grass
open Library

/-- The case `TERM_INPUT`, on the buffer of the reply, as far as the keys typed go. The reply
stands where the request was. -/
def serveInput (req : Content) (keys : List UInt8) : Ending × Tty :=
  termRead (fun j => byteAt req (4 + j).toNat) (word req 4) keys

/-- The bytes that the client copies into its buffer, by the length in the reply. -/
def copied (value : Int32) : List Nat := List.range value.toUInt32.toNat

/-- The server writes inside of the length requested, and so does its client. -/
structure StaysInside (req : Content) (keys : List UInt8) : Prop where
  written : ∀ j ∈ (serveInput req keys).2.written, 0 ≤ j ∧ j < (word req 4).toNat
  replied : ∀ value rest, (serveInput req keys).1 = .returned value rest →
    value.toUInt32 ≤ word req 4 ∧ ∀ k ∈ copied value, k < (word req 4).toNat

theorem handleTerminal_reply {req : Content} (h : handleTerminal req = .reply) :
    (word req 4).toNat ≤ 512 := by
  rw [handleTerminal] at h
  split at h
  · cases h
  · rename_i hlen
    exact UInt32.le_iff_toNat_le.mp (UInt32.not_lt.mp hlen)

section Written

variable {len : UInt32} {j : Int}

theorem mem_written_termLoop (keys : List UInt8) {i : Int32} {s : Tty} (h : j ∈ s.written) :
    j ∈ (termLoop len keys i s).2.written := by
  induction keys generalizing i s with
  | nil =>
    rw [termLoop]
    split
    · exact h
    · exact List.mem_cons_of_mem _ h
  | cons c keys ih =>
    have hput : j ∈ (s.put i.toInt c).written := List.mem_cons_of_mem _ h
    rw [termLoop]
    split
    · dsimp only
      split
      · have hnul : j ∈ ((s.put i.toInt c).put i.toInt 0).written := List.mem_cons_of_mem _ hput
        split
        · split <;> exact hnul
        · exact hnul
      · split
        · have herase : j ∈ (if i ≠ 0 then (s.put i.toInt c).termWrite erase else s.put i.toInt c).written := by
            split <;> exact hput
          split
          · exact ih herase
          · exact herase
        · have hecho : j ∈ (if c ≠ 0 then (s.put i.toInt c).termWrite [c] else s.put i.toInt c).written := by
            split <;> exact hput
          split
          · exact ih hecho
          · exact hecho
    · exact List.mem_cons_of_mem _ h

/-- The first key goes into the buffer, also where the buffer has no length. -/
theorem zero_written (buf : Int → UInt8) (c : UInt8) (keys : List UInt8) (hlen : len = 0) :
    0 ∈ (termRead buf len (c :: keys)).2.written := by
  subst hlen
  have hput : 0 ∈ ((⟨buf, [], []⟩ : Tty).put 0 c).written := List.mem_cons_self
  have hloop : (0 : Int32).toUInt32 < (0 : UInt32) - 1 := by decide
  rw [termRead, termLoop, if_pos hloop]
  dsimp only
  split
  · exact List.mem_cons_of_mem _ hput
  · split
    · exact mem_written_termLoop keys hput
    · have hecho : 0 ∈ (if c ≠ 0 then ((⟨buf, [], []⟩ : Tty).put 0 c).termWrite [c]
          else (⟨buf, [], []⟩ : Tty).put 0 c).written := by
        split <;> exact hput
      exact mem_written_termLoop keys hecho

end Written

theorem copied_lt {value : Int32} {n : Nat} (h : value.toUInt32.toNat ≤ n) : ∀ k ∈ copied value, k < n :=
  fun _ hk => (List.mem_range.mp hk).trans_le h

theorem serveInput_inside {req : Content} (keys : List UInt8) (hreq : handleTerminal req = .reply)
    (hlen : 1 ≤ (word req 4).toNat) : StaysInside req keys := by
  have hle := handleTerminal_reply hreq
  have hfollows := termRead_follows (fun j => byteAt req (4 + j).toNat) keys hlen (by omega)
  refine ⟨hfollows.inside, fun value rest hvalue => ?_⟩
  have hbound := termRead_value_le _ hlen (by omega) hvalue
  exact ⟨UInt32.le_iff_toNat_le.mpr hbound, copied_lt hbound⟩

/-- The server keeps its writes and its client's in bounds, for every request that it accepts
and whatever is typed, unless the length is zero and there is a key. -/
theorem terminal_inside_iff (req : Content) (keys : List UInt8) (hreq : handleTerminal req = .reply) :
    StaysInside req keys ↔ 1 ≤ (word req 4).toNat ∨ keys = [] := by
  constructor
  · intro h
    by_contra hno
    obtain ⟨hlen, hkeys⟩ := not_or.mp hno
    obtain ⟨c, keys, rfl⟩ := List.exists_cons_of_ne_nil hkeys
    have hzero : word req 4 = 0 := UInt32.toNat_inj.mp (by simp; omega)
    have hinside := h.written 0 (zero_written _ c keys hzero)
    exact absurd hinside.2 (by omega)
  · rintro (hlen | rfl)
    · exact serveInput_inside keys hreq hlen
    · by_cases hlen : 1 ≤ (word req 4).toNat
      · exact serveInput_inside [] hreq hlen
      · have hzero : word req 4 = 0 := UInt32.toNat_inj.mp (by simp; omega)
        have hloop : (0 : Int32).toUInt32 < (0 : UInt32) - 1 := by decide
        have hreading : serveInput req [] = (.reading, ⟨fun j => byteAt req (4 + j).toNat, [], []⟩) := by
          rw [serveInput, termRead, termLoop, hzero, if_pos hloop]
        refine ⟨fun j hj => ?_, fun value rest hvalue => ?_⟩
        · rw [hreading] at hj
          exact absurd hj List.not_mem_nil
        · rw [hreading] at hvalue
          cases hvalue

theorem terminal_inside_longest : handleTerminal (fun i => if i = 5 then 2 else 0) = .reply ∧
    StaysInside (fun i => if i = 5 then 2 else 0) [97] := by
  have hreq : handleTerminal (fun i => if i = 5 then 2 else 0) = .reply := by decide +kernel
  exact ⟨hreq, (terminal_inside_iff _ [97] hreq).mpr (.inl (by decide +kernel))⟩

/-- A request of length zero, and one key. -/
theorem terminal_length_zero : handleTerminal (fun _ => 0) = .reply ∧ ¬StaysInside (fun _ => 0) [97] := by
  refine ⟨by decide +kernel, fun h => ?_⟩
  have hinside := h.written 0 (zero_written _ 97 [] (by decide +kernel))
  exact absurd hinside.2 (by decide +kernel)

end OsSuite.Apps
