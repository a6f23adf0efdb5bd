import OsSuite.Tokens
import OsSuite.CString
import OsSuite.Outcome
import OsSuite.Programs

/-! `parse_request` of the shell against the words of the line. A round of the loop keeps
`argv` equal to the words so far, the last of which is still open. -/

namespace OsSuite.Apps

open Grass (cmdNargs cmdArgLen)
open Tokens
open CString (Text)

abbrev space : UInt8 := 32

abbrev Argv := Fin cmdNargs → Fin cmdArgLen → UInt8

/-- `struct proc_request`. -/
structure ProcRequest where
  type : UInt32
  argc : Int32
  argv : Argv

inductive Stop where
  | outOfBounds
  | returned (argv : Argv)

def Argv.write (argv : Argv) (i j : Nat) (c : UInt8) : Except Stop Argv :=
  if h : i < cmdNargs ∧ j < cmdArgLen then
    .ok (Function.update argv ⟨i, h.1⟩ (Function.update (argv ⟨i, h.1⟩) ⟨j, h.2⟩ c))
  else .error .outOfBounds

structure Scan where
  argv : Argv
  nargs : Nat
  idx : Nat

def Scan.round (s : Scan) (c : UInt8) : Except Stop Scan :=
  if c ≠ space then do
    let argv ← s.argv.write s.nargs s.idx c
    if s.idx + 1 ≥ cmdArgLen then .error (.returned argv) else .ok ⟨argv, s.nargs, s.idx + 1⟩
  else if s.idx ≠ 0 then do
    let argv ← s.argv.write s.nargs s.idx 0
    if s.nargs + 1 ≥ cmdNargs then .error (.returned argv) else .ok ⟨argv, s.nargs + 1, 0⟩
  else .ok s

/-- `parse_request`, the value it returns with the request it leaves, or none when it writes
outside of `argv`. -/
def parseRequest (line : Text) (req : ProcRequest) : Option (Int × ProcRequest) :=
  match line.foldlM Scan.round ⟨fun _ _ => 0, 0, 0⟩ with
  | .ok s =>
    some (0, { req with
      argc := Int32.ofNat (if s.idx ≠ 0 then s.nargs + 1 else s.nargs), argv := s.argv })
  | .error (.returned argv) => some (-1, { req with argv := argv })
  | .error .outOfBounds => none

def words (line : Text) : List Text := tokens space line

/-- The words fit in `argv` with their NULs. -/
def Fits (T : List Text) : Prop := T.length ≤ cmdNargs ∧ ∀ t ∈ T, t.length < cmdArgLen

instance (T : List Text) : Decidable (Fits T) := inferInstanceAs (Decidable (_ ∧ _))

/-- Each word at the start of its row, zero elsewhere. -/
def argvOf (T : List Text) : Argv := fun i j => (T.getD i []).getD j 0

/-- `parse_request` accepts the lines whose words fit, with these words as arguments. -/
def ParsesExactly (line : Text) : Prop := ∀ req, ∃ code req', parseRequest line req = some (code, req') ∧
  req'.type = req.type ∧ (code = 0 ↔ Fits (words line)) ∧
  (code = 0 → req'.argc.toInt = (words line).length ∧ req'.argv = argvOf (words line))

/-- The state of the loop after the words `D` and the characters `w` of one more. -/
def scanned (D : List Text) (w : Text) : Scan := ⟨argvOf (D ++ [w]), D.length, w.length⟩

theorem getD_snoc {α : Type} (xs : List α) (a d : α) (i : Nat) :
    (xs ++ [a]).getD i d = if i = xs.length then a else xs.getD i d := by
  rcases Nat.lt_trichotomy i xs.length with hlt | rfl | hgt
  · rw [List.getD_append _ _ _ _ hlt, if_neg hlt.ne]
  · rw [List.getD_append_right _ _ _ _ le_rfl, Nat.sub_self, if_pos rfl]
    rfl
  · rw [if_neg hgt.ne', List.getD_eq_default _ _ hgt.le, List.getD_eq_default]
    rw [List.length_append]
    exact hgt

theorem argvOf_open (D : List Text) : argvOf (D ++ [[]]) = argvOf D := by
  funext i j
  rw [argvOf, argvOf, getD_snoc]
  split
  · rename_i hi
    rw [hi, List.getD_eq_default D _ le_rfl]
  · rfl

/-- The NUL behind a word that is complete is there already. -/
theorem argvOf_nul (D : List Text) (w : Text) : argvOf (D ++ [w ++ [0]]) = argvOf (D ++ [w]) := by
  funext i j
  rw [argvOf, argvOf, getD_snoc, getD_snoc]
  split
  · rw [getD_snoc]
    split
    · rename_i hj
      rw [hj, List.getD_eq_default w _ le_rfl]
    · rfl
  · rfl

theorem argvOf_write {D : List Text} {w : Text} (c : UInt8) (hD : D.length < cmdNargs)
    (hw : w.length < cmdArgLen) :
    (argvOf (D ++ [w])).write D.length w.length c = .ok (argvOf (D ++ [w ++ [c]])) := by
  rw [Argv.write, dif_pos ⟨hD, hw⟩]
  congr 1
  funext i j
  by_cases hi : i.val = D.length
  · obtain rfl : i = ⟨D.length, hD⟩ := Fin.ext hi
    rw [Function.update_self, argvOf, getD_snoc, if_pos rfl, getD_snoc]
    by_cases hj : j.val = w.length
    · obtain rfl : j = ⟨w.length, hw⟩ := Fin.ext hj
      rw [Function.update_self, if_pos rfl]
    · rw [Function.update_of_ne fun he => hj (congrArg Fin.val he), if_neg hj, argvOf, getD_snoc,
        if_pos rfl]
  · rw [Function.update_of_ne fun he => hi (congrArg Fin.val he), argvOf, argvOf, getD_snoc, getD_snoc,
      if_neg hi, if_neg hi]

theorem round_char {D : List Text} {w : Text} {c : UInt8} (hD : D.length < cmdNargs)
    (hw : w.length < cmdArgLen) (hc : c ≠ space) : (scanned D w).round c =
      if w.length + 1 ≥ cmdArgLen then .error (.returned (argvOf (D ++ [w ++ [c]])))
      else .ok (scanned D (w ++ [c])) := by
  rw [Scan.round, if_pos hc]
  change ((argvOf (D ++ [w])).write D.length w.length c).bind _ = _
  have hnext : scanned D (w ++ [c]) = ⟨argvOf (D ++ [w ++ [c]]), D.length, w.length + 1⟩ := by
    rw [scanned, List.length_append]
    rfl
  rw [argvOf_write c hD hw, hnext]
  rfl

theorem round_space {D : List Text} {w : Text} (hD : D.length < cmdNargs) (hw : w.length < cmdArgLen)
    (hne : w ≠ []) : (scanned D w).round space =
      if D.length + 1 ≥ cmdNargs then .error (.returned (argvOf (D ++ [w])))
      else .ok (scanned (D ++ [w]) []) := by
  have hidx : (scanned D w).idx ≠ 0 := fun he => hne (List.length_eq_zero_iff.mp he)
  rw [Scan.round, if_neg (not_not.mpr rfl), if_pos hidx]
  change ((argvOf (D ++ [w])).write D.length w.length 0).bind _ = _
  have hnext : scanned (D ++ [w]) [] = ⟨argvOf (D ++ [w]), D.length + 1, 0⟩ := by
    rw [scanned, argvOf_open, List.length_append]
    rfl
  rw [argvOf_write 0 hD hw, argvOf_nul, hnext]
  rfl

theorem round_spaces (D : List Text) : (scanned D []).round space = .ok (scanned D []) := rfl

/-- The words that the loop has seen when the line ends. -/
def Scanned (line : Text) (D : List Text) (s : Scan) : Prop :=
  ∃ E v, s = scanned E v ∧ D ++ words line = E ++ (if v = [] then [] else [v]) ∧
    E.length < cmdNargs ∧ (∀ t ∈ E, t.length < cmdArgLen) ∧ v.length < cmdArgLen ∧
    (v ≠ [] → ∃ c, c ≠ space ∧ line.getLast? = some c)

def Rejected (line : Text) (D : List Text) : Stop → Prop
  | .outOfBounds => False
  | .returned _ => Fits (D ++ words line) →
      (D ++ words line).length = cmdNargs ∧ line.getLast? = some space

theorem getLast?_append_space (w line : Text) :
    (w ++ space :: line).getLast? = some (line.getLast?.getD space) := by
  rw [List.getLast?_append, List.getLast?_cons, Option.some_or]

section AfterSpace

variable {line line' : Text} {D D' : List Text}

theorem Scanned.after_space {s : Scan} (h : Scanned line D' s)
    (hwords : D ++ words line' = D' ++ words line)
    (hlast : line'.getLast? = some (line.getLast?.getD space)) : Scanned line' D s := by
  obtain ⟨E, v, hs, hE, hlen, hshort, hv, hopen⟩ := h
  refine ⟨E, v, hs, hwords.trans hE, hlen, hshort, hv, fun hne => ?_⟩
  obtain ⟨c, hc, hl⟩ := hopen hne
  rw [hl] at hlast
  exact ⟨c, hc, hlast⟩

theorem Rejected.after_space {e : Stop} (h : Rejected line D' e)
    (hwords : D ++ words line' = D' ++ words line)
    (hlast : line'.getLast? = some (line.getLast?.getD space)) : Rejected line' D e := by
  cases e with
  | outOfBounds => exact h
  | returned argv =>
    intro hfits
    rw [hwords] at hfits ⊢
    obtain ⟨hlen, hl⟩ := h hfits
    rw [hl] at hlast
    exact ⟨hlen, hlast⟩

end AfterSpace

/-- The word that is open has grown too long: it is no shorter at its end. -/
theorem long_word {w : Text} {D : List Text} (hw : space ∉ w) (hlen : cmdArgLen ≤ w.length)
    (line : Text) : ¬Fits (D ++ words (w ++ line)) := by
  rintro ⟨-, hshort⟩
  induction line generalizing w with
  | nil =>
    have hne : w ≠ [] := by
      rintro rfl
      exact absurd hlen (by decide)
    rw [List.append_nil, words, tokens_run hw hne] at hshort
    exact absurd (hshort w (by simp)) (Nat.not_lt.mpr hlen)
  | cons c line ih =>
    have hne : w ≠ [] := by
      rintro rfl
      exact absurd hlen (by decide)
    by_cases hc : c = space
    · subst hc
      rw [words, tokens_run_sep hw hne] at hshort
      exact absurd (hshort w (by simp)) (Nat.not_lt.mpr hlen)
    · apply ih (w := w ++ [c])
      · simpa [hw] using Ne.symm hc
      · rw [List.length_append]
        exact Nat.le_add_right_of_le hlen
      · rwa [List.append_assoc]

theorem loop_scans (line : Text) {D : List Text} {w : Text} (hw : space ∉ w)
    (hD : D.length < cmdNargs) (hshort : ∀ t ∈ D, t.length < cmdArgLen) (hlen : w.length < cmdArgLen) :
    Sat (line.foldlM Scan.round (scanned D w)) (Scanned (w ++ line) D) (Rejected (w ++ line) D) := by
  induction line generalizing D w with
  | nil =>
    refine ⟨D, w, rfl, ?_, hD, hshort, hlen, fun hne => ?_⟩
    · rw [List.append_nil]
      split
      · rename_i hne
        rw [hne, words, tokens_nil]
      · rename_i hne
        rw [words, tokens_run hw hne]
    · refine ⟨w.getLast hne, fun he => hw (he ▸ List.getLast_mem hne), ?_⟩
      rw [List.append_nil, List.getLast?_eq_some_getLast hne]
  | cons c line ih =>
    rw [List.foldlM_cons, sat_bind]
    by_cases hc : c = space
    · subst hc
      have hlast := getLast?_append_space w line
      by_cases hne : w = []
      · subst hne
        have hwords : D ++ words ([] ++ space :: line) = D ++ words ([] ++ line) := by
          rw [List.nil_append, words, tokens_sep]
          rfl
        rw [round_spaces, sat_ok]
        exact (ih List.not_mem_nil hD hshort hlen).imp (fun s hs => hs.after_space hwords hlast)
          fun e he => he.after_space hwords hlast
      · have hwords : D ++ words (w ++ space :: line) = (D ++ [w]) ++ words ([] ++ line) := by
          rw [words, tokens_run_sep hw hne, List.append_assoc]
          rfl
        rw [round_space hD hlen hne]
        split
        · rename_i hfull
          rw [sat_error]
          intro hfits
          rw [hwords] at hfits ⊢
          obtain ⟨hcount, -⟩ := hfits
          rw [List.length_append, List.length_append, List.length_singleton] at hcount ⊢
          have hnone : words ([] ++ line) = [] := List.length_eq_zero_iff.mp (by omega)
          refine ⟨by rw [hnone]; simp; omega, ?_⟩
          rw [hlast]
          congr 1
          cases hl : line.getLast? with
          | none => rfl
          | some d => exact tokens_eq_nil.mp hnone d (List.mem_of_getLast? hl)
        · rename_i hfull
          have hD' : (D ++ [w]).length < cmdNargs := by
            rw [List.length_append]
            exact Nat.not_le.mp hfull
          have hshort' : ∀ t ∈ D ++ [w], t.length < cmdArgLen := by
            intro t ht
            rcases List.mem_append.mp ht with ht | ht
            · exact hshort t ht
            · rwa [List.mem_singleton.mp ht]
          rw [sat_ok]
          exact (ih List.not_mem_nil hD' hshort' (by decide)).imp
            (fun s hs => hs.after_space hwords hlast) fun e he => he.after_space hwords hlast
    · have hw' : space ∉ w ++ [c] := by simpa [hw] using Ne.symm hc
      have happ : w ++ c :: line = (w ++ [c]) ++ line := List.append_cons w c line
      rw [round_char hD hlen hc, happ]
      split
      · rename_i hge
        rw [sat_error]
        intro hfits
        exact absurd hfits (long_word hw' (by rw [List.length_append]; exact hge) line)
      · rename_i hlt
        exact ih hw' hD hshort (by rw [List.length_append]; exact Nat.not_le.mp hlt)

theorem scanned_nil : scanned [] [] = ⟨fun _ _ => 0, 0, 0⟩ := by
  rw [scanned, argvOf_open]
  rfl

theorem toInt_argc {T : List Text} (hfits : Fits T) : (Int32.ofNat T.length).toInt = T.length :=
  Int32.toInt_ofNat_of_lt (hfits.1.trans_lt (by decide))

/-- What `parse_request` leaves of a line, and what it misses: the command with as many words as
`argv` has rows, where a space follows the last. -/
inductive Parses (line : Text) (req : ProcRequest) : Int → ProcRequest → Prop where
  | accepted (hfits : Fits (words line))
      (hend : (words line).length = cmdNargs → line.getLast? ≠ some space) :
      Parses line req 0
        { req with argc := Int32.ofNat (words line).length, argv := argvOf (words line) }
  | rejected (argv : Argv)
      (h : Fits (words line) → (words line).length = cmdNargs ∧ line.getLast? = some space) :
      Parses line req (-1) { req with argv := argv }

theorem parseRequest_parses (line : Text) (req : ProcRequest) :
    ∃ code req', parseRequest line req = some (code, req') ∧ Parses line req code req' := by
  have h := loop_scans line (D := []) (w := []) List.not_mem_nil (by decide)
    (fun t ht => absurd ht List.not_mem_nil) (by decide)
  rw [scanned_nil] at h
  rw [parseRequest]
  cases hr : line.foldlM Scan.round ⟨fun _ _ => 0, 0, 0⟩ with
  | ok s =>
    obtain ⟨E, v, rfl, hE, hlen, hshort, hv, hopen⟩ := h.of_ok hr
    rw [List.nil_append, List.nil_append] at hE
    refine ⟨_, _, rfl, ?_⟩
    by_cases hne : v = []
    · subst hne
      rw [if_pos rfl, List.append_nil] at hE
      subst hE
      change Parses line req 0 ⟨req.type, Int32.ofNat (words line).length, argvOf (words line ++ [[]])⟩
      rw [argvOf_open]
      exact .accepted ⟨hlen.le, hshort⟩ fun he => absurd he hlen.ne
    · have hidx : v.length ≠ 0 := fun he => hne (List.length_eq_zero_iff.mp he)
      have hcount : (words line).length = E.length + 1 := by
        rw [hE, if_neg hne, List.length_append]
        rfl
      have hfits : Fits (words line) := by
        refine ⟨hcount.trans_le hlen, fun t ht => ?_⟩
        rw [hE, if_neg hne] at ht
        rcases List.mem_append.mp ht with ht | ht
        · exact hshort t ht
        · rwa [List.mem_singleton.mp ht]
      obtain ⟨c, hc, hlast⟩ := hopen hne
      change Parses line req 0 ⟨req.type,
        Int32.ofNat (if v.length ≠ 0 then E.length + 1 else E.length), argvOf (E ++ [v])⟩
      rw [if_neg hne] at hE
      rw [if_pos hidx, ← hcount, ← hE]
      refine .accepted hfits fun _ he => hc ?_
      exact Option.some.inj (hlast.symm.trans he)
  | error e =>
    have he := h.of_error hr
    cases e with
    | outOfBounds => exact he.elim
    | returned argv => exact ⟨_, _, rfl, .rejected argv he⟩

/-- For every line `parse_request` does what it should, unless the line has as many words as
`argv` has rows and ends in a space. -/
theorem parse_request_exact_iff (line : Text) : ParsesExactly line ↔
    ¬(Fits (words line) ∧ (words line).length = cmdNargs ∧ line.getLast? = some space) := by
  constructor
  · rintro h ⟨hfits, hlen, hlast⟩
    obtain ⟨code, req', hreq, hparses⟩ := parseRequest_parses line ⟨0, 0, fun _ _ => 0⟩
    obtain ⟨code', req'', hreq', -, hcode, -⟩ := h ⟨0, 0, fun _ _ => 0⟩
    rw [hreq] at hreq'
    cases hreq'
    cases hparses with
    | accepted _ hend => exact hend hlen hlast
    | rejected => exact absurd (hcode.mpr hfits) (by decide)
  · intro h req
    obtain ⟨code, req', hreq, hparses⟩ := parseRequest_parses line req
    refine ⟨code, req', hreq, ?_⟩
    cases hparses with
    | accepted hfits =>
      exact ⟨rfl, iff_of_true rfl hfits, fun _ => ⟨toInt_argc hfits, rfl⟩⟩
    | rejected argv hends =>
      have hno : ¬Fits (words line) := fun hfits => h ⟨hfits, hends hfits⟩
      refine ⟨rfl, iff_of_false (by decide) hno, fun hcode => ?_⟩
      exact absurd hcode (by decide)

/-- Sixteen words of one letter with a space after each. -/
def spacedLine : Text := (List.replicate 16 [97, space]).flatten

theorem spaced_line_rejected : ¬ParsesExactly spacedLine := by
  intro h
  obtain ⟨code, req', hreq, -, hcode, -⟩ := h ⟨0, 0, fun _ _ => 0⟩
  have hrejected : (parseRequest spacedLine ⟨0, 0, fun _ _ => 0⟩).map Prod.fst = some (-1) := by
    decide +kernel
  rw [hreq] at hrejected
  have hminus : code = -1 := Option.some.inj hrejected
  have hfits : Fits (words spacedLine) := by decide +kernel
  exact absurd (hminus.symm.trans (hcode.mpr hfits)) (by decide)

end OsSuite.Apps
