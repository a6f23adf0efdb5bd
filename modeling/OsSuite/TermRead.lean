import OsSuite.CInt
import OsSuite.CString

/-! The line reader of the kernel against a reference editor. The loop index is the length of
the line, whatever the keys are, and the line stands at the start of the buffer. -/

namespace OsSuite.Library

open CString (Text)

abbrev enter : UInt8 := 0x0d
abbrev backspace : UInt8 := 0x7f

/-- `"\n\r"`. -/
def newline : Text := [10, 13]

/-- `"\b \b"`. -/
def erase : Text := [8, 32, 8]

/-- What a run of `term_read` has done: the bytes of the buffer and around it, the indexes
written, and the bytes sent to the screen. -/
structure Tty where
  buf : Int → UInt8
  written : List Int
  screen : Text

def Tty.put (s : Tty) (i : Int) (c : UInt8) : Tty :=
  { s with buf := Function.update s.buf i c, written := i :: s.written }

def Tty.termWrite (s : Tty) (str : Text) : Tty := { s with screen := s.screen ++ str }

/-- How far `term_read` comes with the keys typed. -/
inductive Ending where
  /-- It waits for another key. -/
  | reading
  /-- The loop index overflows. -/
  | overflow
  | returned (value : Int32) (rest : Text)
  deriving DecidableEq

/-- The loop of `term_read`, from index `i` on. -/
def termLoop (len : UInt32) : Text → Int32 → Tty → Ending × Tty
  | keys, i, s =>
    if i.toUInt32 < len - 1 then
      match keys with
      | [] => (.reading, s)
      | c :: keys =>
        let s := s.put i.toInt c
        if c = enter then
          let s := (s.put i.toInt 0).termWrite newline
          if i ≠ 0 then
            match CInt.add i 1 with
            | some value => (.returned value keys, s)
            | none => (.overflow, s)
          else (.returned 0 keys, s)
        else if c = backspace then
          let s := if i ≠ 0 then s.termWrite erase else s
          match (if i ≠ 0 then CInt.sub i 2 else CInt.sub i 1).bind (CInt.add · 1) with
          | some i => termLoop len keys i s
          | none => (.overflow, s)
        else
          let s := if c ≠ 0 then s.termWrite [c] else s
          match CInt.add i 1 with
          | some i => termLoop len keys i s
          | none => (.overflow, s)
    else (.returned len.toInt32 keys, s.put (len - 1).toNat 0)

/-- `term_read` on a buffer of any content. -/
def termRead (buf : Int → UInt8) (len : UInt32) (keys : Text) : Ending × Tty :=
  termLoop len keys 0 ⟨buf, [], []⟩

/-- The reference editor: the line and what the screen shows of it. -/
structure Editor where
  line : Text
  screen : Text

/-- A character is shown unless it is NUL. -/
def shown (c : UInt8) : Text := if c = 0 then [] else [c]

def Editor.key (e : Editor) (c : UInt8) : Editor :=
  if c = backspace then
    if e.line = [] then e else ⟨e.line.dropLast, e.screen ++ erase⟩
  else ⟨e.line ++ [c], e.screen ++ shown c⟩

inductive Edited where
  | editing (e : Editor)
  | entered (e : Editor) (rest : Text)
  | full (e : Editor) (rest : Text)

/-- Keys typed until the line ends, by Enter or because it has `cap` characters. -/
def Editor.edit (cap : Nat) : Text → Editor → Edited
  | keys, e =>
    if e.line.length = cap then .full e keys
    else match keys with
      | [] => .editing e
      | c :: keys => if c = enter then .entered e keys else Editor.edit cap keys (e.key c)

/-- The line stands in the buffer, the screen shows it, and every write was inside. -/
structure Shows (len : UInt32) (e : Editor) (s : Tty) : Prop where
  chars : ∀ j (h : j < e.line.length), s.buf j = e.line[j]
  screen : s.screen = e.screen
  inside : ∀ j ∈ s.written, 0 ≤ j ∧ j < len.toNat

/-- `term_read` returns the value, with the line and a NUL behind it in the buffer. -/
structure Ended (len : UInt32) (e : Editor) (echo : Text) (value : Int) (rest : Text)
    (r : Ending × Tty) : Prop where
  returned : ∃ v, r.1 = .returned v rest ∧ v.toInt = value
  chars : ∀ j (h : j < e.line.length), r.2.buf j = e.line[j]
  nul : r.2.buf e.line.length = 0
  screen : r.2.screen = e.screen ++ echo
  inside : ∀ j ∈ r.2.written, 0 ≤ j ∧ j < len.toNat

/-- What `term_read` has done when the reference editor is at `edited`. -/
def Follows (len : UInt32) (r : Ending × Tty) : Edited → Prop
  | .editing e => r.1 = .reading ∧ Shows len e r.2
  | .entered e rest => Ended len e newline (if e.line = [] then 0 else e.line.length + 1) rest r
  | .full e rest => Ended len e [] len.toNat rest r

section Loop

variable {len : UInt32} {i : Int32} {e : Editor} {s : Tty} {c : UInt8}

theorem Shows.put (h : Shows len e s) {k : Nat} (hk : e.line.length ≤ k) (hlt : k < len.toNat) :
    Shows len e (s.put k c) where
  chars j hj := by
    change Function.update s.buf (k : Int) c j = _
    rw [Function.update_of_ne (by omega)]
    exact h.chars j hj
  screen := h.screen
  inside j hj := by
    rcases List.mem_cons.mp hj with rfl | hj
    · exact ⟨Int.natCast_nonneg k, Int.ofNat_lt.mpr hlt⟩
    · exact h.inside j hj

theorem Shows.ended (h : Shows len e s) {v : Int32} {k : Nat} (hk : k = e.line.length)
    (hlt : k < len.toNat) (echo rest : Text) :
    Ended len e echo v.toInt rest (.returned v rest, (s.put k 0).termWrite echo) where
  returned := ⟨v, rfl, rfl⟩
  chars := (h.put hk.ge hlt).chars
  nul := by
    subst hk
    exact Function.update_self _ _ _
  screen := congrArg (· ++ echo) h.screen
  inside := (h.put (c := 0) hk.ge hlt).inside

theorem Shows.append (h : Shows len e s) (hlt : e.line.length < len.toNat) (hc : c ≠ backspace) :
    Shows len (e.key c) ((s.put e.line.length c).termWrite (shown c)) := by
  have hput := h.put (c := c) le_rfl hlt
  rw [Editor.key, if_neg hc]
  refine ⟨fun j hj => ?_, congrArg (· ++ shown c) h.screen, hput.inside⟩
  change Function.update s.buf (e.line.length : Int) c j = (e.line ++ [c])[j]
  rw [List.getElem_append]
  split
  · rename_i hj
    rw [Function.update_of_ne (by omega)]
    exact h.chars j hj
  · rename_i hge
    have hj' : j = e.line.length := by simp at hj; omega
    subst hj'
    rw [Function.update_self]
    simp

theorem Shows.backspace (h : Shows len e s) (hlt : e.line.length < len.toNat) :
    Shows len (e.key backspace) (if e.line = [] then s.put e.line.length backspace
      else (s.put e.line.length backspace).termWrite erase) := by
  have hput := h.put (c := Library.backspace) le_rfl hlt
  rw [Editor.key, if_pos rfl]
  split
  · exact hput
  · refine ⟨fun j hj => ?_, congrArg (· ++ erase) h.screen, hput.inside⟩
    rw [List.getElem_dropLast]
    exact hput.chars j (by rw [List.length_dropLast] at hj; omega)

theorem len_sub_one (hlen : 1 ≤ len.toNat) : (len - 1).toNat = len.toNat - 1 :=
  UInt32.toNat_sub_of_le len 1 (UInt32.le_iff_toNat_le.mpr hlen)

theorem in_loop_iff (hlen : 1 ≤ len.toNat) (hobj : len.toNat < 2 ^ 31) {n : Nat} (hi : i.toInt = n)
    (hn : n ≤ len.toNat - 1) : i.toUInt32 < len - 1 ↔ n ≠ len.toNat - 1 := by
  rw [UInt32.lt_iff_toNat_lt, len_sub_one hlen, (CInt.toInt_eq_iff (by omega)).mp hi]
  omega

theorem len_toInt (hobj : len.toNat < 2 ^ 31) : len.toInt32.toInt = len.toNat :=
  (CInt.toInt_eq_iff hobj).mpr rfl

/-- The loop ends at the last byte of the buffer. -/
theorem full_follows (keys : Text) (hlen : 1 ≤ len.toNat) (hobj : len.toNat < 2 ^ 31)
    (h : Shows len e s) (hi : i.toInt = e.line.length) (hfull : e.line.length = len.toNat - 1) :
    Follows len (termLoop len keys i s) (e.edit (len.toNat - 1) keys) := by
  have hloop : ¬i.toUInt32 < len - 1 :=
    (in_loop_iff hlen hobj hi hfull.le).not.mpr (not_not.mpr hfull)
  have hended := h.ended (v := len.toInt32) (k := (len - 1).toNat)
    ((len_sub_one hlen).trans hfull.symm) (by rw [len_sub_one hlen]; omega) [] keys
  rw [len_toInt hobj] at hended
  have hput : (s.put (len - 1).toNat 0).termWrite [] = s.put (len - 1).toNat 0 := by
    rw [Tty.termWrite, List.append_nil]
  rw [hput] at hended
  cases keys with
  | nil =>
    rw [termLoop, Editor.edit, if_neg hloop, if_pos hfull]
    exact hended
  | cons c keys =>
    rw [termLoop, Editor.edit, if_neg hloop, if_pos hfull]
    exact hended

theorem Editor.key_length_le (e : Editor) (c : UInt8) : (e.key c).line.length ≤ e.line.length + 1 := by
  rw [Editor.key]
  split
  · split
    · exact Nat.le_succ _
    · rw [List.length_dropLast]
      omega
  · rw [List.length_append]
    rfl

theorem termLoop_follows (keys : Text) (hlen : 1 ≤ len.toNat) (hobj : len.toNat < 2 ^ 31)
    (h : Shows len e s) (hi : i.toInt = e.line.length) (hcap : e.line.length ≤ len.toNat - 1) :
    Follows len (termLoop len keys i s) (e.edit (len.toNat - 1) keys) := by
  induction keys generalizing e i s with
  | nil =>
    by_cases hfull : e.line.length = len.toNat - 1
    · exact full_follows [] hlen hobj h hi hfull
    · rw [termLoop, Editor.edit, if_pos ((in_loop_iff hlen hobj hi hcap).mpr hfull), if_neg hfull]
      exact ⟨rfl, h⟩
  | cons c keys ih =>
    by_cases hfull : e.line.length = len.toNat - 1
    · exact full_follows (c :: keys) hlen hobj h hi hfull
    have hlt : e.line.length < len.toNat := by omega
    have hzero : i = 0 ↔ e.line = [] := (CInt.eq_zero_iff hi).trans List.length_eq_zero_iff
    have hkey : (e.key c).line.length ≤ len.toNat - 1 := (e.key_length_le c).trans (by omega)
    have hone := CInt.one_toInt
    obtain ⟨next, hnext, hnextv⟩ := CInt.add_eq (x := i) (y := 1) (by omega) (by omega)
    rw [termLoop, Editor.edit, if_pos ((in_loop_iff hlen hobj hi hcap).mpr hfull), if_neg hfull]
    dsimp only
    rw [hi]
    by_cases henter : c = enter
    · rw [if_pos henter, if_pos henter]
      have hput := h.put (c := c) le_rfl hlt
      by_cases hempty : e.line = []
      · rw [if_neg (not_not.mpr (hzero.mpr hempty))]
        have hended := hput.ended (v := 0) rfl hlt newline keys
        rw [Follows, if_pos hempty]
        exact hended
      · rw [if_pos (hzero.not.mpr hempty), hnext]
        have hended := hput.ended (v := next) rfl hlt newline keys
        rw [Follows, if_neg hempty]
        rwa [hnextv, hi] at hended
    · rw [if_neg henter, if_neg henter]
      by_cases hback : c = backspace
      · subst hback
        rw [if_pos rfl]
        have hshows := h.backspace hlt
        by_cases hempty : e.line = []
        · have hkeep : e.key backspace = e := by rw [Editor.key, if_pos rfl, if_pos hempty]
          rw [hzero.mpr hempty, if_neg (not_not.mpr rfl), if_neg (not_not.mpr rfl)]
          rw [if_pos hempty, hkeep] at hshows
          rw [hkeep]
          exact ih hshows (by rw [hempty]; rfl) hcap
        · have hdrop : (e.key backspace).line.length = e.line.length - 1 := by
            rw [Editor.key, if_pos rfl, if_neg hempty, List.length_dropLast]
          have hpos : 0 < e.line.length := List.length_pos_iff.mpr hempty
          have htwo : (2 : Int32).toInt = 2 := rfl
          obtain ⟨two, hsub, hsubv⟩ := CInt.sub_eq (x := i) (y := 2) (by omega) (by omega)
          obtain ⟨back, hadd, haddv⟩ := CInt.add_eq (x := two) (y := 1) (by omega) (by omega)
          rw [if_pos (hzero.not.mpr hempty), if_pos (hzero.not.mpr hempty), hsub, Option.bind_some, hadd]
          rw [if_neg hempty] at hshows
          exact ih hshows (by omega) hkey
      · rw [if_neg hback, hnext]
        have hshows := h.append hlt hback
        have hlength : (e.key c).line.length = e.line.length + 1 := by
          rw [Editor.key, if_neg hback, List.length_append]
          rfl
        have hecho : (if c ≠ 0 then (s.put e.line.length c).termWrite [c] else s.put e.line.length c) =
            (s.put e.line.length c).termWrite (shown c) := by
          rw [shown]
          by_cases hc : c = 0
          · rw [if_neg (not_not.mpr hc), if_pos hc, Tty.termWrite, List.append_nil]
          · rw [if_pos hc, if_neg hc]
        rw [hecho]
        exact ih hshows (by omega) hkey

end Loop

theorem termRead_follows (buf : Int → UInt8) {len : UInt32} (keys : Text) (hlen : 1 ≤ len.toNat)
    (hobj : len.toNat < 2 ^ 31) :
    Follows len (termRead buf len keys) (Editor.edit (len.toNat - 1) keys ⟨[], []⟩) := by
  apply termLoop_follows keys hlen hobj
  · exact ⟨fun j hj => absurd hj (Nat.not_lt_zero j), rfl, fun j hj => absurd hj List.not_mem_nil⟩
  · rfl
  · exact Nat.zero_le _

theorem Follows.inside {len : UInt32} {r : Ending × Tty} {d : Edited} (h : Follows len r d) :
    ∀ j ∈ r.2.written, 0 ≤ j ∧ j < len.toNat := by
  cases d with
  | editing e => exact h.2.inside
  | entered e rest => exact Ended.inside h
  | full e rest => exact Ended.inside h

/-- The editor has ended with `e`. -/
def Edited.Ends (d : Edited) (e : Editor) : Prop := ∃ rest, d = .entered e rest ∨ d = .full e rest

theorem Editor.key_nonzero {e : Editor} {c : UInt8} (he : 0 ∉ e.line) (hc : c ≠ 0) :
    0 ∉ (e.key c).line := by
  rw [Editor.key]
  split
  · split
    · exact he
    · exact fun hmem => he (List.mem_of_mem_dropLast hmem)
  · intro hmem
    rcases List.mem_append.mp hmem with hmem | hmem
    · exact he hmem
    · exact hc (List.mem_singleton.mp hmem).symm

theorem Editor.edit_ends {cap : Nat} {keys : Text} {P : Editor → Prop} {e e' : Editor}
    (hkey : ∀ e : Editor, ∀ c ∈ keys, e.line.length ≠ cap → P e → P (e.key c)) (he : P e)
    (h : (e.edit cap keys).Ends e') : P e' := by
  induction keys generalizing e with
  | nil =>
    rw [Editor.edit] at h
    split at h
    · obtain ⟨rest, h | h⟩ := h
      · cases h
      · cases h
        exact he
    · obtain ⟨rest, h | h⟩ := h <;> cases h
  | cons c keys ih =>
    rw [Editor.edit] at h
    split at h
    · obtain ⟨rest, h | h⟩ := h
      · cases h
      · cases h
        exact he
    · rename_i hfull
      split at h
      · obtain ⟨rest, h | h⟩ := h
        · cases h
          exact he
        · cases h
      · exact ih (fun e d hd => hkey e d (List.mem_cons_of_mem c hd))
          (hkey e c List.mem_cons_self hfull he) h

theorem Editor.edit_nonzero {cap : Nat} {keys : Text} {e e' : Editor} (he : 0 ∉ e.line)
    (hkeys : 0 ∉ keys) (h : (e.edit cap keys).Ends e') : 0 ∉ e'.line := by
  apply Editor.edit_ends (P := fun e => 0 ∉ e.line) _ he h
  intro e c hc _ he
  exact Editor.key_nonzero he fun hzero => hkeys (hzero ▸ hc)

theorem Editor.edit_length_le {cap : Nat} {keys : Text} {e e' : Editor} (he : e.line.length ≤ cap)
    (h : (e.edit cap keys).Ends e') : e'.line.length ≤ cap := by
  apply Editor.edit_ends (P := fun e => e.line.length ≤ cap) _ he h
  intro e c _ hfull he
  exact (e.key_length_le c).trans (Nat.lt_of_le_of_ne he hfull)

theorem termRead_value_le (buf : Int → UInt8) {len : UInt32} {keys rest : Text} {value : Int32}
    (hlen : 1 ≤ len.toNat) (hobj : len.toNat < 2 ^ 31)
    (h : (termRead buf len keys).1 = .returned value rest) : value.toUInt32.toNat ≤ len.toNat := by
  have hfollows := termRead_follows buf keys hlen hobj
  have hbound (e : Editor) (he : (Editor.edit (len.toNat - 1) keys ⟨[], []⟩).Ends e) :=
    Editor.edit_length_le (Nat.zero_le (len.toNat - 1)) he
  suffices hvalue : ∃ n : Nat, value.toInt = n ∧ n ≤ len.toNat by
    obtain ⟨n, hn, hle⟩ := hvalue
    rwa [(CInt.toInt_eq_iff (by omega)).mp hn]
  cases hd : Editor.edit (len.toNat - 1) keys ⟨[], []⟩ with
  | editing e =>
    rw [hd] at hfollows
    rw [hfollows.1] at h
    cases h
  | entered e rest =>
    rw [hd] at hfollows hbound
    obtain ⟨v, hv, hvalue⟩ := Ended.returned hfollows
    rw [hv] at h
    cases h
    have hle := hbound e ⟨rest, .inl rfl⟩
    rw [hvalue]
    split
    · exact ⟨0, rfl, Nat.zero_le _⟩
    · exact ⟨e.line.length + 1, rfl, by omega⟩
  | full e rest =>
    rw [hd] at hfollows
    obtain ⟨v, hv, hvalue⟩ := Ended.returned hfollows
    rw [hv] at h
    cases h
    exact ⟨len.toNat, hvalue, le_rfl⟩

theorem Follows.string {len : UInt32} {r : Ending × Tty} {d : Edited} {e : Editor} (h : Follows len r d)
    (hends : d.Ends e) (hline : 0 ∉ e.line) : CString.At (fun j => r.2.buf j) 0 e.line := by
  have hstands : (∀ j (hj : j < e.line.length), r.2.buf j = e.line[j]) ∧ r.2.buf e.line.length = 0 := by
    obtain ⟨rest, rfl | rfl⟩ := hends
    · exact ⟨Ended.chars h, Ended.nul h⟩
    · exact ⟨Ended.chars h, Ended.nul h⟩
  refine ⟨fun j hj => ?_, ?_, hline⟩
  · rw [Nat.zero_add]
    exact hstands.1 j hj
  · rw [Nat.zero_add]
    exact hstands.2

/-- `term_read` edits its line like the reference editor, for every buffer that an `int` can
index and all keys but NUL: the value it returns, the writes, the echo and the string. -/
theorem term_read_edits (buf : Int → UInt8) (len : UInt32) (keys : Text) (hlen : 1 ≤ len.toNat)
    (hobj : len.toNat < 2 ^ 31) (hkeys : 0 ∉ keys) :
    Follows len (termRead buf len keys) (Editor.edit (len.toNat - 1) keys ⟨[], []⟩) ∧
      ∀ e, (Editor.edit (len.toNat - 1) keys ⟨[], []⟩).Ends e →
        CString.At (fun j => (termRead buf len keys).2.buf j) 0 e.line := by
  have hfollows := termRead_follows buf keys hlen hobj
  refine ⟨hfollows, fun e hends => ?_⟩
  exact hfollows.string hends (Editor.edit_nonzero List.not_mem_nil hkeys hends)

/-- An `a` taken back, a backspace on the empty line, a `b` and Enter. -/
theorem term_read_edits_backspaces : ((0 : UInt8) ∉ [97, backspace, backspace, 98, enter]) ∧
    CString.At (fun j => (termRead (fun _ => 7) 512 [97, backspace, backspace, 98, enter]).2.buf j) 0
      [98] := by
  have hkeys : (0 : UInt8) ∉ [97, backspace, backspace, 98, enter] := by decide
  have h := term_read_edits (fun _ => 7) 512 [97, backspace, backspace, 98, enter] (by decide) (by decide)
    hkeys
  exact ⟨hkeys, h.2 ⟨[98], [97, 8, 32, 8, 98]⟩ ⟨[], .inl rfl⟩⟩

end OsSuite.Library
