import OsSuite.ParseRequest
import OsSuite.TermRead
import OsSuite.Words

/-! A line on its way from the shell to GPID_PROCESS. `argc` is computed in the one program
and used as an index in both. -/

namespace OsSuite.Apps

open Grass
open CString (Text)
open Library (Ending termRead)

/-- The request as it is copied into a message, over what the message was before. -/
def ProcRequest.message (old : Content) (req : ProcRequest) : Content := fun i =>
  if i.val < 4 then Words.byte req.type i.val
  else if i.val < 8 then Words.byte req.argc.toUInt32 (i.val - 4)
  else if h : (i.val - 8) / cmdArgLen < cmdNargs then
    req.argv ⟨(i.val - 8) / cmdArgLen, h⟩ ⟨(i.val - 8) % cmdArgLen, Nat.mod_lt _ (by decide)⟩
  else old i

/-- The request that a server reads from a message. -/
def ofMessage (m : Content) : ProcRequest where
  type := msgType m
  argc := (word m 4).toInt32
  argv i j := Grass.argv m i j

theorem message_argv (old : Content) (req : ProcRequest) (i : Fin cmdNargs) (j : Fin cmdArgLen) :
    Grass.argv (req.message old) i j = req.argv i j := by
  obtain ⟨i, hi⟩ := i
  obtain ⟨j, hj⟩ := j
  change i < 16 at hi
  change j < 32 at hj
  have hoff : 8 + cmdArgLen * i + j = 8 + (32 * i + j) := Nat.add_assoc 8 (32 * i) j
  have hsub : 8 + (32 * i + j) - 8 = 32 * i + j := Nat.add_sub_cancel_left 8 _
  have hdiv : (32 * i + j) / cmdArgLen = i := by
    change (32 * i + j) / 32 = i
    omega
  have hmod : (32 * i + j) % cmdArgLen = j := by
    change (32 * i + j) % 32 = j
    omega
  have hrow : (8 + (32 * i + j) - 8) / cmdArgLen < cmdNargs := by
    rw [hsub, hdiv]
    exact hi
  change byteAt (req.message old) (8 + cmdArgLen * i + j) = _
  rw [hoff, byteAt, dif_pos (show 8 + (32 * i + j) < 1024 by omega), ProcRequest.message,
    if_neg (show ¬8 + (32 * i + j) < 4 by omega), if_neg (show ¬8 + (32 * i + j) < 8 by omega), dif_pos hrow]
  congr 1
  · exact Fin.ext ((congrArg (· / cmdArgLen) hsub).trans hdiv)
  · exact Fin.ext ((congrArg (· % cmdArgLen) hsub).trans hmod)

/-- A request is not larger than a message, and arrives as it was sent. -/
theorem ofMessage_message (old : Content) (req : ProcRequest) : ofMessage (req.message old) = req := by
  have htype : msgType (req.message old) = req.type := by
    apply Words.load_bytes
    intro k hk
    rw [Nat.zero_add, byteAt, dif_pos (show k < 1024 by omega), ProcRequest.message, if_pos hk]
  have hargc : word (req.message old) 4 = req.argc.toUInt32 := by
    apply Words.load_bytes
    intro k hk
    rw [byteAt, dif_pos (show 4 + k < 1024 by omega), ProcRequest.message,
      if_neg (show ¬4 + k < 4 by omega), if_pos (show 4 + k < 8 by omega)]
    rw [Nat.add_sub_cancel_left]
  have hargv : (fun i j => Grass.argv (req.message old) (i : Fin cmdNargs) (j : Fin cmdArgLen)) = req.argv :=
    funext fun i => funext fun j => message_argv old req i j
  rw [ofMessage, htype, hargc, hargv]
  rfl

abbrev ampersand : UInt8 := 38

def coresinfo : Text := [99, 111, 114, 101, 115, 105, 110, 102, 111]

def killall : Text := [107, 105, 108, 108, 97, 108, 108]

def clear : Text := [99, 108, 101, 97, 114]

def pwd : Text := [112, 119, 100]

inductive Command where
  | coresinfo
  | killall
  | clear
  | pwd
  /-- Too many arguments, or one too long. -/
  | refused
  | spawn (req : ProcRequest)

/-- The cases of the shell's main loop, or none when `parse_request` writes outside of `argv`. -/
def command (line : Text) (req : ProcRequest) : Option Command :=
  if line = coresinfo then some .coresinfo
  else if line = killall then some .killall
  else if line = clear then some .clear
  else if line = pwd then some .pwd
  else
    match parseRequest line { req with type := procSpawn } with
    | some (code, req) => some (if code ≠ 0 then .refused else .spawn req)
    | none => none

/-- `argv[argc - 1][0]`, or none when `argv` has no such row. -/
def ProcRequest.lastArg (req : ProcRequest) : Option UInt8 :=
  if h : 1 ≤ req.argc.toInt ∧ req.argc.toInt ≤ cmdNargs then
    some (req.argv ⟨(req.argc.toInt - 1).toNat, by omega⟩ ⟨0, by decide⟩)
  else none

def rowText (row : Fin cmdArgLen → UInt8) : Text := (List.ofFn row).takeWhile (· ≠ 0)

def ProcRequest.name (req : ProcRequest) : Text := rowText (req.argv ⟨0, by decide⟩)

/-- What `app_spawn` comes to: a program is loaded with the first `argc` arguments. -/
inductive AppSpawn where
  | notFound
  | load (appIno : Int) (argc : Int32)

/-- `app_spawn` up to `proc_alloc`, in a directory that `lookup` reads, or none when it reads
outside of `argv`. -/
def appSpawn (lookup : Text → Int) (req : ProcRequest) : Option AppSpawn :=
  let appIno := lookup req.name
  if appIno < 0 then some .notFound
  else
    match req.lastArg with
    | some last => some (.load appIno (if last = ampersand then req.argc - 1 else req.argc))
    | none => none

def AppSpawn.status : AppSpawn → UInt32
  | .notFound => cmdError
  | .load _ _ => cmdOk

/-- The case `PROC_SPAWN` of GPID_PROCESS: the type of the reply and `shell_waiting`. -/
def handleSpawn (lookup : Text → Int) (req : ProcRequest) : Option (UInt32 × Bool) :=
  match appSpawn lookup req, req.lastArg with
  | some spawn, some last => some (spawn.status, last ≠ ampersand && spawn.status = cmdOk)
  | _, _ => none

/-- The shell after the reply: whether it waits for the command to terminate. -/
def afterReply (req : ProcRequest) (type : UInt32) : Option Bool :=
  if type ≠ cmdOk then some false
  else
    match req.lastArg with
    | some last => some (last ≠ ampersand)
    | none => none

/-- A line that `term_read` has left in the shell's buffer. -/
def Delivered (line : Text) : Prop := ∃ buf keys value rest,
  (termRead buf termBufSize keys).1 = .returned value rest ∧ value ≠ 0 ∧
    CString.At (fun j => (termRead buf termBufSize keys).2.buf j) 0 line

/-- When the shell sends a request for the line, `argc` is an index into `argv` wherever it is
used, on both sides, and the program looked up has a name. -/
def SpawnsInBounds (line : Text) : Prop :=
  ∀ (lookup : Text → Int) (old : Content) (req₀ req : ProcRequest), command line req₀ = some (.spawn req) →
    1 ≤ req.argc.toInt ∧ req.argc.toInt ≤ cmdNargs ∧ (ofMessage (req.message old)).name ≠ [] ∧
      ∃ type waiting, handleSpawn lookup (ofMessage (req.message old)) = some (type, waiting) ∧
        afterReply req type ≠ none

theorem lastArg_isSome {req : ProcRequest} :
    (∃ last, req.lastArg = some last) ↔ 1 ≤ req.argc.toInt ∧ req.argc.toInt ≤ cmdNargs := by
  rw [ProcRequest.lastArg]
  split
  · rename_i h
    exact iff_of_true ⟨_, rfl⟩ h
  · rename_i h
    refine iff_of_false ?_ h
    rintro ⟨last, hlast⟩
    cases hlast

theorem handleSpawn_isSome (lookup : Text → Int) {req : ProcRequest}
    (hargc : 1 ≤ req.argc.toInt ∧ req.argc.toInt ≤ cmdNargs) :
    ∃ type waiting, handleSpawn lookup req = some (type, waiting) := by
  obtain ⟨last, hlast⟩ := lastArg_isSome.mpr hargc
  have hspawn : ∃ spawn, appSpawn lookup req = some spawn := by
    rw [appSpawn, hlast]
    dsimp only
    split
    · exact ⟨_, rfl⟩
    · exact ⟨_, rfl⟩
  obtain ⟨spawn, hspawn⟩ := hspawn
  rw [handleSpawn, hspawn, hlast]
  exact ⟨_, _, rfl⟩

theorem afterReply_ne_none {req : ProcRequest} (type : UInt32)
    (hargc : 1 ≤ req.argc.toInt ∧ req.argc.toInt ≤ cmdNargs) : afterReply req type ≠ none := by
  obtain ⟨last, hlast⟩ := lastArg_isSome.mpr hargc
  rw [afterReply, hlast]
  split
  · exact Option.some_ne_none _
  · exact Option.some_ne_none _

/-- A request that the shell sends is the one that `parse_request` leaves of the line. -/
theorem command_spawn {line : Text} {req₀ req : ProcRequest} (h : command line req₀ = some (.spawn req)) :
    Fits (words line) ∧ req = ⟨procSpawn, Int32.ofNat (words line).length, argvOf (words line)⟩ := by
  rw [command] at h
  split at h; · cases h
  split at h; · cases h
  split at h; · cases h
  split at h; · cases h
  obtain ⟨code, req', hparse, hparses⟩ := parseRequest_parses line { req₀ with type := procSpawn }
  rw [hparse] at h
  cases hparses with
  | accepted hfits =>
    cases h
    exact ⟨hfits, rfl⟩
  | rejected argv => cases h

theorem rowText_word {t : Text} (hlen : t.length < cmdArgLen) (hzero : 0 ∉ t) :
    rowText (fun j => t.getD j 0) = t := by
  have hrow : List.ofFn (fun j : Fin cmdArgLen => t.getD j 0) =
      t ++ List.replicate (cmdArgLen - t.length) 0 := by
    apply List.ext_getElem
    · rw [List.length_ofFn, List.length_append, List.length_replicate]
      omega
    · intro k hk hk'
      rw [List.getElem_ofFn, List.getElem_append]
      split
      · rename_i hlt
        exact List.getD_eq_getElem t 0 hlt
      · rename_i hge
        rw [List.getElem_replicate]
        exact List.getD_eq_default t 0 (Nat.not_lt.mp hge)
  have hnul : cmdArgLen - t.length = cmdArgLen - t.length - 1 + 1 := by omega
  have hpos (c : UInt8) (hc : c ∈ t) : decide (c ≠ 0) = true :=
    decide_eq_true fun he => hzero (he ▸ hc)
  rw [rowText, hrow, List.takeWhile_append_of_pos hpos, hnul, List.replicate_succ,
    List.takeWhile_cons_of_neg (by decide), List.append_nil]

theorem rowText_argvOf {line : Text} (hfits : Fits (words line)) (hzero : 0 ∉ line) {i : Fin cmdNargs}
    (hi : i.val < (words line).length) : rowText (argvOf (words line) i) = (words line)[i.val] := by
  have hget : (words line).getD i.val [] = (words line)[i.val] := List.getD_eq_getElem _ _ hi
  have hmem : (words line)[i.val] ∈ words line := List.getElem_mem hi
  have hrow : argvOf (words line) i = fun j : Fin cmdArgLen => (words line)[i.val].getD j 0 := by
    funext j
    rw [argvOf, hget]
  rw [hrow]
  exact rowText_word (hfits.2 _ hmem) fun h => hzero (Tokens.mem_of_mem_tokens hmem h)

theorem command_blank {line : Text} (hblank : ∀ c ∈ line, c = space) (req₀ : ProcRequest) :
    command line req₀ = some (.spawn ⟨procSpawn, 0, argvOf []⟩) := by
  have hwords : words line = [] := Tokens.tokens_eq_nil.mpr hblank
  have hnot (text : Text) (htext : ∃ c ∈ text, c ≠ space) : line ≠ text := by
    rintro rfl
    obtain ⟨c, hmem, hc⟩ := htext
    exact hc (hblank c hmem)
  obtain ⟨code, req', hparse, hparses⟩ := parseRequest_parses line { req₀ with type := procSpawn }
  rw [command, if_neg (hnot coresinfo (by decide)), if_neg (hnot killall (by decide)),
    if_neg (hnot clear (by decide)), if_neg (hnot pwd (by decide)), hparse]
  cases hparses with
  | accepted hfits hend =>
    rw [hwords]
    rfl
  | rejected argv h =>
    rw [hwords] at h
    exact absurd (h (by decide)).1 (by decide)

/-- `argc` is in bounds wherever it is used and the program has a name, for every line that the
shell can read, unless the line has spaces only. -/
theorem shell_spawns_in_bounds_iff (line : Text) (hline : Delivered line) :
    SpawnsInBounds line ↔ ∃ c ∈ line, c ≠ space := by
  constructor
  · intro h
    by_contra hblank
    push Not at hblank
    obtain ⟨hpos, -⟩ := h (fun _ => 0) (fun _ => 0) ⟨0, 0, argvOf []⟩ _ (command_blank hblank _)
    exact absurd hpos (by decide)
  · rintro ⟨c, hc, hne⟩ lookup old req₀ req hcommand
    obtain ⟨hfits, hreq⟩ := command_spawn hcommand
    have hwords : words line ≠ [] := fun he => hne (Tokens.tokens_eq_nil.mp he c hc)
    have hcount : 0 < (words line).length := List.length_pos_iff.mpr hwords
    have hzero : 0 ∉ line := by
      obtain ⟨_, _, _, _, -, -, hat⟩ := hline
      exact hat.nonzero
    have hbounds : 1 ≤ req.argc.toInt ∧ req.argc.toInt ≤ cmdNargs := by
      rw [hreq, toInt_argc hfits]
      exact ⟨Int.ofNat_le.mpr hcount, Int.ofNat_le.mpr hfits.1⟩
    refine ⟨hbounds.1, hbounds.2, ?_, ?_⟩
    · rw [ofMessage_message, hreq]
      change rowText (argvOf (words line) ⟨0, by decide⟩) ≠ []
      rw [rowText_argvOf hfits hzero hcount]
      exact Tokens.ne_nil_of_mem_tokens (List.getElem_mem hcount)
    · obtain ⟨type, waiting, hspawn⟩ := handleSpawn_isSome lookup hbounds
      rw [ofMessage_message]
      exact ⟨type, waiting, hspawn, afterReply_ne_none type hbounds⟩

theorem delivered_key {c : UInt8} (hc : c = 97 ∨ c = space) : Delivered [c] := by
  refine ⟨fun _ => 0, [c, 13], 2, [], ?_, ?_, ?_⟩
  · rcases hc with rfl | rfl <;> decide +kernel
  · decide +kernel
  · rcases hc with rfl | rfl
    · exact ⟨by decide +kernel, by decide +kernel, by decide⟩
    · exact ⟨by decide +kernel, by decide +kernel, by decide⟩

/-- The word `a`, read from the keys. -/
theorem shell_spawns_in_bounds_word : Delivered [97] ∧ SpawnsInBounds [97] := by
  have hline : Delivered [97] := delivered_key (.inl rfl)
  exact ⟨hline, (shell_spawns_in_bounds_iff [97] hline).mpr ⟨97, by decide, by decide⟩⟩

/-- A space and Enter. -/
theorem blank_line_out_of_bounds : Delivered [space] ∧ ¬SpawnsInBounds [space] := by
  refine ⟨delivered_key (.inr rfl), fun h => ?_⟩
  have hblank : ∀ c ∈ [space], c = space := fun c hc => List.mem_singleton.mp hc
  obtain ⟨hpos, -⟩ := h (fun _ => 0) (fun _ => 0) ⟨0, 0, argvOf []⟩ _ (command_blank hblank _)
  exact absurd hpos (by decide)

end OsSuite.Apps
