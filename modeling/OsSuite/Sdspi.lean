import OsSuite.Rounds
import OsSuite.SdCard

/-! The driver of the SD card on the SPI bus: the initialization and the read of one block, against
a card that answers as documented. -/

namespace OsSuite.SdCard

inductive Stop where
  | running
  | cmd17 (status : UInt8)
  | oldCard
  | cardType
  | readOnly

/-- `while (spi_exchange(0xFF) != target);` -/
def waitFor (t : Timing) (target : UInt8) : Nat → Link → Except Stop Link
  | 0, _ => .error .running
  | fuel + 1, s =>
    let (x, s) := s.exchange t 0xFF
    if x ≠ target then waitFor t target fuel s else .ok s

/-- `while (reply != target) reply = spi_exchange(0xFF);` -/
def waitReply (t : Timing) (target : UInt8) : Nat → UInt8 → Link → Except Stop Link
  | 0, _, _ => .error .running
  | fuel + 1, reply, s =>
    if reply ≠ target then
      let (x, s) := s.exchange t 0xFF
      waitReply t target fuel x s
    else .ok s

/-- The loop of `sdspi_exec_cmd` over the rounds that are left. -/
def pollReply (t : Timing) : Nat → Link → UInt8 × Link
  | 0, s => (0xFF, s)
  | n + 1, s =>
    let (reply, s) := s.exchange t 0xFF
    if reply ≠ 0xFF then (reply, s) else pollReply t n s

def sdspiExecCmd (t : Timing) (s : Link) (cmd : List UInt8) : UInt8 × Link :=
  pollReply t 8000 (cmd.foldl (fun s b => (s.exchange t b).2) s)

def cmd55 : List UInt8 := [0x77, 0x00, 0x00, 0x00, 0x00, 0xFF]

def sdspiExecAcmd (t : Timing) (fuel : Nat) (s : Link) (cmd : List UInt8) : Except Stop (UInt8 × Link) := do
  let s ← waitFor t 0xFF fuel s
  let (_, s) := sdspiExecCmd t s cmd55
  let s ← waitFor t 0xFF fuel s
  return sdspiExecCmd t s cmd

def readBytes (t : Timing) : Nat → Link → List UInt8 × Link
  | 0, s => ([], s)
  | n + 1, s =>
    let (x, s) := s.exchange t 0xFF
    let (xs, s) := readBytes t n s
    (x :: xs, s)

/-- The argument is in memory with its lowest byte first. -/
def cmd17 (offset : UInt32) : List UInt8 :=
  let arg := Words.byte offset
  [(17 ||| 1 <<< 6 : Nat).toUInt8, arg 3, arg 2, arg 1, arg 0, 0xFF]

def sdspiRead (t : Timing) (fuel : Nat) (s : Link) (offset : UInt32) : Except Stop (List UInt8 × Link) := do
  let s ← waitFor t 0xFF fuel s
  let (reply, s) := sdspiExecCmd t s (cmd17 offset)
  if reply ≠ 0 then throw (.cmd17 reply)
  let s ← waitFor t 0xFE fuel s
  let (dst, s) := readBytes t 512 s
  let (_, s) := readBytes t 2 s
  return (dst, s)

/-- `while (sdspi_exec_acmd(cmd));`, with the second bound for the loops inside. -/
def repeatAcmd (t : Timing) (fuel : Nat) (cmd : List UInt8) : Nat → Link → Except Stop Link
  | 0, _ => .error .running
  | n + 1, s => do
    let (reply, s) ← sdspiExecAcmd t fuel s cmd
    if reply ≠ 0 then repeatAcmd t fuel cmd n s else .ok s

/-- The bytes of a response, the last of them the lowest of the word. -/
def payload (bytes : List UInt8) : UInt32 := Words.load (fun k => bytes.getD (3 - k) 0) 0

def cmd0 : List UInt8 := [0x40, 0x00, 0x00, 0x00, 0x00, 0x95]

def cmd8 : List UInt8 := [0x48, 0x00, 0x00, 0x01, 0xAA, 0x87]

def acmd41 : List UInt8 := [0x69, 0x40, 0x00, 0x00, 0x00, 0xFF]

/-- The return value, 0 or -1, and the bus. The clock does not matter to what the card sends. -/
def sdspiInit (t : Timing) (fuel : Nat) (s : Link) : Except Stop (Int × Link) := do
  let (_, s) := readBytes t 1000 { s with selected := false }
  let s := { s with selected := true }
  let (reply, s) := sdspiExecCmd t s cmd0
  if reply = 0xFF then return (-1, s)
  let s ← waitReply t 0x01 fuel reply s
  let s ← waitFor t 0xFF fuel s
  let (reply, s) := sdspiExecCmd t s cmd8
  if reply &&& 0x04 ≠ 0 then throw .oldCard
  let (bytes, s) := readBytes t 4 s
  if payload bytes &&& 0xFFF ≠ 0x1AA then throw .cardType
  let s ← waitFor t 0xFF fuel s
  let s ← repeatAcmd t fuel acmd41 fuel s
  let s ← waitFor t 0xFF fuel s
  return (0, s)

/-- The bus after a command, when the card has still to send `out`. -/
def Link.after (s : Link) (phase : Phase) (out : List UInt8) : Link :=
  { s with card := { s.card with phase := phase, commands := s.card.commands + 1 }, out := out, cmd := [] }

section Loops

variable {t : Timing} {s : Link} {out : List UInt8} {x target : UInt8}

theorem waitFor_found (pre : List UInt8) (h : s.Sending (pre ++ target :: out)) (hpre : target ∉ pre) :
    Ends (waitFor t target · s) (s.left out) := by
  induction pre generalizing s with
  | nil =>
    refine ends_of_le (n := 1) fun m hm => ?_
    obtain ⟨m, rfl⟩ := Nat.exists_eq_add_of_le' hm
    rw [waitFor, h.exchange]
    exact if_neg (not_not.mpr rfl)
  | cons x pre ih =>
    have hne : x ≠ target := fun he => hpre (he ▸ List.mem_cons_self)
    have hrest := ih (h.left _) fun hm => hpre (List.mem_cons_of_mem x hm)
    obtain ⟨n, hn⟩ := Filter.eventually_atTop.mp hrest
    refine ends_of_le (n := n + 1) fun m hm => ?_
    obtain ⟨m, rfl⟩ : ∃ m', m = m' + 1 := ⟨m - 1, by omega⟩
    rw [waitFor, Link.Sending.exchange h]
    dsimp only
    rw [if_pos hne]
    exact hn m (by omega)

/-- Waiting for silence, behind what the card is busy with. -/
theorem waitFor_idle (h : s.Sending out) (hbusy : 0xFF ∉ out) :
    Ends (waitFor t 0xFF · s) (s.left []) := by
  induction out generalizing s with
  | nil =>
    refine ends_of_le (n := 1) fun m hm => ?_
    obtain ⟨m, rfl⟩ := Nat.exists_eq_add_of_le' hm
    rw [waitFor, h.exchange_idle, h.left_self]
    exact if_neg (not_not.mpr rfl)
  | cons x out ih =>
    have hne : x ≠ 0xFF := fun he => hbusy (he ▸ List.mem_cons_self)
    have hrest := ih (h.left out) fun hm => hbusy (List.mem_cons_of_mem x hm)
    obtain ⟨n, hn⟩ := Filter.eventually_atTop.mp hrest
    refine ends_of_le (n := n + 1) fun m hm => ?_
    obtain ⟨m, rfl⟩ : ∃ m', m = m' + 1 := ⟨m - 1, by omega⟩
    rw [waitFor, h.exchange]
    dsimp only
    rw [if_pos hne]
    exact hn m (by omega)

theorem pollReply_delayed (n rounds : Nat) (h : s.Sending (List.replicate n 0xFF ++ x :: out)) (hx : x ≠ 0xFF)
    (hn : n < rounds) : pollReply t rounds s = (x, s.left out) := by
  induction n generalizing s rounds with
  | zero =>
    obtain ⟨rounds, rfl⟩ := Nat.exists_eq_add_of_lt hn
    rw [pollReply, h.exchange]
    exact if_pos hx
  | succ n ih =>
    obtain ⟨rounds, rfl⟩ : ∃ r, rounds = r + 1 := ⟨rounds - 1, by omega⟩
    have hfirst : s.Sending (0xFF :: (List.replicate n 0xFF ++ x :: out)) := h
    rw [pollReply, hfirst.exchange]
    dsimp only
    rw [if_neg (not_not.mpr rfl)]
    exact ih rounds (hfirst.left _) (by omega)

theorem readBytes_sending (bytes : List UInt8) (h : s.Sending (bytes ++ out)) :
    readBytes t bytes.length s = (bytes, s.left out) := by
  induction bytes generalizing s with
  | nil =>
    rw [List.nil_append] at h
    rw [h.left_self]
    rfl
  | cons x bytes ih =>
    have hfirst : s.Sending (x :: (bytes ++ out)) := h
    have hrest := ih (hfirst.left (bytes ++ out))
    rw [List.length_cons, readBytes, hfirst.exchange]
    dsimp only
    rw [hrest]
    rfl

theorem exchange_silent (h : (s.inserted && s.selected) = false) (byte : UInt8) : s.exchange t byte = (0xFF, s) := by
  rw [Link.exchange, h]
  rfl

theorem readBytes_silent (n : Nat) (h : (s.inserted && s.selected) = false) : (readBytes t n s).2 = s := by
  induction n with
  | zero => rfl
  | succ n ih =>
    rw [readBytes, exchange_silent h]
    exact ih

theorem pollReply_silent (n : Nat) (h : (s.inserted && s.selected) = false) : pollReply t n s = (0xFF, s) := by
  induction n with
  | zero => rfl
  | succ n ih =>
    rw [pollReply, exchange_silent h]
    exact ih

end Loops

section Commands

variable {t : Timing} {s : Link} {rest : List UInt8} {x b₀ b₁ b₂ b₃ b₄ b₅ : UInt8} {phase : Phase}

theorem Link.Sending.after (h : s.Sending rest) (phase : Phase) (out : List UInt8) : (s.after phase out).Sending out :=
  ⟨h.inserted, h.selected, rfl, rfl⟩

theorem execCmd_eq (ht : t.Documented) (h : s.Sending []) (hb : b₀ ≠ 0xFF)
    (hanswer : s.card.answer t (Command.of [b₀, b₁, b₂, b₃, b₄, b₅]) = (x :: rest, phase)) (hx : x ≠ 0xFF) :
    sdspiExecCmd t s [b₀, b₁, b₂, b₃, b₄, b₅] = (x, s.after phase (rest ++ t.busy s.card.commands)) := by
  have htake := h.take (t := t) [b₀, b₁, b₂, b₃, b₄, b₅]
  rw [hanswer, List.append_assoc, List.cons_append] at htake
  rw [sdspiExecCmd, h.command hb, pollReply_delayed _ 8000 htake hx (ht.delay _), Link.take, hanswer]
  rfl

theorem command_cmd17 (offset : UInt32) : Command.of (cmd17 offset) = ⟨17, offset⟩ := by
  have harg : Words.load (fun k => (cmd17 offset).getD (4 - k) 0) 0 = offset := by
    refine Words.load_bytes fun k hk => ?_
    interval_cases k <;> rfl
  have hidx : (cmd17 offset).getD 0 0 &&& 63 = 17 := by
    change (17 ||| 1 <<< 6 : Nat).toUInt8 &&& 63 = 17
    decide
  rw [Command.of, harg, hidx]

theorem busy_notMem (ht : t.Documented) (n : Nat) : 0xFF ∉ t.busy n := fun hm => ht.busy n _ hm rfl

end Commands

/-- Between two commands: the card is in `phase`, and may be busy. -/
structure Link.At (s : Link) (phase : Phase) (data : UInt32 → Fin 512 → UInt8) : Prop where
  sending : ∃ out, s.Sending out ∧ 0xFF ∉ out
  phase : s.card.phase = phase
  block : s.card.block = data

section Read

variable {t : Timing} {s : Link} {data : UInt32 → Fin 512 → UInt8}

theorem Link.At.listening {phase : Phase} (h : s.At phase data) : (s.left []).Sending [] := by
  obtain ⟨⟨out, hsending, -⟩, -, -⟩ := h
  exact hsending.left []

theorem Link.At.idle {phase : Phase} (h : s.At phase data) : Ends (waitFor t 0xFF · s) (s.left []) := by
  obtain ⟨⟨out, hsending, hbusy⟩, -, -⟩ := h
  exact waitFor_idle hsending hbusy

theorem Link.At.settled {phase : Phase} (h : s.At phase data) : (s.left []).At phase data :=
  ⟨⟨[], h.listening, List.not_mem_nil⟩, h.phase, h.block⟩

theorem gap_notMem (n : Nat) : 0xFE ∉ List.replicate n (0xFF : UInt8) := by
  intro hm
  exact absurd (List.eq_of_mem_replicate hm) (by decide)

theorem readPacket {block : Fin 512 → UInt8} {crc₁ crc₂ : UInt8} {busy : List UInt8}
    (h : s.Sending (List.ofFn block ++ ([crc₁, crc₂] ++ busy))) :
    readBytes t 512 s = (List.ofFn block, s.left ([crc₁, crc₂] ++ busy)) ∧
      (readBytes t 2 (s.left ([crc₁, crc₂] ++ busy))).2 = s.left busy := by
  have hblock := readBytes_sending (t := t) (List.ofFn block) h
  rw [List.length_ofFn] at hblock
  have hcrc := readBytes_sending (t := t) [crc₁, crc₂] (h.left ([crc₁, crc₂] ++ busy))
  exact ⟨hblock, congrArg Prod.snd hcrc⟩

theorem sdspiRead_ends (ht : t.Documented) (h : s.At .ready data) (offset : UInt32) :
    ∃ s', Ends (sdspiRead t · s offset) (List.ofFn (data offset), s') ∧ s'.At .ready data := by
  have hidle := h.idle (t := t)
  have hready := h.listening
  obtain ⟨-, hphase, hblock⟩ := h
  have hanswer : s.card.answer t (Command.of (cmd17 offset)) =
      (0 :: (List.replicate (t.gap s.card.commands) 0xFF ++ s.card.packet t offset), .ready) := by
    rw [command_cmd17, Card.answer, hphase]
    rfl
  obtain ⟨s₁, hs₁⟩ : ∃ s₁, (s.left []).after .ready (List.replicate (t.gap s.card.commands) 0xFF ++
      s.card.packet t offset ++ t.busy s.card.commands) = s₁ := ⟨_, rfl⟩
  have hexec : sdspiExecCmd t (s.left []) (cmd17 offset) = (0, s₁) := by
    rw [← hs₁]
    exact execCmd_eq ht hready (by decide) hanswer (by decide)
  have hafter := hready.after .ready (List.replicate (t.gap s.card.commands) 0xFF ++
    s.card.packet t offset ++ t.busy s.card.commands)
  rw [hs₁, Card.packet, hblock, List.append_assoc, List.cons_append, List.append_assoc] at hafter
  have htoken := waitFor_found (t := t) _ hafter (gap_notMem _)
  obtain ⟨hdata, hcrc⟩ := readPacket (t := t) (hafter.left (List.ofFn (data offset) ++
    ([(t.crc s.card.commands).1, (t.crc s.card.commands).2] ++ t.busy s.card.commands)))
  refine ⟨s₁.left (t.busy s.card.commands), hidle.bind ?_,
    ⟨_, hafter.left _, busy_notMem ht _⟩, ?_, ?_⟩
  · simp only [hexec, ne_eq, not_true_eq_false, if_false]
    refine htoken.bind ?_
    simp only [Link.left_left] at hdata hcrc
    simp only [hdata, hcrc]
    exact ends_ok (List.ofFn (data offset), s₁.left (t.busy s.card.commands))
  · rw [← hs₁]
    rfl
  · rw [← hs₁]
    exact hblock

end Read

section Init

variable {t : Timing} {s : Link} {data : UInt32 → Fin 512 → UInt8} {phase : Phase}

/-- A command with nothing but a status for an answer. -/
theorem Link.At.command (ht : t.Documented) (h : s.At phase data) {b₀ b₁ b₂ b₃ b₄ b₅ x : UInt8} {phase' : Phase}
    (hb : b₀ ≠ 0xFF) (hx : x ≠ 0xFF)
    (hanswer : s.card.answer t (Command.of [b₀, b₁, b₂, b₃, b₄, b₅]) = ([x], phase')) :
    ∃ s', sdspiExecCmd t (s.left []) [b₀, b₁, b₂, b₃, b₄, b₅] = (x, s') ∧ s'.At phase' data := by
  have hready := h.listening
  exact ⟨_, execCmd_eq ht hready hb hanswer hx, ⟨_, hready.after _ _, busy_notMem ht _⟩, rfl, h.block⟩

theorem acmd41_ends (ht : t.Documented) {n : Nat} (h : s.At (.idle n) data) :
    ∃ s', Ends (sdspiExecAcmd t · s acmd41) (if n = 0 then 0 else 1, s') ∧
      s'.At (if n = 0 then .ready else .idle (n - 1)) data := by
  have hprefix : s.card.answer t (Command.of cmd55) = ([1], .app n) := by
    have hcmd : Command.of cmd55 = ⟨55, 0⟩ := by decide
    rw [hcmd, Card.answer, h.phase]
    rfl
  obtain ⟨s₁, hexec₁, h₁⟩ := h.command ht (by decide) (by decide) hprefix
  have hanswer : s₁.card.answer t (Command.of acmd41) =
      ([if n = 0 then 0 else 1], if n = 0 then .ready else .idle (n - 1)) := by
    have hcmd : Command.of acmd41 = ⟨41, 0x40000000⟩ := by decide
    rw [hcmd, Card.answer, h₁.phase]
    cases n <;> rfl
  obtain ⟨s₂, hexec₂, h₂⟩ := h₁.command ht (by decide) (by split <;> decide) hanswer
  refine ⟨s₂, h.idle.bind ?_, h₂⟩
  change sdspiExecCmd t (s.left []) cmd55 = _ at hexec₁
  change sdspiExecCmd t (s₁.left []) acmd41 = _ at hexec₂
  simp only [hexec₁]
  refine h₁.idle.bind ?_
  rw [hexec₂]
  exact ends_ok _

/-- The card refuses ACMD41 for a while. -/
theorem repeatAcmd_ends (ht : t.Documented) {n : Nat} (h : s.At (.idle n) data) :
    ∃ s', (∀ᶠ fuel in Filter.atTop, ∀ rounds, n < rounds → repeatAcmd t fuel acmd41 rounds s = .ok s') ∧
      s'.At .ready data := by
  induction n generalizing s with
  | zero =>
    obtain ⟨s', hends, h'⟩ := acmd41_ends ht h
    refine ⟨s', ?_, h'⟩
    filter_upwards [hends] with fuel hfuel rounds hrounds
    obtain ⟨rounds, rfl⟩ := Nat.exists_eq_add_of_lt hrounds
    rw [repeatAcmd, hfuel]
    rfl
  | succ n ih =>
    obtain ⟨s₁, hends, h₁⟩ := acmd41_ends ht h
    obtain ⟨s', hrest, h'⟩ := ih h₁
    refine ⟨s', ?_, h'⟩
    filter_upwards [hends, hrest] with fuel hfuel hmore rounds hrounds
    obtain ⟨rounds, rfl⟩ : ∃ r, rounds = r + 1 := ⟨rounds - 1, by omega⟩
    rw [repeatAcmd, hfuel]
    exact hmore rounds (by omega)

theorem cmd0_answer (ht : t.Documented) (h : s.Sending []) (hblock : s.card.block = data) :
    ∃ s', sdspiExecCmd t s cmd0 = (1, s') ∧ s'.At (.idle t.tries) data := by
  have hanswer : s.card.answer t (Command.of cmd0) = ([1], .idle t.tries) := by
    have hcmd : Command.of cmd0 = ⟨0, 0⟩ := by decide
    rw [hcmd]
    rfl
  exact ⟨_, execCmd_eq ht h (by decide) hanswer (by decide), ⟨_, h.after _ _, busy_notMem ht _⟩, rfl, hblock⟩

theorem cmd8_answer (ht : t.Documented) {n : Nat} (h : s.At (.idle n) data) :
    ∃ s₁ s', sdspiExecCmd t (s.left []) cmd8 = (1, s₁) ∧ readBytes t 4 s₁ = ([0, 0, 1, 0xAA], s') ∧
      s'.At (.idle n) data := by
  have hready := h.listening
  have hanswer : s.card.answer t (Command.of cmd8) = ([1, 0, 0, 1, 0xAA], .idle n) := by
    have hcmd : Command.of cmd8 = ⟨8, 0x1AA⟩ := by decide
    rw [hcmd, Card.answer, h.phase]
    rfl
  have hafter := hready.after (.idle n) ([0, 0, 1, 0xAA] ++ t.busy s.card.commands)
  exact ⟨_, _, execCmd_eq ht hready (by decide) hanswer (by decide), readBytes_sending _ hafter,
    ⟨_, hafter.left _, busy_notMem ht _⟩, rfl, h.block⟩

/-- A card in the slot answers, whatever it did before. -/
theorem sdspiInit_ends (ht : t.Documented) (hinserted : s.inserted = true) (hout : s.out = []) (hcmd : s.cmd = [])
    (hblock : s.card.block = data) : ∃ s', Ends (sdspiInit t · s) (0, s') ∧ s'.At .ready data := by
  have hsilent : (readBytes t 1000 { s with selected := false }).2 = { s with selected := false } :=
    readBytes_silent 1000 (Bool.and_false _)
  obtain ⟨s₀, hexec₀, h₀⟩ := cmd0_answer ht (s := { s with selected := true }) ⟨hinserted, rfl, hout, hcmd⟩ hblock
  obtain ⟨s₁, s₈, hexec₈, hread₈, h₈⟩ := cmd8_answer ht h₀
  obtain ⟨s₄, hrepeat, h₄⟩ := repeatAcmd_ends ht h₈.settled
  have hacmd : Ends (fun fuel => repeatAcmd t fuel acmd41 fuel (s₈.left [])) s₄ := by
    filter_upwards [hrepeat, Filter.eventually_gt_atTop t.tries] with fuel hfuel htries
    exact hfuel fuel htries
  have hreply : Ends (waitReply t 0x01 · 1 s₀) s₀ := by
    refine ends_of_le (n := 1) fun m hm => ?_
    obtain ⟨m, rfl⟩ := Nat.exists_eq_add_of_le' hm
    rfl
  have hpayload : payload [0, 0, 1, 0xAA] &&& 0xFFF = 0x1AA := by decide
  refine ⟨s₄.left [], ?_, h₄.settled⟩
  unfold sdspiInit
  simp only [hsilent, hexec₀]
  rw [funext fun fuel => if_neg (show (1 : UInt8) ≠ 255 by decide)]
  refine hreply.bind (h₀.idle.bind ?_)
  have hstatus : ¬(1 : UInt8) &&& 4 ≠ 0 := by decide
  simp only [hexec₈, hread₈]
  rw [funext fun fuel => if_neg hstatus, funext fun fuel => if_neg (not_not.mpr hpayload)]
  exact h₈.idle.bind (hacmd.bind (h₄.idle.bind (ends_ok _)))

theorem sdspiInit_empty (hinserted : s.inserted = false) (fuel : Nat) :
    sdspiInit t fuel s = .ok (-1, { s with selected := true }) := by
  have hsilent : (readBytes t 1000 { s with selected := false }).2 = { s with selected := false } :=
    readBytes_silent 1000 (Bool.and_false _)
  have hempty : (({ s with selected := true } : Link).inserted && true) = false := by
    rw [Bool.and_true]
    exact hinserted
  have hexec : sdspiExecCmd t { s with selected := true } cmd0 = (0xFF, { s with selected := true }) := by
    have hsent (cmd : List UInt8) : cmd.foldl (fun s b => (s.exchange t b).2) { s with selected := true } =
        { s with selected := true } := by
      induction cmd with
      | nil => rfl
      | cons b cmd ih =>
        rw [List.foldl_cons, exchange_silent hempty]
        exact ih
    rw [sdspiExecCmd, hsent]
    exact pollReply_silent 8000 hempty
  unfold sdspiInit
  simp only [hsilent, hexec]
  rfl

end Init

end OsSuite.SdCard
