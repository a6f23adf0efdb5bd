import OsSuite.Words

/-! An SD card on the SPI bus, as its documents describe it: the bytes that it puts on the bus for
those that the driver sends. How long it takes for an answer, and whether it is busy behind one,
is left to `Timing`. -/

namespace OsSuite.SdCard

/-- Where the card is in its initialization, with the tries of ACMD41 that it still refuses. -/
inductive Phase where
  | off
  | idle (tries : Nat)
  | app (tries : Nat)
  | ready

structure Card where
  block : UInt32 → Fin 512 → UInt8
  phase : Phase
  commands : Nat

/-- What the documents leave open about the answer to each command. -/
structure Timing where
  delay : Nat → Nat
  gap : Nat → Nat
  crc : Nat → UInt8 × UInt8
  busy : Nat → List UInt8
  tries : Nat

/-- The status comes before the driver gives up, and no busy byte is `0xFF`. -/
structure Timing.Documented (t : Timing) : Prop where
  delay : ∀ n, t.delay n < 8000
  busy : ∀ n, ∀ b ∈ t.busy n, b ≠ 0xFF

structure Command where
  idx : UInt8
  arg : UInt32
deriving DecidableEq

/-- The command in six bytes, its argument with the highest byte first. -/
def Command.of (bytes : List UInt8) : Command :=
  ⟨bytes.getD 0 0 &&& 63, Words.load (fun k => bytes.getD (4 - k) 0) 0⟩

/-- The data token, the block and its checksum. -/
def Card.packet (t : Timing) (c : Card) (blockNo : UInt32) : List UInt8 :=
  0xFE :: (List.ofFn (c.block blockNo) ++ [(t.crc c.commands).1, (t.crc c.commands).2])

/-- The bytes of an answer from the status on. -/
def Card.answer (t : Timing) (c : Card) (cmd : Command) : List UInt8 × Phase :=
  if cmd.idx = 0 then ([1], .idle t.tries)
  else match c.phase with
    | .off => ([], .off)
    | .idle n =>
      if cmd.idx = 8 then ([1, 0, 0, Words.byte cmd.arg 1 &&& 15, Words.byte cmd.arg 0], .idle n)
      else if cmd.idx = 55 then ([1], .app n)
      else ([5], .idle n)
    | .app 0 => if cmd.idx = 41 then ([0], .ready) else ([5], .idle 0)
    | .app (n + 1) => if cmd.idx = 41 then ([1], .idle n) else ([5], .idle (n + 1))
    | .ready =>
      if cmd.idx = 17 then (0 :: (List.replicate (t.gap c.commands) 0xFF ++ c.packet t cmd.arg), .ready)
      else ([4], .ready)

/-- The bus: the bytes that the card still has to send, and those of a command that it has so far. -/
structure Link where
  card : Card
  inserted : Bool
  selected : Bool
  out : List UInt8
  cmd : List UInt8

/-- The card takes a command of six bytes. -/
def Link.take (t : Timing) (s : Link) (cmd : List UInt8) : Link :=
  let (answer, phase) := s.card.answer t (Command.of cmd)
  { s with
    card := { s.card with phase := phase, commands := s.card.commands + 1 }
    out := List.replicate (t.delay s.card.commands) 0xFF ++ answer ++ t.busy s.card.commands
    cmd := [] }

/-- A byte to the card and the byte that comes back meanwhile. -/
def Link.exchange (t : Timing) (s : Link) (byte : UInt8) : UInt8 × Link :=
  if s.inserted && s.selected then
    match s.out with
    | x :: out => (x, { s with out := out })
    | [] =>
      if s.cmd = [] ∧ byte = 0xFF then (0xFF, s)
      else if s.cmd.length < 5 then (0xFF, { s with cmd := s.cmd ++ [byte] })
      else (0xFF, s.take t (s.cmd ++ [byte]))
  else (0xFF, s)

/-- The card listens, or sends the bytes `out`. -/
structure Link.Sending (s : Link) (out : List UInt8) : Prop where
  inserted : s.inserted = true
  selected : s.selected = true
  out : s.out = out
  cmd : s.cmd = []

/-- The bus when the card has still to send `out`. -/
def Link.left (s : Link) (out : List UInt8) : Link := { s with out := out }

@[simp] theorem Link.left_left (s : Link) (out out' : List UInt8) : (s.left out).left out' = s.left out' := rfl

variable {t : Timing} {s : Link} {out : List UInt8} {x byte : UInt8}

theorem Link.Sending.left {out' : List UInt8} (h : s.Sending out') (out : List UInt8) : (s.left out).Sending out :=
  ⟨h.inserted, h.selected, rfl, h.cmd⟩

theorem Link.Sending.exchange (h : s.Sending (x :: out)) (byte : UInt8) :
    s.exchange t byte = (x, s.left out) := by
  obtain ⟨hinserted, hselected, hout, -⟩ := h
  obtain ⟨card, inserted, selected, out', cmd⟩ := s
  subst hinserted hselected hout
  rfl

theorem Link.Sending.exchange_idle (h : s.Sending []) : s.exchange t 0xFF = (0xFF, s) := by
  rw [Link.exchange, h.inserted, h.selected, h.out, h.cmd]
  rfl

theorem Link.Sending.left_self (h : s.Sending out) : s.left out = s := by
  obtain ⟨-, -, rfl, -⟩ := h
  rfl

/-- Six bytes are a command, unless the first of them is what the card takes for silence. -/
theorem Link.Sending.command (h : s.Sending []) {b₀ b₁ b₂ b₃ b₄ b₅ : UInt8} (hb : b₀ ≠ 0xFF) :
    [b₀, b₁, b₂, b₃, b₄, b₅].foldl (fun s b => (s.exchange t b).2) s = s.take t [b₀, b₁, b₂, b₃, b₄, b₅] := by
  obtain ⟨hinserted, hselected, hout, hcmd⟩ := h
  obtain ⟨card, inserted, selected, out, cmd⟩ := s
  subst hinserted hselected hout hcmd
  simp [Link.exchange, Link.take, hb]

theorem Link.Sending.take (h : s.Sending []) (cmd : List UInt8) :
    (s.take t cmd).Sending (List.replicate (t.delay s.card.commands) 0xFF ++
      (s.card.answer t (Command.of cmd)).1 ++ t.busy s.card.commands) :=
  ⟨h.inserted, h.selected, rfl, rfl⟩

end OsSuite.SdCard
