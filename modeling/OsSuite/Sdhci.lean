import OsSuite.Sdspi

/-! The driver of the SD host controller of QEMU, against a controller with a card that is addressed
by bytes. -/

namespace OsSuite.SdCard

/-- The states of the card on the way to a transfer. -/
inductive State where
  | idle
  | app
  | ready
  | ident
  | standby
  | transfer
deriving DecidableEq

/-- How often the driver finds the controller busy. -/
structure Polls where
  reset : Nat
  busy : Nat → Nat
  done : Nat → Nat
  rca : UInt32

/-- The controller, the memory that it reaches, and the card. -/
structure Sdhci where
  mem : UInt32 → UInt8
  image : Nat → UInt8
  state : State
  dmaAddress : UInt32
  blkCntAndSize : UInt32
  argument : UInt32
  response0 : UInt32
  intStatEnable : UInt32
  resetPolls : Nat
  busyPolls : Nat
  donePolls : Nat
  commands : Nat

/-- The DMA of a read: `size` bytes from the byte address in the argument on. -/
def Sdhci.dma (h : Sdhci) : UInt32 → UInt8 := fun a =>
  let size := (h.blkCntAndSize &&& 0xFFF).toNat * (h.blkCntAndSize >>> 16).toNat
  if (a - h.dmaAddress).toNat < size then h.image (h.argument.toNat + (a - h.dmaAddress).toNat) else h.mem a

/-- What the card does for a command, with `v` in the register. -/
def Sdhci.execute (p : Polls) (h : Sdhci) (v : UInt32) : Sdhci :=
  let idx := v >>> 24 &&& 63
  match h.state with
  | .idle => if idx = 55 then { h with state := .app } else h
  | .app => if idx = 41 ∧ h.argument ≠ 0 then { h with state := .ready } else h
  | .ready => if idx = 2 then { h with state := .ident } else h
  | .ident => if idx = 3 ∧ v >>> 16 &&& 3 ≠ 0 then { h with state := .standby, response0 := p.rca } else h
  | .standby => if idx = 7 ∧ h.argument >>> 16 = p.rca >>> 16 then { h with state := .transfer } else h
  | .transfer =>
    if idx = 17 ∧ v >>> 21 &&& 1 = 1 ∧ v &&& 0x11 = 0x11 then { h with mem := h.dma } else h

/-- A write to the command register. -/
def Sdhci.command (p : Polls) (h : Sdhci) (v : UInt32) : Sdhci :=
  let h' := h.execute p v
  { h' with busyPolls := p.busy h.commands, donePolls := p.done h.commands, commands := h.commands + 1 }

/-- `while (REGW(SDHCI_BASE, SDHCI_PRESENT_STATE) & 0x3);` -/
def waitPresent : Nat → Sdhci → Except Stop Sdhci
  | 0, _ => .error .running
  | fuel + 1, h => if h.busyPolls ≠ 0 then waitPresent fuel { h with busyPolls := h.busyPolls - 1 } else .ok h

/-- `while (!(REGW(SDHCI_BASE, SDHCI_INT_STAT) & 0x1));` -/
def waitDone : Nat → Sdhci → Except Stop Sdhci
  | 0, _ => .error .running
  | fuel + 1, h =>
    if h.intStatEnable &&& 1 = 0 ∨ h.donePolls ≠ 0 then waitDone fuel { h with donePolls := h.donePolls - 1 }
    else .ok h

/-- `while (REGB(SDHCI_BASE, SDHCI_SOFTWARE_RESET) & 0x1);` -/
def waitReset : Nat → Sdhci → Except Stop Sdhci
  | 0, _ => .error .running
  | fuel + 1, h => if h.resetPolls ≠ 0 then waitReset fuel { h with resetPolls := h.resetPolls - 1 } else .ok h

def cmdAndMode (idx flag mode : UInt32) : UInt32 := ((idx <<< 8 ||| flag) <<< 16) ||| mode

def sdhciExecCmd (p : Polls) (fuel : Nat) (h : Sdhci) (idx arg flag mode : UInt32) : Except Stop Sdhci := do
  let h ← waitPresent fuel h
  let h := { h with argument := arg }
  waitDone fuel (h.command p (cmdAndMode idx flag mode))

def dataPresentFlag : UInt32 := (1 : UInt32) <<< 5

def readWithDmaEnableMode : UInt32 := (1 : UInt32) <<< 4 ||| (1 : UInt32) <<< 0

/-- The bytes that `memcpy` takes from the aligned buffer, which is at `alignedBuf`. -/
def sdhciRead (p : Polls) (fuel : Nat) (alignedBuf : UInt32) (h : Sdhci) (offset : UInt32) :
    Except Stop (List UInt8 × Sdhci) := do
  let h := { h with dmaAddress := alignedBuf, blkCntAndSize := (1 : UInt32) <<< 16 ||| 512 }
  let h ← sdhciExecCmd p fuel h 17 (offset * 512) dataPresentFlag readWithDmaEnableMode
  return (List.ofFn fun x : Fin 512 => h.mem (alignedBuf + UInt32.ofNat x.val), h)

/-- From the reset on. The registers that the controller model does not look at are left out. -/
def sdhciInit (p : Polls) (fuel : Nat) (h : Sdhci) : Except Stop Sdhci := do
  let h := { h with state := .idle, resetPolls := p.reset, busyPolls := 0, donePolls := 0 }
  let h ← waitReset fuel h
  let h := { h with intStatEnable := 0x27F003B }
  let h ← sdhciExecCmd p fuel h 55 0 0 0
  let h ← sdhciExecCmd p fuel h 41 0xFFF0000 0 0
  let h ← sdhciExecCmd p fuel h 2 0 0 0
  let h ← sdhciExecCmd p fuel h 3 0 2 0
  sdhciExecCmd p fuel h 7 h.response0 0 0

section Loops

variable {h : Sdhci}

theorem waitPresent_ends (h : Sdhci) : Ends (waitPresent · h) { h with busyPolls := 0 } := by
  refine ends_of_le (n := h.busyPolls + 1) fun fuel hfuel => ?_
  induction fuel generalizing h with
  | zero => exact absurd hfuel (Nat.not_succ_le_zero _)
  | succ fuel ih =>
    rw [waitPresent]
    split
    · rename_i hbusy
      exact ih _ (by dsimp only; omega)
    · rename_i hidle
      rw [not_not] at hidle
      rw [← hidle]

theorem waitDone_ends (henable : h.intStatEnable &&& 1 ≠ 0) : Ends (waitDone · h) { h with donePolls := 0 } := by
  refine ends_of_le (n := h.donePolls + 1) fun fuel hfuel => ?_
  induction fuel generalizing h with
  | zero => exact absurd hfuel (Nat.not_succ_le_zero _)
  | succ fuel ih =>
    rw [waitDone]
    split
    · rename_i hbusy
      have hpolls := hbusy.resolve_left henable
      exact @ih { h with donePolls := h.donePolls - 1 } henable (by dsimp only; omega)
    · rename_i hidle
      have hpolls : h.donePolls = 0 := not_not.mp (not_or.mp hidle).2
      rw [← hpolls]

theorem waitReset_ends (h : Sdhci) : Ends (waitReset · h) { h with resetPolls := 0 } := by
  refine ends_of_le (n := h.resetPolls + 1) fun fuel hfuel => ?_
  induction fuel generalizing h with
  | zero => exact absurd hfuel (Nat.not_succ_le_zero _)
  | succ fuel ih =>
    rw [waitReset]
    split
    · rename_i hbusy
      exact ih _ (by dsimp only; omega)
    · rename_i hidle
      rw [not_not] at hidle
      rw [← hidle]

end Loops

/-- The controller when a command is done. -/
def Sdhci.issued (p : Polls) (h : Sdhci) (idx arg flag mode : UInt32) : Sdhci :=
  { ({ h with busyPolls := 0, argument := arg } : Sdhci).command p (cmdAndMode idx flag mode) with donePolls := 0 }

section Commands

variable {p : Polls} {h : Sdhci} {idx arg flag mode : UInt32}

theorem execute_keeps (p : Polls) (h : Sdhci) (v : UInt32) : (h.execute p v).image = h.image ∧
    (h.execute p v).intStatEnable = h.intStatEnable := by
  unfold Sdhci.execute
  cases h.state <;> dsimp only <;> split <;> exact ⟨rfl, rfl⟩

theorem sdhciExecCmd_ends (henable : h.intStatEnable &&& 1 ≠ 0) :
    Ends (sdhciExecCmd p · h idx arg flag mode) (h.issued p idx arg flag mode) := by
  refine (waitPresent_ends h).bind (waitDone_ends ?_)
  rw [Sdhci.command]
  dsimp only
  rw [(execute_keeps p _ _).2]
  exact henable

/-- The controller after the commands up to `state`, with a card that holds `image`. -/
structure Sdhci.In (h : Sdhci) (state : State) (image : Nat → UInt8) : Prop where
  state : h.state = state
  image : h.image = image
  enable : h.intStatEnable &&& 1 ≠ 0

theorem Sdhci.In.issued {state state' : State} {image : Nat → UInt8} (h' : h.In state image) (p : Polls)
    (idx arg flag mode : UInt32)
    (hstate : (({ h with busyPolls := 0, argument := arg } : Sdhci).execute p
      (cmdAndMode idx flag mode)).state = state') :
    Ends (sdhciExecCmd p · h idx arg flag mode) (h.issued p idx arg flag mode) ∧
      (h.issued p idx arg flag mode).In state' image := by
  have hkeeps := execute_keeps p { h with busyPolls := 0, argument := arg } (cmdAndMode idx flag mode)
  refine ⟨sdhciExecCmd_ends h'.enable, hstate, hkeeps.1.trans h'.image, ?_⟩
  have henable := h'.enable
  rw [← show _ = h.intStatEnable from hkeeps.2] at henable
  exact henable

end Commands

section Init

variable {p : Polls} {h : Sdhci} {image : Nat → UInt8}

theorem sdhciInit_ends (himage : h.image = image) : ∃ h', Ends (sdhciInit p · h) h' ∧ h'.In .transfer image := by
  have henable : (0x27F003B : UInt32) &&& 1 ≠ 0 := by decide
  have h₀ : ({ h with state := .idle, resetPolls := 0, busyPolls := 0, donePolls := 0, intStatEnable := 0x27F003B } :
      Sdhci).In .idle image := ⟨rfl, himage, henable⟩
  have hreset := waitReset_ends { h with state := .idle, resetPolls := p.reset, busyPolls := 0, donePolls := 0 }
  generalize hs₀ : ({ h with state := .idle, resetPolls := 0, busyPolls := 0, donePolls := 0, intStatEnable := 0x27F003B } :
      Sdhci) = s₀ at h₀
  obtain ⟨hends₅₅, h₁⟩ : _ ∧ (s₀.issued p 55 0 0 0).In .app image := h₀.issued p 55 0 0 0
    (by rw [Sdhci.execute, show _ = State.idle from h₀.state]; rfl)
  generalize s₀.issued p 55 0 0 0 = s₁ at hends₅₅ h₁
  obtain ⟨hends₄₁, h₂⟩ : _ ∧ (s₁.issued p 41 0xFFF0000 0 0).In .ready image := h₁.issued p 41 0xFFF0000 0 0
    (by rw [Sdhci.execute, show _ = State.app from h₁.state]; rfl)
  generalize s₁.issued p 41 0xFFF0000 0 0 = s₂ at hends₄₁ h₂
  obtain ⟨hends₂, h₃⟩ : _ ∧ (s₂.issued p 2 0 0 0).In .ident image := h₂.issued p 2 0 0 0
    (by rw [Sdhci.execute, show _ = State.ready from h₂.state]; rfl)
  generalize s₂.issued p 2 0 0 0 = s₃ at hends₂ h₃
  obtain ⟨hends₃, h₄⟩ : _ ∧ (s₃.issued p 3 0 2 0).In .standby image := h₃.issued p 3 0 2 0
    (by rw [Sdhci.execute, show _ = State.ident from h₃.state]; rfl)
  have hrca : (s₃.issued p 3 0 2 0).response0 = p.rca := by
    rw [Sdhci.issued, Sdhci.command, Sdhci.execute, show _ = State.ident from h₃.state]
    rfl
  generalize s₃.issued p 3 0 2 0 = s₄ at hends₃ h₄ hrca
  obtain ⟨hends₇, h₅⟩ : _ ∧ (s₄.issued p 7 s₄.response0 0 0).In .transfer image := h₄.issued p 7 s₄.response0 0 0
    (by
      have haddressed : cmdAndMode 7 0 0 >>> 24 &&& 63 = 7 ∧ p.rca >>> 16 = p.rca >>> 16 :=
        ⟨by decide, rfl⟩
      rw [Sdhci.execute, show _ = State.standby from h₄.state, hrca]
      dsimp only
      rw [if_pos haddressed])
  refine ⟨_, ?_, h₅⟩
  unfold sdhciInit
  refine hreset.bind ?_
  dsimp only
  rw [hs₀]
  exact hends₅₅.bind (hends₄₁.bind (hends₂.bind (hends₃.bind hends₇)))

end Init

section Read

variable {h : Sdhci} {image : Nat → UInt8}

theorem Sdhci.dma_byte (h : Sdhci) (hblk : h.blkCntAndSize = (1 : UInt32) <<< 16 ||| 512) (x : Fin 512) :
    h.dma (h.dmaAddress + UInt32.ofNat x.val) = h.image (h.argument.toNat + x.val) := by
  have hx : (h.dmaAddress + UInt32.ofNat x.val - h.dmaAddress).toNat = x.val := by
    rw [UInt32.add_comm, UInt32.add_sub_cancel]
    exact UInt32.toNat_ofNat_of_lt' (x.isLt.trans (by decide))
  have hsize : x.val < ((((1 : UInt32) <<< 16 ||| 512) &&& 0xFFF).toNat *
      (((1 : UInt32) <<< 16 ||| 512) >>> 16).toNat) := x.isLt
  rw [Sdhci.dma, hblk, hx, if_pos hsize]

/-- A read takes the 512 bytes from the byte address on, which wraps. -/
theorem sdhciRead_ends (p : Polls) (alignedBuf : UInt32) (h' : h.In .transfer image) (offset : UInt32) :
    ∃ h₁, Ends (sdhciRead p · alignedBuf h offset)
      (List.ofFn fun x : Fin 512 => image ((offset * 512).toNat + x.val), h₁) ∧ h₁.In .transfer image := by
  obtain ⟨h₀, hh₀⟩ : ∃ h₀, ({ h with dmaAddress := alignedBuf, blkCntAndSize := (1 : UInt32) <<< 16 ||| 512 } :
      Sdhci) = h₀ := ⟨_, rfl⟩
  have hin₀ : h₀.In .transfer image := hh₀ ▸ ⟨h'.state, h'.image, h'.enable⟩
  have hread : cmdAndMode 17 dataPresentFlag readWithDmaEnableMode >>> 24 &&& 63 = 17 ∧
      cmdAndMode 17 dataPresentFlag readWithDmaEnableMode >>> 21 &&& 1 = 1 ∧
      cmdAndMode 17 dataPresentFlag readWithDmaEnableMode &&& 0x11 = 0x11 := by decide
  obtain ⟨hends, hin⟩ : _ ∧ (h₀.issued p 17 (offset * 512) dataPresentFlag readWithDmaEnableMode).In .transfer image :=
    hin₀.issued p 17 (offset * 512) dataPresentFlag readWithDmaEnableMode (by
      rw [Sdhci.execute, show _ = State.transfer from hin₀.state]
      dsimp only
      rw [if_pos hread])
  have hmem : (h₀.issued p 17 (offset * 512) dataPresentFlag readWithDmaEnableMode).mem =
      ({ h₀ with busyPolls := 0, argument := offset * 512 } : Sdhci).dma := by
    rw [Sdhci.issued, Sdhci.command, Sdhci.execute, show _ = State.transfer from hin₀.state]
    dsimp only
    rw [if_pos hread]
  refine ⟨_, ?_, hin⟩
  unfold sdhciRead
  dsimp only
  rw [hh₀]
  refine hends.bind ?_
  have hbytes (x : Fin 512) : (h₀.issued p 17 (offset * 512) dataPresentFlag readWithDmaEnableMode).mem
      (alignedBuf + UInt32.ofNat x.val) = image ((offset * 512).toNat + x.val) := by
    rw [hmem, ← hin₀.image, ← hh₀]
    exact Sdhci.dma_byte _ rfl x
  simp only [hbytes]
  exact ends_ok _

end Read

end OsSuite.SdCard
