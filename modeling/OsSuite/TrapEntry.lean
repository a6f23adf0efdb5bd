import OsSuite.Process

/-! `trap_entry`, the code that the hardware jumps to at a trap. It moves the registers of the
running process to the kernel stack, and those of the next process back. -/

namespace OsSuite.Grass

/-- The registers that hold something. -/
inductive Reg where
  | ra | sp | gp | tp
  | t0 | t1 | t2 | t3 | t4 | t5 | t6
  | s0 | s1 | s2 | s3 | s4 | s5 | s6 | s7 | s8 | s9 | s10 | s11
  | a0 | a1 | a2 | a3 | a4 | a5 | a6 | a7
  deriving DecidableEq

structure Machine where
  regs : Reg → UInt32
  pc : UInt32
  mepc : UInt32
  mscratch : UInt32
  /-- The words of memory, by their addresses. -/
  mem : UInt32 → UInt32

/-- The instructions of `trap_entry`. The only CSR that they name is `mscratch`. -/
inductive Instr where
  | csrw (rs : Reg)
  | csrr (rd : Reg)
  | li (rd : Reg) (imm : UInt32)
  | addi (rd rs : Reg) (imm : UInt32)
  | sw (rs : Reg) (offset : UInt32)
  | lw (rd : Reg) (offset : UInt32)
  | callKernelEntry
  | mret

namespace Machine

def write (m : Machine) (rd : Reg) (w : UInt32) : Machine := { m with regs := Function.update m.regs rd w }

@[simp] theorem write_self (m : Machine) (rd : Reg) (w : UInt32) : (m.write rd w).regs rd = w :=
  Function.update_self _ _ _

theorem write_of_ne (m : Machine) {rd r : Reg} (w : UInt32) (h : r ≠ rd) :
    (m.write rd w).regs r = m.regs r := Function.update_of_ne h _ _

def store (m : Machine) (addr w : UInt32) : Machine := { m with mem := Function.update m.mem addr w }

/-- One step of the code. Loads and stores are relative to `sp`. -/
inductive Step (kernelEntry : Machine → Machine → Prop) : Instr → Machine → Machine → Prop where
  | csrw (m : Machine) (rs : Reg) : Step kernelEntry (.csrw rs) m { m with mscratch := m.regs rs }
  | csrr (m : Machine) (rd : Reg) : Step kernelEntry (.csrr rd) m (m.write rd m.mscratch)
  | li (m : Machine) (rd : Reg) (imm : UInt32) : Step kernelEntry (.li rd imm) m (m.write rd imm)
  | addi (m : Machine) (rd rs : Reg) (imm : UInt32) :
    Step kernelEntry (.addi rd rs imm) m (m.write rd (m.regs rs + imm))
  | sw (m : Machine) (rs : Reg) (offset : UInt32) :
    Step kernelEntry (.sw rs offset) m (m.store (m.regs .sp + offset) (m.regs rs))
  | lw (m : Machine) (rd : Reg) (offset : UInt32) :
    Step kernelEntry (.lw rd offset) m (m.write rd (m.mem (m.regs .sp + offset)))
  | call {m m' : Machine} (h : kernelEntry m m') : Step kernelEntry .callKernelEntry m m'
  | mret (m : Machine) : Step kernelEntry .mret m { m with pc := m.mepc }

inductive Exec (kernelEntry : Machine → Machine → Prop) : List Instr → Machine → Machine → Prop where
  | nil (m : Machine) : Exec kernelEntry [] m m
  | cons {i : Instr} {is : List Instr} {m m₁ m' : Machine} (hstep : Step kernelEntry i m m₁)
    (hrest : Exec kernelEntry is m₁ m') : Exec kernelEntry (i :: is) m m'

end Machine

/-- Where Step 3 stores the registers, and Step 5 loads them from. -/
def savedAt : List (Reg × UInt32) :=
  [(.a0, 0), (.a1, 4), (.a2, 8), (.a3, 12), (.a4, 16), (.a5, 20), (.a6, 24), (.a7, 28),
    (.t0, 32), (.t1, 36), (.t2, 40), (.t3, 44), (.t4, 48), (.t5, 52), (.t6, 56),
    (.s0, 60), (.s1, 64), (.s2, 68), (.s3, 72), (.s4, 76), (.s5, 80), (.s6, 84), (.s7, 88),
    (.s8, 92), (.s9, 96), (.s10, 100), (.s11, 104), (.ra, 108), (.gp, 112), (.tp, 116)]

def egosStackTop : UInt32 := 0x80200000

def savedRegisterAddr : UInt32 := egosStackTop - 128

def saveRegisters : List Instr := savedAt.map fun x => .sw x.1 x.2

def restoreRegisters : List Instr := savedAt.map fun x => .lw x.1 x.2

def trapEntry : List Instr :=
  [Instr.csrw .sp, Instr.li .sp egosStackTop, Instr.addi .sp .sp (-128)] ++ saveRegisters ++
    [Instr.csrr .t0, Instr.sw .t0 120, Instr.callKernelEntry] ++ restoreRegisters ++
    [Instr.lw .sp 120, Instr.mret]

/-- The word of the saved area that is for a register. -/
def Reg.saved : Reg → Fin 32
  | .a0 => 0 | .a1 => 1 | .a2 => 2 | .a3 => 3 | .a4 => 4 | .a5 => 5 | .a6 => 6 | .a7 => 7
  | .t0 => 8 | .t1 => 9 | .t2 => 10 | .t3 => 11 | .t4 => 12 | .t5 => 13 | .t6 => 14
  | .s0 => 15 | .s1 => 16 | .s2 => 17 | .s3 => 18 | .s4 => 19 | .s5 => 20 | .s6 => 21 | .s7 => 22
  | .s8 => 23 | .s9 => 24 | .s10 => 25 | .s11 => 26 | .ra => 27 | .gp => 28 | .tp => 29 | .sp => 30

theorem saved_surjective : ∀ i : Fin 32, i = 31 ∨ i = Reg.sp.saved ∨ ∃ x ∈ savedAt, x.1.saved = i := by decide

theorem mem_savedAt : ∀ r : Reg, r = .sp ∨ (r, UInt32.ofNat (4 * r.saved.val)) ∈ savedAt := by
  intro r
  cases r <;> first | exact Or.inl rfl | exact Or.inr (by decide)

namespace Machine

/-- `SAVED_REGISTER_ADDR`, as an array of words. -/
def savedArea (m : Machine) (i : Fin 32) : UInt32 :=
  m.mem (savedRegisterAddr + UInt32.ofNat (4 * i.val))

variable {kernelEntry : Machine → Machine → Prop} {m m₁ m₂ m' : Machine} {l : List (Reg × UInt32)}

theorem Exec.append {is js : List Instr} (h : Exec kernelEntry (is ++ js) m m') :
    ∃ m₁, Exec kernelEntry is m m₁ ∧ Exec kernelEntry js m₁ m' := by
  induction is generalizing m with
  | nil => exact ⟨m, .nil m, h⟩
  | cons i is ih =>
    cases h with
    | cons hstep hrest =>
      obtain ⟨m₁, hfirst, hlast⟩ := ih hrest
      exact ⟨m₁, .cons hstep hfirst, hlast⟩

theorem Exec.saves (hnodup : (l.map Prod.snd).Nodup)
    (h : Exec kernelEntry (l.map fun x => .sw x.1 x.2) m m') :
    m'.regs = m.regs ∧ m'.mepc = m.mepc ∧ m'.mscratch = m.mscratch ∧
      (∀ x ∈ l, m'.mem (m.regs .sp + x.2) = m.regs x.1) ∧
      ∀ a, (∀ x ∈ l, a ≠ m.regs .sp + x.2) → m'.mem a = m.mem a := by
  induction l generalizing m with
  | nil =>
    cases h
    exact ⟨rfl, rfl, rfl, nofun, fun _ _ => rfl⟩
  | cons x l ih =>
    obtain ⟨hx, hnodup⟩ := List.nodup_cons.mp hnodup
    cases h with
    | cons hstep hrest =>
      cases hstep
      obtain ⟨hregs, hmepc, hscratch, hsaved, hother⟩ := ih hnodup hrest
      refine ⟨hregs, hmepc, hscratch, fun y hy => ?_, fun a ha => ?_⟩
      · rcases List.mem_cons.mp hy with rfl | hy
        · have hapart : ∀ z ∈ l, m.regs .sp + y.2 ≠ m.regs .sp + z.2 := by
            intro z hz he
            exact hx (UInt32.add_right_inj _ |>.mp he ▸ List.mem_map_of_mem hz)
          exact (hother _ hapart).trans (Function.update_self _ _ _)
        · exact hsaved y hy
      · rw [hother a fun y hy => ha y (List.mem_cons_of_mem x hy)]
        exact Function.update_of_ne (ha x List.mem_cons_self) _ _

theorem Exec.loads (hnodup : (l.map Prod.fst).Nodup) (hsp : Reg.sp ∉ l.map Prod.fst)
    (h : Exec kernelEntry (l.map fun x => .lw x.1 x.2) m m') :
    m'.mem = m.mem ∧ m'.mepc = m.mepc ∧ (∀ x ∈ l, m'.regs x.1 = m.mem (m.regs .sp + x.2)) ∧
      ∀ r ∉ l.map Prod.fst, m'.regs r = m.regs r := by
  induction l generalizing m with
  | nil =>
    cases h
    exact ⟨rfl, rfl, nofun, fun _ _ => rfl⟩
  | cons x l ih =>
    obtain ⟨hx, hnodup⟩ := List.nodup_cons.mp hnodup
    obtain ⟨hxsp, hsp⟩ := not_or.mp (mt List.mem_cons.mpr hsp)
    cases h with
    | cons hstep hrest =>
      cases hstep
      obtain ⟨hmem, hmepc, hloaded, hother⟩ := ih hnodup hsp hrest
      rw [write_of_ne m _ hxsp] at hloaded
      refine ⟨hmem, hmepc, fun y hy => ?_, fun r hr => ?_⟩
      · rcases List.mem_cons.mp hy with rfl | hy
        · exact (hother _ hx).trans (write_self m _ _)
        · exact hloaded y hy
      · obtain ⟨hrx, hr⟩ := not_or.mp (mt List.mem_cons.mpr hr)
        exact (hother r hr).trans (write_of_ne m _ hrx)

/-- `kernel_entry` is called with the registers in the saved area, and finds `sp` below them. -/
structure Saves (m m₁ : Machine) : Prop where
  area : ∀ r : Reg, m₁.savedArea r.saved = m.regs r
  unused : m₁.savedArea 31 = m.savedArea 31
  mepc : m₁.mepc = m.mepc
  sp : m₁.regs .sp = savedRegisterAddr

/-- The process goes on with the registers that `kernel_entry` leaves in the saved area. -/
structure Restores (m₂ m' : Machine) : Prop where
  regs : ∀ r : Reg, m'.regs r = m₂.savedArea r.saved
  pc : m'.pc = m₂.mepc

/-- The machine after Step 2 and the move of `sp`. -/
def onKernelStack (m : Machine) : Machine :=
  { m with mscratch := m.regs .sp, regs := Function.update m.regs .sp savedRegisterAddr }

/-- The machine in which `kernel_entry` is called. -/
def calling (m : Machine) : Machine :=
  (m.write .t0 m.mscratch).store (m.regs .sp + 120) m.mscratch

def returned (m : Machine) : Machine := { m.write .sp (m.mem (m.regs .sp + 120)) with pc := m.mepc }

theorem Exec.start (h : Exec kernelEntry [.csrw .sp, .li .sp egosStackTop, .addi .sp .sp (-128)] m m') :
    m' = m.onKernelStack := by
  cases h with
  | cons hscratch h =>
    cases hscratch
    cases h with
    | cons hli h =>
      cases hli
      cases h with
      | cons haddi h =>
        cases haddi
        cases h
        simp only [write, Function.update_self, Function.update_idem]
        rfl

theorem Exec.call (h : Exec kernelEntry [.csrr .t0, .sw .t0 120, .callKernelEntry] m m') :
    kernelEntry m.calling m' := by
  cases h with
  | cons hcsrr h =>
    cases hcsrr
    cases h with
    | cons hsw h =>
      cases hsw
      cases h with
      | cons hcall h =>
        cases h
        cases hcall with
        | call hentry =>
          rw [write_of_ne m _ (show Reg.sp ≠ .t0 by decide), write_self] at hentry
          exact hentry

theorem Exec.finish (h : Exec kernelEntry [.lw .sp 120, .mret] m m') : m' = m.returned := by
  cases h with
  | cons hlw h =>
    cases hlw
    cases h with
    | cons hmret h =>
      cases hmret
      cases h
      rfl

theorem Saves.of_exec (h : Exec kernelEntry saveRegisters m.onKernelStack m₂) :
    m.Saves m₂.calling := by
  obtain ⟨hregs, hmepc, hscratch, hsaved, hother⟩ := Exec.saves (by decide) h
  have hsp : m₂.regs .sp = savedRegisterAddr := by
    rw [hregs]
    exact Function.update_self Reg.sp savedRegisterAddr m.regs
  have hold : m₂.mscratch = m.regs .sp := hscratch
  rw [← hregs, hsp] at hsaved hother
  rw [hregs] at hsaved
  refine ⟨fun r => ?_, ?_, hmepc, (write_of_ne m₂ m₂.mscratch (show Reg.sp ≠ .t0 by decide)).trans hsp⟩
  · change Function.update m₂.mem (m₂.regs .sp + 120) m₂.mscratch _ = _
    rw [hsp, hold]
    rcases mem_savedAt r with rfl | hr
    · exact Function.update_self (savedRegisterAddr + 120) (m.regs .sp) m₂.mem
    · have hapart : ∀ x ∈ savedAt, savedRegisterAddr + x.2 ≠ savedRegisterAddr + 120 := by decide
      have hne : ∀ x ∈ savedAt, x.1 ≠ .sp := by decide
      have hkept : m.onKernelStack.regs r = m.regs r := Function.update_of_ne (hne _ hr) _ _
      exact (Function.update_of_ne (hapart _ hr) (m.regs .sp) m₂.mem).trans ((hsaved _ hr).trans hkept)
  · have hapart : ∀ x ∈ savedAt, savedRegisterAddr + 124 ≠ savedRegisterAddr + x.2 := by decide
    change Function.update m₂.mem (m₂.regs .sp + 120) m₂.mscratch (savedRegisterAddr + 124) = _
    rw [hsp, Function.update_of_ne (show savedRegisterAddr + 124 ≠ savedRegisterAddr + 120 by decide)]
    exact hother _ hapart

theorem Restores.of_exec (hsp : m₁.regs .sp = savedRegisterAddr)
    (h : Exec kernelEntry restoreRegisters m₁ m₂) : m₁.Restores m₂.returned := by
  obtain ⟨hmem, hmepc, hloaded, hother⟩ := Exec.loads (by decide) (by decide) h
  refine ⟨fun r => ?_, hmepc⟩
  change (m₂.write .sp (m₂.mem (m₂.regs .sp + 120))).regs r = _
  rw [hmem, hother .sp (by decide), hsp]
  rcases mem_savedAt r with rfl | hr
  · exact write_self m₂ _ _
  · have hne : ∀ x ∈ savedAt, x.1 ≠ .sp := by decide
    have hword := hloaded _ hr
    rw [hsp] at hword
    exact (write_of_ne m₂ _ (hne _ hr)).trans hword

theorem Exec.concat {is js : List Instr} (h : Exec kernelEntry is m m₁) (h' : Exec kernelEntry js m₁ m') :
    Exec kernelEntry (is ++ js) m m' := by
  induction h with
  | nil m => exact h'
  | cons hstep _ ih => exact .cons hstep (ih h')

theorem exists_saves (kernelEntry : Machine → Machine → Prop) (l : List (Reg × UInt32)) (m : Machine) :
    ∃ m', Exec kernelEntry (l.map fun x => .sw x.1 x.2) m m' := by
  induction l generalizing m with
  | nil => exact ⟨m, .nil m⟩
  | cons x l ih =>
    obtain ⟨m', h⟩ := ih (m.store (m.regs .sp + x.2) (m.regs x.1))
    exact ⟨m', .cons (.sw m x.1 x.2) h⟩

theorem exists_loads (kernelEntry : Machine → Machine → Prop) (l : List (Reg × UInt32)) (m : Machine) :
    ∃ m', Exec kernelEntry (l.map fun x => .lw x.1 x.2) m m' := by
  induction l generalizing m with
  | nil => exact ⟨m, .nil m⟩
  | cons x l ih =>
    obtain ⟨m', h⟩ := ih (m.write x.1 (m.mem (m.regs .sp + x.2)))
    exact ⟨m', .cons (.lw m x.1 x.2) h⟩

/-- The code runs to its end whenever `kernel_entry` returns. -/
theorem exists_trapEntry (kernelEntry : Machine → Machine → Prop) (m : Machine) :
    ∃ m₁, m.Saves m₁ ∧ ∀ m₂, kernelEntry m₁ m₂ → ∃ m', Exec kernelEntry trapEntry m m' := by
  have hstart : Exec kernelEntry [.csrw .sp, .li .sp egosStackTop, .addi .sp .sp (-128)] m m.onKernelStack := by
    have haddi : ({ m with mscratch := m.regs .sp }.write .sp egosStackTop).write .sp
        (({ m with mscratch := m.regs .sp }.write .sp egosStackTop).regs .sp + -128) = m.onKernelStack := by
      simp only [write, Function.update_self, Function.update_idem]
      rfl
    exact .cons (.csrw m .sp) (.cons (.li _ .sp egosStackTop) (.cons (haddi ▸ .addi _ .sp .sp (-128)) (.nil _)))
  obtain ⟨m₁, hsaves⟩ := exists_saves kernelEntry savedAt m.onKernelStack
  refine ⟨m₁.calling, .of_exec hsaves, fun m₂ hcall => ?_⟩
  obtain ⟨m₃, hloads⟩ := exists_loads kernelEntry savedAt m₂
  have hsw : Step kernelEntry (.sw .t0 120) (m₁.write .t0 m₁.mscratch) m₁.calling := by
    have hstep : Step kernelEntry (.sw .t0 120) _ _ := .sw (m₁.write .t0 m₁.mscratch) .t0 120
    rw [write_of_ne m₁ _ (show Reg.sp ≠ .t0 by decide), write_self] at hstep
    exact hstep
  have henter : Exec kernelEntry [.csrr .t0, .sw .t0 120, .callKernelEntry] m₁ m₂ :=
    .cons (.csrr m₁ .t0) (.cons hsw (.cons (.call hcall) (.nil m₂)))
  have hfinish : Exec kernelEntry [.lw .sp 120, .mret] m₃ m₃.returned :=
    .cons (.lw m₃ .sp 120) (.cons (.mret _) (.nil _))
  exact ⟨m₃.returned, (((hstart.concat hsaves).concat henter).concat hloads).concat hfinish⟩

/-- As long as `kernel_entry` keeps `sp`, as a function has to. -/
theorem exec_trapEntry (hsp : ∀ m₁ m₂, kernelEntry m₁ m₂ → m₂.regs .sp = m₁.regs .sp)
    (h : Exec kernelEntry trapEntry m m') :
    ∃ m₁ m₂, m.Saves m₁ ∧ kernelEntry m₁ m₂ ∧ m₂.Restores m' := by
  unfold trapEntry at h
  obtain ⟨m₄, h, hend⟩ := h.append
  obtain ⟨m₃, h, hloads⟩ := h.append
  obtain ⟨m₂, h, hcall⟩ := h.append
  obtain ⟨m₁, hstart, hsaves⟩ := h.append
  obtain rfl := hstart.start
  obtain rfl := hend.finish
  have hsaved := Saves.of_exec hsaves
  have hentry := hcall.call
  exact ⟨_, m₃, hsaved, hentry, .of_exec ((hsp _ _ hentry).trans hsaved.sp) hloads⟩

end Machine

end OsSuite.Grass
