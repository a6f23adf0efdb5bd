import OsSuite.TreediskRefinement

/-! The size of a file over a run of writes: it covers each offset written, and what a read
reaches stays within reach, up to the write at the last offset of the range. -/

namespace OsSuite.Treedisk

/-- What a completed write keeps. -/
structure Kept (d : Disk) (w : WriteCall) (d' : Disk) : Prop where
  size : ∃ n n', treediskGetsize d w.key = .ok n ∧ treediskGetsize d' w.key = .ok n' ∧
    n'.toNat = max n.toNat (w.offset.toNat + 1)
  written : ∃ block, treediskRead d' w.key w.offset = .ok block
  reads : ∀ ino off block, treediskRead d ino off = .ok block → ∃ block', treediskRead d' ino off = .ok block'

/-- Each write of the run keeps what it must, in the state that the writes before it reach. -/
def RunKeeps : Disk → List WriteCall → Prop
  | _, [] => True
  | d, w :: ws => ∀ d', treediskWrite d w.key w.offset w.value = .ok d' → Kept d w d' ∧ RunKeeps d' ws

section Intact

variable {d d' : Disk} {free free' : Multiset Nat} {ino : UInt32} {w : WriteCall} {ws : List WriteCall}

theorem runWrites_cons {d₁ : Disk} (h : runWrites d (w :: ws) = .ok d₁) :
    ∃ d', treediskWrite d w.key w.offset w.value = .ok d' ∧ runWrites d' ws = .ok d₁ := by
  rw [runWrites, List.foldlM_cons] at h
  exact bind_eq_ok h

theorem Intact.getsize (h : Intact d free) (hk : ValidIno d ino) :
    treediskGetsize d ino = .ok (nblocksOf d.data ino.toNat) := by
  rw [treediskGetsize, treediskGetSnapshot_eq h hk]
  rfl

/-- A read succeeds for a valid inode and an offset within its size, and for no other. -/
theorem Intact.read_ok_iff (h : Intact d free) (off : BlockNo) :
    (∃ block, treediskRead d ino off = .ok block) ↔
      ValidIno d ino ∧ off.toNat < (nblocksOf d.data ino.toNat).toNat := by
  by_cases hk : ino.toNat < ninodes d.data
  · rw [treediskRead_eq h hk]
    by_cases hoff : (nblocksOf d.data ino.toNat).toNat ≤ off.toNat
    · simp [hoff]
    · rw [if_neg hoff]
      exact ⟨fun _ => ⟨hk, by omega⟩, fun _ => ⟨_, rfl⟩⟩
  · have hzero : (0 : BlockNo).toNat < d.size.toNat := by
      have hroom := h.room
      rw [UInt32.toNat_zero]
      omega
    have hcheck : ino ≥ (d.data 0).nInodeblocks * inodesPerBlock.toUInt32 := by
      rw [ninodes_check h]
      omega
    have hfail : treediskGetSnapshot d ino = .error .fail := by
      simp only [treediskGetSnapshot, Disk.read_of_lt hzero, orFail, UInt32.toNat_zero]
      exact if_pos hcheck
    have hread : treediskRead d ino off = .error .fail := by
      rw [treediskRead, hfail]
      rfl
    rw [hread]
    constructor
    · rintro ⟨block, hblock⟩
      cases hblock
    · rintro ⟨hvalid, _⟩
      exact absurd hvalid hk

/-- A write below the last offset keeps the size, the offset written and all reads. -/
theorem Written.kept (h : Intact d free) (hk : ValidIno d w.key)
    (hw : Written d w.key.toNat w.offset w.value d') : Kept d w d' := by
  obtain ⟨free', h'⟩ := hw.intact
  have hvalid : ∀ ino, ValidIno d' ino ↔ ValidIno d ino := fun ino => ValidIno.of_reserved hw.reserved
  have hsize := hw.nblocks
  refine ⟨⟨_, _, h.getsize hk, h'.getsize ((hvalid _).mpr hk), hsize⟩, ?_, ?_⟩
  · rw [h'.read_ok_iff]
    exact ⟨(hvalid _).mpr hk, by omega⟩
  · intro ino off block hread
    obtain ⟨hino, hoff⟩ := (h.read_ok_iff off).mp ⟨block, hread⟩
    rw [h'.read_ok_iff]
    refine ⟨(hvalid _).mpr hino, ?_⟩
    by_cases hsame : ino.toNat = w.key.toNat
    · rw [hsame] at hoff ⊢
      omega
    · rw [hw.nblocks_other _ hino hsame]
      exact hoff

theorem RunKeeps.of_offsets (h : Intact d free) (hws : ∀ w ∈ ws, ValidWrite d w) : RunKeeps d ws := by
  induction ws generalizing d free with
  | nil => trivial
  | cons w ws ih =>
    intro d' hwrite
    have hw := hws w List.mem_cons_self
    have hwritten := (treediskWrite_spec h hw.ino hw.offset).of_ok hwrite
    obtain ⟨free', h'⟩ := hwritten.intact
    refine ⟨hwritten.kept h hw.ino, ih h' ?_⟩
    intro u hu
    exact (hws u (List.mem_cons_of_mem w hu)).of_reserved hwritten.reserved

theorem Kept.offset_ne (h : Kept d w d') : w.offset.toNat ≠ 2 ^ 32 - 1 := by
  obtain ⟨n, n', _, _, hsize⟩ := h.size
  have hlt := n'.toNat_lt
  omega

theorem RunKeeps.offsets {d₁ : Disk} (h : RunKeeps d ws) (hrun : runWrites d ws = .ok d₁) :
    ∀ w ∈ ws, w.offset.toNat ≠ 2 ^ 32 - 1 := by
  induction ws generalizing d with
  | nil => simp
  | cons w ws ih =>
    obtain ⟨d', hwrite, hrest⟩ := runWrites_cons hrun
    obtain ⟨hkept, hkeeps⟩ := h d' hwrite
    exact List.forall_mem_cons.mpr ⟨hkept.offset_ne, ih hkeeps hrest⟩

end Intact

/-- The writes of a run keep sizes and reads exactly if none of them is at the last offset. -/
theorem writes_keep_size_iff {d₀ d₁ d₂ : Disk} {ninodes : UInt32} (ws : List WriteCall)
    (hzero : d₀.data 0 = nullBlock) (hcreate : treediskCreate d₀ ninodes = .ok d₁)
    (hws : ∀ w ∈ ws, ValidIno d₁ w.key) (hrun : runWrites d₁ ws = .ok d₂) :
    RunKeeps d₁ ws ↔ ∀ w ∈ ws, w.offset.toNat ≠ 2 ^ 32 - 1 := by
  constructor
  · intro hkeeps
    exact hkeeps.offsets hrun
  · intro hoffsets
    have hformat := ((treediskCreate_spec hzero ninodes).of_ok hcreate).2
    refine RunKeeps.of_offsets hformat.intact fun w hw => ⟨hws w hw, ?_⟩
    have hlt := w.offset.toNat_lt
    have hne := hoffsets w hw
    omega

theorem writes_keep_size_iff_sample : RunKeeps sampleFormatted sampleWrites := by
  obtain ⟨d, hd⟩ := sampleWrites_run
  have hiff := writes_keep_size_iff sampleWrites (show sampleDisk.data 0 = nullBlock from rfl)
    (show treediskCreate sampleDisk 1 = .ok sampleFormatted from rfl)
    (fun w hw => (sampleWrites_valid w hw).ino) hd
  exact hiff.mpr fun w hw => Nat.ne_of_lt (sampleWrites_valid w hw).offset

/-- A file of one block, and the file after a write at the last offset. -/
def sampleShort : Disk := (treediskWrite sampleFormatted 3 0 nullBlock).toOption.getD sampleDisk

def sampleWrapped : Disk := (treediskWrite sampleShort 3 0xFFFFFFFF nullBlock).toOption.getD sampleDisk

/-- The write at the last offset succeeds and leaves the file with size 0, its block out of reach. -/
theorem size_wraps : treediskWrite sampleFormatted 3 0 nullBlock = .ok sampleShort ∧
    treediskWrite sampleShort 3 0xFFFFFFFF nullBlock = .ok sampleWrapped ∧
    treediskGetsize sampleShort 3 = .ok 1 ∧ treediskGetsize sampleWrapped 3 = .ok 0 ∧
    ¬Kept sampleShort ⟨3, 0xFFFFFFFF, nullBlock⟩ sampleWrapped := by
  refine ⟨eq_ok_getD ?_, eq_ok_getD ?_, ok_of_toOption ?_, ok_of_toOption ?_, ?_⟩
  · decide +kernel
  · decide +kernel
  · decide +kernel
  · decide +kernel
  · intro hkept
    exact hkept.offset_ne rfl

end OsSuite.Treedisk
