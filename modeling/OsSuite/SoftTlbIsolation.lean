import OsSuite.SoftTlb

/-! Isolation by the software TLB: what the switched-in process sees in the
window is the content of its own memory, as if every process had one to itself. -/

namespace OsSuite.Earth

open CopyLoop

theorem poolPage_eq (i : PageId) : Mmu.poolPage i = 0x80400 + i.val := by
  have hi : i.val < 512 := i.isLt
  have hofNat : (UInt32.ofNat i.val).toNat = i.val := by
    simp only [UInt32.toNat_ofNat', Nat.reducePow]
    omega
  have hmul : (UInt32.ofNat i.val * 4096).toNat = i.val * 4096 := by
    rw [UInt32.toNat_mul, hofNat]
    exact Nat.mod_eq_of_lt (by simp; omega)
  rw [Mmu.poolPage, pageOf, pageIdToAddr, UInt32.toNat_add, hmul]
  simp only [appsPagesBase, pageSize, UInt32.reduceToNat, Nat.reducePow]
  omega

theorem poolPage_injective : Function.Injective Mmu.poolPage := by
  intro i j h
  rw [poolPage_eq, poolPage_eq] at h
  exact Fin.ext (by omega)

theorem pageNoToAddr_page {v : UInt32} (hv : v.toNat < 0x80400) : pageOf (pageNoToAddr v) = v.toNat := by
  rw [pageOf, pageNoToAddr, UInt32.toNat_mul]
  simp only [pageSize, UInt32.reduceToNat, Nat.reducePow]
  omega

theorem windowPage_ne_poolPage {v : UInt32} (hv : v.toNat < 0x80400) (i : PageId) :
    pageOf (pageNoToAddr v) ≠ Mmu.poolPage i := by
  rw [pageNoToAddr_page hv, poolPage_eq]
  omega

theorem mem_pagesOf {table : PageInfoTable} {pid : Pid} {i : PageId} :
    i ∈ Mmu.pagesOf table pid ↔ (table i).use ∧ (table i).pid = pid := by
  simp [Mmu.pagesOf]

/-- The calls of the kernel and the loader, and the accesses to memory between them. -/
inductive Op where
  | alloc
  | free (pid : Pid)
  | map (pid : Pid) (vpageNo : UInt32) (ppageId : PageId)
  | switch (pid : Pid)
  | translate (pid : Pid) (vaddr : UInt32)
  /-- The switched-in process stores a byte. -/
  | store (addr : UInt32) (byte : UInt8)
  /-- The loader stores a byte into an allocated page. -/
  | load (ppageId : PageId) (offset : Fin pageSize) (byte : UInt8)

def Op.step (m : Mmu) : Op → Except Fatal Mmu
  | .alloc => (·.2) <$> m.mmuAlloc
  | .free pid => .ok (m.mmuFree pid)
  | .map pid vpageNo ppageId => .ok (m.softTlbMap pid vpageNo ppageId)
  | .switch pid => .ok (m.softTlbSwitch pid)
  | .translate pid vaddr => .ok (m.softTlbTranslate pid vaddr).2
  | .store addr byte => .ok (m.store addr byte)
  | .load ppageId offset byte => .ok (m.store (pageIdToAddr ppageId + UInt32.ofNat offset.val) byte)

namespace Mmu

/-- The page belongs to an address space. An allocated page whose entry still
holds zeros does not yet. -/
def Mapped (m : Mmu) (i : PageId) : Prop :=
  (m.pageInfoTable i).use ∧ ((m.pageInfoTable i).pid ≠ 0 ∨ (m.pageInfoTable i).vpageNo ≠ 0)

instance (m : Mmu) (i : PageId) : Decidable (m.Mapped i) := by
  unfold Mapped
  infer_instance

end Mmu

/-- How the callers use the interface. -/
def Op.Allowed (m : Mmu) : Op → Prop
  | .free pid => pid ≠ m.currVmPid
  | .map pid vpageNo ppageId =>
    (m.pageInfoTable ppageId).use ∧ pid ≠ m.currVmPid ∧ vpageNo.toNat < appsPagesBase.toNat / pageSize ∧
      (pid ≠ 0 ∨ vpageNo ≠ 0) ∧
      ∀ j, m.Mapped j → ¬((m.pageInfoTable j).pid = pid ∧ (m.pageInfoTable j).vpageNo = vpageNo)
  | .store addr _ => addr < appsPagesBase
  | .load ppageId _ _ => ¬((m.pageInfoTable ppageId).use ∧ (m.pageInfoTable ppageId).pid = m.currVmPid)
  | _ => True

instance (m : Mmu) (op : Op) : Decidable (op.Allowed m) := by
  unfold Op.Allowed
  split <;> infer_instance

/-- A private memory for each process. -/
abbrev Spaces := Pid → UInt32 → Page

def Spaces.store (s : Spaces) (pid : Pid) (vpageNo : UInt32) (offset : Fin pageSize) (byte : UInt8) :
    Spaces :=
  fun p v => if p = pid ∧ v = vpageNo then Function.update (s p v) offset byte else s p v

/-- What an operation does to the private memories. A newly mapped page starts
with what the physical page holds, a store of the loader goes to the process
that the page is mapped for, and switching, allocation and freeing do nothing. -/
def Op.ideal (m : Mmu) (s : Spaces) : Op → Spaces
  | .map pid vpageNo ppageId =>
    fun p v => if p = pid ∧ v = vpageNo then m.memory (pageOf (pageIdToAddr ppageId)) else s p v
  | .store addr byte => s.store m.currVmPid (UInt32.ofNat (pageOf addr)) (offsetOf addr) byte
  | .load ppageId offset byte =>
    if m.Mapped ppageId then
      s.store (m.pageInfoTable ppageId).pid (m.pageInfoTable ppageId).vpageNo offset byte
    else s
  | _ => s

/-- A sequence of operations, on the machine and on the private memories side by side. -/
inductive Runs (memory : Nat → Page) (s₀ : Spaces) : Mmu → Spaces → Prop where
  | boot : Runs memory s₀ (Mmu.boot memory) s₀
  | step {m m' : Mmu} {s : Spaces} {op : Op} (h : Runs memory s₀ m s) (hop : op.Allowed m)
      (hstep : op.step m = .ok m') : Runs memory s₀ m' (op.ideal m s)

/-- The contents of a mapped page are in the window when its process is
switched in, and in the page that `mmu_alloc` returned otherwise. -/
structure Isolated (m : Mmu) (s : Spaces) : Prop where
  unused : ∀ i, (m.pageInfoTable i).use = false → m.pageInfoTable i = PageInfo.zero
  below : ∀ i, m.Mapped i → (m.pageInfoTable i).vpageNo.toNat < 0x80400
  once : ∀ i j, m.Mapped i → m.Mapped j → (m.pageInfoTable i).pid = (m.pageInfoTable j).pid →
    (m.pageInfoTable i).vpageNo = (m.pageInfoTable j).vpageNo → i = j
  here : ∀ i, m.Mapped i → (m.pageInfoTable i).pid = m.currVmPid →
    m.memory (Mmu.windowPage m.pageInfoTable i) =
      s (m.pageInfoTable i).pid (m.pageInfoTable i).vpageNo
  away : ∀ i, m.Mapped i → (m.pageInfoTable i).pid ≠ m.currVmPid →
    m.memory (Mmu.poolPage i) = s (m.pageInfoTable i).pid (m.pageInfoTable i).vpageNo

theorem Isolated.window_ne_pool {m : Mmu} {s : Spaces} (h : Isolated m s) {i : PageId}
    (hi : (m.pageInfoTable i).use) (j : PageId) :
    Mmu.windowPage m.pageInfoTable i ≠ Mmu.poolPage j := by
  apply windowPage_ne_poolPage
  by_cases hm : m.Mapped i
  · exact h.below i hm
  · have hzero : (m.pageInfoTable i).vpageNo = 0 := by
      by_contra hne
      exact hm ⟨hi, Or.inr hne⟩
    simp [hzero]

/-- The pages of one process are at different places of the window. -/
theorem Isolated.window_inj {m : Mmu} {s : Spaces} (h : Isolated m s) {i j : PageId}
    (hi : m.Mapped i) (hj : (m.pageInfoTable j).use)
    (hpid : (m.pageInfoTable j).pid = (m.pageInfoTable i).pid)
    (hpage : Mmu.windowPage m.pageInfoTable j = Mmu.windowPage m.pageInfoTable i) : j = i := by
  have hbelow := h.below i hi
  by_cases hm : m.Mapped j
  · rw [Mmu.windowPage, Mmu.windowPage, pageNoToAddr_page hbelow,
      pageNoToAddr_page (h.below j hm)] at hpage
    exact h.once j i hm hi hpid (UInt32.toNat_inj.mp hpage)
  · have hzero : (m.pageInfoTable j).pid = 0 ∧ (m.pageInfoTable j).vpageNo = 0 := by
      by_contra hne
      exact hm ⟨hj, by tauto⟩
    rw [Mmu.windowPage, Mmu.windowPage, pageNoToAddr_page hbelow, hzero.2,
      pageNoToAddr_page (by decide)] at hpage
    have hv : (m.pageInfoTable i).vpageNo = 0 := UInt32.toNat_inj.mp hpage.symm
    rcases hi.2 with hp | hp
    · exact absurd (hpid.symm.trans hzero.1) hp
    · exact absurd hv hp

/-- The memory after the loop that unmaps the switched-in process. -/
def Mmu.unmapped (m : Mmu) : Nat → Page :=
  copyAll (Mmu.windowPage m.pageInfoTable) Mmu.poolPage (Mmu.pagesOf m.pageInfoTable m.currVmPid)
    m.memory

theorem Isolated.unmapped_here {m : Mmu} {s : Spaces} (h : Isolated m s) {i : PageId}
    (hi : (m.pageInfoTable i).use) (hpid : (m.pageInfoTable i).pid = m.currVmPid) :
    m.unmapped (Mmu.poolPage i) = m.memory (Mmu.windowPage m.pageInfoTable i) := by
  refine copyAll_target (mem_pagesOf.mpr ⟨hi, hpid⟩) (fun j _ he => poolPage_injective he) ?_ _
  exact fun j _ => (h.window_ne_pool hi j).symm

theorem Mmu.unmapped_away {m : Mmu} {i : PageId} (hpid : (m.pageInfoTable i).pid ≠ m.currVmPid) :
    m.unmapped (Mmu.poolPage i) = m.memory (Mmu.poolPage i) := by
  refine copyAll_of_not_target (fun j hj he => hpid ?_) _
  rw [← poolPage_injective he]
  exact (mem_pagesOf.mp hj).2

theorem Isolated.unmapped_pool {m : Mmu} {s : Spaces} (h : Isolated m s) {i : PageId}
    (hi : m.Mapped i) :
    m.unmapped (Mmu.poolPage i) = s (m.pageInfoTable i).pid (m.pageInfoTable i).vpageNo := by
  by_cases he : (m.pageInfoTable i).pid = m.currVmPid
  · rw [h.unmapped_here hi.1 he]
    exact h.here i hi he
  · rw [Mmu.unmapped_away he]
    exact h.away i hi he

/-- After a switch the pool holds the contents of every mapped page, and the
window those of the process switched in. -/
theorem Isolated.softTlbSwitch_spec {m : Mmu} {s : Spaces} (h : Isolated m s) {pid : Pid}
    (hp : pid ≠ m.currVmPid) :
    ∃ memory, m.softTlbSwitch pid = ⟨m.pageInfoTable, memory, pid⟩ ∧
      ∀ i, m.Mapped i →
        memory (Mmu.poolPage i) = s (m.pageInfoTable i).pid (m.pageInfoTable i).vpageNo ∧
        ((m.pageInfoTable i).pid = pid → memory (Mmu.windowPage m.pageInfoTable i) =
          s (m.pageInfoTable i).pid (m.pageInfoTable i).vpageNo) := by
  refine ⟨_, if_neg hp, fun i hi => ⟨?_, fun hpid => ?_⟩⟩
  · rw [← h.unmapped_pool hi]
    exact copyAll_of_not_target (fun j hj => h.window_ne_pool (mem_pagesOf.mp hj).1 i) _
  · rw [← h.unmapped_pool hi]
    refine copyAll_target (mem_pagesOf.mpr ⟨hi.1, hpid⟩) (fun j hj he => ?_)
      (fun j hj => h.window_ne_pool (mem_pagesOf.mp hj).1 i) _
    have hj' := mem_pagesOf.mp hj
    exact h.window_inj hi hj'.1 (hj'.2.trans hpid.symm) he

theorem Isolated.switch {m : Mmu} {s : Spaces} (h : Isolated m s) (pid : Pid) :
    Isolated (m.softTlbSwitch pid) s := by
  by_cases hp : pid = m.currVmPid
  · simpa [Mmu.softTlbSwitch, hp] using h
  obtain ⟨memory, heq, hmem⟩ := h.softTlbSwitch_spec hp
  rw [heq]
  exact ⟨h.unused, h.below, h.once, fun i hi => (hmem i hi).2, fun i hi _ => (hmem i hi).1⟩

theorem Mmu.store_self (m : Mmu) (addr : UInt32) (byte : UInt8) :
    (m.store addr byte).memory (pageOf addr) =
      Function.update (m.memory (pageOf addr)) (offsetOf addr) byte := Function.update_self _ _ _

theorem Mmu.store_of_ne (m : Mmu) {addr : UInt32} (byte : UInt8) {y : Nat} (hy : y ≠ pageOf addr) :
    (m.store addr byte).memory y = m.memory y := Function.update_of_ne hy _ _

theorem Spaces.store_self (s : Spaces) (pid : Pid) (v : UInt32) (offset : Fin pageSize)
    (byte : UInt8) : s.store pid v offset byte pid v = Function.update (s pid v) offset byte :=
  if_pos ⟨rfl, rfl⟩

theorem Spaces.store_of_ne (s : Spaces) {pid p : Pid} {vpageNo v : UInt32} (offset : Fin pageSize)
    (byte : UInt8) (hne : ¬(p = pid ∧ v = vpageNo)) :
    s.store pid vpageNo offset byte p v = s p v := if_neg hne

theorem pool_address (i : PageId) (offset : Fin pageSize) :
    pageOf (pageIdToAddr i + UInt32.ofNat offset.val) = Mmu.poolPage i ∧
      offsetOf (pageIdToAddr i + UInt32.ofNat offset.val) = offset := by
  have hi : i.val < 512 := i.isLt
  have hoffset : offset.val < 4096 := offset.isLt
  have haddr : (pageIdToAddr i + UInt32.ofNat offset.val).toNat =
      (0x80400 + i.val) * 4096 + offset.val := by
    rw [UInt32.toNat_add, pageIdToAddr_toNat, UInt32.toNat_ofNat']
    simp only [pageSize, Nat.reducePow]
    omega
  refine ⟨?_, Fin.ext ?_⟩
  · rw [pageOf, haddr, poolPage_eq]
    simp only [pageSize]
    omega
  · rw [offsetOf, haddr, Fin.val_ofNat]
    simp only [pageSize]
    omega

theorem Isolated.store {m : Mmu} {s : Spaces} (h : Isolated m s) {addr : UInt32}
    (haddr : addr < appsPagesBase) (byte : UInt8) :
    Isolated (m.store addr byte) ((Op.store addr byte).ideal m s) := by
  have hlow : pageOf addr < 0x80400 := by
    have := UInt32.lt_iff_toNat_lt.mp haddr
    simp only [appsPagesBase, UInt32.reduceToNat] at this
    simp only [pageOf, pageSize]
    omega
  have hpage : (UInt32.ofNat (pageOf addr)).toNat = pageOf addr := by
    rw [UInt32.toNat_ofNat']
    omega
  refine ⟨h.unused, h.below, h.once, fun i hi hpid => ?_, fun i hi hpid => ?_⟩
  · have hi' : m.Mapped i := hi
    have hwindow : Mmu.windowPage m.pageInfoTable i = (m.pageInfoTable i).vpageNo.toNat :=
      pageNoToAddr_page (h.below i hi')
    have hhere := h.here i hi' hpid
    change (m.store addr byte).memory (Mmu.windowPage m.pageInfoTable i) =
      s.store m.currVmPid (UInt32.ofNat (pageOf addr)) (offsetOf addr) byte
        (m.pageInfoTable i).pid (m.pageInfoTable i).vpageNo
    by_cases hv : (m.pageInfoTable i).vpageNo = UInt32.ofNat (pageOf addr)
    · have hat : Mmu.windowPage m.pageInfoTable i = pageOf addr := by rw [hwindow, hv, hpage]
      have hpid' : (m.pageInfoTable i).pid = m.currVmPid := hpid
      rw [hat, hpid', hv] at hhere
      rw [hat, hpid', hv, Mmu.store_self, Spaces.store_self, hhere]
    · have hat : Mmu.windowPage m.pageInfoTable i ≠ pageOf addr := by
        rw [hwindow, ← hpage]
        exact fun he => hv (UInt32.toNat_inj.mp he)
      rw [Mmu.store_of_ne m byte hat, Spaces.store_of_ne s _ _ fun he => hv he.2]
      exact hhere
  · have hat : Mmu.poolPage i ≠ pageOf addr := by
      rw [poolPage_eq]
      omega
    rw [Mmu.store_of_ne m byte hat]
    exact (h.away i hi hpid).trans (Spaces.store_of_ne s _ _ fun he => hpid he.1).symm

theorem Isolated.load {m : Mmu} {s : Spaces} (h : Isolated m s) {i : PageId}
    (hi : ¬((m.pageInfoTable i).use ∧ (m.pageInfoTable i).pid = m.currVmPid))
    (offset : Fin pageSize) (byte : UInt8) :
    Isolated (m.store (pageIdToAddr i + UInt32.ofNat offset.val) byte)
      ((Op.load i offset byte).ideal m s) := by
  obtain ⟨hpage, hoffset⟩ := pool_address i offset
  have hspace : ∀ j, m.Mapped j → j ≠ i →
      (Op.load i offset byte).ideal m s (m.pageInfoTable j).pid (m.pageInfoTable j).vpageNo =
        s (m.pageInfoTable j).pid (m.pageInfoTable j).vpageNo := by
    intro j hj hne
    rw [Op.ideal]
    split
    · rename_i hm
      exact Spaces.store_of_ne s _ _ fun he => hne (h.once j i hj hm he.1 he.2)
    · rfl
  refine ⟨h.unused, h.below, h.once, fun j hj hpid => ?_, fun j hj hpid => ?_⟩
  · have hne : j ≠ i := by
      rintro rfl
      exact hi ⟨hj.1, hpid⟩
    rw [Mmu.store_of_ne m byte (hpage ▸ h.window_ne_pool hj.1 i)]
    exact (h.here j hj hpid).trans (hspace j hj hne).symm
  · have haway := h.away j hj hpid
    by_cases he : j = i
    · subst he
      have hideal : (Op.load j offset byte).ideal m s =
          s.store (m.pageInfoTable j).pid (m.pageInfoTable j).vpageNo offset byte := if_pos hj
      rw [hideal]
      refine Eq.trans ?_ (Spaces.store_self s _ _ _ _).symm
      rw [← haway, ← hpage, Mmu.store_self, hoffset]
    · have hne : Mmu.poolPage j ≠ pageOf (pageIdToAddr i + UInt32.ofNat offset.val) := by
        rw [hpage]
        exact fun hp => he (poolPage_injective hp)
      rw [Mmu.store_of_ne m byte hne]
      exact haway.trans (hspace j hj he).symm

theorem Isolated.map {m : Mmu} {s : Spaces} (h : Isolated m s) {pid : Pid} {v : UInt32} {i : PageId}
    (hallowed : (Op.map pid v i).Allowed m) :
    Isolated (m.softTlbMap pid v i) ((Op.map pid v i).ideal m s) := by
  obtain ⟨huse, hpid, hbelow, hreal, hfresh⟩ := hallowed
  have hself : (m.softTlbMap pid v i).pageInfoTable i = ⟨true, pid, v⟩ := by
    simp [Mmu.softTlbMap, huse]
  have hother : ∀ j, j ≠ i → (m.softTlbMap pid v i).pageInfoTable j = m.pageInfoTable j :=
    fun j hj => Function.update_of_ne hj _ _
  have hmapped : ∀ j, j ≠ i → (m.softTlbMap pid v i).Mapped j → m.Mapped j := by
    intro j hj hm
    rwa [Mmu.Mapped, hother j hj] at hm
  have hspace : ∀ j, m.Mapped j → (Op.map pid v i).ideal m s (m.pageInfoTable j).pid
      (m.pageInfoTable j).vpageNo = s (m.pageInfoTable j).pid (m.pageInfoTable j).vpageNo :=
    fun j hj => if_neg (hfresh j hj)
  constructor
  · intro j hj
    by_cases hji : j = i
    · rw [hji, hself] at hj
      cases hj
    · rw [hother j hji] at hj ⊢
      exact h.unused j hj
  · intro j hj
    by_cases hji : j = i
    · rw [hji, hself]
      simpa [appsPagesBase, pageSize] using hbelow
    · rw [hother j hji]
      exact h.below j (hmapped j hji hj)
  · intro j k hj hk
    by_cases hji : j = i <;> by_cases hki : k = i
    · exact fun _ _ => hji.trans hki.symm
    · rw [hji, hself, hother k hki]
      exact fun hp hv => absurd ⟨hp.symm, hv.symm⟩ (hfresh k (hmapped k hki hk))
    · rw [hki, hself, hother j hji]
      exact fun hp hv => absurd ⟨hp, hv⟩ (hfresh j (hmapped j hji hj))
    · rw [hother j hji, hother k hki]
      exact h.once j k (hmapped j hji hj) (hmapped k hki hk)
  · intro j hj hcurr
    by_cases hji : j = i
    · rw [hji, hself] at hcurr
      exact absurd hcurr hpid
    · rw [hother j hji] at hcurr ⊢
      rw [Mmu.windowPage, hother j hji, hspace j (hmapped j hji hj)]
      exact h.here j (hmapped j hji hj) hcurr
  · intro j hj hcurr
    by_cases hji : j = i
    · subst hji
      rw [hself]
      exact (if_pos ⟨rfl, rfl⟩).symm
    · rw [hother j hji] at hcurr ⊢
      rw [hspace j (hmapped j hji hj)]
      exact h.away j (hmapped j hji hj) hcurr

theorem Isolated.of_fewer {m m' : Mmu} {s : Spaces} (h : Isolated m s)
    (hmemory : m'.memory = m.memory) (hcurr : m'.currVmPid = m.currVmPid)
    (hunused : ∀ i, (m'.pageInfoTable i).use = false → m'.pageInfoTable i = PageInfo.zero)
    (hfewer : ∀ i, m'.Mapped i → m'.pageInfoTable i = m.pageInfoTable i ∧ m.Mapped i) :
    Isolated m' s := by
  refine ⟨hunused, fun i hi => ?_, fun i j hi hj => ?_, fun i hi => ?_, fun i hi => ?_⟩
  · rw [(hfewer i hi).1]
    exact h.below i (hfewer i hi).2
  · rw [(hfewer i hi).1, (hfewer j hj).1]
    exact h.once i j (hfewer i hi).2 (hfewer j hj).2
  · rw [Mmu.windowPage, (hfewer i hi).1, hmemory, hcurr]
    exact h.here i (hfewer i hi).2
  · rw [(hfewer i hi).1, hmemory, hcurr]
    exact h.away i (hfewer i hi).2

theorem Isolated.free {m : Mmu} {s : Spaces} (h : Isolated m s) (pid : Pid) :
    Isolated (m.mmuFree pid) s := by
  have hkeep : ∀ i, (freePages m.pageInfoTable pid i).use → freePages m.pageInfoTable pid i =
      m.pageInfoTable i := by
    intro i hi
    rw [freePages] at hi ⊢
    split at hi
    · cases hi
    · rename_i hfree
      exact if_neg hfree
  refine h.of_fewer rfl rfl ?_ ?_
  · intro i hi
    change (freePages m.pageInfoTable pid i).use = false at hi
    change freePages m.pageInfoTable pid i = PageInfo.zero
    rw [freePages] at hi ⊢
    split at hi
    · rename_i hfree
      exact if_pos hfree
    · rename_i hfree
      rw [if_neg hfree]
      exact h.unused i hi
  · intro i hi
    have heq : (m.mmuFree pid).pageInfoTable i = m.pageInfoTable i := hkeep i hi.1
    exact ⟨heq, by simpa only [Mmu.Mapped, heq] using hi⟩

theorem Isolated.alloc {m m' : Mmu} {s : Spaces} {i : PageId} (h : Isolated m s)
    (halloc : m.mmuAlloc = .ok (i, m')) : Isolated m' s := by
  unfold Mmu.mmuAlloc allocPage at halloc
  split at halloc
  · rename_i j hj
    cases halloc
    have hfree := List.find?_some hj
    have hzero := h.unused i (by simpa using hfree)
    refine h.of_fewer rfl rfl ?_ ?_
    · intro k hk
      by_cases hki : k = i
      · simp [hki] at hk
      · simp only [Function.update_of_ne hki] at hk ⊢
        exact h.unused k hk
    · intro k hk
      by_cases hki : k = i
      · simp [Mmu.Mapped, hki, hzero, PageInfo.zero] at hk
      · simpa [Mmu.Mapped, Function.update_of_ne hki] using hk
  · cases halloc

theorem isolated_boot (memory : Nat → Page) (s : Spaces) : Isolated (Mmu.boot memory) s := by
  have hnone : ∀ i, ¬(Mmu.boot memory).Mapped i := fun i hi => by cases hi.1
  exact ⟨fun _ _ => rfl, fun i hi => absurd hi (hnone i), fun i _ hi => absurd hi (hnone i),
    fun i hi => absurd hi (hnone i), fun i hi => absurd hi (hnone i)⟩

theorem isolated_step {m m' : Mmu} {s : Spaces} {op : Op} (h : Isolated m s) (hop : op.Allowed m)
    (hstep : op.step m = .ok m') : Isolated m' (op.ideal m s) := by
  cases op with
  | alloc =>
    obtain ⟨⟨i, m₁⟩, halloc, rfl⟩ := map_eq_ok hstep
    exact h.alloc halloc
  | free pid => cases hstep; exact h.free pid
  | map pid v i => cases hstep; exact h.map hop
  | switch pid => cases hstep; exact h.switch pid
  | translate pid vaddr => cases hstep; exact h.switch pid
  | store addr byte => cases hstep; exact h.store hop byte
  | load i offset byte => cases hstep; exact h.load hop offset byte

theorem isolated_run {memory : Nat → Page} {s₀ s : Spaces} {m : Mmu} (h : Runs memory s₀ m s) :
    Isolated m s := by
  induction h with
  | boot => exact isolated_boot memory s₀
  | step _ hop hstep ih => exact isolated_step ih hop hstep

/-- Every byte of a mapped page of the switched-in process reads as in its
private memory. -/
theorem soft_tlb_isolation {memory : Nat → Page} {s₀ s : Spaces} {m : Mmu}
    (h : Runs memory s₀ m s) (i : PageId) (hi : m.Mapped i)
    (hpid : (m.pageInfoTable i).pid = m.currVmPid) (addr : UInt32)
    (haddr : pageOf addr = (m.pageInfoTable i).vpageNo.toNat) :
    m.byteAt addr = s m.currVmPid (m.pageInfoTable i).vpageNo (offsetOf addr) := by
  have hi' := isolated_run h
  have hhere := hi'.here i hi hpid
  rw [Mmu.windowPage, pageNoToAddr_page (hi'.below i hi)] at hhere
  rw [Mmu.byteAt, haddr, hhere, hpid]

def runOps (m : Mmu) (s : Spaces) : List Op → Option (Mmu × Spaces)
  | [] => some (m, s)
  | op :: ops =>
    if op.Allowed m then
      match op.step m with
      | .ok m' => runOps m' (op.ideal m s) ops
      | .error _ => none
    else none

theorem Runs.of_runOps {memory : Nat → Page} {s₀ s s' : Spaces} {m m' : Mmu}
    (h : Runs memory s₀ m s) {ops : List Op} (hops : runOps m s ops = some (m', s')) :
    Runs memory s₀ m' s' := by
  induction ops generalizing m s with
  | nil =>
    cases hops
    exact h
  | cons op ops ih =>
    rw [runOps] at hops
    split at hops
    · rename_i hop
      cases hstep : op.step m with
      | ok m₁ =>
        rw [hstep] at hops
        exact ih (h.step hop hstep) hops
      | error e => simp [hstep] at hops
    · cases hops

/-- Two processes with a page at the same place, each storing to it in turn. -/
def sampleOps : List Op :=
  [.alloc, .map 1 0x80200 0, .load 0 0 5, .alloc, .map 2 0x80200 1, .switch 1,
    .store 0x80200001 7, .switch 2, .store 0x80200001 9, .translate 1 0x80301000]

theorem sampleOps_run : ∃ m s, runOps (Mmu.boot fun _ _ => 0) (fun _ _ _ => 0) sampleOps = some (m, s) ∧
    m.Mapped 0 ∧ m.pageInfoTable 0 = ⟨true, 1, 0x80200⟩ ∧ m.currVmPid = 1 ∧
      s 1 0x80200 0 = 5 ∧ s 1 0x80200 1 = 7 := by
  have h : (runOps (Mmu.boot fun _ _ => 0) (fun _ _ _ => 0) sampleOps).any (fun r =>
      r.1.Mapped 0 ∧ r.1.pageInfoTable 0 = ⟨true, 1, 0x80200⟩ ∧ r.1.currVmPid = 1 ∧
        r.2 1 0x80200 0 = 5 ∧ r.2 1 0x80200 1 = 7) = true := by decide +kernel
  obtain ⟨⟨m, s⟩, hrun, hr⟩ := (Option.any_eq_true _ _).mp h
  exact ⟨m, s, hrun, of_decide_eq_true hr⟩

theorem soft_tlb_isolation_sample : ∃ m s, runOps (Mmu.boot fun _ _ => 0) (fun _ _ _ => 0) sampleOps =
    some (m, s) ∧ m.byteAt 0x80200000 = 5 ∧ m.byteAt 0x80200001 = 7 := by
  obtain ⟨m, s, hrun, hi, hinfo, hcurr, hload, hstore⟩ := sampleOps_run
  have h := soft_tlb_isolation (Runs.boot.of_runOps hrun) 0 hi (by rw [hinfo, hcurr])
  refine ⟨m, s, hrun, ?_, ?_⟩
  · rw [h 0x80200000 (by rw [hinfo]; decide), hcurr, hinfo]
    exact hload
  · rw [h 0x80200001 (by rw [hinfo]; decide), hcurr, hinfo]
    exact hstore

end OsSuite.Earth
