import OsSuite.SoftTlb

/-! The identity map that the earth layer builds with page tables, and the walk of the hardware
through them (Sv32). -/

namespace OsSuite.Earth

inductive Platform where
  | hardware
  | qemu
  deriving DecidableEq

/-- The page tables of a process: the memory, as words, and the static variable `root`. -/
structure Tables where
  pageInfoTable : PageInfoTable
  memory : UInt32 → UInt32
  root : UInt32

/-- The address of the entry `k` of a table. -/
def entryAddr (table k : UInt32) : UInt32 := table + 4 * k

/-- `memset(table, 0, PAGE_SIZE)`. -/
def clearTable (memory : UInt32 → UInt32) (table : UInt32) : UInt32 → UInt32 :=
  fun a => if table.toNat ≤ a.toNat ∧ a.toNat < table.toNat + pageSize then 0 else memory a

def takePage (table : PageInfoTable) (ppageId : PageId) (pid : Pid) : PageInfoTable :=
  Function.update table ppageId { table ppageId with pid := pid }

/-- The loop that sets up the entries of a leaf table. -/
def setupLeaf (memory : UInt32 → UInt32) (leaf vpn0 addr flag : UInt32) (npages : Nat) : UInt32 → UInt32 :=
  (List.range npages).foldl (fun memory i =>
    Function.update memory (entryAddr leaf (vpn0 + UInt32.ofNat i))
      (((addr + UInt32.ofNat i * 4096) >>> 2) ||| flag)) memory

/-- `ppageId` is what `mmu_alloc` returns, if it is called. -/
def setupIdentityRegion (s : Tables) (ppageId : PageId) (pid : Pid) (addr npages flag : UInt32) : Tables :=
  let vpn1 := addr >>> 22
  let entry := s.memory (entryAddr s.root vpn1)
  let vpn0 := (addr >>> 12) &&& 0x3FF
  if entry &&& 0x1 ≠ 0 then
    let leaf := (entry <<< 2) &&& 0xFFFFF000
    { s with memory := setupLeaf s.memory leaf vpn0 addr flag npages.toNat }
  else
    let leaf := pageIdToAddr ppageId
    let memory := Function.update (clearTable s.memory leaf) (entryAddr s.root vpn1) ((leaf >>> 2) ||| 0x1)
    { s with
      pageInfoTable := takePage s.pageInfoTable ppageId pid
      memory := setupLeaf memory leaf vpn0 addr flag npages.toNat }

/-- A region as the callers pass it: within one leaf table, its address perhaps not on a page
boundary, valid and readable. -/
structure Region where
  addr : UInt32
  npages : UInt32
  flag : UInt32
  within : addr.toNat / 4096 % 1024 + npages.toNat ≤ 1024
  lined : addr.toNat % 1024 = 0
  small : flag.toNat < 256
  valid : flag &&& 0x1 ≠ 0
  readable : flag &&& 0x2 ≠ 0

def userRwx : UInt32 := 0xC0 ||| 0x1F

/-- The regions of `pagetable_identity_map`, in the order of its calls. -/
def identityRegions (platform : Platform) : List Region :=
  let ram : List Region := [⟨0x80000000, 1024, userRwx, by decide, by decide, by decide, by decide, by decide⟩,
    ⟨0x80400000, 1024, userRwx, by decide, by decide, by decide, by decide, by decide⟩]
  match platform with
  | .qemu => ram ++ [⟨0x41000000, 4, userRwx, by decide, by decide, by decide, by decide, by decide⟩,
    ⟨0x10000000, 1, userRwx, by decide, by decide, by decide, by decide, by decide⟩,
    ⟨0x02000000, 16, userRwx, by decide, by decide, by decide, by decide, by decide⟩,
    ⟨0x22000000, 1024, userRwx, by decide, by decide, by decide, by decide, by decide⟩,
    ⟨0x42000000, 512, userRwx, by decide, by decide, by decide, by decide, by decide⟩,
    ⟨0x40000000, 1, userRwx, by decide, by decide, by decide, by decide, by decide⟩,
    ⟨0x30018000, 1, userRwx, by decide, by decide, by decide, by decide, by decide⟩]
  | .hardware => ram ++ [⟨0xF0002000, 4, userRwx, by decide, by decide, by decide, by decide, by decide⟩,
    ⟨0xF0001000, 1, userRwx, by decide, by decide, by decide, by decide, by decide⟩,
    ⟨0xF0010000, 16, userRwx, by decide, by decide, by decide, by decide, by decide⟩,
    ⟨0x20400000, 1024, userRwx, by decide, by decide, by decide, by decide, by decide⟩,
    ⟨0x80600000, 512, userRwx, by decide, by decide, by decide, by decide, by decide⟩,
    ⟨0xF0008800, 1, userRwx, by decide, by decide, by decide, by decide, by decide⟩,
    ⟨0x90001000, 1, userRwx, by decide, by decide, by decide, by decide, by decide⟩,
    ⟨0x90000000, 1, userRwx, by decide, by decide, by decide, by decide, by decide⟩]

/-- A call, with what `mmu_alloc` returns in it if it is called. -/
structure Call where
  ppageId : PageId
  region : Region

def Tables.call (s : Tables) (pid : Pid) (c : Call) : Tables :=
  setupIdentityRegion s c.ppageId pid c.region.addr c.region.npages c.region.flag

def Tables.calls (s : Tables) (pid : Pid) (cs : List Call) : Tables := cs.foldl (fun s c => s.call pid c) s

/-- A new root table on the page that `mmu_alloc` returns. -/
def Tables.newRoot (s : Tables) (ppageId : PageId) (pid : Pid) : Tables where
  pageInfoTable := takePage s.pageInfoTable ppageId pid
  memory := clearTable s.memory (pageIdToAddr ppageId)
  root := pageIdToAddr ppageId

def pagetableIdentityMap (s : Tables) (pid : Pid) (platform : Platform) (rootPage : PageId)
    (mmuAlloc : Nat → PageId) : Tables :=
  (s.newRoot rootPage pid).calls pid ((identityRegions platform).mapIdx fun n r => ⟨mmuAlloc n, r⟩)

/-- The walk of the hardware: the physical address of 34 bits and the flags. An entry with one of
its permission bits set ends the walk. -/
def walk (memory : UInt32 → UInt32) (root vaddr : UInt32) : Option (Nat × UInt32) :=
  let pte1 := memory (entryAddr root (vaddr >>> 22))
  if pte1 &&& 0x1 = 0 then none
  else if pte1 &&& 0xE ≠ 0 then some ((pte1 >>> 10).toNat * 4096 + vaddr.toNat % 2 ^ 22, pte1 &&& 0xFF)
  else
    let pte0 := memory (entryAddr ((pte1 >>> 10) <<< 12) ((vaddr >>> 12) &&& 0x3FF))
    if pte0 &&& 0x1 = 0 ∨ pte0 &&& 0xE = 0 then none
    else some ((pte0 >>> 10).toNat * 4096 + vaddr.toNat % 4096, pte0 &&& 0xFF)

/-- The page is one of the tables of the process. -/
def Tables.InUse (s : Tables) (i : PageId) : Prop :=
  pageIdToAddr i = s.root ∨ ∃ v < 1024, s.memory (entryAddr s.root (UInt32.ofNat v)) &&& 0x1 ≠ 0 ∧
    (s.memory (entryAddr s.root (UInt32.ofNat v)) <<< 2) &&& 0xFFFFF000 = pageIdToAddr i

instance (s : Tables) (i : PageId) : Decidable (s.InUse i) := inferInstanceAs (Decidable (_ ∨ _))

/-- Each page that `mmu_alloc` returns in the calls is fresh. -/
def Tables.Fresh (s : Tables) (pid : Pid) : List Call → Prop
  | [] => True
  | c :: cs => (s.memory (entryAddr s.root (c.region.addr >>> 22)) &&& 0x1 = 0 → ¬s.InUse c.ppageId) ∧
      (s.call pid c).Fresh pid cs

/-- The page of an address lies in the region. -/
def Region.Covers (r : Region) (page : Nat) : Prop :=
  r.addr.toNat / 4096 ≤ page ∧ page < r.addr.toNat / 4096 + r.npages.toNat

instance (r : Region) (page : Nat) : Decidable (r.Covers page) := inferInstanceAs (Decidable (_ ∧ _))

/-- The latest region that a page lies in. -/
def latest (rs : List Region) (page : Nat) : Option Region := (rs.filter fun r => r.Covers page).getLast?

variable {s : Tables} {p q : PageId} {i j k n v : Nat} {r : Region} {rs : List Region} {pid : Pid}
  {memory : UInt32 → UInt32} {page : Nat}

theorem latest_concat (rs : List Region) (r : Region) (page : Nat) :
    latest (rs ++ [r]) page = if r.Covers page then some r else latest rs page := by
  unfold latest
  by_cases h : r.Covers page <;> simp [h]

/-- The address of an entry in a page of the pool. -/
abbrev slot (p : PageId) (k : Nat) : UInt32 := entryAddr (pageIdToAddr p) (UInt32.ofNat k)

theorem slot_toNat (p : PageId) (hk : k < 1024) : (slot p k).toNat = (0x80400 + p.val) * 4096 + 4 * k := by
  have hp : p.val < 512 := p.isLt
  have hbase := pageIdToAddr_toNat p
  change _ = (0x80400 + p.val) * 4096 at hbase
  have hfour : (4 : UInt32).toNat = 4 := rfl
  rw [slot, entryAddr, UInt32.toNat_add, UInt32.toNat_mul, UInt32.toNat_ofNat', hbase, hfour]
  omega

theorem slot_inj (hk : k < 1024) (hj : j < 1024) : slot p k = slot q j ↔ p = q ∧ k = j := by
  constructor
  · intro h
    have h := congrArg UInt32.toNat h
    rw [slot_toNat p hk, slot_toNat q hj] at h
    exact ⟨Fin.ext (by omega), by omega⟩
  · rintro ⟨rfl, rfl⟩
    rfl

theorem clearTable_self (memory : UInt32 → UInt32) (p : PageId) (hk : k < 1024) :
    clearTable memory (pageIdToAddr p) (slot p k) = 0 := by
  have hslot := slot_toNat p hk
  have hbase := pageIdToAddr_toNat p
  change _ = (0x80400 + p.val) * 4096 at hbase
  rw [clearTable, if_pos]
  change _ ∧ _ < _ + 4096
  omega

theorem clearTable_other (memory : UInt32 → UInt32) (hpq : q ≠ p) (hk : k < 1024) :
    clearTable memory (pageIdToAddr p) (slot q k) = memory (slot q k) := by
  have hslot := slot_toNat q hk
  have hbase := pageIdToAddr_toNat p
  change _ = (0x80400 + p.val) * 4096 at hbase
  have hne : q.val ≠ p.val := fun h => hpq (Fin.ext h)
  rw [clearTable, if_neg]
  change ¬(_ ∧ _ < _ + 4096)
  omega

/-- The entry of the root table for a leaf table. -/
def pointer (p : PageId) : UInt32 := (pageIdToAddr p >>> 2) ||| 0x1

/-- The code and the hardware find the leaf table in the entry, and the entry does not end a walk. -/
theorem pointer_decode (p : PageId) : pointer p &&& 0x1 ≠ 0 ∧ pointer p &&& 0xE = 0 ∧
    (pointer p <<< 2) &&& 0xFFFFF000 = pageIdToAddr p ∧ (pointer p >>> 10) <<< 12 = pageIdToAddr p := by
  revert p
  unfold pointer
  decide +kernel

/-- The entry of a leaf table for the page, as the region has it. -/
def Region.entry (r : Region) (page : Nat) : UInt32 :=
  ((r.addr + UInt32.ofNat (page - r.addr.toNat / 4096) * 4096) >>> 2) ||| r.flag

theorem Region.entry_toNat (r : Region) (h : r.Covers page) :
    (r.entry page).toNat = page * 1024 + r.addr.toNat % 4096 / 1024 * 256 + r.flag.toNat := by
  obtain ⟨hle, hlt⟩ := h
  have hwithin := r.within
  have hlined := r.lined
  have haddr := r.addr.toNat_lt
  have hsize : (4096 : UInt32).toNat = 4096 := rfl
  have htwo : (2 : UInt32).toNat % 32 = 2 := rfl
  have hsum : (r.addr + UInt32.ofNat (page - r.addr.toNat / 4096) * 4096).toNat =
      page * 4096 + r.addr.toNat % 4096 := by
    rw [UInt32.toNat_add, UInt32.toNat_mul, UInt32.toNat_ofNat', hsize]
    omega
  have hshift : ((r.addr + UInt32.ofNat (page - r.addr.toNat / 4096) * 4096) >>> 2).toNat =
      2 ^ 8 * (page * 4 + r.addr.toNat % 4096 / 1024) := by
    rw [UInt32.toNat_shiftRight, hsum, htwo, Nat.shiftRight_eq_div_pow]
    omega
  rw [entry, UInt32.toNat_or, hshift, ← Nat.two_pow_add_eq_or_of_lt r.small]
  omega

/-- The fields that the hardware reads in the entry. -/
theorem Region.entry_decode (r : Region) (h : r.Covers page) : r.entry page &&& 0xFF = r.flag ∧
    (r.entry page >>> 10).toNat = page ∧ r.entry page &&& 0x1 ≠ 0 ∧ r.entry page &&& 0xE ≠ 0 := by
  have hentry := r.entry_toNat h
  have hsmall := r.small
  have hflags : r.entry page &&& 0xFF = r.flag := by
    have hmask : (0xFF : UInt32).toNat = 2 ^ 8 - 1 := rfl
    rw [← UInt32.toNat_inj, UInt32.toNat_and, hmask, Nat.and_two_pow_sub_one_eq_mod, hentry]
    omega
  have hmask : ∀ m : UInt32, 0xFF &&& m = m → r.entry page &&& m = r.flag &&& m := by
    intro m hm
    rw [← hflags, UInt32.and_assoc, hm]
  refine ⟨hflags, ?_, ?_, ?_⟩
  · have hten : (10 : UInt32).toNat % 32 = 10 := rfl
    rw [UInt32.toNat_shiftRight, hentry, hten, Nat.shiftRight_eq_div_pow]
    omega
  · rw [hmask 0x1 (by decide)]
    exact r.valid
  · rw [hmask 0xE (by decide)]
    intro hzero
    have htwo : r.flag &&& 0x2 = (r.flag &&& 0xE) &&& 0x2 := by
      rw [UInt32.and_assoc]
      rfl
    rw [hzero] at htwo
    exact r.readable (htwo.trans (UInt32.zero_and))

section Leaf

variable {leaf vpn0 addr flag a : UInt32}

theorem setupLeaf_succ (memory : UInt32 → UInt32) (leaf vpn0 addr flag : UInt32) (n : Nat) :
    setupLeaf memory leaf vpn0 addr flag (n + 1) =
      Function.update (setupLeaf memory leaf vpn0 addr flag n) (entryAddr leaf (vpn0 + UInt32.ofNat n))
        (((addr + UInt32.ofNat n * 4096) >>> 2) ||| flag) := by
  simp [setupLeaf, List.range_succ]

theorem setupLeaf_other (h : ∀ i < n, a ≠ entryAddr leaf (vpn0 + UInt32.ofNat i)) :
    setupLeaf memory leaf vpn0 addr flag n a = memory a := by
  induction n with
  | zero => rfl
  | succ n ih =>
    rw [setupLeaf_succ, Function.update_of_ne (h n (Nat.lt_succ_self n))]
    exact ih fun i hi => h i (Nat.lt_succ_of_lt hi)

theorem entryAddr_slot (p : PageId) (vpn0 : UInt32) (i : Nat) :
    entryAddr (pageIdToAddr p) (vpn0 + UInt32.ofNat i) = slot p (vpn0.toNat + i) := by
  rw [slot, UInt32.ofNat_add, UInt32.ofNat_toNat]

theorem setupLeaf_page (hn : vpn0.toNat + n ≤ 1024) (hpq : q ≠ p) (hk : k < 1024) :
    setupLeaf memory (pageIdToAddr p) vpn0 addr flag n (slot q k) = memory (slot q k) := by
  apply setupLeaf_other
  intro i hi
  rw [entryAddr_slot, Ne, slot_inj hk (by omega)]
  exact fun h => hpq h.1

theorem setupLeaf_slot (hn : vpn0.toNat + n ≤ 1024) (hk : k < 1024) :
    setupLeaf memory (pageIdToAddr p) vpn0 addr flag n (slot p k) =
      if vpn0.toNat ≤ k ∧ k < vpn0.toNat + n then
        ((addr + UInt32.ofNat (k - vpn0.toNat) * 4096) >>> 2) ||| flag
      else memory (slot p k) := by
  induction n with
  | zero => exact (if_neg (by omega)).symm
  | succ n ih =>
    rw [setupLeaf_succ, entryAddr_slot]
    by_cases hlast : k = vpn0.toNat + n
    · rw [if_pos (by omega), hlast, Function.update_self, Nat.add_sub_cancel_left]
    · rw [Function.update_of_ne (mt (slot_inj hk (by omega)).mp (by omega)), ih (by omega)]
      by_cases hcover : vpn0.toNat ≤ k ∧ k < vpn0.toNat + n
      · rw [if_pos hcover, if_pos (by omega)]
      · rw [if_neg hcover, if_neg (by omega)]

end Leaf

theorem vpn1_toNat (vaddr : UInt32) : (vaddr >>> 22).toNat = vaddr.toNat / 4096 / 1024 := by
  have hbits : (22 : UInt32).toNat % 32 = 22 := rfl
  rw [UInt32.toNat_shiftRight, hbits, Nat.shiftRight_eq_div_pow]
  omega

theorem vpn0_toNat (vaddr : UInt32) : ((vaddr >>> 12) &&& 0x3FF).toNat = vaddr.toNat / 4096 % 1024 := by
  have hbits : (12 : UInt32).toNat % 32 = 12 := rfl
  have hmask : (0x3FF : UInt32).toNat = 2 ^ 10 - 1 := rfl
  rw [UInt32.toNat_and, UInt32.toNat_shiftRight, hbits, hmask, Nat.and_two_pow_sub_one_eq_mod,
    Nat.shiftRight_eq_div_pow]

theorem entryAddr_toNat (p : PageId) (x : UInt32) : entryAddr (pageIdToAddr p) x = slot p x.toNat := by
  rw [slot, UInt32.ofNat_toNat]

/-- The number of the root entry for the region. -/
def Region.vpn1 (r : Region) : Nat := r.addr.toNat / 4096 / 1024

theorem Region.vpn1_lt (r : Region) : r.vpn1 < 1024 := by
  have h := r.addr.toNat_lt
  unfold vpn1
  omega

/-- A region lies below one root entry. -/
theorem Region.Covers.vpn1_eq (h : r.Covers (v * 1024 + k)) (hk : k < 1024) : v = r.vpn1 := by
  obtain ⟨hle, hlt⟩ := h
  have hwithin := r.within
  unfold vpn1
  omega

theorem Region.setupLeaf_slot (r : Region) (memory : UInt32 → UInt32) (p : PageId) (hk : k < 1024) :
    setupLeaf memory (pageIdToAddr p) ((r.addr >>> 12) &&& 0x3FF) r.addr r.flag r.npages.toNat (slot p k) =
      if r.Covers (r.vpn1 * 1024 + k) then r.entry (r.vpn1 * 1024 + k) else memory (slot p k) := by
  have hwithin := r.within
  rw [Earth.setupLeaf_slot (by rw [vpn0_toNat]; omega) hk, vpn0_toNat, Region.entry]
  have hiff : (r.addr.toNat / 4096 % 1024 ≤ k ∧ k < r.addr.toNat / 4096 % 1024 + r.npages.toNat) ↔
      r.Covers (r.vpn1 * 1024 + k) := by
    unfold Region.Covers Region.vpn1
    omega
  have hindex : k - r.addr.toNat / 4096 % 1024 = r.vpn1 * 1024 + k - r.addr.toNat / 4096 := by
    unfold Region.vpn1
    omega
  simp only [hiff, hindex]

/-- The tables below the root hold the regions, the latest of them on top. `leaf` gives the leaf
tables that there are. -/
structure Mapped (memory : UInt32 → UInt32) (rootPage : PageId) (leaf : Nat → Option PageId)
    (rs : List Region) : Prop where
  root : ∀ v < 1024, memory (slot rootPage v) = (leaf v).elim 0 pointer
  ne_root : ∀ v < 1024, leaf v ≠ some rootPage
  distinct : ∀ v < 1024, ∀ w < 1024, ∀ p, leaf v = some p → leaf w = some p → v = w
  mapped : ∀ v < 1024, ∀ p, leaf v = some p → ∀ k < 1024,
    memory (slot p k) = (latest rs (v * 1024 + k)).elim 0 fun r => r.entry (v * 1024 + k)
  unmapped : ∀ v < 1024, leaf v = none → ∀ k < 1024, latest rs (v * 1024 + k) = none

section Mapped

variable {rootPage : PageId} {leaf : Nat → Option PageId}

theorem mapped_newRoot (s : Tables) (rootPage : PageId) (pid : Pid) :
    Mapped (s.newRoot rootPage pid).memory rootPage (fun _ => none) [] where
  root v hv := clearTable_self s.memory rootPage hv
  ne_root v hv := by simp
  distinct v hv w hw p h := by simp at h
  mapped v hv p h := by simp at h
  unmapped v hv h k hk := rfl

/-- A cleared leaf table on a page that is no table yet. -/
theorem Mapped.allocate (h : Mapped memory rootPage leaf rs) (hroot : p ≠ rootPage)
    (hleaf : ∀ v < 1024, leaf v ≠ some p) (hv : v < 1024) (hnone : leaf v = none) :
    Mapped (Function.update (clearTable memory (pageIdToAddr p)) (slot rootPage v) (pointer p)) rootPage
      (Function.update leaf v (some p)) rs where
  root w hw := by
    by_cases hwv : w = v
    · rw [hwv, Function.update_self, Function.update_self]
      rfl
    · rw [Function.update_of_ne (mt (slot_inj hw hv).mp (by simp [hwv])), Function.update_of_ne hwv,
        clearTable_other memory hroot.symm hw, h.root w hw]
  ne_root w hw := by
    by_cases hwv : w = v
    · rw [hwv, Function.update_self]
      simpa using hroot
    · rw [Function.update_of_ne hwv]
      exact h.ne_root w hw
  distinct u hu w hw q hqu hqw := by
    by_cases huv : u = v <;> by_cases hwv : w = v
    · rw [huv, hwv]
    · rw [huv, Function.update_self] at hqu
      rw [Function.update_of_ne hwv, ← hqu] at hqw
      exact absurd hqw (hleaf w hw)
    · rw [hwv, Function.update_self] at hqw
      rw [Function.update_of_ne huv, ← hqw] at hqu
      exact absurd hqu (hleaf u hu)
    · rw [Function.update_of_ne huv] at hqu
      rw [Function.update_of_ne hwv] at hqw
      exact h.distinct u hu w hw q hqu hqw
  mapped w hw q hq k hk := by
    by_cases hwv : w = v
    · rw [hwv, Function.update_self] at hq
      obtain rfl : p = q := by simpa using hq
      rw [Function.update_of_ne (mt (slot_inj hk hv).mp (by simp [hroot])), clearTable_self memory p hk, hwv,
        h.unmapped v hv hnone k hk]
      rfl
    · rw [Function.update_of_ne hwv] at hq
      have hqroot : q ≠ rootPage := fun he => h.ne_root w hw (he ▸ hq)
      have hqp : q ≠ p := fun he => hleaf w hw (he ▸ hq)
      rw [Function.update_of_ne (mt (slot_inj hk hv).mp (by simp [hqroot])), clearTable_other memory hqp hk,
        h.mapped w hw q hq k hk]
  unmapped w hw hq k hk := by
    by_cases hwv : w = v
    · rw [hwv, Function.update_self] at hq
      cases hq
    · rw [Function.update_of_ne hwv] at hq
      exact h.unmapped w hw hq k hk

theorem Mapped.put (h : Mapped memory rootPage leaf rs) (r : Region) (hp : leaf r.vpn1 = some p) :
    Mapped (setupLeaf memory (pageIdToAddr p) ((r.addr >>> 12) &&& 0x3FF) r.addr r.flag r.npages.toNat)
      rootPage leaf (rs ++ [r]) where
  root v hv := by
    have hroot : rootPage ≠ p := fun he => h.ne_root r.vpn1 r.vpn1_lt (he ▸ hp)
    have hwithin := r.within
    rw [setupLeaf_page (by rw [vpn0_toNat]; omega) hroot hv, h.root v hv]
  ne_root := h.ne_root
  distinct := h.distinct
  mapped v hv q hq k hk := by
    rw [latest_concat]
    by_cases hvr : v = r.vpn1
    · obtain rfl : p = q := by simpa [← hvr, hq] using hp.symm
      rw [r.setupLeaf_slot memory p hk, ← hvr, h.mapped v hv p hq k hk]
      split <;> rfl
    · have hqp : q ≠ p := fun he => hvr (h.distinct v hv r.vpn1 r.vpn1_lt p (he ▸ hq) hp)
      have hwithin := r.within
      rw [setupLeaf_page (by rw [vpn0_toNat]; omega) hqp hk, if_neg (fun hc => hvr (hc.vpn1_eq hk)),
        h.mapped v hv q hq k hk]
  unmapped v hv hnone k hk := by
    have hvr : v ≠ r.vpn1 := by
      rintro rfl
      simp [hp] at hnone
    rw [latest_concat, if_neg (fun hc => hvr (hc.vpn1_eq hk)), h.unmapped v hv hnone k hk]

theorem Mapped.inUse (h : Mapped s.memory rootPage leaf rs) (hroot : s.root = pageIdToAddr rootPage)
    (hv : v < 1024) (hp : leaf v = some p) : s.InUse p := by
  have hentry := h.root v hv
  rw [hp] at hentry
  obtain ⟨hvalid, _, hdecode, _⟩ := pointer_decode p
  refine Or.inr ⟨v, hv, ?_⟩
  rw [hroot]
  change s.memory (slot rootPage v) &&& 0x1 ≠ 0 ∧ (s.memory (slot rootPage v) <<< 2) &&& 0xFFFFF000 = _
  rw [hentry]
  exact ⟨hvalid, hdecode⟩

/-- One call, with its leaf table there or on a fresh page. -/
theorem Mapped.call (h : Mapped s.memory rootPage leaf rs) (hroot : s.root = pageIdToAddr rootPage)
    (pid : Pid) (c : Call)
    (hfresh : s.memory (entryAddr s.root (c.region.addr >>> 22)) &&& 0x1 = 0 → ¬s.InUse c.ppageId) :
    (s.call pid c).root = pageIdToAddr rootPage ∧
      ∃ leaf', Mapped (s.call pid c).memory rootPage leaf' (rs ++ [c.region]) := by
  have hlt := c.region.vpn1_lt
  have hslot : entryAddr s.root (c.region.addr >>> 22) = slot rootPage c.region.vpn1 := by
    rw [hroot, entryAddr_toNat, vpn1_toNat, Region.vpn1]
  have hentry := h.root c.region.vpn1 hlt
  rw [hslot] at hfresh
  unfold Tables.call setupIdentityRegion
  simp only [hslot]
  cases hleaf : leaf c.region.vpn1 with
  | none =>
    have hzero : s.memory (slot rootPage c.region.vpn1) = 0 := by rw [hentry, hleaf]; rfl
    have hnew : ¬s.InUse c.ppageId := hfresh (by rw [hzero]; rfl)
    rw [if_neg (by rw [hzero]; decide)]
    refine ⟨hroot, _, Mapped.put (h.allocate ?_ ?_ hlt hleaf) c.region (Function.update_self _ _ _)⟩
    · rintro rfl
      exact hnew (Or.inl hroot.symm)
    · intro v hv hp
      exact hnew (h.inUse hroot hv hp)
  | some p =>
    have hpointer : s.memory (slot rootPage c.region.vpn1) = pointer p := by rw [hentry, hleaf]; rfl
    obtain ⟨hvalid, _, hdecode, _⟩ := pointer_decode p
    rw [hpointer, if_pos hvalid, hdecode]
    exact ⟨hroot, leaf, h.put c.region hleaf⟩

theorem Mapped.calls (cs : List Call) (h : Mapped s.memory rootPage leaf rs)
    (hroot : s.root = pageIdToAddr rootPage) (hfresh : s.Fresh pid cs) :
    (s.calls pid cs).root = pageIdToAddr rootPage ∧
      ∃ leaf', Mapped (s.calls pid cs).memory rootPage leaf' (rs ++ cs.map Call.region) := by
  induction cs generalizing s leaf rs with
  | nil => exact ⟨hroot, leaf, by simpa [Tables.calls] using h⟩
  | cons c cs ih =>
    obtain ⟨hroot', leaf', h'⟩ := h.call hroot pid c hfresh.1
    have hrest := ih h' hroot' hfresh.2
    simpa [Tables.calls] using hrest

theorem Mapped.walk (h : Mapped memory rootPage leaf rs) (vaddr : UInt32) :
    walk memory (pageIdToAddr rootPage) vaddr =
      (latest rs (vaddr.toNat / 4096)).map fun r => (vaddr.toNat, r.flag) := by
  have hlt := vaddr.toNat_lt
  have hv : vaddr.toNat / 4096 / 1024 < 1024 := by omega
  have hk : vaddr.toNat / 4096 % 1024 < 1024 := Nat.mod_lt _ (by decide)
  have hpage : vaddr.toNat / 4096 / 1024 * 1024 + vaddr.toNat / 4096 % 1024 = vaddr.toNat / 4096 :=
    Nat.div_add_mod' _ _
  have hentry := h.root _ hv
  have hfirst : entryAddr (pageIdToAddr rootPage) (vaddr >>> 22) = slot rootPage (vaddr.toNat / 4096 / 1024) := by
    rw [entryAddr_toNat, vpn1_toNat]
  unfold Earth.walk
  simp only [hfirst]
  cases hleaf : leaf (vaddr.toNat / 4096 / 1024) with
  | none =>
    have hnone := h.unmapped _ hv hleaf _ hk
    rw [hpage] at hnone
    rw [hentry, hleaf, hnone]
    rfl
  | some p =>
    obtain ⟨hvalid, hinner, _, hdecode⟩ := pointer_decode p
    have hpte := h.mapped _ hv p hleaf _ hk
    rw [hpage] at hpte
    rw [hentry, hleaf, Option.elim_some, if_neg hvalid, if_neg (not_not.mpr hinner), hdecode, entryAddr_toNat,
      vpn0_toNat, hpte]
    cases hlatest : latest rs (vaddr.toNat / 4096) with
    | none =>
      have hinvalid : (0 : UInt32) &&& 0x1 = 0 := rfl
      rw [Option.elim_none, if_pos (Or.inl hinvalid)]
      rfl
    | some r =>
      have hcovers : r.Covers (vaddr.toNat / 4096) := by
        have hmem := List.mem_of_mem_getLast? hlatest
        simpa using (List.mem_filter.mp hmem).2
      obtain ⟨hflag, hppn, hone, hperm⟩ := r.entry_decode hcovers
      rw [Option.elim_some, if_neg (by simp [hone, hperm]), hflag, hppn, Nat.div_add_mod' vaddr.toNat 4096]
      rfl

end Mapped

/-- The hardware finds each address of the regions at itself, with the flags of the latest region, and
no other address. -/
theorem identity_map_exact (s : Tables) (rootPage : PageId) (pid : Pid) (cs : List Call)
    (hfresh : (s.newRoot rootPage pid).Fresh pid cs) (vaddr : UInt32) :
    walk ((s.newRoot rootPage pid).calls pid cs).memory ((s.newRoot rootPage pid).calls pid cs).root vaddr =
      (latest (cs.map Call.region) (vaddr.toNat / 4096)).map fun r => (vaddr.toNat, r.flag) := by
  obtain ⟨hroot, leaf, hmapped⟩ := (mapped_newRoot s rootPage pid).calls cs rfl hfresh
  rw [hroot]
  simpa using hmapped.walk vaddr

/-- No tables yet. -/
def sampleTables : Tables := ⟨fun _ => PageInfo.zero, fun _ => 0, 0⟩

/-- The SD card, not on a page boundary, and the UART, with one leaf table for both. -/
def sampleCalls : List Call :=
  [⟨1, ⟨0xF0008800, 1, userRwx, by decide, by decide, by decide, by decide, by decide⟩⟩,
    ⟨2, ⟨0xF0001000, 1, userRwx, by decide, by decide, by decide, by decide, by decide⟩⟩]

theorem sampleCalls_fresh : (sampleTables.newRoot 0 3).Fresh 3 sampleCalls := by
  refine ⟨fun _ => ?_, fun hzero => absurd hzero ?_, trivial⟩
  · decide +kernel
  · decide +kernel

theorem identity_map_exact_sample :
    walk ((sampleTables.newRoot 0 3).calls 3 sampleCalls).memory
      ((sampleTables.newRoot 0 3).calls 3 sampleCalls).root 0xF0008123 = some (0xF0008123, userRwx) ∧
    walk ((sampleTables.newRoot 0 3).calls 3 sampleCalls).memory
      ((sampleTables.newRoot 0 3).calls 3 sampleCalls).root 0xF0002000 = none := by
  constructor
  · rw [identity_map_exact sampleTables 0 3 sampleCalls sampleCalls_fresh]
    decide +kernel
  · rw [identity_map_exact sampleTables 0 3 sampleCalls sampleCalls_fresh]
    decide +kernel

/-- The tables of a process, with the regions of its platform. -/
theorem pagetableIdentityMap_walk (s : Tables) (pid : Pid) (platform : Platform) (rootPage : PageId)
    (mmuAlloc : Nat → PageId)
    (hfresh : (s.newRoot rootPage pid).Fresh pid
      ((identityRegions platform).mapIdx fun n r => ⟨mmuAlloc n, r⟩)) (vaddr : UInt32) :
    walk (pagetableIdentityMap s pid platform rootPage mmuAlloc).memory
        (pagetableIdentityMap s pid platform rootPage mmuAlloc).root vaddr =
      (latest (identityRegions platform) (vaddr.toNat / 4096)).map fun _ => (vaddr.toNat, userRwx) := by
  obtain ⟨hroot, leaf, hmapped⟩ := (mapped_newRoot s rootPage pid).calls _ rfl hfresh
  have hregions : ((identityRegions platform).mapIdx fun n r => (⟨mmuAlloc n, r⟩ : Call)).map Call.region =
      identityRegions platform := by
    apply List.ext_getElem <;> simp
  have hflags : ∀ r ∈ identityRegions platform, r.flag = userRwx := by
    cases platform <;> decide
  rw [List.nil_append, hregions] at hmapped
  unfold pagetableIdentityMap
  rw [hroot, hmapped.walk vaddr]
  cases hlatest : latest (identityRegions platform) (vaddr.toNat / 4096) with
  | none => rfl
  | some r =>
    have hmem := List.mem_of_mem_filter (List.mem_of_mem_getLast? hlatest)
    rw [Option.map_some, Option.map_some, hflags r hmem]

end OsSuite.Earth
