import OsSuite.Outcome
import OsSuite.CopyLoop

/-! The software TLB of the earth layer. All processes run in one window of
physical memory, copied out to the pages of `mmu_alloc` and in again at a switch. -/

namespace OsSuite.Earth

abbrev Pid := Int

abbrev pageSize : Nat := 4096

abbrev appsPagesBase : UInt32 := 0x80400000

abbrev appsPagesCnt : Nat := 512

abbrev PageId := Fin appsPagesCnt

instance pageSize_neZero : NeZero pageSize := ⟨by decide⟩

instance appsPagesCnt_neZero : NeZero appsPagesCnt := ⟨by decide⟩

abbrev Page := Fin pageSize → UInt8

structure PageInfo where
  use : Bool
  pid : Pid
  vpageNo : UInt32
  deriving DecidableEq

def PageInfo.zero : PageInfo := ⟨false, 0, 0⟩

abbrev PageInfoTable := PageId → PageInfo

inductive Fatal where
  | noMoreFreeMemory

def pageNoToAddr (x : UInt32) : UInt32 := x * 4096

def pageIdToAddr (x : PageId) : UInt32 := appsPagesBase + UInt32.ofNat x.val * 4096

theorem pageIdToAddr_toNat (i : PageId) : (pageIdToAddr i).toNat = (0x80400 + i.val) * pageSize := by
  have hi : i.val < 512 := i.isLt
  rw [pageIdToAddr, UInt32.toNat_add, UInt32.toNat_mul, UInt32.toNat_ofNat']
  simp only [appsPagesBase, pageSize, UInt32.reduceToNat, Nat.reducePow]
  omega

/-- The page of physical memory that an address lies on. -/
def pageOf (addr : UInt32) : Nat := addr.toNat / pageSize

def offsetOf (addr : UInt32) : Fin pageSize := Fin.ofNat pageSize addr.toNat

def allocPage (table : PageInfoTable) : Except Fatal (PageId × PageInfoTable) :=
  match (List.finRange appsPagesCnt).find? (fun i => !(table i).use) with
  | some i => .ok (i, Function.update table i { table i with use := true })
  | none => .error .noMoreFreeMemory

def freePages (table : PageInfoTable) (pid : Pid) : PageInfoTable :=
  fun i => if (table i).use ∧ (table i).pid = pid then PageInfo.zero else table i

structure Mmu where
  pageInfoTable : PageInfoTable
  memory : Nat → Page
  /-- The static variable of `soft_tlb_switch`. -/
  currVmPid : Pid

namespace Mmu

def boot (memory : Nat → Page) : Mmu := ⟨fun _ => PageInfo.zero, memory, -1⟩

def mmuAlloc (m : Mmu) : Except Fatal (PageId × Mmu) := do
  let (i, table) ← allocPage m.pageInfoTable
  return (i, { m with pageInfoTable := table })

def mmuFree (m : Mmu) (pid : Pid) : Mmu :=
  { m with pageInfoTable := freePages m.pageInfoTable pid }

def softTlbMap (m : Mmu) (pid : Pid) (vpageNo : UInt32) (ppageId : PageId) : Mmu :=
  let info := { m.pageInfoTable ppageId with pid := pid, vpageNo := vpageNo }
  { m with pageInfoTable := Function.update m.pageInfoTable ppageId info }

/-- The pages of a process, in the order in which the loops find them. -/
def pagesOf (table : PageInfoTable) (pid : Pid) : List PageId :=
  (List.finRange appsPagesCnt).filter fun i => (table i).use ∧ (table i).pid = pid

def windowPage (table : PageInfoTable) (i : PageId) : Nat := pageOf (pageNoToAddr (table i).vpageNo)

def poolPage (i : PageId) : Nat := pageOf (pageIdToAddr i)

def softTlbSwitch (m : Mmu) (pid : Pid) : Mmu :=
  if pid = m.currVmPid then m
  else
    let window := windowPage m.pageInfoTable
    let unmapped := CopyLoop.copyAll window poolPage (pagesOf m.pageInfoTable m.currVmPid) m.memory
    { m with
      memory := CopyLoop.copyAll poolPage window (pagesOf m.pageInfoTable pid) unmapped
      currVmPid := pid }

def softTlbTranslate (m : Mmu) (pid : Pid) (vaddr : UInt32) : UInt32 × Mmu :=
  (vaddr, m.softTlbSwitch pid)

/-- One byte stored at a physical address. -/
def store (m : Mmu) (addr : UInt32) (byte : UInt8) : Mmu :=
  let page := Function.update (m.memory (pageOf addr)) (offsetOf addr) byte
  { m with memory := Function.update m.memory (pageOf addr) page }

def byteAt (m : Mmu) (addr : UInt32) : UInt8 := m.memory (pageOf addr) (offsetOf addr)

end Mmu

end OsSuite.Earth
