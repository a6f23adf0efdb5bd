import OsSuite.Outcome
import OsSuite.Programs
import OsSuite.Words

/-! The program loader, as calls of the memory allocator and writes into its pages. -/

namespace OsSuite.Elf

open Earth (Pid Page PageId PageInfoTable pageSize appsPagesBase)
open Grass (cmdNargs cmdArgLen appsArg)

abbrev blockSize : Nat := 512

abbrev ramStart : UInt32 := 0x80000000
abbrev syscallArg : UInt32 := 0x80301000
abbrev appsStackTop : UInt32 := 0x80400000

abbrev Block := Fin blockSize → UInt8

/-- An `elf_reader` on a file. -/
abbrev Reader := UInt32 → Block

inductive Stop where
  | noMoreFreeMemory
  | pidTooLarge
  | outOfBounds

inductive Translation where
  | pageTable
  | softTlb
  deriving DecidableEq

/-- The memory that `mmu_alloc` gives out, with `page_info_table`. -/
structure Pool where
  table : PageInfoTable
  pages : PageId → Page

namespace Pool

@[irreducible] def mmuAlloc (m : Pool) : Except Stop (PageId × Pool) :=
  match Earth.allocPage m.table with
  | .ok (i, table) => .ok (i, { m with table := table })
  | .error _ => .error .noMoreFreeMemory

/-- `page_table_map`, which checks the pid, or `soft_tlb_map`. -/
def mmuMap (t : Translation) (m : Pool) (pid : Pid) (vpageNo : UInt32) (i : PageId) : Except Stop Pool :=
  if t = .pageTable ∧ pid ≥ 256 then .error .pidTooLarge
  else
    let info := { m.table i with pid := pid, vpageNo := vpageNo }
    .ok { m with table := Function.update m.table i info }

def setPage (m : Pool) (i : PageId) (page : Page) : Pool :=
  { m with pages := Function.update m.pages i page }

def allocMap (t : Translation) (pid : Pid) (vpageNo : UInt32) (m : Pool) : Except Stop (PageId × Pool) := do
  let (i, m) ← m.mmuAlloc
  let m ← m.mmuMap t pid vpageNo i
  return (i, m)

end Pool

/-- `memcpy` of the first `size` bytes of a block into a page. -/
def copyInto (page : Page) (offset size : Nat) (block : Block) : Page := fun x =>
  if h : offset ≤ x.val ∧ x.val < offset + size ∧ x.val - offset < blockSize then
    block ⟨x.val - offset, h.2.2⟩
  else page x

/-- The fields of a `struct elf32_program_header` that the loader uses. -/
structure Segment where
  offset : UInt32
  vaddr : UInt32
  filesz : UInt32
  memsz : UInt32

structure Loading where
  pool : Pool
  currPageno : UInt32
  ppageId : PageId

def Loading.newPage (t : Translation) (pid : Pid) (s : Loading) : Except Stop Loading := do
  let (i, m) ← s.pool.allocMap t pid s.currPageno
  return ⟨m.setPage i fun _ => 0, s.currPageno + 1, i⟩

/-- The round of the loop at `off = BLOCK_SIZE * k`. -/
def loadBlock (t : Translation) (pid : Pid) (reader : Reader) (seg : Segment) (s : Loading) (k : Nat) :
    Except Stop Loading := do
  let off := blockSize * k
  let s ← if off % pageSize = 0 then s.newPage t pid else .ok s
  let size := if off + blockSize < seg.filesz.toNat then blockSize else seg.filesz.toNat - off
  let block := reader (seg.offset / 512 + UInt32.ofNat k)
  let page := copyInto (s.pool.pages s.ppageId) (off % pageSize) size block
  return { s with pool := s.pool.setPage s.ppageId page }

/-- One segment. The number of rounds is what `off` needs to reach `filesz`. Where the unsigned
`off` would wrap instead, the pages run out before. -/
def loadSegment (t : Translation) (pid : Pid) (reader : Reader) (m : Pool) (seg : Segment) :
    Except Stop Pool :=
  if seg.vaddr < ramStart then .ok m
  else do
    let endPageno := (seg.vaddr + seg.memsz) / 4096
    let rounds := (seg.filesz.toNat + 511) / blockSize
    let s ← (List.range rounds).foldlM (loadBlock t pid reader seg) ⟨m, seg.vaddr / 4096, 0⟩
    let s ← (List.range (endPageno.toNat - s.currPageno.toNat)).foldlM (fun s _ => s.newPage t pid) s
    return s.pool

def blockWord (b : Block) (offset : Nat) : UInt32 :=
  Words.load (fun j => if h : j < blockSize then b ⟨j, h⟩ else 0) offset

def phoff (hbuf : Block) : UInt32 := blockWord hbuf 28

/-- `e_phnum`, the lower half of its word. -/
def phnum (hbuf : Block) : UInt32 := blockWord hbuf 44 &&& 0xFFFF

def headerAt (hbuf : Block) (i : Nat) : Nat := (phoff hbuf).toNat + 32 * i

/-- `pheader[i]`, wherever it is. -/
def headerOf (hbuf : Block) (i : Nat) : Segment :=
  let a := headerAt hbuf i
  ⟨blockWord hbuf (a + 4), blockWord hbuf (a + 8), blockWord hbuf (a + 16), blockWord hbuf (a + 20)⟩

/-- `pheader[i]`, inside of the first block. -/
def pheader (hbuf : Block) (i : Nat) : Except Stop Segment :=
  if headerAt hbuf i + 32 ≤ blockSize then .ok (headerOf hbuf i) else .error .outOfBounds

def storeWord (page : Page) (offset : Nat) (w : UInt32) : Page := fun x =>
  if offset ≤ x.val ∧ x.val < offset + 4 then Words.byte w (x.val - offset) else page x

/-- Where the strings of the arguments start in their page. -/
abbrev argsOffset : Nat := 68

/-- The value of `argv_addr[i]`. -/
def argAddr (i : Nat) : UInt32 := appsArg + 4 + 4 * 16 + UInt32.ofNat i * 32

/-- The arguments in their page: the count, the strings and the pointers to them. -/
def argsPage (page : Page) (argc : Nat) (argv : Option (Fin cmdNargs → Fin cmdArgLen → UInt8)) : Page :=
  let page := storeWord page 0 (UInt32.ofNat argc)
  let page : Page := match argv with
    | none => page
    | some argv => fun x =>
      if h : argsOffset ≤ x.val ∧ x.val < argsOffset + argc * cmdArgLen ∧
          (x.val - argsOffset) / cmdArgLen < cmdNargs then
        argv ⟨(x.val - argsOffset) / cmdArgLen, h.2.2⟩
          ⟨(x.val - argsOffset) % cmdArgLen, Nat.mod_lt _ (by decide)⟩
      else page x
  (List.range argc).foldl (fun page i => storeWord page (4 + 4 * i) (argAddr i)) page

/-- `elf_load`, for as many arguments as a request has rows. -/
def elfLoad (t : Translation) (pid : Pid) (reader : Reader) (argc : Int32)
    (argv : Option (Fin cmdNargs → Fin cmdArgLen → UInt8)) (m : Pool) : Except Stop Pool := do
  let hbuf := reader 0
  let m ← (List.range (phnum hbuf).toNat).foldlM (fun m i => do
    let seg ← pheader hbuf i
    loadSegment t pid reader m seg) m
  let (i, m) ← m.allocMap t pid (appsArg / 4096)
  if argc.toInt < 0 ∨ cmdNargs < argc.toInt then throw .outOfBounds
  let m := m.setPage i (argsPage (m.pages i) argc.toInt.toNat argv)
  let (_, m) ← m.allocMap t pid (syscallArg / 4096)
  let (_, m) ← m.allocMap t pid (appsStackTop / 4096 - 1)
  let (_, m) ← m.allocMap t pid (appsStackTop / 4096 - 2)
  return m

section Alloc

variable {t : Translation} {pid : Pid} {m m' : Pool} {table table' : PageInfoTable}

theorem allocPage_free {i : PageId} (h : Earth.allocPage table = .ok (i, table')) :
    (table i).use = false ∧ table' = Function.update table i { table i with use := true } := by
  unfold Earth.allocPage at h
  split at h
  · rename_i j hj
    cases h
    have hfree := List.find?_some hj
    exact ⟨by simpa using hfree, rfl⟩
  · cases h

theorem allocMap_eq {vpageNo : UInt32} {i : PageId} (h : m.allocMap t pid vpageNo = .ok (i, m')) :
    (m.table i).use = false ∧ m' = { m with table := Function.update m.table i ⟨true, pid, vpageNo⟩ } := by
  unfold Pool.allocMap Pool.mmuAlloc Pool.mmuMap at h
  cases halloc : Earth.allocPage m.table with
  | error e =>
    rw [halloc] at h
    cases h
  | ok r =>
    obtain ⟨j, table⟩ := r
    obtain ⟨hfree, rfl⟩ := allocPage_free halloc
    rw [halloc] at h
    dsimp only [bind, Except.bind] at h
    by_cases hpid : t = .pageTable ∧ pid ≥ 256
    · rw [if_pos hpid] at h
      cases h
    · rw [if_neg hpid] at h
      cases h
      refine ⟨hfree, ?_⟩
      simp

end Alloc

end OsSuite.Elf
