import Mathlib

/-! SimpleSmartLoader: the handler of segmentation faults, which maps the page of the address
that the program touches. It is built for a 32-bit machine. -/

namespace OsSuite.SmartLoader

abbrev pageSize : UInt32 := 4096

abbrev ptLoad : UInt32 := 1

abbrev pfX : UInt32 := 1

abbrev pfW : UInt32 := 2

abbrev pfR : UInt32 := 4

structure Phdr where
  p_type : UInt32
  p_offset : UInt32
  p_vaddr : UInt32
  p_filesz : UInt32
  p_memsz : UInt32
  p_flags : UInt32
  deriving DecidableEq

def pageBase (a : UInt32) : UInt32 := (a / pageSize) * pageSize

/-- The program's memory, nothing where no page is mapped, and what the loader keeps. -/
structure Loader where
  mem : UInt32 → Option UInt8
  map_ranges : List (UInt32 × UInt32)
  no_page_faults : Nat
  no_allocations : Nat
  no_internal_fragmentation : Nat

def Loader.init : Loader := ⟨fun _ => none, [], 0, 0, 0⟩

/-- `mmap` with MAP_FIXED: the page at `base` holds `content`. -/
def mmap (mem : UInt32 → Option UInt8) (base : UInt32) (content : UInt32 → UInt8) :
    UInt32 → Option UInt8 :=
  fun a => if pageBase a = base then some (content a) else mem a

def memset (mem : UInt32 → Option UInt8) (start count : UInt32) : UInt32 → Option UInt8 :=
  fun a => if start.toNat ≤ a.toNat ∧ a.toNat < start.toNat + count.toNat then some 0 else mem a

/-- The bytes that belong to a page of the file, which reads as zero beyond its end. -/
def filePage (file : List UInt8) (base file_offset a : UInt32) : UInt8 :=
  file.getD (file_offset + (a - base)).toNat 0

/-- The part of `loader_map_segment` that counts. -/
def account (st : Loader) (seg : Phdr) (fault_page_base : UInt32) : Loader :=
  let seg_start := seg.p_vaddr
  let seg_mem_end := seg.p_vaddr + seg.p_memsz
  let page_end := fault_page_base + pageSize
  let used_start := if fault_page_base < seg_start then seg_start else fault_page_base
  let used_end := if page_end > seg_mem_end then seg_mem_end else page_end
  { st with
    map_ranges := st.map_ranges ++ [(fault_page_base, pageSize)]
    no_allocations := st.no_allocations + 1
    no_internal_fragmentation := st.no_internal_fragmentation +
      if used_end > used_start then (pageSize - (used_end - used_start)).toNat else 0 }

/-- The number of bytes to clear from the end of the file data on, in the page. -/
def bssBytes (seg : Phdr) (fault_page_base : UInt32) : UInt32 :=
  let seg_file_end := seg.p_vaddr + seg.p_filesz
  let seg_mem_end := seg.p_vaddr + seg.p_memsz
  let bss_start_in_page := seg_file_end - fault_page_base
  let page_end := fault_page_base + pageSize
  let bss_end_in_page := if seg_mem_end ≤ page_end then seg_mem_end - fault_page_base else pageSize
  bss_end_in_page - bss_start_in_page

/-- Nothing where the handler itself writes to a page without PROT_WRITE, and the process
is killed. -/
def loader_map_segment (file : List UInt8) (st : Loader) (seg : Phdr) (fault_addr : UInt32) :
    Option Loader :=
  let seg_file_end := seg.p_vaddr + seg.p_filesz
  let fault_page_base := pageBase fault_addr
  let writable := seg.p_flags &&& pfW ≠ 0
  if fault_addr < seg_file_end then
    -- The page needs file data.
    let seg_offset_aligned := pageBase seg.p_offset
    let seg_vaddr_aligned := pageBase seg.p_vaddr
    let file_offset := seg_offset_aligned + (fault_page_base - seg_vaddr_aligned)
    let mem := mmap st.mem fault_page_base (filePage file fault_page_base file_offset)
    if seg.p_memsz > seg.p_filesz ∧ seg_file_end ≥ fault_page_base ∧
        seg_file_end < fault_page_base + pageSize ∧ bssBytes seg fault_page_base > 0 then
      if writable then
        let bss_start_in_page := seg_file_end - fault_page_base
        some (account { st with
          mem := memset mem (fault_page_base + bss_start_in_page) (bssBytes seg fault_page_base) }
          seg fault_page_base)
      else none
    else some (account { st with mem := mem } seg fault_page_base)
  else if writable then
    -- The page is taken to be BSS.
    let mem := mmap st.mem fault_page_base fun _ => 0
    some (account { st with mem := memset mem fault_page_base pageSize } seg fault_page_base)
  else none

/-- The test of `try_load_for_fault`. -/
def Phdr.contains (s : Phdr) (fa : UInt32) : Prop :=
  s.p_type = ptLoad ∧ s.p_vaddr ≤ fa ∧ fa < s.p_vaddr + s.p_memsz

instance (s : Phdr) (fa : UInt32) : Decidable (s.contains fa) := inferInstanceAs (Decidable (_ ∧ _ ∧ _))

def try_load_for_fault (phdr : List Phdr) (file : List UInt8) (st : Loader) (fa : UInt32) :
    Option Loader :=
  match phdr with
  | [] => none
  | s :: phdr =>
    if s.contains fa then loader_map_segment file st s fa else try_load_for_fault phdr file st fa

/-- Nothing where the signal is raised again, and kills the process. -/
def segv_handler (phdr : List Phdr) (file : List UInt8) (st : Loader) (fa : UInt32) : Option Loader :=
  try_load_for_fault phdr file { st with no_page_faults := st.no_page_faults + 1 } fa

/-- The addresses of a segment, and those of its file data. -/
def Phdr.covers (s : Phdr) (a : UInt32) : Prop :=
  s.p_vaddr.toNat ≤ a.toNat ∧ a.toNat < s.p_vaddr.toNat + s.p_memsz.toNat

def Phdr.filed (s : Phdr) (a : UInt32) : Prop :=
  s.p_vaddr.toNat ≤ a.toNat ∧ a.toNat < s.p_vaddr.toNat + s.p_filesz.toNat

instance (s : Phdr) (a : UInt32) : Decidable (s.filed a) := inferInstanceAs (Decidable (_ ∧ _))

structure Image where
  phdr : List Phdr
  file : List UInt8
  /-- A larger file cannot be opened. -/
  file_small : file.length < 2 ^ 31
  sizes : ∀ s ∈ phdr, s.p_type = ptLoad → s.p_filesz ≤ s.p_memsz
  congruent : ∀ s ∈ phdr, s.p_type = ptLoad → s.p_offset % pageSize = s.p_vaddr % pageSize
  readable : ∀ s ∈ phdr, s.p_type = ptLoad → s.p_flags &&& pfR ≠ 0
  writable : ∀ s ∈ phdr, s.p_type = ptLoad → s.p_flags &&& pfW ≠ 0
  in_file : ∀ s ∈ phdr, s.p_type = ptLoad → s.p_offset.toNat + s.p_filesz.toNat ≤ file.length
  apart : ∀ s ∈ phdr, ∀ t ∈ phdr, s.p_type = ptLoad → t.p_type = ptLoad → s ≠ t →
    ∀ a b, s.covers a → t.covers b → pageBase a ≠ pageBase b

/-- The program touches an address. -/
def touch (img : Image) (st : Loader) (a : UInt32) : Option Loader :=
  if (st.mem a).isSome then some st else segv_handler img.phdr img.file st a

def touches (img : Image) (st : Loader) : List UInt32 → Option Loader
  | [] => some st
  | a :: as => (touch img st a).bind fun st => touches img st as

end OsSuite.SmartLoader
