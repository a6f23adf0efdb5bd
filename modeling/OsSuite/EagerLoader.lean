import OsSuite.SmartLoader

/-! The loader without bonus: it maps the segment of the entry point as a whole, and calls into
it. The program is built for a 32-bit machine. -/

namespace OsSuite.EagerLoader

open SmartLoader (Phdr ptLoad)

inductive Effect where
  /-- An entry of the program header table is read. -/
  | read (count : Nat)
  | printf (text : String)
  | mmap (start length offset : UInt32)
  | call (address : UInt32)
  deriving DecidableEq

def Effect.mapping : Effect → Option (UInt32 × UInt32 × UInt32)
  | .mmap start length offset => some (start, length, offset)
  | _ => none

def Effect.callee : Effect → Option UInt32
  | .call address => some address
  | _ => none

abbrev mapFailed : UInt32 := 0xFFFFFFFF

/-- What the program finds outside of its own code: where the kernel puts a mapping, if it
grants it, and the `p_vaddr` that stands behind the program header table. -/
structure Machine where
  mmap : UInt32 → UInt32 → UInt32 → Option UInt32
  beyond : UInt32

variable (mach : Machine) (entry : UInt32)

/-- The test of the loop. -/
def within (s : Phdr) : Prop :=
  s.p_type = ptLoad ∧ entry ≥ s.p_vaddr ∧ entry ≤ s.p_vaddr + s.p_memsz

instance (s : Phdr) : Decidable (within entry s) := inferInstanceAs (Decidable (_ ∧ _ ∧ _))

/-- The loop at the entry `count`, before which `virtual_memory` is null: the index that it
leaves behind, and `virtual_memory`. -/
def search : List Phdr → Nat → List Effect × Nat × UInt32
  | [], count => ([.printf "No PT_LOAD segment found\n"], count, 0)
  | s :: phdr, count =>
    if within entry s then
      ([.read count, .mmap s.p_vaddr s.p_memsz s.p_offset], count,
        (mach.mmap s.p_vaddr s.p_memsz s.p_offset).getD mapFailed)
    else
      let (effects, count', virtual_memory) := search phdr (count + 1)
      (.read count :: effects, count', virtual_memory)

/-- From the loop on, up to the call. -/
def load_and_run_elf (phdr : List Phdr) : List Effect :=
  let (effects, count, virtual_memory) := search mach entry phdr 0
  let start := (phdr[count]?.map Phdr.p_vaddr).getD mach.beyond
  let offset := entry - start
  effects ++ [.read count, .call (virtual_memory + offset)]

/-- The entry point lies in the loadable segment. -/
def Enters (s : Phdr) : Prop := s.p_type = ptLoad ∧ s.covers entry

/-- The segment of the entry point is mapped and called at the entry point; where there is none,
nothing behind the table is read, and nothing is called. -/
structure Selects (phdr : List Phdr) : Prop where
  entered : ∀ s ∈ phdr, Enters entry s → ∃ base, mach.mmap s.p_vaddr s.p_memsz s.p_offset = some base ∧
    (load_and_run_elf mach entry phdr).filterMap Effect.mapping = [(s.p_vaddr, s.p_memsz, s.p_offset)] ∧
    (load_and_run_elf mach entry phdr).filterMap Effect.callee = [base + (entry - s.p_vaddr)]
  missing : (∀ s ∈ phdr, ¬Enters entry s) →
    .read phdr.length ∉ load_and_run_elf mach entry phdr ∧
      (load_and_run_elf mach entry phdr).filterMap Effect.callee = []

variable {mach entry} {phdr : List Phdr} {s t : Phdr}

theorem search_found {pre post : List Phdr} (hpre : ∀ t ∈ pre, ¬within entry t) (hs : within entry s)
    (count : Nat) :
    ∃ reads, search mach entry (pre ++ s :: post) count =
      (reads ++ [.mmap s.p_vaddr s.p_memsz s.p_offset], count + pre.length,
        (mach.mmap s.p_vaddr s.p_memsz s.p_offset).getD mapFailed) ∧
      reads.filterMap Effect.mapping = [] ∧ reads.filterMap Effect.callee = [] := by
  induction pre generalizing count with
  | nil => exact ⟨[.read count], by simp [search, hs], rfl, rfl⟩
  | cons t pre ih =>
    obtain ⟨reads, he, hmap, hcall⟩ := ih (fun u hu => hpre u (by simp [hu])) (count + 1)
    refine ⟨.read count :: reads, ?_, (List.filterMap_cons_none rfl).trans hmap,
      (List.filterMap_cons_none rfl).trans hcall⟩
    rw [List.cons_append, search, if_neg (hpre t (by simp)), he]
    simp [Nat.add_assoc, Nat.add_comm 1]

theorem search_missing (h : ∀ t ∈ phdr, ¬within entry t) (count : Nat) :
    ((search mach entry phdr count).1).filterMap Effect.mapping = [] := by
  induction phdr generalizing count with
  | nil => rfl
  | cons t phdr ih =>
    rw [search, if_neg (h t (by simp))]
    exact (List.filterMap_cons_none rfl).trans (ih (fun u hu => h u (by simp [hu])) (count + 1))

theorem load_and_run_elf_found {pre post : List Phdr} (hpre : ∀ t ∈ pre, ¬within entry t)
    (hs : within entry s) :
    (load_and_run_elf mach entry (pre ++ s :: post)).filterMap Effect.mapping =
        [(s.p_vaddr, s.p_memsz, s.p_offset)] ∧
      (load_and_run_elf mach entry (pre ++ s :: post)).filterMap Effect.callee =
        [(mach.mmap s.p_vaddr s.p_memsz s.p_offset).getD mapFailed + (entry - s.p_vaddr)] := by
  obtain ⟨reads, he, hmap, hcall⟩ := @search_found mach entry s pre post hpre hs 0
  have hs : (pre ++ s :: post)[pre.length]? = some s := by simp
  unfold load_and_run_elf
  rw [he, Nat.zero_add]
  dsimp only
  rw [hs, List.filterMap_append, List.filterMap_append, hmap, List.filterMap_append, List.filterMap_append, hcall]
  exact ⟨rfl, rfl⟩

theorem load_and_run_elf_calls (mach : Machine) (entry : UInt32) (phdr : List Phdr) :
    (load_and_run_elf mach entry phdr).filterMap Effect.callee ≠ [] := by
  simp [load_and_run_elf, Effect.callee]

/-- The test passes more than the entry point's segment: also one that ends at the entry point. -/
theorem within_iff (hend : s.p_vaddr.toNat + s.p_memsz.toNat ≤ 2 ^ 32) : within entry s ↔
    s.p_vaddr.toNat + s.p_memsz.toNat < 2 ^ 32 ∧
      (Enters entry s ∨ s.p_type = ptLoad ∧ s.p_vaddr.toNat + s.p_memsz.toNat = entry.toNat) := by
  have hm := s.p_memsz.toNat_lt
  unfold within Enters Phdr.covers
  rw [ge_iff_le, UInt32.le_iff_toNat_le, UInt32.le_iff_toNat_le, UInt32.toNat_add]
  constructor
  · rintro ⟨hload, hle, hlt⟩
    rcases hend.lt_or_eq with hlt' | heq
    · refine ⟨hlt', ?_⟩
      rcases Nat.lt_or_ge entry.toNat (s.p_vaddr.toNat + s.p_memsz.toNat) with hin | hout
      · exact .inl ⟨hload, hle, hin⟩
      · exact .inr ⟨hload, by omega⟩
    · omega
  · rintro ⟨hlt, ⟨hload, hle, hin⟩ | ⟨hload, heq⟩⟩
    · exact ⟨hload, hle, by omega⟩
    · exact ⟨hload, by omega, by omega⟩

/-- The segment of the entry point is in the table, does not end at the end of the address space,
and can be mapped, and no loadable segment before it in the table ends at the entry point. -/
def Reached (mach : Machine) (entry : UInt32) (phdr : List Phdr) : Prop :=
  ∃ pre s post, phdr = pre ++ s :: post ∧ Enters entry s ∧
    s.p_vaddr.toNat + s.p_memsz.toNat < 2 ^ 32 ∧
    (mach.mmap s.p_vaddr s.p_memsz s.p_offset).isSome ∧
    ∀ t ∈ pre, t.p_type = ptLoad → t.p_vaddr.toNat + t.p_memsz.toNat ≠ entry.toNat

/-- The first entry of the table that passes the test. -/
theorem first_within (phdr : List Phdr) : (∀ t ∈ phdr, ¬within entry t) ∨
    ∃ pre s post, phdr = pre ++ s :: post ∧ (∀ t ∈ pre, ¬within entry t) ∧ within entry s := by
  induction phdr with
  | nil => exact .inl (by simp)
  | cons t phdr ih =>
    by_cases ht : within entry t
    · exact .inr ⟨[], t, phdr, rfl, by simp, ht⟩
    · rcases ih with hnone | ⟨pre, s, post, rfl, hpre, hs⟩
      · exact .inl (by simpa [ht] using hnone)
      · exact .inr ⟨t :: pre, s, post, rfl, by simpa [ht] using hpre, hs⟩

/-- The loader runs the segment of the entry point exactly when it is reached. -/
theorem load_and_run_elf_selects_iff (mach : Machine) (entry : UInt32) (phdr : List Phdr)
    (hwrap : ∀ s ∈ phdr, s.p_type = ptLoad → s.p_vaddr.toNat + s.p_memsz.toNat ≤ 2 ^ 32)
    (hdisj : phdr.Pairwise fun s t => s.p_type = ptLoad → t.p_type = ptLoad →
      ∀ a, s.covers a → ¬t.covers a) :
    Selects mach entry phdr ↔ Reached mach entry phdr := by
  constructor
  · intro h
    obtain ⟨s, hs, henter⟩ : ∃ s ∈ phdr, Enters entry s := by
      by_contra hnone
      push Not at hnone
      exact load_and_run_elf_calls mach entry phdr (h.missing hnone).2
    obtain ⟨base, hbase, hmap, -⟩ := h.entered s hs henter
    rcases @first_within entry phdr with hnone | ⟨pre, t, post, rfl, hpre, ht⟩
    · have hmissing := @search_missing mach entry phdr hnone 0
      unfold load_and_run_elf at hmap
      dsimp only at hmap
      rw [List.filterMap_append, hmissing] at hmap
      cases hmap
    · -- The entry that was mapped has the place and the size of the entry point's segment.
      rw [(load_and_run_elf_found hpre ht).1, List.singleton_inj, Prod.mk.injEq, Prod.mk.injEq] at hmap
      obtain ⟨hvaddr, hmemsz, hoffset⟩ := hmap
      have hlt := ((within_iff (hwrap t (by simp) ht.1)).mp ht).1
      have henter' : Enters entry t := by
        refine ⟨ht.1, ?_⟩
        unfold Phdr.covers
        rw [hvaddr, hmemsz]
        exact henter.2
      refine ⟨pre, t, post, rfl, henter', hlt, ?_, fun u hu hload hends => ?_⟩
      · rw [hvaddr, hmemsz, hoffset, hbase]
        rfl
      · have hu' := entry.toNat_lt
        exact hpre u hu ((within_iff (hwrap u (by simp [hu]) hload)).mpr ⟨by omega, .inr ⟨hload, hends⟩⟩)
  · rintro ⟨pre, s, post, rfl, henter, hlt, hmap, hpre⟩
    obtain ⟨base, hbase⟩ := Option.isSome_iff_exists.mp hmap
    obtain ⟨-, hpost, hacross⟩ := List.pairwise_append.mp hdisj
    have hs : within entry s := (within_iff hlt.le).mpr ⟨hlt, .inl henter⟩
    have hbefore : ∀ t ∈ pre, ¬within entry t := by
      intro t ht hw
      rcases ((within_iff (hwrap t (by simp [ht]) hw.1)).mp hw).2 with hin | ⟨hload, hends⟩
      · exact hacross t ht s (by simp) hin.1 henter.1 entry hin.2 henter.2
      · exact hpre t ht hload hends
    obtain ⟨hmapping, hcallee⟩ := @load_and_run_elf_found mach entry s pre post hbefore hs
    refine ⟨fun t ht hin => ?_, fun hnone => absurd henter (hnone s (by simp))⟩
    have hts : t = s := by
      rcases List.mem_append.mp ht with ht | ht
      · exact absurd henter.2 (hacross t ht s (by simp) hin.1 henter.1 entry hin.2)
      · rcases List.mem_cons.mp ht with ht | ht
        · exact ht
        · exact absurd hin.2 ((List.pairwise_cons.mp hpost).1 t ht henter.1 hin.1 entry henter.2)
    subst hts
    rw [hbase] at hcallee
    exact ⟨base, hbase, hmapping, hcallee⟩

/-- A kernel that grants every mapping of whole pages of the file at the wanted address. -/
def plainMachine : Machine where
  mmap start length offset := if length ≠ 0 ∧ offset % 4096 = 0 then some start else none
  beyond := 0

/-- Two adjacent segments. -/
def adjacent : List Phdr := [⟨ptLoad, 0, 0x8000, 0x1000, 0x1000, 5⟩, ⟨ptLoad, 0x1000, 0x9000, 0x1000, 0x1000, 5⟩]

theorem adjacent_disjoint : adjacent.Pairwise fun s t => s.p_type = ptLoad → t.p_type = ptLoad →
    ∀ a, s.covers a → ¬t.covers a := by
  rw [adjacent, List.pairwise_pair]
  intro _ _ a hs ht
  have hfirst : (0x8000 : UInt32).toNat = 32768 := rfl
  have hsize : (0x1000 : UInt32).toNat = 4096 := rfl
  have hsecond : (0x9000 : UInt32).toNat = 36864 := rfl
  simp only [Phdr.covers, hfirst, hsize, hsecond] at hs ht
  omega

theorem load_and_run_elf_selects_first : Selects plainMachine 0x8010 adjacent := by
  refine (load_and_run_elf_selects_iff plainMachine 0x8010 adjacent (by decide) adjacent_disjoint).mpr ?_
  exact ⟨[], _, _, rfl, by unfold Enters Phdr.covers; decide, by decide, by decide, by simp⟩

/-- The entry point is the first byte of the second segment, but the first one is mapped. -/
theorem load_and_run_elf_boundary :
    (load_and_run_elf plainMachine 0x9000 adjacent).filterMap Effect.mapping = [(0x8000, 0x1000, 0)] ∧
      ¬Selects plainMachine 0x9000 adjacent := by
  refine ⟨by decide +kernel, fun h => ?_⟩
  obtain ⟨base, -, hmap, -⟩ := h.entered ⟨ptLoad, 0x1000, 0x9000, 0x1000, 0x1000, 5⟩ (by decide)
    (by unfold Enters Phdr.covers; decide)
  revert hmap
  decide +kernel

end OsSuite.EagerLoader
