import OsSuite.DemandPaging

/-! One call of the fault handler, for any program headers, and runs in which the program
stores bytes and faults are delivered in any order. -/

namespace OsSuite.SmartLoader

variable {phdr : List Phdr} {file : List UInt8} {st st' : Loader} {s : Phdr} {fa a b p : UInt32}

def used_start (seg : Phdr) (fault_page_base : UInt32) : UInt32 :=
  if fault_page_base < seg.p_vaddr then seg.p_vaddr else fault_page_base

def used_end (seg : Phdr) (fault_page_base : UInt32) : UInt32 :=
  if fault_page_base + pageSize > seg.p_vaddr + seg.p_memsz then seg.p_vaddr + seg.p_memsz
  else fault_page_base + pageSize

/-- What a page adds to `no_internal_fragmentation`. -/
def frag (seg : Phdr) (base : UInt32) : Nat :=
  if used_end seg base > used_start seg base then
    (pageSize - (used_end seg base - used_start seg base)).toNat
  else 0

theorem account_eq (st : Loader) (seg : Phdr) (base : UInt32) : account st seg base =
    { st with
      map_ranges := st.map_ranges ++ [(base, pageSize)]
      no_allocations := st.no_allocations + 1
      no_internal_fragmentation := st.no_internal_fragmentation + frag seg base } := rfl

/-- The handler maps the page of `fa` for the segment `s`. -/
structure Loaded (s : Phdr) (fa : UInt32) (st st' : Loader) : Prop where
  other : ∀ a, pageBase a ≠ pageBase fa → st'.mem a = st.mem a
  page : ∀ a, pageBase a = pageBase fa → (st'.mem a).isSome
  ranges : st'.map_ranges = st.map_ranges ++ [(pageBase fa, pageSize)]
  allocations : st'.no_allocations = st.no_allocations + 1
  fragmentation : st'.no_internal_fragmentation = st.no_internal_fragmentation + frag s (pageBase fa)

/-- The end of the file data lies in the page, with BSS bytes behind it. -/
def Phdr.clears (s : Phdr) (base : UInt32) : Prop :=
  s.p_memsz > s.p_filesz ∧ s.p_vaddr + s.p_filesz ≥ base ∧ s.p_vaddr + s.p_filesz < base + pageSize ∧
    bssBytes s base > 0

/-- The handler can fill the page of `fa` itself: the segment is writable, or nothing in the
page is to be cleared. -/
def Phdr.loadable (s : Phdr) (fa : UInt32) : Prop :=
  s.p_flags &&& pfW ≠ 0 ∨ fa < s.p_vaddr + s.p_filesz ∧ ¬s.clears (pageBase fa)

/-- The first segment that contains `fa` is one whose page the handler can fill. -/
def Served (phdr : List Phdr) (fa : UInt32) : Prop :=
  ∃ pre s post, phdr = pre ++ s :: post ∧ (∀ t ∈ pre, ¬t.contains fa) ∧ s.contains fa ∧ s.loadable fa

theorem Phdr.clears.file_lt (h : s.clears (pageBase fa)) (hc : s.contains fa) (hlt : fa < s.p_vaddr + s.p_filesz) :
    fa.toNat < s.p_vaddr.toNat + s.p_filesz.toNat ∧
      s.p_vaddr.toNat + s.p_filesz.toNat < (pageBase fa).toNat + 4096 ∧ (pageBase fa).toNat + 4096 < 2 ^ 32 := by
  obtain ⟨-, hbound⟩ := hc.bounds
  obtain ⟨hsizes, -, hend, -⟩ := h
  have hsize : pageSize.toNat = 4096 := rfl
  have hbase := pageBase_toNat fa
  have hfa := fa.toNat_lt
  rw [gt_iff_lt, UInt32.lt_iff_toNat_lt] at hsizes
  rw [UInt32.lt_iff_toNat_lt, UInt32.toNat_add, UInt32.toNat_add, hsize] at hend
  rw [UInt32.lt_iff_toNat_lt, UInt32.toNat_add] at hlt
  omega

theorem loader_map_segment_loaded (h : s.contains fa) (he : loader_map_segment file st s fa = some st') :
    Loaded s fa st st' := by
  unfold loader_map_segment at he
  dsimp only at he
  by_cases hfile : fa < s.p_vaddr + s.p_filesz
  · rw [if_pos hfile] at he
    by_cases hclear : s.clears (pageBase fa)
    · obtain ⟨hlt, hend, htop⟩ := hclear.file_lt h hfile
      have hsizes := UInt32.lt_iff_toNat_lt.mp hclear.1
      have htail := fun mem a => @memset_tail s fa a mem hlt hend htop hsizes.le h.bounds.2
      unfold Phdr.clears at hclear
      rw [if_pos hclear] at he
      split at he
      · cases he
        refine ⟨fun a ha => ?_, fun a ha => ?_, rfl, rfl, rfl⟩
        · have hout := mt pageBase_eq_iff.mpr ha
          have hbase := pageBase_toNat fa
          rw [account_mem]
          dsimp only
          rw [htail, if_neg (by omega)]
          exact mmap_other _ ha
        · rw [account_mem]
          dsimp only
          rw [htail, mmap_page _ ha]
          split <;> rfl
      · cases he
    · unfold Phdr.clears at hclear
      rw [if_neg hclear] at he
      cases he
      refine ⟨fun a ha => mmap_other _ ha, fun a ha => ?_, rfl, rfl, rfl⟩
      rw [account_mem]
      dsimp only
      rw [mmap_page _ ha]
      rfl
  · rw [if_neg hfile] at he
    split at he
    · cases he
      have hpage : ∀ a, pageBase a = pageBase fa ↔
          (pageBase fa).toNat ≤ a.toNat ∧ a.toNat < (pageBase fa).toNat + 4096 := by
        intro a
        rw [pageBase_eq_iff, pageBase_toNat]
        omega
      refine ⟨fun a ha => ?_, fun a ha => ?_, rfl, rfl, rfl⟩
      · exact (if_neg (mt (hpage a).mpr ha)).trans (mmap_other _ ha)
      · exact congrArg Option.isSome (if_pos ((hpage a).mp ha))
    · cases he

theorem loader_map_segment_isSome_iff : (loader_map_segment file st s fa).isSome ↔ s.loadable fa := by
  unfold loader_map_segment Phdr.loadable Phdr.clears
  dsimp only
  by_cases hfile : fa < s.p_vaddr + s.p_filesz
  · rw [if_pos hfile]
    split
    · next hclear =>
      simp only [hfile, hclear, not_true_eq_false, and_false, or_false, and_self]
      split <;> simp [*]
    · next hclear => simp only [hfile, hclear, not_false_eq_true, and_self, or_true, Option.isSome_some]
  · rw [if_neg hfile]
    split <;> simp [*]

theorem try_load_for_fault_some (he : try_load_for_fault phdr file st fa = some st') :
    ∃ s ∈ phdr, s.contains fa ∧ loader_map_segment file st s fa = some st' := by
  induction phdr with
  | nil => cases he
  | cons t phdr ih =>
    by_cases ht : t.contains fa
    · rw [try_load_for_fault, if_pos ht] at he
      exact ⟨t, by simp, ht, he⟩
    · rw [try_load_for_fault, if_neg ht] at he
      obtain ⟨s, hs, hc, he⟩ := ih he
      exact ⟨s, by simp [hs], hc, he⟩

theorem try_load_for_fault_isSome_iff : (try_load_for_fault phdr file st fa).isSome ↔ Served phdr fa := by
  induction phdr with
  | nil => simp [try_load_for_fault, Served]
  | cons t phdr ih =>
    by_cases ht : t.contains fa
    · rw [try_load_for_fault, if_pos ht, loader_map_segment_isSome_iff]
      constructor
      · exact fun h => ⟨[], t, phdr, rfl, by simp, ht, h⟩
      · rintro ⟨pre, s, post, he, hpre, -, hs⟩
        cases pre with
        | nil =>
          cases he
          exact hs
        | cons u pre =>
          cases he
          exact absurd ht (hpre t (by simp))
    · rw [try_load_for_fault, if_neg ht, ih]
      constructor
      · rintro ⟨pre, s, post, he, hpre, hs⟩
        exact ⟨t :: pre, s, post, by simp [he], by simpa [ht] using hpre, hs⟩
      · rintro ⟨pre, s, post, he, hpre, hs⟩
        cases pre with
        | nil =>
          cases he
          exact absurd hs.1 ht
        | cons u pre =>
          cases he
          exact ⟨pre, s, post, rfl, fun v hv => hpre v (by simp [hv]), hs⟩

theorem segv_handler_loaded (he : segv_handler phdr file st fa = some st') :
    ∃ s ∈ phdr, s.contains fa ∧ Loaded s fa st st' := by
  obtain ⟨s, hs, hc, he⟩ := try_load_for_fault_some he
  obtain ⟨hother, hpage, hranges, halloc, hfrag⟩ := loader_map_segment_loaded hc he
  exact ⟨s, hs, hc, hother, hpage, hranges, halloc, hfrag⟩

theorem segv_handler_isSome_iff : (segv_handler phdr file st fa).isSome ↔ Served phdr fa :=
  try_load_for_fault_isSome_iff

theorem segv_handler_eq_none_iff : segv_handler phdr file st fa = none ↔ ¬Served phdr fa := by
  rw [← segv_handler_isSome_iff, Bool.not_eq_true, Option.isSome_eq_false_iff, Option.isNone_iff_eq_none]

/-- What happens to the process: the program stores a byte in a mapped page, or a fault is
delivered, of whatever kind. -/
inductive Event where
  | store (a : UInt32) (v : UInt8)
  | fault (fa : UInt32)

/-- Nothing where the event cannot happen, or the process is killed. -/
def step (phdr : List Phdr) (file : List UInt8) (st : Loader) : Event → Option Loader
  | .store a v =>
    if (st.mem a).isSome then some { st with mem := Function.update st.mem a (some v) } else none
  | .fault fa => segv_handler phdr file st fa

def run (phdr : List Phdr) (file : List UInt8) (es : List Event) : Option Loader :=
  es.foldlM (step phdr file) .init

theorem run_concat {es : List Event} {e : Event} : run phdr file (es ++ [e]) = some st' ↔
    ∃ st, run phdr file es = some st ∧ step phdr file st e = some st' := by
  simp [run, List.foldlM_append, Option.bind_eq_some_iff]

/-- The page at `p` is mapped. -/
def Loader.Mapped (st : Loader) (p : UInt32) : Prop := ∃ a, pageBase a = p ∧ (st.mem a).isSome

/-- Pages are mapped as a whole, and `map_ranges` lists those that are. -/
structure Loader.Listed (st : Loader) : Prop where
  whole : ∀ a, st.Mapped (pageBase a) → (st.mem a).isSome
  ranges : ∀ p, p ∈ st.map_ranges.map Prod.fst ↔ st.Mapped p
  count : st.no_allocations = st.map_ranges.length

theorem Loader.Listed.mapped_iff (h : st.Listed) : st.Mapped (pageBase a) ↔ (st.mem a).isSome :=
  ⟨h.whole a, fun ha => ⟨a, rfl, ha⟩⟩

theorem Loader.listed_init : Loader.init.Listed := by
  constructor
  · rintro a ⟨b, -, hb⟩
    cases hb
  · intro p
    constructor
    · simp [Loader.init]
    · rintro ⟨b, -, hb⟩
      cases hb
  · rfl

theorem step_store {v : UInt8} (he : step phdr file st (.store a v) = some st') :
    (∀ b, (st'.mem b).isSome = (st.mem b).isSome) ∧ st'.map_ranges = st.map_ranges ∧
      st'.no_allocations = st.no_allocations ∧ st'.no_internal_fragmentation = st.no_internal_fragmentation := by
  rw [step] at he
  split at he
  · next ha =>
    cases he
    refine ⟨fun b => ?_, rfl, rfl, rfl⟩
    by_cases hb : b = a
    · subst hb
      simp [ha]
    · simp [hb]
  · cases he

theorem Loaded.mapped_iff (h : Loaded s fa st st') : st'.Mapped p ↔ st.Mapped p ∨ p = pageBase fa := by
  by_cases hp : p = pageBase fa
  · subst hp
    exact iff_of_true ⟨fa, rfl, h.page fa rfl⟩ (.inr rfl)
  · simp only [hp, or_false]
    refine exists_congr fun a => and_congr_right fun ha => ?_
    rw [h.other a fun hc => hp (ha.symm.trans hc)]

theorem Loaded.listed (h : Loaded s fa st st') (hst : st.Listed) : st'.Listed := by
  refine ⟨fun a ha => ?_, fun p => ?_, ?_⟩
  · by_cases hp : pageBase a = pageBase fa
    · exact h.page a hp
    · rw [h.other a hp]
      exact hst.whole a ((h.mapped_iff.mp ha).resolve_right hp)
  · rw [h.mapped_iff, h.ranges, ← hst.ranges p]
    simp
  · rw [h.allocations, h.ranges, hst.count]
    simp

theorem Loader.Listed.step {e : Event} (h : st.Listed) (he : step phdr file st e = some st') : st'.Listed := by
  cases e with
  | store a v =>
    obtain ⟨hmem, hranges, halloc, -⟩ := step_store he
    have hmapped : ∀ p, st'.Mapped p ↔ st.Mapped p := fun p => by simp only [Mapped, hmem]
    refine ⟨fun a ha => ?_, fun p => ?_, ?_⟩
    · rw [hmem]
      exact h.whole a ((hmapped _).mp ha)
    · rw [hranges, hmapped]
      exact h.ranges p
    · rw [halloc, hranges]
      exact h.count
  | fault fa =>
    obtain ⟨s, -, -, hs⟩ := segv_handler_loaded he
    exact hs.listed h

theorem run_listed {es : List Event} (h : run phdr file es = some st) : st.Listed := by
  induction es using List.reverseRecOn generalizing st with
  | nil =>
    cases h
    exact Loader.listed_init
  | append_singleton es e ih =>
    obtain ⟨u, hu, he⟩ := run_concat.mp h
    exact (ih hu).step he

end OsSuite.SmartLoader
