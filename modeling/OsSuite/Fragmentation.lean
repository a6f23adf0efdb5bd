import OsSuite.SegvFaults

/-! The internal fragmentation that SimpleSmartLoader reports, against the bytes of the segments
on the mapped pages. -/

namespace OsSuite.SmartLoader

variable {phdr : List Phdr} {file : List UInt8} {st st' : Loader} {s t : Phdr} {fa a : UInt32}
  {es : List Event}

/-- Segments that end before the last page, and share no page. -/
structure Separate (phdr : List Phdr) : Prop where
  below : ∀ s ∈ phdr, s.p_type = ptLoad → s.p_vaddr.toNat + s.p_memsz.toNat ≤ 2 ^ 32 - 4096
  apart : phdr.Pairwise fun s t => s.p_type = ptLoad → t.p_type = ptLoad →
    ∀ a b, s.covers a → t.covers b → pageBase a ≠ pageBase b

/-- The bytes of the segment that lie on mapped pages. -/
def Phdr.mappedBytes (s : Phdr) (st : Loader) : Nat :=
  Nat.count (fun i => (st.mem (s.p_vaddr + UInt32.ofNat i)).isSome) s.p_memsz.toNat

def segmentBytes (phdr : List Phdr) (st : Loader) : Nat :=
  ((phdr.filter fun s => s.p_type = ptLoad).map fun s => s.mappedBytes st).sum

def Event.page : Event → Option UInt32
  | .store _ _ => none
  | .fault fa => some (pageBase fa)

theorem used_start_toNat (s : Phdr) (base : UInt32) :
    (used_start s base).toNat = max base.toNat s.p_vaddr.toNat := by
  unfold used_start
  split
  · next h =>
    rw [UInt32.lt_iff_toNat_lt] at h
    omega
  · next h =>
    rw [UInt32.lt_iff_toNat_lt] at h
    omega

theorem used_end_toNat (hend : s.p_vaddr.toNat + s.p_memsz.toNat ≤ 2 ^ 32 - 4096)
    (hbase : (pageBase fa).toNat + 4096 < 2 ^ 32) : (used_end s (pageBase fa)).toNat =
      min ((pageBase fa).toNat + 4096) (s.p_vaddr.toNat + s.p_memsz.toNat) := by
  have hsize : pageSize.toNat = 4096 := rfl
  have hbound : (s.p_vaddr + s.p_memsz).toNat = s.p_vaddr.toNat + s.p_memsz.toNat := by
    rw [UInt32.toNat_add]
    omega
  have hpage : (pageBase fa + pageSize).toNat = (pageBase fa).toNat + 4096 := by
    rw [UInt32.toNat_add, hsize]
    omega
  unfold used_end
  split
  · next h =>
    rw [gt_iff_lt, UInt32.lt_iff_toNat_lt] at h
    omega
  · next h =>
    rw [gt_iff_lt, UInt32.lt_iff_toNat_lt] at h
    omega

theorem used_bounds (h : s.contains fa) (hend : s.p_vaddr.toNat + s.p_memsz.toNat ≤ 2 ^ 32 - 4096) :
    (used_start s (pageBase fa)).toNat = max (pageBase fa).toNat s.p_vaddr.toNat ∧
      (used_end s (pageBase fa)).toNat =
        min ((pageBase fa).toNat + 4096) (s.p_vaddr.toNat + s.p_memsz.toNat) ∧
      (used_start s (pageBase fa)).toNat < (used_end s (pageBase fa)).toNat ∧
      (used_end s (pageBase fa)).toNat ≤ (used_start s (pageBase fa)).toNat + 4096 := by
  obtain ⟨⟨hle, hlt⟩, -⟩ := h.bounds
  have hbase := pageBase_toNat fa
  have hstart := used_start_toNat s (pageBase fa)
  have hstop := @used_end_toNat s fa hend (by omega)
  omega

theorem frag_eq (h : s.contains fa) (hend : s.p_vaddr.toNat + s.p_memsz.toNat ≤ 2 ^ 32 - 4096) :
    frag s (pageBase fa) =
      4096 - ((used_end s (pageBase fa)).toNat - (used_start s (pageBase fa)).toNat) := by
  obtain ⟨-, -, hlt, hle⟩ := used_bounds h hend
  have hsize : pageSize.toNat = 4096 := rfl
  have hgt : used_end s (pageBase fa) > used_start s (pageBase fa) := UInt32.lt_iff_toNat_lt.mpr hlt
  have hused : (used_end s (pageBase fa) - used_start s (pageBase fa)).toNat =
      (used_end s (pageBase fa)).toNat - (used_start s (pageBase fa)).toNat := by
    rw [UInt32.toNat_sub]
    have hu := (used_end s (pageBase fa)).toNat_lt
    omega
  rw [frag, if_pos hgt, UInt32.toNat_sub, hused, hsize]
  omega

theorem Phdr.address (hend : s.p_vaddr.toNat + s.p_memsz.toNat ≤ 2 ^ 32 - 4096) {i : Nat}
    (hi : i < s.p_memsz.toNat) :
    (s.p_vaddr + UInt32.ofNat i).toNat = s.p_vaddr.toNat + i ∧ s.covers (s.p_vaddr + UInt32.ofNat i) := by
  have hadd : (s.p_vaddr + UInt32.ofNat i).toNat = s.p_vaddr.toNat + i := by
    rw [UInt32.toNat_add, UInt32.toNat_ofNat']
    omega
  refine ⟨hadd, ?_⟩
  unfold covers
  omega

theorem Phdr.mappedBytes_congr (hend : s.p_vaddr.toNat + s.p_memsz.toNat ≤ 2 ^ 32 - 4096)
    (h : ∀ a, s.covers a → (st'.mem a).isSome = (st.mem a).isSome) : s.mappedBytes st' = s.mappedBytes st := by
  simp only [mappedBytes, Nat.count_eq_card_filter_range]
  congr 1
  apply Finset.filter_congr
  intro i hi
  rw [h _ (address hend (Finset.mem_range.mp hi)).2]

theorem Phdr.mappedBytes_loaded (hs : s.contains fa) (h : Loaded s fa st st')
    (hend : s.p_vaddr.toNat + s.p_memsz.toNat ≤ 2 ^ 32 - 4096)
    (hnew : ∀ a, pageBase a = pageBase fa → ¬(st.mem a).isSome) :
    s.mappedBytes st' = s.mappedBytes st +
      ((used_end s (pageBase fa)).toNat - (used_start s (pageBase fa)).toNat) := by
  obtain ⟨hstart, hstop, hlt, -⟩ := used_bounds hs hend
  have hbase := pageBase_toNat fa
  -- The offsets of the bytes that the new page adds.
  let page := Finset.Ico ((used_start s (pageBase fa)).toNat - s.p_vaddr.toNat)
    ((used_end s (pageBase fa)).toNat - s.p_vaddr.toNat)
  have hmem : ∀ i < s.p_memsz.toNat, i ∈ page ↔ pageBase (s.p_vaddr + UInt32.ofNat i) = pageBase fa := by
    intro i hi
    rw [pageBase_eq_iff, (address hend hi).1, Finset.mem_Ico]
    omega
  have hcard : page.card = (used_end s (pageBase fa)).toNat - (used_start s (pageBase fa)).toNat := by
    have hico := Nat.card_Ico ((used_start s (pageBase fa)).toNat - s.p_vaddr.toNat)
      ((used_end s (pageBase fa)).toNat - s.p_vaddr.toNat)
    have hvaddr : s.p_vaddr.toNat ≤ (used_start s (pageBase fa)).toNat := hstart ▸ le_max_right _ _
    exact hico.trans (tsub_tsub_tsub_cancel_right hvaddr)
  simp only [mappedBytes, Nat.count_eq_card_filter_range]
  rw [← hcard, ← Finset.card_union_of_disjoint]
  · refine congrArg Finset.card (Finset.ext fun i => ?_)
    simp only [Finset.mem_filter, Finset.mem_union, Finset.mem_range]
    constructor
    · rintro ⟨hi, hsome⟩
      by_cases hpage : pageBase (s.p_vaddr + UInt32.ofNat i) = pageBase fa
      · exact .inr ((hmem i hi).mpr hpage)
      · rw [h.other _ hpage] at hsome
        exact .inl ⟨hi, hsome⟩
    · rintro (⟨hi, hsome⟩ | hin)
      · refine ⟨hi, ?_⟩
        have hpage : pageBase (s.p_vaddr + UInt32.ofNat i) ≠ pageBase fa := fun hc => hnew _ hc hsome
        rw [h.other _ hpage]
        exact hsome
      · have hi : i < s.p_memsz.toNat := by
          rw [Finset.mem_Ico] at hin
          omega
        exact ⟨hi, h.page _ ((hmem i hi).mp hin)⟩
  · rw [Finset.disjoint_left]
    intro i hi hin
    rw [Finset.mem_filter, Finset.mem_range] at hi
    exact hnew _ ((hmem i hi.1).mp hin) hi.2

theorem segmentBytes_congr (hbelow : ∀ t ∈ phdr, t.p_type = ptLoad → t.p_vaddr.toNat + t.p_memsz.toNat ≤ 2 ^ 32 - 4096)
    (h : ∀ t ∈ phdr, t.p_type = ptLoad → ∀ a, t.covers a → (st'.mem a).isSome = (st.mem a).isSome) :
    segmentBytes phdr st' = segmentBytes phdr st := by
  unfold segmentBytes
  congr 1
  apply List.map_congr_left
  intro t ht
  obtain ⟨ht, hload⟩ := List.mem_filter.mp ht
  have hload := of_decide_eq_true hload
  exact Phdr.mappedBytes_congr (hbelow t ht hload) (h t ht hload)

theorem segmentBytes_append (pre post : List Phdr) (st : Loader) :
    segmentBytes (pre ++ post) st = segmentBytes pre st + segmentBytes post st := by
  simp [segmentBytes]

theorem segmentBytes_cons (hload : s.p_type = ptLoad) (st : Loader) :
    segmentBytes (s :: phdr) st = s.mappedBytes st + segmentBytes phdr st := by
  simp [segmentBytes, hload]

/-- A new page, as the loader counts it and as the segments do. -/
theorem segmentBytes_loaded (hsep : Separate phdr) (hmem : s ∈ phdr) (hs : s.contains fa)
    (h : Loaded s fa st st') (hnew : ∀ a, pageBase a = pageBase fa → ¬(st.mem a).isSome) :
    segmentBytes phdr st' + frag s (pageBase fa) = segmentBytes phdr st + 4096 := by
  have hend := hsep.below s hmem hs.1
  obtain ⟨-, -, hlt, hle⟩ := used_bounds hs hend
  obtain ⟨pre, post, rfl⟩ := List.append_of_mem hmem
  obtain ⟨-, hpost, hpre⟩ := List.pairwise_append.mp hsep.apart
  have hcov := hs.bounds.1
  have hsame : ∀ part : List Phdr, part ⊆ pre ++ s :: post →
      (∀ t ∈ part, t.p_type = ptLoad → ∀ a, t.covers a → pageBase a ≠ pageBase fa) →
      segmentBytes part st' = segmentBytes part st := by
    intro part hsub hother
    refine segmentBytes_congr (fun t ht => hsep.below t (hsub ht)) fun t ht hload a ha => ?_
    rw [h.other a (hother t ht hload a ha)]
  have hpre' := hsame pre (List.subset_append_left _ _) fun t ht hload a ha =>
    hpre t ht s (by simp) hload hs.1 a fa ha hcov
  have hpost' := hsame post (fun t ht => by simp [ht]) fun t ht hload a ha =>
    ((List.pairwise_cons.mp hpost).1 t ht hs.1 hload fa a hcov ha).symm
  have hmapped := Phdr.mappedBytes_loaded hs h hend hnew
  rw [segmentBytes_append, segmentBytes_append, segmentBytes_cons hs.1, segmentBytes_cons hs.1, hpre',
    hpost', hmapped, frag_eq hs hend]
  omega

/-- What holds at all times of a run that faults on each page at most once. -/
structure Counted (phdr : List Phdr) (es : List Event) (st : Loader) : Prop where
  touched : ∀ p, st.Mapped p ↔ p ∈ es.filterMap Event.page
  nodup : (st.map_ranges.map Prod.fst).Nodup
  law : st.no_internal_fragmentation + segmentBytes phdr st = 4096 * st.no_allocations
  bound : st.no_internal_fragmentation ≤ 4095 * st.no_allocations

theorem Counted.init : Counted phdr [] .init := by
  refine ⟨fun p => ?_, List.nodup_nil, ?_, le_rfl⟩
  · simp [Loader.Mapped, Loader.init]
  · simp [segmentBytes, Phdr.mappedBytes, Loader.init, Nat.count_false]

theorem Counted.step {e : Event} (hsep : Separate phdr) (hst : st.Listed) (h : Counted phdr es st)
    (hnodup : ((es ++ [e]).filterMap Event.page).Nodup) (he : step phdr file st e = some st') :
    Counted phdr (es ++ [e]) st' := by
  cases e with
  | store a v =>
    obtain ⟨hmem, hranges, halloc, hfrag⟩ := step_store he
    refine ⟨fun p => ?_, ?_, ?_, ?_⟩
    · have hsame : st'.Mapped p ↔ st.Mapped p := by simp only [Loader.Mapped, hmem]
      rw [hsame, h.touched]
      simp [Event.page]
    · rw [hranges]
      exact h.nodup
    · rw [halloc, hfrag, segmentBytes_congr hsep.below fun t _ _ a _ => hmem a]
      exact h.law
    · rw [halloc, hfrag]
      exact h.bound
  | fault fa =>
    obtain ⟨s, hmem, hs, hload⟩ := segv_handler_loaded he
    have hfresh : ¬st.Mapped (pageBase fa) := by
      rw [h.touched]
      simp [List.filterMap_append, Event.page, List.nodup_append] at hnodup ⊢
      exact fun e he hp => hnodup.2 (pageBase fa) e he hp rfl
    have hnew : ∀ a, pageBase a = pageBase fa → ¬(st.mem a).isSome := fun a ha hsome => hfresh ⟨a, ha, hsome⟩
    have hbytes := segmentBytes_loaded hsep hmem hs hload hnew
    obtain ⟨-, -, hlt, -⟩ := used_bounds hs (hsep.below s hmem hs.1)
    have hfrag := frag_eq hs (hsep.below s hmem hs.1)
    have hlaw := h.law
    have hbound := h.bound
    refine ⟨fun p => ?_, ?_, ?_, ?_⟩
    · rw [hload.mapped_iff, h.touched]
      simp [List.filterMap_append, Event.page]
    · rw [hload.ranges, List.map_append, List.map_singleton, ← List.concat_eq_append]
      refine h.nodup.concat ?_
      rw [hst.ranges]
      exact hfresh
    · rw [hload.allocations, hload.fragmentation]
      omega
    · rw [hload.allocations, hload.fragmentation]
      omega

theorem run_counted (hsep : Separate phdr) (hnodup : (es.filterMap Event.page).Nodup)
    (hrun : run phdr file es = some st) : Counted phdr es st := by
  induction es using List.reverseRecOn generalizing st with
  | nil =>
    cases hrun
    exact .init
  | append_singleton es e ih =>
    obtain ⟨u, hu, he⟩ := run_concat.mp hrun
    have hprev : (es.filterMap Event.page).Nodup := by
      rw [List.filterMap_append] at hnodup
      exact hnodup.of_append_left
    exact (ih hprev hu).step hsep (run_listed hu) hnodup he

theorem Loader.Listed.allocations_le (hst : st.Listed) (hnodup : (st.map_ranges.map Prod.fst).Nodup) :
    st.no_allocations ≤ 2 ^ 20 := by
  have hcard : (st.map_ranges.map Prod.fst).toFinset.card ≤ (Finset.range (2 ^ 20)).card := by
    apply Finset.card_le_card_of_injOn fun p => p.toNat / 4096
    · intro p _
      have hp := p.toNat_lt
      simp only [Finset.coe_range, Set.mem_Iio]
      omega
    · intro p hp q hq he
      simp only [Finset.mem_coe, List.mem_toFinset, hst.ranges] at hp hq
      obtain ⟨a, rfl, -⟩ := hp
      obtain ⟨b, rfl, -⟩ := hq
      dsimp only at he
      rw [pageBase_toNat, pageBase_toNat] at he
      rw [pageBase_eq_iff]
      omega
  rw [List.toFinset_card_of_nodup hnodup, List.length_map, Finset.card_range, ← hst.count] at hcard
  exact hcard

theorem segmentBytes_full (hsep : Separate phdr)
    (h : ∀ s ∈ phdr, s.p_type = ptLoad → ∀ a, s.covers a → (st.mem a).isSome) :
    segmentBytes phdr st = ((phdr.filter fun s => s.p_type = ptLoad).map fun s => s.p_memsz.toNat).sum := by
  unfold segmentBytes
  congr 1
  apply List.map_congr_left
  intro s hs
  obtain ⟨hs, hload⟩ := List.mem_filter.mp hs
  have hload := of_decide_eq_true hload
  rw [Phdr.mappedBytes, Nat.count_iff_forall]
  exact fun i hi => h s hs hload _ (Phdr.address (hsep.below s hs hload) hi).2

/-- The reported fragmentation is what the mapped pages hold beside the bytes of the segments. -/
theorem fragmentation_eq (phdr : List Phdr) (file : List UInt8) (es : List Event) (st : Loader)
    (hsep : Separate phdr) (hnodup : (es.filterMap Event.page).Nodup) (hrun : run phdr file es = some st) :
    (∀ s ∈ phdr, ∀ fa, s.contains fa →
      (used_start s (pageBase fa)).toNat ≤ (used_end s (pageBase fa)).toNat ∧
        (used_end s (pageBase fa)).toNat ≤ (used_start s (pageBase fa)).toNat + 4096) ∧
      st.no_internal_fragmentation + segmentBytes phdr st = 4096 * st.no_allocations ∧
      st.no_internal_fragmentation < 2 ^ 32 ∧
      ((∀ s ∈ phdr, s.p_type = ptLoad → ∀ a, s.covers a → pageBase a ∈ es.filterMap Event.page) →
        st.no_internal_fragmentation +
          ((phdr.filter fun s => s.p_type = ptLoad).map fun s => s.p_memsz.toNat).sum =
            4096 * st.no_allocations) := by
  have hlisted := run_listed hrun
  have hcounted := run_counted hsep hnodup hrun
  have hpages := hlisted.allocations_le hcounted.nodup
  have hbound := hcounted.bound
  refine ⟨fun s hs fa hc => ?_, hcounted.law, by omega, fun hall => ?_⟩
  · obtain ⟨-, -, hlt, hle⟩ := used_bounds hc (hsep.below s hs hc.1)
    exact ⟨hlt.le, hle⟩
  · rw [← segmentBytes_full hsep fun s hs hload a ha => hlisted.whole a ((hcounted.touched _).mpr (hall s hs hload a ha))]
    exact hcounted.law

/-- A segment inside a page, and one across the end of a page. -/
def twoSegments : List Phdr :=
  [⟨ptLoad, 0, 0x1000, 4, 8, pfR ||| pfW⟩, ⟨ptLoad, 0xffc, 0x2ffc, 4, 8, pfR ||| pfW⟩]

theorem twoSegments_separate : Separate twoSegments := by
  constructor
  · decide
  · rw [twoSegments, List.pairwise_pair]
    intro _ _ a b ha hb he
    rw [pageBase_eq_iff] at he
    have hstart : (0x1000 : UInt32).toNat = 4096 := rfl
    have hsize : (8 : UInt32).toNat = 8 := rfl
    have hnext : (0x2ffc : UInt32).toNat = 12284 := rfl
    simp only [Phdr.covers, hstart, hsize, hnext] at ha hb
    omega

theorem fragmentation_eq_sample : ∃ st,
    run twoSegments [] [.fault 0x1006, .store 0x1001 7, .fault 0x3001] = some st ∧
      st.no_internal_fragmentation + segmentBytes twoSegments st = 4096 * 2 :=
  ⟨_, rfl, (fragmentation_eq twoSegments [] [.fault 0x1006, .store 0x1001 7, .fault 0x3001] _
    twoSegments_separate (by decide +kernel) rfl).2.1⟩

end OsSuite.SmartLoader
