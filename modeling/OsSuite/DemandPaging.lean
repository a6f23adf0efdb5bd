import OsSuite.SmartLoader

/-! Whether the pages that SimpleSmartLoader maps on demand hold what an eager loader would have
put there. The handler picks the kind of page by the touched address alone. -/

namespace OsSuite.SmartLoader

variable {img : Image} {st : Loader} {s t : Phdr} {fa a b : UInt32} {as done : List UInt32}
  {file : List UInt8} {mem : UInt32 → Option UInt8}

theorem pageBase_toNat (a : UInt32) : (pageBase a).toNat = a.toNat / 4096 * 4096 := by
  have hlt := a.toNat_lt
  have hsize : pageSize.toNat = 4096 := rfl
  rw [pageBase, UInt32.toNat_mul, UInt32.toNat_div, hsize]
  omega

theorem pageBase_eq_iff : pageBase a = pageBase b ↔ a.toNat / 4096 = b.toNat / 4096 := by
  rw [← UInt32.toNat_inj, pageBase_toNat, pageBase_toNat]
  omega

theorem Phdr.contains.bounds (h : s.contains fa) : s.covers fa ∧
    s.p_vaddr.toNat + s.p_memsz.toNat < 2 ^ 32 := by
  obtain ⟨-, hle, hlt⟩ := h
  rw [UInt32.le_iff_toNat_le] at hle
  rw [UInt32.lt_iff_toNat_lt, UInt32.toNat_add] at hlt
  have hv := s.p_vaddr.toNat_lt
  have hm := s.p_memsz.toNat_lt
  unfold covers
  omega

/-- The byte of the file that belongs at an address of a segment. -/
def fileByte (file : List UInt8) (s : Phdr) (a : UInt32) : UInt8 :=
  file.getD (s.p_offset.toNat + (a.toNat - s.p_vaddr.toNat)) 0

abbrev lastPage : UInt32 := 0xFFFFF000

/-- What the page of `fa` holds at `a` once it is mapped. -/
def mappedByte (file : List UInt8) (s : Phdr) (fa a : UInt32) : UInt8 :=
  if fa.toNat < s.p_vaddr.toNat + s.p_filesz.toNat then
    if s.p_vaddr.toNat + s.p_filesz.toNat ≤ a.toNat ∧ pageBase fa ≠ lastPage then 0
    else fileByte file s a
  else 0

/-- What mapping the page of `fa` in the segment `s` does. -/
structure Mapped (file : List UInt8) (s : Phdr) (fa : UInt32) (st st' : Loader) : Prop where
  other : ∀ a, pageBase a ≠ pageBase fa → st'.mem a = st.mem a
  page : ∀ a, pageBase a = pageBase fa → (st'.mem a).isSome
  segment : ∀ a, pageBase a = pageBase fa → s.covers a → st'.mem a = some (mappedByte file s fa a)

theorem filePage_eq (hcongr : s.p_offset % pageSize = s.p_vaddr % pageSize)
    (hfile : s.p_offset.toNat + s.p_filesz.toNat < 2 ^ 31)
    (hle : s.p_vaddr.toNat ≤ fa.toNat) (hlt : fa.toNat < s.p_vaddr.toNat + s.p_filesz.toNat)
    (ha : pageBase a = pageBase fa) (hva : s.p_vaddr.toNat ≤ a.toNat) :
    filePage file (pageBase fa) (pageBase s.p_offset + (pageBase fa - pageBase s.p_vaddr)) a =
      fileByte file s a := by
  have hsize : pageSize.toNat = 4096 := rfl
  have hmod := congrArg UInt32.toNat hcongr
  rw [UInt32.toNat_mod, UInt32.toNat_mod, hsize] at hmod
  rw [pageBase_eq_iff] at ha
  have hfa := fa.toNat_lt
  have hal := a.toNat_lt
  unfold filePage fileByte
  congr 1
  simp only [UInt32.toNat_add, UInt32.toNat_sub, pageBase_toNat]
  omega

theorem mmap_page (content : UInt32 → UInt8) (h : pageBase a = pageBase fa) :
    mmap mem (pageBase fa) content a = some (content a) := if_pos h

theorem mmap_other (content : UInt32 → UInt8) (h : pageBase a ≠ pageBase fa) :
    mmap mem (pageBase fa) content a = mem a := if_neg h

theorem account_mem (st : Loader) (seg : Phdr) (base : UInt32) : (account st seg base).mem = st.mem := rfl

theorem bssBytes_toNat {base : UInt32} (hbase : base.toNat ≤ s.p_vaddr.toNat + s.p_filesz.toNat)
    (hend : s.p_vaddr.toNat + s.p_filesz.toNat < base.toNat + 4096) (htop : base.toNat + 4096 < 2 ^ 32)
    (hsizes : s.p_filesz.toNat ≤ s.p_memsz.toNat) (hbound : s.p_vaddr.toNat + s.p_memsz.toNat < 2 ^ 32) :
    (bssBytes s base).toNat = min (s.p_vaddr.toNat + s.p_memsz.toNat) (base.toNat + 4096) -
      (s.p_vaddr.toNat + s.p_filesz.toNat) := by
  have hsize : pageSize.toNat = 4096 := rfl
  unfold bssBytes
  by_cases hle : s.p_vaddr + s.p_memsz ≤ base + pageSize
  · have hle' := UInt32.le_iff_toNat_le.mp hle
    rw [UInt32.toNat_add, UInt32.toNat_add, hsize] at hle'
    simp only [if_pos hle, UInt32.toNat_sub, UInt32.toNat_add]
    omega
  · have hle' := mt UInt32.le_iff_toNat_le.mpr hle
    rw [UInt32.toNat_add, UInt32.toNat_add, hsize] at hle'
    simp only [if_neg hle, UInt32.toNat_sub, UInt32.toNat_add, hsize]
    omega

theorem memset_tail (hfile : fa.toNat < s.p_vaddr.toNat + s.p_filesz.toNat)
    (hend : s.p_vaddr.toNat + s.p_filesz.toNat < (pageBase fa).toNat + 4096)
    (htop : (pageBase fa).toNat + 4096 < 2 ^ 32) (hsizes : s.p_filesz.toNat ≤ s.p_memsz.toNat)
    (hbound : s.p_vaddr.toNat + s.p_memsz.toNat < 2 ^ 32) :
    memset mem (pageBase fa + (s.p_vaddr + s.p_filesz - pageBase fa)) (bssBytes s (pageBase fa)) a =
      if s.p_vaddr.toNat + s.p_filesz.toNat ≤ a.toNat ∧ a.toNat < s.p_vaddr.toNat + s.p_memsz.toNat ∧
        a.toNat < (pageBase fa).toNat + 4096 then some 0 else mem a := by
  have hbase : (pageBase fa).toNat ≤ fa.toNat := by
    rw [pageBase_toNat]
    omega
  have hstart : (pageBase fa + (s.p_vaddr + s.p_filesz - pageBase fa)).toNat =
      s.p_vaddr.toNat + s.p_filesz.toNat := by
    simp only [UInt32.toNat_sub, UInt32.toNat_add]
    omega
  unfold memset
  rw [hstart, bssBytes_toNat (by omega) hend htop hsizes hbound]
  refine if_congr ?_ rfl rfl
  omega

theorem loader_map_segment_file (himg : s ∈ img.phdr) (h : s.contains fa)
    (hfile : fa.toNat < s.p_vaddr.toNat + s.p_filesz.toNat) :
    ∃ st', loader_map_segment img.file st s fa = some st' ∧ Mapped img.file s fa st st' := by
  obtain ⟨⟨hle, hlt⟩, hbound⟩ := h.bounds
  have hsizes := UInt32.le_iff_toNat_le.mp (img.sizes s himg h.1)
  have hin := img.in_file s himg h.1
  have hsmall := img.file_small
  have hsize : pageSize.toNat = 4096 := rfl
  have hfend : (s.p_vaddr + s.p_filesz).toNat = s.p_vaddr.toNat + s.p_filesz.toNat := by
    rw [UInt32.toNat_add]
    omega
  have hfile' : fa < s.p_vaddr + s.p_filesz := by
    rw [UInt32.lt_iff_toNat_lt, hfend]
    exact hfile
  have hbase := pageBase_toNat fa
  have hlast : pageBase fa ≠ lastPage ↔ (pageBase fa).toNat + 4096 < 2 ^ 32 := by
    have hfa := fa.toNat_lt
    have hv : lastPage.toNat = 4294963200 := rfl
    rw [ne_eq, ← UInt32.toNat_inj, hv, hbase]
    omega
  have hpage : ∀ a, pageBase a = pageBase fa ↔
      (pageBase fa).toNat ≤ a.toNat ∧ a.toNat < (pageBase fa).toNat + 4096 := by
    intro a
    rw [pageBase_eq_iff, hbase]
    omega
  -- The file page that both cases map.
  have hbyte : ∀ a, pageBase a = pageBase fa → s.p_vaddr.toNat ≤ a.toNat →
      filePage img.file (pageBase fa) (pageBase s.p_offset + (pageBase fa - pageBase s.p_vaddr)) a =
        fileByte img.file s a :=
    fun a ha hva => filePage_eq (img.congruent s himg h.1) (by omega) hle hfile ha hva
  have hwritable := img.writable s himg h.1
  unfold loader_map_segment
  dsimp only
  rw [if_pos hfile']
  by_cases hclear : s.p_memsz > s.p_filesz ∧ s.p_vaddr + s.p_filesz ≥ pageBase fa ∧
      s.p_vaddr + s.p_filesz < pageBase fa + pageSize ∧ bssBytes s (pageBase fa) > 0
  · rw [if_pos hclear, if_pos hwritable]
    have hend := UInt32.lt_iff_toNat_lt.mp hclear.2.2.1
    rw [hfend, UInt32.toNat_add, hsize] at hend
    have hend' : s.p_vaddr.toNat + s.p_filesz.toNat < (pageBase fa).toNat + 4096 := by omega
    have htop : (pageBase fa).toNat + 4096 < 2 ^ 32 := by omega
    refine ⟨_, rfl, fun a ha => ?_, fun a ha => ?_, fun a ha hcov => ?_⟩
    · have hout := mt (hpage a).mpr ha
      rw [account_mem]
      dsimp only
      rw [memset_tail hfile hend' htop hsizes hbound, if_neg (by omega)]
      exact mmap_other _ ha
    · rw [account_mem]
      dsimp only
      rw [memset_tail hfile hend' htop hsizes hbound]
      split
      · rfl
      · rw [mmap_page _ ha]
        rfl
    · have hin' := (hpage a).mp ha
      unfold Phdr.covers at hcov
      rw [account_mem]
      dsimp only
      rw [memset_tail hfile hend' htop hsizes hbound, mappedByte, if_pos hfile]
      by_cases htail : s.p_vaddr.toNat + s.p_filesz.toNat ≤ a.toNat
      · rw [if_pos (by omega), if_pos ⟨htail, hlast.mpr htop⟩]
      · rw [if_neg (by omega), if_neg fun hc => htail hc.1, mmap_page _ ha, hbyte a ha hcov.1]
  · rw [if_neg hclear]
    refine ⟨_, rfl, fun a ha => mmap_other _ ha, fun a ha => ?_, fun a ha hcov => ?_⟩
    · rw [account_mem]
      dsimp only
      rw [mmap_page _ ha]
      rfl
    · have hin' := (hpage a).mp ha
      unfold Phdr.covers at hcov
      rw [account_mem]
      dsimp only
      rw [mmap_page _ ha, hbyte a ha hcov.1, mappedByte, if_pos hfile, if_neg]
      rintro ⟨htail, hne⟩
      have htop := hlast.mp hne
      refine hclear ⟨?_, ?_, ?_, ?_⟩
      · rw [gt_iff_lt, UInt32.lt_iff_toNat_lt]
        omega
      · rw [ge_iff_le, UInt32.le_iff_toNat_le, hfend]
        omega
      · rw [UInt32.lt_iff_toNat_lt, hfend, UInt32.toNat_add, hsize]
        omega
      · have hzero : (0 : UInt32).toNat = 0 := rfl
        rw [gt_iff_lt, UInt32.lt_iff_toNat_lt, hzero,
          bssBytes_toNat (by omega) (by omega) htop hsizes hbound]
        omega

theorem loader_map_segment_bss (himg : s ∈ img.phdr) (h : s.contains fa)
    (hfile : ¬fa.toNat < s.p_vaddr.toNat + s.p_filesz.toNat) :
    ∃ st', loader_map_segment img.file st s fa = some st' ∧ Mapped img.file s fa st st' := by
  obtain ⟨⟨hle, hlt⟩, hbound⟩ := h.bounds
  have hsizes := UInt32.le_iff_toNat_le.mp (img.sizes s himg h.1)
  have hsize : pageSize.toNat = 4096 := rfl
  have hfile' : ¬fa < s.p_vaddr + s.p_filesz := by
    rw [UInt32.lt_iff_toNat_lt, UInt32.toNat_add]
    omega
  have hpage : ∀ a, pageBase a = pageBase fa ↔
      (pageBase fa).toNat ≤ a.toNat ∧ a.toNat < (pageBase fa).toNat + 4096 := by
    intro a
    rw [pageBase_eq_iff, pageBase_toNat]
    omega
  unfold loader_map_segment
  dsimp only
  rw [if_neg hfile', if_pos (img.writable s himg h.1)]
  refine ⟨_, rfl, fun a ha => ?_, fun a ha => ?_, fun a ha hcov => ?_⟩
  · have hout := mt (hpage a).mpr ha
    exact (if_neg hout).trans (mmap_other _ ha)
  · rw [account_mem]
    exact congrArg Option.isSome (if_pos ((hpage a).mp ha))
  · rw [account_mem, mappedByte, if_neg hfile]
    exact if_pos ((hpage a).mp ha)

theorem loader_map_segment_eq (himg : s ∈ img.phdr) (h : s.contains fa) :
    ∃ st', loader_map_segment img.file st s fa = some st' ∧ Mapped img.file s fa st st' := by
  by_cases hfile : fa.toNat < s.p_vaddr.toNat + s.p_filesz.toNat
  · exact loader_map_segment_file himg h hfile
  · exact loader_map_segment_bss himg h hfile

/-- Each mapped address of a segment holds what eager loading puts there. -/
def Correct (img : Image) (st : Loader) : Prop :=
  ∀ s ∈ img.phdr, s.p_type = ptLoad → ∀ a, (st.mem a).isSome →
    (s.filed a → st.mem a = some (fileByte img.file s a)) ∧
      (s.covers a → ¬s.filed a → st.mem a = some 0)

/-- The kind of page that the handler picks for `fa` does not suit the page: the address lies
beyond the file data while nonzero file data lies in its page, or it lies in the file data,
where the page is the last one, whose rest is not cleared, and is not zero in the file. -/
def Misplaced (img : Image) (s : Phdr) (fa : UInt32) : Prop :=
  if s.filed fa then pageBase fa = lastPage ∧ ∃ a, pageBase a = pageBase fa ∧
    s.covers a ∧ ¬s.filed a ∧ fileByte img.file s a ≠ 0
  else ∃ a, pageBase a = pageBase fa ∧ s.filed a ∧ fileByte img.file s a ≠ 0

theorem Image.filed_covers (himg : s ∈ img.phdr) (hload : s.p_type = ptLoad) (h : s.filed a) : s.covers a := by
  have hsizes := UInt32.le_iff_toNat_le.mp (img.sizes s himg hload)
  unfold Phdr.filed at h
  unfold Phdr.covers
  omega

/-- A page is right at its mapping exactly when the kind of page suits it. -/
theorem mappedByte_right_iff (h : s.contains fa) :
    (∀ a, pageBase a = pageBase fa →
      (s.filed a → mappedByte img.file s fa a = fileByte img.file s a) ∧
        (s.covers a → ¬s.filed a → mappedByte img.file s fa a = 0)) ↔ ¬Misplaced img s fa := by
  obtain ⟨⟨hle, hlt⟩, hbound⟩ := h.bounds
  unfold Misplaced mappedByte
  by_cases hfile : fa.toNat < s.p_vaddr.toNat + s.p_filesz.toNat
  · have hfiled : s.filed fa := ⟨hle, hfile⟩
    rw [if_pos hfiled]
    simp only [if_pos hfile]
    constructor
    · rintro hright ⟨hlast, a, ha, hcov, hnot, hne⟩
      have hzero := (hright a ha).2 hcov hnot
      rw [if_neg fun hc => hc.2 hlast] at hzero
      exact hne hzero
    · intro hmis a ha
      refine ⟨fun hin => ?_, fun hcov hnot => ?_⟩
      · have hbefore : ¬s.p_vaddr.toNat + s.p_filesz.toNat ≤ a.toNat := not_le.mpr hin.2
        rw [if_neg fun hc => hbefore hc.1]
      · have htail : s.p_vaddr.toNat + s.p_filesz.toNat ≤ a.toNat := not_lt.mp fun hc => hnot ⟨hcov.1, hc⟩
        by_cases hlast : pageBase fa = lastPage
        · rw [if_neg fun hc => hc.2 hlast]
          by_contra hne
          exact hmis ⟨hlast, a, ha, hcov, hnot, hne⟩
        · rw [if_pos ⟨htail, hlast⟩]
  · have hfiled : ¬s.filed fa := fun hc => hfile hc.2
    rw [if_neg hfiled]
    simp only [if_neg hfile]
    constructor
    · rintro hright ⟨a, ha, hin, hne⟩
      exact hne ((hright a ha).1 hin).symm
    · intro hmis a ha
      refine ⟨fun hin => ?_, fun _ _ => trivial⟩
      by_contra hne
      exact hmis ⟨a, ha, hin, fun he => hne he.symm⟩

theorem try_load_for_fault_eq {phdr : List Phdr} (h : ∃ s ∈ phdr, s.contains fa) :
    ∃ s ∈ phdr, s.contains fa ∧
      try_load_for_fault phdr file st fa = loader_map_segment file st s fa := by
  induction phdr with
  | nil =>
    obtain ⟨s, hs, -⟩ := h
    exact absurd hs List.not_mem_nil
  | cons t phdr ih =>
    by_cases ht : t.contains fa
    · exact ⟨t, List.mem_cons_self, ht, if_pos ht⟩
    · obtain ⟨s, hs, hc⟩ := h
      rcases List.mem_cons.mp hs with rfl | hs
      · exact absurd hc ht
      · obtain ⟨u, hu, huc, he⟩ := ih ⟨s, hs, hc⟩
        exact ⟨u, List.mem_cons_of_mem t hu, huc, (if_neg ht).trans he⟩

/-- The mapped pages are those that have been touched. -/
def Touched (st : Loader) (done : List UInt32) : Prop :=
  ∀ a, (st.mem a).isSome ↔ ∃ b ∈ done, pageBase b = pageBase a

theorem touch_eq (hdone : Touched st done) (h : ∃ s ∈ img.phdr, s.contains fa) :
    ∃ st', touch img st fa = some st' ∧ Touched st' (done ++ [fa]) ∧
      (Correct img st' ↔ Correct img st ∧ ((∀ b ∈ done, pageBase b ≠ pageBase fa) →
        ∀ s ∈ img.phdr, s.contains fa → ¬Misplaced img s fa)) := by
  by_cases hmapped : (st.mem fa).isSome
  · obtain ⟨b, hb, hbf⟩ := (hdone fa).mp hmapped
    refine ⟨st, if_pos hmapped, fun a => ?_, ?_⟩
    · rw [hdone a]
      constructor
      · rintro ⟨c, hc, hca⟩
        exact ⟨c, List.mem_append_left _ hc, hca⟩
      · rintro ⟨c, hc, hca⟩
        rcases List.mem_append.mp hc with hc | hc
        · exact ⟨c, hc, hca⟩
        · exact ⟨b, hb, hbf.trans (List.mem_singleton.mp hc ▸ hca)⟩
    · exact (and_iff_left fun hnew => absurd hbf (hnew b hb)).symm
  · let counted : Loader := { st with no_page_faults := st.no_page_faults + 1 }
    obtain ⟨s, himg, hs, hload⟩ : ∃ s ∈ img.phdr, s.contains fa ∧
        try_load_for_fault img.phdr img.file counted fa = loader_map_segment img.file counted s fa :=
      try_load_for_fault_eq h
    obtain ⟨st', hst', hother, hpage, hsegment⟩ := @loader_map_segment_eq img counted s fa himg hs
    have hnew : ∀ b ∈ done, pageBase b ≠ pageBase fa :=
      fun b hb he => hmapped ((hdone fa).mpr ⟨b, hb, he⟩)
    have hunmapped : ∀ a, pageBase a = pageBase fa → ¬(st.mem a).isSome := by
      intro a ha hsome
      obtain ⟨b, hb, hba⟩ := (hdone a).mp hsome
      exact hnew b hb (hba.trans ha)
    -- No other segment has an address in the page.
    have honly : ∀ t ∈ img.phdr, t.p_type = ptLoad → ∀ a, pageBase a = pageBase fa → t.covers a → t = s := by
      intro t ht htype a ha hcov
      by_contra hne
      exact img.apart t ht s himg htype hs.1 hne a fa hcov hs.bounds.1 ha
    refine ⟨st', (if_neg hmapped).trans (hload.trans hst'), fun a => ?_, ?_⟩
    · by_cases ha : pageBase a = pageBase fa
      · exact iff_of_true (hpage a ha) ⟨fa, by simp, ha.symm⟩
      · rw [hother a ha, hdone a]
        simp [Ne.symm ha]
    · constructor
      · intro hright
        refine ⟨fun t ht htype a hsome => ?_, fun _ t ht htc => ?_⟩
        · have ha : pageBase a ≠ pageBase fa := fun ha => hunmapped a ha hsome
          have hsame := hother a ha
          have hat := hright t ht htype a (hsame ▸ hsome)
          rw [hsame] at hat
          exact hat
        · have hts := honly t ht htc.1 fa rfl htc.bounds.1
          subst hts
          refine (mappedByte_right_iff hs).mp fun a ha => ?_
          obtain ⟨hin, hout⟩ := hright t himg hs.1 a (hpage a ha)
          refine ⟨fun hfiled => ?_, fun hcov hnot => ?_⟩
          · have he := hin hfiled
            rw [hsegment a ha (Image.filed_covers himg hs.1 hfiled)] at he
            exact Option.some.inj he
          · have he := hout hcov hnot
            rw [hsegment a ha hcov] at he
            exact Option.some.inj he
      · rintro ⟨hright, hsuits⟩ t ht htype a hsome
        by_cases ha : pageBase a = pageBase fa
        · have hbytes := (mappedByte_right_iff hs).mpr (hsuits hnew s himg hs) a ha
          refine ⟨fun hfiled => ?_, fun hcov hnot => ?_⟩
          · have hcov := Image.filed_covers ht htype hfiled
            have hts := honly t ht htype a ha hcov
            subst hts
            rw [hsegment a ha hcov, hbytes.1 hfiled]
          · have hts := honly t ht htype a ha hcov
            subst hts
            rw [hsegment a ha hcov, hbytes.2 hcov hnot]
        · rw [hother a ha] at hsome ⊢
          exact hright t ht htype a hsome

theorem touches_eq (hdone : Touched st done) (h : ∀ a ∈ as, ∃ s ∈ img.phdr, s.contains a) :
    ∃ st', touches img st as = some st' ∧
      (Correct img st' ↔ Correct img st ∧ ∀ pre a post, as = pre ++ a :: post →
        (∀ b ∈ done ++ pre, pageBase b ≠ pageBase a) →
          ∀ s ∈ img.phdr, s.contains a → ¬Misplaced img s a) := by
  induction as generalizing st done with
  | nil =>
    refine ⟨st, rfl, (and_iff_left fun pre a post he => ?_).symm⟩
    simp at he
  | cons a as ih =>
    obtain ⟨u, hu, hudone, hucorrect⟩ := touch_eq hdone (h a List.mem_cons_self)
    obtain ⟨v, hv, hvcorrect⟩ := ih hudone fun b hb => h b (List.mem_cons_of_mem a hb)
    refine ⟨v, by rw [touches, hu]; exact hv, ?_⟩
    rw [hvcorrect, hucorrect, and_assoc]
    refine and_congr_right fun _ => ⟨?_, fun hall => ⟨fun hnew => ?_, fun pre b post he => ?_⟩⟩
    · rintro ⟨hfirst, hlater⟩ pre b post he
      cases pre with
      | nil =>
        cases he
        rw [List.append_nil]
        exact hfirst
      | cons c pre =>
        cases he
        rw [List.append_cons]
        exact hlater pre b post rfl
    · refine hall [] a as rfl ?_
      rw [List.append_nil]
      exact hnew
    · have hb := hall (a :: pre) b post (congrArg (a :: ·) he)
      rwa [List.append_cons] at hb

/-- Demand paging equals eager loading exactly when no first touch of a page is misplaced. -/
theorem demand_paging_iff (img : Image) (as : List UInt32)
    (hin : ∀ a ∈ as, ∃ s ∈ img.phdr, s.contains a) :
    ∃ st, touches img .init as = some st ∧
      (Correct img st ↔ ∀ pre a post, as = pre ++ a :: post → (∀ b ∈ pre, pageBase b ≠ pageBase a) →
        ∀ s ∈ img.phdr, s.contains a → ¬Misplaced img s a) := by
  have hnone : Touched .init [] := fun a => iff_of_false nofun fun ⟨b, hb, _⟩ => absurd hb List.not_mem_nil
  obtain ⟨st, hst, hcorrect⟩ := @touches_eq img _ _ _ hnone hin
  have hinit : Correct img .init := fun s _ _ a hsome => absurd hsome nofun
  exact ⟨st, hst, hcorrect.trans (and_iff_right hinit)⟩

/-- One segment, with 4 bytes of data and 4 bytes of BSS. -/
def dataSegment : Phdr := ⟨ptLoad, 0, 0x1000, 4, 8, pfR ||| pfW⟩

def smallImage : Image where
  phdr := [dataSegment]
  file := [1, 2, 3, 4, 5, 6, 7, 8]
  file_small := by decide
  sizes := by decide
  congruent := by decide
  readable := by decide
  writable := by decide
  in_file := by decide
  apart := by
    intro s hs t ht _ _ hne
    rw [List.mem_singleton.mp hs, List.mem_singleton.mp ht] at hne
    exact absurd rfl hne

theorem demand_paging_iff_sample : ∃ st, touches smallImage .init [0x1001, 0x1006] = some st ∧
    Correct smallImage st := by
  have hin : ∀ a ∈ [0x1001, 0x1006], ∃ s ∈ smallImage.phdr, s.contains a := by
    intro a ha
    refine ⟨dataSegment, List.mem_cons_self, ?_⟩
    rcases List.mem_pair.mp ha with rfl | rfl <;> decide
  obtain ⟨st, hst, hcorrect⟩ := demand_paging_iff smallImage [0x1001, 0x1006] hin
  refine ⟨st, hst, hcorrect.mpr fun pre a post he hnew s hs hc => ?_⟩
  have hseg : s = dataSegment := List.mem_singleton.mp hs
  subst hseg
  match pre, he with
  | [], he =>
    cases he
    unfold Misplaced
    rw [if_pos (by decide)]
    exact fun hmis => absurd hmis.1 (by decide)
  | [b], he =>
    cases he
    exact absurd rfl (hnew 0x1001 List.mem_cons_self)
  | b :: c :: pre, he => simp at he

/-- The BSS is touched first, and the data of the page is lost. -/
theorem demand_paging_wrong : ∃ st, touches smallImage .init [0x1006] = some st ∧
    ¬Correct smallImage st := by
  refine ⟨_, rfl, fun hcorrect => ?_⟩
  have hbyte := (hcorrect dataSegment List.mem_cons_self rfl 0x1000 (by decide +kernel)).1 (by decide +kernel)
  revert hbyte
  decide +kernel

end OsSuite.SmartLoader
