import OsSuite.SegvFaults

/-! Whether SimpleSmartLoader loads a page at most once. The handler does not look whether the
page of the fault is mapped already. -/

namespace OsSuite.SmartLoader

variable {phdr : List Phdr} {file : List UInt8} {st st' : Loader} {s : Phdr} {fa a b p : UInt32}
  {es : List Event} {e : Event}

/-- Each mapped page has been loaded once. -/
structure Loader.Once (st : Loader) : Prop where
  nodup : (st.map_ranges.map Prod.fst).Nodup
  count : st.no_allocations = {p | st.Mapped p}.ncard

/-- A fault leaves the bytes of the mapped pages alone, and one on a mapped page goes to the
default action. -/
structure Passed (phdr : List Phdr) (file : List UInt8) (st : Loader) (fa : UInt32) : Prop where
  kept : ∀ st', segv_handler phdr file st fa = some st' → ∀ a, (st.mem a).isSome → st'.mem a = st.mem a
  default_action : (st.mem fa).isSome → segv_handler phdr file st fa = none

theorem Loader.Listed.once (h : st.Listed) (hnodup : (st.map_ranges.map Prod.fst).Nodup) : st.Once := by
  refine ⟨hnodup, ?_⟩
  have hset : {p | st.Mapped p} = (st.map_ranges.map Prod.fst).toFinset := by
    ext p
    simp only [Set.mem_ofPred_eq, Finset.mem_coe, List.mem_toFinset]
    exact (h.ranges p).symm
  rw [hset, Set.ncard_coe_finset, List.toFinset_card_of_nodup hnodup, List.length_map, h.count]

/-- The faults of a run that fall on mapped pages are not served. -/
def NoneServed (phdr : List Phdr) (file : List UInt8) (es : List Event) : Prop :=
  ∀ pre fa post st, es = pre ++ .fault fa :: post → run phdr file pre = some st →
    (st.mem fa).isSome → ¬Served phdr fa

theorem NoneServed.prefix (h : NoneServed phdr file (es ++ [e])) : NoneServed phdr file es := by
  intro pre fa post st he
  exact h pre fa (post ++ [e]) st (by simp [he])

theorem passed_iff (hst : st.Listed) :
    Passed phdr file st fa ↔ ((st.mem fa).isSome → ¬Served phdr fa) := by
  constructor
  · intro h hmapped
    exact segv_handler_eq_none_iff.mp (h.default_action hmapped)
  · intro h
    refine ⟨fun st' he a ha => ?_, fun hmapped => segv_handler_eq_none_iff.mpr (h hmapped)⟩
    obtain ⟨s, -, -, hs⟩ := segv_handler_loaded he
    apply hs.other
    intro hpage
    have hmapped := hst.whole fa ⟨a, hpage, ha⟩
    have hserved : Served phdr fa := segv_handler_isSome_iff.mp (by rw [he]; rfl)
    exact h hmapped hserved

theorem step_nodup (hst : st.Listed) (hnodup : (st.map_ranges.map Prod.fst).Nodup)
    (hnew : ∀ fa, e = .fault fa → (st.mem fa).isSome → ¬Served phdr fa)
    (he : step phdr file st e = some st') : (st'.map_ranges.map Prod.fst).Nodup := by
  cases e with
  | store a v =>
    rw [(step_store he).2.1]
    exact hnodup
  | fault fa =>
    obtain ⟨s, -, -, hs⟩ := segv_handler_loaded he
    have hserved : Served phdr fa := segv_handler_isSome_iff.mp (by rw [← step, he]; rfl)
    have hpage : pageBase fa ∉ st.map_ranges.map Prod.fst := by
      rw [hst.ranges, hst.mapped_iff]
      exact fun hmapped => hnew fa rfl hmapped hserved
    rw [hs.ranges, List.map_append, List.map_singleton, ← List.concat_eq_append]
    exact hnodup.concat hpage

theorem run_nodup (h : NoneServed phdr file es) (hrun : run phdr file es = some st) :
    (st.map_ranges.map Prod.fst).Nodup := by
  induction es using List.reverseRecOn generalizing st with
  | nil =>
    cases hrun
    exact List.nodup_nil
  | append_singleton es e ih =>
    obtain ⟨u, hu, he⟩ := run_concat.mp hrun
    refine step_nodup (run_listed hu) (ih h.prefix hu) (fun fa hfault => ?_) he
    exact h es fa [] u (by rw [hfault]) hu

/-- Every page is loaded at most once exactly when no fault on a mapped page is served. -/
theorem loaded_once_iff (phdr : List Phdr) (file : List UInt8) (es : List Event) :
    (∀ pre post st, es = pre ++ post → run phdr file pre = some st →
      st.Once ∧ ∀ fa rest, post = .fault fa :: rest → Passed phdr file st fa) ↔
      NoneServed phdr file es := by
  constructor
  · intro h pre fa post st he hrun
    exact (passed_iff (run_listed hrun)).mp ((h pre _ st he hrun).2 fa post rfl)
  · intro h pre post st he hrun
    have hlisted := run_listed hrun
    refine ⟨hlisted.once (run_nodup (fun pre' fa post' u hpre => ?_) hrun), fun fa rest hpost => ?_⟩
    · exact h pre' fa (post' ++ post) u (by simp [he, hpre])
    · exact (passed_iff hlisted).mpr (h pre fa rest st (by rw [he, hpost]) hrun)

/-- Two segments that share a page: code, and data behind it. -/
def sharedPhdr : List Phdr :=
  [⟨ptLoad, 0, 0x1000, 8, 8, pfR ||| pfX⟩, ⟨ptLoad, 8, 0x1008, 8, 8, pfR ||| pfW⟩]

def sharedFile : List UInt8 := [1, 2, 3, 4, 5, 6, 7, 8, 9, 10, 11, 12, 13, 14, 15, 16]

/-- The program stores to its data, and then runs the code of the page: the page is loaded again,
and the stored byte is lost. -/
theorem loaded_once_wrong : ∃ st st', run sharedPhdr sharedFile [.fault 0x1008, .store 0x1008 42] = some st ∧
    st.mem 0x1008 = some 42 ∧ segv_handler sharedPhdr sharedFile st 0x1000 = some st' ∧
    st'.mem 0x1008 = some 9 ∧ st'.map_ranges = [(0x1000, pageSize), (0x1000, pageSize)] ∧
    ¬st'.Once ∧ ¬Passed sharedPhdr sharedFile st 0x1000 := by
  refine ⟨_, _, rfl, by decide +kernel, rfl, by decide +kernel, by decide +kernel, ?_, ?_⟩
  · intro h
    exact absurd h.nodup (by decide +kernel)
  · intro h
    exact absurd (h.kept _ rfl 0x1008 (by decide +kernel)) (by decide +kernel)

end OsSuite.SmartLoader
