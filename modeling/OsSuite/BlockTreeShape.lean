import OsSuite.BlockTree

/-! The shape of a tree of blocks: its blocks above the leaves that have no child, and the blocks
that a path still needs. -/

namespace OsSuite.BlockTree

variable {β ι : Type*} (child : β → ι → ℕ)

/-- The blocks above the leaves without a child. -/
def barren (s : ℕ → β) : ℕ → ℕ → Set ℕ
  | 0, _ => ∅
  | l + 1, b => {x | b ≠ 0 ∧ ((x = b ∧ ∀ i, child (s b) i = 0) ∨ ∃ i, x ∈ barren s l (child (s b) i))}

/-- Those that are not on the path. -/
def barrenBeside (s : ℕ → β) : List ι → ℕ → Set ℕ
  | [], _ => ∅
  | i :: path, b => {x | b ≠ 0 ∧ ((∃ j, j ≠ i ∧ x ∈ barren child s path.length (child (s b) j)) ∨
      x ∈ barrenBeside s path (child (s b) i))}

/-- The number of blocks that the path needs from the first hole on. -/
def missing (s : ℕ → β) : List ι → ℕ → ℕ
  | [], b => if b = 0 then 1 else 0
  | i :: path, b => if b = 0 then path.length + 2 else missing s path (child (s b) i)

variable {s s' : ℕ → β} {l b x : ℕ} {i j : ι} {path : List ι}

@[simp] theorem barren_hole (s : ℕ → β) (l : ℕ) : barren child s l 0 = ∅ := by
  cases l <;> simp [barren]

@[simp] theorem barrenBeside_hole (s : ℕ → β) (path : List ι) : barrenBeside child s path 0 = ∅ := by
  cases path <;> simp [barrenBeside]

@[simp] theorem missing_hole (s : ℕ → β) (path : List ι) : missing child s path 0 = path.length + 1 := by
  cases path <;> simp [missing]

theorem mem_barren_succ (hb : b ≠ 0) : x ∈ barren child s (l + 1) b ↔
    (x = b ∧ ∀ i, child (s b) i = 0) ∨ ∃ i, x ∈ barren child s l (child (s b) i) := by
  simp [barren, hb]

theorem mem_barrenBeside_cons (hb : b ≠ 0) : x ∈ barrenBeside child s (i :: path) b ↔
    (∃ j, j ≠ i ∧ x ∈ barren child s path.length (child (s b) j)) ∨
      x ∈ barrenBeside child s path (child (s b) i) := by
  simp [barrenBeside, hb]

theorem missing_cons (hb : b ≠ 0) :
    missing child s (i :: path) b = missing child s path (child (s b) i) := by
  simp [missing, hb]

theorem missing_le (s : ℕ → β) (path : List ι) (b : ℕ) : missing child s path b ≤ path.length + 1 := by
  induction path generalizing b with
  | nil =>
    rw [missing]
    split <;> omega
  | cons i path ih =>
    by_cases hb : b = 0
    · rw [hb, missing_hole]
    · rw [missing_cons child hb]
      exact (ih _).trans (Nat.le_succ _)

theorem barrenBeside_subset (s : ℕ → β) (path : List ι) (b : ℕ) :
    barrenBeside child s path b ⊆ barren child s path.length b := by
  induction path generalizing b with
  | nil => simp [barrenBeside]
  | cons i path ih =>
    by_cases hb : b = 0
    · simp [hb]
    · intro x hx
      rw [mem_barrenBeside_cons child hb] at hx
      rw [List.length_cons, mem_barren_succ child hb]
      obtain ⟨j, _, hj⟩ | hi := hx
      · exact Or.inr ⟨j, hj⟩
      · exact Or.inr ⟨i, ih _ hi⟩

/-- A path that ends at once in a block with other children passes by no barren block. -/
theorem barrenBeside_eq_barren (hb : b ≠ 0) (hhole : child (s b) i = 0) (hj : child (s b) j ≠ 0) :
    barrenBeside child s (i :: path) b = barren child s (path.length + 1) b := by
  ext x
  rw [mem_barrenBeside_cons child hb, mem_barren_succ child hb, hhole, barrenBeside_hole]
  constructor
  · rintro (⟨j, _, hx⟩ | hx)
    · exact Or.inr ⟨j, hx⟩
    · cases hx
  · rintro (⟨_, hnone⟩ | ⟨k, hx⟩)
    · exact absurd (hnone j) hj
    · refine Or.inl ⟨k, ?_, hx⟩
      rintro rfl
      simp [hhole] at hx

theorem barren_single (hb : b ≠ 0) (hroots : ∀ j, j ≠ i → child (s b) j = 0) (hi : child (s b) i ≠ 0) :
    barren child s (l + 1) b = barren child s l (child (s b) i) := by
  ext x
  rw [mem_barren_succ child hb]
  constructor
  · rintro (⟨_, hnone⟩ | ⟨j, hx⟩)
    · exact absurd (hnone i) hi
    · by_cases hji : j = i
      · rwa [hji] at hx
      · simp [hroots j hji] at hx
  · intro hx
    exact Or.inr ⟨i, hx⟩

theorem mem_barren_of_holes (hb : b ≠ 0) (hroots : ∀ i, child (s b) i = 0) :
    b ∈ barren child s (l + 1) b :=
  (mem_barren_succ child hb).mpr (Or.inl ⟨rfl, hroots⟩)

section Congr

variable [Fintype ι]

theorem barren_congr (l : ℕ) (h : ∀ x ∈ nodes child s l b, s' x = s x) :
    barren child s' l b = barren child s l b := by
  induction l generalizing b with
  | zero => rfl
  | succ l ih =>
    by_cases hb : b = 0
    · simp [hb]
    · have hroot : s' b = s b := h b (root_mem_nodes child s (l + 1) hb)
      have hsub : ∀ i, barren child s' l (child (s b) i) = barren child s l (child (s b) i) := by
        intro i
        exact ih fun x hx => h x (Multiset.mem_of_le (nodes_child_le child s l hb i) hx)
      ext x
      simp only [mem_barren_succ child hb, hroot, hsub]

theorem barrenBeside_congr (path : List ι) (h : ∀ x ∈ nodes child s path.length b, s' x = s x) :
    barrenBeside child s' path b = barrenBeside child s path b := by
  induction path generalizing b with
  | nil => rfl
  | cons i path ih =>
    by_cases hb : b = 0
    · simp [hb]
    · have hroot : s' b = s b := h b (root_mem_nodes child s _ hb)
      have hchild : ∀ j, ∀ x ∈ nodes child s path.length (child (s b) j), s' x = s x :=
        fun j x hx => h x (Multiset.mem_of_le (nodes_child_le child s _ hb j) hx)
      have hsub : ∀ j, barren child s' path.length (child (s b) j) =
          barren child s path.length (child (s b) j) := fun j => barren_congr child _ (hchild j)
      ext x
      simp only [mem_barrenBeside_cons child hb, hroot, hsub, ih (hchild i)]

theorem missing_congr (path : List ι) (h : ∀ x ∈ nodes child s path.length b, s' x = s x) :
    missing child s' path b = missing child s path b := by
  induction path generalizing b with
  | nil => rfl
  | cons i path ih =>
    by_cases hb : b = 0
    · simp [hb]
    · have hroot : s' b = s b := h b (root_mem_nodes child s _ hb)
      rw [missing_cons child hb, missing_cons child hb, hroot]
      exact ih fun x hx => h x (Multiset.mem_of_le (nodes_child_le child s _ hb i) hx)

/-- The subtree on the path replaced, by one whose barren blocks are those beside the path. -/
theorem barren_graft (hl : path.length = l) (hb : b ≠ 0)
    (hroots : ∀ j, j ≠ i → child (s' b) j = child (s b) j)
    (hframe : ∀ j, j ≠ i → ∀ x ∈ nodes child s l (child (s b) j), s' x = s x)
    (hsub : barren child s' l (child (s' b) i) = barrenBeside child s path (child (s b) i))
    (hi : child (s' b) i ≠ 0) :
    barren child s' (l + 1) b = barrenBeside child s (i :: path) b := by
  subst hl
  have hothers : ∀ j, j ≠ i → barren child s' path.length (child (s' b) j) =
      barren child s path.length (child (s b) j) := by
    intro j hj
    rw [hroots j hj]
    exact barren_congr child _ (hframe j hj)
  ext x
  rw [mem_barren_succ child hb, mem_barrenBeside_cons child hb]
  constructor
  · rintro (⟨_, hnone⟩ | ⟨j, hx⟩)
    · exact absurd (hnone i) hi
    · by_cases hj : j = i
      · rw [hj, hsub] at hx
        exact Or.inr hx
      · rw [hothers j hj] at hx
        exact Or.inl ⟨j, hj, hx⟩
  · rintro (⟨j, hj, hx⟩ | hx)
    · rw [← hothers j hj] at hx
      exact Or.inr ⟨j, hx⟩
    · rw [← hsub] at hx
      exact Or.inr ⟨i, hx⟩

end Congr

end OsSuite.BlockTree
