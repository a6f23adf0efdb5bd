import Mathlib

/-! Trees of uniform depth threaded through a store of blocks. A block refers
to its children by number and number 0 is a hole, so a store denotes, for each
depth and root, the multiset of blocks of the tree and the leaf on each path. -/

namespace OsSuite.BlockTree

variable {β ι : Type*} [Fintype ι] (child : β → ι → ℕ)

/-- The blocks of the tree of depth `l` rooted at `b`, leaves included. -/
def nodes (s : ℕ → β) : ℕ → ℕ → Multiset ℕ
  | 0, b => if b = 0 then 0 else {b}
  | l + 1, b => if b = 0 then 0 else {b} + ∑ i, nodes s l (child (s b) i)

/-- The contents of the leaf at the end of a path, if there is no hole on it. -/
def look (s : ℕ → β) : List ι → ℕ → Option β
  | [], b => if b = 0 then none else some (s b)
  | i :: path, b => if b = 0 then none else look s path (child (s b) i)

@[simp] theorem nodes_hole (s : ℕ → β) (l : ℕ) : nodes child s l 0 = 0 := by
  cases l <;> simp [nodes]

omit [Fintype ι] in
@[simp] theorem look_hole (s : ℕ → β) (path : List ι) : look child s path 0 = none := by
  cases path <;> simp [look]

theorem nodes_zero (s : ℕ → β) {b : ℕ} (hb : b ≠ 0) : nodes child s 0 b = {b} := by
  simp [nodes, hb]

theorem nodes_succ (s : ℕ → β) (l : ℕ) {b : ℕ} (hb : b ≠ 0) :
    nodes child s (l + 1) b = {b} + ∑ i, nodes child s l (child (s b) i) := by
  simp [nodes, hb]

omit [Fintype ι] in
theorem look_nil (s : ℕ → β) {b : ℕ} (hb : b ≠ 0) : look child s [] b = some (s b) := by
  simp [look, hb]

omit [Fintype ι] in
theorem look_cons (s : ℕ → β) (i : ι) (path : List ι) {b : ℕ} (hb : b ≠ 0) :
    look child s (i :: path) b = look child s path (child (s b) i) := by
  simp [look, hb]

theorem root_mem_nodes (s : ℕ → β) (l : ℕ) {b : ℕ} (hb : b ≠ 0) : b ∈ nodes child s l b := by
  cases l <;> simp [nodes, hb]

theorem nodes_child_le (s : ℕ → β) (l : ℕ) {b : ℕ} (hb : b ≠ 0) (i : ι) :
    nodes child s l (child (s b) i) ≤ nodes child s (l + 1) b := by
  rw [nodes_succ child s l hb]
  exact (Finset.single_le_sum (fun _ _ => Multiset.zero_le _) (Finset.mem_univ i)).trans
    (Multiset.le_add_left _ _)

theorem zero_notMem_nodes (s : ℕ → β) (l b : ℕ) : 0 ∉ nodes child s l b := by
  induction l generalizing b with
  | zero => by_cases hb : b = 0 <;> simp [nodes, hb, eq_comm]
  | succ l ih =>
    by_cases hb : b = 0
    · simp [hb]
    · simp only [nodes_succ child s l hb, Multiset.mem_add, Multiset.mem_singleton,
        Multiset.mem_sum, not_or, not_exists, not_and]
      exact ⟨Ne.symm hb, fun i _ => ih _⟩

theorem root_notMem_child {s : ℕ → β} {l b : ℕ} (hb : b ≠ 0)
    (hnd : (nodes child s (l + 1) b).Nodup) (i : ι) : b ∉ nodes child s l (child (s b) i) := by
  rw [nodes_succ child s l hb, Multiset.singleton_add, Multiset.nodup_cons] at hnd
  exact fun h => hnd.1 (Multiset.mem_sum.mpr ⟨i, Finset.mem_univ i, h⟩)

theorem notMem_other_child {s : ℕ → β} {l b : ℕ} (hb : b ≠ 0)
    (hnd : (nodes child s (l + 1) b).Nodup) {i j : ι} (hij : i ≠ j) {x : ℕ}
    (hx : x ∈ nodes child s l (child (s b) i)) : x ∉ nodes child s l (child (s b) j) := by
  classical
  rw [nodes_succ child s l hb, Multiset.singleton_add, Multiset.nodup_cons,
    ← Finset.add_sum_erase Finset.univ _ (Finset.mem_univ i)] at hnd
  have hdis := (Multiset.nodup_add.mp hnd.2).2.2
  intro hxj
  exact Multiset.disjoint_left.mp hdis hx
    (Multiset.mem_sum.mpr ⟨j, Finset.mem_erase.mpr ⟨hij.symm, Finset.mem_univ j⟩, hxj⟩)

theorem nodes_congr {s s' : ℕ → β} (l : ℕ) {b : ℕ}
    (h : ∀ x ∈ nodes child s l b, s' x = s x) : nodes child s' l b = nodes child s l b := by
  induction l generalizing b with
  | zero => rfl
  | succ l ih =>
    by_cases hb : b = 0
    · simp [hb]
    · have hroot : s' b = s b := h b (root_mem_nodes child s (l + 1) hb)
      rw [nodes_succ child s' l hb, nodes_succ child s l hb, hroot]
      congr 1
      apply Finset.sum_congr rfl
      intro i _
      exact ih fun x hx => h x (Multiset.mem_of_le (nodes_child_le child s l hb i) hx)

theorem look_congr {s s' : ℕ → β} (path : List ι) {b : ℕ}
    (h : ∀ x ∈ nodes child s path.length b, s' x = s x) :
    look child s' path b = look child s path b := by
  induction path generalizing b with
  | nil =>
    by_cases hb : b = 0
    · simp [hb]
    · rw [look_nil child s' hb, look_nil child s hb, h b (root_mem_nodes child s 0 hb)]
  | cons i path ih =>
    by_cases hb : b = 0
    · simp [hb]
    · have hroot : s' b = s b := h b (root_mem_nodes child s _ hb)
      rw [look_cons child s' i path hb, look_cons child s i path hb, hroot]
      exact ih fun x hx => h x (Multiset.mem_of_le (nodes_child_le child s _ hb i) hx)

variable [DecidableEq ι]

/-- Replacing one subtree: the other subtrees keep their roots and blocks, the
subtree at `i` gains the blocks `fresh`. -/
theorem nodes_graft {s s' : ℕ → β} {l b : ℕ} {i : ι} {fresh : Multiset ℕ} (hb : b ≠ 0)
    (hroots : ∀ j, j ≠ i → child (s' b) j = child (s b) j)
    (hframe : ∀ j, j ≠ i → ∀ x ∈ nodes child s l (child (s b) j), s' x = s x)
    (hsub : nodes child s' l (child (s' b) i) = nodes child s l (child (s b) i) + fresh) :
    nodes child s' (l + 1) b = nodes child s (l + 1) b + fresh := by
  have hothers : ∑ j ∈ Finset.univ.erase i, nodes child s' l (child (s' b) j) =
      ∑ j ∈ Finset.univ.erase i, nodes child s l (child (s b) j) := by
    apply Finset.sum_congr rfl
    intro j hj
    have hji : j ≠ i := Finset.ne_of_mem_erase hj
    rw [hroots j hji]
    exact nodes_congr child l (hframe j hji)
  rw [nodes_succ child s' l hb, nodes_succ child s l hb,
    ← Finset.add_sum_erase Finset.univ _ (Finset.mem_univ i), hsub, hothers,
    ← Finset.add_sum_erase Finset.univ (fun j => nodes child s l (child (s b) j)) (Finset.mem_univ i)]
  abel

omit [DecidableEq ι] in
theorem look_graft_other {s s' : ℕ → β} {b : ℕ} {j : ι} {path : List ι} (hb : b ≠ 0)
    (hroot : child (s' b) j = child (s b) j)
    (hframe : ∀ x ∈ nodes child s path.length (child (s b) j), s' x = s x) :
    look child s' (j :: path) b = look child s (j :: path) b := by
  rw [look_cons child s' j path hb, look_cons child s j path hb, hroot]
  exact look_congr child path hframe

omit [DecidableEq ι] in
theorem nodes_single {s : ℕ → β} {l b : ℕ} {i : ι} (hb : b ≠ 0)
    (hroots : ∀ j, j ≠ i → child (s b) j = 0) :
    nodes child s (l + 1) b = {b} + nodes child s l (child (s b) i) := by
  rw [nodes_succ child s l hb, Finset.sum_eq_single i]
  · intro j _ hj
    simp [hroots j hj]
  · intro hi
    exact absurd (Finset.mem_univ i) hi

end OsSuite.BlockTree
