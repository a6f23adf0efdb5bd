import Mathlib

/-! A loop that copies cells of a memory one after another. When no cell is both
a source and a target, the order of the copies does not matter. -/

namespace OsSuite.CopyLoop

variable {ι κ α : Type} [DecidableEq κ]

def copyAll (src dst : ι → κ) (q : List ι) (m : κ → α) : κ → α :=
  q.foldl (fun m i => Function.update m (dst i) (m (src i))) m

@[simp] theorem copyAll_nil (src dst : ι → κ) (m : κ → α) : copyAll src dst [] m = m := rfl

theorem copyAll_cons (src dst : ι → κ) (i : ι) (q : List ι) (m : κ → α) :
    copyAll src dst (i :: q) m = copyAll src dst q (Function.update m (dst i) (m (src i))) := rfl

theorem copyAll_of_not_target {src dst : ι → κ} {q : List ι} {y : κ}
    (hy : ∀ i ∈ q, dst i ≠ y) (m : κ → α) : copyAll src dst q m y = m y := by
  induction q generalizing m with
  | nil => rfl
  | cons i q ih =>
    rw [copyAll_cons, ih fun j hj => hy j (List.mem_cons_of_mem _ hj)]
    exact Function.update_of_ne (hy i List.mem_cons_self).symm _ _

theorem copyAll_target {src dst : ι → κ} {q : List ι} {i : ι} (hi : i ∈ q)
    (hone : ∀ j ∈ q, dst j = dst i → j = i) (happart : ∀ j ∈ q, dst j ≠ src i) (m : κ → α) :
    copyAll src dst q m (dst i) = m (src i) := by
  induction q generalizing m with
  | nil => cases hi
  | cons j q ih =>
    rw [copyAll_cons]
    by_cases hq : i ∈ q
    · rw [ih hq (fun k hk => hone k (List.mem_cons_of_mem _ hk))
        fun k hk => happart k (List.mem_cons_of_mem _ hk)]
      exact Function.update_of_ne (happart j List.mem_cons_self).symm _ _
    · have hij : i = j := (List.mem_cons.mp hi).resolve_right hq
      subst hij
      rw [copyAll_of_not_target]
      · exact Function.update_self _ _ _
      · intro k hk he
        exact hq (hone k (List.mem_cons_of_mem _ hk) he ▸ hk)

end OsSuite.CopyLoop
