import Mathlib

/-! Splitting an interval among workers, and the orders in which the workers' actions can
interleave. -/

namespace OsSuite

section Splits

variable {α : Type} [LinearOrder α] {a b : α} {rs : List (α × α)} {r : α × α}

/-- Consecutive ranges that lead from `a` to `b`. -/
inductive Splits : α → List (α × α) → α → Prop where
  | nil (a : α) : Splits a [] a
  | cons {a m b : α} {rs : List (α × α)} (h : a ≤ m) (hrest : Splits m rs b) :
    Splits a ((a, m) :: rs) b

namespace Splits

theorem le (h : Splits a rs b) : a ≤ b := by
  induction h with
  | nil a => exact le_rfl
  | cons h hrest ih => exact h.trans ih

theorem within (h : Splits a rs b) (hr : r ∈ rs) : a ≤ r.1 ∧ r.1 ≤ r.2 ∧ r.2 ≤ b := by
  induction h with
  | nil a => exact absurd hr List.not_mem_nil
  | cons h hrest ih =>
    rcases List.mem_cons.mp hr with rfl | hr
    · exact ⟨le_rfl, h, hrest.le⟩
    · obtain ⟨hle, hmid, hend⟩ := ih hr
      exact ⟨h.trans hle, hmid, hend⟩

/-- Each range ends before the later ones begin. -/
theorem pairwise (h : Splits a rs b) : rs.Pairwise fun r q => r.2 ≤ q.1 := by
  induction h with
  | nil a => exact List.Pairwise.nil
  | cons h hrest ih => exact List.pairwise_cons.mpr ⟨fun q hq => (hrest.within hq).1, ih⟩

theorem sum_Ico [LocallyFiniteOrder α] (h : Splits a rs b) :
    (rs.map fun r => Multiset.Ico r.1 r.2).sum = Multiset.Ico a b := by
  induction h with
  | nil a =>
    rw [Multiset.Ico_self]
    rfl
  | cons h hrest ih => rw [List.map_cons, List.sum_cons, ih, Multiset.Ico_add_Ico_eq_Ico h hrest.le]

end Splits

end Splits

section Interleaving

variable {α : Type} {ls : List (List α)} {out : List α}

/-- `out` is what happens when workers with the actions `ls` take turns in some order. -/
inductive Interleaving : List (List α) → List α → Prop where
  | done {ls : List (List α)} (h : ∀ l ∈ ls, l = []) : Interleaving ls []
  | turn {before after : List (List α)} {l out : List α} (x : α)
    (h : Interleaving (before ++ l :: after) out) :
    Interleaving (before ++ (x :: l) :: after) (x :: out)

/-- Whatever the order, each action is taken once. -/
theorem Interleaving.perm (h : Interleaving ls out) : out.Perm ls.flatten := by
  induction h with
  | done h => rw [List.flatten_eq_nil_iff.mpr h]
  | @turn before after l out x h ih =>
    have hmove : (before ++ (x :: l) :: after).flatten.Perm
        (x :: (before ++ l :: after).flatten) := by
      simp only [List.flatten_append, List.flatten_cons, List.cons_append]
      exact List.perm_middle
    exact (ih.cons x).trans hmove.symm

/-- One worker after the other is one of the orders. -/
theorem Interleaving.flatten (ls : List (List α)) : Interleaving ls ls.flatten := by
  have hrest : ∀ before : List (List α), (∀ l ∈ before, l = []) →
      Interleaving (before ++ ls) ls.flatten := by
    induction ls with
    | nil => exact fun before h => .done (by simpa using h)
    | cons l ls ih =>
      intro before h
      induction l with
      | nil =>
        have hnext := ih (before ++ [[]]) fun k hk => by
          rcases List.mem_append.mp hk with hk | hk
          · exact h k hk
          · exact List.mem_singleton.mp hk
        rwa [List.append_assoc] at hnext
      | cons x l ihl => exact .turn x ihl
  exact hrest [] (fun l hl => absurd hl List.not_mem_nil)

end Interleaving

end OsSuite
