import Mathlib

/-! Computations with loops that may not come to an end. They get a bound on the rounds of each loop. -/

namespace OsSuite

universe u v

variable {ε : Type u} {α γ : Type v} {f : Nat → Except ε α} {g : Nat → α → Except ε γ} {a : α} {c : γ}

/-- From some bound on, the computation ends with `a`. -/
def Ends (f : Nat → Except ε α) (a : α) : Prop := ∀ᶠ n in Filter.atTop, f n = .ok a

theorem ends_of_le {n : Nat} (h : ∀ m, n ≤ m → f m = .ok a) : Ends f a :=
  Filter.eventually_atTop.mpr ⟨n, h⟩

theorem ends_ok (a : α) : Ends (fun _ => (.ok a : Except ε α)) a := ends_of_le (n := 0) fun _ _ => rfl

theorem Ends.bind (h : Ends f a) (h' : Ends (g · a) c) : Ends (fun n => f n >>= g n) c := by
  filter_upwards [h, h'] with n hn hn'
  rw [hn]
  exact hn'

theorem Ends.unique {a' : α} (h : Ends f a) (h' : Ends f a') : a = a' := by
  obtain ⟨n, hn, hn'⟩ := (h.and h').exists
  rw [hn] at hn'
  exact Except.ok.inj hn'

/-- A loop over a list ends if each of its rounds does. -/
theorem ends_foldlM {ι σ : Type v} {body : Nat → σ → ι → Except ε σ} {inv : List ι → σ → Prop}
    (hround : ∀ x q s, inv (x :: q) s → ∃ s', Ends (body · s x) s' ∧ inv q s') (q : List ι) {s : σ}
    (h : inv q s) : ∃ s', Ends (fun n => q.foldlM (body n) s) s' ∧ inv [] s' := by
  induction q generalizing s with
  | nil => exact ⟨s, ends_ok s, h⟩
  | cons x q ih =>
    obtain ⟨s₁, hends, h₁⟩ := hround x q s h
    obtain ⟨s', hends', h'⟩ := ih h₁
    refine ⟨s', ?_, h'⟩
    simp only [List.foldlM_cons]
    exact hends.bind hends'

end OsSuite
