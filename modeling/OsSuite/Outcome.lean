import Mathlib

/-! Postconditions of computations that may stop early. `Sat r post stop`
constrains both the value of a run that returns and the reason of one that stops. -/

namespace OsSuite

universe u v

variable {ε : Type u} {α γ : Type v}

def Sat (r : Except ε α) (post : α → Prop) (stop : ε → Prop) : Prop :=
  match r with
  | .ok a => post a
  | .error e => stop e

@[simp] theorem sat_ok (a : α) (post : α → Prop) (stop : ε → Prop) :
    Sat (.ok a) post stop ↔ post a := Iff.rfl

@[simp] theorem sat_error (e : ε) (post : α → Prop) (stop : ε → Prop) :
    Sat (.error e : Except ε α) post stop ↔ stop e := Iff.rfl

@[simp] theorem sat_pure (a : α) (post : α → Prop) (stop : ε → Prop) :
    Sat (pure a : Except ε α) post stop ↔ post a := Iff.rfl

@[simp] theorem sat_bind (r : Except ε α) (f : α → Except ε γ) (post : γ → Prop) (stop : ε → Prop) :
    Sat (r >>= f) post stop ↔ Sat r (fun a => Sat (f a) post stop) stop := by
  cases r <;> exact Iff.rfl

theorem Sat.imp {r : Except ε α} {post post' : α → Prop} {stop stop' : ε → Prop}
    (h : Sat r post stop) (hpost : ∀ a, post a → post' a) (hstop : ∀ e, stop e → stop' e) :
    Sat r post' stop' := by
  cases r with
  | ok a => exact hpost a h
  | error e => exact hstop e h

theorem Sat.and {r : Except ε α} {post post' : α → Prop} {stop stop' : ε → Prop}
    (h : Sat r post stop) (h' : Sat r post' stop') :
    Sat r (fun a => post a ∧ post' a) (fun e => stop e ∧ stop' e) := by
  cases r with
  | ok a => exact ⟨h, h'⟩
  | error e => exact ⟨h, h'⟩

@[simp] theorem sat_map (r : Except ε α) (f : α → γ) (post : γ → Prop) (stop : ε → Prop) :
    Sat (f <$> r) post stop ↔ Sat r (fun a => post (f a)) stop := by
  cases r <;> exact Iff.rfl

theorem bind_eq_ok {r : Except ε α} {f : α → Except ε γ} {c : γ} (h : r >>= f = .ok c) :
    ∃ a, r = .ok a ∧ f a = .ok c := by
  cases r with
  | ok a => exact ⟨a, rfl, h⟩
  | error e => cases h

theorem map_eq_ok {r : Except ε α} {f : α → γ} {c : γ} (h : f <$> r = .ok c) :
    ∃ a, r = .ok a ∧ f a = c := by
  cases r with
  | ok a => exact ⟨a, rfl, Except.ok.inj h⟩
  | error e => cases h

/-- A computed test of the value of a run that returns. -/
theorem ok_of_any {r : Except ε α} {p : α → Bool} (h : r.toOption.any p = true) :
    ∃ a, r = .ok a ∧ p a = true := by
  cases r with
  | ok a => exact ⟨a, rfl, h⟩
  | error e => cases h

theorem ok_of_toOption {r : Except ε α} {a : α} (h : r.toOption = some a) : r = .ok a := by
  cases r with
  | ok b =>
    simp only [Except.toOption, Option.some.injEq] at h
    rw [h]
  | error e => simp [Except.toOption] at h

theorem eq_ok_getD {r : Except ε α} {a : α} (h : r.toOption.isSome = true) :
    r = .ok (r.toOption.getD a) := by
  obtain ⟨b, hb⟩ := Option.isSome_iff_exists.mp h
  rw [ok_of_toOption hb]
  rfl

theorem Sat.of_ok {r : Except ε α} {post : α → Prop} {stop : ε → Prop} {a : α}
    (h : Sat r post stop) (hr : r = .ok a) : post a := by
  subst hr
  exact h

theorem Sat.of_error {r : Except ε α} {post : α → Prop} {stop : ε → Prop} {e : ε}
    (h : Sat r post stop) (hr : r = .error e) : stop e := by
  subst hr
  exact h

/-- A loop over the numbers below `n`, with an invariant that counts its rounds. -/
theorem sat_range {σ : Type v} {body : σ → Nat → Except ε σ} {inv : Nat → σ → Prop} {stop : ε → Prop}
    {n : Nat} {s : σ} (hstart : inv 0 s)
    (hround : ∀ k < n, ∀ s, inv k s → Sat (body s k) (inv (k + 1)) stop) :
    Sat ((List.range n).foldlM body s) (inv n) stop := by
  induction n with
  | zero => exact hstart
  | succ n ih =>
    rw [List.range_succ, List.foldlM_append, sat_bind]
    refine (ih fun k hk => hround k (Nat.lt_succ_of_lt hk)).imp (fun s hs => ?_) fun _ he => he
    rw [List.foldlM_cons, sat_bind]
    exact hround n (Nat.lt_succ_self n) s hs

theorem sat_foldlM {ι : Type u} {σ : Type v} {body : σ → ι → Except ε σ} {inv : σ → Prop}
    {stop : ε → Prop} {q : List ι} {s : σ} (hstart : inv s)
    (hround : ∀ x ∈ q, ∀ s, inv s → Sat (body s x) inv stop) : Sat (q.foldlM body s) inv stop := by
  induction q generalizing s with
  | nil => exact hstart
  | cons x q ih =>
    rw [List.foldlM_cons, sat_bind]
    refine (hround x List.mem_cons_self s hstart).imp (fun s hs => ?_) fun _ he => he
    exact ih hs fun y hy => hround y (List.mem_cons_of_mem x hy)

end OsSuite
