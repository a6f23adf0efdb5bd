import Mathlib

/-! The words of a text: its maximal runs of elements that are no separators. -/

namespace OsSuite.Tokens

variable {α : Type} [DecidableEq α] {sep : α} {w t : List α}

/-- Two separators in a row, at the front or at the end have an empty run between them. -/
def tokens (sep : α) (t : List α) : List (List α) := (t.splitOnP (· = sep)).filter (· ≠ [])

@[simp] theorem tokens_nil : tokens sep [] = [] := by
  rw [tokens, List.splitOnP_nil]
  rfl

theorem tokens_append_sep (x y : List α) : tokens sep (x ++ sep :: y) = tokens sep x ++ tokens sep y := by
  rw [tokens, List.splitOnP_append_cons x y (decide_eq_true rfl), List.filter_append]
  rfl

@[simp] theorem tokens_sep (t : List α) : tokens sep (sep :: t) = tokens sep t := by
  simpa using @tokens_append_sep α _ sep [] t

@[simp] theorem tokens_append_sep_end (t : List α) : tokens sep (t ++ [sep]) = tokens sep t := by
  simpa using @tokens_append_sep α _ sep t []

theorem tokens_run (hsep : sep ∉ w) (hw : w ≠ []) : tokens sep w = [w] := by
  have hone : w.splitOnP (· = sep) = [w] := by
    apply List.splitOnP_eq_singleton
    intro c hc
    have hne : c ≠ sep := fun he => hsep (he ▸ hc)
    exact decide_eq_false hne
  rw [tokens, hone, List.filter_cons_of_pos (by simpa using hw)]
  rfl

theorem tokens_run_sep (hsep : sep ∉ w) (hw : w ≠ []) (t : List α) :
    tokens sep (w ++ sep :: t) = w :: tokens sep t := by
  rw [tokens_append_sep, tokens_run hsep hw]
  rfl

theorem ne_nil_of_mem_tokens (hw : w ∈ tokens sep t) : w ≠ [] :=
  of_decide_eq_true (List.mem_filter.mp hw).2

/-- A text is a run, or it has a separator between two shorter texts. -/
theorem text_induction (sep : α) {P : List α → Prop} (hrun : ∀ t, sep ∉ t → P t)
    (hsep : ∀ x y, P x → P y → P (x ++ sep :: y)) (t : List α) : P t := by
  induction h : t.length using Nat.strong_induction_on generalizing t with
  | _ n ih =>
    subst h
    by_cases hmem : sep ∈ t
    · obtain ⟨x, y, rfl⟩ := List.append_of_mem hmem
      have hlen : (x ++ sep :: y).length = x.length + (y.length + 1) := List.length_append
      exact hsep x y (ih x.length (by omega) x rfl) (ih y.length (by omega) y rfl)
    · exact hrun t hmem

theorem tokens_eq_nil : tokens sep t = [] ↔ ∀ c ∈ t, c = sep := by
  induction t using text_induction sep with
  | hrun t hsep =>
    cases t with
    | nil => simp
    | cons c t =>
      have hc : c ≠ sep := fun he => hsep (he ▸ List.mem_cons_self)
      rw [tokens_run hsep (List.cons_ne_nil c t)]
      constructor
      · intro he
        cases he
      · intro h
        exact absurd (h c List.mem_cons_self) hc
  | hsep x y hx hy =>
    rw [tokens_append_sep, List.append_eq_nil_iff, hx, hy]
    simp only [List.mem_append, List.mem_cons]
    constructor
    · rintro ⟨hx, hy⟩ c (hc | rfl | hc)
      · exact hx c hc
      · rfl
      · exact hy c hc
    · intro h
      exact ⟨fun c hc => h c (.inl hc), fun c hc => h c (.inr (.inr hc))⟩

theorem mem_of_mem_tokens (hw : w ∈ tokens sep t) {c : α} (hc : c ∈ w) : c ∈ t := by
  induction t using text_induction sep with
  | hrun t hsep =>
    by_cases ht : t = []
    · rw [ht, tokens_nil] at hw
      cases hw
    · rw [tokens_run hsep ht, List.mem_singleton] at hw
      rwa [← hw]
  | hsep x y hx hy =>
    rw [tokens_append_sep] at hw
    rcases List.mem_append.mp hw with hw | hw
    · exact List.mem_append_left _ (hx hw)
    · exact List.mem_append_right _ (List.mem_cons_of_mem sep (hy hw))

/-- The text behind the first word that is `q`, with a separator at its start. A word can start
here when `first` says so. -/
def behind (sep : α) (q : List α) : Bool → List α → Option (List α)
  | _, [] => none
  | first, c :: t =>
    if first ∧ q ++ [sep] <+: c :: t then some ((c :: t).drop q.length) else behind sep q (c = sep) t

section Behind

variable {q : List α}

omit [DecidableEq α] in
theorem prefix_word (hq : sep ∉ q) (hw : sep ∉ w) (t : List α) : q ++ [sep] <+: w ++ sep :: t ↔ q = w := by
  constructor
  · rintro ⟨r, hr⟩
    rw [List.append_assoc] at hr
    induction q generalizing w with
    | nil =>
      cases w with
      | nil => rfl
      | cons c w => exact absurd (List.cons.inj hr).1 fun he => hw (he ▸ List.mem_cons_self)
    | cons c q ih =>
      obtain ⟨hc, hq⟩ := not_or.mp (fun h => hq (List.mem_cons.mpr h))
      cases w with
      | nil => exact absurd (List.cons.inj hr).1.symm hc
      | cons d w =>
        obtain ⟨rfl, htail⟩ := List.cons.inj hr
        rw [ih hq (fun h => hw (List.mem_cons_of_mem c h)) htail]
  · rintro rfl
    exact ⟨t, by rw [List.append_assoc]; rfl⟩

theorem behind_sep (hq : sep ∉ q) (hne : q ≠ []) (first : Bool) (t : List α) :
    behind sep q first (sep :: t) = behind sep q true t := by
  have hno : ¬(first = true ∧ q ++ [sep] <+: sep :: t) := by
    rintro ⟨-, h⟩
    exact hne ((prefix_word hq List.not_mem_nil t).mp h)
  rw [behind, if_neg hno, decide_eq_true rfl]

theorem behind_inside (hq : sep ∉ q) (hne : q ≠ []) (hw : sep ∉ w) (t : List α) :
    behind sep q false (w ++ sep :: t) = behind sep q true t := by
  induction w with
  | nil => exact behind_sep hq hne false t
  | cons c w ih =>
    obtain ⟨hc, hw⟩ := not_or.mp (fun h => hw (List.mem_cons.mpr h))
    rw [List.cons_append, behind, if_neg (fun h => absurd h.1 Bool.false_ne_true),
      decide_eq_false (Ne.symm hc)]
    exact ih hw

theorem behind_word (hq : sep ∉ q) (hne : q ≠ []) (hw : sep ∉ w) (hwne : w ≠ []) (t : List α) :
    behind sep q true (w ++ sep :: t) = if w = q then some (sep :: t) else behind sep q true t := by
  have hstarts := prefix_word hq hw t
  cases w with
  | nil => exact absurd rfl hwne
  | cons c w =>
    obtain ⟨hc, hw⟩ := not_or.mp (fun h => hw (List.mem_cons.mpr h))
    rw [List.cons_append] at hstarts ⊢
    rw [behind, decide_eq_false (Ne.symm hc), behind_inside hq hne hw]
    by_cases he : c :: w = q
    · rw [if_pos he, if_pos ⟨rfl, hstarts.mpr he.symm⟩, ← he]
      congr 1
      exact List.drop_left
    · rw [if_neg he, if_neg fun h => he (hstarts.mp h.2).symm]

theorem behind_seps (hq : sep ∉ q) (hne : q ≠ []) (k : Nat) (t : List α) :
    behind sep q true (List.replicate k sep ++ t) = behind sep q true t := by
  induction k with
  | zero => rfl
  | succ k ih =>
    rw [List.replicate_succ, List.cons_append, behind_sep hq hne]
    exact ih

/-- A word that is longer than the text is not in it. -/
theorem behind_long {t : List α} (hlen : t.length ≤ q.length) (first : Bool) :
    behind sep q first t = none := by
  induction t generalizing first with
  | nil => rfl
  | cons c t ih =>
    have hno : ¬(first = true ∧ q ++ [sep] <+: c :: t) := by
      rintro ⟨-, h⟩
      have hle := h.length_le
      rw [List.length_append, List.length_singleton] at hle
      exact absurd hle (by omega)
    rw [behind, if_neg hno]
    exact ih (Nat.le_of_succ_le hlen) _

end Behind

end OsSuite.Tokens
