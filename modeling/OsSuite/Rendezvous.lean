import Mathlib

/-! Synchronous message passing without buffers. A process that has called waits;
a sender and a receiver that accept each other meet, which ends both calls. A
trace whose labels are enabled one after another delivers exactly once. -/

namespace OsSuite.Rendezvous

variable {Pid Msg : Type} [DecidableEq Pid]

inductive Call (Pid Msg : Type) where
  | send (receiver : Pid) (content : Msg)
  /-- A receive, from one sender or from any. -/
  | recv (sender : Option Pid)

inductive Label (Pid Msg : Type) where
  | call (p : Pid) (c : Call Pid Msg)
  | meet (s r : Pid) (content : Msg)
  | kill (p : Pid)

def Label.Involves (p : Pid) : Label Pid Msg → Prop
  | .call q _ => p = q
  | .meet s r _ => p = s ∨ p = r
  | .kill q => p = q

abbrev Waiting (Pid Msg : Type) := Pid → Option (Call Pid Msg)

def Waiting.next (w : Waiting Pid Msg) : Label Pid Msg → Waiting Pid Msg
  | .call p c => Function.update w p (some c)
  | .meet s r _ => Function.update (Function.update w s none) r none
  | .kill p => Function.update w p none

/-- The call that each process waits in after a trace. -/
def waiting (t : List (Label Pid Msg)) : Waiting Pid Msg := t.foldl Waiting.next fun _ => none

def Accepts (sender : Option Pid) (s : Pid) : Prop := ∀ p, sender = some p → p = s

/-- A process that waits does not call, and a meeting takes both sides' word. -/
def Enabled (w : Waiting Pid Msg) : Label Pid Msg → Prop
  | .call p _ => w p = none
  | .meet s r m => w s = some (.send r m) ∧ ∃ sender, w r = some (.recv sender) ∧ Accepts sender s
  | .kill _ => True

inductive Valid : List (Label Pid Msg) → Prop where
  | nil : Valid []
  | snoc {t : List (Label Pid Msg)} {l : Label Pid Msg} (h : Valid t) (hl : Enabled (waiting t) l) :
    Valid (t ++ [l])

@[simp] theorem waiting_nil : waiting ([] : List (Label Pid Msg)) = fun _ => none := rfl

@[simp] theorem waiting_snoc (t : List (Label Pid Msg)) (l : Label Pid Msg) :
    waiting (t ++ [l]) = (waiting t).next l := by simp [waiting]

theorem next_of_not_involves {l : Label Pid Msg} {p : Pid} (hl : ¬l.Involves p) (w : Waiting Pid Msg) :
    w.next l p = w p := by
  cases l with
  | call q c => exact Function.update_of_ne hl _ _
  | meet s r m =>
    obtain ⟨hs, hr⟩ := not_or.mp hl
    exact (Function.update_of_ne hr _ _).trans (Function.update_of_ne hs _ _)
  | kill q => exact Function.update_of_ne hl _ _

theorem next_of_involves {l : Label Pid Msg} {p : Pid} {c : Call Pid Msg} {w : Waiting Pid Msg}
    (hl : l.Involves p) (h : w.next l p = some c) : l = .call p c := by
  cases l with
  | call q d =>
    have hq : p = q := hl
    subst hq
    simpa [Waiting.next] using h
  | meet s r m =>
    have hnone : w.next (.meet s r m) p = none := by
      rcases hl with rfl | rfl <;> simp [Waiting.next, Function.update_apply]
    rw [hnone] at h
    cases h
  | kill q =>
    have hq : p = q := hl
    subst hq
    simp [Waiting.next] at h

theorem next_call_self (w : Waiting Pid Msg) (p : Pid) (c : Call Pid Msg) :
    w.next (.call p c) p = some c := by simp [Waiting.next]

theorem next_call_of_ne (w : Waiting Pid Msg) {p q : Pid} (c : Call Pid Msg) (hq : q ≠ p) :
    w.next (.call p c) q = w q := by simp [Waiting.next, hq]

theorem next_meet_of_ne (w : Waiting Pid Msg) {s r p : Pid} (m : Msg) (hs : p ≠ s) (hr : p ≠ r) :
    w.next (.meet s r m) p = w p := by simp [Waiting.next, hs, hr]

theorem next_meet_sender (w : Waiting Pid Msg) (s r : Pid) (m : Msg) :
    w.next (.meet s r m) s = none := by simp [Waiting.next, Function.update_apply]

theorem next_meet_receiver (w : Waiting Pid Msg) (s r : Pid) (m : Msg) :
    w.next (.meet s r m) r = none := by simp [Waiting.next]

/-- No label strictly between two places involves the process. -/
def Quiet (t : List (Label Pid Msg)) (p : Pid) (i j : Nat) : Prop :=
  ∀ k l, i < k → k < j → t[k]? = some l → ¬l.Involves p

/-- The call that a process waits in is the last label that involves it. -/
theorem exists_call_of_waiting {t : List (Label Pid Msg)} {p : Pid} {c : Call Pid Msg} {n : Nat}
    (h : waiting (t.take n) p = some c) :
    ∃ i, i < n ∧ t[i]? = some (.call p c) ∧ Quiet t p i n := by
  induction n with
  | zero => simp at h
  | succ n ih =>
    rw [List.take_add_one] at h
    cases hn : t[n]? with
    | none =>
      rw [hn, Option.toList_none, List.append_nil] at h
      obtain ⟨i, hi, hcall, hquiet⟩ := ih h
      refine ⟨i, by omega, hcall, fun k l hik hkn hk => hquiet k l hik ?_ hk⟩
      have hne : k ≠ n := by
        rintro rfl
        simp [hn] at hk
      omega
    | some l =>
      rw [hn, Option.toList_some, waiting_snoc] at h
      by_cases hl : l.Involves p
      · refine ⟨n, by omega, by rw [hn, next_of_involves hl h], fun k l hnk hkn => ?_⟩
        omega
      · rw [next_of_not_involves hl] at h
        obtain ⟨i, hi, hcall, hquiet⟩ := ih h
        refine ⟨i, by omega, hcall, fun k l' hik hkn hk => ?_⟩
        by_cases hkn' : k = n
        · subst hkn'
          rw [hn] at hk
          cases hk
          exact hl
        · exact hquiet k l' hik (by omega) hk

theorem waiting_of_call {t : List (Label Pid Msg)} {p : Pid} {c : Call Pid Msg} {i n : Nat}
    (hcall : t[i]? = some (.call p c)) (hin : i < n) (hquiet : Quiet t p i n) :
    waiting (t.take n) p = some c := by
  induction n with
  | zero => omega
  | succ n ih =>
    rw [List.take_add_one]
    by_cases hi : i = n
    · subst hi
      rw [hcall, Option.toList_some, waiting_snoc]
      exact Function.update_self _ _ _
    · have hrest := ih (by omega) fun k l hik hkn => hquiet k l hik (by omega)
      cases hn : t[n]? with
      | none => simpa [hn] using hrest
      | some l =>
        rw [Option.toList_some, waiting_snoc,
          next_of_not_involves (hquiet n l (by omega) (by omega) hn)]
        exact hrest

omit [DecidableEq Pid] in
/-- A place with two different calls of one process before it has one between them. -/
theorem call_unique {t : List (Label Pid Msg)} {p : Pid} {c d : Call Pid Msg} {i j n : Nat}
    (hi : t[i]? = some (.call p c)) (hj : t[j]? = some (.call p d)) (hin : i < n) (hjn : j < n)
    (hqi : Quiet t p i n) (hqj : Quiet t p j n) : i = j := by
  rcases Nat.lt_trichotomy i j with hlt | he | hlt
  · exact absurd rfl (hqi j _ hlt hjn hj)
  · exact he
  · exact absurd rfl (hqj i _ hlt hin hi)

theorem Valid.enabled {t : List (Label Pid Msg)} (h : Valid t) {j : Nat} {l : Label Pid Msg}
    (hj : t[j]? = some l) : Enabled (waiting (t.take j)) l := by
  induction h with
  | nil => simp at hj
  | @snoc t l' _ hl ih =>
    by_cases hlt : j < t.length
    · rw [List.getElem?_append_left hlt] at hj
      rw [List.take_append_of_le_length (by omega)]
      exact ih hj
    · have hlen : j = t.length := by
        have := (List.getElem?_eq_some_iff.mp hj).1
        simp at this
        omega
      subst hlen
      simp only [List.getElem?_concat_length, Option.some.injEq] at hj
      subst hj
      simpa using hl

/-- Meetings are matched one to one with earlier sends and with earlier receives: the
send named the receiver and carried the content, the receive accepted the sender, and
neither side did anything in between. A call that is not matched was cut off by a
kill, or still waits. -/
structure Matched (t : List (Label Pid Msg)) (sendOf recvOf : Nat → Nat) : Prop where
  send : ∀ j s r m, t[j]? = some (.meet s r m) → sendOf j < j ∧
    t[sendOf j]? = some (.call s (.send r m)) ∧ Quiet t s (sendOf j) j
  recv : ∀ j s r m, t[j]? = some (.meet s r m) → recvOf j < j ∧
    ∃ sender, t[recvOf j]? = some (.call r (.recv sender)) ∧ Accepts sender s ∧ Quiet t r (recvOf j) j
  send_inj : ∀ j j' s r m s' r' m', t[j]? = some (.meet s r m) → t[j']? = some (.meet s' r' m') →
    sendOf j = sendOf j' → j = j'
  recv_inj : ∀ j j' s r m s' r' m', t[j]? = some (.meet s r m) → t[j']? = some (.meet s' r' m') →
    recvOf j = recvOf j' → j = j'
  ended : ∀ i p c, t[i]? = some (.call p c) →
    (∃ j s r m, t[j]? = some (.meet s r m) ∧ (s = p ∧ sendOf j = i ∨ r = p ∧ recvOf j = i)) ∨
    (∃ j, i < j ∧ t[j]? = some (.kill p) ∧ Quiet t p i j) ∨
    (waiting t p = some c ∧ Quiet t p i t.length)

theorem exists_sendOf {t : List (Label Pid Msg)} (h : Valid t) (j : Nat) :
    ∃ i, ∀ s r m, t[j]? = some (.meet s r m) →
      i < j ∧ t[i]? = some (.call s (.send r m)) ∧ Quiet t s i j := by
  by_cases hj : ∃ s r m, t[j]? = some (.meet s r m)
  · obtain ⟨s, r, m, hj⟩ := hj
    obtain ⟨i, hi⟩ := exists_call_of_waiting (h.enabled hj).1
    refine ⟨i, fun s' r' m' hj' => ?_⟩
    rw [hj] at hj'
    cases hj'
    exact hi
  · exact ⟨0, fun s r m hm => absurd ⟨s, r, m, hm⟩ hj⟩

theorem exists_recvOf {t : List (Label Pid Msg)} (h : Valid t) (j : Nat) :
    ∃ i, ∀ s r m, t[j]? = some (.meet s r m) → i < j ∧
      ∃ sender, t[i]? = some (.call r (.recv sender)) ∧ Accepts sender s ∧ Quiet t r i j := by
  by_cases hj : ∃ s r m, t[j]? = some (.meet s r m)
  · obtain ⟨s, r, m, hj⟩ := hj
    obtain ⟨-, sender, hr, haccepts⟩ := h.enabled hj
    obtain ⟨i, hi, hcall, hquiet⟩ := exists_call_of_waiting hr
    refine ⟨i, fun s' r' m' hj' => ?_⟩
    rw [hj] at hj'
    cases hj'
    exact ⟨hi, sender, hcall, haccepts, hquiet⟩
  · exact ⟨0, fun s r m hm => absurd ⟨s, r, m, hm⟩ hj⟩

omit [DecidableEq Pid] in
/-- A process that has called is quiet from then on, or there is a first label
after the call that involves it. -/
theorem quiet_or_first (t : List (Label Pid Msg)) (p : Pid) (i n : Nat) :
    Quiet t p i n ∨ ∃ j l, i < j ∧ j < n ∧ t[j]? = some l ∧ l.Involves p ∧ Quiet t p i j := by
  induction n with
  | zero => exact Or.inl fun k l _ hk => by omega
  | succ n ih =>
    rcases ih with hquiet | ⟨j, l, hij, hjn, hj, hl, hq⟩
    · by_cases hn : ∃ l, i < n ∧ t[n]? = some l ∧ l.Involves p
      · obtain ⟨l, hin, hn, hl⟩ := hn
        exact Or.inr ⟨n, l, hin, by omega, hn, hl, hquiet⟩
      · refine Or.inl fun k l hik hkn hk hl => ?_
        by_cases hkn' : k = n
        · subst hkn'
          exact hn ⟨l, hik, hk, hl⟩
        · exact hquiet k l hik (by omega) hk hl
    · exact Or.inr ⟨j, l, hij, by omega, hj, hl, hq⟩

theorem exactly_once {t : List (Label Pid Msg)} (h : Valid t) :
    ∃ sendOf recvOf, Matched t sendOf recvOf := by
  choose sendOf hsend using exists_sendOf h
  choose recvOf hrecv using exists_recvOf h
  refine ⟨sendOf, recvOf, hsend, hrecv, ?_, ?_, ?_⟩
  · intro j j' s r m s' r' m' hj hj' he
    obtain ⟨hlt, hcall, hquiet⟩ := hsend j s r m hj
    obtain ⟨hlt', hcall', hquiet'⟩ := hsend j' s' r' m' hj'
    rw [← he, hcall] at hcall'
    cases hcall'
    rcases Nat.lt_trichotomy j j' with hlt'' | he' | hlt''
    · exact absurd (Or.inl rfl) (hquiet' j _ (by omega) hlt'' hj)
    · exact he'
    · exact absurd (Or.inl rfl) (hquiet j' _ (by omega) hlt'' hj')
  · intro j j' s r m s' r' m' hj hj' he
    obtain ⟨hlt, sender, hcall, -, hquiet⟩ := hrecv j s r m hj
    obtain ⟨hlt', sender', hcall', -, hquiet'⟩ := hrecv j' s' r' m' hj'
    rw [← he, hcall] at hcall'
    cases hcall'
    rcases Nat.lt_trichotomy j j' with hlt'' | he' | hlt''
    · exact absurd (Or.inr rfl) (hquiet' j _ (by omega) hlt'' hj)
    · exact he'
    · exact absurd (Or.inr rfl) (hquiet j' _ (by omega) hlt'' hj')
  · intro i p c hi
    have hlen : i < t.length := (List.getElem?_eq_some_iff.mp hi).1
    rcases quiet_or_first t p i t.length with hquiet | ⟨j, l, hij, hjn, hj, hl, hquiet⟩
    · refine Or.inr (Or.inr ⟨?_, hquiet⟩)
      have := waiting_of_call hi hlen hquiet
      rwa [List.take_length] at this
    · have hwaits := waiting_of_call hi hij hquiet
      have henabled := h.enabled hj
      cases l with
      | call q d =>
        have hq : p = q := hl
        subst hq
        rw [Enabled, hwaits] at henabled
        cases henabled
      | kill q =>
        have hq : p = q := hl
        subst hq
        exact Or.inr (Or.inl ⟨j, hij, hj, hquiet⟩)
      | meet s r m =>
        refine Or.inl ⟨j, s, r, m, hj, ?_⟩
        rcases hl with rfl | rfl
        · obtain ⟨hlt, hcall, hq⟩ := hsend j p r m hj
          exact Or.inl ⟨rfl, call_unique hcall hi hlt hij hq hquiet⟩
        · obtain ⟨hlt, sender, hcall, -, hq⟩ := hrecv j s p m hj
          exact Or.inr ⟨rfl, call_unique hcall hi hlt hij hq hquiet⟩

end OsSuite.Rendezvous
