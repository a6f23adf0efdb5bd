import OsSuite.Rendezvous

/-! Servers that answer requests over rendezvous. After a first message a server receives from
anyone, handles the request, and sends the reply, if there is one, to the client it came from. -/

namespace OsSuite.Rendezvous

variable {Pid Msg σ : Type}

/-- Where a server is, with its state. -/
inductive Server (Pid Msg σ : Type) where
  | start (s : σ)
  | announcing (s : σ) (p : Pid) (m : Msg)
  | idle (s : σ)
  | listening (s : σ)
  | answering (s : σ) (client : Pid) (reply : Msg)
  | replying (s : σ) (client : Pid) (reply : Msg)

/-- How a server handles a request: its state before and after, and its reply. -/
abbrev Handler (Msg σ : Type) := σ → Msg → σ → Option Msg → Prop

namespace Server

def state : Server Pid Msg σ → σ
  | .start s => s
  | .announcing s _ _ => s
  | .idle s => s
  | .listening s => s
  | .answering s _ _ => s
  | .replying s _ _ => s

/-- The first message has not been received yet. -/
def Early : Server Pid Msg σ → Prop
  | .start _ => True
  | .announcing _ _ _ => True
  | _ => False

/-- The reply that is due. -/
def Owes (p : Pid) (m : Msg) : Server Pid Msg σ → Prop
  | .answering _ p' m' => p' = p ∧ m' = m
  | .replying _ p' m' => p' = p ∧ m' = m
  | _ => False

/-- What a label of a trace does with the server `srv`. -/
inductive Step (handle : Handler Msg σ) (srv : Pid) : Server Pid Msg σ → Label Pid Msg → Server Pid Msg σ → Prop where
  | other (at' : Server Pid Msg σ) (l : Label Pid Msg) (hl : ¬l.Involves srv) : Step handle srv at' l at'
  | announce (s : σ) (p : Pid) (m : Msg) : Step handle srv (.start s) (.call srv (.send p m)) (.announcing s p m)
  | announced (s : σ) (p : Pid) (m : Msg) : Step handle srv (.announcing s p m) (.meet srv p m) (.idle s)
  | listen (s : σ) : Step handle srv (.idle s) (.call srv (.recv none)) (.listening s)
  | request (s s' : σ) (p : Pid) (q m : Msg) (hhandle : handle s q s' (some m)) :
    Step handle srv (.listening s) (.meet p srv q) (.answering s' p m)
  | order (s s' : σ) (p : Pid) (q : Msg) (hhandle : handle s q s' none) :
    Step handle srv (.listening s) (.meet p srv q) (.idle s')
  | answer (s : σ) (p : Pid) (m : Msg) : Step handle srv (.answering s p m) (.call srv (.send p m)) (.replying s p m)
  | answered (s : σ) (p : Pid) (m : Msg) : Step handle srv (.replying s p m) (.meet srv p m) (.idle s)

end Server

/-- What `srv` does in the trace is what a server with this handler does; `f` tells where it is. -/
structure Serves (handle : Handler Msg σ) (srv : Pid) (s₀ : σ) (t : List (Label Pid Msg))
    (f : Nat → Server Pid Msg σ) : Prop where
  start : f 0 = .start s₀
  step : ∀ n l, t[n]? = some l → Server.Step handle srv (f n) l (f (n + 1))

def Label.Meets (p : Pid) : Label Pid Msg → Prop
  | .meet s r _ => p = s ∨ p = r
  | _ => False

/-- A request and its reply, with no meeting of the client between. -/
structure Exchange (t : List (Label Pid Msg)) (srv p : Pid) (q m : Msg) (i j : Nat) : Prop where
  client : p ≠ srv
  request : t[i]? = some (.meet p srv q)
  reply : t[j]? = some (.meet srv p m)
  after : i < j
  quiet : ∀ k l, i < k → k < j → t[k]? = some l → ¬l.Meets p

/-- A client sends a request and receives from the server: it calls at `a` and at `c`, makes no other
call and is not killed until, at `d`, it meets for the first time after that. -/
structure Called (t : List (Label Pid Msg)) (srv p : Pid) (q : Msg) (a c d : Nat) : Prop where
  sent : t[a]? = some (.call p (.send srv q))
  received : t[c]? = some (.call p (.recv (some srv)))
  ended : ∃ l, t[d]? = some l ∧ l.Meets p
  order : a < c ∧ c < d
  only : ∀ k c', a < k → k < d → t[k]? = some (.call p c') → k = c
  alive : ∀ k, a < k → k < d → t[k]? ≠ some (.kill p)
  first : ∀ k l, c < k → k < d → t[k]? = some l → ¬l.Meets p

section

variable {handle : Handler Msg σ} {srv p : Pid} {s₀ : σ} {t : List (Label Pid Msg)} {f : Nat → Server Pid Msg σ}
  {at' at'' : Server Pid Msg σ} {l : Label Pid Msg} {q m : Msg} {i j n : Nat}

theorem Label.not_meets (hl : ¬l.Involves p) : ¬l.Meets p := by
  cases l with
  | call q c => exact id
  | meet s r m => exact hl
  | kill q => exact id

namespace Server

/-- A message that a server gives away is its first one or a reply that is due. -/
theorem Step.gives (h : Step handle srv at' (.meet srv p m) at'') (hp : p ≠ srv) : at'.Early ∨ at'.Owes p m := by
  cases h with
  | other _ _ hl => exact absurd (Or.inl rfl) hl
  | announced s => exact Or.inl trivial
  | request => exact absurd rfl hp
  | order => exact absurd rfl hp
  | answered s => exact Or.inr ⟨rfl, rfl⟩

theorem Step.early (h : Step handle srv at' l at'') (hearly : at''.Early) : at'.Early ∧ ¬l.Meets srv := by
  cases h with
  | other _ _ hl => exact ⟨hearly, Label.not_meets hl⟩
  | announce s p m => exact ⟨trivial, id⟩
  | _ => exact hearly.elim

/-- A reply that is due was due before, or answers the request that has just come. -/
theorem Step.owes (h : Step handle srv at' l at'') (howes : at''.Owes p m) :
    (at'.Owes p m ∧ ¬l.Meets srv) ∨ ∃ q, l = .meet p srv q ∧ at' = .listening at'.state ∧
      at'' = .answering at''.state p m ∧ handle at'.state q at''.state (some m) := by
  cases h with
  | other _ _ hl => exact Or.inl ⟨howes, Label.not_meets hl⟩
  | request s s' p' q m' hhandle =>
    obtain ⟨rfl, rfl⟩ := howes
    exact Or.inr ⟨q, rfl, rfl, rfl, hhandle⟩
  | answer s p' m' => exact Or.inl ⟨howes, id⟩
  | _ => exact howes.elim

end Server

namespace Serves

/-- Before its first message is received a server has met nobody. -/
theorem early (h : Serves handle srv s₀ t f) (hn : n ≤ t.length) (hearly : (f n).Early) :
    ∀ k l, k < n → t[k]? = some l → ¬l.Meets srv := by
  induction n with
  | zero => exact fun k l hk => absurd hk (Nat.not_lt_zero k)
  | succ n ih =>
    intro k l hk hl
    obtain ⟨hearly', hmeets⟩ := (h.step n _ (List.getElem?_eq_getElem hn)).early hearly
    rcases Nat.lt_succ_iff_lt_or_eq.mp hk with hlt | rfl
    · exact ih (by omega) hearly' k l hlt hl
    · rw [List.getElem?_eq_getElem hn] at hl
      exact Option.some.inj hl ▸ hmeets

/-- A reply that is due answers the last request. -/
theorem owes (h : Serves handle srv s₀ t f) (hn : n ≤ t.length) (howes : (f n).Owes p m) :
    ∃ i q, i < n ∧ t[i]? = some (.meet p srv q) ∧ handle (f i).state q (f (i + 1)).state (some m) ∧
      ∀ k l, i < k → k < n → t[k]? = some l → ¬l.Meets srv := by
  induction n with
  | zero =>
    rw [h.start] at howes
    exact howes.elim
  | succ n ih =>
    have hget : t[n]? = some t[n] := List.getElem?_eq_getElem hn
    rcases (h.step n _ hget).owes howes with ⟨howes', hmeets⟩ | ⟨q, hl, -, -, hhandle⟩
    · obtain ⟨i, q, hi, hreq, hhandle, hsince⟩ := ih (by omega) howes'
      refine ⟨i, q, by omega, hreq, hhandle, fun k l hik hk hl => ?_⟩
      rcases Nat.lt_succ_iff_lt_or_eq.mp hk with hlt | rfl
      · exact hsince k l hik hlt hl
      · rw [hget] at hl
        exact Option.some.inj hl ▸ hmeets
    · exact ⟨n, q, Nat.lt_succ_self n, hl ▸ hget, hhandle, fun k l hnk hk => by omega⟩

/-- The reply of an exchange is the answer to its request. -/
theorem answers (h : Serves handle srv s₀ t f) (he : Exchange t srv p q m i j) :
    handle (f i).state q (f (i + 1)).state (some m) := by
  have hj : j < t.length := (List.getElem?_eq_some_iff.mp he.reply).1
  rcases (h.step j _ he.reply).gives he.client with hearly | howes
  · exact absurd (Or.inr rfl) (h.early hj.le hearly i _ he.after he.request)
  · obtain ⟨i', q', hi', hreq, hhandle, hsince⟩ := h.owes hj.le howes
    rcases Nat.lt_trichotomy i i' with hlt | rfl | hlt
    · exact absurd (Or.inl rfl) (he.quiet i' _ hlt hi' hreq)
    · rw [he.request] at hreq
      cases hreq
      exact hhandle
    · exact absurd (Or.inr rfl) (hsince i _ hlt he.after he.request)

/-- What every request keeps is kept from one moment to any later one. -/
theorem mono (h : Serves handle srv s₀ t f) {r : σ → σ → Prop} (hrefl : ∀ s, r s s)
    (htrans : ∀ s s' s'', r s s' → r s' s'' → r s s'') (hhandle : ∀ s q s' o, handle s q s' o → r s s')
    (hij : i ≤ j) (hj : j ≤ t.length) : r (f i).state (f j).state := by
  induction j, hij using Nat.le_induction with
  | base => exact hrefl _
  | succ n hin ih =>
    refine htrans _ _ _ (ih (by omega)) ?_
    have hstep := h.step n _ (List.getElem?_eq_getElem hj)
    generalize t[n] = l at hstep
    generalize f n = x at hstep
    generalize f (n + 1) = y at hstep
    cases hstep with
    | request s s' p q m hh => exact hhandle _ _ _ _ hh
    | order s s' p q hh => exact hhandle _ _ _ _ hh
    | _ => exact hrefl _

end Serves

section Client

variable {a c d : Nat}

/-- Until it meets again the last call of the client is its second one. -/
theorem Called.last_call {e : Nat} {c' : Call Pid Msg} (hc : Called t srv p q a c d) (hce : c < e) (hed : e ≤ d) (hi : i < e)
    (hcall : t[i]? = some (.call p c')) (hquiet : Quiet t p i e) : i = c := by
  rcases Nat.lt_trichotomy i c with hlt | heq | hlt
  · exact absurd rfl (hquiet c _ hlt hce hc.received)
  · exact heq
  · exact hc.only i c' (by have := hc.order.1; omega) (by omega) hcall

variable [DecidableEq Pid]

/-- Whoever meets has called, and has done nothing since. -/
theorem Valid.meets_called (h : Valid t) (hj : t[j]? = some l) (hl : l.Meets p) :
    ∃ i c, i < j ∧ t[i]? = some (.call p c) ∧ Quiet t p i j ∧ waiting (t.take j) p = some c := by
  have henabled := h.enabled hj
  have hwaits : ∃ c, waiting (t.take j) p = some c := by
    cases l with
    | call q c => exact hl.elim
    | kill q => exact hl.elim
    | meet s r m =>
      obtain ⟨hs, sender, hr, -⟩ := henabled
      rcases hl with rfl | rfl
      · exact ⟨_, hs⟩
      · exact ⟨_, hr⟩
  obtain ⟨c, hc⟩ := hwaits
  obtain ⟨i, hi, hcall, hquiet⟩ := exists_call_of_waiting hc
  exact ⟨i, c, hi, hcall, hquiet, hc⟩

/-- Between its two calls the client has met the server. -/
theorem Valid.called_request (h : Valid t) (hc : Called t srv p q a c d) :
    ∃ b, a < b ∧ b < c ∧ t[b]? = some (.meet p srv q) := by
  obtain ⟨hac, hcd⟩ := hc.order
  have hidle : waiting (t.take c) p = none := h.enabled hc.received
  rcases quiet_or_first t p a c with hquiet | ⟨b, l, hab, hbc, hb, hl, hquiet⟩
  · rw [waiting_of_call hc.sent hac hquiet] at hidle
    cases hidle
  · have hwaits := waiting_of_call hc.sent hab hquiet
    have henabled := h.enabled hb
    cases l with
    | call p' c' =>
      cases (show p = p' from hl)
      have := hc.only b c' hab (by omega) hb
      omega
    | kill p' =>
      cases (show p = p' from hl)
      exact absurd hb (hc.alive b hab (by omega))
    | meet s r m =>
      obtain ⟨hs, sender, hr, -⟩ := henabled
      rcases hl with rfl | rfl
      · rw [hwaits] at hs
        cases hs
        exact ⟨b, hab, hbc, hb⟩
      · rw [hwaits] at hr
        cases hr

theorem Valid.called_reply (h : Valid t) (hc : Called t srv p q a c d) : ∃ m, t[d]? = some (.meet srv p m) := by
  obtain ⟨l, hd, hl⟩ := hc.ended
  obtain ⟨i, c', hi, hcall, hquiet, hwaits⟩ := h.meets_called hd hl
  cases hc.last_call hc.order.2 le_rfl hi hcall hquiet
  rw [hc.received] at hcall
  cases hcall
  have henabled := h.enabled hd
  cases l with
  | call p' c' => exact hl.elim
  | kill p' => exact hl.elim
  | meet s r m =>
    obtain ⟨hs, sender, hr, haccepts⟩ := henabled
    rcases hl with rfl | rfl
    · rw [hwaits] at hs
      cases hs
    · rw [hwaits] at hr
      cases hr
      cases haccepts srv rfl
      exact ⟨m, hd⟩

/-- Between its request and its second call the client has met nobody. -/
theorem Valid.called_quiet {k : Nat} (h : Valid t) (hc : Called t srv p q a c d) (hb : t[n]? = some (.meet p srv q))
    (han : a < n) (hnk : n < k) (hkc : k < c) (hk : t[k]? = some l) : ¬l.Meets p := by
  intro hmeets
  have hcd := hc.order.2
  obtain ⟨i, c', hi, hcall, hquiet, -⟩ := h.meets_called hk hmeets
  rcases Nat.lt_trichotomy i n with hin | rfl | hin
  · exact hquiet n _ hin hnk hb (Or.inl rfl)
  · rw [hb] at hcall
    cases hcall
  · have := hc.only i c' (by omega) (by omega) hcall
    omega

theorem Valid.exchange (h : Valid t) (hc : Called t srv p q a c d) :
    ∃ b m, a < b ∧ b < c ∧ Exchange t srv p q m b d := by
  have hcd := hc.order.2
  obtain ⟨b, hab, hbc, hb⟩ := h.called_request hc
  obtain ⟨m, hd⟩ := h.called_reply hc
  have hclient : p ≠ srv := by
    rintro rfl
    obtain ⟨hs, sender, hr, -⟩ := h.enabled hb
    rw [hs] at hr
    cases hr
  refine ⟨b, m, hab, hbc, hclient, hb, hd, by omega, fun k l hbk hkd hk => ?_⟩
  rcases Nat.lt_trichotomy k c with hlt | rfl | hlt
  · exact h.called_quiet hc hb hab hbk hlt hk
  · rw [hc.received] at hk
    cases hk
    exact id
  · exact hc.first k l hlt hkd hk

end Client

end

end OsSuite.Rendezvous
