import OsSuite.SimpleShell

/-! Whether the records of the processes stay next to the commands in the history. The three
arrays are written at counters of their own, which a command advances only as it launches. -/

namespace OsSuite.SimpleShell

variable {s t : Shell} {done lines pre before after : List (Str × Launch)} {x y : Str × Launch}
  {input : Str} {l : Launch} {c : Command}

/-- What the arrays should hold for one command. -/
structure Record where
  pid : Int
  start : Int
  time : Int
  deriving DecidableEq

def Record.empty : Record := ⟨0, 0, 0⟩

namespace Command

def keepsPid : Command → Bool
  | launch | pipe => true
  | pipe2 | tooManyPipes => false

def keepsTimes : Command → Bool
  | launch | pipe | pipe2 => true
  | tooManyPipes => false

theorem keepsTimes_of_keepsPid (h : c.keepsPid) : c.keepsTimes := by
  cases c with
  | launch => rfl
  | pipe => rfl
  | pipe2 => cases h
  | tooManyPipes => cases h

def record (l : Launch) (c : Command) : Record :=
  ⟨if c.keepsPid then l.pid else 0, if c.keepsTimes then l.start else 0,
    if c.keepsTimes then l.finish - l.start else 0⟩

end Command

def record (x : Str × Launch) : Record := (branch x.1).elim .empty (Command.record x.2)

/-- The commands that a session executes to their end. -/
def commands : List (Str × Launch) → List (Str × Launch)
  | [] => []
  | x :: lines =>
    if x.1.length = 0 ∨ x.1 = "history".toList then commands lines
    else if x.1 = "exit".toList then []
    else if branch x.1 = none then []
    else x :: commands lines

/-- The commands that the history should hold. -/
def recent (done : List (Str × Launch)) : List (Str × Launch) := done.drop (done.length - maxHistorySize)

def Shell.entry (s : Shell) (i : Fin maxHistorySize) : Record :=
  ⟨s.process_pid i, s.start_time i, s.execution_time i⟩

/-- The history and the records next to it, after the commands `done`. -/
structure Aligned (s : Shell) (done : List (Str × Launch)) : Prop where
  history : s.history = (recent done).map Prod.fst
  records : ∀ (i : Fin maxHistorySize) (x : Str × Launch), (recent done)[i.val]? = some x →
    s.entry i = record x

/-- How many process ids, and how many times, the commands have written. -/
def pids (done : List (Str × Launch)) : Nat := done.countP fun x => (branch x.1).any Command.keepsPid

def times (done : List (Str × Launch)) : Nat := done.countP fun x => (branch x.1).any Command.keepsTimes

def place (done : List (Str × Launch)) : Nat := min done.length (maxHistorySize - 1)

/-- The counters that the next command is to use point at its place, and none is beyond it. -/
def Fits (done : List (Str × Launch)) (x : Str × Launch) : Prop :=
  ((branch x.1).any Command.keepsPid → pids done = place done) ∧
    ((branch x.1).any Command.keepsTimes → times done = place done) ∧ times done ≤ place done

theorem place_lt (done : List (Str × Launch)) : place done < maxHistorySize := by
  have hlt : maxHistorySize - 1 < maxHistorySize := by decide
  exact (Nat.min_le_right _ _).trans_lt hlt

theorem pids_le (done : List (Str × Launch)) : pids done ≤ times done := by
  refine List.countP_mono_left fun x _ hx => ?_
  cases hb : branch x.1 with
  | none =>
    rw [hb] at hx
    cases hx
  | some c =>
    rw [hb] at hx
    exact Command.keepsTimes_of_keepsPid hx

theorem pids_snoc (hb : branch x.1 = some c) :
    pids (done ++ [x]) = pids done + if c.keepsPid then 1 else 0 := by
  unfold pids
  rw [List.countP_append, List.countP_singleton, hb]
  rfl

theorem times_snoc (hb : branch x.1 = some c) :
    times (done ++ [x]) = times done + if c.keepsTimes then 1 else 0 := by
  unfold times
  rw [List.countP_append, List.countP_singleton, hb]
  rfl

theorem recent_snoc_lt (h : done.length < maxHistorySize) : recent (done ++ [x]) = recent done ++ [x] := by
  unfold recent
  rw [List.length_append, List.length_singleton, show done.length - maxHistorySize = 0 by omega,
    show done.length + 1 - maxHistorySize = 0 by omega]
  rfl

theorem recent_snoc_ge (h : maxHistorySize ≤ done.length) :
    recent (done ++ [x]) = (recent done).tail ++ [x] := by
  have hmax : maxHistorySize = 500 := rfl
  unfold recent
  rw [List.length_append, List.length_singleton, List.tail_drop, List.drop_append_of_le_length (by omega)]
  exact congrArg (fun n => done.drop n ++ [x]) (by omega)

theorem length_recent : (recent done).length = min done.length maxHistorySize := by
  unfold recent
  rw [List.length_drop]
  omega

theorem recent_place : (recent (done ++ [x]))[place done]? = some x := by
  unfold place
  by_cases h : done.length < maxHistorySize
  · have hlen : (recent done).length = min done.length (maxHistorySize - 1) := by
      rw [length_recent]
      omega
    rw [recent_snoc_lt h, ← hlen, List.getElem?_concat_length]
  · have hlen : (recent done).tail.length = min done.length (maxHistorySize - 1) := by
      rw [List.length_tail, length_recent]
      omega
    rw [recent_snoc_ge (by omega), ← hlen, List.getElem?_concat_length]

/-- What the arrays hold at `i` when they are in step with the commands `done`. -/
def recordAt (done : List (Str × Launch)) (i : Nat) : Record := ((recent done)[i]?).elim .empty record

/-- The arrays are in step, the counters are known, and the last entry tells whether the arrays
are full. -/
structure Inv (s : Shell) (done : List (Str × Launch)) : Prop where
  history : s.history = (recent done).map Prod.fst
  entries : ∀ i, s.entry i = recordAt done i
  pid_count : s.pid_count = pids done
  start_count : s.start_count = times done
  exec_time : s.exec_time = times done
  times_le : times done ≤ maxHistorySize
  room : maxHistorySize ≤ done.length → times done < maxHistorySize →
    recordAt done (maxHistorySize - 1) = .empty
  full : maxHistorySize ≤ done.length → times done = maxHistorySize →
    (recordAt done (maxHistorySize - 1)).start ≠ 0

theorem Inv.init : Inv Shell.init [] :=
  ⟨rfl, fun _ => rfl, rfl, rfl, rfl, Nat.zero_le _, fun h => absurd h (by decide), fun h => absurd h (by decide)⟩

theorem Inv.aligned (h : Inv s done) : Aligned s done := by
  refine ⟨h.history, fun i x hx => ?_⟩
  rw [h.entries, recordAt, hx]
  rfl

/-- The shift moves the records along with the commands. -/
theorem Inv.added (h : Inv s done) (x : Str × Launch) :
    (addToHistory s x.1).history = (recent (done ++ [x])).map Prod.fst ∧
      (∀ i : Fin maxHistorySize, i.val ≠ place done →
        (addToHistory s x.1).entry i = recordAt (done ++ [x]) i) ∧
      ∀ i : Fin maxHistorySize, i.val = place done →
        (times done ≤ place done → (addToHistory s x.1).entry i = .empty) ∧
        (place done < times done → ((addToHistory s x.1).entry i).start ≠ 0) := by
  have hlen : s.history.length = min done.length maxHistorySize := by
    rw [h.history, List.length_map, length_recent]
  unfold addToHistory
  by_cases hlt : done.length < maxHistorySize
  · have hplace : place done = done.length := by
      unfold place
      omega
    have htimes : times done ≤ done.length := List.countP_le_length
    rw [if_pos (by omega), hplace]
    refine ⟨?_, fun i hi => ?_, fun i hi => ⟨fun _ => ?_, fun hgt => by omega⟩⟩
    · rw [recent_snoc_lt hlt, List.map_append, h.history]
      rfl
    · change s.entry i = _
      rw [h.entries, recordAt, recordAt, recent_snoc_lt hlt]
      have hlength : (recent done).length = min done.length maxHistorySize := length_recent
      by_cases hi' : i.val < done.length
      · rw [List.getElem?_append_left (by omega)]
      · rw [List.getElem?_eq_none (by omega), List.getElem?_eq_none]
        rw [List.length_append, List.length_singleton]
        omega
    · change s.entry i = _
      have hlength : (recent done).length = min done.length maxHistorySize := length_recent
      rw [h.entries, recordAt, List.getElem?_eq_none (by omega)]
      rfl
  · have hge : maxHistorySize ≤ done.length := by omega
    have hplace : place done = maxHistorySize - 1 := by
      unfold place
      omega
    have hlast : ∀ i : Fin maxHistorySize, i.val = maxHistorySize - 1 →
        (Shell.mk (s.history.tail ++ [x.1]) (shift s.process_pid) s.pid_count (shift s.start_time)
          s.start_count (shift s.execution_time) s.exec_time).entry i = recordAt done (maxHistorySize - 1) := by
      intro i hi
      have hend : ¬i.val + 1 < maxHistorySize := by omega
      rw [← hi, ← h.entries i]
      unfold Shell.entry shift
      dsimp only
      rw [dif_neg hend, dif_neg hend, dif_neg hend]
    rw [if_neg (by omega), hplace]
    refine ⟨?_, fun i hi => ?_, fun i hi => ⟨fun hle => ?_, fun hgt => ?_⟩⟩
    · rw [recent_snoc_ge hge, List.map_append, List.map_tail, h.history]
      rfl
    · have hnext : i.val + 1 < maxHistorySize := by
        have := i.isLt
        omega
      have hentry := h.entries ⟨i.val + 1, hnext⟩
      unfold Shell.entry shift at *
      dsimp only
      rw [dif_pos hnext, dif_pos hnext, dif_pos hnext, hentry, recordAt, recordAt, recent_snoc_ge hge,
        List.getElem?_append_left, List.getElem?_tail]
      rw [List.length_tail, length_recent]
      omega
    · rw [hlast i hi]
      exact h.room hge (by omega)
    · rw [hlast i hi]
      have hle := h.times_le
      exact h.full hge (by omega)

theorem update_index (a : Fin maxHistorySize → Int) (j : Fin maxHistorySize) (v : Int)
    (i : Fin maxHistorySize) : Function.update a j v i = if i.val = j.val then v else a i := by
  by_cases hij : i = j
  · rw [hij, Function.update_self, if_pos rfl]
  · rw [Function.update_of_ne hij, if_neg fun he => hij (Fin.ext he)]

theorem storePid_some (hp : s.pid_count < maxHistorySize) :
    ∃ t, storePid s l = some t ∧ t.history = s.history ∧ t.pid_count = s.pid_count + 1 ∧
      t.start_count = s.start_count ∧ t.exec_time = s.exec_time ∧
      ∀ i, t.entry i =
        ⟨if i.val = s.pid_count then l.pid else (s.entry i).pid, (s.entry i).start, (s.entry i).time⟩ := by
  have hstore : storePid s l = some { s with
      process_pid := Function.update s.process_pid ⟨s.pid_count, hp⟩ l.pid
      pid_count := s.pid_count + 1 } := by
    rw [storePid, store, dif_pos hp]
    rfl
  exact ⟨_, hstore, rfl, rfl, rfl, rfl, fun i => by simp only [Shell.entry, update_index]⟩

theorem storeTimes_some (ht : s.start_count < maxHistorySize) (heq : s.exec_time = s.start_count) :
    ∃ t, storeTimes s l = some t ∧ t.history = s.history ∧ t.pid_count = s.pid_count ∧
      t.start_count = s.start_count + 1 ∧ t.exec_time = s.start_count + 1 ∧
      ∀ i, t.entry i = ⟨(s.entry i).pid, if i.val = s.start_count then l.start else (s.entry i).start,
        if i.val = s.start_count then l.finish - l.start else (s.entry i).time⟩ := by
  have he : s.exec_time < maxHistorySize := heq ▸ ht
  have hstore : storeTimes s l = some { s with
      execution_time := Function.update s.execution_time ⟨s.exec_time, he⟩ (l.finish - l.start)
      exec_time := s.exec_time + 1
      start_time := Function.update s.start_time ⟨s.start_count, ht⟩ l.start
      start_count := s.start_count + 1 } := by
    rw [storeTimes, store, dif_pos he, store, dif_pos ht]
    rfl
  refine ⟨_, hstore, rfl, rfl, rfl, congrArg (· + 1) heq, fun i => ?_⟩
  simp only [Shell.entry, update_index, heq]

/-- A launch within the arrays writes at the counters and nowhere else. -/
theorem Command.run_some (hpid : c.keepsPid → s.pid_count < maxHistorySize)
    (htimes : c.keepsTimes → s.start_count < maxHistorySize) (heq : s.exec_time = s.start_count) :
    ∃ t, c.run s l = some t ∧ t.history = s.history ∧
      t.pid_count = s.pid_count + (if c.keepsPid then 1 else 0) ∧
      t.start_count = s.start_count + (if c.keepsTimes then 1 else 0) ∧
      t.exec_time = s.start_count + (if c.keepsTimes then 1 else 0) ∧
      ∀ i, t.entry i =
        ⟨if c.keepsPid ∧ i.val = s.pid_count then l.pid else (s.entry i).pid,
          if c.keepsTimes ∧ i.val = s.start_count then l.start else (s.entry i).start,
          if c.keepsTimes ∧ i.val = s.start_count then l.finish - l.start else (s.entry i).time⟩ := by
  have hboth : (hp : s.pid_count < maxHistorySize) → (ht : s.start_count < maxHistorySize) →
      ∃ t, ((storePid s l).bind fun u => storeTimes u l) = some t ∧ t.history = s.history ∧
        t.pid_count = s.pid_count + 1 ∧ t.start_count = s.start_count + 1 ∧
        t.exec_time = s.start_count + 1 ∧
        ∀ i, t.entry i = ⟨if i.val = s.pid_count then l.pid else (s.entry i).pid,
          if i.val = s.start_count then l.start else (s.entry i).start,
          if i.val = s.start_count then l.finish - l.start else (s.entry i).time⟩ := by
    intro hp ht
    obtain ⟨u, hu, hhistory, hpids, hstart, hexec, hentry⟩ := storePid_some (l := l) hp
    obtain ⟨t, hu', hhistory', hpids', hstart', hexec', hentry'⟩ :=
      storeTimes_some (s := u) (l := l) (hstart ▸ ht) (hexec.trans (heq.trans hstart.symm))
    rw [hu]
    refine ⟨t, hu', hhistory'.trans hhistory, hpids'.trans hpids, by rw [hstart', hstart],
      by rw [hexec', hstart], fun i => ?_⟩
    rw [hentry', hentry, hstart]
  cases c with
  | tooManyPipes => exact ⟨s, rfl, rfl, rfl, rfl, heq, fun i => by simp [keepsPid, keepsTimes, Shell.entry]⟩
  | pipe2 =>
    obtain ⟨t, ht, hhistory, hpids, hstart, hexec, hentry⟩ := storeTimes_some (l := l) (htimes rfl) heq
    refine ⟨t, ht, hhistory, hpids, hstart, hexec, fun i => ?_⟩
    rw [hentry]
    simp [keepsPid, keepsTimes]
  | launch =>
    obtain ⟨t, ht, hhistory, hpids, hstart, hexec, hentry⟩ := hboth (hpid rfl) (htimes rfl)
    refine ⟨t, ht, hhistory, hpids, hstart, hexec, fun i => ?_⟩
    rw [hentry]
    simp [keepsPid, keepsTimes]
  | pipe =>
    obtain ⟨t, ht, hhistory, hpids, hstart, hexec, hentry⟩ := hboth (hpid rfl) (htimes rfl)
    refine ⟨t, ht, hhistory, hpids, hstart, hexec, fun i => ?_⟩
    rw [hentry]
    simp [keepsPid, keepsTimes]

/-- Otherwise it writes beyond their end. -/
theorem Command.run_none (htimes : c.keepsTimes) (h : maxHistorySize ≤ s.exec_time) : c.run s l = none := by
  have hstore : ∀ u : Shell, u.exec_time = s.exec_time → storeTimes u l = none := by
    intro u hu
    rw [storeTimes, store, dif_neg (by omega)]
    rfl
  have hboth : ((storePid s l).bind fun u => storeTimes u l) = none := by
    unfold storePid store
    by_cases hp : s.pid_count < maxHistorySize
    · rw [dif_pos hp]
      exact hstore _ rfl
    · rw [dif_neg hp]
      rfl
  cases c with
  | launch => exact hboth
  | pipe => exact hboth
  | pipe2 => exact hstore s rfl
  | tooManyPipes => cases htimes

/-- A line that asks for a command that can be parsed. -/
structure Executes (x : Str × Launch) (c : Command) : Prop where
  nonempty : ¬x.1.length = 0
  ne_exit : x.1 ≠ "exit".toList
  ne_history : x.1 ≠ "history".toList
  branch : branch x.1 = some c

theorem Executes.round_eq (h : Executes x c) :
    round s x.1 x.2 = match c.run (addToHistory s x.1) x.2 with
      | none => .outOfBounds
      | some t => .continue t := by
  unfold round
  rw [if_neg h.nonempty, if_neg h.ne_exit, if_neg h.ne_history]
  have hbranch := h.branch
  generalize SimpleShell.branch x.1 = b at hbranch ⊢
  subst hbranch
  rfl

theorem Executes.record_eq (h : Executes x c) : record x = c.record x.2 := by
  unfold record
  rw [h.branch]
  rfl

theorem Executes.fits_iff (h : Executes x c) : Fits done x ↔ (c.keepsPid → pids done = place done) ∧
    (c.keepsTimes → times done = place done) ∧ times done ≤ place done := by
  unfold Fits
  rw [h.branch]
  rfl

theorem addToHistory_counts (s : Shell) (input : Str) :
    (addToHistory s input).pid_count = s.pid_count ∧
      (addToHistory s input).start_count = s.start_count ∧
      (addToHistory s input).exec_time = s.exec_time := by
  unfold addToHistory
  split <;> exact ⟨rfl, rfl, rfl⟩

/-- A command whose counters point at its place leaves the arrays in step. -/
theorem Inv.fits (h : Inv s done) (hx : Executes x c) (hfits : Fits done x) :
    ∃ t, round s x.1 x.2 = .continue t ∧ Inv t (done ++ [x]) := by
  obtain ⟨hpids, htimes, hle⟩ := hx.fits_iff.mp hfits
  obtain ⟨hhistory, hother, hplace⟩ := h.added x
  obtain ⟨hpc, hsc, hec⟩ := addToHistory_counts s x.1
  have hlt := place_lt done
  obtain ⟨t, ht, hth, htp, hts, hte, hentry⟩ := Command.run_some (s := addToHistory s x.1) (c := c) (l := x.2)
    (fun hk => by rw [hpc, h.pid_count, hpids hk]; exact hlt)
    (fun hk => by rw [hsc, h.start_count, htimes hk]; exact hlt)
    (by rw [hec, hsc, h.exec_time, h.start_count])
  rw [hpc, h.pid_count, hsc, h.start_count] at hentry
  rw [hpc, h.pid_count] at htp
  rw [hsc, h.start_count] at hts hte
  have hsnoc : times (done ++ [x]) = times done + if c.keepsTimes then 1 else 0 := times_snoc hx.branch
  have hentries : ∀ i, t.entry i = recordAt (done ++ [x]) i := by
    intro i
    rw [hentry]
    by_cases hi : i.val = place done
    · have hnew : recordAt (done ++ [x]) i = c.record x.2 := by
        rw [recordAt, hi, recent_place]
        exact hx.record_eq
      rw [(hplace i hi).1 hle, hnew, Command.record, hi]
      refine (Record.mk.injEq ..).mpr ⟨?_, ?_, ?_⟩
      · by_cases hk : c.keepsPid
        · rw [if_pos ⟨hk, (hpids hk).symm⟩, if_pos hk]
        · rw [if_neg fun hc => hk hc.1, if_neg hk]
          rfl
      · by_cases hk : c.keepsTimes
        · rw [if_pos ⟨hk, (htimes hk).symm⟩, if_pos hk]
        · rw [if_neg fun hc => hk hc.1, if_neg hk]
          rfl
      · by_cases hk : c.keepsTimes
        · rw [if_pos ⟨hk, (htimes hk).symm⟩, if_pos hk]
        · rw [if_neg fun hc => hk hc.1, if_neg hk]
          rfl
    · have hnp : ¬(c.keepsPid ∧ i.val = pids done) := fun hc => hi (hc.2.trans (hpids hc.1))
      have hnt : ¬(c.keepsTimes ∧ i.val = times done) := fun hc => hi (hc.2.trans (htimes hc.1))
      rw [if_neg hnp, if_neg hnt, if_neg hnt]
      exact hother i hi
  have hmax : maxHistorySize = 500 := rfl
  have hnewest : maxHistorySize ≤ (done ++ [x]).length →
      recordAt (done ++ [x]) (maxHistorySize - 1) = c.record x.2 := by
    intro hge
    have hpl : place done = maxHistorySize - 1 := by
      rw [List.length_append, List.length_singleton] at hge
      unfold place
      omega
    rw [recordAt, ← hpl, recent_place]
    exact hx.record_eq
  refine ⟨t, ?_, hth.trans hhistory, hentries, ?_, ?_, ?_, ?_, fun hge hroom => ?_, fun hge hfull => ?_⟩
  · rw [hx.round_eq, ht]
  · rw [htp, pids_snoc hx.branch]
  · rw [hts, hsnoc]
  · rw [hte, hsnoc]
  · rw [hsnoc]
    split <;> omega
  · -- A command that writes its times when the arrays have room for one more fills them.
    have hk : ¬c.keepsTimes := by
      intro hk
      rw [hsnoc, htimes hk, if_pos hk] at hroom
      rw [List.length_append, List.length_singleton] at hge
      unfold place at hroom
      omega
    have hp : ¬c.keepsPid := fun hp => hk (Command.keepsTimes_of_keepsPid hp)
    rw [hnewest hge, Command.record, if_neg hk, if_neg hk, if_neg hp]
    rfl
  · have hk : c.keepsTimes := by
      by_contra hk
      rw [hsnoc, if_neg hk] at hfull
      omega
    rw [hnewest hge, Command.record]
    dsimp only
    rw [if_pos hk]
    exact x.2.start_pos.ne'

/-- Any other command leaves them out of step, or writes beyond their end. -/
theorem Inv.not_fits (h : Inv s done) (hx : Executes x c) (hfits : ¬Fits done x) :
    round s x.1 x.2 = .outOfBounds ∨
      ∃ t, round s x.1 x.2 = .continue t ∧ ¬Aligned t (done ++ [x]) := by
  obtain ⟨hhistory, hother, hplace⟩ := h.added x
  obtain ⟨hpc, hsc, hec⟩ := addToHistory_counts s x.1
  have hlt := place_lt done
  have hle := h.times_le
  have hpids := pids_le done
  have hexec : (addToHistory s x.1).exec_time = (addToHistory s x.1).start_count := by
    rw [hec, hsc, h.exec_time, h.start_count]
  -- An aligned state holds the record of the command at its place.
  have hrecord : ∀ t, Aligned t (done ++ [x]) → t.entry ⟨place done, hlt⟩ = c.record x.2 := by
    exact fun t ht => (ht.records ⟨place done, hlt⟩ x recent_place).trans hx.record_eq
  by_cases hfull : times done ≤ place done
  · refine Or.inr ?_
    obtain ⟨t, ht, -, -, -, -, hentry⟩ := Command.run_some (s := addToHistory s x.1) (c := c) (l := x.2)
      (fun _ => by rw [hpc, h.pid_count]; omega) (fun _ => by rw [hsc, h.start_count]; omega) hexec
    rw [hpc, h.pid_count, hsc, h.start_count] at hentry
    refine ⟨t, by rw [hx.round_eq, ht], fun haligned => hfits (hx.fits_iff.mpr ⟨fun hk => ?_, fun hk => ?_, hfull⟩)⟩
    · by_contra hne
      have hpid := congrArg Record.pid (hrecord t haligned)
      rw [hentry, (hplace _ rfl).1 hfull, Command.record] at hpid
      dsimp only at hpid
      rw [if_neg fun hc => hne hc.2.symm, if_pos hk] at hpid
      exact x.2.pid_pos.ne hpid
    · by_contra hne
      have hstart := congrArg Record.start (hrecord t haligned)
      rw [hentry, (hplace _ rfl).1 hfull, Command.record] at hstart
      dsimp only at hstart
      rw [if_neg fun hc => hne hc.2.symm, if_pos hk] at hstart
      exact x.2.start_pos.ne hstart
  · have hmax : times done = maxHistorySize := by
      have htimes : times done ≤ done.length := List.countP_le_length
      have hsize : maxHistorySize = 500 := rfl
      unfold place at hfull
      omega
    by_cases hk : c.keepsTimes
    · refine Or.inl ?_
      rw [hx.round_eq, Command.run_none hk (by rw [hec, h.exec_time, hmax])]
    · have hp : ¬c.keepsPid := fun hp => hk (Command.keepsTimes_of_keepsPid hp)
      refine Or.inr ?_
      obtain ⟨t, ht, -, -, -, -, hentry⟩ := Command.run_some (s := addToHistory s x.1) (c := c) (l := x.2)
        (fun hc => absurd hc hp) (fun hc => absurd hc hk) hexec
      refine ⟨t, by rw [hx.round_eq, ht], fun haligned => ?_⟩
      have hstart := congrArg Record.start (hrecord t haligned)
      rw [hentry, Command.record] at hstart
      dsimp only at hstart
      rw [if_neg fun hc => hk hc.1, if_neg hk] at hstart
      exact (hplace _ rfl).2 (by omega) hstart

/-- After each command the history and the records are right, and no write is beyond the end of
an array. -/
def Holds (lines : List (Str × Launch)) : Prop :=
  ∀ pre, pre <+: lines → main .init pre ≠ .outOfBounds ∧
    ∀ s, main .init pre = .continue s → Aligned s (commands pre)

theorem forall_prefix_cons {P : List (Str × Launch) → Prop} :
    (∀ pre, pre <+: x :: lines → P pre) ↔ P [] ∧ ∀ pre, pre <+: lines → P (x :: pre) := by
  constructor
  · exact fun h => ⟨h [] List.nil_prefix, fun pre hpre => h (x :: pre) (List.cons_prefix_cons.mpr ⟨rfl, hpre⟩)⟩
  · rintro ⟨hnil, hcons⟩ pre hpre
    rcases List.prefix_cons_iff.mp hpre with rfl | ⟨pre', rfl, hpre'⟩
    · exact hnil
    · exact hcons pre' hpre'

theorem forall_split_cons {cs : List (Str × Launch)} :
    (∀ before y after, x :: cs = before ++ y :: after → Fits (done ++ before) y) ↔
      Fits done x ∧ ∀ before y after, cs = before ++ y :: after → Fits (done ++ [x] ++ before) y := by
  constructor
  · intro h
    refine ⟨?_, fun before y after he => ?_⟩
    · have hfirst := h [] x cs rfl
      rwa [List.append_nil] at hfirst
    · have hlater := h (x :: before) y after (congrArg (x :: ·) he)
      rwa [List.append_cons] at hlater
  · rintro ⟨hfirst, hlater⟩ before y after he
    cases before with
    | nil =>
      cases he
      rwa [List.append_nil]
    | cons z before =>
      cases he
      rw [List.append_cons]
      exact hlater before y after rfl

theorem line_cases (x : Str × Launch) :
    (x.1.length = 0 ∨ x.1 = "history".toList) ∧ (∀ s, round s x.1 x.2 = .continue s) ∨
      (∀ lines, commands (x :: lines) = []) ∧ (∀ s, round s x.1 x.2 = .exit ∨ round s x.1 x.2 = .crash) ∨
      ∃ c, Executes x c := by
  by_cases hempty : x.1.length = 0
  · exact Or.inl ⟨Or.inl hempty, fun s => if_pos hempty⟩
  · by_cases hhistory : x.1 = "history".toList
    · have hexit : x.1 ≠ "exit".toList := by
        rw [hhistory]
        decide
      refine Or.inl ⟨Or.inr hhistory, fun s => ?_⟩
      rw [round, if_neg hempty, if_neg hexit, if_pos hhistory]
    · have hskip : ¬(x.1.length = 0 ∨ x.1 = "history".toList) := not_or.mpr ⟨hempty, hhistory⟩
      by_cases hexit : x.1 = "exit".toList
      · refine Or.inr (Or.inl ⟨fun lines => ?_, fun s => Or.inl ?_⟩)
        · rw [commands, if_neg hskip, if_pos hexit]
        · rw [round, if_neg hempty, if_pos hexit]
      · cases hb : branch x.1 with
        | none =>
          refine Or.inr (Or.inl ⟨fun lines => ?_, fun s => Or.inr ?_⟩)
          · rw [commands, if_neg hskip, if_neg hexit, if_pos hb]
          · rw [round, if_neg hempty, if_neg hexit, if_neg hhistory]
            dsimp only
            rw [hb]
        | some c => exact Or.inr (Or.inr ⟨c, hempty, hexit, hhistory, hb⟩)

theorem Executes.commands_cons (h : Executes x c) (lines : List (Str × Launch)) :
    commands (x :: lines) = x :: commands lines := by
  rw [commands, if_neg (not_or.mpr ⟨h.nonempty, h.ne_history⟩), if_neg h.ne_exit, if_neg]
  rw [h.branch]
  nofun

/-- From a state in step, all goes well exactly as long as the commands fit. -/
theorem Inv.holds_iff (h : Inv s done) : (∀ pre, pre <+: lines → main s pre ≠ .outOfBounds ∧
    ∀ t, main s pre = .continue t → Aligned t (done ++ commands pre)) ↔
      ∀ before x after, commands lines = before ++ x :: after → Fits (done ++ before) x := by
  have hstart : main s [] ≠ .outOfBounds ∧
      ∀ t, main s [] = .continue t → Aligned t (done ++ commands []) := by
    refine ⟨by rintro ⟨⟩, fun t ht => ?_⟩
    cases ht
    rw [commands, List.append_nil]
    exact h.aligned
  induction lines generalizing s done with
  | nil =>
    refine iff_of_true (fun pre hpre => ?_) (fun before x after he => ?_)
    · rw [List.prefix_nil.mp hpre]
      exact hstart
    · simp [commands] at he
  | cons x lines ih =>
    rw [forall_prefix_cons]
    rcases line_cases x with ⟨hskip, hround⟩ | ⟨hnone, hround⟩ | ⟨c, hx⟩
    · have hcommands : ∀ pre, commands (x :: pre) = commands pre := fun pre => by rw [commands, if_pos hskip]
      have hmain : ∀ pre, main s (x :: pre) = main s pre := fun pre => by
        rw [main, hround]
      simp only [hcommands, hmain]
      rw [and_iff_right hstart]
      exact ih h hstart
    · have hends : ∀ pre, main s (x :: pre) = .exit ∨ main s (x :: pre) = .crash := by
        intro pre
        rw [main]
        rcases hround s with he | he
        · rw [he]
          exact Or.inl rfl
        · rw [he]
          exact Or.inr rfl
      refine iff_of_true ⟨hstart, fun pre _ => ?_⟩ (fun before y after he => ?_)
      · rcases hends pre with he | he
        · rw [he]
          exact ⟨by rintro ⟨⟩, by rintro t ⟨⟩⟩
        · rw [he]
          exact ⟨by rintro ⟨⟩, by rintro t ⟨⟩⟩
      · rw [hnone] at he
        simp at he
    · rw [hx.commands_cons, forall_split_cons, and_iff_right hstart]
      by_cases hfits : Fits done x
      · obtain ⟨t, ht, hinv⟩ := h.fits hx hfits
        have hnext : main t [] ≠ .outOfBounds ∧
            ∀ u, main t [] = .continue u → Aligned u (done ++ [x] ++ commands []) := by
          refine ⟨by rintro ⟨⟩, fun u hu => ?_⟩
          cases hu
          rw [commands, List.append_nil]
          exact hinv.aligned
        rw [and_iff_right hfits]
        refine Iff.trans (forall₂_congr fun pre _ => ?_) (ih hinv hnext)
        rw [main, ht, hx.commands_cons, List.append_cons]
      · refine iff_of_false (fun hall => ?_) (fun hall => hfits hall.1)
        have hbad := hall [] List.nil_prefix
        rw [main, hx.commands_cons, commands] at hbad
        rcases h.not_fits hx hfits with hout | ⟨t, ht, hmis⟩
        · rw [hout] at hbad
          exact hbad.1 rfl
        · rw [ht] at hbad
          exact hmis (hbad.2 t rfl)

/-- The history stays aligned with its records exactly as long as each command of the session
finds the counters it uses at its place. -/
theorem history_aligned_iff (stdin : List Char) (launches : Nat → Launch) :
    Holds (session stdin launches) ↔ ∀ before x after,
      commands (session stdin launches) = before ++ x :: after → Fits before x := by
  have h := @Inv.holds_iff _ _ (session stdin launches) Inv.init
  simp only [List.nil_append] at h
  exact h

/-- A command with two pipes, whose process id is not kept, and then a simple one. -/
theorem history_misaligned : ∃ stdin launches, ¬Holds (session stdin launches) := by
  refine ⟨"a | b | c\nls\n".toList, fun _ => ⟨7, 1, 2, by decide, by decide⟩, fun holds => ?_⟩
  obtain ⟨-, haligned⟩ := holds _ List.prefix_rfl
  have hrecord := (haligned _ rfl).records 0 ("a | b | c".toList, ⟨7, 1, 2, by decide, by decide⟩) rfl
  revert hrecord
  decide +kernel

end OsSuite.SimpleShell
