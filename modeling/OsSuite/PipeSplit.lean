import OsSuite.SimpleShell
import OsSuite.Tokens

/-! The pipe handling of SimpleShell: the argument vectors that it makes of a line with one or
two bars. The vectors after the first are ended through `counter`, the number of all tokens. -/

namespace OsSuite.SimpleShell

open Tokens

/-- An element of an array of pointers, which holds anything until it is written. -/
inductive Slot where
  | uninit
  | null
  | str (token : Str)
  deriving DecidableEq

abbrev Vector := Nat → Slot

def Vector.fresh : Vector := fun _ => .uninit

abbrev bar : Str := ['|']

/-- The loop that copies the tokens up to the next bar, with the counter of the vector; nothing
where it compares the null pointer behind the tokens. -/
def copyToBar : List Str → Vector → Nat → Option (Vector × Nat × List Str)
  | [], _, _ => none
  | token :: tokens, command, counter =>
    if token = bar then some (command, counter, tokens)
    else copyToBar tokens (Function.update command counter (.str token)) (counter + 1)

/-- The loop that copies the tokens up to the null pointer behind them. -/
def copyRest : List Str → Vector → Nat → Vector
  | [], command, _ => command
  | token :: tokens, command, counter =>
    copyRest tokens (Function.update command counter (.str token)) (counter + 1)

/-- The argument vectors that go to `launch_pipe` or `launch_pip2`. -/
def pipeVectors (input : Str) : Option (List Vector) :=
  let parameters := parseInput input
  let counter := parameters.length + 1
  if input.count '|' = 1 then do
    let (command1, counter1, rest) ← copyToBar parameters .fresh 0
    let command1 := Function.update command1 counter1 .null
    let command2 := copyRest rest .fresh 0
    let command2 := Function.update command2 counter .null
    some [command1, command2]
  else if input.count '|' = 2 then do
    let (command1, counter1, rest) ← copyToBar parameters .fresh 0
    let command1 := Function.update command1 counter1 .null
    let (command2, _, rest) ← copyToBar rest .fresh 0
    let command2 := Function.update command2 counter .null
    let command3 := copyRest rest .fresh 0
    let command3 := Function.update command3 counter .null
    some [command1, command2, command3]
  else some []

/-- The vector holds the tokens, with a null pointer right behind them. -/
def Vector.Holds (command : Vector) (tokens : List Str) : Prop :=
  (∀ (i : Nat) (h : i < tokens.length), command i = .str tokens[i]) ∧ command tokens.length = .null

/-- Each bar is a token of its own. -/
def BarsAlone (input : Str) : Prop := ∀ token ∈ parseInput input, '|' ∈ token → token = bar

/-- The splitting ends, and where each bar is a token the vectors are the tokens between them. -/
def SplitRight (input : Str) : Prop :=
  ∃ vectors, pipeVectors input = some vectors ∧
    (BarsAlone input → List.Forall₂ Vector.Holds vectors ((parseInput input).splitOn bar))

variable {input : Str} {words pre rest : List Str} {command : Vector} {counter : Nat}

/-- A vector into which tokens have been copied from `counter` on. -/
def fill (command : Vector) (counter : Nat) (tokens : List Str) : Vector := fun i =>
  if i < counter then command i else (tokens[i - counter]?).elim (command i) .str

theorem fill_nil (command : Vector) (counter : Nat) : fill command counter [] = command := by
  funext i
  simp [fill]

theorem fill_cons (command : Vector) (counter : Nat) (token : Str) (tokens : List Str) :
    fill (Function.update command counter (.str token)) (counter + 1) tokens =
      fill command counter (token :: tokens) := by
  funext i
  unfold fill
  rcases Nat.lt_trichotomy i counter with h | h | h
  · have hne : i ≠ counter := by omega
    rw [if_pos (by omega), if_pos h, Function.update_of_ne hne]
  · subst h
    simp
  · have hne : i ≠ counter := by omega
    have hsub : i - counter = (i - (counter + 1)) + 1 := by omega
    rw [if_neg (by omega), if_neg (by omega), hsub, List.getElem?_cons_succ, Function.update_of_ne hne]

theorem copyRest_eq (tokens : List Str) (command : Vector) (counter : Nat) :
    copyRest tokens command counter = fill command counter tokens := by
  induction tokens generalizing command counter with
  | nil => exact (fill_nil command counter).symm
  | cons token tokens ih => rw [copyRest, ih, fill_cons]

theorem copyToBar_eq (tokens : List Str) (command : Vector) (counter : Nat) :
    copyToBar tokens command counter = (splitPipe tokens).map fun (pre, rest) =>
      (fill command counter pre, counter + pre.length, rest) := by
  induction tokens generalizing command counter with
  | nil => rfl
  | cons token tokens ih =>
    by_cases ht : token = bar
    · simp [copyToBar, splitPipe, ht, fill_nil]
    · rw [copyToBar, if_neg ht, ih, splitPipe, if_neg ht]
      cases splitPipe tokens with
      | none => rfl
      | some split =>
        obtain ⟨pre, rest⟩ := split
        simp [fill_cons, Nat.add_assoc, Nat.add_comm 1]

theorem splitPipe_eq_some : splitPipe words = some (pre, rest) ↔ words = pre ++ bar :: rest ∧ bar ∉ pre := by
  induction words generalizing pre with
  | nil => simp [splitPipe]
  | cons token tokens ih =>
    by_cases ht : token = bar
    · subst ht
      cases pre with
      | nil => simp [splitPipe, eq_comm]
      | cons t pre =>
        simp only [splitPipe, if_true, Option.some.injEq, Prod.mk.injEq, reduceCtorEq, false_and, false_iff]
        rintro ⟨he, hnot⟩
        cases he
        exact hnot (by simp)
    · cases pre with
      | nil => simp [splitPipe, ht, Option.bind_eq_some_iff]
      | cons t pre =>
        have hbar : bar ≠ token := fun he => ht he.symm
        simp only [splitPipe, if_neg ht, Option.bind_eq_bind, Option.bind_eq_some_iff, Prod.exists,
          Option.some.injEq, Prod.mk.injEq, List.cons.injEq, List.cons_append]
        constructor
        · rintro ⟨pre', rest', he, ⟨rfl, rfl⟩, rfl⟩
          obtain ⟨rfl, hnot⟩ := ih.mp he
          exact ⟨⟨rfl, rfl⟩, by simpa [hbar] using hnot⟩
        · rintro ⟨⟨rfl, he⟩, hnot⟩
          exact ⟨pre, rest, ih.mpr ⟨he, by simpa [hbar] using hnot⟩, ⟨rfl, rfl⟩, rfl⟩

theorem splitPipe_isSome_iff : (splitPipe words).isSome ↔ bar ∈ words := by
  induction words with
  | nil => simp [splitPipe]
  | cons token tokens ih =>
    by_cases ht : token = bar
    · simp [splitPipe, ht]
    · rw [splitPipe, if_neg ht, List.mem_cons, ← ih]
      cases splitPipe tokens <;> simp [Ne.symm ht]

theorem parseInput_eq (input : Str) : parseInput input = tokens ' ' input := by
  unfold parseInput Tokens.tokens
  rw [List.splitOn_eq_splitOnP]
  congr 2

/-- The tokens hold all bars of the line. -/
theorem count_tokens (input : Str) : (parseInput input).flatten.count '|' = input.count '|' := by
  rw [parseInput_eq]
  induction input using text_induction ' ' with
  | hrun t hsep =>
    by_cases ht : t = []
    · simp [ht]
    · simp [tokens_run hsep ht]
  | hsep x y hx hy =>
    rw [tokens_append_sep, List.flatten_append, List.count_append, List.count_append, hx, hy,
      List.count_cons_of_ne (by decide)]

theorem tokens_length (input : Str) : 2 * (parseInput input).length ≤ input.length + 1 := by
  rw [parseInput_eq]
  induction input using text_induction ' ' with
  | hrun t hsep =>
    by_cases ht : t = []
    · simp [ht]
    · have hpos := List.length_pos_iff.mpr ht
      rw [tokens_run hsep ht, List.length_singleton]
      omega
  | hsep x y hx hy =>
    rw [tokens_append_sep, List.length_append, List.length_append, List.length_cons]
    omega

theorem count_eq_zero_iff : words.flatten.count '|' = 0 ↔ ∀ token ∈ words, '|' ∉ token := by
  rw [List.count_eq_zero, List.mem_flatten]
  push Not
  rfl

theorem bar_notMem (h : words.flatten.count '|' = 0) : bar ∉ words :=
  fun hmem => count_eq_zero_iff.mp h bar hmem (by simp)

theorem count_split (pre rest : List Str) : (pre ++ bar :: rest).flatten.count '|' =
    pre.flatten.count '|' + 1 + rest.flatten.count '|' := by
  simp [List.count_append]
  omega

/-- A vector that is ended behind all tokens of the line holds none of its parts. -/
theorem not_holds (hlen : words.length < counter) :
    ¬Vector.Holds (Function.update (fill .fresh 0 words) counter .null) words := by
  rintro ⟨-, hnull⟩
  rw [Function.update_of_ne (by omega)] at hnull
  simp [fill, Vector.fresh] at hnull

/-- One bar: the line ends well exactly when it is a token. -/
theorem pipeVectors_one (hcount : input.count '|' = 1) : pipeVectors input =
    (splitPipe (parseInput input)).map fun (pre, rest) =>
      [Function.update (fill .fresh 0 pre) pre.length .null,
        Function.update (fill .fresh 0 rest) ((parseInput input).length + 1) .null] := by
  simp only [pipeVectors, if_pos hcount, copyToBar_eq, copyRest_eq]
  cases splitPipe (parseInput input) with
  | none => rfl
  | some split => simp

theorem pipeVectors_two (hcount : input.count '|' = 2) : pipeVectors input =
    (splitPipe (parseInput input)).bind fun (pre, rest) => (splitPipe rest).map fun (mid, last) =>
      [Function.update (fill .fresh 0 pre) pre.length .null,
        Function.update (fill .fresh 0 mid) ((parseInput input).length + 1) .null,
        Function.update (fill .fresh 0 last) ((parseInput input).length + 1) .null] := by
  have hone : ¬input.count '|' = 1 := by omega
  simp only [pipeVectors, if_neg hone, if_pos hcount, copyToBar_eq, copyRest_eq]
  cases splitPipe (parseInput input) with
  | none => rfl
  | some split =>
    cases hrest : splitPipe split.2 with
    | none => simp [hrest]
    | some split' => simp [hrest]

theorem split_one (hcount : input.count '|' = 1) (h : splitPipe (parseInput input) = some (pre, rest)) :
    BarsAlone input ∧ (parseInput input).splitOn bar = [pre, rest] ∧
      rest.length < (parseInput input).length + 1 := by
  obtain ⟨he, hpre⟩ := splitPipe_eq_some.mp h
  rw [← count_tokens, he, count_split] at hcount
  have hpre' : pre.flatten.count '|' = 0 := by omega
  have hrest' : rest.flatten.count '|' = 0 := by omega
  refine ⟨fun token htoken hbar => ?_, ?_, ?_⟩
  · rw [he, List.mem_append, List.mem_cons] at htoken
    rcases htoken with htoken | htoken | htoken
    · exact absurd hbar (count_eq_zero_iff.mp hpre' token htoken)
    · exact htoken
    · exact absurd hbar (count_eq_zero_iff.mp hrest' token htoken)
  · rw [he, List.splitOn_append_cons_self_of_not_mem hpre, List.splitOn_eq_singleton (bar_notMem hrest')]
  · rw [he, List.length_append, List.length_cons]
    omega

theorem split_two {mid last : List Str} (hcount : input.count '|' = 2)
    (h : splitPipe (parseInput input) = some (pre, rest)) (hrest : splitPipe rest = some (mid, last)) :
    BarsAlone input ∧ (parseInput input).splitOn bar = [pre, mid, last] ∧
      mid.length < (parseInput input).length + 1 := by
  obtain ⟨he, hpre⟩ := splitPipe_eq_some.mp h
  obtain ⟨rfl, hmid⟩ := splitPipe_eq_some.mp hrest
  rw [← count_tokens, he, count_split, count_split] at hcount
  have hpre' : pre.flatten.count '|' = 0 := by omega
  have hmid' : mid.flatten.count '|' = 0 := by omega
  have hlast' : last.flatten.count '|' = 0 := by omega
  refine ⟨fun token htoken hbar => ?_, ?_, ?_⟩
  · rw [he, List.mem_append, List.mem_cons, List.mem_append, List.mem_cons] at htoken
    rcases htoken with htoken | htoken | htoken | htoken | htoken
    · exact absurd hbar (count_eq_zero_iff.mp hpre' token htoken)
    · exact htoken
    · exact absurd hbar (count_eq_zero_iff.mp hmid' token htoken)
    · exact htoken
    · exact absurd hbar (count_eq_zero_iff.mp hlast' token htoken)
  · rw [he, List.splitOn_append_cons_self_of_not_mem hpre, List.splitOn_append_cons_self_of_not_mem hmid,
      List.splitOn_eq_singleton (bar_notMem hlast')]
  · rw [he, List.length_append, List.length_cons, List.length_append]
    omega

/-- No line with one or two bars is split right: the second vector is never ended. -/
theorem not_splitRight (input : Str) (hcount : input.count '|' = 1 ∨ input.count '|' = 2) :
    ¬SplitRight input := by
  rintro ⟨vectors, hvectors, hright⟩
  rcases hcount with hcount | hcount
  · rw [pipeVectors_one hcount, Option.map_eq_some_iff] at hvectors
    obtain ⟨⟨pre, rest⟩, hsplit, rfl⟩ := hvectors
    obtain ⟨halone, hparts, hlen⟩ := split_one hcount hsplit
    have hall := hright halone
    rw [hparts, List.forall₂_cons, List.forall₂_cons] at hall
    exact not_holds hlen hall.2.1
  · rw [pipeVectors_two hcount, Option.bind_eq_some_iff] at hvectors
    obtain ⟨⟨pre, rest⟩, hsplit, hvectors⟩ := hvectors
    obtain ⟨⟨mid, last⟩, hrest, rfl⟩ := Option.map_eq_some_iff.mp hvectors
    obtain ⟨halone, hparts, hlen⟩ := split_two hcount hsplit hrest
    have hall := hright halone
    rw [hparts, List.forall₂_cons, List.forall₂_cons] at hall
    exact not_holds hlen hall.2.1

theorem not_splitRight_sample : ¬SplitRight "ls | wc".toList :=
  not_splitRight "ls | wc".toList (by decide +kernel)

/-- Both bars are tokens, and the second and the third vector are not ended. -/
theorem split_uninitialised :
    (pipeVectors "ls -l | grep a | wc".toList).map (fun vectors => vectors.map fun command =>
      (command 0, command 1, command 2)) =
        some [(.str "ls".toList, .str "-l".toList, .null), (.str "grep".toList, .str "a".toList, .uninit),
          (.str "wc".toList, .uninit, .uninit)] ∧
      ¬SplitRight "ls -l | grep a | wc".toList := by
  refine ⟨by decide +kernel, ?_⟩
  rintro ⟨vectors, hvectors, hright⟩
  have halone : BarsAlone "ls -l | grep a | wc".toList := by
    unfold BarsAlone
    decide +kernel
  have hparts : (parseInput "ls -l | grep a | wc".toList).splitOn bar =
      [["ls".toList, "-l".toList], ["grep".toList, "a".toList], ["wc".toList]] := by decide +kernel
  have hslots : (pipeVectors "ls -l | grep a | wc".toList).map (fun vectors => vectors.map fun command => command 2) =
      some [.null, .uninit, .uninit] := by decide +kernel
  have hall := hright halone
  rw [hparts, List.forall₂_cons_right_iff] at hall
  obtain ⟨command1, rest1, -, hall, rfl⟩ := hall
  rw [List.forall₂_cons_right_iff] at hall
  obtain ⟨command2, rest2, hcommand2, -, rfl⟩ := hall
  have hnull : command2 2 = .null := hcommand2.2
  rw [hvectors] at hslots
  simp [hnull] at hslots

/-- The splitting ends, within the arrays, exactly when each bar is a token. -/
theorem pipeVectors_isSome_iff (hlen : input.length < maxInputSize)
    (hcount : input.count '|' = 1 ∨ input.count '|' = 2) :
    (parseInput input).length + 1 < maxInputSize ∧ ((pipeVectors input).isSome ↔ BarsAlone input) := by
  have htokens := tokens_length input
  refine ⟨?_, ?_⟩
  · change input.length < 1000 at hlen
    change (parseInput input).length + 1 < 1000
    omega
  · have hbars := count_tokens input
    constructor
    · intro h
      obtain ⟨vectors, hvectors⟩ := Option.isSome_iff_exists.mp h
      rcases hcount with hcount | hcount
      · rw [pipeVectors_one hcount, Option.map_eq_some_iff] at hvectors
        obtain ⟨⟨pre, rest⟩, hsplit, -⟩ := hvectors
        exact (split_one hcount hsplit).1
      · rw [pipeVectors_two hcount, Option.bind_eq_some_iff] at hvectors
        obtain ⟨⟨pre, rest⟩, hsplit, hvectors⟩ := hvectors
        obtain ⟨⟨mid, last⟩, hrest, -⟩ := Option.map_eq_some_iff.mp hvectors
        exact (split_two hcount hsplit hrest).1
    · intro halone
      -- A token with a bar character is a bar, so a bar is there until all are counted.
      have hfind : ∀ words : List Str, (∀ token ∈ words, token ∈ parseInput input) →
          0 < words.flatten.count '|' → ∃ pre rest, splitPipe words = some (pre, rest) := by
        intro words hsub hpos
        rw [List.count_pos_iff, List.mem_flatten] at hpos
        obtain ⟨token, htoken, hbar⟩ := hpos
        have he := halone token (hsub token htoken) hbar
        obtain ⟨split, hsplit⟩ := Option.isSome_iff_exists.mp (splitPipe_isSome_iff.mpr (he ▸ htoken))
        exact ⟨split.1, split.2, hsplit⟩
      obtain ⟨pre, rest, hsplit⟩ := hfind (parseInput input) (fun _ h => h) (by omega)
      rcases hcount with hcount | hcount
      · rw [pipeVectors_one hcount, hsplit]
        rfl
      · obtain ⟨he, hpre⟩ := splitPipe_eq_some.mp hsplit
        have hpre' : pre.flatten.count '|' = 0 := by
          rw [count_eq_zero_iff]
          intro token htoken hbar
          have htoken' := halone token (by simp [he, htoken]) hbar
          exact hpre (htoken' ▸ htoken)
        rw [he, count_split] at hbars
        obtain ⟨mid, last, hrest⟩ := hfind rest (fun token h => by simp [he, h]) (by omega)
        rw [pipeVectors_two hcount, hsplit]
        simp [hrest]

end OsSuite.SimpleShell
