import Mathlib

/-! SimpleShell: its main loop, the history of commands, and the records of the processes it
launches. -/

namespace OsSuite.SimpleShell

abbrev maxInputSize : Nat := 1000

abbrev maxHistorySize : Nat := 500

/-- A string of the C program, up to its terminating zero. -/
abbrev Str := List Char

/-- What the system says when a command launches its processes: the process id that the parent
keeps, and the two times it reads. -/
structure Launch where
  pid : Int
  start : Int
  finish : Int
  pid_pos : 0 < pid
  start_pos : 0 < start

/-- The global arrays and counters; `history_count` is the length of `history`. -/
structure Shell where
  history : List Str
  process_pid : Fin maxHistorySize → Int
  pid_count : Nat
  start_time : Fin maxHistorySize → Int
  start_count : Nat
  execution_time : Fin maxHistorySize → Int
  exec_time : Nat

def Shell.init : Shell := ⟨[], fun _ => 0, 0, fun _ => 0, 0, fun _ => 0, 0⟩

/-- The move of the entries of an array to the front by one; the last stays. -/
def shift (a : Fin maxHistorySize → Int) (i : Fin maxHistorySize) : Int :=
  if h : i.val + 1 < maxHistorySize then a ⟨i.val + 1, h⟩ else a i

def addToHistory (s : Shell) (command : Str) : Shell :=
  if s.history.length < maxHistorySize then { s with history := s.history ++ [command] }
  else { s with
    history := s.history.tail ++ [command]
    process_pid := shift s.process_pid
    start_time := shift s.start_time
    execution_time := shift s.execution_time }

/-- The write of an array element, if it is within the array. -/
def store (a : Fin maxHistorySize → Int) (i : Nat) (v : Int) : Option (Fin maxHistorySize → Int) :=
  if h : i < maxHistorySize then some (Function.update a ⟨i, h⟩ v) else none

def storePid (s : Shell) (l : Launch) : Option Shell := do
  let process_pid ← store s.process_pid s.pid_count l.pid
  some { s with process_pid := process_pid, pid_count := s.pid_count + 1 }

def storeTimes (s : Shell) (l : Launch) : Option Shell := do
  let execution_time ← store s.execution_time s.exec_time (l.finish - l.start)
  let start_time ← store s.start_time s.start_count l.start
  some { s with
    execution_time := execution_time
    exec_time := s.exec_time + 1
    start_time := start_time
    start_count := s.start_count + 1 }

/-- What the parent does in `launch`, its child forked. -/
def launch (s : Shell) (l : Launch) : Option Shell := do
  let s ← storePid s l
  storeTimes s l

/-- The process id kept is that of the second child. -/
def launch_pipe (s : Shell) (l : Launch) : Option Shell := do
  let s ← storePid s l
  storeTimes s l

/-- Here no process id is kept. -/
def launch_pip2 (s : Shell) (l : Launch) : Option Shell := storeTimes s l

/-- The words between the spaces. -/
def parseInput (input : Str) : List Str := (input.splitOn ' ').filter fun token => token ≠ []

/-- The loop that takes the words before the next word `|`, and the words after it; nothing
where there is none, as the loop then compares with a null pointer. -/
def splitPipe : List Str → Option (List Str × List Str)
  | [] => none
  | token :: tokens =>
    if token = ['|'] then some ([], tokens)
    else do
      let (command, rest) ← splitPipe tokens
      some (token :: command, rest)

inductive Next where
  | continue (s : Shell)
  /-- The shell ends after `exit`. -/
  | exit
  /-- A null pointer is read. -/
  | crash
  /-- A write beyond the end of an array. -/
  | outOfBounds

inductive Command where
  | launch
  | pipe
  | pipe2
  | tooManyPipes
  deriving DecidableEq

/-- The branch that the main loop takes for a command. -/
def branch (input : Str) : Option Command :=
  let count := input.count '|'
  if count = 0 then some .launch
  else if count = 1 then do
    let _ ← splitPipe (parseInput input)
    some .pipe
  else if count = 2 then do
    let (_, rest) ← splitPipe (parseInput input)
    let _ ← splitPipe rest
    some .pipe2
  else some .tooManyPipes

def Command.run (s : Shell) (l : Launch) : Command → Option Shell
  | .launch => SimpleShell.launch s l
  | .pipe => launch_pipe s l
  | .pipe2 => launch_pip2 s l
  | .tooManyPipes => some s

def round (s : Shell) (input : Str) (l : Launch) : Next :=
  if input.length = 0 then .continue s
  else if input = "exit".toList then .exit
  else if input = "history".toList then .continue s
  else
    let s := addToHistory s input
    match branch input with
    | none => .crash
    | some command =>
      match command.run s l with
      | none => .outOfBounds
      | some s => .continue s

/-- `fgets` with room for `n` characters: what it reads, and what is left. -/
def fgets : Nat → List Char → List Char × List Char
  | 0, stdin => ([], stdin)
  | _, [] => ([], [])
  | n + 1, c :: stdin =>
    if c = '\n' then ([c], stdin)
    else
      let (line, rest) := fgets n stdin
      (c :: line, rest)

/-- The string in the buffer once the newline is cut off. -/
def content (line : List Char) : Str := line.takeWhile fun c => c ≠ '\n' ∧ c ≠ Char.ofNat 0

/-- What the calls of `fgets` in the main loop read, at most `n` times. -/
def reads : Nat → List Char → List (List Char)
  | 0, _ => []
  | _, [] => []
  | n + 1, stdin =>
    let (line, rest) := fgets (maxInputSize - 1) stdin
    line :: reads n rest

/-- All of the input, one entry for each round of the main loop. -/
def inputs (stdin : List Char) : List Str := (reads stdin.length stdin).map content

theorem fgets_append (n : Nat) (stdin : List Char) : (fgets n stdin).1 ++ (fgets n stdin).2 = stdin := by
  induction n generalizing stdin with
  | zero => rfl
  | succ n ih =>
    cases stdin with
    | nil => rfl
    | cons c stdin =>
      by_cases hc : c = '\n'
      · rw [fgets, if_pos hc]
        rfl
      · rw [fgets, if_neg hc]
        exact congrArg (c :: ·) (ih stdin)

/-- The rounds read the whole input. -/
theorem reads_flatten {n : Nat} {stdin : List Char} (hn : stdin.length ≤ n) :
    (reads n stdin).flatten = stdin := by
  induction n generalizing stdin with
  | zero =>
    rw [List.length_eq_zero_iff.mp (Nat.le_zero.mp hn)]
    rfl
  | succ n ih =>
    cases stdin with
    | nil => rfl
    | cons c stdin =>
      have happend := fgets_append (maxInputSize - 1) (c :: stdin)
      have hrest : (fgets (maxInputSize - 1) (c :: stdin)).2.length ≤ n := by
        have hlen : (fgets (maxInputSize - 1) (c :: stdin)).2.length ≤ stdin.length := by
          change (fgets (998 + 1) (c :: stdin)).2.length ≤ stdin.length
          by_cases hc : c = '\n'
          · rw [fgets, if_pos hc]
          · rw [fgets, if_neg hc]
            have hsplit := congrArg List.length (fgets_append 998 stdin)
            rw [List.length_append] at hsplit
            change (fgets 998 stdin).2.length ≤ stdin.length
            omega
        exact hlen.trans (Nat.le_of_succ_le_succ hn)
      rw [reads]
      · rw [List.flatten_cons, ih hrest, happend]
      · nofun

/-- The main loop over the input, the `n`-th launch being `launches n`. -/
def main (s : Shell) : List (Str × Launch) → Next
  | [] => .continue s
  | (input, l) :: lines =>
    match round s input l with
    | .continue s => main s lines
    | next => next

def session (stdin : List Char) (launches : Nat → Launch) : List (Str × Launch) :=
  (inputs stdin).mapIdx fun n input => (input, launches n)

end OsSuite.SimpleShell
