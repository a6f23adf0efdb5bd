import OsSuite.CString
import OsSuite.Tokens

/-! The program grep. Its loop takes what `file_read` returns for a number of bytes, and stops
after the first block of the file. -/

namespace OsSuite.Grep

open CString Tokens

abbrev blockSize : Nat := 512

abbrev Block := List UInt8

abbrev newline : UInt8 := 10

inductive FileStatus where
  | ok
  | error
  deriving DecidableEq

def ascii (s : String) : Text := s.toList.map fun c => UInt8.ofNat c.toNat

/-- The answer to FILE_READ. Where the read fails the block of the reply is what stood there
before. -/
def fileServer (read : UInt32 → Int × Block) (offset : UInt32) : FileStatus × Block :=
  let (r, block) := read offset
  (if r = 0 then .ok else .error, block)

/-- The block is copied in either case. -/
def file_read (read : UInt32 → Int × Block) (offset : UInt32) : Int × Block :=
  let (status, block) := fileServer read offset
  (if status = .ok then 0 else -1, block)

abbrev bufSize : Nat := 4096

def memcpy (buf : List UInt8) (total : Nat) (block : Block) : List UInt8 :=
  buf.take total ++ block ++ buf.drop (total + block.length)

/-- The reading loop. -/
def readBlocks (read : UInt32 → Int × Block) (offset : UInt32) (total : Nat) (buf : List UInt8) : List UInt8 :=
  let (block, bytes) := file_read read offset
  let buf := memcpy buf total bytes
  if block ≤ 0 then buf
  else if total + block.toNat ≥ bufSize - blockSize then buf
  else readBlocks read (offset + UInt32.ofNat blockSize) (total + block.toNat) buf
  termination_by 4096 - total
  decreasing_by
    simp only [bufSize, blockSize] at *
    omega

/-- The lines that `strtok` finds in the string at `buf` and that hold the pattern. -/
def matching (pattern : Text) (s : Text) : List Text :=
  (tokens newline s).filter fun line => pattern <:+: line

def stringAt (buf : List UInt8) : Text := buf.takeWhile (· ≠ 0)

/-- The texts that are printed, and the value returned. `dir_lookup` looks in the working
directory, and `read` is the file system's. -/
def main (dir_lookup : Text → Int) (read : Int → UInt32 → Int × Block) (argv : List Text) : List Text × Int :=
  match argv with
  | [_, pattern, filename] =>
    let ino := dir_lookup filename
    if ino < 0 then ([ascii "grep file not found\n"], -1)
    else
      let buf := readBlocks (read ino) 0 0 (List.replicate bufSize 0)
      ((matching pattern (stringAt buf)).map (· ++ [newline]), 0)
  | _ => ([ascii "Incorrect input\n"], -1)

/-- The block `k` of a text, zero-padded. -/
def blockOf (text : Text) (k : Nat) : Block :=
  let bytes := (text.drop (k * blockSize)).take blockSize
  bytes ++ List.replicate (blockSize - bytes.length) 0

/-- The file system holds the text as a file. -/
structure Serves (read : UInt32 → Int × Block) (text : Text) : Prop where
  within : ∀ k, k.toNat * blockSize < text.length → read k = (0, blockOf text k.toNat)
  past : ∀ k, text.length ≤ k.toNat * blockSize → (read k).1 = -1
  block : ∀ k, (read k).2.length = blockSize

/-- The lines that end in the first block. -/
def earlier (text : Text) : Text := (text.take blockSize).rdropWhile (· ≠ newline)

/-- The line that stands across the end of the first block, in its two parts. -/
def lineBefore (text : Text) : Text := (text.take blockSize).rtakeWhile (· ≠ newline)

def lineBehind (text : Text) : Text := (text.drop blockSize).takeWhile (· ≠ newline)

/-- The text behind that line. -/
def later (text : Text) : Text := (text.drop blockSize).dropWhile (· ≠ newline)

/-- Every line that holds the pattern ends in the first block. -/
def EndsEarly (pattern text : Text) : Prop :=
  (lineBehind text ≠ [] → ¬pattern <:+: lineBefore text ++ lineBehind text) ∧
    ∀ line ∈ tokens newline (later text), ¬pattern <:+: line

variable {read : UInt32 → Int × Block} {text pattern x y p q r : Text}

theorem tokens_append_line (h : ∀ c, x.getLast? = some c → c = newline) (t : Text) :
    tokens newline (x ++ t) = tokens newline x ++ tokens newline t := by
  rcases List.eq_nil_or_concat x with rfl | ⟨z, c, rfl⟩
  · simp
  · have hc : c = newline := h c (by simp)
    subst hc
    simp [List.append_assoc, tokens_append_sep]

theorem tokens_append_behind (h : ∀ c, y.head? = some c → c = newline) (t : Text) :
    tokens newline (t ++ y) = tokens newline t ++ tokens newline y := by
  cases y with
  | nil => simp
  | cons c y =>
    have hc : c = newline := h c rfl
    subst hc
    rw [tokens_append_sep, tokens_sep]

theorem matching_append (h : tokens newline (x ++ y) = tokens newline x ++ tokens newline y) :
    matching pattern (x ++ y) = matching pattern x ++ matching pattern y := by
  rw [matching, h, List.filter_append]
  rfl

theorem matching_line (hp : newline ∉ p) (hpattern : pattern ≠ []) :
    matching pattern p = if pattern <:+: p then [p] else [] := by
  by_cases hnil : p = []
  · subst hnil
    have hno : ¬pattern <:+: [] := fun h => hpattern (List.infix_nil.mp h)
    rw [if_neg hno, matching, tokens_nil]
    rfl
  · rw [matching, tokens_run hp hnil, List.filter_singleton]
    simp

/-- Cutting the text inside a line leaves the matches alone when neither that line, if it goes on,
nor a later one matches. -/
theorem matching_cut (hp : newline ∉ p) (hq : newline ∉ q) (hpattern : pattern ≠ []) :
    matching pattern p = matching pattern (p ++ q) ++ matching pattern r ↔
      (q ≠ [] → ¬pattern <:+: p ++ q) ∧ matching pattern r = [] := by
  have hpq : newline ∉ p ++ q := by simp [hp, hq]
  rw [matching_line hp hpattern, matching_line hpq hpattern]
  by_cases hnil : q = []
  · subst hnil
    simp
  · have hgrow : pattern <:+: p → pattern <:+: p ++ q := fun h => h.trans (List.prefix_append p q).isInfix
    by_cases hmatch : pattern <:+: p ++ q
    · have hne : ∀ l : List Text, (if pattern <:+: p then [p] else []) ≠ (p ++ q) :: l := by
        intro l he
        split at he
        · exact hnil (by simpa using (List.cons.inj he).1)
        · cases he
      rw [if_pos hmatch]
      exact iff_of_false (hne _) fun h => h.1 hnil hmatch
    · have hno : ¬pattern <:+: p := fun h => hmatch (hgrow h)
      rw [if_neg hno, if_neg hmatch, List.nil_append, eq_comm]
      exact (and_iff_right fun _ => hmatch).symm

theorem earlier_append (text : Text) : earlier text ++ lineBefore text = text.take blockSize :=
  List.rdropWhile_append_rtakeWhile

theorem text_parts (text : Text) :
    text = earlier text ++ ((lineBefore text ++ lineBehind text) ++ later text) := by
  have hrest : lineBehind text ++ later text = text.drop blockSize := List.takeWhile_append_dropWhile
  rw [List.append_assoc, hrest, ← List.append_assoc, earlier_append, List.take_append_drop]

/-- The first block has the matches of the whole text exactly when they end early. -/
theorem matching_take_iff (text : Text) (hpattern : pattern ≠ []) :
    matching pattern (text.take blockSize) = matching pattern text ↔ EndsEarly pattern text := by
  have hlast : ∀ c, (earlier text).getLast? = some c → c = newline := by
    intro c hc
    obtain ⟨ys, he⟩ := List.getLast?_eq_some_iff.mp hc
    have hne : earlier text ≠ [] := by simp [he]
    have hnot := List.rdropWhile_last_not (fun c => decide (c ≠ newline)) (text.take blockSize) hne
    change ¬decide ((earlier text).getLast hne ≠ newline) = true at hnot
    simpa [he] using hnot
  have hhead : ∀ c, (later text).head? = some c → c = newline := by
    intro c hc
    have hnot := List.head?_dropWhile_not (fun c => decide (c ≠ newline)) (text.drop blockSize)
    have hdef : later text = (text.drop blockSize).dropWhile fun c => decide (c ≠ newline) := rfl
    rw [← hdef, hc] at hnot
    simpa using hnot
  have hp : newline ∉ lineBefore text := fun hmem => by simpa using List.mem_rtakeWhile_imp hmem
  have hq : newline ∉ lineBehind text := fun hmem => by simpa using List.mem_takeWhile_imp hmem
  have hnone : matching pattern (later text) = [] ↔ ∀ line ∈ tokens newline (later text), ¬pattern <:+: line := by
    simp [matching]
  have htext : matching pattern text = matching pattern (earlier text) ++
      (matching pattern (lineBefore text ++ lineBehind text) ++ matching pattern (later text)) := by
    conv_lhs => rw [text_parts text]
    rw [matching_append (tokens_append_line hlast _), matching_append (tokens_append_behind hhead _)]
  have hfirst : matching pattern (text.take blockSize) =
      matching pattern (earlier text) ++ matching pattern (lineBefore text) := by
    rw [← earlier_append, matching_append (tokens_append_line hlast _)]
  rw [htext, hfirst, List.append_right_inj, matching_cut hp hq hpattern, hnone]
  rfl

theorem file_read_block (h : Serves read text) (hpos : 0 < text.length) :
    file_read read 0 = (0, blockOf text 0) := by
  have hzero := h.within 0 (by simpa using hpos)
  rw [file_read, fileServer, hzero]
  rfl

theorem readBlocks_eq (h : Serves read text) :
    readBlocks read 0 0 (List.replicate bufSize 0) = (read 0).2 ++ List.replicate (bufSize - blockSize) 0 := by
  have hle : (file_read read 0).1 ≤ 0 := by
    unfold file_read
    dsimp only
    split <;> decide
  have hbytes : (file_read read 0).2 = (read 0).2 := rfl
  rw [readBlocks]
  dsimp only
  rw [if_pos hle, hbytes, memcpy, h.block, List.take_zero, List.nil_append, List.drop_replicate, Nat.zero_add]

theorem stringAt_zeros (x : Text) (n : Nat) (hx : 0 ∉ x) : stringAt (x ++ List.replicate n 0) = x := by
  have hall : ∀ c ∈ x, decide (c ≠ 0) = true := fun c hc => by
    rw [decide_eq_true_eq]
    exact fun he => hx (he ▸ hc)
  rw [stringAt, List.takeWhile_append_of_pos hall]
  cases n <;> simp [List.replicate_succ]

theorem stringAt_text (h : Serves read text) (htext : 0 ∉ text) (hpos : 0 < text.length) :
    stringAt (readBlocks read 0 0 (List.replicate bufSize 0)) = text.take blockSize := by
  have hread := h.within 0 (by simpa using hpos)
  have hblock : blockOf text 0 = text.take blockSize ++ List.replicate (blockSize - (text.take blockSize).length) 0 := by
    simp [blockOf]
  have hno : 0 ∉ text.take blockSize := fun hmem => htext (List.mem_of_mem_take hmem)
  rw [readBlocks_eq h, hread]
  change stringAt (blockOf text 0 ++ _) = _
  rw [hblock, List.append_assoc, List.replicate_append_replicate, stringAt_zeros _ _ hno]

theorem main_found {dir_lookup : Text → Int} {read : Int → UInt32 → Int × Block} {program filename : Text}
    (hfound : 0 ≤ dir_lookup filename) : main dir_lookup read [program, pattern, filename] =
      ((matching pattern (stringAt (readBlocks (read (dir_lookup filename)) 0 0 (List.replicate bufSize 0)))).map
        (· ++ [newline]), 0) := if_neg (by omega)

/-- The file system with one text in every file. -/
def serve (text : Text) (_ : Int) (offset : UInt32) : Int × Block :=
  if offset.toNat * blockSize < text.length then (0, blockOf text offset.toNat)
  else (-1, List.replicate blockSize 0)

theorem serve_serves (text : Text) (ino : Int) : Serves (serve text ino) text := by
  refine ⟨fun k hk => if_pos hk, fun k hk => ?_, fun k => ?_⟩
  · rw [serve, if_neg (by omega)]
  · unfold serve
    split
    · have hlen : ((text.drop (k.toNat * blockSize)).take blockSize).length ≤ blockSize := List.length_take_le _ _
      rw [blockOf, List.length_append, List.length_replicate]
      omega
    · simp

/-- A file of two blocks, whose last line is in the second one. -/
def longText : Text := List.replicate 600 97 ++ ascii "\nfound\n"

end OsSuite.Grep
