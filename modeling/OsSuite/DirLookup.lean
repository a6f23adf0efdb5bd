import OsSuite.CString
import OsSuite.Tokens

/-! `dir_lookup` in a directory as `mkfs` writes it. The search finds the first word of the text
that is the name, and a word may also be the number of an entry. -/

namespace OsSuite.Library

open CString Tokens

abbrev blockSize : Nat := 512

abbrev space : UInt8 := 32

/-- The condition of the loop in `dir_lookup`, or none when it reads past the end of `buf`. -/
def entryAt (buf : List UInt8) (name : Text) (i : Nat) : Option Bool :=
  match startsWith name (buf.drop i) with
  | none => none
  | some false => some false
  | some true =>
    match buf[i + name.length]? with
    | none => none
    | some c => if c = space then if i = 0 then some true else buf[i - 1]?.map (· = space) else some false

def lookupLoop (buf : List UInt8) (name : Text) : Nat → Nat → Option Int
  | 0, _ => some (-1)
  | n + 1, i =>
    match entryAt buf name i with
    | none => none
    | some true => atoi (buf.drop (i + name.length))
    | some false => lookupLoop buf name n (i + 1)

/-- `dir_lookup` on the block that it has read. The bound of the loop is unsigned. -/
def dirLookup (buf : List UInt8) (name : Text) : Option Int := do
  let len ← strlen buf
  lookupLoop buf name (UInt32.ofNat len - UInt32.ofNat name.length).toNat 0

structure Entry where
  name : Text
  ino : Nat
  deriving DecidableEq

/-- `"%s%4d "`. -/
def Entry.text (e : Entry) : Text :=
  e.name ++ (List.replicate (4 - (decimal e.ino).length) space ++ (decimal e.ino ++ [space]))

def dirText (entries : List Entry) : Text := entries.flatMap Entry.text

/-- A directory that `mkfs` can write. -/
structure Directory where
  entries : List Entry
  named : ∀ e ∈ entries, e.name ≠ [] ∧ space ∉ e.name ∧ 0 ∉ e.name
  inodes : ∀ e ∈ entries, e.ino < 128
  distinct : (entries.map Entry.name).Nodup
  fits : (dirText entries).length < blockSize

/-- The block holds the text of the directory and a NUL. -/
def Directory.Encodes (d : Directory) (buf : List UInt8) : Prop :=
  buf.length = blockSize ∧ ∃ tail, buf = dirText d.entries ++ 0 :: tail

structure Query where
  name : Text
  nonempty : name ≠ []
  no_space : space ∉ name
  nonzero : 0 ∉ name
  short : name.length ≤ 32

def inodeOf (entries : List Entry) (name : Text) : Int :=
  match entries.find? (·.name = name) with
  | some e => e.ino
  | none => -1

theorem inodeOf_cons (e : Entry) (entries : List Entry) (name : Text) :
    inodeOf (e :: entries) name = if e.name = name then (e.ino : Int) else inodeOf entries name := by
  rw [inodeOf, List.find?_cons]
  by_cases h : e.name = name
  · rw [if_pos h, decide_eq_true h]
  · rw [if_neg h, decide_eq_false h]
    rfl

/-- The lookup gives the right inode and stays inside of the block. -/
def FindsExactly (d : Directory) (q : Query) : Prop :=
  ∀ buf, d.Encodes buf → dirLookup buf q.name = some (inodeOf d.entries q.name)

/-- The name first comes as the number of an entry, with the entries `rest` behind it. -/
def Shadowed (name : Text) (entries rest : List Entry) : Prop :=
  ∃ before e, entries = before ++ e :: rest ∧ e.name ≠ name ∧ decimal e.ino = name ∧
    ∀ x ∈ before, x.name ≠ name ∧ decimal x.ino ≠ name

def behindNumber (rest : List Entry) : Option Int := atoi (space :: (dirText rest ++ [0]))

section Loop

variable {name r tail : Text}

theorem entryAt_eq (pre : Text) (hzero : 0 ∉ name) (hlen : name.length < r.length) :
    entryAt (pre ++ (r ++ 0 :: tail)) name pre.length =
      some (decide ((pre = [] ∨ pre.getLast? = some space) ∧ name ++ [space] <+: r)) := by
  rw [entryAt, List.drop_left, startsWith_eq hzero]
  by_cases hstarts : name <+: r
  · obtain ⟨x, rfl⟩ := hstarts
    rw [List.length_append] at hlen
    obtain ⟨c, x, rfl⟩ := List.exists_cons_of_ne_nil (List.ne_nil_of_length_pos (by omega : 0 < x.length))
    have hnext : (pre ++ (name ++ c :: x ++ 0 :: tail))[pre.length + name.length]? = some c := by
      rw [List.getElem?_append_right (Nat.le_add_right _ _), Nat.add_sub_cancel_left, List.append_assoc,
        List.getElem?_append_right le_rfl, Nat.sub_self]
      rfl
    have hspace : name ++ [space] <+: name ++ c :: x ↔ c = space := by
      rw [List.prefix_append_right_inj, List.cons_prefix_cons]
      exact ⟨fun h => h.1.symm, fun h => ⟨h.symm, List.nil_prefix⟩⟩
    rw [decide_eq_true (List.prefix_append name _), hnext]
    dsimp only
    by_cases hc : c = space
    · rw [if_pos hc]
      by_cases hpre : pre = []
      · rw [if_pos (List.length_eq_zero_iff.mpr hpre), decide_eq_true ⟨.inl hpre, hspace.mpr hc⟩]
      · have hpos : 0 < pre.length := List.length_pos_iff.mpr hpre
        have hlast : (pre ++ (name ++ c :: x ++ 0 :: tail))[pre.length - 1]? = some (pre.getLast hpre) := by
          rw [List.getElem?_append_left (by omega), List.getLast_eq_getElem]
          exact List.getElem?_eq_getElem (by omega)
        rw [if_neg hpos.ne', hlast, List.getLast?_eq_some_getLast hpre, Option.map_some]
        congr 1
        apply decide_eq_decide.mpr
        rw [hspace, Option.some_inj]
        exact ⟨fun h => ⟨.inr h, hc⟩, fun h => h.1.resolve_left hpre⟩
    · rw [if_neg hc, decide_eq_false fun h => hc (hspace.mp h.2)]
  · have hno : ¬name ++ [space] <+: r := fun h => hstarts ((List.prefix_append name [space]).trans h)
    rw [decide_eq_false hstarts, decide_eq_false fun h => hno h.2]

theorem lookupLoop_eq (pre : Text) {first : Bool} (hzero : 0 ∉ name)
    (hfirst : first = true ↔ pre = [] ∨ pre.getLast? = some space) :
    lookupLoop (pre ++ (r ++ 0 :: tail)) name (r.length - name.length) pre.length =
      match behind space name first r with
      | some s => atoi (s ++ 0 :: tail)
      | none => some (-1) := by
  induction r generalizing pre first with
  | nil =>
    rw [behind, List.length_nil, Nat.zero_sub]
    rfl
  | cons c r ih =>
    by_cases hlen : name.length < (c :: r).length
    · have hcount : (c :: r).length - name.length = r.length - name.length + 1 := by
        rw [List.length_cons] at hlen ⊢
        omega
      have hiff := and_congr_left' (c := name ++ [space] <+: c :: r) hfirst
      rw [hcount, lookupLoop, entryAt_eq pre hzero hlen, behind]
      by_cases hmatch : (pre = [] ∨ pre.getLast? = some space) ∧ name ++ [space] <+: c :: r
      · rw [if_pos (hiff.mpr hmatch), decide_eq_true hmatch]
        dsimp only
        have hdrop : (pre ++ (c :: r ++ 0 :: tail)).drop (pre.length + name.length) =
            (c :: r).drop name.length ++ 0 :: tail := by
          rw [← List.drop_drop, List.drop_left, List.drop_append_of_le_length hlen.le]
        rw [hdrop]
      · rw [if_neg (hiff.not.mpr hmatch), decide_eq_false hmatch]
        have hfirst' : decide (c = space) = true ↔ pre ++ [c] = [] ∨ (pre ++ [c]).getLast? = some space := by
          simp
        have hrest := ih (pre ++ [c]) hfirst'
        rw [List.length_append, List.length_singleton, List.append_assoc] at hrest
        exact hrest
    · have hle := Nat.not_lt.mp hlen
      rw [behind_long hle, Nat.sub_eq_zero_of_le hle]
      rfl

end Loop

section Words

variable {name tail : Text}

/-- The number read behind the first word that is the name. -/
def answer (name : Text) : List Entry → Option Int
  | [] => some (-1)
  | e :: entries =>
    if e.name = name then some e.ino
    else if decimal e.ino = name then behindNumber entries
    else answer name entries

theorem space_not_mem_decimal (n : Nat) : space ∉ decimal n := fun h =>
  absurd (isDigit_of_mem_decimal h) (by decide)

theorem zero_not_mem_decimal (n : Nat) : 0 ∉ decimal n := fun h =>
  absurd (isDigit_of_mem_decimal h) (by decide)

/-- At least one space stands before the number. -/
theorem text_eq {e : Entry} (hino : e.ino < 128) (t : Text) : ∃ k, e.text ++ t =
    e.name ++ space :: (List.replicate k space ++ (decimal e.ino ++ space :: t)) := by
  have hlen := decimal_length_le (show 1 ≤ 3 by decide) (show e.ino < 10 ^ 3 by omega)
  refine ⟨3 - (decimal e.ino).length, ?_⟩
  have hpad : 4 - (decimal e.ino).length = 3 - (decimal e.ino).length + 1 := by omega
  rw [Entry.text, hpad, List.replicate_succ]
  simp only [List.append_assoc, List.cons_append, List.nil_append]

theorem behind_dirText {entries : List Entry} (hname : name ≠ []) (hspace : space ∉ name)
    (hnamed : ∀ e ∈ entries, e.name ≠ [] ∧ space ∉ e.name ∧ 0 ∉ e.name)
    (hinodes : ∀ e ∈ entries, e.ino < 128) :
    (match behind space name true (dirText entries) with
      | some s => atoi (s ++ 0 :: tail)
      | none => some (-1)) = answer name entries := by
  induction entries with
  | nil => rfl
  | cons e entries ih =>
    obtain ⟨hne, hno, -⟩ := hnamed e List.mem_cons_self
    have hino := hinodes e List.mem_cons_self
    obtain ⟨k, hk⟩ := text_eq hino (dirText entries)
    have htext : dirText (e :: entries) = e.text ++ dirText entries := List.flatMap_cons
    rw [htext, hk, behind_word hspace hname hno hne, answer]
    by_cases hhere : e.name = name
    · rw [if_pos hhere, if_pos hhere]
      have hdigits := atoi_decimal (k + 1) (n := e.ino) (by omega) (dirText entries ++ 0 :: tail)
      dsimp only
      rw [List.replicate_succ, List.cons_append] at hdigits
      simpa only [List.cons_append, List.append_assoc] using hdigits
    · rw [if_neg hhere, if_neg hhere, behind_seps hspace hname,
        behind_word hspace hname (space_not_mem_decimal _) (decimal_ne_nil _)]
      by_cases hnumber : decimal e.ino = name
      · rw [if_pos hnumber, if_pos hnumber]
        exact atoi_tail (space :: dirText entries) tail
      · rw [if_neg hnumber, if_neg hnumber]
        exact ih (fun x hx => hnamed x (List.mem_cons_of_mem e hx))
          fun x hx => hinodes x (List.mem_cons_of_mem e hx)

theorem answer_shadowed {entries rest : List Entry} (h : Shadowed name entries rest) :
    answer name entries = behindNumber rest := by
  obtain ⟨before, e, rfl, hne, hnumber, hbefore⟩ := h
  induction before with
  | nil => rw [List.nil_append, answer, if_neg hne, if_pos hnumber]
  | cons x before ih =>
    obtain ⟨hxne, hxno⟩ := hbefore x List.mem_cons_self
    rw [List.cons_append, answer, if_neg hxne, if_neg hxno]
    exact ih fun y hy => hbefore y (List.mem_cons_of_mem x hy)

theorem answer_cases (name : Text) (entries : List Entry) :
    (∃ rest, Shadowed name entries rest) ∨ answer name entries = some (inodeOf entries name) := by
  induction entries with
  | nil => exact .inr rfl
  | cons e entries ih =>
    by_cases hhere : e.name = name
    · refine .inr ?_
      rw [answer, if_pos hhere, inodeOf_cons, if_pos hhere]
    · by_cases hnumber : decimal e.ino = name
      · exact .inl ⟨entries, [], e, rfl, hhere, hnumber, fun x hx => absurd hx List.not_mem_nil⟩
      · rcases ih with ⟨rest, before, x, rfl, hne, hno, hbefore⟩ | hanswer
        · refine .inl ⟨rest, e :: before, x, rfl, hne, hno, fun y hy => ?_⟩
          rcases List.mem_cons.mp hy with rfl | hy
          · exact ⟨hhere, hnumber⟩
          · exact hbefore y hy
        · refine .inr ?_
          rw [answer, if_neg hhere, if_neg hnumber, hanswer, inodeOf_cons, if_neg hhere]

end Words

theorem zero_not_mem_dirText (d : Directory) : 0 ∉ dirText d.entries := by
  intro h
  obtain ⟨e, he, h⟩ := List.mem_flatMap.mp h
  obtain ⟨-, -, hname⟩ := d.named e he
  rw [Entry.text, List.mem_append, List.mem_append, List.mem_append] at h
  rcases h with h | h | h | h
  · exact hname h
  · exact absurd (List.eq_of_mem_replicate h) (by decide)
  · exact zero_not_mem_decimal _ h
  · exact absurd (List.mem_singleton.mp h) (by decide)

/-- A name that is not longer than the text gets the number behind the first word that it is. -/
theorem dirLookup_eq (d : Directory) (q : Query) {buf : List UInt8} (hbuf : d.Encodes buf)
    (hlen : q.name.length ≤ (dirText d.entries).length) : dirLookup buf q.name = answer q.name d.entries := by
  obtain ⟨-, tail, rfl⟩ := hbuf
  have hfits := d.fits
  have hbound : (UInt32.ofNat (dirText d.entries).length - UInt32.ofNat q.name.length).toNat =
      (dirText d.entries).length - q.name.length := by
    have hsmall : (dirText d.entries).length < 2 ^ 32 := hfits.trans (by decide)
    have htext := UInt32.toNat_ofNat_of_lt' hsmall
    have hname := UInt32.toNat_ofNat_of_lt' (hlen.trans_lt hsmall)
    rw [UInt32.toNat_sub_of_le _ _ (UInt32.le_iff_toNat_le.mpr (by rw [htext, hname]; exact hlen)), htext, hname]
  have hloop := @lookupLoop_eq q.name (dirText d.entries) tail [] true q.nonzero
    ⟨fun _ => .inl rfl, fun _ => rfl⟩
  rw [List.nil_append, List.length_nil] at hloop
  rw [dirLookup, strlen_eq (zero_not_mem_dirText d), Option.bind_eq_bind, Option.bind_some, hbound, hloop]
  exact behind_dirText q.nonempty q.no_space d.named d.inodes

theorem lookupLoop_none {buf name : Text} {n i last : Nat}
    (hfalse : ∀ j, i ≤ j → j < last → entryAt buf name j = some false) (hnone : entryAt buf name last = none)
    (hi : i ≤ last) (hn : last - i < n) : lookupLoop buf name n i = none := by
  induction n generalizing i with
  | zero => omega
  | succ n ih =>
    rw [lookupLoop]
    by_cases hlast : i = last
    · rw [hlast, hnone]
    · rw [hfalse i le_rfl (by omega)]
      exact ih (fun j hj => hfalse j (by omega)) (by omega) (by omega)

def Directory.block (d : Directory) : List UInt8 :=
  dirText d.entries ++ 0 :: List.replicate (blockSize - 1 - (dirText d.entries).length) 0

theorem block_encodes (d : Directory) : d.Encodes d.block := by
  have hfits := d.fits
  refine ⟨?_, _, rfl⟩
  rw [Directory.block, List.length_append, List.length_cons, List.length_replicate]
  omega

/-- Behind every place in the block the rest of the text comes first, then a NUL. -/
theorem block_drop (d : Directory) {i : Nat} (hi : i < blockSize) :
    ∃ r tail, d.block.drop i = r ++ 0 :: tail ∧ r.length ≤ (dirText d.entries).length := by
  by_cases hle : i ≤ (dirText d.entries).length
  · refine ⟨(dirText d.entries).drop i, _, List.drop_append_of_le_length hle, ?_⟩
    rw [List.length_drop]
    exact Nat.sub_le _ _
  · have hlen := (block_encodes d).1
    have hnul : 0 < i - (dirText d.entries).length := by omega
    refine ⟨[], (d.block.drop (i + 1)), ?_, Nat.zero_le _⟩
    rw [List.drop_eq_getElem_cons (by rw [hlen]; exact hi), List.nil_append]
    congr 1
    simp only [Directory.block]
    rw [List.getElem_append_right (by omega), List.getElem_cons, dif_neg (by omega), List.getElem_replicate]

/-- A name longer than the text is searched for past the end of the block. -/
theorem dirLookup_long (d : Directory) (q : Query) (hlen : (dirText d.entries).length < q.name.length) :
    ∃ buf, d.Encodes buf ∧ dirLookup buf q.name = none := by
  refine ⟨d.block, block_encodes d, ?_⟩
  have hshort := q.short
  have hstrlen : strlen d.block = some (dirText d.entries).length := strlen_eq (zero_not_mem_dirText d) _
  have hbound : blockSize < (UInt32.ofNat (dirText d.entries).length - UInt32.ofNat q.name.length).toNat := by
    have htext : (UInt32.ofNat (dirText d.entries).length).toNat = (dirText d.entries).length :=
      UInt32.toNat_ofNat_of_lt' (d.fits.trans (by decide))
    have hname : (UInt32.ofNat q.name.length).toNat = q.name.length :=
      UInt32.toNat_ofNat_of_lt' (hshort.trans_lt (by decide))
    have hblock : blockSize = 512 := rfl
    have hfits := d.fits
    rw [UInt32.toNat_sub, htext, hname, Nat.mod_eq_of_lt (by omega)]
    omega
  rw [dirLookup, hstrlen, Option.bind_eq_bind, Option.bind_some]
  apply @lookupLoop_none _ _ _ _ blockSize
  · intro j _ hj
    obtain ⟨r, tail, hdrop, hr⟩ := block_drop d hj
    have hno : ¬q.name <+: r := fun h => absurd h.length_le (by omega)
    rw [entryAt, hdrop, startsWith_eq q.nonzero, decide_eq_false hno]
  · obtain ⟨c, name, hname⟩ := List.exists_cons_of_ne_nil q.nonempty
    rw [entryAt, List.drop_eq_nil_of_le (block_encodes d).1.le, hname]
    rfl
  · exact Nat.zero_le _
  · exact hbound

/-- `dir_lookup` is right in a directory for a name when the name is not longer than the text and
is not the number of an entry further left; else `atoi` has to read the right answer behind that
number by chance. -/
theorem dir_lookup_finds_iff (d : Directory) (q : Query) : FindsExactly d q ↔
    q.name.length ≤ (dirText d.entries).length ∧
      ∀ rest, Shadowed q.name d.entries rest → behindNumber rest = some (inodeOf d.entries q.name) := by
  constructor
  · intro h
    have hlen : q.name.length ≤ (dirText d.entries).length := by
      by_contra hlong
      obtain ⟨buf, hbuf, hnone⟩ := dirLookup_long d q (Nat.not_le.mp hlong)
      have hfound := h buf hbuf
      rw [hnone] at hfound
      cases hfound
    refine ⟨hlen, fun rest hrest => ?_⟩
    have hfound := h d.block (block_encodes d)
    rwa [dirLookup_eq d q (block_encodes d) hlen, answer_shadowed hrest] at hfound
  · rintro ⟨hlen, hshadow⟩ buf hbuf
    rw [dirLookup_eq d q hbuf hlen]
    rcases answer_cases q.name d.entries with ⟨rest, hrest⟩ | hanswer
    · rw [answer_shadowed hrest]
      exact hshadow rest hrest
    · exact hanswer

/-- `"./   6 ../   0 "`, the start of the directory of the programs. -/
def binDir : Directory where
  entries := [⟨[46], 6⟩, ⟨[46, 46], 0⟩]
  named := by decide
  inodes := by decide
  distinct := by decide
  fits := by decide

def six : Query := ⟨[54], by decide, by decide, by decide, by decide⟩

def seventeen : Query := ⟨List.replicate 17 97, by decide, by decide, by decide, by decide⟩

/-- The number of an entry is taken for a name, and a long name is searched for past the end. -/
theorem dir_lookup_misses : ¬FindsExactly binDir six ∧ ¬FindsExactly binDir seventeen := by
  constructor
  · intro h
    have hfound := h binDir.block (block_encodes binDir)
    have hzero : dirLookup binDir.block six.name = some 0 := by decide +kernel
    have hnone : inodeOf binDir.entries six.name = -1 := by decide +kernel
    rw [hzero, hnone] at hfound
    exact absurd (Option.some.inj hfound) (by decide)
  · intro h
    obtain ⟨buf, hbuf, hnone⟩ := dirLookup_long binDir seventeen (by decide +kernel)
    have hfound := h buf hbuf
    rw [hnone] at hfound
    cases hfound

end OsSuite.Library
