import OsSuite.CString
import OsSuite.Tokens

/-! The program cd. It edits the path of the working directory in place, beside the number of
its inode. -/

namespace OsSuite.ChangeDir

open CString Tokens

abbrev slash : UInt8 := 47

abbrev dot : UInt8 := 46

/-- The room for `workdir` in its page, behind `workdir_ino`. -/
abbrev workdirSize : Nat := 4092

abbrev homeName : Text := [104, 111, 109, 101]

abbrev yunhaoName : Text := [121, 117, 110, 104, 97, 111]

/-- `"/home/yunhao"`. -/
abbrev homePath : Text := slash :: homeName ++ slash :: yunhaoName

/-- The page of the working directory; `workdir` holds the bytes of its array. -/
structure WorkDir where
  workdir_ino : Int
  workdir : List UInt8

/-- The write of a string at an index, within the array. -/
def put (buf : List UInt8) (i : Nat) (s : Text) : Option (List UInt8) :=
  if i + s.length < buf.length then some (buf.take i ++ (s ++ 0 :: buf.drop (i + s.length + 1))) else none

def strcpy (buf : List UInt8) (s : Text) : Option (List UInt8) := put buf 0 s

def strcat (buf : List UInt8) (s : Text) : Option (List UInt8) := do
  let len ← strlen buf
  put buf len s

def strncat (buf : List UInt8) (s : Text) (n : Nat) : Option (List UInt8) := strcat buf (s.take n)

/-- The loop that clears the last component from `len` on, and what follows it. -/
def clearLast (buf : List UInt8) (len : Nat) : Option (List UInt8) :=
  match buf[len]? with
  | none => none
  | some c =>
    if c = slash then some (if len ≠ 0 then buf.set len 0 else buf)
    else
      match len with
      | 0 => none
      | len + 1 => clearLast (buf.set (len + 1) 0) len

/-- The page after `main`, and the value that it returns; nothing where memory outside of an array
is accessed, as the character before an empty argument is. -/
def cd (dir_lookup : Int → Text → Int) (s : WorkDir) : Option Text → Option (WorkDir × Int)
  | none => do
    let home_ino := dir_lookup 0 (homeName ++ [slash])
    let workdir_ino := dir_lookup home_ino (yunhaoName ++ [slash])
    let workdir ← strcpy s.workdir homePath
    some (⟨workdir_ino, workdir⟩, 0)
  | some arg => do
    let last ← arg.getLast?
    let arg := if last ≠ slash then arg ++ [slash] else arg
    let dir_ino := dir_lookup s.workdir_ino arg
    if dir_ino = -1 then some (s, -1)
    else if arg = [dot, slash] then some (⟨dir_ino, s.workdir⟩, 0)
    else do
      let len ← strlen s.workdir
      let workdir ←
        if arg = [dot, dot, slash] then clearLast s.workdir len
        else do
          let workdir ← if len > 1 then strcat s.workdir [slash] else some s.workdir
          strncat workdir arg (arg.length - 1)
      some (⟨dir_ino, workdir⟩, 0)

/-- The commands one after another. -/
def run (dir_lookup : Int → Text → Int) (s : WorkDir) : List (Option Text) → Option WorkDir
  | [] => some s
  | arg :: args => do
    let (s, _) ← cd dir_lookup s arg
    run dir_lookup s args

/-- A directory with the directories in it. -/
inductive Tree where
  | node (ino : Nat) (children : List (Text × Tree))

namespace Tree

def ino : Tree → Nat
  | node ino _ => ino

def children : Tree → List (Text × Tree)
  | node _ children => children

def child (t : Tree) (name : Text) : Option Tree := (t.children.find? (·.1 = name)).map Prod.snd

/-- The directory that the names lead to. -/
def find (t : Tree) : List Text → Option Tree
  | [] => some t
  | name :: names => (t.child name).bind fun sub => sub.find names

end Tree

structure ValidName (name : Text) : Prop where
  nonempty : name ≠ []
  no_slash : slash ∉ name
  nonzero : 0 ∉ name
  no_dot : name ≠ [dot]
  no_dots : name ≠ [dot, dot]

/-- The path of the directory that the names lead to. -/
def pathText : List Text → Text
  | [] => [slash]
  | names => names.flatMap (slash :: ·)

/-- A tree of directories whose paths fit into the page. -/
structure DirTree where
  root : Tree
  root_ino : root.ino = 0
  named : ∀ names t, root.find names = some t → ∀ x ∈ t.children, ValidName x.1
  distinct : ∀ names t, root.find names = some t → (t.children.map Prod.fst).Nodup
  home : (root.find [homeName, yunhaoName]).isSome
  fits : ∀ names, (root.find names).isSome → (pathText names).length < workdirSize

/-- The answer of a directory about a name: its entries are itself, its parent and its children. -/
def entry (root : Tree) (names : List Text) (t : Tree) (name : Text) : Option Tree :=
  if name = [dot] then some t
  else if name = [dot, dot] then root.find names.dropLast
  else t.child name

/-- What is assumed of `dir_lookup`. -/
def Serves (dir_lookup : Int → Text → Int) (tree : DirTree) : Prop :=
  ∀ names t, tree.root.find names = some t → ∀ name,
    dir_lookup t.ino (name ++ [slash]) = ((entry tree.root names t name).map fun sub => (sub.ino : Int)).getD (-1)

/-- The string in the array. -/
def Holds (buf : List UInt8) (path : Text) : Prop :=
  buf.length = workdirSize ∧ 0 ∉ path ∧ ∃ tail, buf = path ++ 0 :: tail

/-- A path from the root without empty components, `.` and `..`. -/
def Canonical (path : Text) : Prop :=
  path = pathText (tokens slash path) ∧ ∀ name ∈ tokens slash path, name ≠ [dot] ∧ name ≠ [dot, dot]

/-- The inode that a path leads to. -/
def resolve (tree : DirTree) (path : Text) : Option Int :=
  (tree.root.find (tokens slash path)).map fun t => (t.ino : Int)

/-- The path and the inode agree. -/
def Agrees (tree : DirTree) (s : WorkDir) : Prop :=
  ∃ path, Holds s.workdir path ∧ Canonical path ∧ resolve tree path = some s.workdir_ino

variable {tree : DirTree} {t : Tree} {names : List Text} {name path s : Text} {buf tail w x z : List UInt8}
  {dir_lookup : Int → Text → Int}

theorem Tree.find_append (t : Tree) (names rest : List Text) :
    t.find (names ++ rest) = (t.find names).bind fun sub => sub.find rest := by
  induction names generalizing t with
  | nil => rfl
  | cons name names ih =>
    rw [List.cons_append, find, find]
    cases t.child name with
    | none => rfl
    | some sub => exact ih sub

theorem Tree.child_mem {sub : Tree} (h : t.child name = some sub) : (name, sub) ∈ t.children := by
  unfold child at h
  obtain ⟨x, hx, rfl⟩ := Option.map_eq_some_iff.mp h
  have hname := List.find?_some hx
  have hmem := List.mem_of_find?_eq_some hx
  rw [decide_eq_true_eq] at hname
  rw [← hname]
  exact hmem

theorem DirTree.valid (tree : DirTree) (h : tree.root.find names = some t) : ∀ name ∈ names, ValidName name := by
  induction names using List.reverseRecOn generalizing t with
  | nil => simp
  | append_singleton names name ih =>
    rw [Tree.find_append, Option.bind_eq_some_iff] at h
    obtain ⟨u, hu, hsub⟩ := h
    rw [Tree.find, Option.bind_eq_some_iff] at hsub
    obtain ⟨v, hv, -⟩ := hsub
    intro n hn
    rcases List.mem_append.mp hn with hn | hn
    · exact ih hu n hn
    · rw [List.mem_singleton.mp hn]
      exact tree.named names u hu _ (Tree.child_mem hv)

theorem pathText_concat (names : List Text) (name : Text) :
    pathText (names ++ [name]) = names.flatMap (slash :: ·) ++ slash :: name := by
  cases names with
  | nil => simp [pathText]
  | cons n names => simp [pathText]

theorem pathText_ne (h : names ≠ []) : pathText names = names.flatMap (slash :: ·) := by
  cases names with
  | nil => exact absurd rfl h
  | cons n names => rfl

theorem tokens_flatMap (h : ∀ name ∈ names, ValidName name) : tokens slash (names.flatMap (slash :: ·)) = names := by
  induction names using List.reverseRecOn with
  | nil => simp
  | append_singleton names name ih =>
    have hname := h name (by simp)
    rw [List.flatMap_append, List.flatMap_singleton, tokens_append_sep, ih fun n hn => h n (by simp [hn]),
      tokens_run hname.no_slash hname.nonempty]

theorem tokens_pathText (h : ∀ name ∈ names, ValidName name) : tokens slash (pathText names) = names := by
  cases names with
  | nil => simp [pathText]
  | cons n names => exact tokens_flatMap h

theorem zero_notMem_pathText (h : ∀ name ∈ names, ValidName name) : 0 ∉ pathText names := by
  have hall : 0 ∉ names.flatMap (slash :: ·) := by
    intro hmem
    obtain ⟨name, hname, hzero⟩ := List.mem_flatMap.mp hmem
    rcases List.mem_cons.mp hzero with hzero | hzero
    · cases hzero
    · exact (h name hname).nonzero hzero
  cases names with
  | nil => decide
  | cons n names => exact hall

theorem canonical_pathText (h : ∀ name ∈ names, ValidName name) : Canonical (pathText names) := by
  rw [Canonical, tokens_pathText h]
  exact ⟨rfl, fun name hname => ⟨(h name hname).no_dot, (h name hname).no_dots⟩⟩

theorem agrees_of_find {ino : Int} (h : tree.root.find names = some t) (hino : ino = t.ino)
    (hholds : Holds buf (pathText names)) : Agrees tree ⟨ino, buf⟩ := by
  have hvalid := tree.valid h
  refine ⟨_, hholds, canonical_pathText hvalid, ?_⟩
  rw [resolve, tokens_pathText hvalid, h, hino]
  rfl

theorem Agrees.find {s : WorkDir} (h : Agrees tree s) : ∃ names t, tree.root.find names = some t ∧
    s.workdir_ino = t.ino ∧ Holds s.workdir (pathText names) := by
  obtain ⟨path, hholds, hcanonical, hresolve⟩ := h
  obtain ⟨t, ht, hino⟩ := Option.map_eq_some_iff.mp hresolve
  exact ⟨_, t, ht, hino.symm, hcanonical.1 ▸ hholds⟩

theorem put_holds (hlen : buf.length = workdirSize) (hbuf : ∃ tail, buf = path ++ tail) (hpath : 0 ∉ path)
    (hs : 0 ∉ s) (hfits : (path ++ s).length < workdirSize) :
    ∃ buf', put buf path.length s = some buf' ∧ Holds buf' (path ++ s) := by
  obtain ⟨tail, rfl⟩ := hbuf
  rw [List.length_append] at hfits
  have hroom : path.length + s.length < (path ++ tail).length := by omega
  refine ⟨(path ++ s) ++ 0 :: (path ++ tail).drop (path.length + s.length + 1), ?_, ?_, by simp [hpath, hs], _, rfl⟩
  · rw [put, if_pos hroom, List.take_left, List.append_assoc]
  · simp only [List.length_append, List.length_cons, List.length_drop] at hlen ⊢
    omega

theorem Holds.strlen (h : Holds buf path) : strlen buf = some path.length := by
  obtain ⟨-, hpath, tail, rfl⟩ := h
  exact strlen_eq hpath tail

theorem strcat_holds (h : Holds buf path) (hs : 0 ∉ s) (hfits : (path ++ s).length < workdirSize) :
    ∃ buf', strcat buf s = some buf' ∧ Holds buf' (path ++ s) := by
  obtain ⟨tail, htail⟩ := h.2.2
  obtain ⟨buf', hput, hholds⟩ := put_holds h.1 ⟨0 :: tail, htail⟩ h.2.1 hs hfits
  refine ⟨buf', ?_, hholds⟩
  rw [strcat, h.strlen]
  exact hput

theorem strcpy_holds (hlen : buf.length = workdirSize) (hs : 0 ∉ s) (hfits : s.length < workdirSize) :
    ∃ buf', strcpy buf s = some buf' ∧ Holds buf' s :=
  @put_holds [] s buf hlen ⟨buf, rfl⟩ (by simp) hs hfits

/-- The loop clears what stands behind the last slash. -/
theorem clearLast_eq (hw : slash ∉ w) : clearLast (x ++ slash :: (w ++ z)) (x.length + w.length) =
    some (if x = [] then slash :: (List.replicate w.length 0 ++ z)
      else x ++ 0 :: (List.replicate w.length 0 ++ z)) := by
  induction w using List.reverseRecOn generalizing z with
  | nil =>
    have hget : (x ++ slash :: z)[x.length]? = some slash := by simp
    rw [List.nil_append, List.length_nil, Nat.add_zero, clearLast.eq_def, hget]
    cases x with
    | nil => simp
    | cons c x => simp
  | append_singleton w c ih =>
    obtain ⟨hc, hw⟩ : c ≠ slash ∧ slash ∉ w := by
      constructor
      · rintro rfl
        exact hw (by simp)
      · exact fun hmem => hw (by simp [hmem])
    have hlen : x.length + (w ++ [c]).length = (x.length + w.length) + 1 := by simp [Nat.add_assoc]
    have hsplit : x ++ slash :: (w ++ [c] ++ z) = (x ++ slash :: w) ++ c :: z := by simp
    have hlen' : (x.length + w.length) + 1 = (x ++ slash :: w).length := by simp [Nat.add_assoc]
    have hget : ((x ++ slash :: w) ++ c :: z)[x.length + w.length + 1]? = some c := by
      rw [hlen']
      simp
    have hset : ((x ++ slash :: w) ++ c :: z).set (x.length + w.length + 1) 0 = x ++ slash :: (w ++ 0 :: z) := by
      rw [hlen', List.set_append_right _ _ le_rfl]
      simp
    rw [hlen, hsplit, clearLast.eq_def, hget]
    dsimp only
    rw [if_neg hc, hset, ih hw]
    have hrep : List.replicate w.length 0 ++ 0 :: z = List.replicate (w ++ [c]).length 0 ++ z := by
      rw [List.length_append, List.length_singleton, List.replicate_succ', List.append_assoc]
      rfl
    rw [hrep]

theorem clearLast_holds (hvalid : ∀ name ∈ names, ValidName name) (h : Holds buf (pathText names)) :
    ∃ buf', clearLast buf (pathText names).length = some buf' ∧ Holds buf' (pathText names.dropLast) := by
  obtain ⟨hlen, -, tail, rfl⟩ := h
  rcases List.eq_nil_or_concat names with rfl | ⟨rest, name, rfl⟩
  · have hclear := @clearLast_eq [0] [] tail (by decide)
    refine ⟨_, hclear, ?_, by decide, tail, rfl⟩
    exact hlen
  · have hname := hvalid name (by simp)
    have hslash : slash ∉ name ++ [0] := by
      simp only [List.mem_append, List.mem_singleton, not_or]
      exact ⟨hname.no_slash, by decide⟩
    have hclear := @clearLast_eq (name ++ [0]) (rest.flatMap (slash :: ·)) tail hslash
    have hbuf : pathText (rest ++ [name]) ++ 0 :: tail =
        rest.flatMap (slash :: ·) ++ slash :: ((name ++ [0]) ++ tail) := by
      rw [pathText_concat]
      simp
    have hindex : (pathText (rest ++ [name])).length = (rest.flatMap (slash :: ·)).length + (name ++ [0]).length := by
      rw [pathText_concat]
      simp [Nat.add_assoc]
    have hrest : ∀ n ∈ rest, ValidName n := fun n hn => hvalid n (by simp [hn])
    rw [List.concat_eq_append] at hlen ⊢
    rw [List.dropLast_concat, hbuf, hindex, hclear]
    rw [hbuf] at hlen
    refine ⟨_, rfl, ?_, zero_notMem_pathText hrest, ?_⟩
    · split
      · next hnil =>
        rw [hnil] at hlen
        simp at hlen ⊢
        omega
      · simp at hlen ⊢
        omega
    · cases rest with
      | nil => exact ⟨List.replicate name.length 0 ++ tail, by simp [pathText, List.replicate_succ]⟩
      | cons n rest => exact ⟨List.replicate (name ++ [0]).length 0 ++ tail, by simp [pathText]⟩

theorem append_holds (tree : DirTree) (hchild : tree.root.find (names ++ [name]) = some t)
    (h : Holds buf (pathText names)) :
    ∃ buf', (do
      let workdir ← if (pathText names).length > 1 then strcat buf [slash] else some buf
      strncat workdir (name ++ [slash]) ((name ++ [slash]).length - 1)) = some buf' ∧
        Holds buf' (pathText (names ++ [name])) := by
  have hvalid := tree.valid hchild
  have hname := hvalid name (by simp)
  have hfits := tree.fits (names ++ [name]) (by rw [hchild]; rfl)
  have htake : (name ++ [slash]).take ((name ++ [slash]).length - 1) = name := by simp
  rw [pathText_concat] at hfits ⊢
  by_cases hnil : names = []
  · subst hnil
    have hlen : ¬(pathText []).length > 1 := by decide
    obtain ⟨buf', hcat, hholds⟩ := strcat_holds h hname.nonzero hfits
    refine ⟨buf', ?_, hholds⟩
    rw [if_neg hlen]
    change strncat buf (name ++ [slash]) _ = _
    rw [strncat, htake, hcat]
  · have hlen : (pathText names).length > 1 := by
      obtain ⟨n, rest, rfl⟩ := List.exists_cons_of_ne_nil hnil
      have hpos := List.length_pos_iff.mpr (hvalid n (by simp)).nonempty
      simp only [pathText, List.flatMap_cons, List.length_append, List.length_cons]
      omega
    rw [pathText_ne hnil] at h
    have hslash : (names.flatMap (slash :: ·) ++ [slash]).length < workdirSize := by
      have hle : (names.flatMap (slash :: ·) ++ [slash]).length ≤ (names.flatMap (slash :: ·) ++ slash :: name).length := by
        simp
      omega
    obtain ⟨mid, hmid, hholds⟩ := strcat_holds h (by decide) hslash
    have hpath : names.flatMap (slash :: ·) ++ [slash] ++ name = names.flatMap (slash :: ·) ++ slash :: name := by simp
    obtain ⟨buf', hcat, hholds'⟩ := strcat_holds hholds hname.nonzero (by rw [hpath]; exact hfits)
    refine ⟨buf', ?_, hpath ▸ hholds'⟩
    rw [if_pos hlen, hmid]
    change strncat mid (name ++ [slash]) _ = _
    rw [strncat, htake, hcat]

theorem cd_home (hserves : Serves dir_lookup tree) (s : WorkDir) (hlen : s.workdir.length = workdirSize) :
    ∃ s', cd dir_lookup s none = some (s', 0) ∧ Agrees tree s' := by
  obtain ⟨yunhao, hyunhao⟩ := Option.isSome_iff_exists.mp tree.home
  have hvalid := tree.valid hyunhao
  have hfind := hyunhao
  rw [Tree.find, Option.bind_eq_some_iff] at hfind
  obtain ⟨home, hhome, hchild⟩ := hfind
  rw [Tree.find, Option.bind_eq_some_iff] at hchild
  obtain ⟨sub, hsub, he⟩ := hchild
  cases he
  have hhome' : tree.root.find [homeName] = some home := by simp [Tree.find, hhome]
  have hfirst := hserves [] tree.root rfl homeName
  have hsecond := hserves [homeName] home hhome' yunhaoName
  rw [entry, if_neg (by decide), if_neg (by decide), hhome, tree.root_ino] at hfirst
  rw [entry, if_neg (by decide), if_neg (by decide), hsub] at hsecond
  obtain ⟨buf, hcpy, hholds⟩ := strcpy_holds hlen (zero_notMem_pathText hvalid) (tree.fits _ tree.home)
  refine ⟨⟨yunhao.ino, buf⟩, ?_, agrees_of_find hyunhao rfl hholds⟩
  change dir_lookup 0 _ = (home.ino : Int) at hfirst
  change dir_lookup home.ino _ = (yunhao.ino : Int) at hsecond
  change strcpy s.workdir homePath = some buf at hcpy
  simp only [cd, hfirst, hsecond, hcpy, Option.bind_eq_bind, Option.bind_some]

theorem argument_eq {arg : Text} (hne : arg ≠ []) : ∃ last name, arg.getLast? = some last ∧
    (if last ≠ slash then arg ++ [slash] else arg) = name ++ [slash] := by
  obtain ⟨name, last, rfl⟩ := (List.eq_nil_or_concat arg).resolve_left hne
  by_cases hlast : last = slash
  · exact ⟨last, name, by simp, by simp [hlast]⟩
  · exact ⟨last, name.concat last, by simp, by simp [hlast]⟩

/-- One command keeps the agreement, and a failing one changes nothing. -/
theorem cd_step (hserves : Serves dir_lookup tree) {s : WorkDir} (h : Agrees tree s) (arg : Option Text)
    (hne : ∀ a, arg = some a → a ≠ []) :
    ∃ s' r, cd dir_lookup s arg = some (s', r) ∧ Agrees tree s' ∧ (r = 0 ∨ s' = s) := by
  cases arg with
  | none =>
    obtain ⟨path, hholds, -⟩ := h
    obtain ⟨s', hcd, hagrees⟩ := cd_home hserves s hholds.1
    exact ⟨s', 0, hcd, hagrees, .inl rfl⟩
  | some arg =>
    obtain ⟨last, name, hlast, harg⟩ := argument_eq (hne arg rfl)
    obtain ⟨names, t, ht, hino, hholds⟩ := h.find
    have hlookup := hserves names t ht name
    rw [← hino] at hlookup
    have hvalid := tree.valid ht
    have hdot : name ++ [slash] = [dot, slash] ↔ name = [dot] := @List.append_left_inj _ name [dot] [slash]
    have hdots : name ++ [slash] = [dot, dot, slash] ↔ name = [dot, dot] :=
      @List.append_left_inj _ name [dot, dot] [slash]
    simp only [cd, hlast, Option.bind_eq_bind, Option.bind_some, harg]
    cases hentry : entry tree.root names t name with
    | none =>
      rw [hentry] at hlookup
      have hfail : dir_lookup s.workdir_ino (name ++ [slash]) = -1 := hlookup
      exact ⟨s, -1, by rw [if_pos hfail], h, .inr rfl⟩
    | some sub =>
      rw [hentry] at hlookup
      have hsub : dir_lookup s.workdir_ino (name ++ [slash]) = (sub.ino : Int) := hlookup
      have hok : ¬(sub.ino : Int) = -1 := by omega
      rw [hsub, if_neg hok]
      by_cases hself : name = [dot]
      · rw [entry, if_pos hself] at hentry
        cases hentry
        refine ⟨_, 0, by rw [if_pos (hdot.mpr hself)], agrees_of_find ht rfl hholds, .inl rfl⟩
      · rw [if_neg (mt hdot.mp hself), hholds.strlen]
        by_cases hparent : name = [dot, dot]
        · rw [entry, if_neg hself, if_pos hparent] at hentry
          obtain ⟨buf, hclear, hholds'⟩ := clearLast_holds hvalid hholds
          refine ⟨⟨sub.ino, buf⟩, 0, ?_, agrees_of_find hentry rfl hholds', .inl rfl⟩
          simp only [Option.bind_some, if_pos (hdots.mpr hparent), hclear]
        · rw [entry, if_neg hself, if_neg hparent] at hentry
          have hchild : tree.root.find (names ++ [name]) = some sub := by
            simp [Tree.find_append, ht, Tree.find, hentry]
          obtain ⟨buf, hcat, hholds'⟩ := append_holds tree hchild hholds
          refine ⟨⟨sub.ino, buf⟩, 0, ?_, agrees_of_find hchild rfl hholds', .inl rfl⟩
          simp only [Option.bind_some, if_neg (mt hdots.mp hparent)]
          by_cases hlong : (pathText names).length > 1
          · simp only [Option.bind_eq_bind, if_pos hlong] at hcat ⊢
            rw [← Option.bind_assoc, hcat]
            rfl
          · simp only [Option.bind_eq_bind, if_neg hlong, Option.bind_some] at hcat ⊢
            rw [hcat]
            rfl

theorem run_agrees (hserves : Serves dir_lookup tree) {s : WorkDir} (h : Agrees tree s) (args : List (Option Text))
    (hargs : ∀ a, some a ∈ args → a ≠ []) : ∃ s', run dir_lookup s args = some s' ∧ Agrees tree s' := by
  induction args generalizing s with
  | nil => exact ⟨s, rfl, h⟩
  | cons arg args ih =>
    obtain ⟨t, r, hcd, hagrees, -⟩ := cd_step hserves h arg fun a ha => hargs a (by simp [ha])
    obtain ⟨s', hrun, hlast⟩ := ih hagrees fun a ha => hargs a (by simp [ha])
    exact ⟨s', by simp [run, hcd, hrun], hlast⟩

/-- From the first cd on, the path of the working directory leads to its inode, and a failing
cd changes neither. -/
theorem cd_keeps_agreement (tree : DirTree) (dir_lookup : Int → Text → Int) (s : WorkDir)
    (args : List (Option Text)) (hserves : Serves dir_lookup tree) (hlen : s.workdir.length = workdirSize)
    (hargs : ∀ a, some a ∈ args → a ≠ []) :
    ∃ s', run dir_lookup s (none :: args) = some s' ∧ Agrees tree s' ∧
      ∀ arg, (∀ a, arg = some a → a ≠ []) →
        ∃ s'' r, cd dir_lookup s' arg = some (s'', r) ∧ (r = 0 ∨ s'' = s') := by
  obtain ⟨t, hcd, hagrees⟩ := cd_home hserves s hlen
  obtain ⟨s', hrun, hlast⟩ := run_agrees hserves hagrees args hargs
  refine ⟨s', by simp [run, hcd, hrun], hlast, fun arg harg => ?_⟩
  obtain ⟨s'', r, hnext, -, hfail⟩ := cd_step hserves hlast arg harg
  exact ⟨s'', r, hnext, hfail⟩

def yunhaoDir : Tree := .node 2 []

def homeDir : Tree := .node 1 [(yunhaoName, yunhaoDir)]

def rootDir : Tree := .node 0 [(homeName, homeDir)]

theorem rootDir_find (h : rootDir.find names = some t) : names = [] ∧ t = rootDir ∨
    names = [homeName] ∧ t = homeDir ∨ names = [homeName, yunhaoName] ∧ t = yunhaoDir := by
  rcases names with _ | ⟨first, _ | ⟨second, _ | ⟨third, names⟩⟩⟩
  · left
    cases h
    exact ⟨rfl, rfl⟩
  all_goals
    simp only [Tree.find, Tree.child, Tree.children, rootDir, List.find?_cons, List.find?_nil] at h
    by_cases hfirst : homeName = first
    all_goals simp [hfirst] at h
  · subst hfirst
    exact .inr (.inl ⟨rfl, h.symm⟩)
  · simp only [homeDir, List.find?_cons, List.find?_nil] at h
    by_cases hsecond : yunhaoName = second
    all_goals simp [hsecond] at h
    exact .inr (.inr ⟨by rw [hfirst, hsecond], h.symm⟩)
  · simp only [homeDir, List.find?_cons, List.find?_nil] at h
    by_cases hsecond : yunhaoName = second
    all_goals simp [hsecond, yunhaoDir] at h

theorem homeName_valid : ValidName homeName := by constructor <;> decide

theorem yunhaoName_valid : ValidName yunhaoName := by constructor <;> decide

def smallTree : DirTree where
  root := rootDir
  root_ino := rfl
  named := by
    intro names t h x hx
    rcases rootDir_find h with ⟨-, rfl⟩ | ⟨-, rfl⟩ | ⟨-, rfl⟩
    · rw [List.mem_singleton.mp hx]
      exact homeName_valid
    · rw [List.mem_singleton.mp hx]
      exact yunhaoName_valid
    · cases hx
  distinct := by
    intro names t h
    rcases rootDir_find h with ⟨-, rfl⟩ | ⟨-, rfl⟩ | ⟨-, rfl⟩
    · exact List.nodup_singleton _
    · exact List.nodup_singleton _
    · exact List.nodup_nil
  home := rfl
  fits := by
    intro names h
    obtain ⟨t, ht⟩ := Option.isSome_iff_exists.mp h
    rcases rootDir_find ht with ⟨rfl, -⟩ | ⟨rfl, -⟩ | ⟨rfl, -⟩ <;> decide

/-- The entries of the three directories. -/
def smallLookup (ino : Int) (name : Text) : Int :=
  if ino = 0 then
    if name = [dot] ++ [slash] then 0 else if name = [dot, dot] ++ [slash] then 0
    else if name = homeName ++ [slash] then 1 else -1
  else if ino = 1 then
    if name = [dot] ++ [slash] then 1 else if name = [dot, dot] ++ [slash] then 0
    else if name = yunhaoName ++ [slash] then 2 else -1
  else if name = [dot] ++ [slash] then 2 else if name = [dot, dot] ++ [slash] then 1 else -1

theorem smallLookup_serves : Serves smallLookup smallTree := by
  intro names t h name
  simp only [smallLookup, List.append_left_inj]
  rcases rootDir_find h with ⟨rfl, rfl⟩ | ⟨rfl, rfl⟩ | ⟨rfl, rfl⟩
  · by_cases hdot : name = [dot]
    · simp [entry, hdot, rootDir, Tree.ino]
    · by_cases hdots : name = [dot, dot]
      · simp [entry, hdots, smallTree, rootDir, Tree.ino, Tree.find]
      · by_cases hchild : homeName = name
        · simp [entry, ← hchild, Tree.child, rootDir, homeDir, Tree.children, Tree.ino]
        · simp [entry, hdot, hdots, hchild, Ne.symm hchild, Tree.child, rootDir, Tree.children, Tree.ino]
  · by_cases hdot : name = [dot]
    · simp [entry, hdot, homeDir, Tree.ino]
    · by_cases hdots : name = [dot, dot]
      · simp [entry, hdots, smallTree, rootDir, homeDir, Tree.ino, Tree.find]
      · by_cases hchild : yunhaoName = name
        · simp [entry, ← hchild, Tree.child, homeDir, yunhaoDir, Tree.children, Tree.ino]
        · simp [entry, hdot, hdots, hchild, Ne.symm hchild, Tree.child, homeDir, Tree.children, Tree.ino]
  · by_cases hdot : name = [dot]
    · simp [entry, hdot, yunhaoDir, Tree.ino]
    · by_cases hdots : name = [dot, dot]
      · simp [entry, hdots, smallTree, rootDir, homeDir, yunhaoDir, Tree.ino, Tree.find, Tree.child, Tree.children]
      · simp [entry, hdot, hdots, Tree.child, yunhaoDir, Tree.children, Tree.ino]

/-- Up to the root, where `..` leads to itself, and down again. -/
theorem cd_keeps_agreement_sample : ∃ s, run smallLookup ⟨0, List.replicate workdirSize 0⟩
    [none, some [dot, dot], some [dot, dot, slash], some [dot, dot], some homeName, some [dot]] = some s ∧
      Agrees smallTree s := by
  obtain ⟨s, hrun, hagrees, -⟩ := cd_keeps_agreement smallTree smallLookup ⟨0, List.replicate workdirSize 0⟩
    [some [dot, dot], some [dot, dot, slash], some [dot, dot], some homeName, some [dot]] smallLookup_serves
    List.length_replicate (by simp)
  exact ⟨s, hrun, hagrees⟩

end OsSuite.ChangeDir
