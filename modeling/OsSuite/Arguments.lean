import OsSuite.ElfImage
import OsSuite.ShellCommand
import OsSuite.Kernel

/-! The words of a command line on their way to `main`. The shell, GPID_PROCESS, the loader and
the kernel each know where the next one looks. -/

namespace OsSuite.Elf

open Earth (Pid Page pageSize)
open Grass (Process Kernel Slot cmdNargs cmdArgLen appsArg appsEntry)
open Apps (ProcRequest Argv AppSpawn words Fits argvOf parseRequest ofMessage appSpawn ampersand)
open CString (Text)

def Space.mem (space : Space) (a : Nat) : UInt8 :=
  match space (a / 4096) with
  | some page => page (Fin.ofNat 4096 a)
  | none => 0

/-- `argc` and `argv` as `app_entry` passes them to `main`. -/
def appEntry (mem : Nat → UInt8) (p : Process) : UInt32 × UInt32 :=
  (Words.load mem (p.savedRegisters 0).toNat, p.savedRegisters 1)

def pointer (mem : Nat → UInt8) (argv : UInt32) (i : Nat) : Nat := (Words.load mem (argv.toNat + 4 * i)).toNat

/-- `main` gets the first `n` words of `T`: each a string in the page of the arguments, behind
the array `argv` and apart from each other. -/
structure Receives (space : Space) (argc argv : UInt32) (T : List Text) (n : Nat) : Prop where
  mapped : space (appsArg / 4096).toNat ≠ none
  count : argc.toInt32.toInt = n
  string : ∀ i t, i < n → T[i]? = some t → CString.At space.mem (pointer space.mem argv i) t
  inPage : ∀ i t j, i < n → T[i]? = some t → j ≤ t.length →
    (pointer space.mem argv i + j) / 4096 = (appsArg / 4096).toNat
  behind : ∀ i < n, argv.toNat + 4 * cmdNargs ≤ pointer space.mem argv i
  apart : ∀ i j t, i < j → j < n → T[i]? = some t →
    pointer space.mem argv i + t.length < pointer space.mem argv j

section ArgsPage

variable {page : Page} {n i : Nat}

theorem storeWords_at (page : Page) (w : Nat → UInt32) (n : Nat) (x : Fin pageSize) :
    (List.range n).foldl (fun page i => storeWord page (4 + 4 * i) (w i)) page x =
      if 4 ≤ x.val ∧ x.val < 4 + 4 * n then Words.byte (w ((x.val - 4) / 4)) ((x.val - 4) % 4) else page x := by
  induction n with
  | zero =>
    rw [if_neg (by omega)]
    rfl
  | succ n ih =>
    rw [List.range_succ, List.foldl_append, List.foldl_cons, List.foldl_nil, storeWord, ih]
    by_cases hlast : 4 + 4 * n ≤ x.val ∧ x.val < 4 + 4 * n + 4
    · have hdiv : (x.val - 4) / 4 = n := by omega
      have hmod : (x.val - 4) % 4 = x.val - (4 + 4 * n) := by omega
      rw [if_pos hlast, if_pos (by omega), hdiv, hmod]
    · rw [if_neg hlast]
      by_cases hin : 4 ≤ x.val ∧ x.val < 4 + 4 * n
      · rw [if_pos hin, if_pos (by omega)]
      · rw [if_neg hin, if_neg (by omega)]

theorem argsPage_count {argv : Option (Fin cmdNargs → Fin cmdArgLen → UInt8)} {x : Fin pageSize}
    (hx : x.val < 4) : argsPage page n argv x = Words.byte (UInt32.ofNat n) x.val := by
  have hword : storeWord page 0 (UInt32.ofNat n) x = Words.byte (UInt32.ofNat n) x.val := by
    rw [storeWord, if_pos (by omega)]
    rfl
  rw [argsPage.eq_def, storeWords_at, if_neg (by omega)]
  cases argv with
  | none => exact hword
  | some argv => exact (dif_neg fun h => absurd (show 68 ≤ x.val from h.1) (by omega)).trans hword

theorem argsPage_pointer {argv : Option (Fin cmdNargs → Fin cmdArgLen → UInt8)} {k : Nat} (hi : i < n)
    (hk : k < 4) {x : Fin pageSize} (hx : x.val = 4 + 4 * i + k) :
    argsPage page n argv x = Words.byte (argAddr i) k := by
  have hdiv : (x.val - 4) / 4 = i := by omega
  have hmod : (x.val - 4) % 4 = k := by omega
  rw [argsPage.eq_def, storeWords_at, if_pos (by omega), hdiv, hmod]

theorem argsPage_row {argv : Fin cmdNargs → Fin cmdArgLen → UInt8} {j : Fin cmdArgLen} {i : Fin cmdNargs}
    (hi : i.val < n) (hn : n ≤ cmdNargs) {x : Fin pageSize} (hx : x.val = 68 + 32 * i.val + j.val) :
    argsPage page n (some argv) x = argv i j := by
  have hj : j.val < 32 := j.isLt
  change n ≤ 16 at hn
  have hrow : (x.val - argsOffset) / cmdArgLen = i.val := by
    change (x.val - 68) / 32 = _
    omega
  have hcol : (x.val - argsOffset) % cmdArgLen = j.val := by
    change (x.val - 68) % 32 = _
    omega
  have hin : argsOffset ≤ x.val ∧ x.val < argsOffset + n * cmdArgLen ∧
      (x.val - argsOffset) / cmdArgLen < cmdNargs := by
    refine ⟨?_, ?_, ?_⟩
    · change 68 ≤ x.val
      omega
    · change x.val < 68 + n * 32
      omega
    · rw [hrow]
      exact i.isLt
  rw [argsPage, storeWords_at, if_neg (by omega)]
  have hrow' : (⟨(x.val - argsOffset) / cmdArgLen, hin.2.2⟩ : Fin cmdNargs) = i := Fin.ext hrow
  have hcol' : (⟨(x.val - argsOffset) % cmdArgLen, Nat.mod_lt _ (by decide)⟩ : Fin cmdArgLen) = j := Fin.ext hcol
  exact (dif_pos hin).trans (congrArg₂ argv hrow' hcol')

theorem argAddr_toNat (hi : i < cmdNargs) : (argAddr i).toNat = 0x80300000 + (68 + 32 * i) := by
  have hall : ∀ i : Fin 16, (argAddr i).toNat = 0x80300000 + (68 + 32 * i.val) := by decide
  exact hall ⟨i, hi⟩

end ArgsPage

section Receives

variable {space : Space} {page : Page} {n : Nat} {T : List Text}

theorem mem_args (h : space (appsArg / 4096).toNat = some page) {x : Nat} (hx : x < pageSize) :
    space.mem (0x80300000 + x) = page ⟨x, hx⟩ := by
  change x < 4096 at hx
  have hpage : (0x80300000 + x) / 4096 = (appsArg / 4096).toNat := by
    change _ = 0x80300
    omega
  have hoffset : Fin.ofNat 4096 (0x80300000 + x) = ⟨x, hx⟩ := by
    apply Fin.ext
    rw [Fin.val_ofNat]
    change _ = x
    omega
  rw [Space.mem, hpage, h]
  exact congrArg page hoffset

theorem load_count {argv : Option Argv} (h : space (appsArg / 4096).toNat = some (argsPage page n argv)) :
    Words.load space.mem appsArg.toNat = UInt32.ofNat n := by
  apply Words.load_bytes
  intro k hk
  have hx : k < pageSize := hk.trans (by decide)
  exact (mem_args h hx).trans (argsPage_count hk)

theorem pointer_eq {argv : Option Argv} (h : space (appsArg / 4096).toNat = some (argsPage page n argv))
    (hn : n ≤ cmdNargs) {i : Nat} (hi : i < n) :
    pointer space.mem (appsArg + 4) i = 0x80300000 + (68 + 32 * i) := by
  have hi' : i < 16 := hi.trans_le hn
  have hload : Words.load space.mem ((appsArg + 4).toNat + 4 * i) = argAddr i := by
    apply Words.load_bytes
    intro k hk
    have hx : 4 + 4 * i + k < pageSize := by
      change _ < 4096
      omega
    have haddr : (appsArg + 4).toNat + 4 * i + k = 0x80300000 + (4 + 4 * i + k) := by
      change 0x80300004 + 4 * i + k = _
      omega
    rw [haddr, mem_args h hx]
    exact argsPage_pointer hi hk rfl
  rw [pointer, hload]
  exact argAddr_toNat hi'

theorem receives_of_page (h : space (appsArg / 4096).toNat = some (argsPage page n (some (argvOf T))))
    (hfits : Fits T) (hn : n ≤ T.length) (hzero : ∀ t ∈ T, 0 ∉ t) :
    Receives space (Words.load space.mem appsArg.toNat) (appsArg + 4) T n := by
  have hle : n ≤ cmdNargs := hn.trans hfits.1
  have hshort {i : Nat} {t : Text} (ht : T[i]? = some t) : t.length < 32 :=
    hfits.2 t (List.mem_of_getElem? ht)
  constructor
  · rw [h]
    exact Option.some_ne_none _
  · rw [load_count h]
    have hall : ∀ n : Fin 17, (UInt32.ofNat n.val).toInt32.toInt = n.val := by decide
    exact hall ⟨n, Nat.lt_succ_of_le hle⟩
  · intro i t hi ht
    have hi' : i < 16 := hi.trans_le hle
    have hlen := hshort ht
    have hbyte (j : Nat) (hj : j < 32) : space.mem (0x80300000 + (68 + 32 * i) + j) = t.getD j 0 := by
      have hx : 68 + 32 * i + j < pageSize := by
        change _ < 4096
        omega
      have hword : T.getD i [] = t := by
        rw [List.getD_eq_getElem?_getD, ht]
        rfl
      have hrow : argvOf T ⟨i, hi'⟩ ⟨j, hj⟩ = t.getD j 0 := congrArg (fun t => t.getD j 0) hword
      rw [Nat.add_assoc, mem_args h hx, ← hrow]
      exact argsPage_row hi hle rfl
    rw [pointer_eq h hle hi]
    refine ⟨fun j hj => ?_, ?_, hzero t (List.mem_of_getElem? ht)⟩
    · rw [hbyte j (hj.trans hlen)]
      exact List.getD_eq_getElem t 0 hj
    · rw [hbyte t.length hlen]
      exact List.getD_eq_default t 0 le_rfl
  · intro i t j hi ht hj
    have hlen := hshort ht
    have hi' : i < 16 := hi.trans_le hle
    rw [pointer_eq h hle hi]
    change _ = 0x80300
    omega
  · intro i hi
    rw [pointer_eq h hle hi]
    change 0x80300004 + 4 * 16 ≤ _
    omega
  · intro i j t hij hj ht
    have hlen := hshort ht
    rw [pointer_eq h hle (hij.trans hj), pointer_eq h hle hj]
    omega

end Receives

/-- A process that has not run yet starts at its entry, with the addresses of its arguments. -/
theorem dispatch_enters {k : Kernel} {i : Slot} (currentTime : UInt64) (hready : (k.procSet i).status = .ready) :
    ((k.dispatch currentTime i).procSet i).savedRegisters 0 = appsArg ∧
      ((k.dispatch currentTime i).procSet i).savedRegisters 1 = appsArg + 4 ∧
      ((k.dispatch currentTime i).procSet i).mepc = appsEntry := by
  let p := ((k.procSet i).stamp currentTime).enter
  have hp : p.savedRegisters 0 = appsArg ∧ p.savedRegisters 1 = appsArg + 4 ∧ p.mepc = appsEntry := by
    have henter : p = _ := if_pos hready
    rw [henter]
    exact ⟨rfl, rfl, rfl⟩
  have hslot {k' : Kernel} (hk' : k'.procSet i = p) (q : Pid) :
      ((k'.procSetRunning q).procSet i).savedRegisters = p.savedRegisters ∧
        ((k'.procSetRunning q).procSet i).mepc = p.mepc := by
    dsimp only [Kernel.procSetRunning, Kernel.procSetStatus]
    split
    · rw [hk']
      exact ⟨rfl, rfl⟩
    · rw [hk']
      exact ⟨rfl, rfl⟩
  obtain ⟨hregisters, hmepc⟩ := hslot (Kernel.set_self _ i p) ((k.procSet i).stamp currentTime).pid
  refine ⟨?_, ?_, hmepc.trans hp.2.2⟩
  · exact (congrFun hregisters 0).trans hp.1
  · exact (congrFun hregisters 1).trans hp.2.1

section Words

variable {line : Text} {T : List Text} {type : UInt32}

theorem lastArg_argvOf (hfits : Fits T) (hne : T ≠ []) :
    (ProcRequest.mk type (Int32.ofNat T.length) (argvOf T)).lastArg = some ((T.getLast hne).getD 0 0) := by
  have hpos := List.length_pos_of_ne_nil hne
  have hargc := Apps.toInt_argc hfits
  have hlen : T.length ≤ 16 := hfits.1
  rw [ProcRequest.lastArg, dif_pos (by rw [hargc]; exact ⟨by omega, Int.ofNat_le.mpr hlen⟩)]
  have hidx : ((Int32.ofNat T.length).toInt - 1).toNat = T.length - 1 := by omega
  have hlast : T.getD ((Int32.ofNat T.length).toInt - 1).toNat [] = T.getLast hne := by
    rw [hidx, List.getLast_eq_getElem, List.getD_eq_getElem]
  exact congrArg (fun t : Text => some (t.getD 0 0)) hlast

theorem starts_with_iff (t : Text) (c : UInt8) (hc : c ≠ 0) : t.getD 0 0 = c ↔ t.head? = some c := by
  cases t with
  | nil => exact iff_of_false (Ne.symm hc) nofun
  | cons b t => exact (Option.some_inj).symm

theorem argc_pred (hfits : Fits T) (hne : T ≠ []) : (Int32.ofNat T.length - 1).toInt = (T.length : Int) - 1 := by
  have hall : ∀ n : Fin 16, (Int32.ofNat (n.val + 1) - 1).toInt = n.val := by decide
  have hpos := List.length_pos_of_ne_nil hne
  have hlen : T.length ≤ 16 := hfits.1
  obtain ⟨n, hn⟩ := Nat.exists_eq_succ_of_ne_zero hpos.ne'
  have hlt : n < 16 := by omega
  rw [hn]
  refine (hall ⟨n, hlt⟩).trans ?_
  change (n : Int) = ((n + 1 : Nat) : Int) - 1
  omega

end Words

/-- The words of every line that is accepted arrive at `main` of the program that the first one
names. The last one is left out if and only if it starts with an ampersand. -/
theorem arguments_arrive {line : Text} {req₀ req : ProcRequest} {lookup : Text → Int} {file : Int → Reader}
    {t : Translation} {m : Pool} {k : Kernel} {i : Slot} (hzero : 0 ∉ line)
    (hparse : parseRequest line req₀ = some (0, req)) (hwords : words line ≠ [])
    (hexists : 0 ≤ lookup ((words line).head hwords))
    (hl : Linked (file (lookup ((words line).head hwords)))) (hm : Pageless (k.procSet i).pid m)
    (hready : (k.procSet i).status = .ready) (old : Grass.Content) (currentTime : UInt64) :
    ∃ argc, appSpawn lookup (ofMessage (req.message old)) =
        some (.load (lookup ((words line).head hwords)) argc) ∧
      argc.toInt = ((words line).length : Int) -
        (if ((words line).getLast hwords).head? = some ampersand then 1 else 0) ∧
      ∀ m', elfLoad t (k.procSet i).pid (file (lookup ((words line).head hwords))) argc
          (some (ofMessage (req.message old)).argv) m = .ok m' →
        let p := (k.dispatch currentTime i).procSet i
        p.savedRegisters 0 = appsArg ∧ p.savedRegisters 1 = appsArg + 4 ∧ p.mepc = appsEntry ∧
          ∃ space, Represents (k.procSet i).pid m' space ∧
            Receives space (appEntry space.mem p).1 (appEntry space.mem p).2 (words line) argc.toInt.toNat := by
  obtain ⟨code, req', hreq, hparses⟩ := Apps.parseRequest_parses line req₀
  rw [hparse] at hreq
  cases hparses with
  | rejected argv =>
    have hcode : (0 : Int) = -1 := (Prod.ext_iff.mp (Option.some.inj hreq)).1
    exact absurd hcode (by decide)
  | accepted hfits =>
    cases hreq
    rw [Apps.ofMessage_message]
    have hpos := List.length_pos_of_ne_nil hwords
    let request : ProcRequest := ⟨req₀.type, Int32.ofNat (words line).length, argvOf (words line)⟩
    have hname : request.name = (words line).head hwords := by
      rw [List.head_eq_getElem]
      exact Apps.rowText_argvOf hfits hzero (i := ⟨0, by decide⟩) hpos
    have hlast : request.lastArg = some (((words line).getLast hwords).getD 0 0) := lastArg_argvOf hfits hwords
    let argc := if ((words line).getLast hwords).getD 0 0 = ampersand then request.argc - 1 else request.argc
    have hspawn : appSpawn lookup request = some (.load (lookup ((words line).head hwords)) argc) := by
      rw [appSpawn, hname, if_neg (not_lt.mpr hexists), hlast]
    have hargc : argc.toInt = ((words line).length : Int) -
        (if ((words line).getLast hwords).head? = some ampersand then 1 else 0) := by
      have hiff := starts_with_iff ((words line).getLast hwords) ampersand (by decide)
      by_cases hamp : ((words line).getLast hwords).getD 0 0 = ampersand
      · have hpred : argc = Int32.ofNat (words line).length - 1 := if_pos hamp
        rw [hpred, if_pos (hiff.mp hamp)]
        exact argc_pred hfits hwords
      · have hall : argc = Int32.ofNat (words line).length := if_neg hamp
        rw [hall, if_neg fun h => hamp (hiff.mpr h), Int.sub_zero]
        exact Apps.toInt_argc hfits
    refine ⟨argc, hspawn, hargc, fun m' hload => ?_⟩
    have hbound : 0 ≤ argc.toInt ∧ argc.toInt ≤ (words line).length := by
      rw [hargc]
      split <;> omega
    have hlen : (words line).length ≤ 16 := hfits.1
    have hin : 0 ≤ argc.toInt ∧ argc.toInt ≤ cmdNargs :=
      ⟨hbound.1, hbound.2.trans (Int.ofNat_le.mpr hlen)⟩
    obtain ⟨space, page, hrep, -, hpage⟩ := (elfLoad_built hl hm hin).of_ok hload
    obtain ⟨ha0, ha1, hmepc⟩ := dispatch_enters currentTime hready
    refine ⟨ha0, ha1, hmepc, space, hrep, ?_⟩
    rw [appEntry, ha0, ha1]
    refine receives_of_page hpage hfits (by omega) fun t ht h => ?_
    exact hzero (Tokens.mem_of_mem_tokens ht h)

/-- `ls -l &`. -/
def listing : Text := [108, 115, 32, 45, 108, 32, 38]

theorem words_listing : words listing = [[108, 115], [45, 108], [38]] := by decide +kernel

theorem arguments_arrive_listing : ∃ m' p space, elfLoad .softTlb 5 (oneSegment data) 2
      (some (argvOf (words listing))) noPages = .ok m' ∧ Represents 5 m' space ∧
    Receives space (appEntry space.mem p).1 (appEntry space.mem p).2 [[108, 115], [45, 108], [38]] 2 := by
  let k : Kernel := (Kernel.zero fun _ => Earth.PageInfo.zero).set 5 { Process.zero with status := .ready, pid := 5 }
  have hslot : k.procSet 5 = { Process.zero with status := .ready, pid := 5 } := Kernel.set_self _ _ _
  have hpid : (k.procSet 5).pid = 5 := congrArg Process.pid hslot
  obtain ⟨req, hparse, hreq⟩ : ∃ req, parseRequest listing ⟨1, 0, fun _ _ => 0⟩ = some (0, req) ∧
      req.argv = argvOf (words listing) := by
    obtain ⟨code, req, hparse, hparses⟩ := Apps.parseRequest_parses listing ⟨1, 0, fun _ _ => 0⟩
    cases hparses with
    | accepted => exact ⟨_, hparse, rfl⟩
    | rejected argv h =>
      rw [words_listing] at h
      exact absurd (h (by decide)).1 (by decide)
  have hne : words listing ≠ [] := by
    rw [words_listing]
    exact List.cons_ne_nil _ _
  have hl : Linked (oneSegment data) := oneSegment_linked ⟨by decide, by decide, by decide, by decide⟩
    (by unfold Segment.Covers; decide)
  obtain ⟨argc, -, hargc, harrive⟩ := @arguments_arrive listing _ req (fun _ => 7) (fun _ => oneSegment data)
    .softTlb noPages k 5 (by decide) hparse hne (by decide) hl (noPages_pageless _)
    (congrArg Process.status hslot) (fun _ => 0) 0
  have htwo : argc = 2 := by
    apply Int32.toInt_inj.mp
    rw [hargc]
    simp only [words_listing]
    rfl
  subst htwo
  rw [Apps.ofMessage_message, hreq, hpid] at harrive
  have hsmall : ¬TooLarge .softTlb 5 := fun h => nomatch h.1
  obtain ⟨m', hload, -⟩ := @elfLoad_ok .softTlb 5 (oneSegment data) noPages 2 (some (argvOf (words listing)))
    hl (noPages_pageless 5) (by decide) (oneSegment_room (by decide)) hsmall
  obtain ⟨-, -, -, space, hrep, hreceives⟩ := harrive m' hload
  rw [words_listing] at hreceives
  exact ⟨m', _, space, hload, hrep, hreceives⟩

end OsSuite.Elf
