import OsSuite.ElfSegment
import OsSuite.PageOwnership

/-! The image that `elf_load` makes of a file, one segment after another, and when it is the whole
image. -/

namespace OsSuite.Elf

open Earth (Pid Page PageId)
open Grass (cmdNargs cmdArgLen appsArg)

def Loads (reader : Reader) (i : Nat) : Prop :=
  i < (phnum (reader 0)).toNat ∧ ramStart ≤ (headerOf (reader 0) i).vaddr

instance (reader : Reader) (i : Nat) : Decidable (Loads reader i) := inferInstanceAs (Decidable (_ ∧ _))

/-- The virtual pages of the arguments, of system calls and of the stack. -/
def ownPages : List Nat := [0x80300, 0x80301, 0x803FF, 0x803FE]

/-- A file as the linker produces it: the segments share no page with each other or with the
pages that the loader adds. -/
structure Linked (reader : Reader) : Prop where
  headers : ∀ i < (phnum (reader 0)).toNat, headerAt (reader 0) i + 32 ≤ 512
  segments : ∀ i, Loads reader i → (headerOf (reader 0) i).Linked
  disjoint : ∀ i j v, Loads reader i → Loads reader j → (headerOf (reader 0) i).Covers v →
    (headerOf (reader 0) j).Covers v → i = j
  own : ∀ i v, Loads reader i → (headerOf (reader 0) i).Covers v → v ∉ ownPages

/-- The memory with the segments of the first `n` headers. -/
def image (reader : Reader) : Nat → Space
  | 0 => fun _ => none
  | n + 1 =>
    let seg := headerOf (reader 0) n
    if Loads reader n then (image reader n).put seg.first seg.npages (seg.page reader) else image reader n

def imagePages (reader : Reader) (n : Nat) : Nat :=
  ∑ i ∈ Finset.range n, if Loads reader i then (headerOf (reader 0) i).npages else 0

def Pageless (pid : Pid) (m : Pool) : Prop := ∀ i, (m.table i).use = true → (m.table i).pid ≠ pid

section Image

variable {t : Translation} {pid : Pid} {reader : Reader} {m : Pool} {n i v : Nat}

theorem image_succ (h : Loads reader n) : image reader (n + 1) = (image reader n).put
    (headerOf (reader 0) n).first (headerOf (reader 0) n).npages ((headerOf (reader 0) n).page reader) :=
  if_pos h

theorem image_skip (h : ¬Loads reader n) : image reader (n + 1) = image reader n := if_neg h

theorem covers_of_npages {seg : Segment} (hlinked : seg.Linked)
    (hv : seg.first ≤ v ∧ v < seg.first + seg.npages) : seg.Covers v :=
  ⟨hv.1, hv.2.trans_le (Nat.add_le_add_left (npages_le hlinked) _)⟩

theorem image_none
    (hv : ∀ i < n, Loads reader i →
      ¬((headerOf (reader 0) i).first ≤ v ∧ v < (headerOf (reader 0) i).first + (headerOf (reader 0) i).npages)) :
    image reader n v = none := by
  induction n with
  | zero => rfl
  | succ n ih =>
    have hbefore := ih fun i hi => hv i (Nat.lt_succ_of_lt hi)
    by_cases hn : Loads reader n
    · rw [image_succ hn, put_outside (hv n (Nat.lt_succ_self n) hn)]
      exact hbefore
    · rw [image_skip hn]
      exact hbefore

theorem image_page (hl : Linked reader) (hi : Loads reader i) (hn : i < n) {q : Nat}
    (hq : q < (headerOf (reader 0) i).npages) :
    image reader n ((headerOf (reader 0) i).first + q) = some ((headerOf (reader 0) i).page reader q) := by
  induction n with
  | zero => cases hn
  | succ n ih =>
    by_cases hlast : i = n
    · subst hlast
      rw [image_succ hi, put_at hq]
    · have hbefore := ih (by omega)
      by_cases hload : Loads reader n
      · rw [image_succ hload, put_outside]
        · exact hbefore
        · intro hv
          have hcovers := covers_of_npages (hl.segments n hload) hv
          refine hlast (hl.disjoint i n _ hi hload ?_ hcovers)
          exact covers_of_npages (hl.segments i hi) ⟨Nat.le_add_right _ _, by omega⟩
      · rw [image_skip hload]
        exact hbefore

theorem imagePages_succ : imagePages reader (n + 1) = imagePages reader n +
    if Loads reader n then (headerOf (reader 0) n).npages else 0 := Finset.sum_range_succ _ _

theorem imagePages_mono {n' : Nat} (h : n ≤ n') : imagePages reader n ≤ imagePages reader n' :=
  Finset.sum_le_sum_of_subset (Finset.range_subset_range.mpr h)

theorem represents_empty (h : Pageless pid m) : Represents pid m fun _ => none := by
  refine ⟨fun i v hi => ?_, fun v page hv => ?_, fun i j v hi _ => ?_⟩
  · exact absurd hi.2.1 (h i hi.1)
  · cases hv
  · exact absurd hi.2.1 (h i hi.1)

theorem segments_loaded (hl : Linked reader) (hm : Pageless pid m) :
    Sat ((List.range (phnum (reader 0)).toNat).foldlM (fun m i => do
      let seg ← pheader (reader 0) i
      loadSegment t pid reader m seg) m)
      (fun m' => Represents pid m' (image reader (phnum (reader 0)).toNat) ∧
        m'.free + imagePages reader (phnum (reader 0)).toNat = m.free)
      fun _ => Stuck t pid m (imagePages reader (phnum (reader 0)).toNat) := by
  have hround (n : Nat) (hn : n < (phnum (reader 0)).toNat) (m' : Pool)
      (hm' : Represents pid m' (image reader n) ∧ m'.free + imagePages reader n = m.free) :
      Sat (do
        let seg ← pheader (reader 0) n
        loadSegment t pid reader m' seg)
      (fun m'' => Represents pid m'' (image reader (n + 1)) ∧ m''.free + imagePages reader (n + 1) = m.free)
      fun _ => Stuck t pid m (imagePages reader (phnum (reader 0)).toNat) := by
    obtain ⟨hrep, hroom⟩ := hm'
    rw [pheader, if_pos (hl.headers n hn), imagePages_succ]
    change Sat (loadSegment t pid reader m' (headerOf (reader 0) n)) _ _
    by_cases hload : Loads reader n
    · have hfree (v : Nat) (hv : (headerOf (reader 0) n).Covers v) : image reader n v = none := by
        refine image_none fun i hi hiload hiv => ?_
        have hin := hl.disjoint i n v hiload hload (covers_of_npages (hl.segments i hiload) hiv) hv
        exact absurd hin hi.ne
      rw [image_succ hload, if_pos hload]
      refine (loadSegment_put hrep (hl.segments n hload) (UInt32.not_lt.mpr hload.2) hfree).imp
        (fun m'' h => ⟨h.1, ?_⟩) fun _ hstuck => ?_
      · have hroom' := h.2
        omega
      · refine hstuck.of_le hroom ?_
        have hmono : imagePages reader (n + 1) ≤ imagePages reader (phnum (reader 0)).toNat := imagePages_mono hn
        rw [imagePages_succ, if_pos hload] at hmono
        omega
    · have hskip : (headerOf (reader 0) n).vaddr < ramStart := by
        by_contra hge
        exact hload ⟨hn, UInt32.not_lt.mp hge⟩
      rw [image_skip hload, if_neg hload, loadSegment, if_pos hskip]
      exact ⟨hrep, hroom⟩
  exact sat_range ⟨represents_empty hm, Nat.add_zero m.free⟩ hround

/-- What `elf_load` makes of a file: its image, with the arguments in a page of their own. -/
def Built (pid : Pid) (reader : Reader) (argc : Nat) (argv : Option (Fin cmdNargs → Fin cmdArgLen → UInt8))
    (m : Pool) : Prop :=
  ∃ space page, Represents pid m space ∧
    (∀ v, v ∉ ownPages → space v = image reader (phnum (reader 0)).toNat v) ∧
    space (appsArg / 4096).toNat = some (argsPage page argc argv)

theorem elfLoad_built {argc : Int32} {argv : Option (Fin cmdNargs → Fin cmdArgLen → UInt8)}
    (hl : Linked reader) (hm : Pageless pid m) (hargc : 0 ≤ argc.toInt ∧ argc.toInt ≤ cmdNargs) :
    Sat (elfLoad t pid reader argc argv m) (Built pid reader argc.toInt.toNat argv)
      fun _ => Stuck t pid m (imagePages reader (phnum (reader 0)).toNat + 4) := by
  have hown (v : Nat) (hv : v ∈ ownPages) : image reader (phnum (reader 0)).toNat v = none :=
    image_none fun i _ hi hiv => hl.own i v hi (covers_of_npages (hl.segments i hi) hiv) hv
  unfold elfLoad
  rw [sat_bind]
  refine (segments_loaded hl hm).imp (fun m₀ h₀ => ?_) fun _ hstuck =>
    hstuck.of_le (Nat.add_zero m.free) (Nat.le_add_right _ _)
  obtain ⟨hrep₀, hroom₀⟩ := h₀
  rw [sat_bind]
  refine (allocMap_added hrep₀ (hown _ (by decide))).imp (fun r₁ h₁ => ?_) fun _ hstuck =>
    hstuck.of_le hroom₀ (by omega)
  have hroom₁ := h₁.room
  dsimp only
  rw [if_neg (by omega)]
  let args := argsPage (r₁.2.pages r₁.1) argc.toInt.toNat argv
  let space₁ := Function.update (image reader (phnum (reader 0)).toNat) (appsArg / 4096).toNat (some args)
  have hrep₁ : Represents pid (r₁.2.setPage r₁.1 args) space₁ := by
    have hrep := h₁.rep.setPage h₁.mapped args
    rwa [Function.update_idem] at hrep
  have hfree₁ (v : Nat) (hv : v ∈ ownPages) (hne : v ≠ (appsArg / 4096).toNat) : space₁ v = none := by
    exact (Function.update_of_ne hne _ _).trans (hown v hv)
  have hsum₁ : (r₁.2.setPage r₁.1 args).free + (imagePages reader (phnum (reader 0)).toNat + 1) = m.free := by
    rw [free_setPage]
    omega
  rw [sat_bind]
  refine (allocMap_added hrep₁ (hfree₁ _ (by decide) (by decide))).imp (fun r₂ h₂ => ?_) fun _ hstuck =>
    hstuck.of_le hsum₁ (by omega)
  have hroom₂ := h₂.room
  have hsum₂ : r₂.2.free + (imagePages reader (phnum (reader 0)).toNat + 2) = m.free := by omega
  have hfree₂ (v : Nat) (hv : v ∈ ownPages) (hne : v ≠ (appsArg / 4096).toNat)
      (hne' : v ≠ (syscallArg / 4096).toNat) (page : Page) :
      Function.update space₁ (syscallArg / 4096).toNat (some page) v = none := by
    exact (Function.update_of_ne hne' _ _).trans (hfree₁ v hv hne)
  rw [sat_bind]
  refine (allocMap_added h₂.rep (hfree₂ _ (by decide) (by decide) (by decide) _)).imp (fun r₃ h₃ => ?_)
    fun _ hstuck => hstuck.of_le hsum₂ (by omega)
  have hroom₃ := h₃.room
  have hsum₃ : r₃.2.free + (imagePages reader (phnum (reader 0)).toNat + 3) = m.free := by omega
  rw [sat_bind]
  refine (allocMap_added h₃.rep ?_).imp (fun r₄ h₄ => ?_) fun _ hstuck => hstuck.of_le hsum₃ (by omega)
  · rw [Function.update_of_ne (by decide)]
    exact hfree₂ _ (by decide) (by decide) (by decide) _
  · refine ⟨_, r₁.2.pages r₁.1, h₄.rep, fun v hv => ?_, ?_⟩
    · have hne (w : Nat) (hw : w ∈ ownPages) : v ≠ w := by
        rintro rfl
        exact hv hw
      rw [Function.update_of_ne (hne _ (by decide)), Function.update_of_ne (hne _ (by decide)),
        Function.update_of_ne (hne _ (by decide))]
      exact Function.update_of_ne (hne _ (by decide)) _ _
    · rw [Function.update_of_ne (by decide), Function.update_of_ne (by decide),
        Function.update_of_ne (by decide)]
      exact Function.update_self _ _ _

theorem allocMap_small {vpageNo : UInt32} :
    Sat (m.allocMap t pid vpageNo) (fun _ => ¬TooLarge t pid) fun _ => True := by
  cases halloc : m.allocMap t pid vpageNo with
  | error e => exact trivial
  | ok r =>
    intro hlarge
    unfold Pool.allocMap Pool.mmuAlloc Pool.mmuMap at halloc
    cases hpage : Earth.allocPage m.table with
    | error e =>
      rw [hpage] at halloc
      cases halloc
    | ok r =>
      rw [hpage] at halloc
      dsimp only [bind, Except.bind] at halloc
      rw [if_pos (show t = .pageTable ∧ pid ≥ 256 from hlarge)] at halloc
      cases halloc

theorem elfLoad_small {argc : Int32} {argv : Option (Fin cmdNargs → Fin cmdArgLen → UInt8)} {m' : Pool}
    (h : elfLoad t pid reader argc argv m = .ok m') : ¬TooLarge t pid := by
  have hsat : Sat (elfLoad t pid reader argc argv m) (fun _ => ¬TooLarge t pid) fun _ => True := by
    have hsegments (r : Except Stop Pool) : Sat r (fun _ => True) fun _ => True := by
      cases r <;> exact trivial
    unfold elfLoad
    rw [sat_bind]
    refine (hsegments _).imp (fun m₀ _ => ?_) fun _ h => h
    rw [sat_bind]
    refine allocMap_small.imp (fun r₁ hsmall => ?_) fun _ h => h
    dsimp only
    split
    · exact trivial
    · rw [sat_bind]
      refine allocMap_small.imp (fun r₂ _ => ?_) fun _ h => h
      rw [sat_bind]
      refine allocMap_small.imp (fun r₃ _ => ?_) fun _ h => h
      rw [sat_bind]
      exact allocMap_small.imp (fun r₄ _ => hsmall) fun _ h => h
  exact hsat.of_ok h

end Image

/-- The loader gives the segment all of its pages: the file reaches the last one, or the last one
is full and the address behind it exists. -/
def Segment.Whole (seg : Segment) : Prop :=
  pagesOf seg.filesz.toNat = pagesOf seg.memsz.toNat ∨
    seg.memsz.toNat % 4096 = 0 ∧ seg.vaddr.toNat + seg.memsz.toNat < 2 ^ 32

theorem npages_eq_iff {seg : Segment} (hlinked : seg.Linked) :
    seg.npages = pagesOf seg.memsz.toNat ↔ seg.Whole := by
  obtain ⟨hvaddr, -, hle, hnoWrap⟩ := hlinked
  have hend : ((seg.vaddr + seg.memsz) / 4096).toNat = (seg.vaddr + seg.memsz).toNat / 4096 :=
    UInt32.toNat_div _ _
  rw [Segment.npages, Segment.Whole, hend, UInt32.toNat_add, Segment.first, pagesOf, pagesOf]
  have hlt := seg.vaddr.toNat_lt
  rcases Nat.lt_or_ge (seg.vaddr.toNat + seg.memsz.toNat) (2 ^ 32) with hin | htop
  · rw [Nat.mod_eq_of_lt hin]
    omega
  · have htop' : seg.vaddr.toNat + seg.memsz.toNat = 2 ^ 32 := le_antisymm hnoWrap htop
    rw [htop', Nat.mod_self]
    omega

def Segment.byte (seg : Segment) (reader : Reader) (n : Nat) : UInt8 :=
  if n < seg.filesz.toNat then fileByte reader (seg.offset.toNat + n) else 0

/-- The whole image is in the memory of the process, at one page for each virtual page. -/
structure Materialised (pid : Pid) (reader : Reader) (m : Pool) : Prop where
  bytes : ∀ i, Loads reader i → ∀ n < (headerOf (reader 0) i).memsz.toNat, ∃ j,
    m.Mapped pid j (((headerOf (reader 0) i).vaddr.toNat + n) / 4096) ∧
      m.pages j (Fin.ofNat 4096 ((headerOf (reader 0) i).vaddr.toNat + n)) =
        (headerOf (reader 0) i).byte reader n
  single : ∀ j j' v, m.Mapped pid j v → m.Mapped pid j' v → j = j'

def segmentPages (reader : Reader) : Nat := ∑ i ∈ Finset.range (phnum (reader 0)).toNat,
  if Loads reader i then pagesOf (headerOf (reader 0) i).memsz.toNat else 0

section Main

variable {t : Translation} {pid : Pid} {reader : Reader} {m : Pool} {argc : Int32}
  {argv : Option (Fin cmdNargs → Fin cmdArgLen → UInt8)}

theorem imagePages_le (hl : Linked reader) : imagePages reader (phnum (reader 0)).toNat ≤ segmentPages reader := by
  refine Finset.sum_le_sum fun i _ => ?_
  split
  · rename_i hload
    exact npages_le (hl.segments i hload)
  · exact le_rfl

theorem Built.segment {k : Nat} (hl : Linked reader) (hb : Built pid reader k argv m) {i : Nat}
    (hi : Loads reader i) {n : Nat} (hn : n / 4096 < (headerOf (reader 0) i).npages) : ∃ j,
      m.Mapped pid j (((headerOf (reader 0) i).vaddr.toNat + n) / 4096) ∧
        m.pages j (Fin.ofNat 4096 ((headerOf (reader 0) i).vaddr.toNat + n)) =
          (headerOf (reader 0) i).byte reader n := by
  obtain ⟨space, -, hrep, hspace, -⟩ := hb
  have hlinked := hl.segments i hi
  have hvaddr := hlinked.vaddr
  have hv : ((headerOf (reader 0) i).vaddr.toNat + n) / 4096 =
      (headerOf (reader 0) i).first + n / 4096 := by
    rw [Segment.first]
    omega
  have hpage : space (((headerOf (reader 0) i).vaddr.toNat + n) / 4096) =
      some ((headerOf (reader 0) i).page reader (n / 4096)) := by
    rw [hv, hspace, image_page hl hi hi.1 hn]
    refine hl.own i _ hi (covers_of_npages hlinked ⟨Nat.le_add_right _ _, ?_⟩)
    exact Nat.add_lt_add_left hn _
  obtain ⟨j, hj⟩ := hrep.backed _ _ hpage
  refine ⟨j, hj, ?_⟩
  have hx : 4096 * (n / 4096) + ((headerOf (reader 0) i).vaddr.toNat + n) % 4096 = n := by omega
  rw [hrep.page hj hpage, Segment.page, Segment.filled, Segment.byte, Fin.val_ofNat, hx]

theorem Built.left_out {k : Nat} (hl : Linked reader) (hb : Built pid reader k argv m) {i v : Nat}
    (hi : Loads reader i) (hv : (headerOf (reader 0) i).Covers v)
    (hout : (headerOf (reader 0) i).first + (headerOf (reader 0) i).npages ≤ v) (j : PageId) :
    ¬m.Mapped pid j v := by
  intro hj
  obtain ⟨space, -, hrep, hspace, -⟩ := hb
  have hnone : image reader (phnum (reader 0)).toNat v = none := by
    refine image_none fun i' _ hi' hin => ?_
    obtain rfl := hl.disjoint i i' v hi hi' hv (covers_of_npages (hl.segments i' hi') hin)
    exact absurd hin.2 (not_lt.mpr hout)
  have hsome := hrep.mapped j v hj
  rw [hspace v (hl.own i v hi hv), hnone] at hsome
  cases hsome

/-- With enough pages and a pid that `mmu_map` takes, the loader comes to its end. -/
theorem elfLoad_ok (hl : Linked reader) (hm : Pageless pid m) (hargc : 0 ≤ argc.toInt ∧ argc.toInt ≤ cmdNargs)
    (hroom : segmentPages reader + 4 ≤ m.free) (hsmall : ¬TooLarge t pid) :
    ∃ m', elfLoad t pid reader argc argv m = .ok m' ∧ Built pid reader argc.toInt.toNat argv m' := by
  have hbuilt : Sat (elfLoad t pid reader argc argv m) _ _ := elfLoad_built hl hm hargc
  cases hload : elfLoad t pid reader argc argv m with
  | error e =>
    have hpages := imagePages_le hl
    rcases hbuilt.of_error hload with hlarge | hfree
    · exact absurd hlarge hsmall
    · omega
  | ok m' => exact ⟨m', rfl, hbuilt.of_ok hload⟩

/-- For every file as the linker produces it, `elf_load` puts the whole image into memory if and
only if `mmu_map` takes the pid and no segment ends within a page that its part of the file does
not reach. -/
theorem elf_load_materialises_iff (hl : Linked reader) (hm : Pageless pid m)
    (hargc : 0 ≤ argc.toInt ∧ argc.toInt ≤ cmdNargs) (hroom : segmentPages reader + 4 ≤ m.free) :
    (∃ m', elfLoad t pid reader argc argv m = .ok m' ∧ Materialised pid reader m') ↔
      ¬TooLarge t pid ∧ ∀ i, Loads reader i → (headerOf (reader 0) i).Whole := by
  constructor
  · rintro ⟨m', hload, hmat⟩
    refine ⟨elfLoad_small hload, fun i hi => ?_⟩
    have hb := (elfLoad_built hl hm hargc).of_ok hload
    have hlinked := hl.segments i hi
    have hle := npages_le hlinked
    by_contra hnot
    have hlt : (headerOf (reader 0) i).npages < pagesOf (headerOf (reader 0) i).memsz.toNat :=
      lt_of_le_of_ne hle fun he => hnot ((npages_eq_iff hlinked).mp he)
    have hn : 4096 * (headerOf (reader 0) i).npages < (headerOf (reader 0) i).memsz.toNat := by
      rw [pagesOf] at hlt
      omega
    obtain ⟨j, hj, -⟩ := hmat.bytes i hi _ hn
    have hvaddr := hlinked.vaddr
    have hv : ((headerOf (reader 0) i).vaddr.toNat + 4096 * (headerOf (reader 0) i).npages) / 4096 =
        (headerOf (reader 0) i).first + (headerOf (reader 0) i).npages := by
      rw [Segment.first]
      omega
    rw [hv] at hj
    exact hb.left_out hl hi ⟨Nat.le_add_right _ _, Nat.add_lt_add_left hlt _⟩ le_rfl j hj
  · rintro ⟨hsmall, hwhole⟩
    obtain ⟨m', hload, hb⟩ := elfLoad_ok hl hm hargc hroom hsmall
    refine ⟨m', hload, fun i hi n hn => ?_, fun j j' v hj hj' => ?_⟩
    · refine hb.segment hl hi ?_
      rw [(npages_eq_iff (hl.segments i hi)).mpr (hwhole i hi), pagesOf]
      omega
    · obtain ⟨space, -, hrep, -⟩ := hb
      exact hrep.single j j' v hj hj'

/-- In every run, a process that is created starts with the image of its file. -/
theorem spawn_built {env : Grass.Env} {k₀ k k' : Grass.Kernel} {pages : PageId → Page}
    (hboot : Booted env t k₀) (h : Reached env t k₀ k) (hl : Linked reader)
    (hargc : 0 ≤ argc.toInt ∧ argc.toInt ≤ cmdNargs)
    (hspawn : spawn env t reader argc argv pages k = some k') (hpids : NoSharedPid k') :
    ∃ m, m.table = k'.pageInfoTable ∧
      Built (Grass.pidOf (k.lastPid + 1)) reader argc.toInt.toNat argv m := by
  have hm : Pageless (Grass.pidOf (k.lastPid + 1)) ⟨k.pageInfoTable, pages⟩ :=
    fun x huse => h.pageless hboot hspawn hpids x huse
  rw [spawn, Grass.Kernel.procAlloc] at hspawn
  split at hspawn
  · cases hspawn
  · rename_i hslot
    split at hslot
    · cases hslot
    · cases hslot
      split at hspawn
      · cases hspawn
      · rename_i m hload
        cases hspawn
        exact ⟨m, rfl, (elfLoad_built hl hm hargc).of_ok hload⟩

end Main

/-- A file with the program header `seg` and ones behind it. -/
def oneSegment (seg : Segment) : Reader := fun block x =>
  if block ≠ 0 then 1
  else if 28 ≤ x.val ∧ x.val < 32 then Words.byte 52 (x.val - 28)
  else if 44 ≤ x.val ∧ x.val < 48 then Words.byte 1 (x.val - 44)
  else if 56 ≤ x.val ∧ x.val < 60 then Words.byte seg.offset (x.val - 56)
  else if 60 ≤ x.val ∧ x.val < 64 then Words.byte seg.vaddr (x.val - 60)
  else if 68 ≤ x.val ∧ x.val < 72 then Words.byte seg.filesz (x.val - 68)
  else if 72 ≤ x.val ∧ x.val < 76 then Words.byte seg.memsz (x.val - 72)
  else 0

theorem oneSegment_word {seg : Segment} {a : Nat} {w : UInt32}
    (h : ∀ k : Fin 4, (if h : a + k < 512 then oneSegment seg 0 ⟨a + k, h⟩ else 0) = Words.byte w k) :
    blockWord (oneSegment seg 0) a = w := Words.load_bytes fun k hk => h ⟨k, hk⟩

theorem oneSegment_headers (seg : Segment) : phnum (oneSegment seg 0) = 1 ∧
    headerAt (oneSegment seg 0) 0 = 52 ∧ headerOf (oneSegment seg 0) 0 = seg := by
  have hphoff : phoff (oneSegment seg 0) = 52 := oneSegment_word fun k => by fin_cases k <;> rfl
  have hphnum : blockWord (oneSegment seg 0) 44 = 1 := oneSegment_word fun k => by fin_cases k <;> rfl
  have hat : headerAt (oneSegment seg 0) 0 = 52 := by
    rw [headerAt, hphoff]
    rfl
  have hoffset : blockWord (oneSegment seg 0) 56 = seg.offset := oneSegment_word fun k => by fin_cases k <;> rfl
  have hvaddr : blockWord (oneSegment seg 0) 60 = seg.vaddr := oneSegment_word fun k => by fin_cases k <;> rfl
  have hfilesz : blockWord (oneSegment seg 0) 68 = seg.filesz := oneSegment_word fun k => by fin_cases k <;> rfl
  have hmemsz : blockWord (oneSegment seg 0) 72 = seg.memsz := oneSegment_word fun k => by fin_cases k <;> rfl
  refine ⟨?_, hat, ?_⟩
  · rw [phnum, hphnum]
    rfl
  · rw [headerOf, hat, hoffset, hvaddr, hfilesz, hmemsz]

theorem oneSegment_linked {seg : Segment} (hseg : seg.Linked) (hown : ∀ v ∈ ownPages, ¬seg.Covers v) :
    Linked (oneSegment seg) := by
  obtain ⟨hphnum, hat, hheader⟩ := oneSegment_headers seg
  have hzero {i : Nat} (hi : i < (phnum (oneSegment seg 0)).toNat) : i = 0 := by
    rw [hphnum] at hi
    exact Nat.lt_one_iff.mp hi
  refine ⟨fun i hi => ?_, fun i hi => ?_, fun i j v hi hj _ _ => ?_, fun i v hi hv hown' => ?_⟩
  · rw [hzero hi, hat]
    decide
  · rw [hzero hi.1, hheader]
    exact hseg
  · rw [hzero hi.1, hzero hj.1]
  · rw [hzero hi.1, hheader] at hv
    exact hown v hown' hv

def noPages : Pool := ⟨fun _ => Earth.PageInfo.zero, fun _ _ => 0⟩

theorem noPages_pageless (pid : Pid) : Pageless pid noPages := fun _ h => absurd h Bool.false_ne_true

theorem oneSegment_room {seg : Segment} (h : pagesOf seg.memsz.toNat ≤ 500) :
    segmentPages (oneSegment seg) + 4 ≤ noPages.free := by
  have hfree : noPages.free = 512 := by simp [Pool.free, noPages, Earth.PageInfo.zero]
  obtain ⟨hphnum, -, hheader⟩ := oneSegment_headers seg
  have hpages : segmentPages (oneSegment seg) ≤ pagesOf seg.memsz.toNat := by
    rw [segmentPages, hphnum]
    change ∑ i ∈ Finset.range 1, _ ≤ _
    rw [Finset.sum_range_one, hheader]
    split
    · exact le_rfl
    · exact Nat.zero_le _
  omega

/-- Eight bytes of the file, and zeros behind them in the same page. -/
def data : Segment := ⟨512, 0x80208000, 8, 4000⟩

theorem elf_load_materialises_data : ∃ m', elfLoad .pageTable 5 (oneSegment data) 1 none noPages = .ok m' ∧
    Materialised 5 (oneSegment data) m' := by
  have hl : Linked (oneSegment data) := oneSegment_linked ⟨by decide, by decide, by decide, by decide⟩
    (by unfold Segment.Covers; decide)
  have hsmall : ¬TooLarge .pageTable 5 := fun h => absurd h.2 (by decide)
  refine (elf_load_materialises_iff hl (noPages_pageless 5) (by decide) (oneSegment_room (by decide))).mpr
    ⟨hsmall, fun i hi => ?_⟩
  obtain ⟨hphnum, -, hheader⟩ := oneSegment_headers data
  have hlt := hi.1
  rw [hphnum] at hlt
  rw [Nat.lt_one_iff.mp hlt, hheader]
  exact .inl (by decide)

/-- Eight bytes that are not in the file. -/
def bss : Segment := ⟨512, 0x80208000, 0, 8⟩

/-- The page of these bytes is not mapped. -/
theorem bss_not_materialised : Linked (oneSegment bss) ∧ Pageless 5 noPages ∧
    segmentPages (oneSegment bss) + 4 ≤ noPages.free ∧
    ∃ m', elfLoad .softTlb 5 (oneSegment bss) 0 none noPages = .ok m' ∧
      ¬Materialised 5 (oneSegment bss) m' := by
  have hl : Linked (oneSegment bss) := oneSegment_linked ⟨by decide, by decide, by decide, by decide⟩
    (by unfold Segment.Covers; decide)
  have hroom : segmentPages (oneSegment bss) + 4 ≤ noPages.free := oneSegment_room (by decide)
  have hsmall : ¬TooLarge .softTlb 5 := fun h => nomatch h.1
  have hargc : 0 ≤ (0 : Int32).toInt ∧ (0 : Int32).toInt ≤ cmdNargs := by decide
  obtain ⟨m', hload, hb⟩ := elfLoad_ok hl (noPages_pageless 5) hargc hroom hsmall
  refine ⟨hl, noPages_pageless 5, hroom, m', hload, fun hmat => ?_⟩
  obtain ⟨hphnum, -, hheader⟩ := oneSegment_headers bss
  have hloads : Loads (oneSegment bss) 0 := by
    rw [Loads, hphnum, hheader]
    decide
  obtain ⟨j, hj, -⟩ := hmat.bytes 0 hloads 0 (by rw [hheader]; decide)
  refine hb.left_out hl hloads ?_ ?_ j hj
  · rw [hheader]
    unfold Segment.Covers
    decide
  · rw [hheader]
    decide

end OsSuite.Elf
