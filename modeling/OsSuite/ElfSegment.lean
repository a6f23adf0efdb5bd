import OsSuite.AddressSpace

/-! How `elf_load` puts one segment into memory. The blocks of its part of the file fill pages from
the start, each in the page that the last one has opened; the pages behind them are zero. -/

namespace OsSuite.Elf

open Earth (Pid Page PageId pageSize)

def fileByte (reader : Reader) (a : Nat) : UInt8 :=
  reader (UInt32.ofNat (a / 512)) ⟨a % 512, Nat.mod_lt a (by decide)⟩

def pagesOf (n : Nat) : Nat := (n + 4095) / 4096

namespace Segment

def first (seg : Segment) : Nat := seg.vaddr.toNat / 4096

/-- Page `q` of a segment when its first `c` bytes have been copied. -/
def filled (seg : Segment) (reader : Reader) (c q : Nat) : Page := fun x =>
  if 4096 * q + x.val < c then fileByte reader (seg.offset.toNat + (4096 * q + x.val)) else 0

def page (seg : Segment) (reader : Reader) (q : Nat) : Page := seg.filled reader seg.filesz.toNat q

/-- What the loader expects of a segment. -/
structure Linked (seg : Segment) : Prop where
  vaddr : seg.vaddr.toNat % 4096 = 0
  offset : seg.offset.toNat % 512 = 0
  filesz_le : seg.filesz.toNat ≤ seg.memsz.toNat
  noWrap : seg.vaddr.toNat + seg.memsz.toNat ≤ 2 ^ 32

def Covers (seg : Segment) (v : Nat) : Prop := seg.first ≤ v ∧ v < seg.first + pagesOf seg.memsz.toNat

/-- How much of the file has been copied when `k` blocks have been read. -/
def copied (seg : Segment) (k : Nat) : Nat := min (512 * k) seg.filesz.toNat

end Segment

section Blocks

variable {t : Translation} {pid : Pid} {reader : Reader} {seg : Segment} {m : Pool} {space : Space}
  {s : Loading} {k : Nat}

theorem fileByte_block (hoffset : seg.offset.toNat % 512 = 0) (k : Nat) {y : Nat} (hy : y < blockSize) :
    fileByte reader (seg.offset.toNat + (512 * k + y)) =
      reader (seg.offset / 512 + UInt32.ofNat k) ⟨y, hy⟩ := by
  change y < 512 at hy
  have hdiv : (seg.offset.toNat + (512 * k + y)) / 512 = seg.offset.toNat / 512 + k := by omega
  have hmod : (seg.offset.toNat + (512 * k + y)) % 512 = y := by omega
  have hblock : UInt32.ofNat (seg.offset.toNat / 512 + k) = seg.offset / 512 + UInt32.ofNat k := by
    rw [UInt32.ofNat_add]
    congr 1
    apply UInt32.toNat_inj.mp
    have hlt : seg.offset.toNat / 512 < UInt32.size := (Nat.div_le_self _ _).trans_lt seg.offset.toNat_lt
    rw [UInt32.toNat_div, UInt32.toNat_ofNat_of_lt' hlt]
    rfl
  rw [fileByte]
  congr 1
  · rw [hdiv, hblock]
  · exact Fin.ext hmod

/-- A block goes to the place that its part of the file has in the page. -/
theorem copyInto_filled (hlinked : seg.Linked) (hk : 512 * k < seg.filesz.toNat) :
    copyInto (seg.filled reader (seg.copied k) (512 * k / 4096)) (512 * k % 4096)
      (if 512 * k + 512 < seg.filesz.toNat then 512 else seg.filesz.toNat - 512 * k)
      (reader (seg.offset / 512 + UInt32.ofNat k)) =
    seg.filled reader (seg.copied (k + 1)) (512 * k / 4096) := by
  have hcopied : seg.copied k = 512 * k := min_eq_left hk.le
  have hcopied' : seg.copied (k + 1) =
      512 * k + if 512 * k + 512 < seg.filesz.toNat then 512 else seg.filesz.toNat - 512 * k := by
    rw [Segment.copied]
    split <;> omega
  generalize hsize : (if 512 * k + 512 < seg.filesz.toNat then 512 else seg.filesz.toNat - 512 * k) = size
    at hcopied' ⊢
  have hle : size ≤ 512 := by
    rw [← hsize]
    split <;> omega
  rw [hcopied, hcopied']
  funext x
  obtain ⟨x, hx⟩ := x
  change x < 4096 at hx
  rw [copyInto, Segment.filled, Segment.filled]
  dsimp only
  by_cases hin : 512 * k % 4096 ≤ x ∧ x < 512 * k % 4096 + size
  · have hy : x - 512 * k % 4096 < 512 := by omega
    have hat : 4096 * (512 * k / 4096) + x = 512 * k + (x - 512 * k % 4096) := by omega
    rw [dif_pos ⟨hin.1, hin.2, hy⟩, if_pos (by omega), hat]
    exact (fileByte_block hlinked.offset k hy).symm
  · rw [dif_neg fun h => hin ⟨h.1, h.2.1⟩]
    by_cases hlow : 4096 * (512 * k / 4096) + x < 512 * k
    · rw [if_pos hlow, if_pos (by omega)]
    · rw [if_neg hlow, if_neg (by omega)]

/-- Block `k` has its page, the last one of the memory so far. -/
structure Opened (pid : Pid) (reader : Reader) (seg : Segment) (base : Space) (room k : Nat) (s : Loading) :
    Prop where
  rep : Represents pid s.pool (base.put seg.first (512 * k / 4096 + 1) (seg.filled reader (seg.copied k)))
  mapped : s.pool.Mapped pid s.ppageId (seg.first + 512 * k / 4096)
  next : s.currPageno.toNat = seg.first + (512 * k / 4096 + 1)
  room : s.pool.free + (512 * k / 4096 + 1) = room

/-- `k` blocks have been read over the memory `base`. -/
structure Building (pid : Pid) (reader : Reader) (seg : Segment) (base : Space) (room k : Nat)
    (s : Loading) : Prop where
  rep : Represents pid s.pool (base.put seg.first (pagesOf (512 * k)) (seg.filled reader (seg.copied k)))
  next : s.currPageno.toNat = seg.first + pagesOf (512 * k)
  opened : 512 * k % 4096 ≠ 0 → s.pool.Mapped pid s.ppageId (seg.first + 512 * k / 4096)
  room : s.pool.free + pagesOf (512 * k) = room

theorem loadBlock_eq : loadBlock t pid reader seg s k =
    ((if 512 * k % 4096 = 0 then s.newPage t pid else .ok s) >>= fun s' =>
      .ok { s' with
        pool := s'.pool.setPage s'.ppageId (copyInto (s'.pool.pages s'.ppageId) (512 * k % 4096)
          (if 512 * k + 512 < seg.filesz.toNat then 512 else seg.filesz.toNat - 512 * k)
          (reader (seg.offset / 512 + UInt32.ofNat k))) }) := by
  unfold loadBlock
  dsimp only [blockSize, pageSize]
  split
  · rfl
  · rfl

theorem filled_zero {c q : Nat} (h : c ≤ 4096 * q) : seg.filled reader c q = fun _ => 0 := by
  funext x
  exact if_neg fun hlt => by omega

/-- A page behind which blocks are copied keeps what it has. -/
theorem filled_of_le {c c' q : Nat} (h : 4096 * (q + 1) ≤ c) (h' : 4096 * (q + 1) ≤ c') :
    seg.filled reader c q = seg.filled reader c' q := by
  funext x
  have hx := x.isLt
  change x.val < 4096 at hx
  rw [Segment.filled, Segment.filled, if_pos (by omega), if_pos (by omega)]

theorem Building.opens {base : Space} (h : Building pid reader seg base m.free k s)
    (hlinked : seg.Linked) (hk : 512 * k < seg.filesz.toNat)
    (hfree : ∀ v, seg.Covers v → base v = none) :
    Sat (if 512 * k % 4096 = 0 then s.newPage t pid else .ok s)
      (Opened pid reader seg base m.free k) fun _ => Stuck t pid m (pagesOf seg.filesz.toNat) := by
  have hle := hlinked.filesz_le
  split
  · rename_i hmod
    have hpages : pagesOf (512 * k) = 512 * k / 4096 := by
      rw [pagesOf]
      omega
    have hmore : 512 * k / 4096 + 1 ≤ pagesOf seg.filesz.toNat := by
      rw [pagesOf]
      omega
    have hcovers : seg.Covers (seg.first + 512 * k / 4096) := by
      rw [Segment.Covers, pagesOf]
      omega
    have hnext := h.next
    have hroom := h.room
    rw [hpages] at hnext hroom
    have hrep := h.rep
    rw [hpages] at hrep
    have hnone : base.put seg.first (512 * k / 4096) (seg.filled reader (seg.copied k))
        s.currPageno.toNat = none := by
      rw [hnext, put_outside (by omega)]
      exact hfree _ hcovers
    refine (newPage_fresh hrep hnone).imp (fun s' hs => ?_) fun _ hstuck => ?_
    · have hzero : seg.filled reader (seg.copied k) (512 * k / 4096) = fun _ => 0 := by
        refine filled_zero ?_
        rw [Segment.copied]
        omega
      have hrep' := hs.rep
      rw [hnext, ← hzero, put_succ] at hrep'
      have hmapped := hs.mapped
      rw [hnext] at hmapped
      have hnoWrap := hlinked.noWrap
      refine ⟨hrep', hmapped, ?_, ?_⟩
      · have hlt : s.currPageno.toNat + 1 < 2 ^ 32 := by
          rw [hnext, Segment.first]
          omega
        rw [hs.next, UInt32.toNat_add, UInt32.toNat_one, Nat.mod_eq_of_lt hlt, hnext]
        rfl
      · have hroom' := hs.room
        omega
    · exact hstuck.of_le hroom (by omega)
  · rename_i hmod
    have hpages : pagesOf (512 * k) = 512 * k / 4096 + 1 := by
      rw [pagesOf]
      omega
    have hrep := h.rep
    have hnext := h.next
    have hroom := h.room
    rw [hpages] at hrep hnext hroom
    exact ⟨hrep, h.opened hmod, hnext, hroom⟩

theorem loadBlock_building {base : Space} (h : Building pid reader seg base m.free k s)
    (hlinked : seg.Linked) (hk : 512 * k < seg.filesz.toNat)
    (hfree : ∀ v, seg.Covers v → base v = none) :
    Sat (loadBlock t pid reader seg s k) (Building pid reader seg base m.free (k + 1))
      fun _ => Stuck t pid m (pagesOf seg.filesz.toNat) := by
  rw [loadBlock_eq, sat_bind]
  refine (h.opens hlinked hk hfree).imp (fun s hs => ?_) fun _ hstuck => hstuck
  rw [sat_ok]
  have hpages : pagesOf (512 * (k + 1)) = 512 * k / 4096 + 1 := by
    rw [pagesOf]
    omega
  have hpage : s.pool.pages s.ppageId = seg.filled reader (seg.copied k) (512 * k / 4096) :=
    hs.rep.page hs.mapped (put_at (Nat.lt_succ_self _))
  have hbehind : base.put seg.first (512 * k / 4096) (seg.filled reader (seg.copied k)) =
      base.put seg.first (512 * k / 4096) (seg.filled reader (seg.copied (k + 1))) := by
    refine put_congr fun q hq => filled_of_le ?_ ?_
    · rw [Segment.copied]
      omega
    · rw [Segment.copied]
      omega
  have hrep := hs.rep.setPage hs.mapped (copyInto (s.pool.pages s.ppageId) (512 * k % 4096)
    (if 512 * k + 512 < seg.filesz.toNat then 512 else seg.filesz.toNat - 512 * k)
    (reader (seg.offset / 512 + UInt32.ofNat k)))
  rw [← put_succ, Function.update_idem, hbehind] at hrep
  refine ⟨?_, ?_, fun hmod => ?_, ?_⟩
  · rw [hpages, ← put_succ, ← copyInto_filled hlinked hk, ← hpage]
    exact hrep
  · rw [hpages]
    exact hs.next
  · have hdiv : 512 * (k + 1) / 4096 = 512 * k / 4096 := by omega
    rw [hdiv]
    exact hs.mapped
  · rw [hpages]
    exact hs.room

/-- The pages that the loader gives a segment. -/
def Segment.npages (seg : Segment) : Nat :=
  max (pagesOf seg.filesz.toNat) (((seg.vaddr + seg.memsz) / 4096).toNat - seg.first)

theorem npages_le (hlinked : seg.Linked) : seg.npages ≤ pagesOf seg.memsz.toNat := by
  have hle := hlinked.filesz_le
  have hvaddr := hlinked.vaddr
  have hsum : (seg.vaddr + seg.memsz).toNat ≤ seg.vaddr.toNat + seg.memsz.toNat := by
    rw [UInt32.toNat_add]
    exact Nat.mod_le _ _
  have hend : ((seg.vaddr + seg.memsz) / 4096).toNat = (seg.vaddr + seg.memsz).toNat / 4096 :=
    UInt32.toNat_div _ _
  refine max_le ?_ ?_
  · rw [pagesOf, pagesOf]
    omega
  · rw [hend, Segment.first, pagesOf]
    omega

/-- The first `n` pages of a segment are in memory. -/
structure Extended (pid : Pid) (reader : Reader) (seg : Segment) (base : Space) (room n : Nat)
    (s : Loading) : Prop where
  rep : Represents pid s.pool (base.put seg.first n (seg.page reader))
  next : s.currPageno.toNat = seg.first + n
  room : s.pool.free + n = room

theorem Building.extended {base : Space} {room : Nat}
    (h : Building pid reader seg base room ((seg.filesz.toNat + 511) / 512) s) :
    Extended pid reader seg base room (pagesOf seg.filesz.toNat) s := by
  obtain ⟨hrep, hnext, -, hroom⟩ := h
  have hpages : pagesOf (512 * ((seg.filesz.toNat + 511) / 512)) = pagesOf seg.filesz.toNat := by
    rw [pagesOf, pagesOf]
    omega
  have hcopied : seg.copied ((seg.filesz.toNat + 511) / 512) = seg.filesz.toNat := by
    rw [Segment.copied]
    omega
  rw [hpages, hcopied] at hrep
  rw [hpages] at hnext hroom
  exact ⟨hrep, hnext, hroom⟩

theorem newPage_extended {base : Space} {n : Nat} (h : Extended pid reader seg base m.free n s)
    (hlinked : seg.Linked) (hlow : pagesOf seg.filesz.toNat ≤ n) (hn : n < seg.npages)
    (hfree : ∀ v, seg.Covers v → base v = none) :
    Sat (s.newPage t pid) (Extended pid reader seg base m.free (n + 1))
      fun _ => Stuck t pid m seg.npages := by
  obtain ⟨hrep, hnext, hroom⟩ := h
  have hle := npages_le hlinked
  have hnone : base.put seg.first n (seg.page reader) s.currPageno.toNat = none := by
    rw [hnext, put_outside (by omega)]
    exact hfree _ ⟨Nat.le_add_right _ _, by omega⟩
  refine (newPage_fresh hrep hnone).imp (fun s' hs => ?_) fun _ hstuck => hstuck.of_le hroom (by omega)
  have hzero : seg.page reader n = fun _ => 0 := by
    refine filled_zero ?_
    rw [pagesOf] at hlow
    omega
  have hrep' := hs.rep
  rw [hnext, ← hzero, put_succ] at hrep'
  refine ⟨hrep', ?_, ?_⟩
  · have hlt : s.currPageno.toNat + 1 < 2 ^ 32 := by
      have hnoWrap := hlinked.noWrap
      rw [pagesOf] at hle
      rw [hnext, Segment.first]
      omega
    rw [hs.next, UInt32.toNat_add, UInt32.toNat_one, Nat.mod_eq_of_lt hlt, hnext]
    rfl
  · have hroom' := hs.room
    omega

/-- A segment is put into memory, as many of its pages as the loader gives it. -/
theorem loadSegment_put {base : Space} (hrep : Represents pid m base) (hlinked : seg.Linked)
    (hload : ¬seg.vaddr < ramStart) (hfree : ∀ v, seg.Covers v → base v = none) :
    Sat (loadSegment t pid reader m seg)
      (fun m' => Represents pid m' (base.put seg.first seg.npages (seg.page reader)) ∧
        m'.free + seg.npages = m.free) fun _ => Stuck t pid m seg.npages := by
  have hfirst : (seg.vaddr / 4096).toNat = seg.first + 0 := UInt32.toNat_div _ _
  have hstart : Building pid reader seg base m.free 0 ⟨m, seg.vaddr / 4096, 0⟩ := by
    have hzero : pagesOf (512 * 0) = 0 := rfl
    refine ⟨?_, ?_, fun h => absurd rfl h, ?_⟩
    · rw [hzero, put_zero]
      exact hrep
    · rw [hzero]
      exact hfirst
    · rw [hzero]
      exact Nat.add_zero m.free
  have hround (k : Nat) (hk : k < (seg.filesz.toNat + 511) / 512) (s : Loading)
      (hs : Building pid reader seg base m.free k s) :
      Sat (loadBlock t pid reader seg s k) (Building pid reader seg base m.free (k + 1))
        fun _ => Stuck t pid m seg.npages := by
    refine (loadBlock_building hs hlinked (by omega) hfree).imp (fun _ h => h) fun _ hstuck => ?_
    exact hstuck.of_le (Nat.add_zero m.free) (le_max_left _ _)
  rw [loadSegment, if_neg hload, sat_bind]
  refine (sat_range hstart hround).imp (fun s hs => ?_) fun _ h => h
  rw [sat_bind]
  replace hs := hs.extended
  have hcount : pagesOf seg.filesz.toNat +
      (((seg.vaddr + seg.memsz) / 4096).toNat - s.currPageno.toNat) = seg.npages := by
    rw [hs.next, Segment.npages]
    omega
  have hpage (j : Nat) (hj : j < ((seg.vaddr + seg.memsz) / 4096).toNat - s.currPageno.toNat) (s' : Loading)
      (hs' : Extended pid reader seg base m.free (pagesOf seg.filesz.toNat + j) s') :
      Sat (s'.newPage t pid) (Extended pid reader seg base m.free (pagesOf seg.filesz.toNat + (j + 1)))
        fun _ => Stuck t pid m seg.npages := by
    have hlt : pagesOf seg.filesz.toNat + j < seg.npages := by omega
    exact newPage_extended hs' hlinked (Nat.le_add_right _ _) hlt hfree
  refine (sat_range hs hpage).imp (fun s' hs' => ?_) fun _ h => h
  rw [hcount] at hs'
  exact ⟨hs'.rep, hs'.room⟩

end Blocks

end OsSuite.Elf
