import OsSuite.SparseFiles
import OsSuite.TreediskCreate

/-! Runs of writes. A formatted treedisk behaves as the sparse files that the
writes build, and in every state of a run its blocks are shared out exactly. -/

namespace OsSuite.Treedisk

open SparseFiles

abbrev WriteCall := Put UInt32 BlockNo Block

def runWrites (d : Disk) (ws : List WriteCall) : Except Stop Disk :=
  ws.foldlM (fun d w => treediskWrite d w.key w.offset w.value) d

theorem runWrites_concat (d : Disk) (ws : List WriteCall) (w : WriteCall) : runWrites d (ws ++ [w]) =
    runWrites d ws >>= fun d' => treediskWrite d' w.key w.offset w.value := by
  rw [runWrites, List.foldlM_append]
  simp [runWrites]

def ValidIno (d : Disk) (ino : UInt32) : Prop :=
  ino.toNat < (d.data 0).nInodeblocks.toNat * inodesPerBlock

structure ValidWrite (d : Disk) (w : WriteCall) : Prop where
  ino : ValidIno d w.key
  offset : w.offset.toNat < 2 ^ 32 - 1

/-- The abstraction: sizes and contents of the valid inodes are those of `f`. -/
structure Refines (d : Disk) (f : Files UInt32 BlockNo Block) : Prop where
  intact : ∃ free, Intact d free
  size : ∀ ino, ValidIno d ino → (nblocksOf d.data ino.toNat).toNat = f.size ino
  data : ∀ ino, ValidIno d ino → ∀ off, fileAt d.data ino.toNat off = f.data ino off

theorem ValidIno.of_reserved {d d' : Disk} {ino : UInt32}
    (hin : inodeblocks d'.data = inodeblocks d.data) : ValidIno d' ino ↔ ValidIno d ino := by
  simp only [inodeblocks] at hin
  rw [ValidIno, ValidIno, hin]

theorem ValidWrite.of_reserved {d d' : Disk} {w : WriteCall}
    (hin : inodeblocks d'.data = inodeblocks d.data) (hw : ValidWrite d w) : ValidWrite d' w :=
  ⟨(ValidIno.of_reserved hin).mpr hw.ino, hw.offset⟩

theorem Formatted.refines {d₀ d₁ : Disk} {ninodes : UInt32} (h : Formatted d₀ d₁ ninodes) :
    Refines d₁ empty := by
  refine ⟨⟨_, h.intact⟩, ?_, ?_⟩
  · intro ino hino
    rw [(h.inodes ino.toNat hino).1]
    rfl
  · intro ino hino off
    exact (h.inodes ino.toNat hino).2 off

theorem Written.refines {d d' : Disk} {f : Files UInt32 BlockNo Block} {w : WriteCall}
    (h : Refines d f) (hw : Written d w.key.toNat w.offset w.value d') :
    Refines d' (put UInt32.toNat f w) := by
  have hvalid : ∀ ino, ValidIno d' ino → ValidIno d ino :=
    fun ino => (ValidIno.of_reserved hw.reserved).mp
  refine ⟨hw.intact, ?_, ?_⟩
  · intro ino hino
    rw [put_size]
    by_cases hk : ino = w.key
    · subst hk
      rw [if_pos rfl, hw.nblocks, h.size _ (hvalid _ hino)]
    · rw [if_neg hk, hw.nblocks_other _ (hvalid ino hino) (fun he => hk (UInt32.toNat_inj.mp he)),
        h.size ino (hvalid ino hino)]
  · intro ino hino off
    rw [put_data]
    by_cases hk : ino = w.key
    · subst hk
      rw [hw.file, h.data _ (hvalid _ hino)]
      simp
    · rw [hw.file_other _ (hvalid ino hino) (fun he => hk (UInt32.toNat_inj.mp he)),
        h.data ino (hvalid ino hino)]
      simp [hk]

theorem refines_write {d : Disk} {f : Files UInt32 BlockNo Block} {w : WriteCall}
    (h : Refines d f) (hw : ValidWrite d w) :
    Sat (treediskWrite d w.key w.offset w.value)
      (fun d' => Refines d' (put UInt32.toNat f w) ∧ inodeblocks d'.data = inodeblocks d.data ∧
        d'.size = d.size)
      (StoreFull d w.key.toNat) := by
  obtain ⟨free, hi⟩ := h.intact
  refine (treediskWrite_spec hi hw.ino hw.offset).imp ?_ fun _ he => he
  intro d' hd'
  exact ⟨hd'.refines h, hd'.reserved, hd'.size⟩

/-- A run of writes on a formatted store ends in the files that the writes build, or full. -/
theorem refines_run {d : Disk} (h : Refines d empty) (ws : List WriteCall)
    (hws : ∀ w ∈ ws, ValidWrite d w) :
    Sat (runWrites d ws)
      (fun d' => Refines d' (run UInt32.toNat ws) ∧ inodeblocks d'.data = inodeblocks d.data ∧
        d'.size = d.size)
      (fun e => ∃ core, e = .panic storeIsFull core) := by
  induction ws using List.reverseRecOn with
  | nil => exact ⟨h, rfl, rfl⟩
  | append_singleton ws w ih =>
    rw [runWrites_concat, sat_bind]
    refine (ih fun w' hw' => hws w' (List.mem_append_left _ hw')).imp ?_ fun _ he => he
    rintro d' ⟨hd', hin, hsize⟩
    refine (refines_write hd' ((hws w (by simp)).of_reserved hin)).imp ?_ ?_
    · rintro d'' ⟨hd'', hin', hsize'⟩
      rw [run_append]
      exact ⟨hd'', hin'.trans hin, hsize'.trans hsize⟩
    · rintro e ⟨core, l, rfl, _⟩
      exact ⟨core, rfl⟩

theorem Refines.getsize {d : Disk} {f : Files UInt32 BlockNo Block} (h : Refines d f)
    {ino : UInt32} (hino : ValidIno d ino) :
    ∃ n, treediskGetsize d ino = .ok n ∧ n.toNat = f.size ino := by
  obtain ⟨free, hi⟩ := h.intact
  refine ⟨nblocksOf d.data ino.toNat, ?_, h.size ino hino⟩
  rw [treediskGetsize, treediskGetSnapshot_eq hi hino]
  rfl

theorem Refines.read {d : Disk} {f : Files UInt32 BlockNo Block} (h : Refines d f)
    {ino : UInt32} (hino : ValidIno d ino) (off : BlockNo) :
    treediskRead d ino off =
      if f.size ino ≤ off.toNat then .error .fail
      else .ok ((f.data ino off).getD nullBlock) := by
  obtain ⟨free, hi⟩ := h.intact
  rw [treediskRead_eq hi hino, h.size ino hino, h.data ino hino]

/-- After formatting, every run of writes that does not fill the store leaves
each inode with the size and the contents that its last writes give it, and a
further write changes the contents of no other offset or inode. -/
theorem treedisk_refines_map {d₀ d₁ : Disk} {ninodes : UInt32} (ws : List WriteCall)
    (hzero : d₀.data 0 = nullBlock) (hcreate : treediskCreate d₀ ninodes = .ok d₁)
    (hws : ∀ w ∈ ws, ValidWrite d₁ w)
    (hroom : ∀ core, runWrites d₁ ws ≠ .error (.panic storeIsFull core)) :
    ∃ d₂, runWrites d₁ ws = .ok d₂ ∧ ∀ ino, ValidIno d₁ ino →
      (∃ n, treediskGetsize d₂ ino = .ok n ∧ n.toNat = sizeAfter UInt32.toNat ws ino) ∧
      (∀ off, treediskRead d₂ ino off =
        if sizeAfter UInt32.toNat ws ino ≤ off.toNat then .error .fail
        else .ok ((lastPut ws ino off).getD nullBlock)) ∧
      (∀ w d₃, ValidWrite d₁ w → treediskWrite d₂ w.key w.offset w.value = .ok d₃ →
        ∀ off, ¬ (w.key = ino ∧ w.offset = off) → ∀ block,
          treediskRead d₂ ino off = .ok block → treediskRead d₃ ino off = .ok block) := by
  have hformat := ((treediskCreate_spec hzero ninodes).of_ok hcreate).2
  have hrun := refines_run hformat.refines ws hws
  cases hresult : runWrites d₁ ws with
  | error e =>
    obtain ⟨core, rfl⟩ := hrun.of_error hresult
    exact absurd hresult (hroom core)
  | ok d₂ =>
    obtain ⟨href, hin, _⟩ := hrun.of_ok hresult
    refine ⟨d₂, rfl, fun ino hino => ?_⟩
    have hino₂ : ValidIno d₂ ino := (ValidIno.of_reserved hin).mpr hino
    refine ⟨?_, ?_, ?_⟩
    · rw [← run_size]
      exact href.getsize hino₂
    · intro off
      rw [← run_size, ← run_data UInt32.toNat]
      exact href.read hino₂ off
    · intro w d₃ hw hwrite off hother block hblock
      obtain ⟨href₃, hin₃, _⟩ := (refines_write href (hw.of_reserved hin)).of_ok hwrite
      have hino₃ : ValidIno d₃ ino := (ValidIno.of_reserved hin₃).mpr hino₂
      have hgrow : (run UInt32.toNat ws).size ino ≤
          (put UInt32.toNat (run UInt32.toNat ws) w).size ino := by
        rw [put_size]
        split <;> omega
      have hkept : (put UInt32.toNat (run UInt32.toNat ws) w).data ino off =
          (run UInt32.toNat ws).data ino off := by
        rw [put_data, if_neg]
        exact fun h => hother ⟨h.1.symm, h.2.symm⟩
      rw [href.read hino₂] at hblock
      rw [href₃.read hino₃, hkept]
      by_cases hle : (run UInt32.toNat ws).size ino ≤ off.toNat
      · rw [if_pos hle] at hblock
        cases hblock
      · rw [if_neg hle] at hblock
        rw [← hblock, if_neg]
        omega

def sampleDisk : Disk := ⟨8, fun _ => nullBlock⟩

def sampleFormatted : Disk := (treediskCreate sampleDisk 1).toOption.getD sampleDisk

/-- Two files in one inode block, the first of them with a hole below its data. -/
def sampleWrites : List WriteCall := [⟨3, 200, fun _ => 7⟩, ⟨4, 0, fun _ => 9⟩]

theorem sampleWrites_valid : ∀ w ∈ sampleWrites, ValidWrite sampleFormatted w := by
  intro w hw
  simp only [sampleWrites, List.mem_cons, List.not_mem_nil, or_false] at hw
  rcases hw with rfl | rfl <;> exact ⟨by unfold ValidIno; decide +kernel, by decide⟩

theorem sampleWrites_run : ∃ d, runWrites sampleFormatted sampleWrites = .ok d := by
  have hsome : (runWrites sampleFormatted sampleWrites).toOption.isSome = true := by
    decide +kernel
  obtain ⟨d, hd⟩ := Option.isSome_iff_exists.mp hsome
  exact ⟨d, ok_of_toOption hd⟩

theorem treedisk_refines_map_sample : ∃ d, runWrites sampleFormatted sampleWrites = .ok d ∧
    treediskRead d 3 200 = .ok (fun _ => 7) ∧ treediskRead d 3 100 = .ok nullBlock ∧
    treediskRead d 4 0 = .ok (fun _ => 9) ∧ treediskRead d 4 1 = .error .fail := by
  obtain ⟨d, hd⟩ := sampleWrites_run
  obtain ⟨d', hd', hread⟩ := treedisk_refines_map sampleWrites
    (show sampleDisk.data 0 = nullBlock from rfl)
    (show treediskCreate sampleDisk 1 = .ok sampleFormatted from rfl) sampleWrites_valid
    (by simp [hd])
  have h₃ := (hread 3 (by unfold ValidIno; decide +kernel)).2.1
  have h₄ := (hread 4 (by unfold ValidIno; decide +kernel)).2.1
  exact ⟨d', hd', by rw [h₃]; rfl, by rw [h₃]; rfl, by rw [h₄]; rfl, by rw [h₄]; rfl⟩

/-- The chained list blocks, the references they hold and the nodes of the
trees of all inodes: each block behind the inode blocks, exactly once. -/
def Partitioned (d : Disk) : Prop :=
  ∃ chain, FreeChain d.data (d.data 0).freeList.toNat chain ∧
    (↑chain : Multiset Nat) + spares d.data chain +
      ∑ k ∈ Finset.range ((d.data 0).nInodeblocks.toNat * inodesPerBlock), treeOf d.data k =
    blocks ((d.data 0).nInodeblocks.toNat + 1) d.size.toNat

theorem Intact.partitioned {d : Disk} {free : Multiset Nat} (h : Intact d free) :
    Partitioned d := by
  obtain ⟨chain, hchain, hfree⟩ := h.list.list
  exact ⟨chain, hchain, by rw [← hfree]; exact h.exact⟩

/-- In every state that writes reach from a formatted store no block is lost or
owned twice, and a write that panics does so with every block a node of a tree. -/
theorem treedisk_blocks_partitioned {d₀ d₁ d₂ : Disk} {ninodes : UInt32} {ws : List WriteCall}
    (hzero : d₀.data 0 = nullBlock) (hcreate : treediskCreate d₀ ninodes = .ok d₁)
    (hws : ∀ w ∈ ws, ValidWrite d₁ w) (hrun : runWrites d₁ ws = .ok d₂) :
    d₂.size = d₀.size ∧ (d₂.data 0).nInodeblocks = inodeblocksFor ninodes ∧ Partitioned d₂ ∧
      ∀ w e, ValidWrite d₁ w → treediskWrite d₂ w.key w.offset w.value = .error e →
        StoreFull d₂ w.key.toNat e := by
  have hformat := ((treediskCreate_spec hzero ninodes).of_ok hcreate).2
  obtain ⟨href, hin, hsize⟩ := (refines_run hformat.refines ws hws).of_ok hrun
  obtain ⟨free, hi⟩ := href.intact
  refine ⟨hsize.trans hformat.size, ?_, hi.partitioned, ?_⟩
  · exact UInt32.toNat_inj.mp (hin.trans hformat.reserved)
  · intro w e hw hwrite
    exact (refines_write href (hw.of_reserved hin)).of_error hwrite

theorem treedisk_blocks_partitioned_sample :
    ∃ d, runWrites sampleFormatted sampleWrites = .ok d ∧ d.size = 8 ∧ Partitioned d := by
  obtain ⟨d, hd⟩ := sampleWrites_run
  have hparts := treedisk_blocks_partitioned
    (show sampleDisk.data 0 = nullBlock from rfl)
    (show treediskCreate sampleDisk 1 = .ok sampleFormatted from rfl) sampleWrites_valid hd
  exact ⟨d, hd, hparts.1, hparts.2.2.1⟩

end OsSuite.Treedisk
