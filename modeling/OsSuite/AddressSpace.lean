import OsSuite.ElfLoad

/-! The memory of a process as one map from its virtual pages to what they hold, and what the
calls of the loader do to it. -/

namespace OsSuite.Elf

open Earth (Pid Page PageId PageInfoTable appsPagesCnt)

/-- What a process has at each virtual page. -/
abbrev Space := Nat → Option Page

def Pool.Mapped (m : Pool) (pid : Pid) (i : PageId) (v : Nat) : Prop :=
  (m.table i).use = true ∧ (m.table i).pid = pid ∧ (m.table i).vpageNo.toNat = v

/-- The pages of a process make up its memory, one page for each virtual page. -/
structure Represents (pid : Pid) (m : Pool) (space : Space) : Prop where
  mapped : ∀ i v, m.Mapped pid i v → space v = some (m.pages i)
  backed : ∀ v page, space v = some page → ∃ i, m.Mapped pid i v
  single : ∀ i j v, m.Mapped pid i v → m.Mapped pid j v → i = j

def Pool.free (m : Pool) : Nat := (Finset.univ.filter fun i => (m.table i).use = false).card

/-- `mmu_map` refuses the pid. -/
def TooLarge (t : Translation) (pid : Pid) : Prop := t = .pageTable ∧ pid ≥ 256

/-- A process cannot get `n` pages. -/
def Stuck (t : Translation) (pid : Pid) (m : Pool) (n : Nat) : Prop := TooLarge t pid ∨ m.free < n

theorem Stuck.of_le {t : Translation} {pid : Pid} {m m' : Pool} {n n' k : Nat} (h : Stuck t pid m' n)
    (hroom : m'.free + k = m.free) (hle : n + k ≤ n') : Stuck t pid m n' := by
  rcases h with hpid | hfree
  · exact .inl hpid
  · exact .inr (by omega)

section Steps

variable {t : Translation} {pid : Pid} {m : Pool} {space : Space} {i : PageId} {v : Nat}

theorem Represents.page (h : Represents pid m space) {page : Page} (hi : m.Mapped pid i v)
    (hv : space v = some page) : m.pages i = page :=
  Option.some.inj ((h.mapped i v hi).symm.trans hv)

theorem allocPage_full {table : PageInfoTable} {e : Earth.Fatal} (h : Earth.allocPage table = .error e)
    (i : PageId) : (table i).use = true := by
  unfold Earth.allocPage at h
  split at h
  · cases h
  · rename_i hnone
    have hi := List.find?_eq_none.mp hnone i (List.mem_finRange i)
    simpa using hi

theorem allocMap_stuck {vpageNo : UInt32} {e : Stop} (h : m.allocMap t pid vpageNo = .error e) :
    Stuck t pid m 1 := by
  unfold Pool.allocMap Pool.mmuAlloc Pool.mmuMap at h
  cases halloc : Earth.allocPage m.table with
  | error e' =>
    refine .inr (Nat.lt_one_iff.mpr (Finset.card_eq_zero.mpr ?_))
    refine Finset.filter_eq_empty_iff.mpr fun i _ => ?_
    rw [allocPage_full halloc i]
    exact nofun
  | ok r =>
    rw [halloc] at h
    dsimp only [bind, Except.bind] at h
    by_cases hpid : t = .pageTable ∧ pid ≥ 256
    · exact .inl hpid
    · rw [if_neg hpid] at h
      cases h

/-- A page has been added to the memory of a process. -/
structure Added (pid : Pid) (m : Pool) (space : Space) (v : Nat) (r : PageId × Pool) : Prop where
  rep : Represents pid r.2 (Function.update space v (some (m.pages r.1)))
  mapped : r.2.Mapped pid r.1 v
  room : r.2.free + 1 = m.free

def Pool.claim (m : Pool) (i : PageId) (pid : Pid) (vpageNo : UInt32) : Pool :=
  { m with table := Function.update m.table i ⟨true, pid, vpageNo⟩ }

@[simp] theorem claim_self (vpageNo : UInt32) : (m.claim i pid vpageNo).table i = ⟨true, pid, vpageNo⟩ :=
  Function.update_self _ _ _

theorem claim_of_ne {j : PageId} (vpageNo : UInt32) (hj : j ≠ i) :
    (m.claim i pid vpageNo).table j = m.table j := Function.update_of_ne hj _ _

theorem claim_mapped (vpageNo : UInt32) : (m.claim i pid vpageNo).Mapped pid i vpageNo.toNat := by
  rw [Pool.Mapped, claim_self]
  exact ⟨rfl, rfl, rfl⟩

theorem claim_mapped_of_ne {vpageNo : UInt32} {j : PageId} (hj : j ≠ i) :
    (m.claim i pid vpageNo).Mapped pid j v ↔ m.Mapped pid j v := by
  rw [Pool.Mapped, claim_of_ne vpageNo hj]
  exact Iff.rfl

theorem Represents.claim (hrep : Represents pid m space) (hfree : (m.table i).use = false)
    {vpageNo : UInt32} (hv : space vpageNo.toNat = none) : Represents pid (m.claim i pid vpageNo)
      (Function.update space vpageNo.toNat (some (m.pages i))) := by
  have hat {w : Nat} (h : (m.claim i pid vpageNo).Mapped pid i w) : w = vpageNo.toNat := by
    rw [Pool.Mapped, claim_self] at h
    exact h.2.2.symm
  have hne {j : PageId} {w : Nat} (h : m.Mapped pid j w) : w ≠ vpageNo.toNat := by
    rintro rfl
    rw [hrep.mapped j _ h] at hv
    cases hv
  refine ⟨fun j w h => ?_, fun w page h => ?_, fun j j' w h h' => ?_⟩
  · by_cases hj : j = i
    · subst hj
      rw [hat h, Function.update_self]
      rfl
    · have hw := (claim_mapped_of_ne hj).mp h
      rw [Function.update_of_ne (hne hw)]
      exact hrep.mapped j w hw
  · by_cases hw : w = vpageNo.toNat
    · subst hw
      exact ⟨i, claim_mapped vpageNo⟩
    · rw [Function.update_of_ne hw] at h
      obtain ⟨j, hj⟩ := hrep.backed w page h
      have hji : j ≠ i := by
        rintro rfl
        rw [hj.1] at hfree
        cases hfree
      exact ⟨j, (claim_mapped_of_ne hji).mpr hj⟩
  · by_cases hj : j = i
    · by_cases hj' : j' = i
      · rw [hj, hj']
      · subst hj
        exact absurd (hat h) (hne ((claim_mapped_of_ne hj').mp h'))
    · by_cases hj' : j' = i
      · subst hj'
        exact absurd (hat h') (hne ((claim_mapped_of_ne hj).mp h))
      · exact hrep.single j j' w ((claim_mapped_of_ne hj).mp h) ((claim_mapped_of_ne hj').mp h')

theorem free_claim (hfree : (m.table i).use = false) (vpageNo : UInt32) :
    (m.claim i pid vpageNo).free + 1 = m.free := by
  have herase : (Finset.univ.filter fun j => ((m.claim i pid vpageNo).table j).use = false) =
      (Finset.univ.filter fun j => (m.table j).use = false).erase i := by
    ext j
    rw [Finset.mem_erase, Finset.mem_filter, Finset.mem_filter]
    by_cases hj : j = i
    · subst hj
      simp
    · simp [hj, claim_of_ne vpageNo hj]
  rw [Pool.free, herase]
  exact Finset.card_erase_add_one (Finset.mem_filter.mpr ⟨Finset.mem_univ i, hfree⟩)

theorem allocMap_added (hrep : Represents pid m space) {vpageNo : UInt32}
    (hv : space vpageNo.toNat = none) :
    Sat (m.allocMap t pid vpageNo) (Added pid m space vpageNo.toNat) fun _ => Stuck t pid m 1 := by
  cases halloc : m.allocMap t pid vpageNo with
  | error e => exact allocMap_stuck halloc
  | ok r =>
    obtain ⟨i, m'⟩ := r
    obtain ⟨hfree, rfl⟩ := allocMap_eq halloc
    exact ⟨hrep.claim hfree hv, claim_mapped vpageNo, free_claim hfree vpageNo⟩

@[simp] theorem setPage_self (page : Page) : (m.setPage i page).pages i = page := Function.update_self _ _ _

theorem setPage_of_ne {j : PageId} (page : Page) (hj : j ≠ i) : (m.setPage i page).pages j = m.pages j :=
  Function.update_of_ne hj _ _

@[simp] theorem free_setPage (page : Page) : (m.setPage i page).free = m.free := rfl

theorem Represents.setPage (hrep : Represents pid m space) (hi : m.Mapped pid i v) (page : Page) :
    Represents pid (m.setPage i page) (Function.update space v (some page)) := by
  refine ⟨fun j w h => ?_, fun w page' h => ?_, hrep.single⟩
  · by_cases hj : j = i
    · subst hj
      have hw : w = v := h.2.2.symm.trans hi.2.2
      subst hw
      rw [Function.update_self, setPage_self]
    · have hw : w ≠ v := by
        rintro rfl
        exact hj (hrep.single j i w h hi)
      rw [Function.update_of_ne hw, setPage_of_ne page hj]
      exact hrep.mapped j w h
  · by_cases hw : w = v
    · subst hw
      exact ⟨i, hi⟩
    · rw [Function.update_of_ne hw] at h
      exact hrep.backed w page' h

/-- A page of zeros has been added, and is the one to be written next. -/
structure Fresh (pid : Pid) (s : Loading) (space : Space) (s' : Loading) : Prop where
  rep : Represents pid s'.pool (Function.update space s.currPageno.toNat (some fun _ => 0))
  mapped : s'.pool.Mapped pid s'.ppageId s.currPageno.toNat
  next : s'.currPageno = s.currPageno + 1
  room : s'.pool.free + 1 = s.pool.free

theorem newPage_fresh {s : Loading} (hrep : Represents pid s.pool space)
    (hv : space s.currPageno.toNat = none) :
    Sat (s.newPage t pid) (Fresh pid s space) fun _ => Stuck t pid s.pool 1 := by
  rw [Loading.newPage, sat_bind]
  refine (allocMap_added hrep hv).imp (fun r hr => ?_) fun _ h => h
  have hzero := hr.rep.setPage hr.mapped fun _ => 0
  rw [Function.update_idem] at hzero
  exact ⟨hzero, hr.mapped, rfl, hr.room⟩

end Steps

/-- The memory with `n` pages from the virtual page `first` on replaced. -/
def Space.put (space : Space) (first n : Nat) (content : Nat → Page) : Space := fun v =>
  if first ≤ v ∧ v < first + n then some (content (v - first)) else space v

section Put

variable {space : Space} {first n v : Nat} {content content' : Nat → Page}

@[simp] theorem put_zero : space.put first 0 content = space := by
  funext v
  exact if_neg fun h => absurd (h.1.trans_lt h.2) (Nat.lt_irrefl first)

theorem put_at (hv : v < n) : space.put first n content (first + v) = some (content v) := by
  have hin : first ≤ first + v ∧ first + v < first + n := ⟨Nat.le_add_right _ _, Nat.add_lt_add_left hv _⟩
  rw [Space.put, if_pos hin, Nat.add_sub_cancel_left]

theorem put_outside (hv : ¬(first ≤ v ∧ v < first + n)) : space.put first n content v = space v :=
  if_neg hv

theorem put_succ : Function.update (space.put first n content) (first + n) (some (content n)) =
    space.put first (n + 1) content := by
  funext v
  by_cases hv : v = first + n
  · subst hv
    rw [Function.update_self, put_at (Nat.lt_succ_self n)]
  · rw [Function.update_of_ne hv, Space.put, Space.put]
    have hiff : first ≤ v ∧ v < first + n ↔ first ≤ v ∧ v < first + (n + 1) := by omega
    simp only [hiff]

theorem put_congr (h : ∀ q < n, content q = content' q) :
    space.put first n content = space.put first n content' := by
  funext v
  rw [Space.put, Space.put]
  split
  · rename_i hv
    rw [h (v - first) (by omega)]
  · rfl

end Put

end OsSuite.Elf
