import OsSuite.ElfLoad
import OsSuite.KernelRun
import OsSuite.ProcFree

/-! Who owns the pages of memory over runs of spawns, exits and killalls. The loader only adds
pages for its process, and what ends a process takes away all pages with its pid. -/

namespace OsSuite.Elf

open Earth (Pid PageId Page PageInfoTable)

/-- The table has grown by pages of a process, all of them unused before. -/
def Claims (pid : Pid) (table table' : PageInfoTable) : Prop :=
  ∀ x, table' x = table x ∨ (table x).use = false ∧ (table' x).use = true ∧ (table' x).pid = pid

section Claims

variable {pid : Pid} {table table' table'' : PageInfoTable}

theorem Claims.refl : Claims pid table table := fun _ => .inl rfl

theorem Claims.trans (h : Claims pid table table') (h' : Claims pid table' table'') :
    Claims pid table table'' := by
  intro x
  rcases h x with hkeep | ⟨hfree, huse, hpid⟩
  · rw [← hkeep]
    exact h' x
  · rcases h' x with hkeep | ⟨hfree', -, -⟩
    · exact .inr ⟨hfree, by rw [hkeep]; exact huse, by rw [hkeep]; exact hpid⟩
    · rw [huse] at hfree'
      cases hfree'

theorem allocMap_claims (t : Translation) (pid : Pid) (vpageNo : UInt32) (m : Pool) :
    Sat (m.allocMap t pid vpageNo) (fun r => Claims pid m.table r.2.table) fun _ => True := by
  cases halloc : m.allocMap t pid vpageNo with
  | error e => exact trivial
  | ok r =>
    obtain ⟨i, m'⟩ := r
    obtain ⟨hfree, rfl⟩ := allocMap_eq halloc
    rw [sat_ok]
    intro x
    by_cases hx : x = i
    · subst hx
      refine .inr ⟨hfree, ?_, ?_⟩ <;> simp
    · exact .inl (Function.update_of_ne hx _ _)

theorem newPage_claims (t : Translation) (pid : Pid) (s : Loading) :
    Sat (s.newPage t pid) (fun s' => Claims pid s.pool.table s'.pool.table) fun _ => True := by
  rw [Loading.newPage, sat_bind]
  exact (allocMap_claims t pid s.currPageno s.pool).imp (fun r hr => hr) fun _ h => h

theorem loadBlock_claims (t : Translation) (pid : Pid) (reader : Reader) (seg : Segment) (s : Loading)
    (k : Nat) :
    Sat (loadBlock t pid reader seg s k) (fun s' => Claims pid s.pool.table s'.pool.table) fun _ => True := by
  unfold loadBlock
  dsimp only
  split
  · rw [sat_bind]
    exact (newPage_claims t pid s).imp (fun s' hs => hs) fun _ h => h
  · exact Claims.refl

theorem loadSegment_claims (t : Translation) (pid : Pid) (reader : Reader) (m : Pool) (seg : Segment) :
    Sat (loadSegment t pid reader m seg) (fun m' => Claims pid m.table m'.table) fun _ => True := by
  rw [loadSegment]
  split
  · exact Claims.refl
  · rw [sat_bind]
    have hblocks : Sat ((List.range ((seg.filesz.toNat + 511) / blockSize)).foldlM
        (loadBlock t pid reader seg) ⟨m, seg.vaddr / 4096, 0⟩)
        (fun s => Claims pid m.table s.pool.table) fun _ => True := by
      refine sat_foldlM Claims.refl fun k _ s hs => ?_
      exact (loadBlock_claims t pid reader seg s k).imp (fun _ h => hs.trans h) fun _ h => h
    refine hblocks.imp (fun s hs => ?_) fun _ h => h
    rw [sat_bind]
    refine Sat.imp (sat_foldlM hs fun _ _ s hs => ?_) (fun s hs => hs) fun _ h => h
    exact (newPage_claims t pid s).imp (fun _ h => hs.trans h) fun _ h => h

/-- The loader only adds pages of its process. -/
theorem elfLoad_claims (t : Translation) (pid : Pid) (reader : Reader) (argc : Int32)
    (argv : Option (Fin Grass.cmdNargs → Fin Grass.cmdArgLen → UInt8)) (m : Pool) :
    Sat (elfLoad t pid reader argc argv m) (fun m' => Claims pid m.table m'.table) fun _ => True := by
  have hsegments : Sat ((List.range (phnum (reader 0)).toNat).foldlM (fun m i => do
      let seg ← pheader (reader 0) i
      loadSegment t pid reader m seg) m) (fun m' => Claims pid m.table m'.table) fun _ => True := by
    refine sat_foldlM Claims.refl fun i _ m' hm => ?_
    rw [sat_bind]
    cases hseg : pheader (reader 0) i with
    | error e => exact trivial
    | ok seg => exact (loadSegment_claims t pid reader m' seg).imp (fun _ h => hm.trans h) fun _ h => h
  have hmap {m₁ : Pool} (hm : Claims pid m.table m₁.table) (vpageNo : UInt32) :
      Sat (m₁.allocMap t pid vpageNo) (fun r => Claims pid m.table r.2.table) fun _ => True :=
    (allocMap_claims t pid vpageNo m₁).imp (fun _ h => hm.trans h) fun _ h => h
  unfold elfLoad
  rw [sat_bind]
  refine hsegments.imp (fun m₁ h₁ => ?_) fun _ h => h
  rw [sat_bind]
  refine (hmap h₁ _).imp (fun r₂ h₂ => ?_) fun _ h => h
  dsimp only
  split
  · exact trivial
  · rw [sat_bind]
    refine (@hmap (r₂.2.setPage _ _) h₂ _).imp (fun r₃ h₃ => ?_) fun _ h => h
    rw [sat_bind]
    refine (hmap h₃ _).imp (fun r₄ h₄ => ?_) fun _ h => h
    rw [sat_bind]
    exact (hmap h₄ _).imp (fun r₅ h₅ => h₅) fun _ h => h

end Claims

open Grass

def NoSharedPid (k : Kernel) : Prop :=
  ∀ i j, (k.procSet i).status ≠ .unused → (k.procSet i).pid = (k.procSet j).pid → i = j

instance (k : Kernel) : Decidable (NoSharedPid k) := inferInstanceAs (Decidable (∀ _ _, _ → _ → _))

/-- A new process: `proc_alloc`, `elf_load` into pages of any content, `proc_set_ready`. None
stands for FATAL. -/
def spawn (env : Env) (t : Translation) (reader : Reader) (argc : Int32)
    (argv : Option (Fin cmdNargs → Fin cmdArgLen → UInt8)) (pages : PageId → Page) (k : Kernel) :
    Option Kernel :=
  match k.procAlloc env with
  | .error _ => none
  | .ok (pid, k) =>
    match elfLoad t pid reader argc argv ⟨k.pageInfoTable, pages⟩ with
    | .error _ => none
    | .ok m => some (({ k with pageInfoTable := m.table } : Kernel).procSetReady pid)

def SystemPid (p : Pid) : Prop := gpidProcess ≤ p ∧ p ≤ gpidShell

instance (p : Pid) : Decidable (SystemPid p) := inferInstanceAs (Decidable (_ ∧ _))

def Live (k : Kernel) (i : Slot) (p : Pid) : Prop := (k.procSet i).status ≠ .unused ∧ (k.procSet i).pid = p

instance (k : Kernel) (i : Slot) (p : Pid) : Decidable (Live k i p) := inferInstanceAs (Decidable (_ ∧ _))

/-- The kernel when the system processes have been loaded, over a memory with no pages in use
but those of page tables. -/
inductive Booted (env : Env) (t : Translation) : Kernel → Prop where
  | intro {table : PageInfoTable} {reader reader₂ reader₃ reader₄ : Reader}
    {pages pages₂ pages₃ pages₄ : PageId → Page} {m : Pool} {k₁ k₂ k₃ k₄ : Kernel}
    (htables : ∀ x, (table x).use → (table x).pid = 0)
    (hload : elfLoad t gpidProcess reader 0 none ⟨table, pages⟩ = .ok m)
    (hentry : Kernel.grassEntry env m.table = .ok k₁)
    (hterminal : spawn env t reader₂ 0 none pages₂ k₁ = some k₂)
    (hfile : spawn env t reader₃ 0 none pages₃ k₂ = some k₃)
    (hshell : spawn env t reader₄ 0 none pages₄ k₃ = some k₄) : Booted env t k₄

/-- The runs of spawns, exits and killalls from the kernel `k₀` on, in which no slot gets a
pid that another one has. -/
inductive Reached (env : Env) (t : Translation) (k₀ : Kernel) : Kernel → Prop where
  | boot : Reached env t k₀ k₀
  | spawn {k k' : Kernel} {reader : Reader} {argc : Int32}
    {argv : Option (Fin cmdNargs → Fin cmdArgLen → UInt8)} {pages : PageId → Page}
    (h : Reached env t k₀ k) (hspawn : Elf.spawn env t reader argc argv pages k = some k')
    (hpids : NoSharedPid k') : Reached env t k₀ k'
  | exit {k : Kernel} {i : Slot} {p : Pid} (h : Reached env t k₀ k) (hsender : Live k i p)
    (huser : ¬SystemPid p) : Reached env t k₀ (k.procFree env p)
  | killall {k : Kernel} (h : Reached env t k₀ k) : Reached env t k₀ (k.procFree env gpidAll)

theorem procSetStatus_slot (k : Kernel) (p : Pid) (status : ProcStatus) (i : Slot) :
    ((k.procSetStatus p status).procSet i).pid = (k.procSet i).pid ∧
      (((k.procSetStatus p status).procSet i).status = (k.procSet i).status ∨
        (k.procSet i).pid = p ∧ ((k.procSetStatus p status).procSet i).status = status) := by
  dsimp only [Kernel.procSetStatus]
  split
  · rename_i h
    exact ⟨rfl, .inr ⟨h.2, rfl⟩⟩
  · exact ⟨rfl, .inl rfl⟩

/-- The processes with a pid in `gone` end, and their pages are freed. -/
structure Releases (k k' : Kernel) (gone : Pid → Prop) : Prop where
  pid : ∀ i, (k'.procSet i).pid = (k.procSet i).pid
  kept : ∀ i, ¬gone (k.procSet i).pid → (k'.procSet i).status = (k.procSet i).status
  live : ∀ i, (k'.procSet i).status ≠ .unused → (k.procSet i).status ≠ .unused
  pages : ∀ x, (k.pageInfoTable x).use = true → gone (k.pageInfoTable x).pid →
    k'.pageInfoTable x = Earth.PageInfo.zero
  others : ∀ x, ¬((k.pageInfoTable x).use = true ∧ gone (k.pageInfoTable x).pid) →
    k'.pageInfoTable x = k.pageInfoTable x

theorem releases_none (k : Kernel) : Releases k k fun _ => False :=
  ⟨fun _ => rfl, fun _ _ => rfl, fun _ h => h, fun _ _ h => h.elim, fun _ _ => rfl⟩

theorem releases_exit (env : Env) (k : Kernel) {p : Pid} (hp : p ≠ gpidAll) :
    Releases k (k.procFree env p) (fun _ => False) ∨ Releases k (k.procFree env p) (· = p) := by
  rw [Kernel.procFree, if_pos hp]
  cases hfirst : k.firstUser with
  | none => exact .inl (releases_none k)
  | some i =>
    have hterm (j : Slot) : (((k.terminate env i).mmuFree p).procSet j).pid = (k.procSet j).pid ∧
        (((k.terminate env i).mmuFree p).procSet j).status = (k.procSet j).status := by
      change ((Function.update k.procSet i _) j).pid = _ ∧ ((Function.update k.procSet i _) j).status = _
      by_cases hj : j = i
      · subst hj
        rw [Function.update_self]
        exact ⟨rfl, rfl⟩
      · rw [Function.update_of_ne hj]
        exact ⟨rfl, rfl⟩
    have hslot (j : Slot) := procSetStatus_slot ((k.terminate env i).mmuFree p) p .unused j
    refine .inr ⟨fun j => ?_, fun j hj => ?_, fun j hj => ?_, fun x huse hx => ?_, fun x hx => ?_⟩
    · exact (hslot j).1.trans (hterm j).1
    · rcases (hslot j).2 with he | ⟨hpid, -⟩
      · exact he.trans (hterm j).2
      · exact absurd ((hterm j).1.symm.trans hpid) hj
    · rcases (hslot j).2 with he | ⟨-, he⟩
      · rwa [he, (hterm j).2] at hj
      · exact absurd he hj
    · exact if_pos ⟨huse, hx⟩
    · exact if_neg hx

theorem releases_killall (env : Env) (k : Kernel) :
    Releases k (k.procFree env gpidAll) fun p => ∃ i ∈ scannedSlots, (k.procSet i).LiveUser ∧
      (k.procSet i).pid = p := by
  have hfrees : Frees env k (scannedSlots.filter fun i => (k.procSet i).LiveUser)
      (k.procFree env gpidAll) := by
    rw [Kernel.procFree, if_neg (not_not_intro rfl)]
    exact frees_loop (scannedSlots_sorted.imp fun h => ne_of_lt h)
  have hmem (i : Slot) : i ∈ scannedSlots.filter (fun i => (k.procSet i).LiveUser) ↔
      i ∈ scannedSlots ∧ (k.procSet i).LiveUser := by
    rw [List.mem_filter, decide_eq_true_iff]
  refine ⟨fun i => ?_, fun i hi => ?_, fun i hi => ?_, fun x huse hx => ?_, fun x hx => ?_⟩
  · rw [hfrees.slots]
    split
    · rfl
    · rfl
  · rw [hfrees.slots, if_neg]
    intro h
    obtain ⟨hscan, hlive⟩ := (hmem i).mp h
    exact hi ⟨i, hscan, hlive, rfl⟩
  · rw [hfrees.slots] at hi
    split at hi
    · exact absurd rfl hi
    · exact hi
  · obtain ⟨i, hscan, hlive, hpid⟩ := hx
    rw [hfrees.pages, if_pos ⟨huse, i, (hmem i).mpr ⟨hscan, hlive⟩, hpid⟩]
  · rw [hfrees.pages, if_neg]
    rintro ⟨huse, i, hi, hpid⟩
    obtain ⟨hscan, hlive⟩ := (hmem i).mp hi
    exact hx ⟨huse, i, hscan, hlive, hpid⟩

/-- The pids of system processes and page tables are never those of a new process. -/
def Reserved (p : Pid) : Prop := p = 0 ∨ SystemPid p

/-- What holds in every kernel of a run from `k₀` on. -/
structure Owned (k₀ k : Kernel) : Prop where
  distinct : NoSharedPid k
  idle : (k.procSet 0).pid = 0 ∧ (k.procSet 0).status = .unused
  system : ∀ p, SystemPid p → ∃ i, Live k i p
  owner : ∀ x, (k.pageInfoTable x).use = true → (k.pageInfoTable x).pid ≠ 0 →
    ∃ i, Live k i (k.pageInfoTable x).pid
  boot : ∀ x, (k₀.pageInfoTable x).use = true → Reserved (k₀.pageInfoTable x).pid
  kept : ∀ x, (k₀.pageInfoTable x).use = true → k.pageInfoTable x = k₀.pageInfoTable x
  user : ∀ x, (k₀.pageInfoTable x).use = false → (k.pageInfoTable x).use = true →
    ¬Reserved (k.pageInfoTable x).pid

section Owned

variable {env : Env} {t : Translation} {k₀ k k' : Kernel} {gone : Pid → Prop}

theorem Owned.live_user (h : Owned k₀ k) {i : Slot} {p : Pid} (hlive : Live k i p)
    (huser : ¬SystemPid p) : ¬Reserved p := by
  rintro (rfl | hsystem)
  · have hi := h.distinct i 0 hlive.1 (hlive.2.trans h.idle.1.symm)
    subst hi
    exact hlive.1 h.idle.2
  · exact huser hsystem

theorem Owned.releases (h : Owned k₀ k) (hr : Releases k k' gone) (hgone : ∀ p, gone p → ¬Reserved p) :
    Owned k₀ k' := by
  have hlive {i : Slot} {p : Pid} (hi : Live k i p) (hp : ¬gone p) : Live k' i p := by
    refine ⟨?_, (hr.pid i).trans hi.2⟩
    rw [hr.kept i (by rw [hi.2]; exact hp)]
    exact hi.1
  have hused {x : PageId} (huse : (k'.pageInfoTable x).use = true) :
      ¬((k.pageInfoTable x).use = true ∧ gone (k.pageInfoTable x).pid) := by
    rintro ⟨hold, hx⟩
    rw [hr.pages x hold hx] at huse
    cases huse
  constructor
  · intro i j hi hpid
    rw [hr.pid, hr.pid] at hpid
    exact h.distinct i j (hr.live i hi) hpid
  · refine ⟨(hr.pid 0).trans h.idle.1, ?_⟩
    by_contra hne
    exact hr.live 0 hne h.idle.2
  · intro p hp
    obtain ⟨i, hi⟩ := h.system p hp
    exact ⟨i, hlive hi fun hg => hgone p hg (.inr hp)⟩
  · intro x huse hpid
    have hx := hused huse
    rw [hr.others x hx] at huse hpid ⊢
    obtain ⟨i, hi⟩ := h.owner x huse hpid
    exact ⟨i, hlive hi fun hg => hx ⟨huse, hg⟩⟩
  · exact h.boot
  · intro x huse
    have hkept := h.kept x huse
    rw [hr.others x, hkept]
    rintro ⟨-, hg⟩
    rw [hkept] at hg
    exact hgone _ hg (h.boot x huse)
  · intro x hfree huse
    have hx := hused huse
    rw [hr.others x hx] at huse ⊢
    exact h.user x hfree huse

theorem Owned.exit (h : Owned k₀ k) {i : Slot} {p : Pid} (hsender : Live k i p) (huser : ¬SystemPid p) :
    Owned k₀ (k.procFree env p) := by
  by_cases hp : p = gpidAll
  · subst hp
    refine h.releases (releases_killall env k) ?_
    rintro q ⟨j, -, hlive, rfl⟩
    exact h.live_user ⟨hlive.2, rfl⟩ fun hsystem => absurd (hlive.1.trans hsystem.2) (by decide)
  · rcases releases_exit env k hp with hr | hr
    · exact h.releases hr fun _ hg => hg.elim
    · refine h.releases hr ?_
      rintro q rfl
      exact h.live_user hsender huser

theorem Owned.killall (h : Owned k₀ k) : Owned k₀ (k.procFree env gpidAll) := by
  refine h.releases (releases_killall env k) ?_
  rintro q ⟨j, -, hlive, rfl⟩
  exact h.live_user ⟨hlive.2, rfl⟩ fun hsystem => absurd (hlive.1.trans hsystem.2) (by decide)

/-- A process is created: a slot that was unused is its own, and the pages it gets were unused. -/
structure Creates (k k' : Kernel) (i : Slot) (p : Pid) : Prop where
  pos : 0 < i.val
  vacant : (k.procSet i).status = .unused
  live : Live k' i p
  pid : ∀ j ≠ i, (k'.procSet j).pid = (k.procSet j).pid
  status : ∀ j ≠ i, (k.procSet j).pid ≠ p → (k'.procSet j).status = (k.procSet j).status
  pages : Claims p k.pageInfoTable k'.pageInfoTable

theorem spawn_creates {reader : Reader} {argc : Int32}
    {argv : Option (Fin cmdNargs → Fin cmdArgLen → UInt8)} {pages : PageId → Page}
    (h : spawn env t reader argc argv pages k = some k') :
    ∃ i, k.unusedSlot = some i ∧ Creates k k' i (pidOf (k.lastPid + 1)) ∧ k'.lastPid = k.lastPid + 1 := by
  rw [spawn, Kernel.procAlloc] at h
  cases hslot : k.unusedSlot with
  | none =>
    rw [hslot] at h
    cases h
  | some i =>
    rw [hslot] at h
    dsimp only at h
    obtain ⟨hpos, hvacant, -⟩ := Kernel.unusedSlot_eq.mp hslot
    have hclaims := elfLoad_claims t (pidOf (k.lastPid + 1)) reader argc argv ⟨k.pageInfoTable, pages⟩
    split at h
    · cases h
    · rename_i m hload
      cases h
      let claimed := k.mtimeRead.set i ((k.procSet i).claim (pidOf (k.lastPid + 1)) (k.mtimeGet env))
      have hself : claimed.procSet i = (k.procSet i).claim (pidOf (k.lastPid + 1)) (k.mtimeGet env) :=
        Function.update_self _ _ _
      have hother {j : Slot} (hj : j ≠ i) : claimed.procSet j = k.procSet j := Function.update_of_ne hj _ _
      have hslot (j : Slot) := procSetStatus_slot ({ claimed with
        lastPid := k.lastPid + 1, pageInfoTable := m.table }) (pidOf (k.lastPid + 1)) .ready j
      refine ⟨i, rfl, ⟨hpos, hvacant, ⟨fun hstatus => ?_, ?_⟩, fun j hj => ?_, fun j hj hpid => ?_, ?_⟩, rfl⟩
      · rcases (hslot i).2 with he | ⟨-, he⟩
        · have hloading := (he.trans (congrArg Process.status hself)).symm.trans hstatus
          cases hloading
        · have hready := he.symm.trans hstatus
          cases hready
      · exact (hslot i).1.trans (congrArg Process.pid hself)
      · exact (hslot j).1.trans (congrArg Process.pid (hother hj))
      · rcases (hslot j).2 with he | ⟨hp, -⟩
        · exact he.trans (congrArg Process.status (hother hj))
        · exact absurd ((congrArg Process.pid (hother hj)).symm.trans hp) hpid
      · exact hclaims.of_ok hload

theorem Creates.other {i j : Slot} {p : Pid} (hc : Creates k k' i p) (hpids : NoSharedPid k') (hj : j ≠ i) :
    (k.procSet j).pid ≠ p := by
  intro hp
  have hpid : (k'.procSet i).pid = (k'.procSet j).pid := by rw [hc.live.2, hc.pid j hj, hp]
  exact hj (hpids i j hc.live.1 hpid).symm

theorem Creates.zero_ne {i : Slot} {p : Pid} (hc : Creates k k' i p) : (0 : Slot) ≠ i := by
  rintro rfl
  exact absurd hc.pos (Nat.lt_irrefl 0)

theorem Creates.ne_of_live {i j : Slot} {p q : Pid} (hc : Creates k k' i p) (hj : Live k j q) : j ≠ i := by
  rintro rfl
  exact hj.1 hc.vacant

theorem Owned.creates (h : Owned k₀ k) {i : Slot} {p : Pid} (hc : Creates k k' i p)
    (hpids : NoSharedPid k') : Owned k₀ k' := by
  have hother {j : Slot} (hj : j ≠ i) : (k.procSet j).pid ≠ p := hc.other hpids hj
  have hne {j : Slot} {q : Pid} (hj : Live k j q) : j ≠ i := hc.ne_of_live hj
  have hlive {j : Slot} {q : Pid} (hj : Live k j q) : Live k' j q := by
    refine ⟨?_, (hc.pid j (hne hj)).trans hj.2⟩
    rw [hc.status j (hne hj) (hother (hne hj))]
    exact hj.1
  have hzero : (0 : Slot) ≠ i := hc.zero_ne
  have huser : ¬Reserved p := by
    rintro (rfl | hsystem)
    · exact hother hzero h.idle.1
    · obtain ⟨j, hj⟩ := h.system p hsystem
      exact hother (hne hj) hj.2
  constructor
  · exact hpids
  · refine ⟨(hc.pid 0 hzero).trans h.idle.1, ?_⟩
    rw [hc.status 0 hzero (hother hzero)]
    exact h.idle.2
  · intro q hq
    obtain ⟨j, hj⟩ := h.system q hq
    exact ⟨j, hlive hj⟩
  · intro x huse hpid
    rcases hc.pages x with hkeep | ⟨-, -, hp⟩
    · rw [hkeep] at huse hpid ⊢
      obtain ⟨j, hj⟩ := h.owner x huse hpid
      exact ⟨j, hlive hj⟩
    · rw [hp]
      exact ⟨i, hc.live⟩
  · exact h.boot
  · intro x huse
    have hkept := h.kept x huse
    rcases hc.pages x with hkeep | ⟨hfree, -, -⟩
    · rw [hkeep, hkept]
    · rw [hkept, huse] at hfree
      cases hfree
  · intro x hfree huse
    rcases hc.pages x with hkeep | ⟨-, -, hp⟩
    · rw [hkeep] at huse ⊢
      exact h.user x hfree huse
    · rw [hp]
      exact huser

end Owned

/-- Slots 1 to `n` hold the processes 1 to `n`, and the pages in use are theirs or page tables. -/
structure Filled (n : Nat) (k : Kernel) : Prop where
  last : k.lastPid = UInt32.ofNat n
  taken : ∀ i : Slot, 1 ≤ i.val → i.val ≤ n → Live k i i.val
  vacant : ∀ i : Slot, ¬(1 ≤ i.val ∧ i.val ≤ n) → (k.procSet i).pid = 0 ∧ (k.procSet i).status = .unused
  pages : ∀ x, (k.pageInfoTable x).use = true →
    (0 : Int) ≤ (k.pageInfoTable x).pid ∧ (k.pageInfoTable x).pid ≤ (n : Int)

section Boot

variable {env : Env} {t : Translation} {k₀ k k' : Kernel} {n : Nat}

theorem Filled.spawn (h : Filled n k) (hn : n ≤ 3) {reader : Reader} {pages : PageId → Page}
    (hspawn : Elf.spawn env t reader 0 none pages k = some k') : Filled (n + 1) k' := by
  obtain ⟨i, hslot, hc, hlast⟩ := spawn_creates hspawn
  have hpid : pidOf (k.lastPid + 1) = ((n + 1 : Nat) : Int) := by
    rw [h.last]
    interval_cases n <;> decide
  rw [hpid] at hc
  obtain ⟨hpos, hunused, hbefore⟩ := Kernel.unusedSlot_eq.mp hslot
  have hi : i.val = n + 1 := by
    have hge : ¬i.val ≤ n := fun hle => (h.taken i hpos hle).1 hunused
    by_contra hne
    have hn' : n + 1 < 17 := by omega
    have hlt : (⟨n + 1, hn'⟩ : Slot) < i := Fin.lt_def.mpr (by change n + 1 < i.val; omega)
    have hfree := h.vacant ⟨n + 1, hn'⟩ (by change ¬(1 ≤ n + 1 ∧ n + 1 ≤ n); omega)
    exact hbefore _ (Nat.succ_pos n) hlt hfree.2
  have hold {j : Slot} (hj : j ≠ i) : (k.procSet j).pid ≠ ((n + 1 : Nat) : Int) := by
    intro hp
    by_cases hin : 1 ≤ j.val ∧ j.val ≤ n
    · have hval : ((n + 1 : Nat) : Int) = j.val := hp.symm.trans (h.taken j hin.1 hin.2).2
      omega
    · have hzero : ((n + 1 : Nat) : Int) = 0 := hp.symm.trans (h.vacant j hin).1
      omega
  constructor
  · rw [hlast, h.last]
    interval_cases n <;> rfl
  · intro j hj hle
    by_cases hji : j = i
    · subst hji
      rw [hi]
      exact hc.live
    · have hin : j.val ≤ n := by
        have hne : j.val ≠ i.val := fun he => hji (Fin.ext he)
        omega
      obtain ⟨hlive, hp⟩ := h.taken j hj hin
      refine ⟨?_, (hc.pid j hji).trans hp⟩
      rw [hc.status j hji (hold hji)]
      exact hlive
  · intro j hj
    have hji : j ≠ i := by
      rintro rfl
      exact hj ⟨by omega, by omega⟩
    obtain ⟨hp, hstatus⟩ := h.vacant j fun hin => hj ⟨hin.1, by omega⟩
    exact ⟨(hc.pid j hji).trans hp, (hc.status j hji (hold hji)).trans hstatus⟩
  · intro x huse
    rcases hc.pages x with hkeep | ⟨-, -, hp⟩
    · rw [hkeep] at huse ⊢
      obtain ⟨hlow, hhigh⟩ := h.pages x huse
      exact ⟨hlow, hhigh.trans (Int.ofNat_le.mpr (Nat.le_succ n))⟩
    · rw [hp]
      exact ⟨Int.natCast_nonneg _, le_rfl⟩

theorem Filled.entry {table : PageInfoTable} (hentry : Kernel.grassEntry env table = .ok k)
    (hpages : ∀ x, (table x).use = true → (0 : Int) ≤ (table x).pid ∧ (table x).pid ≤ (1 : Int)) :
    Filled 1 k := by
  obtain ⟨hslots, -, hlast, -⟩ := Kernel.grassEntry_slots hentry
  have htable : k.pageInfoTable = table := by
    unfold Kernel.grassEntry at hentry
    obtain ⟨⟨pid, k₁⟩, halloc, hend⟩ := bind_eq_ok hentry
    cases hend
    unfold Kernel.procAlloc at halloc
    split at halloc
    · cases halloc
    · cases halloc
      rfl
  constructor
  · exact hlast
  · intro i hpos hle
    obtain rfl : i = 1 := Fin.ext (Nat.le_antisymm hle hpos)
    rw [Live, hslots, if_pos rfl]
    exact ⟨ProcStatus.noConfusion, rfl⟩
  · intro i hi
    have hne : i ≠ 1 := by
      rintro rfl
      exact hi ⟨le_rfl, le_rfl⟩
    rw [hslots, if_neg hne]
    exact ⟨rfl, rfl⟩
  · rw [htable]
    exact hpages

theorem Booted.filled (h : Booted env t k) : Filled 4 k := by
  obtain ⟨htables, hload, hentry, hterminal, hfile, hshell⟩ := h
  rename_i table reader reader₂ reader₃ reader₄ pages pages₂ pages₃ pages₄ m k₁ k₂ k₃
  have hclaims := (elfLoad_claims t gpidProcess reader 0 none ⟨table, pages⟩).of_ok hload
  have hpages (x : PageId) (huse : (m.table x).use = true) :
      (0 : Int) ≤ (m.table x).pid ∧ (m.table x).pid ≤ (1 : Int) := by
    rcases hclaims x with hkeep | ⟨-, -, hp⟩
    · rw [hkeep] at huse ⊢
      have hzero : (table x).pid = 0 := htables x huse
      change (0 : Int) ≤ (table x).pid ∧ (table x).pid ≤ (1 : Int)
      rw [hzero]
      exact ⟨le_rfl, by decide⟩
    · rw [hp]
      exact ⟨by decide, le_rfl⟩
  have hone := Filled.entry hentry hpages
  exact ((hone.spawn (by decide) hterminal).spawn (by decide) hfile).spawn (by decide) hshell

theorem Booted.owned (h : Booted env t k) : Owned k k := by
  have hf := h.filled
  have hsystem {p : Int} (hlow : 1 ≤ p) (hhigh : p ≤ 4) : ∃ i, Live k i p := by
    have hlt : p.toNat < 17 := by omega
    have hlive := hf.taken ⟨p.toNat, hlt⟩ (by change 1 ≤ p.toNat; omega) (by change p.toNat ≤ 4; omega)
    have hp : ((p.toNat : Nat) : Int) = p := Int.toNat_of_nonneg (by omega)
    rw [← hp]
    exact ⟨_, hlive⟩
  constructor
  · intro i j hi hpid
    by_cases hin : 1 ≤ i.val ∧ i.val ≤ 4
    · have hival : (k.procSet i).pid = (i.val : Int) := (hf.taken i hin.1 hin.2).2
      by_cases hjn : 1 ≤ j.val ∧ j.val ≤ 4
      · have hij : (i.val : Int) = j.val := hival.symm.trans (hpid.trans (hf.taken j hjn.1 hjn.2).2)
        exact Fin.ext (Int.ofNat_inj.mp hij)
      · have hzero : (i.val : Int) = 0 := hival.symm.trans (hpid.trans (hf.vacant j hjn).1)
        omega
    · exact absurd (hf.vacant i hin).2 hi
  · exact hf.vacant 0 (by decide)
  · exact fun p hp => hsystem hp.1 hp.2
  · intro x huse hne
    obtain ⟨hlow, hhigh⟩ := hf.pages x huse
    exact hsystem (lt_of_le_of_ne hlow (Ne.symm hne)) hhigh
  · intro x huse
    obtain ⟨hlow, hhigh⟩ := hf.pages x huse
    by_cases hzero : (k.pageInfoTable x).pid = 0
    · exact .inl hzero
    · exact .inr ⟨lt_of_le_of_ne hlow (Ne.symm hzero), hhigh⟩
  · exact fun _ _ => rfl
  · intro x hfree huse
    rw [huse] at hfree
    cases hfree

theorem Reached.owned (h : Reached env t k₀ k) (hboot : Booted env t k₀) : Owned k₀ k := by
  induction h with
  | boot => exact hboot.owned
  | spawn _ hspawn hpids ih =>
    obtain ⟨i, -, hc, -⟩ := spawn_creates hspawn
    exact ih.creates hc hpids
  | exit _ hsender huser ih => exact ih.exit hsender huser
  | killall _ ih => exact ih.killall

/-- A process that is created has had no pages. -/
theorem Reached.pageless (h : Reached env t k₀ k) (hboot : Booted env t k₀) {reader : Reader} {argc : Int32}
    {argv : Option (Fin cmdNargs → Fin cmdArgLen → UInt8)} {pages : PageId → Page}
    (hspawn : Elf.spawn env t reader argc argv pages k = some k') (hpids : NoSharedPid k') (x : PageId)
    (huse : (k.pageInfoTable x).use = true) : (k.pageInfoTable x).pid ≠ pidOf (k.lastPid + 1) := by
  obtain ⟨i, -, hc, -⟩ := spawn_creates hspawn
  have ho := h.owned hboot
  intro hp
  by_cases hzero : (k.pageInfoTable x).pid = 0
  · exact hc.other hpids hc.zero_ne (ho.idle.1.trans (hzero.symm.trans hp))
  · obtain ⟨j, hj⟩ := ho.owner x huse hzero
    exact hc.other hpids (hc.ne_of_live hj) (hj.2.trans hp)

end Boot

/-- Every page in use belongs to exactly one live process, `mmu_alloc` gives out unused pages
only, and without user processes the pages in use are those of the system processes again. -/
theorem page_ownership {env : Env} {t : Translation} {k₀ k : Kernel} (hboot : Booted env t k₀)
    (h : Reached env t k₀ k) :
    (∀ x, (k.pageInfoTable x).use = true → (k.pageInfoTable x).pid ≠ 0 →
      ∃! i, Live k i (k.pageInfoTable x).pid) ∧
    (∀ table i table', Earth.allocPage table = .ok (i, table') → (table i).use = false) ∧
    ((∀ i p, Live k i p → SystemPid p) → ∀ x, (k.pageInfoTable x).use = (k₀.pageInfoTable x).use ∧
      ((k.pageInfoTable x).use = true → k.pageInfoTable x = k₀.pageInfoTable x)) := by
  have ho := h.owned hboot
  refine ⟨fun x huse hpid => ?_, fun table i table' halloc => (allocPage_free halloc).1, fun honly x => ?_⟩
  · obtain ⟨i, hi⟩ := ho.owner x huse hpid
    refine ⟨i, hi, fun j hj => ?_⟩
    exact ho.distinct j i hj.1 (hj.2.trans hi.2.symm)
  · cases hold : (k₀.pageInfoTable x).use with
    | true =>
      have hkept := ho.kept x hold
      rw [hkept]
      exact ⟨hold, fun _ => rfl⟩
    | false =>
      cases huse : (k.pageInfoTable x).use with
      | false => exact ⟨rfl, nofun⟩
      | true =>
        have huser := ho.user x hold huse
        obtain ⟨i, hi⟩ := ho.owner x huse fun hzero => huser (.inl hzero)
        exact absurd (.inr (honly i _ hi)) huser

def bare : Reader := fun _ _ => 0

/-- The kernel after the system processes have been loaded from such files. -/
def bareBoot (env : Env) (t : Translation) : Option Kernel :=
  match elfLoad t gpidProcess bare 0 none ⟨fun _ => Earth.PageInfo.zero, fun _ _ => 0⟩ with
  | .error _ => none
  | .ok m =>
    match Kernel.grassEntry env m.table with
    | .error _ => none
    | .ok k =>
      ((spawn env t bare 0 none (fun _ _ => 0) k).bind
        (spawn env t bare 0 none fun _ _ => 0)).bind (spawn env t bare 0 none fun _ _ => 0)

theorem booted_of_bare {env : Env} {t : Translation} {k : Kernel} (h : bareBoot env t = some k) :
    Booted env t k := by
  unfold bareBoot at h
  split at h
  · cases h
  · rename_i m hload
    split at h
    · cases h
    · rename_i k₁ hentry
      obtain ⟨k₃, h, hshell⟩ := Option.bind_eq_some_iff.mp h
      obtain ⟨k₂, hterminal, hfile⟩ := Option.bind_eq_some_iff.mp h
      exact .intro (fun _ huse => absurd huse Bool.false_ne_true) hload hentry hterminal hfile hshell

/-- A user process comes and goes, its four pages with it. -/
theorem page_ownership_command : ∃ k₀ k : Kernel, k.lastPid = 5 ∧
    ∀ x, (k.pageInfoTable x).use = (k₀.pageInfoTable x).use := by
  have hrun : ((bareBoot still .softTlb).bind fun k₀ =>
      (spawn still .softTlb bare 0 none (fun _ _ => 0) k₀).map fun k => (k₀, k)).any (fun r =>
        decide (NoSharedPid r.2 ∧ Live r.2 5 5 ∧ (r.2.procFree still 5).lastPid = 5 ∧
          ∀ i : Slot, ((r.2.procFree still 5).procSet i).status ≠ .unused →
            SystemPid ((r.2.procFree still 5).procSet i).pid)) = true := by
    decide +kernel
  obtain ⟨⟨k₀, k⟩, hspawned, hk⟩ := (Option.any_eq_true _ _).mp hrun
  obtain ⟨hpids, hlive, hlast, honly⟩ := of_decide_eq_true hk
  obtain ⟨k₀', hboot, hspawn⟩ := Option.bind_eq_some_iff.mp hspawned
  obtain ⟨k', hspawn, heq⟩ := Option.map_eq_some_iff.mp hspawn
  cases heq
  have hreached := (Reached.boot.spawn hspawn hpids).exit hlive (by decide)
  refine ⟨k₀, k.procFree still 5, hlast, fun x => ?_⟩
  have howned := page_ownership (booted_of_bare hboot) hreached
  refine (howned.2.2 (fun i p hi => ?_) x).1
  rw [← hi.2]
  exact honly i hi.1

end OsSuite.Elf
