import Mathlib

/-! Files as sparse arrays: a map from keys and offsets to values, where the
size of a file is one more than the largest offset put into it. -/

namespace OsSuite.SparseFiles

variable {κ ω β : Type*} [DecidableEq κ] [DecidableEq ω]

structure Put (κ ω β : Type*) where
  key : κ
  offset : ω
  value : β

structure Files (κ ω β : Type*) where
  size : κ → ℕ
  data : κ → ω → Option β

def empty : Files κ ω β := ⟨fun _ => 0, fun _ _ => none⟩

/-- `pos` is the position that an offset denotes. -/
def put (pos : ω → ℕ) (f : Files κ ω β) (w : Put κ ω β) : Files κ ω β where
  size := Function.update f.size w.key (max (f.size w.key) (pos w.offset + 1))
  data := Function.update f.data w.key
    (Function.update (f.data w.key) w.offset (some w.value))

def run (pos : ω → ℕ) (ws : List (Put κ ω β)) : Files κ ω β := ws.foldl (put pos) empty

/-- One more than the largest offset put at `k`, or 0 if there is none. -/
def sizeAfter (pos : ω → ℕ) (ws : List (Put κ ω β)) (k : κ) : ℕ :=
  ((ws.filter fun w => w.key = k).map fun w => pos w.offset + 1).foldl max 0

/-- The value of the last put at exactly `k` and `off`. -/
def lastPut (ws : List (Put κ ω β)) (k : κ) (off : ω) : Option β :=
  (ws.reverse.find? fun w => w.key = k ∧ w.offset = off).map Put.value

theorem run_append (pos : ω → ℕ) (ws : List (Put κ ω β)) (w : Put κ ω β) :
    run pos (ws ++ [w]) = put pos (run pos ws) w := by
  simp [run]

theorem put_size (pos : ω → ℕ) (f : Files κ ω β) (w : Put κ ω β) (k : κ) :
    (put pos f w).size k = if k = w.key then max (f.size k) (pos w.offset + 1) else f.size k := by
  by_cases hk : k = w.key
  · subst hk
    simp [put]
  · simp [put, hk]

theorem put_data (pos : ω → ℕ) (f : Files κ ω β) (w : Put κ ω β) (k : κ) (off : ω) :
    (put pos f w).data k off =
      if k = w.key ∧ off = w.offset then some w.value else f.data k off := by
  by_cases hk : k = w.key
  · subst hk
    by_cases ho : off = w.offset
    · subst ho
      simp [put]
    · simp [put, ho]
  · simp [put, hk]

theorem run_size (pos : ω → ℕ) (ws : List (Put κ ω β)) (k : κ) :
    (run pos ws).size k = sizeAfter pos ws k := by
  induction ws using List.reverseRecOn with
  | nil => rfl
  | append_singleton ws w ih =>
    rw [run_append, put_size, ih]
    by_cases hk : k = w.key
    · simp [sizeAfter, hk]
    · simp [sizeAfter, hk, Ne.symm hk]

theorem lastPut_append (ws : List (Put κ ω β)) (w : Put κ ω β) (k : κ) (off : ω) :
    lastPut (ws ++ [w]) k off =
      if k = w.key ∧ off = w.offset then some w.value else lastPut ws k off := by
  by_cases hw : w.key = k ∧ w.offset = off
  · obtain ⟨rfl, rfl⟩ := hw
    simp [lastPut]
  · have hw' : ¬ (k = w.key ∧ off = w.offset) := fun h => hw ⟨h.1.symm, h.2.symm⟩
    simp [lastPut, hw, hw']

theorem run_data (pos : ω → ℕ) (ws : List (Put κ ω β)) (k : κ) (off : ω) :
    (run pos ws).data k off = lastPut ws k off := by
  induction ws using List.reverseRecOn with
  | nil => rfl
  | append_singleton ws w ih => rw [run_append, put_data, ih, lastPut_append]

theorem run_size_eq_zero_iff (pos : ω → ℕ) (ws : List (Put κ ω β)) (k : κ) :
    (run pos ws).size k = 0 ↔ ∀ off, (run pos ws).data k off = none := by
  induction ws using List.reverseRecOn with
  | nil => simp [run, empty]
  | append_singleton ws w ih =>
    simp only [run_append, put_size, put_data]
    by_cases hk : k = w.key
    · have hput : ∃ off, (if k = w.key ∧ off = w.offset then some w.value else (run pos ws).data k off) ≠ none :=
        ⟨w.offset, by simp [hk]⟩
      have hpos : (if k = w.key then max ((run pos ws).size k) (pos w.offset + 1) else (run pos ws).size k) ≠ 0 := by
        rw [if_pos hk]
        omega
      exact ⟨fun hzero => absurd hzero hpos, fun hnone => absurd hnone (not_forall.mpr hput)⟩
    · simpa [hk] using ih

theorem run_size_eq_zero_iff_keys (pos : ω → ℕ) (ws : List (Put κ ω β)) (k : κ) :
    (run pos ws).size k = 0 ↔ ∀ w ∈ ws, w.key ≠ k := by
  induction ws using List.reverseRecOn with
  | nil => simp [run, empty]
  | append_singleton ws w ih =>
    rw [run_append, put_size, List.forall_mem_append, ← ih]
    by_cases hk : k = w.key
    · simp [hk]
    · simp [hk, Ne.symm hk]

end OsSuite.SparseFiles
