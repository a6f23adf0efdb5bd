import OsSuite.WorkSplit

/-! Workers that share a memory. A step writes one location from what it reads at others; steps that
do not touch what the others write can be taken in any order. -/

namespace OsSuite.Interference

variable {L V C : Type}

structure Step (L V : Type) where
  dst : L
  srcs : List L
  op : List V → V

/-- Neither writes what the other one reads or writes. -/
structure Apart (s t : Step L V) : Prop where
  dst : s.dst ≠ t.dst
  left : s.dst ∉ t.srcs
  right : t.dst ∉ s.srcs

theorem Apart.symm {s t : Step L V} (h : Apart s t) : Apart t s := ⟨h.dst.symm, h.right, h.left⟩

/-- Each location belongs to at most one call. A call writes its own locations only, and reads only
these and those that belong to none. -/
structure Separate (body : C → List (Step L V)) (owner : L → Option C) : Prop where
  writes : ∀ c, ∀ s ∈ body c, owner s.dst = some c
  reads : ∀ c, ∀ s ∈ body c, ∀ a ∈ s.srcs, owner a = some c ∨ owner a = none

variable {s t : Step L V} {l l' out : List (Step L V)} {m : L → V} {a : L} {body : C → List (Step L V)}
  {owner : L → Option C} {calls : List (List C)} {cs : List C} {c c' : C}

theorem Separate.apart (h : Separate body owner) (hne : c ≠ c') : ∀ s ∈ body c, ∀ t ∈ body c', Apart s t := by
  have hread {c c' : C} (hne : c ≠ c') {s t : Step L V} (hs : s ∈ body c) (ht : t ∈ body c') : s.dst ∉ t.srcs := by
    intro hmem
    have hown := h.writes c s hs
    rcases h.reads c' t ht s.dst hmem with hother | hnone
    · exact hne (Option.some.inj (hown.symm.trans hother))
    · cases hown.symm.trans hnone
  intro s hs t ht
  refine ⟨fun heq => ?_, hread hne hs ht, hread hne.symm ht hs⟩
  exact hne (Option.some.inj ((h.writes c s hs).symm.trans (heq ▸ h.writes c' t ht)))

theorem Separate.dst_ne (h : Separate body owner) (hc : ∀ c ∈ cs, owner a ≠ some c) :
    ∀ s ∈ cs.flatMap body, s.dst ≠ a := by
  intro s hs heq
  obtain ⟨c, hmem, hs⟩ := List.mem_flatMap.mp hs
  exact hc c hmem (heq ▸ h.writes c s hs)

variable [DecidableEq L]

def Step.run (s : Step L V) (m : L → V) : L → V := Function.update m s.dst (s.op (s.srcs.map m))

def runs (steps : List (Step L V)) (m : L → V) : L → V := steps.foldl (fun m s => s.run m) m

theorem Step.run_of_ne (h : s.dst ≠ a) : s.run m a = m a := Function.update_of_ne h.symm _ _

theorem Step.op_run (h : t.dst ∉ s.srcs) : s.srcs.map (t.run m) = s.srcs.map m := by
  apply List.map_congr_left
  intro a ha
  exact Step.run_of_ne fun heq => h (heq ▸ ha)

theorem Apart.comm (h : Apart s t) : s.run (t.run m) = t.run (s.run m) := by
  have hs : s.op (s.srcs.map (t.run m)) = s.op (s.srcs.map m) := congrArg s.op (Step.op_run h.right)
  have ht : t.op (t.srcs.map (s.run m)) = t.op (t.srcs.map m) := congrArg t.op (Step.op_run h.left)
  calc s.run (t.run m) = Function.update (t.run m) s.dst (s.op (s.srcs.map m)) := by rw [Step.run, hs]
    _ = Function.update (s.run m) t.dst (t.op (t.srcs.map m)) := Function.update_comm h.dst.symm _ _ _
    _ = t.run (s.run m) := by rw [Step.run.eq_1 t, ht]

theorem runs_append (l l' : List (Step L V)) (m : L → V) : runs (l ++ l') m = runs l' (runs l m) :=
  List.foldl_append

theorem runs_cons (s : Step L V) (l : List (Step L V)) (m : L → V) : runs (s :: l) m = runs l (s.run m) := rfl

theorem runs_of_ne (h : ∀ s ∈ l, s.dst ≠ a) : runs l m a = m a := by
  induction l generalizing m with
  | nil => rfl
  | cons s l ih =>
    rw [runs_cons, ih fun t ht => h t (List.mem_cons_of_mem s ht), Step.run_of_ne (h s List.mem_cons_self)]

/-- A step can be taken before all those that it does not touch. -/
theorem runs_step_comm (h : ∀ t ∈ l, Apart s t) : s.run (runs l m) = runs l (s.run m) := by
  induction l generalizing m with
  | nil => rfl
  | cons t l ih =>
    rw [runs_cons, runs_cons, ih fun u hu => h u (List.mem_cons_of_mem t hu), (h t List.mem_cons_self).comm]

theorem runs_comm (h : ∀ s ∈ l, ∀ t ∈ l', Apart s t) : runs l (runs l' m) = runs l' (runs l m) := by
  induction l generalizing m with
  | nil => rfl
  | cons s l ih =>
    rw [runs_cons, runs_cons, runs_step_comm (h s List.mem_cons_self), ih fun t ht => h t (List.mem_cons_of_mem s ht)]

/-- Workers that keep apart reach one memory, in whatever order they take turns: that of one worker
after the other. -/
theorem runs_interleaving {ls : List (List (Step L V))} {out : List (Step L V)}
    (hapart : ls.Pairwise fun l l' => ∀ s ∈ l, ∀ t ∈ l', Apart s t) (h : Interleaving ls out) :
    runs out m = runs ls.flatten m := by
  induction h generalizing m with
  | done h => rw [List.flatten_eq_nil_iff.mpr h]
  | @turn before after l out x h ih =>
    obtain ⟨hbefore, hrest, hcross⟩ := List.pairwise_append.mp hapart
    obtain ⟨hl, hafter⟩ := List.pairwise_cons.mp hrest
    have hapart' : (before ++ l :: after).Pairwise fun l l' => ∀ s ∈ l, ∀ t ∈ l', Apart s t := by
      refine List.pairwise_append.mpr ⟨hbefore, List.pairwise_cons.mpr ⟨?_, hafter⟩, ?_⟩
      · exact fun l' hl' s hs => hl l' hl' s (List.mem_cons_of_mem x hs)
      · intro k hk l' hl' s hs t ht
        rcases List.mem_cons.mp hl' with rfl | hl'
        · exact hcross k hk _ List.mem_cons_self s hs t (List.mem_cons_of_mem x ht)
        · exact hcross k hk l' (List.mem_cons_of_mem _ hl') s hs t ht
    have hfirst : ∀ t ∈ before.flatten, Apart x t := by
      intro t ht
      obtain ⟨k, hk, htk⟩ := List.mem_flatten.mp ht
      exact (hcross k hk _ List.mem_cons_self t htk x List.mem_cons_self).symm
    rw [runs_cons, ih hapart', List.flatten_append, List.flatten_append, runs_append, runs_append,
      ← runs_step_comm hfirst]
    rfl

theorem Separate.runs_call (h : Separate body owner) (hnodup : cs.Nodup) (hc : c ∈ cs) (hown : owner a = some c) :
    runs (cs.flatMap body) m a = runs (body c) m a := by
  obtain ⟨pre, post, rfl⟩ := List.append_of_mem hc
  have hnot : c ∉ pre ++ post := (List.nodup_cons.mp (List.nodup_middle.mp hnodup)).1
  have hne {c' : C} (hc' : c' ∈ pre ++ post) : c' ≠ c := fun heq => hnot (heq ▸ hc')
  have hother {c' : C} (hc' : c' ∈ pre ++ post) : owner a ≠ some c' := by
    rw [hown]
    exact fun heq => hne hc' (Option.some.inj heq).symm
  have hcomm : ∀ s ∈ pre.flatMap body, ∀ t ∈ body c, Apart s t := by
    intro s hs t ht
    obtain ⟨c', hc', hs⟩ := List.mem_flatMap.mp hs
    exact h.apart (hne (List.mem_append_left post hc')) s hs t ht
  rw [List.flatMap_append, List.flatMap_cons, runs_append, runs_append,
    runs_of_ne (h.dst_ne fun c' hc' => hother (List.mem_append_right pre hc')), ← runs_comm hcomm,
    runs_of_ne (h.dst_ne fun c' hc' => hother (List.mem_append_left post hc'))]

/-- Threads that share out the calls, each taking the steps of its own in turn. -/
theorem Separate.interleaving (h : Separate body owner) (hnodup : calls.flatten.Nodup)
    (hout : Interleaving (calls.map (·.flatMap body)) out) : runs out m = runs (calls.flatten.flatMap body) m := by
  have hpair : (calls.map (·.flatMap body)).Pairwise fun l l' => ∀ s ∈ l, ∀ t ∈ l', Apart s t := by
    refine List.pairwise_map.mpr ((List.nodup_flatten.mp hnodup).2.imp fun {cs cs'} hdisj => ?_)
    intro s hs t ht
    obtain ⟨c, hc, hs⟩ := List.mem_flatMap.mp hs
    obtain ⟨c', hc', ht⟩ := List.mem_flatMap.mp ht
    have hne : c ≠ c' := by
      rintro rfl
      exact hdisj hc hc'
    exact h.apart hne s hs t ht
  have hflat : (calls.map (·.flatMap body)).flatten = calls.flatten.flatMap body := by
    simp only [List.flatMap_def, List.map_flatten, List.flatten_flatten, List.map_map]
    rfl
  rw [runs_interleaving hpair hout, hflat]

theorem Separate.runs_own (h : Separate body owner) (hnodup : calls.flatten.Nodup)
    (hout : Interleaving (calls.map (·.flatMap body)) out) (hc : c ∈ calls.flatten) (hown : owner a = some c) :
    runs out m a = runs (body c) m a := by
  rw [h.interleaving hnodup hout, h.runs_call hnodup hc hown]

theorem Separate.runs_frame (h : Separate body owner) (hnodup : calls.flatten.Nodup)
    (hout : Interleaving (calls.map (·.flatMap body)) out) (hnone : ∀ c ∈ calls.flatten, owner a ≠ some c) :
    runs out m a = m a := by
  rw [h.interleaving hnodup hout, runs_of_ne (h.dst_ne hnone)]

end OsSuite.Interference
