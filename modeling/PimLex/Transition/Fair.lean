import PimLex.Transition.Threads
import Mathlib.Data.Set.Finite.Lattice

/-!
# Fair runs of a scheduled system

A step that changes the state lowers a measure, so a run that keeps giving every
label a turn comes to a state no step changes: a round either lowers the measure
or finds every label without effect.
-/

namespace PimLex.Transition

variable {σ α : Type*}

/-- No step changes the state. -/
def Stuck (step : σ → α → σ) (s : σ) : Prop := ∀ a, step s a = s

/-- Every round of the schedule gives each label a turn. -/
def Rounds (rounds : List (List α)) : Prop := ∀ round ∈ rounds, ∀ a, a ∈ round

/-- On the states of an invariant, a step that changes the state lowers the measure. -/
structure Lowers (step : σ → α → σ) (Inv : σ → Prop) (measure : σ → ℕ) : Prop where
  keep : ∀ s a, Inv s → Inv (step s a)
  lower : ∀ s a, Inv s → step s a = s ∨ measure (step s a) < measure s

variable {step : σ → α → σ} {Inv : σ → Prop} {measure : σ → ℕ} {s : σ}

theorem Stuck.run (h : Stuck step s) (as : List α) : run step s as = s := by
  induction as with
  | nil => rfl
  | cons a as ih => rw [run_cons, h a, ih]

theorem Lowers.run (h : Lowers step Inv measure) (hs : Inv s) (as : List α) :
    (Transition.run step s as = s ∧ ∀ a ∈ as, step s a = s) ∨
      measure (Transition.run step s as) < measure s := by
  induction as generalizing s with
  | nil => exact Or.inl ⟨rfl, by simp⟩
  | cons a as ih =>
    rw [run_cons]
    rcases h.lower s a hs with hsame | hlt
    · rw [hsame]
      refine (ih hs).imp_left fun ⟨hrun, hall⟩ => ⟨hrun, ?_⟩
      exact List.forall_mem_cons.mpr ⟨hsame, hall⟩
    · right
      rcases ih (h.keep s a hs) with ⟨hrun, -⟩ | hlt'
      · rwa [hrun]
      · exact Nat.lt_trans hlt' hlt

/-- After more rounds than the measure counts, no step changes the state. -/
theorem Lowers.stuck (h : Lowers step Inv measure) (hs : Inv s) {rounds : List (List α)}
    (hrounds : Rounds rounds) (hlen : measure s < rounds.length) :
    Stuck step (Transition.run step s rounds.flatten) := by
  induction rounds generalizing s with
  | nil => exact absurd hlen (Nat.not_lt_zero _)
  | cons round rounds ih =>
    obtain ⟨hround, hrest⟩ := List.forall_mem_cons.mp hrounds
    rw [List.flatten_cons, run_append]
    rcases h.run hs round with ⟨hrun, hall⟩ | hlt
    · -- the round gave every label a turn and none had an effect
      have hstuck : Stuck step s := fun a => hall a (hround a)
      rwa [hrun, hstuck.run]
    · apply ih (run_invariant hs h.keep round) hrest
      rw [List.length_cons] at hlen
      omega

/-- Where every step that changes the state descends in a well-founded order, a number of rounds
bounds all the runs from a state, however long its rounds are. -/
theorem exists_rounds_stuck [Finite α] {lt : σ → σ → Prop} (wf : WellFounded lt)
    (keep : ∀ s a, Inv s → Inv (step s a))
    (lower : ∀ s a, Inv s → step s a = s ∨ lt (step s a) s) (hs : Inv s) :
    ∃ n, ∀ as rounds, Rounds rounds → n ≤ rounds.length →
      Stuck step (Transition.run step s (as ++ rounds.flatten)) := by
  induction s using wf.induction with
  | _ s ih =>
  -- each label that changes the state comes with its own bound
  have hnext : ∀ a, ∃ n, step s a = s ∨ ∀ as rounds, Rounds rounds → n ≤ rounds.length →
      Stuck step (Transition.run step (step s a) (as ++ rounds.flatten)) := by
    intro a
    rcases lower s a hs with hsame | hlt
    · exact ⟨0, Or.inl hsame⟩
    · obtain ⟨n, hn⟩ := ih _ hlt (keep s a hs)
      exact ⟨n, Or.inr hn⟩
  choose n hn using hnext
  obtain ⟨m, hm⟩ := (Set.finite_range n).bddAbove
  have hbound : ∀ a, n a ≤ m := fun a => hm (Set.mem_range_self a)
  -- a list of labels without effect, or one that reaches a smaller state
  have hwalk : ∀ as rounds, Rounds rounds → m ≤ rounds.length →
      (∀ a ∈ as, step s a = s) ∨
        Stuck step (Transition.run step s (as ++ rounds.flatten)) := by
    intro as rounds hrounds hlen
    induction as with
    | nil => exact Or.inl (by simp)
    | cons a as ihas =>
      rcases hn a with hsame | hstuck
      · rw [List.cons_append, run_cons, hsame]
        refine ihas.imp_left fun hall => List.forall_mem_cons.mpr ⟨hsame, hall⟩
      · exact Or.inr (hstuck as rounds hrounds ((hbound a).trans hlen))
  refine ⟨m + 1, fun as rounds hrounds hlen => ?_⟩
  cases rounds with
  | nil => exact absurd hlen (Nat.not_succ_le_zero m)
  | cons round rounds =>
    obtain ⟨hround, hrest⟩ := List.forall_mem_cons.mp hrounds
    rw [List.flatten_cons, ← List.append_assoc]
    rcases hwalk (as ++ round) rounds hrest (Nat.le_of_succ_le_succ hlen) with hall | hstuck
    · have hstuck : Stuck step s := fun a => hall a (List.mem_append_right _ (hround a))
      rwa [hstuck.run]
    · exact hstuck

section Threads

variable {ι τ : Type*} [DecidableEq ι] {act : ι → σ → τ → σ × τ} {s : System ι σ τ} {t : ι}

/-- Steps that wait or bring their own thread closer to its end lower the sum over the threads. -/
theorem System.lowers [Fintype ι] {Inv : System ι σ τ → Prop} {w : τ → ℕ}
    (keep : ∀ s t, Inv s → Inv (s.step act t))
    (lower : ∀ s t, Inv s → act t s.shared (s.threads t) = (s.shared, s.threads t) ∨
      w (act t s.shared (s.threads t)).2 < w (s.threads t)) :
    Lowers (System.step act) Inv fun s => ∑ t, w (s.threads t) := by
  refine ⟨keep, fun s t h => ?_⟩
  rcases lower s t h with hsame | hlt
  · exact Or.inl (System.step_of_act_eq hsame)
  · right
    have hsum := System.sum_step act s t w
    omega

/-- In a stuck state every thread's action leaves the thread as it is. -/
theorem Stuck.act_eq (h : Stuck (System.step act) s) (t : ι) :
    (act t s.shared (s.threads t)).2 = s.threads t := by
  have hstep := congrArg (fun s : System ι σ τ => s.threads t) (h t)
  exact System.step_self.symm.trans hstep

end Threads

end PimLex.Transition
