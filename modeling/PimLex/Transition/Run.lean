import Mathlib.Data.List.Basic
import Mathlib.Tactic.Common

/-!
# Runs of a scheduled system

A scheduled system has a total step function; the labels it is run on are the
scheduler's choices, the calls of a client, or both. An invariant kept by every
step holds along every run. A step that keeps the invariant only under a guard
still gives the invariant along the runs whose steps all meet the guard.
-/

namespace PimLex.Transition

variable {σ α : Type*} (step : σ → α → σ)

/-- The state after taking the steps labelled `as`, in order. -/
def run (s : σ) (as : List α) : σ := as.foldl step s

@[simp] theorem run_nil (s : σ) : run step s [] = s := rfl

@[simp] theorem run_cons (s : σ) (a : α) (as : List α) :
    run step s (a :: as) = run step (step s a) as := rfl

theorem run_append (s : σ) (as bs : List α) :
    run step s (as ++ bs) = run step (run step s as) bs := List.foldl_append

theorem run_concat (s : σ) (as : List α) (a : α) :
    run step s (as ++ [a]) = step (run step s as) a := by
  rw [run_append]
  rfl

/-- Every step of the run meets the guard in the state where it is taken. -/
def Guarded (guard : σ → α → Prop) : σ → List α → Prop
  | _, [] => True
  | s, a :: as => guard s a ∧ Guarded guard (step s a) as

/-- Every state the run visits, its first and its last included, satisfies `P`. -/
def Throughout (P : σ → Prop) : σ → List α → Prop
  | s, [] => P s
  | s, a :: as => P s ∧ Throughout P (step s a) as

instance Guarded.decidable (guard : σ → α → Prop) [∀ s a, Decidable (guard s a)] :
    ∀ s as, Decidable (Guarded step guard s as)
  | _, [] => isTrue trivial
  | s, a :: as =>
    have := Guarded.decidable guard (step s a) as
    inferInstanceAs (Decidable (_ ∧ _))

variable {step} {P : σ → Prop} {guard : σ → α → Prop} {s : σ} {as : List α}

theorem guarded_iff :
    Guarded step guard s as ↔
      ∀ pre a post, as = pre ++ a :: post → guard (run step s pre) a := by
  induction as generalizing s with
  | nil => simp [Guarded]
  | cons b bs ih =>
    rw [Guarded, ih]
    constructor
    · rintro ⟨hb, hbs⟩ pre a post heq
      cases pre with
      | nil =>
        rw [List.nil_append, List.cons.injEq] at heq
        obtain ⟨rfl, -⟩ := heq
        exact hb
      | cons c pre =>
        rw [List.cons_append, List.cons.injEq] at heq
        obtain ⟨rfl, heq⟩ := heq
        exact hbs pre a post heq
    · intro h
      exact ⟨h [] b bs rfl, fun pre a post heq => h (b :: pre) a post (by rw [heq]; rfl)⟩

theorem throughout_iff :
    Throughout step P s as ↔ ∀ pre post, as = pre ++ post → P (run step s pre) := by
  induction as generalizing s with
  | nil =>
    refine ⟨fun h pre post heq => ?_, fun h => h [] [] rfl⟩
    rw [(List.append_eq_nil_iff.mp heq.symm).1]
    exact h
  | cons b bs ih =>
    rw [Throughout, ih]
    constructor
    · rintro ⟨hs, hbs⟩ pre post heq
      cases pre with
      | nil => exact hs
      | cons c pre =>
        rw [List.cons_append, List.cons.injEq] at heq
        obtain ⟨rfl, heq⟩ := heq
        exact hbs pre post heq
    · intro h
      exact ⟨h [] _ rfl, fun pre post heq => h (b :: pre) post (by rw [heq]; rfl)⟩

theorem Throughout.last (h : Throughout step P s as) : P (run step s as) :=
  throughout_iff.mp h as [] (List.append_nil as).symm

theorem Throughout.mono {Q : σ → Prop} (h : Throughout step P s as)
    (hPQ : ∀ s, P s → Q s) : Throughout step Q s as :=
  throughout_iff.mpr fun pre post heq => hPQ _ (throughout_iff.mp h pre post heq)

/-- A guarded invariant holds throughout every run whose steps meet the guard. -/
theorem Guarded.throughout (h : Guarded step guard s as) (init : P s)
    (keep : ∀ s a, P s → guard s a → P (step s a)) : Throughout step P s as := by
  induction as generalizing s with
  | nil => exact init
  | cons b bs ih => exact ⟨init, ih h.2 (keep s b init h.1)⟩

/-- An invariant of every step holds after every run. -/
theorem run_invariant (init : P s) (keep : ∀ s a, P s → P (step s a)) (as : List α) :
    P (run step s as) := by
  induction as generalizing s with
  | nil => exact init
  | cons b bs ih => exact ih (keep s b init)

/-- A map that commutes with the steps from the states of an invariant commutes with runs. -/
theorem run_map {σ' : Type*} {step' : σ' → α → σ'} {g : σ → σ'} (init : P s)
    (keep : ∀ s a, P s → P (step s a)) (hmap : ∀ s a, P s → step' (g s) a = g (step s a))
    (as : List α) : run step' (g s) as = g (run step s as) := by
  induction as generalizing s with
  | nil => rfl
  | cons b bs ih => rw [run_cons, run_cons, hmap s b init, ih (keep s b init)]

/-- What steps bring about and never undo holds after a run exactly if it held before, or some
step of the run has brought it about. -/
theorem run_gains_iff {I : σ → Prop} {gain : σ → α → Prop} (init : I s)
    (keep : ∀ s, ∀ a ∈ as, I s → I (step s a))
    (gains : ∀ s, ∀ a ∈ as, I s → (P (step s a) ↔ P s ∨ gain s a)) :
    P (run step s as) ↔ P s ∨ ∃ pre a post, as = pre ++ a :: post ∧ gain (run step s pre) a := by
  induction as generalizing s with
  | nil => simp
  | cons b bs ih =>
    have hb : b ∈ b :: bs := List.mem_cons_self
    rw [run_cons, ih (keep s b hb init) (fun s a ha => keep s a (List.mem_cons_of_mem b ha))
      (fun s a ha => gains s a (List.mem_cons_of_mem b ha)), gains s b hb init, or_assoc]
    refine or_congr_right ⟨?_, ?_⟩
    · rintro (hgain | ⟨pre, a, post, rfl, hgain⟩)
      · exact ⟨[], b, bs, rfl, hgain⟩
      · exact ⟨b :: pre, a, post, rfl, hgain⟩
    · rintro ⟨pre, a, post, heq, hgain⟩
      cases pre with
      | nil =>
        rw [List.nil_append, List.cons.injEq] at heq
        obtain ⟨rfl, -⟩ := heq
        exact Or.inl hgain
      | cons c pre =>
        rw [List.cons_append, List.cons.injEq] at heq
        obtain ⟨rfl, rfl⟩ := heq
        exact Or.inr ⟨pre, a, post, rfl, hgain⟩

end PimLex.Transition
