import PimLex.Transition.Run
import Mathlib.Algebra.BigOperators.Fin
import Mathlib.Algebra.Order.BigOperators.Group.Finset

/-!
# Threads over a shared state

A system of threads has one shared state and one local state for each thread. A
step runs one thread's action on the shared state and its own local state, so
another thread's local state never changes; a quantity summed over the threads
changes by what the acting thread contributes.
-/

namespace PimLex.Transition

/-- A shared state and the local states of the threads. -/
structure System (ι σ τ : Type*) where
  shared : σ
  threads : ι → τ

namespace System

variable {ι σ τ : Type*} [DecidableEq ι] {act : ι → σ → τ → σ × τ} {s : System ι σ τ} {t u : ι}

/-- The system after thread `t` has left these states. -/
def put (s : System ι σ τ) (t : ι) (shared : σ) (thread : τ) : System ι σ τ :=
  ⟨shared, Function.update s.threads t thread⟩

@[simp] theorem put_shared {shared : σ} {thread : τ} : (s.put t shared thread).shared = shared :=
  rfl

@[simp] theorem put_self {shared : σ} {thread : τ} : (s.put t shared thread).threads t = thread :=
  Function.update_self _ _ _

theorem put_of_ne {shared : σ} {thread : τ} (h : u ≠ t) :
    (s.put t shared thread).threads u = s.threads u :=
  Function.update_of_ne h _ _

/-- Thread `t` takes its next step. -/
def step (act : ι → σ → τ → σ × τ) (s : System ι σ τ) (t : ι) : System ι σ τ :=
  let (shared, thread) := act t s.shared (s.threads t)
  ⟨shared, Function.update s.threads t thread⟩

theorem put_eq_self : s.put t s.shared (s.threads t) = s := by
  rw [put, Function.update_eq_self]

theorem step_eq_put (act : ι → σ → τ → σ × τ) (s : System ι σ τ) (t : ι) :
    s.step act t = s.put t (act t s.shared (s.threads t)).1 (act t s.shared (s.threads t)).2 :=
  rfl

theorem step_self : (s.step act t).threads t = (act t s.shared (s.threads t)).2 :=
  Function.update_self _ _ _

theorem step_of_ne (h : u ≠ t) : (s.step act t).threads u = s.threads u :=
  Function.update_of_ne h _ _

/-- An action without effect is a step without effect. -/
theorem step_of_act_eq (h : act t s.shared (s.threads t) = (s.shared, s.threads t)) :
    s.step act t = s := by
  rw [step_eq_put, h, put_eq_self]

/-- A predicate on the threads after a step: the acting thread's new state, and the others. -/
theorem forall_step {P : ι → τ → Prop} :
    (∀ u, P u ((s.step act t).threads u)) ↔
      P t (act t s.shared (s.threads t)).2 ∧ ∀ u ≠ t, P u (s.threads u) :=
  Function.forall_update_iff _ _

section Counts

variable [Fintype ι] {p : τ → Bool} {c c' : ℕ}

/-- The counter `c` counts the threads that satisfy `p`. -/
def Counts (s : System ι σ τ) (p : τ → Bool) (c : ℕ) : Prop := c = ∑ u, (p (s.threads u)).toNat

theorem sum_step (act : ι → σ → τ → σ × τ) (s : System ι σ τ) (t : ι) (w : τ → ℕ) :
    ∑ u, w ((s.step act t).threads u) + w (s.threads t) =
      ∑ u, w (s.threads u) + w (act t s.shared (s.threads t)).2 := by
  -- the two sums agree on the threads that did not act
  have hrest : ∑ u ∈ Finset.univ.erase t, w ((s.step act t).threads u) =
      ∑ u ∈ Finset.univ.erase t, w (s.threads u) :=
    Finset.sum_congr rfl fun u hu => by rw [step_of_ne (Finset.ne_of_mem_erase hu)]
  rw [← Finset.add_sum_erase Finset.univ _ (Finset.mem_univ t),
    ← Finset.add_sum_erase Finset.univ (fun u => w (s.threads u)) (Finset.mem_univ t), hrest,
    step_self]
  omega

theorem Counts.le (h : s.Counts p c) (t : ι) : (p (s.threads t)).toNat ≤ c := by
  rw [h, ← Finset.add_sum_erase Finset.univ (fun u => (p (s.threads u)).toNat)
    (Finset.mem_univ t)]
  exact Nat.le_add_right _ _

/-- A counter that follows the acting thread keeps counting. -/
theorem Counts.step (h : s.Counts p c)
    (hact : c' + (p (s.threads t)).toNat = c + (p (act t s.shared (s.threads t)).2).toNat) :
    (s.step act t).Counts p c' := by
  have hsum := sum_step act s t fun th => (p th).toNat
  unfold Counts at h ⊢
  omega

theorem Counts.none (h : s.Counts p 0) (t : ι) : p (s.threads t) = false := by
  have ht := h.le t
  cases hp : p (s.threads t) with
  | false => rfl
  | true =>
    rw [hp] at ht
    exact absurd ht (by decide)

omit [DecidableEq ι] in
/-- A counter at the number of threads counts them all. -/
theorem Counts.all (h : s.Counts p c) (hc : Fintype.card ι ≤ c) (t : ι) :
    p (s.threads t) = true := by
  by_contra hp
  rw [Bool.not_eq_true] at hp
  have hlt : ∑ u, (p (s.threads u)).toNat < ∑ _u : ι, 1 :=
    Finset.sum_lt_sum (fun u _ => Bool.toNat_le _) ⟨t, Finset.mem_univ t, by rw [hp]; decide⟩
  rw [Finset.sum_const, Finset.card_univ, smul_eq_mul, mul_one] at hlt
  exact absurd hc (by rw [h]; omega)

omit [DecidableEq ι] in
/-- When all threads are counted, the counter stands at their number. -/
theorem Counts.eq_card (h : s.Counts p c) (hall : ∀ t, p (s.threads t) = true) :
    c = Fintype.card ι := by
  rw [h]
  simp [hall]

end Counts

end System

end PimLex.Transition
