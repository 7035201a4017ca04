import PimLex.Common
import Mathlib.Data.Fintype.Prod
import Mathlib.Data.Prod.Lex
import Mathlib.Order.Interval.Finset.Nat

/-!
# The requests of an insert round

Each thread of an insert run takes its share of the requests in two rounds. Both
divisions round down; the remainder of the first goes to the last round of the
last thread, the remainder of the second is given only there too. Every other
thread with an odd share leaves out its last request.
-/

namespace PimLex

/-- `per_thread_ops`. -/
def perThreadOps (numQuerys : ℕ) : ℕ := numQuerys / threadNum

/-- `per_round_ops`. -/
def perRoundOps (numQuerys : ℕ) : ℕ := perThreadOps numQuerys / 2

/-- `round_start_ops` of a thread and a round. -/
def roundStartOps (numQuerys : ℕ) (r : Fin threadNum × Fin 2) : ℕ :=
  perThreadOps numQuerys * r.1 + perRoundOps numQuerys * r.2

/-- `round_end_ops` of a thread and a round. -/
def roundEndOps (numQuerys : ℕ) (r : Fin threadNum × Fin 2) : ℕ :=
  if r.2.val = 1 ∧ r.1.val = threadNum - 1 then numQuerys
  else perThreadOps numQuerys * r.1 + perRoundOps numQuerys * (r.2 + 1)

/-- The requests that a thread runs in a round. -/
def roundReqs (numQuerys : ℕ) (r : Fin threadNum × Fin 2) : Finset ℕ :=
  Finset.Ico (roundStartOps numQuerys r) (roundEndOps numQuerys r)

/-- The rounds of the threads share out all requests. -/
structure SplitsExactly (numQuerys : ℕ) : Prop where
  disjoint : ∀ r r', r ≠ r' → Disjoint (roundReqs numQuerys r) (roundReqs numQuerys r')
  cover : Finset.univ.biUnion (roundReqs numQuerys) = Finset.range numQuerys

section Rounds

variable {n i : ℕ} {r r' : Fin threadNum × Fin 2}

theorem mem_roundReqs : i ∈ roundReqs n r ↔ roundStartOps n r ≤ i ∧ i < roundEndOps n r :=
  Finset.mem_Ico

theorem perThreadOps_mul_le (n : ℕ) : perThreadOps n * threadNum ≤ n := Nat.div_mul_le_self n _

theorem two_mul_perRoundOps (n : ℕ) :
    2 * perRoundOps n = perThreadOps n - perThreadOps n % 2 := by
  unfold perRoundOps
  omega

/-- The share of a thread lies below the share of the next. -/
theorem perThreadOps_mul_succ_le {tid tid' : ℕ} (h : tid < tid') :
    perThreadOps n * tid + perThreadOps n ≤ perThreadOps n * tid' := by
  rw [← Nat.mul_succ]
  exact Nat.mul_le_mul_left _ h

/-- A round ends within the thread's share, except the last round of all. -/
theorem roundEndOps_le (hlast : ¬ (r.2.val = 1 ∧ r.1.val = threadNum - 1)) :
    roundEndOps n r ≤ perThreadOps n * r.1 + perThreadOps n := by
  have htwo := two_mul_perRoundOps n
  have hmul : perRoundOps n * (r.2 + 1) ≤ perRoundOps n * 2 :=
    Nat.mul_le_mul_left _ (Nat.succ_le_of_lt r.2.isLt)
  rw [roundEndOps, if_neg hlast]
  omega

theorem roundEndOps_le_total (n : ℕ) (r : Fin threadNum × Fin 2) : roundEndOps n r ≤ n := by
  by_cases hlast : r.2.val = 1 ∧ r.1.val = threadNum - 1
  · rw [roundEndOps, if_pos hlast]
  · exact (roundEndOps_le hlast).trans
      ((perThreadOps_mul_succ_le r.1.isLt).trans (perThreadOps_mul_le n))

/-- The rounds follow each other, the threads in order and each thread's two in order. -/
theorem roundEndOps_le_roundStartOps (h : toLex r < toLex r') :
    roundEndOps n r ≤ roundStartOps n r' := by
  rcases Prod.Lex.toLex_lt_toLex.mp h with hthread | ⟨hthread, hround⟩
  · have hlast : ¬ (r.2.val = 1 ∧ r.1.val = threadNum - 1) := by
      have := r'.1.isLt
      omega
    exact (roundEndOps_le hlast).trans
      ((perThreadOps_mul_succ_le hthread).trans (Nat.le_add_right _ _))
  · have hfirst : ¬ (r.2.val = 1 ∧ r.1.val = threadNum - 1) := by
      rintro ⟨hone, -⟩
      omega
    rw [roundEndOps, if_neg hfirst, roundStartOps, hthread]
    exact Nat.add_le_add_left (Nat.mul_le_mul_left _ hround) _

theorem roundReqs_disjoint (h : r ≠ r') : Disjoint (roundReqs n r) (roundReqs n r') := by
  rw [Finset.disjoint_left]
  intro i hi hi'
  rw [mem_roundReqs] at hi hi'
  rcases lt_or_gt_of_ne (toLex.injective.ne h) with hlt | hgt
  · have := @roundEndOps_le_roundStartOps n _ _ hlt
    omega
  · have := @roundEndOps_le_roundStartOps n _ _ hgt
    omega

/-- The last request of an odd share, which only the last thread runs. -/
def DroppedRequest (n i : ℕ) : Prop :=
  perThreadOps n % 2 = 1 ∧ ∃ tid < threadNum - 1, i + 1 = perThreadOps n * (tid + 1)

/-- The two rounds of a thread lie end to end; only the last thread's reach the next share. -/
theorem mem_thread_iff {tid : Fin threadNum} :
    (∃ round, i ∈ roundReqs n (tid, round)) ↔ perThreadOps n * tid ≤ i ∧
      i < if tid.val = threadNum - 1 then n else perThreadOps n * tid + 2 * perRoundOps n := by
  have hfirst : i ∈ roundReqs n (tid, 0) ↔
      perThreadOps n * tid ≤ i ∧ i < perThreadOps n * tid + perRoundOps n := by
    rw [mem_roundReqs]
    simp [roundStartOps, roundEndOps]
  have hsecond : i ∈ roundReqs n (tid, 1) ↔ perThreadOps n * tid + perRoundOps n ≤ i ∧
      i < if tid.val = threadNum - 1 then n else perThreadOps n * tid + 2 * perRoundOps n := by
    rw [mem_roundReqs]
    simp [roundStartOps, roundEndOps, Nat.mul_comm]
  have hshare : perThreadOps n * tid + perRoundOps n ≤ n := by
    simpa [roundEndOps] using roundEndOps_le_total n (tid, 0)
  have hend : perThreadOps n * tid + perRoundOps n ≤
      if tid.val = threadNum - 1 then n else perThreadOps n * tid + 2 * perRoundOps n := by
    split <;> omega
  rw [Fin.exists_fin_two, hfirst, hsecond]
  omega

/-- A request is run in some round unless it is a dropped one. -/
theorem covered_iff : (∃ r, i ∈ roundReqs n r) ↔ i < n ∧ ¬ DroppedRequest n i := by
  have htwo := two_mul_perRoundOps n
  rw [Prod.exists]
  constructor
  · rintro ⟨tid, hround⟩
    have hlt : i < n := by
      obtain ⟨round, hmem⟩ := hround
      exact (mem_roundReqs.mp hmem).2.trans_le (roundEndOps_le_total n _)
    refine ⟨hlt, ?_⟩
    rintro ⟨hodd, tid', htid', hi⟩
    obtain ⟨hlow, hhigh⟩ := mem_thread_iff.mp hround
    rw [Nat.mul_succ] at hi
    -- the ranges of two threads do not meet
    rcases lt_trichotomy tid.val tid' with hbefore | heq | hafter
    · have hne : tid.val ≠ threadNum - 1 := by omega
      have hle := @perThreadOps_mul_succ_le n _ _ hbefore
      rw [if_neg hne] at hhigh
      omega
    · have hne : tid.val ≠ threadNum - 1 := by omega
      rw [if_neg hne, heq] at hhigh
      omega
    · have hle := @perThreadOps_mul_succ_le n _ _ hafter
      omega
  · rintro ⟨hlt, hkept⟩
    by_cases hlast : perThreadOps n * (threadNum - 1) ≤ i
    · refine ⟨⟨threadNum - 1, by decide⟩, mem_thread_iff.mpr ⟨hlast, ?_⟩⟩
      rw [if_pos rfl]
      exact hlt
    · -- the request lies in the share of one of the other threads
      have htid : i / perThreadOps n < threadNum - 1 := Nat.div_lt_of_lt_mul (not_le.mp hlast)
      have hpos : 0 < perThreadOps n := Nat.pos_of_ne_zero fun h => hlast (by rw [h]; omega)
      have hlow := Nat.mul_div_le i (perThreadOps n)
      have hhigh := Nat.lt_mul_div_succ i hpos
      refine ⟨⟨i / perThreadOps n, htid.trans (by decide)⟩, mem_thread_iff.mpr ⟨hlow, ?_⟩⟩
      rw [if_neg htid.ne]
      by_contra hend
      change ¬ i < perThreadOps n * (i / perThreadOps n) + 2 * perRoundOps n at hend
      rw [Nat.mul_succ] at hhigh
      refine hkept ⟨by omega, _, htid, ?_⟩
      rw [Nat.mul_succ]
      omega

/-- The insert rounds share out all requests exactly if the threads' shares are even. -/
theorem splitsExactly_iff (numQuerys : ℕ) :
    SplitsExactly numQuerys ↔ numQuerys / threadNum % 2 = 0 := by
  have hcover : Finset.univ.biUnion (roundReqs numQuerys) = Finset.range numQuerys ↔
      ∀ i < numQuerys, ¬ DroppedRequest numQuerys i := by
    have hmem : ∀ i, i ∈ Finset.univ.biUnion (roundReqs numQuerys) ↔
        i < numQuerys ∧ ¬ DroppedRequest numQuerys i := by
      intro i
      simp only [Finset.mem_biUnion, Finset.mem_univ, true_and, covered_iff]
    simp only [Finset.ext_iff, hmem, Finset.mem_range]
    exact forall_congr' fun i => and_iff_left_iff_imp
  constructor
  · intro h
    by_contra hodd
    have hpos : 0 < perThreadOps numQuerys := Nat.pos_of_ne_zero fun hzero => hodd (by
      rw [perThreadOps] at hzero
      rw [hzero])
    have hle : perThreadOps numQuerys ≤ numQuerys := Nat.div_le_self _ _
    refine hcover.mp h.cover (perThreadOps numQuerys - 1) (by omega) ⟨?_, 0, by decide, ?_⟩
    · rw [perThreadOps]
      omega
    · omega
  · intro heven
    refine ⟨fun _ _ => roundReqs_disjoint, hcover.mpr ?_⟩
    rintro i - ⟨hodd, -⟩
    rw [perThreadOps] at hodd
    omega

/-- With 32 requests every thread has one, and only the last thread runs its own. -/
theorem splitsExactly_drops :
    ¬ SplitsExactly 32 ∧ ∀ r, 0 ∉ roundReqs 32 r := by
  have hdropped : DroppedRequest 32 0 := ⟨by decide, 0, by decide, by decide⟩
  have hnone : ∀ r, 0 ∉ roundReqs 32 r := fun r hmem =>
    (covered_iff.mp ⟨r, hmem⟩).2 hdropped
  refine ⟨fun h => ?_, hnone⟩
  have hmem : 0 ∈ Finset.range 32 := Finset.mem_range.mpr (Nat.succ_pos 31)
  rw [← h.cover, Finset.mem_biUnion] at hmem
  obtain ⟨r, -, hr⟩ := hmem
  exact hnone r hr

end Rounds

end PimLex
