import PimLex.Common
import Mathlib.Order.Basic
import Mathlib.Tactic.Common

/-!
# Fitting a partition's model

A model that is too large for a DPU is built anew until it fits. The loop halves
the error bound, and a smaller bound never gives a smaller model: so it ends only
where it has nothing to do, and elsewhere it comes to a bound by whose square `build`
cannot divide. These are the multiples of 2³², zero among them: squares are words of
64 bits.

What the vendored index makes of a slice that is not empty is a parameter, its
number of segments for an error bound; so are the comparisons of the logarithmic
costs.
-/

namespace PimLex

/-- `MAX_MODEL_SIZE`. -/
abbrev maxModelSize : ℕ := 2560

/-- What a build must never do. -/
inductive BuildFault where
  | divideByZero
  deriving DecidableEq, Repr

/-- What the fit of a partition depends on: the size of a slice's model for an error bound, whether
a size lets the code try the doubled bound, and whether the first of two sizes is cheaper. -/
structure ModelSizes where
  size : ℕ → ℕ
  tries : ℕ → Bool
  cheaper : ℕ → ℕ → Bool

namespace ModelSizes

variable (m : ModelSizes)

/-- `PGMIndex::build` as far as its size, which divides by `epsilon * epsilon`. -/
def build (epsilon : ℕ) : Except BuildFault ℕ :=
  if epsilon * epsilon % 2 ^ 64 = 0 then .error .divideByZero else .ok (m.size epsilon)

/-- The loop that runs while `cur_model_size > MAX_MODEL_SIZE`: the last size and bound. -/
def fitLoop (curModelSize curEpsilon : ℕ) : Except BuildFault (ℕ × ℕ) :=
  if curModelSize > maxModelSize then
    -- half of zero is zero, for which no build ends
    if curEpsilon = 0 then .error .divideByZero
    else do
      let curModelSize ← m.build (curEpsilon / 2)
      fitLoop curModelSize (curEpsilon / 2)
  else .ok (curModelSize, curEpsilon)
termination_by curEpsilon
decreasing_by omega

/-- `cur_Epsilon * 2`. -/
def doubled (epsilon : ℕ) : ℕ := epsilon * 2 % 2 ^ 64

/-- The body of the partition loop of `bulk_load_for_dpu`, up to the end of the fit. -/
def fitPartition (initEpsilon : ℕ) : Except BuildFault (ℕ × ℕ) := do
  let curModelSize ← m.build initEpsilon
  if m.tries curModelSize then
    let doubledSize ← m.build (doubled initEpsilon)
    if m.cheaper doubledSize curModelSize then m.fitLoop doubledSize (doubled initEpsilon)
    else do
      -- the model is built again, its size is not read again
      let _ ← m.build initEpsilon
      m.fitLoop doubledSize initEpsilon
  else m.fitLoop curModelSize initEpsilon

/-- A smaller error bound gives no smaller model. -/
def Monotone : Prop := ∀ epsilon, 1 ≤ epsilon / 2 → m.size epsilon ≤ m.size (epsilon / 2)

/-- The fit ends with a model that a DPU can hold and a bound above zero. -/
def Fits (result : Except BuildFault (ℕ × ℕ)) : Prop :=
  ∃ curModelSize curEpsilon, result = .ok (curModelSize, curEpsilon) ∧
    curModelSize ≤ maxModelSize ∧ 1 ≤ curEpsilon

/-- `build` can divide by the square of the bound. -/
def Buildable (epsilon : ℕ) : Prop := ¬ 2 ^ 32 ∣ epsilon

/-- The first bound that the loop builds for, if any, is one to stop at. -/
def FitsHalved (epsilon : ℕ) : Prop :=
  Buildable (epsilon / 2) ∧ m.size (epsilon / 2) ≤ maxModelSize

/-- What the fit needs of the bound it starts from. Where the doubled bound was tried in vain, the
loop tests its size for the bound itself. -/
def StartsFit (initEpsilon : ℕ) : Prop :=
  Buildable initEpsilon ∧
    if m.tries (m.size initEpsilon) then
      Buildable (doubled initEpsilon) ∧
        (m.size (doubled initEpsilon) ≤ maxModelSize ∨
          m.cheaper (m.size (doubled initEpsilon)) (m.size initEpsilon) = false ∧
            m.FitsHalved initEpsilon)
    else m.size initEpsilon ≤ maxModelSize

variable {m} {size epsilon initEpsilon : ℕ}

theorem Buildable.pos (h : Buildable epsilon) : 1 ≤ epsilon :=
  Nat.pos_of_ne_zero fun hzero => h (hzero ▸ Nat.dvd_zero _)

theorem buildable_of_lt (hpos : 1 ≤ epsilon) (hlt : epsilon < 2 ^ 32) : Buildable epsilon :=
  fun hdvd => absurd (Nat.le_of_dvd hpos hdvd) (Nat.not_le.mpr hlt)

theorem build_of_buildable (h : Buildable epsilon) : m.build epsilon = .ok (m.size epsilon) := by
  rw [build, if_neg (square_wraps_iff.not.mpr h)]

theorem build_of_not_buildable (h : ¬ Buildable epsilon) :
    m.build epsilon = .error .divideByZero := by
  rw [build, if_pos (square_wraps_iff.mpr (not_not.mp h))]

theorem not_fits_error (e : BuildFault) : ¬ Fits (.error e) := by
  rintro ⟨_, _, h, -⟩
  cases h

theorem fitLoop_of_le (h : size ≤ maxModelSize) : m.fitLoop size epsilon = .ok (size, epsilon) := by
  rw [fitLoop, if_neg (Nat.not_lt.mpr h)]

/-- A pass of the loop. -/
theorem fitLoop_of_lt (h : maxModelSize < size) (hpos : 1 ≤ epsilon) :
    m.fitLoop size epsilon =
      (m.build (epsilon / 2) >>= fun size' => m.fitLoop size' (epsilon / 2)) := by
  rw [fitLoop, if_pos h, if_neg (by omega)]

/-- Once the size for the current bound is too large, it is too large for every bound to come. -/
theorem fitLoop_of_gt (hmono : m.Monotone) (hcur : maxModelSize < m.size epsilon) :
    m.fitLoop (m.size epsilon) epsilon = .error .divideByZero := by
  induction epsilon using Nat.strongRecOn with
  | ind epsilon ih =>
    rcases Nat.eq_zero_or_pos epsilon with rfl | hpos
    · rw [fitLoop, if_pos hcur, if_pos rfl]
    rw [fitLoop_of_lt hcur hpos]
    by_cases hbuild : Buildable (epsilon / 2)
    · have hnext := Nat.lt_of_lt_of_le hcur (hmono epsilon hbuild.pos)
      rw [build_of_buildable hbuild]
      exact ih (epsilon / 2) (by omega) hnext
    · rw [build_of_not_buildable hbuild]
      rfl

/-- The loop on the size for its bound. -/
theorem fitLoop_fits_iff (hmono : m.Monotone) (hpos : 1 ≤ epsilon) :
    Fits (m.fitLoop (m.size epsilon) epsilon) ↔ m.size epsilon ≤ maxModelSize := by
  rcases Nat.lt_or_ge maxModelSize (m.size epsilon) with hgt | hle
  · rw [fitLoop_of_gt hmono hgt]
    exact iff_of_false (not_fits_error _) (Nat.not_le.mpr hgt)
  · rw [fitLoop_of_le hle]
    exact iff_of_true ⟨_, epsilon, rfl, hle, hpos⟩ hle

/-- The loop on a size that need not be the one for its bound. -/
theorem fitLoop_stale_fits_iff (hmono : m.Monotone) (hpos : 1 ≤ epsilon) :
    Fits (m.fitLoop size epsilon) ↔ size ≤ maxModelSize ∨ m.FitsHalved epsilon := by
  rcases Nat.lt_or_ge maxModelSize size with hgt | hle
  · rw [fitLoop_of_lt hgt hpos, or_iff_right (Nat.not_le.mpr hgt), FitsHalved]
    by_cases hbuild : Buildable (epsilon / 2)
    · rw [build_of_buildable hbuild, and_iff_right hbuild]
      exact fitLoop_fits_iff hmono hbuild.pos
    · rw [build_of_not_buildable hbuild]
      exact iff_of_false (not_fits_error _) fun h => hbuild h.1
  · rw [fitLoop_of_le hle]
    exact iff_of_true ⟨size, epsilon, rfl, hle, hpos⟩ (Or.inl hle)

/-- Unless doubling the bound wraps, a tried size that is too large stays so. -/
theorem startsFit_iff (hmono : m.Monotone) (hlt : initEpsilon < 2 ^ 63) :
    m.StartsFit initEpsilon ↔
      Buildable initEpsilon ∧
        if m.tries (m.size initEpsilon) then
          Buildable (doubled initEpsilon) ∧ m.size (doubled initEpsilon) ≤ maxModelSize
        else m.size initEpsilon ≤ maxModelSize := by
  have hdoubled : doubled initEpsilon = initEpsilon * 2 := Nat.mod_eq_of_lt (by omega)
  rw [StartsFit, hdoubled]
  refine and_congr_right fun hbuild => ?_
  split_ifs
  · refine and_congr_right fun _ => or_iff_left_of_imp ?_
    -- the size for the bound is larger still, and that for half of it too
    rintro ⟨-, hhalf, hle⟩
    have hone := hmono (initEpsilon * 2)
      (by rw [Nat.mul_div_cancel _ (by decide)]; exact hbuild.pos)
    rw [Nat.mul_div_cancel _ (by decide)] at hone
    exact Nat.le_trans hone (Nat.le_trans (hmono initEpsilon hhalf.pos) hle)
  · rfl

/-- The fit ends well exactly if the bounds it builds for can be divided by and the size that its
loop tests first is small enough, or the next one where that was of the doubled bound. -/
theorem fitPartition_fits_iff (m : ModelSizes) (hmono : m.Monotone) (initEpsilon : ℕ) :
    Fits (m.fitPartition initEpsilon) ↔ m.StartsFit initEpsilon := by
  rw [StartsFit]
  by_cases hbuild : Buildable initEpsilon
  · rw [fitPartition, build_of_buildable hbuild, and_iff_right hbuild]
    simp only [bind, Except.bind]
    by_cases htries : m.tries (m.size initEpsilon) = true
    · rw [if_pos htries, if_pos htries]
      by_cases hdouble : Buildable (doubled initEpsilon)
      · rw [build_of_buildable hdouble, and_iff_right hdouble]
        simp only
        by_cases hcheaper : m.cheaper (m.size (doubled initEpsilon)) (m.size initEpsilon) = true
        · rw [if_pos hcheaper, fitLoop_fits_iff hmono hdouble.pos, hcheaper,
            or_iff_left fun h => Bool.noConfusion h.1]
        · rw [if_neg hcheaper, fitLoop_stale_fits_iff hmono hbuild.pos,
            and_iff_right (eq_false_of_ne_true hcheaper)]
      · rw [build_of_not_buildable hdouble]
        exact iff_of_false (not_fits_error _) fun h => hdouble h.1
    · rw [if_neg htries, if_neg htries]
      exact fitLoop_fits_iff hmono hbuild.pos
  · rw [fitPartition, build_of_not_buildable hbuild]
    exact iff_of_false (not_fits_error _) fun h => hbuild h.1

/-- A slice whose models have as many segments as 192000 divided by the bound. -/
def inverse : ModelSizes := ⟨fun epsilon => 192000 / epsilon, fun _ => false, fun _ _ => false⟩

theorem inverse_monotone : inverse.Monotone :=
  fun epsilon hpos => Nat.div_le_div_left (Nat.div_le_self epsilon 2) hpos

/-- From the bound 128 on its models fit. -/
theorem inverse_fits : Fits (inverse.fitPartition 128) :=
  (fitPartition_fits_iff inverse inverse_monotone 128).mpr
    ⟨buildable_of_lt (by decide) (by decide), (by decide : inverse.size 128 ≤ maxModelSize)⟩

/-- For the bound 64 the model has 3000 segments, and the loop comes to the bound zero. -/
theorem inverse_divides_by_zero :
    inverse.Monotone ∧ inverse.fitPartition 64 = .error .divideByZero ∧
      ¬ Fits (inverse.fitPartition 64) := by
  have hfault : inverse.fitPartition 64 = .error .divideByZero := by
    have hsize : maxModelSize < inverse.size 64 := by decide
    rw [fitPartition, build_of_buildable (buildable_of_lt (by decide) (by decide))]
    exact fitLoop_of_gt inverse_monotone hsize
  refine ⟨inverse_monotone, hfault, ?_⟩
  rw [hfault]
  exact not_fits_error _

end ModelSizes

end PimLex
