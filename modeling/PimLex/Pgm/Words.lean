import PimLex.Pgm.PiecewiseLinear
import Mathlib.Algebra.Order.Group.Unbundled.Abs
import Mathlib.Algebra.Order.Ring.Abs
import Mathlib.Data.List.GetD
import Mathlib.Tactic.Linarith
import Mathlib.Tactic.Ring

/-!
# Where 128 bits are enough

Slopes are compared by products of a difference of keys and a difference of
positions. Keys have 64 bits, so as long as the ends of the error intervals are
below `2 ^ 62` every product, and every difference of two products, has a value in
`__int128`. The model's points are ends of intervals of points it was given.
-/

namespace PimLex.Pgm

/-- The values of `__int128`. -/
def InInt128 (v : ℤ) : Prop := -2 ^ 127 ≤ v ∧ v < 2 ^ 127

/-- A point whose coordinates leave room for 128-bit products. -/
structure Point.Small (p : Point) : Prop where
  x_nonneg : 0 ≤ p.x
  x_lt : p.x < 2 ^ 64
  y_nonneg : 0 ≤ p.y
  y_lt : p.y < 2 ^ 62

namespace Point.Small

variable {O A B p q p' q' : Point} {x y epsilon : ℕ}

theorem default : (default : Point).Small := by
  constructor <;> decide

theorem abs_dx_lt (hq : q.Small) (hp : p.Small) : |(q.sub p).dx| < 2 ^ 64 := by
  have hq := And.intro hq.x_nonneg hq.x_lt
  have hp := And.intro hp.x_nonneg hp.x_lt
  rw [sub_dx, abs_lt]
  omega

theorem abs_dy_lt (hq : q.Small) (hp : p.Small) : |(q.sub p).dy| < 2 ^ 62 := by
  have hq := And.intro hq.y_nonneg hq.y_lt
  have hp := And.intro hp.y_nonneg hp.y_lt
  rw [sub_dy, abs_lt]
  omega

/-- The products of two slopes stay below half of what 128 bits hold. -/
theorem abs_product_lt (hq : q.Small) (hp : p.Small) (hq' : q'.Small) (hp' : p'.Small) :
    |(q.sub p).dx * (q'.sub p').dy| < 2 ^ 126 := by
  rw [abs_mul]
  calc |(q.sub p).dx| * |(q'.sub p').dy| < 2 ^ 64 * 2 ^ 62 :=
        mul_lt_mul'' (hq.abs_dx_lt hp) (hq'.abs_dy_lt hp') (abs_nonneg _) (abs_nonneg _)
    _ = 2 ^ 126 := by norm_num

/-- Both sides of a comparison of slopes have 128 bits. -/
theorem product_inInt128 (hq : q.Small) (hp : p.Small) (hq' : q'.Small) (hp' : p'.Small) :
    InInt128 ((q.sub p).dx * (q'.sub p').dy) := by
  have hlt := abs_lt.mp (hq.abs_product_lt hp hq' hp')
  constructor <;> linarith

/-- The difference that `cross` computes has 128 bits. -/
theorem cross_inInt128 (hO : O.Small) (hA : A.Small) (hB : B.Small) : InInt128 (cross O A B) := by
  have hfirst := abs_lt.mp (hA.abs_product_lt hO hB hO)
  have hsecond := abs_lt.mp (hB.abs_product_lt hO hA hO)
  simp only [cross]
  rw [mul_comm (A.sub O).dy]
  constructor <;> linarith

theorem upperEnd (hx : x < 2 ^ 64) (hy : y + epsilon < 2 ^ 62) :
    (upperEnd epsilon x y).Small := by
  have hge : ¬ y ≥ 2 ^ 64 - 1 - epsilon := by omega
  constructor <;> simp only [Pgm.upperEnd, if_neg hge] <;> omega

theorem lowerEnd (hx : x < 2 ^ 64) (hy : y + epsilon < 2 ^ 62) :
    (lowerEnd epsilon x y).Small := by
  have hy' : 0 ≤ (Pgm.lowerEnd epsilon x y).y ∧ (Pgm.lowerEnd epsilon x y).y ≤ y := by
    simp only [Pgm.lowerEnd]
    split <;> omega
  constructor
  · exact Int.natCast_nonneg x
  · change (x : ℤ) < 2 ^ 64
    omega
  · exact hy'.1
  · omega

end Point.Small

/-- The points of the model are small. -/
structure OptModel.Small (m : OptModel) : Prop where
  lower : ∀ p ∈ m.lower, p.Small
  upper : ∀ p ∈ m.upper, p.Small
  rectangle0 : m.rectangle0.Small
  rectangle1 : m.rectangle1.Small
  rectangle2 : m.rectangle2.Small
  rectangle3 : m.rectangle3.Small

/-- The corners of the segment are small. -/
structure CanonicalSegment.Small (cs : CanonicalSegment) : Prop where
  rectangle0 : cs.rectangle0.Small
  rectangle1 : cs.rectangle1.Small
  rectangle2 : cs.rectangle2.Small
  rectangle3 : cs.rectangle3.Small

section Lists

variable {pts : List Point} {p : Point} {i start : ℕ}

theorem small_getD (h : ∀ q ∈ pts, q.Small) (i : ℕ) : (pts.getD i default).Small := by
  rcases Nat.lt_or_ge i pts.length with hlt | hge
  · rw [List.getD_eq_getElem _ _ hlt]
    exact h _ (List.getElem_mem hlt)
  · rw [List.getD_eq_default _ _ hge]
    exact Point.Small.default

theorem small_hullPush (h : ∀ q ∈ pts, q.Small) (hp : p.Small) (pops : ℤ → Bool) :
    ∀ q ∈ hullPush pops pts start p, q.Small := by
  intro q hq
  rcases List.mem_append.mp hq with hq | hq
  · exact h q (List.mem_of_mem_take hq)
  · exact List.mem_singleton.mp hq ▸ hp

end Lists

namespace OptModel.Small

variable {m m' : OptModel} {p : Point} {x y : ℕ} {added : Bool}

theorem new (epsilon : ℕ) : (OptModel.new epsilon).Small :=
  ⟨nofun, nofun, Point.Small.default, Point.Small.default, Point.Small.default,
    Point.Small.default⟩

/-- What else the model counts does not matter. -/
theorem congr (h : m.Small) (lastX pointsInHull : ℕ) :
    { m with lastX := lastX, pointsInHull := pointsInHull }.Small :=
  ⟨h.lower, h.upper, h.rectangle0, h.rectangle1, h.rectangle2, h.rectangle3⟩

theorem updateSteepest (h : m.Small) (hp : p.Small) : (m.updateSteepest p).Small :=
  ⟨h.lower, small_hullPush h.upper hp _, h.rectangle0, small_getD h.lower _, h.rectangle2, hp⟩

theorem updateFlattest (h : m.Small) (hp : p.Small) : (m.updateFlattest p).Small :=
  ⟨small_hullPush h.lower hp _, h.upper, small_getD h.upper _, h.rectangle1, hp, h.rectangle3⟩

theorem addPoint (h : m.Small) (hx : x < 2 ^ 64) (hy : y + m.epsilon < 2 ^ 62)
    (hok : m.addPoint x y = .ok (added, m')) : m'.Small ∧ m'.epsilon = m.epsilon := by
  have hp1 : (upperEnd m.epsilon x y).Small := .upperEnd hx hy
  have hp2 : (lowerEnd m.epsilon x y).Small := .lowerEnd hx hy
  rw [OptModel.addPoint] at hok
  split at hok
  · cases hok
  simp only at hok
  split at hok
  case isTrue =>
    -- the first point
    obtain ⟨-, rfl⟩ := Prod.mk.inj (Except.ok.inj hok)
    exact ⟨⟨List.forall_mem_singleton.mpr hp2, List.forall_mem_singleton.mpr hp1, hp1, hp2,
      h.rectangle2, h.rectangle3⟩, rfl⟩
  case isFalse =>
    split at hok
    case isTrue =>
      -- the second point
      obtain ⟨-, rfl⟩ := Prod.mk.inj (Except.ok.inj hok)
      refine ⟨⟨?_, ?_, h.rectangle0, h.rectangle1, hp2, hp1⟩, rfl⟩
      · exact List.forall_mem_append.mpr ⟨h.lower, List.forall_mem_singleton.mpr hp2⟩
      · exact List.forall_mem_append.mpr ⟨h.upper, List.forall_mem_singleton.mpr hp1⟩
    case isFalse =>
      split at hok
      case isTrue =>
        obtain ⟨-, rfl⟩ := Prod.mk.inj (Except.ok.inj hok)
        exact ⟨h.congr x 0, rfl⟩
      case isFalse =>
        obtain ⟨-, rfl⟩ := Prod.mk.inj (Except.ok.inj hok)
        have hcongr := h.congr x (m.pointsInHull + 1)
        split <;> split
        · exact ⟨(hcongr.updateSteepest hp1).updateFlattest hp2, rfl⟩
        · exact ⟨hcongr.updateFlattest hp2, rfl⟩
        · exact ⟨hcongr.updateSteepest hp1, rfl⟩
        · exact ⟨hcongr, rfl⟩

theorem getSegment (h : m.Small) : m.getSegment.Small := by
  rw [OptModel.getSegment]
  split
  · exact ⟨h.rectangle0, h.rectangle1, h.rectangle0, h.rectangle1⟩
  · exact ⟨h.rectangle0, h.rectangle1, h.rectangle2, h.rectangle3⟩

end OptModel.Small

end PimLex.Pgm
