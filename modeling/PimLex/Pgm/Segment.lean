import PimLex.Fitting.Rounding
import PimLex.KernelModel
import PimLex.Pgm.Taken

/-!
# A segment's prediction

A segment stores the slope of the steepest line in single precision and the line's
height at its first key rounded to an integer. What it predicts is computed in single
precision as well. For positions of up to 21 bits all the roundings together stay
below one position, so for the keys of its run the prediction is off by at most one
more than the line.

`long double` has 64 significant bits. Conversions to integers of a number that is out
of range have no value in the language; what they give is a parameter.
-/

namespace PimLex.Pgm

open Fitting

/-- The significant bits of `float`. -/
abbrev floatBits : ℕ := 24

/-- The significant bits of `long double`. -/
abbrev longDoubleBits : ℕ := 64

/-- `operator long double`, stored as a `float`. -/
def Slope.toFloat (s : Slope) : ℚ :=
  roundBits floatBits (roundBits longDoubleBits
    (roundBits longDoubleBits s.dy / roundBits longDoubleBits s.dx))

/-- `slope * x` for an unsigned `x`. -/
def floatProduct (slope : ℚ) (x : ℕ) : ℚ := roundBits floatBits (slope * roundBits floatBits x)

/-- The conversion of a number to a signed integer of the given width. -/
def convert (width : ℕ) (undefined : ℚ → ℤ) (r : ℚ) : ℤ :=
  if -2 ^ (width - 1) ≤ truncate r ∧ truncate r < 2 ^ (width - 1) then truncate r else undefined r

/-- `Segment::operator()`. -/
def predict (undefined : ℚ → ℤ) (s : PgmModel ℚ) (k : ℕ) : ℕ :=
  let pos := convert 64 undefined (floatProduct s.slope ((k + 2 ^ 64 - s.key) % 2 ^ 64)) +
    s.intercept
  if pos > 0 then pos.toNat else 0

/-- The constructor of a segment from a canonical one. -/
def ofCanonical (cs : CanonicalSegment) : Except PgmFault (PgmModel ℚ) :=
  let key := cs.first
  let (csSlope, csIntercept) := cs.getFloatingPointSegment key
  if csIntercept > 2 ^ 31 - 1 then .error .interceptOverflow
  else .ok ⟨key, csSlope.toFloat, toInt32 csIntercept⟩

variable {s : Slope} {x x' : ℕ} {slope : ℚ}

/-- A conversion that has a value cuts the fraction off. -/
theorem convert_eq_floor (width : ℕ) (undefined : ℚ → ℤ) {r : ℚ} (hr : 0 ≤ r)
    (hlt : r < 2 ^ (width - 1)) : convert width undefined r = ⌊r⌋ := by
  have hfloor : 0 ≤ ⌊r⌋ := Int.floor_nonneg.mpr hr
  have hfloorLt : ⌊r⌋ < 2 ^ (width - 1) := Int.floor_lt.mpr (by exact_mod_cast hlt)
  have hpow : (0 : ℤ) ≤ 2 ^ (width - 1) := by positivity
  rw [convert, truncate_of_nonneg hr, if_pos ⟨by omega, hfloorLt⟩]

theorem floatProduct_nonneg (hs : 0 ≤ slope) (x : ℕ) : 0 ≤ floatProduct slope x :=
  roundBits_nonneg (mul_nonneg hs (roundBits_nonneg x.cast_nonneg))

theorem floatProduct_mono (hs : 0 ≤ slope) (hx : x ≤ x') :
    floatProduct slope x ≤ floatProduct slope x' := by
  have hround := roundBits_nonneg (p := floatBits) x.cast_nonneg
  refine roundBits_mono (by decide) (mul_nonneg hs hround) ?_
  exact mul_le_mul_of_nonneg_left
    (roundBits_mono (by decide) x.cast_nonneg (Nat.cast_le.mpr hx)) hs

/-- The roundings of a slope. -/
theorem toFloat_near (hdx : 0 < s.dx) (hdy : 0 ≤ s.dy) :
    Near (1 / 2 ^ 24 + 1 / 2 ^ 60) (s.dy / s.dx : ℚ) s.toFloat := by
  have hdx' : (0 : ℚ) < s.dx := Int.cast_pos.mpr hdx
  have hdy' : (0 : ℚ) ≤ s.dy := Int.cast_nonneg hdy
  have hquot : (0 : ℚ) ≤ s.dy / s.dx := div_nonneg hdy' hdx'.le
  have hdiv := (roundBits_near longDoubleBits hdy').div (roundBits_near longDoubleBits hdx'.le)
    hdy' hdx' (by positivity) (by norm_num) (by positivity) (by norm_num)
  have hpos := hdiv.nonneg hquot (by norm_num)
  have hlong := hdiv.trans (roundBits_near longDoubleBits hpos) hquot (by positivity)
    (by positivity) (by norm_num)
  have hfloat := hlong.trans (roundBits_near floatBits (hlong.nonneg hquot (by norm_num))) hquot
    (by positivity) (by positivity) (by norm_num)
  exact hfloat.mono hquot (by norm_num)

theorem toFloat_nonneg (hdx : 0 < s.dx) (hdy : 0 ≤ s.dy) : 0 ≤ s.toFloat :=
  (toFloat_near hdx hdy).nonneg (div_nonneg (Int.cast_nonneg hdy) (Int.cast_nonneg hdx.le))
    (by norm_num)

theorem toFloat_le (hdx : 0 < s.dx) (hdy : 0 ≤ s.dy) (hle : s.dy ≤ 2 ^ 21) :
    s.toFloat ≤ 2 ^ 22 := by
  have hdx1 : (1 : ℚ) ≤ s.dx := by exact_mod_cast hdx
  have hquot : (s.dy / s.dx : ℚ) ≤ 2 ^ 21 := by
    rw [div_le_iff₀ (zero_lt_one.trans_le hdx1)]
    calc (s.dy : ℚ) ≤ 2 ^ 21 := by exact_mod_cast hle
      _ ≤ 2 ^ 21 * s.dx := le_mul_of_one_le_right (by norm_num) hdx1
  calc s.toFloat ≤ s.dy / s.dx * (1 + (1 / 2 ^ 24 + 1 / 2 ^ 60)) := (toFloat_near hdx hdy).high
    _ ≤ 2 ^ 21 * (1 + (1 / 2 ^ 24 + 1 / 2 ^ 60)) := by gcongr
    _ ≤ 2 ^ 22 := by norm_num

/-- The roundings of a slope and of a product. -/
theorem floatProduct_near (hdx : 0 < s.dx) (hdy : 0 ≤ s.dy) (x : ℕ) :
    Near (1 / 2 ^ 22 - 1 / 2 ^ 30) (s.dy / s.dx * x : ℚ) (floatProduct s.toFloat x) := by
  have hquot : (0 : ℚ) ≤ s.dy / s.dx :=
    div_nonneg (Int.cast_nonneg hdy) (Int.cast_nonneg hdx.le)
  have hx : (0 : ℚ) ≤ x := x.cast_nonneg
  have hprod := (toFloat_near hdx hdy).mul (roundBits_near floatBits hx) hquot hx (by positivity)
    (by norm_num) (by positivity) (by norm_num)
  have hval := mul_nonneg hquot hx
  have hround := hprod.trans (roundBits_near floatBits (hprod.nonneg hval (by norm_num))) hval
    (by positivity) (by positivity) (by norm_num)
  exact hround.mono hval (by norm_num)

theorem toFloat_eq_zero_iff (hdx : 0 < s.dx) (hdy : 0 ≤ s.dy) : s.toFloat = 0 ↔ s.dy = 0 := by
  have hdx' : (0 : ℚ) < s.dx := Int.cast_pos.mpr hdx
  constructor
  · intro hzero
    by_contra hne
    have hdy' : (0 : ℚ) < s.dy := Int.cast_pos.mpr (lt_of_le_of_ne hdy (Ne.symm hne))
    have hpos : 0 < s.toFloat := by
      refine roundBits_pos (by decide) (roundBits_pos (by decide) (div_pos ?_ ?_)) <;>
        exact roundBits_pos (by decide) ‹_›
    exact hpos.ne' hzero
  · intro hzero
    simp [Slope.toFloat, hzero]

/-- The product is off by less than half a position as long as it has at most 21 bits. -/
theorem floatProduct_bounds {p : ℕ} (hdx : 0 < s.dx) (hdy : 0 ≤ s.dy)
    (hx : (s.dy / s.dx * x : ℚ) ≤ p) (hp : p ≤ 2 ^ 21) :
    (s.dy / s.dx * x : ℚ) - 1 / 2 < floatProduct s.toFloat x ∧
      floatProduct s.toFloat x ≤ s.dy / s.dx * x + p / 2 ^ 22 := by
  obtain ⟨hlow, hhigh⟩ := floatProduct_near hdx hdy x
  have hp' : (p : ℚ) ≤ 2 ^ 21 := by exact_mod_cast hp
  have hnonneg : (0 : ℚ) ≤ p := p.cast_nonneg
  constructor <;> linarith

/-- What the roundings add to a position `p`. -/
def slack (p : ℕ) : ℚ := 1 / 2 + p / 2 ^ 22

theorem slack_nonneg (p : ℕ) : 0 ≤ slack p := by
  rw [slack]
  positivity

theorem slack_lt_one {p : ℕ} (h : p < 2 ^ 21) : slack p < 1 := by
  have hp : (p : ℚ) < 2 ^ 21 := by exact_mod_cast h
  rw [slack]
  linarith

/-- The points of the positions from `a` up to `b`. -/
def positions (f : ℕ → ℕ) (a b : ℕ) : List (ℕ × ℕ) := (List.range' a (b - a)).map fun j => (f j, j)

/-- The segment predicts the positions from `a` up to `b` of the keys, up to the error bound and
one more for what is cut off. -/
structure Covers (f : ℕ → ℕ) (epsilon a b : ℕ) (m : PgmModel ℚ) : Prop where
  lt : a < b
  key : m.key = f a
  slope_nonneg : 0 ≤ m.slope
  slope_le : m.slope ≤ 2 ^ 22
  slope_zero : m.slope = 0 ↔ b = a + 1
  low : ∀ j, a ≤ j → j < b → ∀ k, f j ≤ k →
    (j : ℚ) < floatProduct m.slope (k - f a) + m.intercept + epsilon + 1
  high : ∀ j, a ≤ j → j < b → ∀ k, k ≤ f j →
    floatProduct m.slope (k - f a) + m.intercept ≤ j + epsilon + slack (j + epsilon)
  intercept_nonneg : 0 ≤ m.intercept
  intercept_le : m.intercept ≤ a + epsilon
  le_intercept : a ≤ m.intercept + epsilon

section Intercept

/-- The division that `get_floating_point_segment` rounds. -/
theorem tdiv_round {N D : ℤ} (hD : 0 < D) :
    2 * ((N + ((if (decide (N < 0) ^^ decide (D < 0)) then -1 else 1) * D).tdiv 2).tdiv D * D) ≤
        2 * N + D ∧
      2 * N ≤
        2 * ((N + ((if (decide (N < 0) ^^ decide (D < 0)) then -1 else 1) * D).tdiv 2).tdiv D * D) +
          D := by
  have hD' : decide (D < 0) = false := decide_eq_false hD.not_gt
  rw [hD', Bool.xor_false]
  rcases lt_or_ge N 0 with hN | hN
  · have hquot : ((N + (-1 * D).tdiv 2).tdiv D) = -((-N + D / 2) / D) := by
      rw [neg_one_mul, Int.neg_tdiv, Int.tdiv_eq_ediv_of_nonneg hD.le,
        show N + -(D / 2) = -(-N + D / 2) by ring, Int.neg_tdiv,
        Int.tdiv_eq_ediv_of_nonneg (by omega)]
    rw [if_pos (decide_eq_true hN), hquot]
    have hmod := Int.emod_add_mul_ediv (-N + D / 2) D
    have hlow := Int.emod_nonneg (-N + D / 2) hD.ne'
    have hhigh := Int.emod_lt_of_pos (-N + D / 2) hD
    rw [mul_comm D] at hmod
    rw [neg_mul]
    generalize (-N + D / 2) / D * D = t at *
    omega
  · have hquot : ((N + (1 * D).tdiv 2).tdiv D) = (N + D / 2) / D := by
      rw [one_mul, Int.tdiv_eq_ediv_of_nonneg hD.le, Int.tdiv_eq_ediv_of_nonneg (by omega)]
    rw [if_neg (by simpa using hN), hquot]
    have hmod := Int.emod_add_mul_ediv (N + D / 2) D
    have hlow := Int.emod_nonneg (N + D / 2) hD.ne'
    have hhigh := Int.emod_lt_of_pos (N + D / 2) hD
    rw [mul_comm D] at hmod
    generalize (N + D / 2) / D * D = t at *
    omega

end Intercept

section OfRun

variable {f : ℕ → ℕ} {epsilon a b : ℕ} {cs : CanonicalSegment}

theorem gate_bounds {j : ℕ} (f : ℕ → ℕ) (hj : j + epsilon < 2 ^ 63) :
    (gate epsilon (f j, j)).x = f j ∧ (j : ℚ) ≤ (gate epsilon (f j, j)).floor + epsilon ∧
      0 ≤ (gate epsilon (f j, j)).floor ∧ (gate epsilon (f j, j)).floor ≤ j ∧
      (gate epsilon (f j, j)).ceil = j + epsilon := by
  have hlow : (0 : ℤ) ≤ (lowerEnd epsilon (f j) j).y ∧
      (j : ℤ) ≤ (lowerEnd epsilon (f j) j).y + epsilon ∧ (lowerEnd epsilon (f j) j).y ≤ j := by
    simp only [lowerEnd]
    split <;> omega
  have hhigh : (upperEnd epsilon (f j) j).y = j + epsilon := by
    simp only [upperEnd]
    rw [if_neg (by omega)]
  refine ⟨rfl, ?_, Int.cast_nonneg hlow.1, ?_, ?_⟩
  · have hcast : ((j : ℤ) : ℚ) ≤ ((lowerEnd epsilon (f j) j).y + epsilon : ℤ) :=
      Int.cast_le.mpr hlow.2.1
    push_cast at hcast
    exact hcast
  · exact (Int.cast_le (R := ℚ)).mpr hlow.2.2
  · simp only [gate, hhigh, Int.cast_add, Int.cast_natCast]

/-- A run of one position has a level segment. -/
theorem ofCanonical_one (he : 0 < epsilon) (hb : a + epsilon < 2 ^ 21)
    (hcs : cs.IsOf epsilon (positions f a (a + 1))) :
    ∃ m, ofCanonical cs = .ok m ∧ Covers f epsilon a (a + 1) m := by
  have hpos : positions f a (a + 1) = [(f a, a)] := by
    rw [positions, Nat.add_sub_cancel_left]
    rfl
  rw [hpos] at hcs
  obtain ⟨h0, h1, h2, h3⟩ := hcs.one (f a) a rfl
  have hkey : cs.first = f a := hcs.first _ rfl
  have hone : cs.onePoint = true := decide_eq_true ⟨h2.symm, h3.symm⟩
  have hlow : 0 ≤ cs.rectangle1.y ∧ (a : ℤ) ≤ cs.rectangle1.y + epsilon ∧ cs.rectangle1.y ≤ a := by
    rw [h1]
    simp only [lowerEnd]
    split <;> omega
  have hhigh : cs.rectangle0.y = a + epsilon := by
    rw [h0]
    simp only [upperEnd]
    rw [if_neg (by omega)]
  set c := (cs.rectangle0.y + cs.rectangle1.y) % 2 ^ 64 / 2 with hc
  have hcBounds : 0 ≤ c ∧ c ≤ a + epsilon ∧ (a : ℤ) ≤ c + epsilon := by omega
  have hslope : (⟨1, 0⟩ : Slope).toFloat = 0 := (toFloat_eq_zero_iff one_pos le_rfl).mpr rfl
  have hint : toInt32 c = c := toInt32_eq (by omega) (by omega)
  refine ⟨⟨f a, 0, c⟩, ?_, ?_⟩
  · rw [ofCanonical, CanonicalSegment.getFloatingPointSegment, if_pos hone, ← hc]
    simp only
    rw [if_neg (by omega), hslope, hint, hkey]
  · have hproduct : ∀ x, floatProduct 0 x = 0 := fun x => by simp [floatProduct]
    have hcLow : (a : ℚ) ≤ c + epsilon := by exact_mod_cast hcBounds.2.2
    have hcHigh : (c : ℚ) ≤ a + epsilon := by exact_mod_cast hcBounds.2.1
    refine ⟨a.lt_succ_self, rfl, le_rfl, by norm_num, iff_of_true rfl rfl, ?_, ?_, hcBounds.1,
      hcBounds.2.1, hcBounds.2.2⟩
    · intro j haj hjb k _
      obtain rfl : j = a := by omega
      rw [hproduct]
      linarith
    · intro j haj hjb k _
      obtain rfl : j = a := by omega
      rw [hproduct]
      linarith [slack_nonneg (j + epsilon)]

/-- The line through the lower end of a point and the upper end of a later one. -/
abbrev CanonicalSegment.steep (cs : CanonicalSegment) : Line ℚ :=
  joining cs.rectangle1.pair cs.rectangle3.pair

/-- The value of the steepest line at its first key, and the intercept. -/
theorem intercept_near {cs : CanonicalSegment} (origin : ℕ)
    (hlt : cs.rectangle1.x < cs.rectangle3.x) :
    cs.getFloatingPointSegment origin = (cs.rectangle3.sub cs.rectangle1,
        (cs.getFloatingPointSegment origin).2) ∧
      ((cs.getFloatingPointSegment origin).2 : ℚ) - 1 / 2 ≤
        cs.steep.eval origin ∧
      cs.steep.eval origin ≤ ((cs.getFloatingPointSegment origin).2 : ℚ) + 1 / 2 := by
  have hone : ¬cs.onePoint = true := by
    intro hone
    have hcorners := of_decide_eq_true hone
    rw [hcorners.2] at hlt
    exact lt_irrefl _ hlt
  set D := (cs.rectangle3.sub cs.rectangle1).dx with hD
  set N := (cs.rectangle3.sub cs.rectangle1).dy * (origin - cs.rectangle1.x) with hN
  have hDpos : 0 < D := sub_pos.mpr hlt
  have hDpos' : (0 : ℚ) < D := Int.cast_pos.mpr hDpos
  obtain ⟨hlow, hhigh⟩ := tdiv_round (N := N) hDpos
  rw [CanonicalSegment.getFloatingPointSegment, if_neg hone]
  simp only [← hD, ← hN]
  generalize (N + ((if (decide (N < 0) ^^ decide (D < 0)) then -1 else 1) * D).tdiv 2).tdiv D = q
    at *
  -- the quotient before rounding, as a value of the steepest line
  have heval : cs.steep.eval origin * D =
      N + cs.rectangle1.y * D := by
    have hsub := cs.steep.eval_sub origin cs.rectangle1.x
    have hleft : cs.steep.eval cs.rectangle1.x =
        cs.rectangle1.y := joining_eval_left _ _
    have hslope : cs.steep.slope * D =
        (cs.rectangle3.sub cs.rectangle1).dy := by
      rw [joining_slope, hD]
      simp only [Point.sub_dx, Point.sub_dy, Point.pair, Int.cast_sub]
      exact div_mul_cancel₀ _ (sub_pos.mpr (Int.cast_lt.mpr hlt)).ne'
    rw [hleft, sub_eq_iff_eq_add] at hsub
    rw [hsub, hN, add_mul, mul_right_comm, hslope]
    push_cast
    ring
  have hlow' : 2 * ((q : ℚ) * D) ≤ 2 * N + D := by exact_mod_cast hlow
  have hhigh' : 2 * (N : ℚ) ≤ 2 * (q * D) + D := by exact_mod_cast hhigh
  refine ⟨trivial, ?_, ?_⟩
  · refine le_of_mul_le_mul_right ?_ hDpos'
    rw [heval]
    push_cast
    linarith
  · refine le_of_mul_le_mul_right ?_ hDpos'
    rw [heval]
    push_cast
    linarith

theorem mem_positions {p : ℕ × ℕ} : p ∈ positions f a b ↔ ∃ j, a ≤ j ∧ j < b ∧ p = (f j, j) := by
  simp only [positions, List.mem_map, List.mem_range'_1]
  constructor
  · rintro ⟨j, ⟨haj, hjb⟩, rfl⟩
    exact ⟨j, haj, by omega, rfl⟩
  · rintro ⟨j, haj, hjb, rfl⟩
    exact ⟨j, ⟨haj, by omega⟩, rfl⟩

section Many

variable (hlen : a + 2 ≤ b) (hb : b + epsilon ≤ 2 ^ 21)
  (hf : ∀ i j, a ≤ i → i < j → j < b → f i < f j) (hcs : cs.IsOf epsilon (positions f a b))

include hlen hcs in
theorem first_eq : cs.first = f a := by
  refine hcs.first (f a, a) ?_
  obtain ⟨len, hlen⟩ : ∃ len, b - a = len + 1 := ⟨b - a - 1, by omega⟩
  rw [positions, hlen, List.range'_succ]
  rfl

include hlen hcs in
theorem steepest_positions :
    Steepest (gates epsilon (positions f a b)) cs.rectangle1.pair cs.rectangle3.pair := by
  refine hcs.steepest ?_
  simp only [positions, List.length_map, List.length_range']
  omega

include hlen hb hcs in
/-- The line passes between the ends of every point. -/
theorem steep_bounds {j : ℕ} (haj : a ≤ j) (hjb : j < b) :
    (j : ℚ) ≤ cs.steep.eval (f j) + epsilon ∧ 0 ≤ cs.steep.eval (f j) ∧
      cs.steep.eval (f j) ≤ j + epsilon := by
  have hmem : gate epsilon (f j, j) ∈ gates epsilon (positions f a b) :=
    List.mem_map_of_mem (mem_positions.mpr ⟨j, haj, hjb, rfl⟩)
  obtain ⟨hx, hfloor, hnonneg, -, hceil⟩ := gate_bounds f (show j + epsilon < 2 ^ 63 by omega)
  obtain ⟨hlow, hhigh⟩ := (steepest_positions hlen hcs).passes _ hmem
  rw [hx] at hlow hhigh
  exact ⟨by linarith, hnonneg.trans hlow, hhigh.trans_eq hceil⟩

include hlen hb hf hcs in
/-- The corners are the lower end of a point and the upper end of a later one. -/
theorem steep_corners : 0 < (cs.rectangle3.sub cs.rectangle1).dx ∧
    0 < (cs.rectangle3.sub cs.rectangle1).dy ∧
    (cs.rectangle3.sub cs.rectangle1).dy ≤ 2 ^ 21 := by
  have hsteep := steepest_positions hlen hcs
  have hlt := Point.pair_lt.mp hsteep.lt
  obtain ⟨g, hg, hfloor⟩ := hsteep.floor
  obtain ⟨g', hg', hceil⟩ := hsteep.ceil
  obtain ⟨p, hp, rfl⟩ := List.mem_map.mp hg
  obtain ⟨p', hp', rfl⟩ := List.mem_map.mp hg'
  obtain ⟨i, hai, hib, rfl⟩ := mem_positions.mp hp
  obtain ⟨j, haj, hjb, rfl⟩ := mem_positions.mp hp'
  obtain ⟨hx, -, hnonneg, hle, -⟩ := gate_bounds f (show i + epsilon < 2 ^ 63 by omega)
  obtain ⟨hx', -, -, -, heq⟩ := gate_bounds f (show j + epsilon < 2 ^ 63 by omega)
  obtain ⟨hr1x, hr1y⟩ := Prod.mk.inj hfloor
  obtain ⟨hr3x, hr3y⟩ := Prod.mk.inj hceil
  have hij : i < j := by
    have hfij : (f i : ℚ) < f j := by
      rw [← hx, ← hx', ← hr1x, ← hr3x]
      exact Int.cast_lt.mpr hlt
    by_contra hji
    rcases (not_lt.mp hji).eq_or_lt with rfl | hji
    · exact lt_irrefl _ hfij
    · exact lt_asymm (Nat.cast_lt.mp hfij) (hf j i haj hji hib)
  have hij' : (i : ℚ) < j := Nat.cast_lt.mpr hij
  have heps : (0 : ℚ) ≤ epsilon := epsilon.cast_nonneg
  have hbits : ((j + epsilon : ℕ) : ℚ) ≤ ((2 ^ 21 : ℕ) : ℚ) := Nat.cast_le.mpr (by omega)
  push_cast at hbits
  refine ⟨sub_pos.mpr hlt, sub_pos.mpr ((Int.cast_lt (R := ℚ)).mp ?_),
    (Int.cast_le (R := ℚ)).mp ?_⟩
  · rw [hr1y, hr3y, heq]
    linarith
  · rw [Point.sub_dy]
    push_cast
    rw [hr1y, hr3y, heq]
    linarith

include hlen hb hcs in
/-- The intercept is the position of the first key, up to the error bound. -/
theorem intercept_bounds {c : ℤ} (hlow : (c : ℚ) - 1 / 2 ≤ cs.steep.eval (f a))
    (hhigh : cs.steep.eval (f a) ≤ c + 1 / 2) :
    0 ≤ c ∧ c ≤ a + epsilon ∧ (a : ℤ) ≤ c + epsilon := by
  obtain ⟨hbelow, hnonneg, habove⟩ := steep_bounds hlen hb hcs le_rfl (show a < b by omega)
  have h1 : (-1 : ℚ) < c := by linarith
  have h2 : (c : ℚ) < a + epsilon + 1 := by linarith
  have h3 : (a : ℚ) < c + epsilon + 1 := by linarith
  have h1' : (-1 : ℤ) < c := by exact_mod_cast h1
  have h2' : c < a + epsilon + 1 := by exact_mod_cast h2
  have h3' : (a : ℤ) < c + epsilon + 1 := by exact_mod_cast h3
  omega

include hlen hb hf hcs in
/-- What the product in single precision stands for. -/
theorem steep_product {j : ℕ} (haj : a ≤ j) (hjb : j < b) :
    cs.steep.eval (f j) - cs.steep.eval (f a) - 1 / 2 <
        floatProduct (cs.rectangle3.sub cs.rectangle1).toFloat (f j - f a) ∧
      floatProduct (cs.rectangle3.sub cs.rectangle1).toFloat (f j - f a) ≤
        cs.steep.eval (f j) - cs.steep.eval (f a) + (j + epsilon : ℕ) / 2 ^ 22 := by
  obtain ⟨hdx, hdy, -⟩ := steep_corners hlen hb hf hcs
  have hmono : f a ≤ f j := by
    rcases haj.eq_or_lt with rfl | haj
    · exact le_rfl
    · exact (hf a j le_rfl haj hjb).le
  have hval : ((cs.rectangle3.sub cs.rectangle1).dy / (cs.rectangle3.sub cs.rectangle1).dx *
      (f j - f a : ℕ) : ℚ) = cs.steep.eval (f j) - cs.steep.eval (f a) := by
    have hslope : cs.steep.slope =
        (cs.rectangle3.sub cs.rectangle1).dy / (cs.rectangle3.sub cs.rectangle1).dx := by
      rw [joining_slope]
      simp only [Point.sub_dx, Point.sub_dy, Point.pair, Int.cast_sub]
    rw [cs.steep.eval_sub, hslope, Nat.cast_sub hmono]
  rw [← hval]
  refine floatProduct_bounds hdx hdy.le ?_ (by omega)
  rw [hval]
  push_cast
  linarith [(steep_bounds hlen hb hcs haj hjb).2.2,
    (steep_bounds hlen hb hcs le_rfl (show a < b by omega)).2.1]

include hlen hb hf hcs in
/-- A run of more positions has a segment that rises. -/
theorem ofCanonical_many : ∃ m, ofCanonical cs = .ok m ∧ Covers f epsilon a b m := by
  obtain ⟨hdx, hdy, hdyLe⟩ := steep_corners hlen hb hf hcs
  have hkey := first_eq hlen hcs
  obtain ⟨hsegment, hcLow, hcHigh⟩ := intercept_near cs.first (sub_pos.mp hdx)
  set c := (cs.getFloatingPointSegment cs.first).2
  rw [hkey] at hcLow hcHigh
  obtain ⟨hc0, hcLe, hle⟩ := intercept_bounds hlen hb hcs hcLow hcHigh
  have hgates {j : ℕ} (haj : a ≤ j) (hjb : j < b) := steep_bounds hlen hb hcs haj hjb
  have hproduct {j : ℕ} (haj : a ≤ j) (hjb : j < b) := steep_product hlen hb hf hcs haj hjb
  set s := cs.rectangle3.sub cs.rectangle1
  have hslope := toFloat_eq_zero_iff hdx hdy.le
  have hnonneg := toFloat_nonneg hdx hdy.le
  have hint : toInt32 c = c := toInt32_eq (by omega) (by omega)
  refine ⟨⟨f a, s.toFloat, c⟩, ?_, by omega, rfl, hnonneg, toFloat_le hdx hdy.le hdyLe, ?_, ?_,
    ?_, hc0, hcLe, hle⟩
  · rw [ofCanonical, hsegment]
    simp only
    rw [if_neg (by omega), hint, hkey]
  · exact iff_of_false (fun hzero => hdy.ne' (hslope.mp hzero)) (by omega)
  · intro j haj hjb k hk
    have hle := floatProduct_mono hnonneg (Nat.sub_le_sub_right hk (f a))
    linarith [(hproduct haj hjb).1, (hgates haj hjb).1]
  · intro j haj hjb k hk
    have hle := floatProduct_mono hnonneg (Nat.sub_le_sub_right hk (f a))
    rw [slack]
    linarith [(hproduct haj hjb).2, (hgates haj hjb).2.2]

end Many

/-- Every run of positions that lines fit has a segment that covers it. -/
theorem ofCanonical_covers (he : 0 < epsilon) (hab : a < b) (hb : b + epsilon ≤ 2 ^ 21)
    (hf : ∀ i j, a ≤ i → i < j → j < b → f i < f j) (hcs : cs.IsOf epsilon (positions f a b)) :
    ∃ m, ofCanonical cs = .ok m ∧ Covers f epsilon a b m := by
  rcases (Nat.succ_le_of_lt hab).eq_or_lt with rfl | hlen
  · exact ofCanonical_one he (by omega) hcs
  · exact ofCanonical_many hlen hb hf hcs

end OfRun

end PimLex.Pgm
