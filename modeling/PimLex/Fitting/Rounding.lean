import Mathlib.Algebra.Order.Field.Power
import Mathlib.Data.Int.Log
import Mathlib.Data.Rat.Floor
import Mathlib.Tactic.FieldSimp
import Mathlib.Tactic.Linarith
import Mathlib.Tactic.Positivity
import Mathlib.Tactic.Ring

/-!
# Rounding to a number of bits

A binary floating-point operation gives its exact result rounded to the number of
significant bits of its format, ties to even. As long as no exponent is out of range
that is a function of the exact result alone: it moves it by at most a fixed fraction
of itself, it is monotone, and it leaves the numbers of the format as they are.
-/

namespace PimLex.Fitting

variable {p : ℕ} {x y : ℚ} {z : ℤ}

/-- The nearest integer, the even one of two. -/
def roundEven (x : ℚ) : ℤ :=
  if Int.fract x < 1 / 2 then ⌊x⌋
  else if 1 / 2 < Int.fract x then ⌊x⌋ + 1
  else if ⌊x⌋ % 2 = 0 then ⌊x⌋ else ⌊x⌋ + 1

theorem roundEven_bounds (x : ℚ) :
    x - 1 / 2 ≤ (roundEven x : ℚ) ∧ (roundEven x : ℚ) ≤ x + 1 / 2 := by
  have hfract := Int.floor_add_fract x
  have hnonneg := Int.fract_nonneg x
  have hlt := Int.fract_lt_one x
  rw [roundEven]
  split_ifs <;> push_cast <;> constructor <;> linarith

@[simp] theorem roundEven_intCast (z : ℤ) : roundEven z = z := by
  rw [roundEven, Int.fract_intCast, Int.floor_intCast, if_pos (by norm_num)]

theorem roundEven_mono (hxy : x ≤ y) : roundEven x ≤ roundEven y := by
  rcases (Int.floor_mono hxy).eq_or_lt with heq | hlt
  · -- within a unit the fraction decides
    have hfract : Int.fract x ≤ Int.fract y := by
      rw [Int.fract, Int.fract, heq]
      linarith
    rw [roundEven, roundEven, heq]
    split_ifs <;> first | omega | linarith
  · have hx : roundEven x ≤ ⌊x⌋ + 1 := by
      rw [roundEven]
      split_ifs <;> omega
    have hy : ⌊y⌋ ≤ roundEven y := by
      rw [roundEven]
      split_ifs <;> omega
    omega

/-- The distance of the numbers with `p` bits around `x`. -/
def ulp (p : ℕ) (x : ℚ) : ℚ := 2 ^ (Int.log 2 |x| + 1 - p)

theorem ulp_pos (p : ℕ) (x : ℚ) : 0 < ulp p x := by
  rw [ulp]
  positivity

/-- `x` with `p` significant bits. -/
def roundBits (p : ℕ) (x : ℚ) : ℚ := roundEven (x / ulp p x) * ulp p x

@[simp] theorem roundBits_zero (p : ℕ) : roundBits p 0 = 0 := by
  rw [roundBits, zero_div, ← Int.cast_zero, roundEven_intCast, Int.cast_zero, zero_mul]

theorem ulp_le (hx : 0 < x) : ulp p x ≤ 2 * x / 2 ^ p := by
  have hlog := Int.zpow_log_le_self (b := 2) (by norm_num) hx
  rw [ulp, abs_of_pos hx, zpow_sub₀ two_ne_zero, zpow_add₀ two_ne_zero, zpow_one, zpow_natCast,
    mul_comm]
  push_cast at hlog
  gcongr

/-- `y` is `x` up to a fraction `ρ` of it. -/
structure Near (ρ x y : ℚ) : Prop where
  low : x * (1 - ρ) ≤ y
  high : y ≤ x * (1 + ρ)

namespace Near

variable {ρ σ τ x' y' z : ℚ}

theorem nonneg (h : Near ρ x y) (hx : 0 ≤ x) (hρ : ρ ≤ 1) : 0 ≤ y :=
  (mul_nonneg hx (sub_nonneg.mpr hρ)).trans h.low

theorem mono (h : Near ρ x y) (hx : 0 ≤ x) (hρ : ρ ≤ σ) : Near σ x y where
  low := le_trans (by gcongr) h.low
  high := h.high.trans (by gcongr)

theorem trans (h : Near ρ x y) (h' : Near σ y z) (hx : 0 ≤ x) (hρ : 0 ≤ ρ) (hσ : 0 ≤ σ)
    (hσ' : σ ≤ 1) : Near (ρ + σ + ρ * σ) x z where
  low := by
    have hprod := mul_nonneg hx (mul_nonneg hρ hσ)
    calc x * (1 - (ρ + σ + ρ * σ)) ≤ x * (1 - ρ) * (1 - σ) := by linarith
      _ ≤ y * (1 - σ) := mul_le_mul_of_nonneg_right h.low (sub_nonneg.mpr hσ')
      _ ≤ z := h'.low
  high := by
    calc z ≤ y * (1 + σ) := h'.high
      _ ≤ x * (1 + ρ) * (1 + σ) := mul_le_mul_of_nonneg_right h.high (by linarith)
      _ = x * (1 + (ρ + σ + ρ * σ)) := by ring

theorem mul (h : Near ρ x y) (h' : Near σ x' y') (hx : 0 ≤ x) (hx' : 0 ≤ x') (hρ : 0 ≤ ρ)
    (hρ' : ρ ≤ 1) (hσ : 0 ≤ σ) (hσ' : σ ≤ 1) : Near (ρ + σ + ρ * σ) (x * x') (y * y') where
  low := by
    have hprod := mul_nonneg (mul_nonneg hx hx') (mul_nonneg hρ hσ)
    calc x * x' * (1 - (ρ + σ + ρ * σ)) ≤ x * (1 - ρ) * (x' * (1 - σ)) := by linarith
      _ ≤ y * y' := mul_le_mul h.low h'.low (mul_nonneg hx' (sub_nonneg.mpr hσ'))
          (h.nonneg hx hρ')
  high := by
    calc y * y' ≤ x * (1 + ρ) * (x' * (1 + σ)) :=
          mul_le_mul h.high h'.high (h'.nonneg hx' hσ') (mul_nonneg hx (by linarith))
      _ = x * x' * (1 + (ρ + σ + ρ * σ)) := by ring

theorem inv (h : Near σ x y) (hx : 0 < x) (hσ : 0 ≤ σ) (hσ' : σ ≤ 1 / 2) :
    Near (2 * σ) x⁻¹ y⁻¹ := by
  have hy : 0 < y := (mul_pos hx (by linarith)).trans_le h.low
  have hsq : 0 ≤ σ * (1 - 2 * σ) * x := mul_nonneg (mul_nonneg hσ (by linarith)) hx.le
  constructor
  · rw [inv_mul_le_iff₀ hx, ← div_eq_mul_inv, le_div_iff₀ hy]
    calc (1 - 2 * σ) * y ≤ (1 - 2 * σ) * (x * (1 + σ)) :=
          mul_le_mul_of_nonneg_left h.high (by linarith)
      _ ≤ x := by linarith [mul_nonneg (mul_nonneg hσ hσ) hx.le, mul_nonneg hσ hx.le]
  · rw [inv_le_iff_one_le_mul₀ hy, mul_assoc, ← div_eq_inv_mul, le_div_iff₀ hx, one_mul]
    calc x ≤ (1 + 2 * σ) * (x * (1 - σ)) := by linarith
      _ ≤ (1 + 2 * σ) * y := mul_le_mul_of_nonneg_left h.low (by linarith)

theorem div (h : Near ρ x y) (h' : Near σ x' y') (hx : 0 ≤ x) (hx' : 0 < x') (hρ : 0 ≤ ρ)
    (hρ' : ρ ≤ 1) (hσ : 0 ≤ σ) (hσ' : σ ≤ 1 / 2) :
    Near (ρ + 2 * σ + ρ * (2 * σ)) (x / x') (y / y') := by
  rw [div_eq_mul_inv, div_eq_mul_inv]
  exact h.mul (h'.inv hx' hσ hσ') hx (inv_nonneg.mpr hx'.le) hρ hρ' (by linarith) (by linarith)

end Near

/-- Rounding moves a number by at most `2⁻ᵖ` of itself. -/
theorem roundBits_near (p : ℕ) (hx : 0 ≤ x) : Near (1 / 2 ^ p) x (roundBits p x) := by
  rcases hx.eq_or_lt with rfl | hpos
  · constructor <;> simp
  have hulp := ulp_pos p x
  have hle := ulp_le (p := p) hpos
  obtain ⟨hlow, hhigh⟩ := roundEven_bounds (x / ulp p x)
  have hcancel : x / ulp p x * ulp p x = x := div_mul_cancel₀ x hulp.ne'
  have hhalf : 1 / 2 * ulp p x ≤ x * (1 / 2 ^ p) := by
    calc 1 / 2 * ulp p x ≤ 1 / 2 * (2 * x / 2 ^ p) := by gcongr
      _ = x * (1 / 2 ^ p) := by ring
  rw [roundBits]
  constructor
  · have := mul_le_mul_of_nonneg_right hlow hulp.le
    rw [sub_mul, hcancel] at this
    linarith
  · have := mul_le_mul_of_nonneg_right hhigh hulp.le
    rw [add_mul, hcancel] at this
    linarith

theorem roundBits_nonneg (hx : 0 ≤ x) : 0 ≤ roundBits p x := by
  have hzero := roundEven_mono (div_nonneg hx (ulp_pos p x).le)
  rw [← Int.cast_zero, roundEven_intCast] at hzero
  exact mul_nonneg (Int.cast_nonneg hzero) (ulp_pos p x).le

theorem roundBits_le_zpow (hx : 0 < x) : roundBits p x ≤ 2 ^ (Int.log 2 x + 1) := by
  have hlt := Int.lt_zpow_succ_log_self (b := 2) (by norm_num) x
  have hscale : (2 : ℚ) ^ (Int.log 2 x + 1) = ((2 ^ p : ℤ) : ℚ) * ulp p x := by
    rw [ulp, abs_of_pos hx]
    push_cast
    rw [← zpow_natCast, ← zpow_add₀ two_ne_zero]
    congr 1
    ring
  have hle : x / ulp p x ≤ ((2 ^ p : ℤ) : ℚ) := by
    rw [div_le_iff₀ (ulp_pos p x), ← hscale]
    exact_mod_cast hlt.le
  have hround := roundEven_mono hle
  rw [roundEven_intCast] at hround
  rw [hscale, roundBits]
  exact mul_le_mul_of_nonneg_right (Int.cast_le.mpr hround) (ulp_pos p x).le

theorem zpow_le_roundBits (hp : 1 ≤ p) (hx : 0 < x) : 2 ^ Int.log 2 x ≤ roundBits p x := by
  have hle := Int.zpow_log_le_self (b := 2) (by norm_num) hx
  have hscale : (2 : ℚ) ^ Int.log 2 x = ((2 ^ (p - 1) : ℤ) : ℚ) * ulp p x := by
    rw [ulp, abs_of_pos hx]
    push_cast
    rw [← zpow_natCast, ← zpow_add₀ two_ne_zero]
    congr 1
    push_cast [Nat.cast_sub hp]
    ring
  have hge : ((2 ^ (p - 1) : ℤ) : ℚ) ≤ x / ulp p x := by
    rw [le_div_iff₀ (ulp_pos p x), ← hscale]
    exact_mod_cast hle
  have hround := roundEven_mono hge
  rw [roundEven_intCast] at hround
  rw [hscale, roundBits]
  exact mul_le_mul_of_nonneg_right (Int.cast_le.mpr hround) (ulp_pos p x).le

theorem roundBits_pos (hp : 1 ≤ p) (hx : 0 < x) : 0 < roundBits p x :=
  (zpow_pos two_pos _).trans_le (zpow_le_roundBits hp hx)

theorem roundBits_mono (hp : 1 ≤ p) (hx : 0 ≤ x) (hxy : x ≤ y) : roundBits p x ≤ roundBits p y := by
  rcases hx.eq_or_lt with rfl | hpos
  · rw [roundBits_zero]
    exact roundBits_nonneg hxy
  have hypos := hpos.trans_le hxy
  rcases (Int.log_mono_right (b := 2) hpos hxy).eq_or_lt with heq | hlt
  · -- the same unit for both
    have hulp : ulp p x = ulp p y := by
      rw [ulp, ulp, abs_of_pos hpos, abs_of_pos hypos, heq]
    have hround := roundEven_mono (div_le_div_of_nonneg_right hxy (ulp_pos p y).le)
    rw [roundBits, roundBits, hulp]
    exact mul_le_mul_of_nonneg_right (Int.cast_le.mpr hround) (ulp_pos p y).le
  · calc roundBits p x ≤ 2 ^ (Int.log 2 x + 1) := roundBits_le_zpow hpos
      _ ≤ 2 ^ Int.log 2 y := zpow_le_zpow_right₀ one_le_two (by omega)
      _ ≤ roundBits p y := zpow_le_roundBits hp hypos

/-- Whole multiples of the unit stay. -/
theorem roundBits_of_div_ulp (h : x / ulp p x = z) : roundBits p x = x := by
  rw [roundBits, h, roundEven_intCast, ← h, div_mul_cancel₀ x (ulp_pos p x).ne']

/-- An integer up to `2ᵖ` times a power of two has `p` significant bits. -/
theorem roundBits_eq_self (hp : 1 ≤ p) {m : ℤ} (hm : |m| ≤ 2 ^ p) (e : ℤ) :
    roundBits p (m * 2 ^ e) = m * 2 ^ e := by
  rcases eq_or_ne m 0 with rfl | hne
  · rw [Int.cast_zero, zero_mul, roundBits_zero]
  set x : ℚ := m * 2 ^ e with hx
  have hpow : (0 : ℚ) < 2 ^ e := zpow_pos two_pos e
  have habs : |x| = |(m : ℚ)| * 2 ^ e := by rw [hx, abs_mul, abs_of_pos hpow]
  have hpos : 0 < |x| := by
    rw [habs]
    exact mul_pos (abs_pos.mpr (Int.cast_ne_zero.mpr hne)) hpow
  have hulp : ulp p x = 2 ^ (Int.log 2 |x| + 1 - p) := rfl
  have hsplit : (2 : ℚ) ^ ((p : ℤ) + e) = 2 ^ p * 2 ^ e := by
    rw [zpow_add₀ two_ne_zero, zpow_natCast]
  have hle : |x| ≤ 2 ^ ((p : ℤ) + e) := by
    rw [habs, hsplit]
    exact mul_le_mul_of_nonneg_right (by exact_mod_cast hm) hpow.le
  -- the exponent is that of `2ᵖ` at most
  have hlog : Int.log 2 |x| ≤ p + e := by
    have hmono := Int.log_mono_right (b := 2) hpos hle
    rwa [show (2 : ℚ) = ((2 : ℕ) : ℚ) from rfl, Int.log_zpow one_lt_two] at hmono
  have hge := Int.zpow_log_le_self (b := 2) one_lt_two hpos
  rw [Nat.cast_ofNat] at hge
  generalize Int.log 2 |x| = l at hlog hge hulp
  rcases hlog.lt_or_eq with hlt | rfl
  · -- the unit divides the power of two
    obtain ⟨k, hk⟩ := Int.eq_ofNat_of_zero_le (show 0 ≤ e - (l + 1 - p) by omega)
    refine roundBits_of_div_ulp (z := m * 2 ^ k) ?_
    rw [hulp, div_eq_iff (zpow_pos two_pos _).ne', hx]
    push_cast
    rw [mul_assoc, ← zpow_natCast, ← zpow_add₀ two_ne_zero, ← hk, sub_add_cancel]
  · -- the integer is `2ᵖ`, and the unit is twice the power of two
    have hmabs : |m| = 2 ^ p := by
      rw [habs, hsplit] at hge
      exact le_antisymm hm (by exact_mod_cast le_of_mul_le_mul_right hge hpow)
    obtain ⟨k, hk⟩ : ∃ k, m = k * 2 := by
      have hdvd : (2 : ℤ) ∣ |m| := hmabs ▸ dvd_pow_self 2 (by omega)
      obtain ⟨k, hk⟩ := (dvd_abs 2 m).mp hdvd
      exact ⟨k, by rw [hk, mul_comm]⟩
    refine roundBits_of_div_ulp (z := k) ?_
    rw [hulp, div_eq_iff (zpow_pos two_pos _).ne', hx, hk,
      show (p : ℤ) + e + 1 - p = e + 1 by ring, zpow_add_one₀ two_ne_zero]
    push_cast
    ring

theorem roundBits_roundBits (hp : 1 ≤ p) (x : ℚ) :
    roundBits p (roundBits p x) = roundBits p x := by
  rcases eq_or_ne x 0 with rfl | hne
  · rw [roundBits_zero, roundBits_zero]
  refine roundBits_eq_self hp ?_ _
  -- the quotient by the unit is below `2ᵖ`
  have hlt := Int.lt_zpow_succ_log_self (b := 2) one_lt_two |x|
  have habs : |x / ulp p x| ≤ 2 ^ p := by
    rw [abs_div, abs_of_pos (ulp_pos p x), div_le_iff₀ (ulp_pos p x), ulp, ← zpow_natCast,
      ← zpow_add₀ two_ne_zero, add_sub_cancel]
    exact_mod_cast hlt.le
  obtain ⟨hlow, hhigh⟩ := abs_le.mp habs
  rw [abs_le]
  constructor
  · have hmono := roundEven_mono (show ((-2 ^ p : ℤ) : ℚ) ≤ x / ulp p x by exact_mod_cast hlow)
    rwa [roundEven_intCast] at hmono
  · have hmono := roundEven_mono (show x / ulp p x ≤ ((2 ^ p : ℤ) : ℚ) by exact_mod_cast hhigh)
    rwa [roundEven_intCast] at hmono

/-- The integer a conversion cuts a number down to. -/
def truncate (x : ℚ) : ℤ := if 0 ≤ x then ⌊x⌋ else ⌈x⌉

theorem truncate_of_nonneg (hx : 0 ≤ x) : truncate x = ⌊x⌋ := if_pos hx

/-- The numbers of `p` significant bits. -/
def Binary (p : ℕ) : Type := { x : ℚ // roundBits p x = x }

namespace Binary

instance : LinearOrder (Binary p) := inferInstanceAs (LinearOrder { x : ℚ // roundBits p x = x })

/-- The exact number. -/
def val (a : Binary p) : ℚ := Subtype.val a

theorem val_lt_val {a b : Binary p} : a.val < b.val ↔ a < b := Iff.rfl

variable [NeZero p]

/-- The number next to `x`. -/
def round (x : ℚ) : Binary p := ⟨roundBits p x, roundBits_roundBits NeZero.one_le x⟩

theorem round_mono (hx : 0 ≤ x) (hxy : x ≤ y) : round (p := p) x ≤ round y :=
  roundBits_mono NeZero.one_le hx hxy

instance : NatCast (Binary p) := ⟨fun n => round n⟩

instance : Div (Binary p) := ⟨fun a b => round (a.val / b.val)⟩

theorem val_natCast_nonneg (n : ℕ) : 0 ≤ (n : Binary p).val := roundBits_nonneg n.cast_nonneg

theorem val_div_nonneg {a b : Binary p} (ha : 0 ≤ a.val) (hb : 0 ≤ b.val) : 0 ≤ (a / b).val :=
  roundBits_nonneg (div_nonneg ha hb)

/-- Division by a larger number gives no more. -/
theorem div_le_div_of_le {a b c : Binary p} (ha : 0 ≤ a.val) (hc : 0 < c.val) (hcb : c ≤ b) :
    a / b ≤ a / c :=
  round_mono (div_nonneg ha (hc.le.trans hcb)) (div_le_div_of_nonneg_left ha hc hcb)

end Binary

end PimLex.Fitting
