import PimLex.Fitting.Hull
import PimLex.Pgm.PiecewiseLinear
import Mathlib.Tactic.NormNum.Ineq

/-!
# The loops over the hulls

The comparisons of `add_point` are made with integers, by products across. In exact
arithmetic they say whether a point is below a line and which of two points is seen
at the greater slope. The search for an extreme slope ends where the slopes turn, and
the hull update pops what the new point hides.

Every statement here is about the lower chain; the upper one is the same picture
upside down.
-/

namespace PimLex.Pgm

open Fitting

variable {a b p q r : Point} {pts : List Point} {start i : ℕ}

namespace Point

/-- The point in exact arithmetic. -/
def pair (p : Point) : ℚ × ℚ := (p.x, p.y)

/-- The point upside down. -/
def flip (p : Point) : Point := ⟨p.x, -p.y⟩

@[simp] theorem pair_fst (p : Point) : p.pair.1 = p.x := rfl

@[simp] theorem pair_flip (p : Point) : p.flip.pair = flipPoint p.pair := by
  simp [pair, flip, flipPoint]

@[simp] theorem flip_flip (p : Point) : p.flip.flip = p := by simp [flip]

@[simp] theorem flip_x (p : Point) : p.flip.x = p.x := rfl

@[simp] theorem flip_y (p : Point) : p.flip.y = -p.y := rfl

theorem pair_lt : p.pair.1 < q.pair.1 ↔ p.x < q.x := by simp

end Point

section Compare

/-- Of two points to the left of `p`, which one it is seen from at the greater slope. -/
theorem gt_iff_slope (ha : a.x < p.x) (hb : b.x < p.x) :
    (b.sub p).gt (a.sub p) = true ↔
      (joining a.pair p.pair).slope < (joining b.pair p.pair).slope := by
  have ha' : (0 : ℚ) < p.x - a.x := by exact_mod_cast sub_pos.mpr ha
  have hb' : (0 : ℚ) < p.x - b.x := by exact_mod_cast sub_pos.mpr hb
  have hcast : ((b.x - p.x) * (a.y - p.y) < (b.y - p.y) * (a.x - p.x)) ↔
      ((b.x - p.x : ℚ) * (a.y - p.y) < (b.y - p.y) * (a.x - p.x)) := by
    norm_cast
  rw [Slope.gt_iff, joining_slope, joining_slope]
  simp only [Point.sub_dx, Point.sub_dy, Point.pair]
  rw [div_lt_div_iff₀ ha' hb', hcast]
  constructor <;> intro h <;> linarith

/-- Whether a point is below a line that goes through `a`. -/
theorem lt_iff_eval (hrq : r.x < q.x)
    (ha : (joining r.pair q.pair).eval a.x = a.y) :
    (p.sub a).lt (q.sub r) = true ↔ (p.y : ℚ) < (joining r.pair q.pair).eval p.x := by
  have hrq' : (0 : ℚ) < q.x - r.x := by exact_mod_cast sub_pos.mpr hrq
  have hcast : ((p.y - a.y) * (q.x - r.x) < (p.x - a.x) * (q.y - r.y)) ↔
      ((p.y - a.y : ℚ) * (q.x - r.x) < (p.x - a.x) * (q.y - r.y)) := by
    norm_cast
  have hsub := (joining r.pair q.pair).eval_sub p.x a.x
  have hslope : (joining r.pair q.pair).slope * (q.x - r.x) = (q.y : ℚ) - r.y := by
    rw [joining_slope]
    exact div_mul_cancel₀ _ hrq'.ne'
  have hval : ((joining r.pair q.pair).eval p.x - a.y) * (q.x - r.x) =
      (p.x - a.x) * (q.y - r.y) := by
    rw [← ha, hsub, ← hslope]
    ring
  rw [Slope.lt_iff]
  simp only [Point.sub_dx, Point.sub_dy]
  rw [hcast, ← hval, mul_lt_mul_iff_left₀ hrq', sub_lt_sub_iff_right]

theorem gt_iff_eval (hrq : r.x < q.x)
    (ha : (joining r.pair q.pair).eval a.x = a.y) :
    (p.sub a).gt (q.sub r) = true ↔ (joining r.pair q.pair).eval p.x < (p.y : ℚ) := by
  have hflip := lt_iff_eval (p := p.flip) (q := q.flip) (r := r.flip) (a := a.flip) hrq
  simp only [Point.pair_flip, joining_flipPoint, Line.flip_eval, Point.flip_x, Point.flip_y,
    Int.cast_neg, neg_lt_neg_iff, ha, true_imp_iff, Slope.lt_iff, Point.sub_dx,
    Point.sub_dy] at hflip
  rw [← hflip, Slope.gt_iff]
  simp only [Point.sub_dx, Point.sub_dy]
  constructor <;> intro h <;> linarith

theorem cross_nonneg_iff (hab : a.x < b.x) (hbp : b.x < p.x) :
    cross a b p ≥ 0 ↔ (joining a.pair b.pair).slope ≤ (joining b.pair p.pair).slope := by
  have hab' : (0 : ℚ) < b.x - a.x := by exact_mod_cast sub_pos.mpr hab
  have hbp' : (0 : ℚ) < p.x - b.x := by exact_mod_cast sub_pos.mpr hbp
  have hcast : ((b.x - a.x) * (p.y - a.y) - (b.y - a.y) * (p.x - a.x) ≥ 0) ↔
      ((b.x - a.x : ℚ) * (p.y - a.y) - (b.y - a.y) * (p.x - a.x) ≥ 0) := by
    norm_cast
  rw [joining_slope, joining_slope]
  simp only [cross, Point.sub_dx, Point.sub_dy, Point.pair]
  rw [div_le_div_iff₀ hab' hbp', hcast]
  constructor <;> intro h <;> linarith

end Compare

section Loops

/-- The search stops where the slopes begin to rise. A point right below `p` ends it too. -/
theorem extremeLoop_spec {rest : List Point} (ha : a.x < p.x)
    (hrest : ∀ b ∈ rest, b.x < p.x ∨ b.x = p.x ∧ b.y < p.y) :
    ∃ l q r, a :: rest = l ++ q :: r ∧
      extremeLoop Slope.gt p rest (i + 1) (a.sub p) i = i + l.length ∧ q.x < p.x ∧
      (∀ b ∈ a :: l, (joining q.pair p.pair).slope ≤ (joining b.pair p.pair).slope) ∧
      ∀ b ∈ r.head?, b.x < p.x →
        (joining q.pair p.pair).slope < (joining b.pair p.pair).slope := by
  induction rest generalizing a i with
  | nil => exact ⟨[], a, [], rfl, rfl, ha, by simp, nofun⟩
  | cons b rest ih =>
    have hb := hrest b List.mem_cons_self
    rw [extremeLoop]
    by_cases hbreak : (b.sub p).gt (a.sub p) = true
    · refine ⟨[], a, b :: rest, rfl, if_pos hbreak, ha, by simp, fun c hc hcp => ?_⟩
      obtain rfl := Option.some.inj hc
      exact (gt_iff_slope ha hcp).mp hbreak
    · have hbp : b.x < p.x := by
        rcases hb with hb | ⟨hx, hy⟩
        · exact hb
        · -- seen from right above it the slope is infinite
          have hpos : 0 < (b.y - p.y) * (a.x - p.x) :=
            mul_pos_of_neg_of_neg (sub_neg.mpr hy) (sub_neg.mpr ha)
          refine absurd (Slope.gt_iff.mpr ?_) hbreak
          simpa only [Point.sub_dx, Point.sub_dy, hx, sub_self, zero_mul] using hpos
      have hslope := not_lt.mp (mt (gt_iff_slope ha hbp).mpr hbreak)
      obtain ⟨l, q, r, heq, hloop, hq, hfalls, hrises⟩ :=
        ih (i := i + 1) hbp fun c hc => hrest c (List.mem_cons_of_mem _ hc)
      refine ⟨a :: l, q, r, by rw [heq]; rfl, ?_, hq, ?_, hrises⟩
      · simp only [if_neg hbreak, List.length_cons]
        rw [hloop]
        omega
      · have hqb := hfalls b List.mem_cons_self
        intro c hc
        rcases List.mem_cons.mp hc with rfl | hc
        · exact hqb.trans hslope
        rcases List.mem_cons.mp hc with rfl | hc
        · exact hqb.trans hslope
        · exact hfalls c (List.mem_cons_of_mem _ hc)

theorem extreme_spec {chain : List Point} (hchain : pts.drop start = a :: chain)
    (ha : a.x < p.x) (hrest : ∀ b ∈ chain, b.x < p.x ∨ b.x = p.x ∧ b.y < p.y) :
    ∃ l q r, a :: chain = l ++ q :: r ∧
      pts.drop (extreme Slope.gt pts start p) = q :: r ∧
      pts.getD (extreme Slope.gt pts start p) default = q ∧ q.x < p.x ∧
      (∀ b ∈ l, (joining q.pair p.pair).slope ≤ (joining b.pair p.pair).slope) ∧
      ∀ b ∈ r.head?, b.x < p.x →
        (joining q.pair p.pair).slope < (joining b.pair p.pair).slope := by
  have hget : pts.getD start default = a := by
    rw [List.getD_eq_getElem?_getD, ← List.head?_drop, hchain]
    rfl
  have hnext : pts.drop (start + 1) = chain := by
    rw [← List.drop_drop, hchain]
    rfl
  obtain ⟨l, q, r, heq, hloop, hq, hfalls, hrises⟩ := extremeLoop_spec (i := start) ha hrest
  have hres : extreme Slope.gt pts start p = start + l.length := by
    rw [extreme, hget, hnext, hloop]
  have hdrop : pts.drop (start + l.length) = q :: r := by
    rw [← List.drop_drop, hchain, heq, List.drop_left]
  refine ⟨l, q, r, heq, by rw [hres, hdrop], ?_, hq,
    fun b hb => hfalls b (List.mem_cons_of_mem _ hb), hrises⟩
  rw [hres, List.getD_eq_getElem?_getD, ← List.head?_drop, hdrop]
  rfl

/-- The part of a chain before index `n`, in exact arithmetic. -/
def chainTo (pts : List Point) (start n : ℕ) : List (ℚ × ℚ) :=
  ((pts.take n).drop start).map Point.pair

theorem chainTo_succ {n : ℕ} (hs : start ≤ n) (hn : n < pts.length) :
    chainTo pts start (n + 1) = chainTo pts start n ++ [(pts.getD n default).pair] := by
  have hlen : start ≤ (pts.take n).length := by
    rw [List.length_take]
    omega
  rw [chainTo, List.take_succ_eq_append_getElem hn, List.drop_append_of_le_length hlen,
    List.map_append, List.getD_eq_getElem?_getD, List.getElem?_eq_getElem hn]
  rfl

theorem chainTo_self (pts : List Point) (start : ℕ) : chainTo pts start start = [] := by
  rw [chainTo, List.drop_eq_nil_of_le (by simp)]
  rfl

/-- What the hull update pops is hidden by what it leaves and the new point, and these turn right
everywhere. -/
theorem hullEnd_spec {n : ℕ} (hs : start < n) (hn : n ≤ pts.length)
    (hconcave : Concave (chainTo pts start n)) (hp : ∀ c ∈ chainTo pts start n, c.1 < p.x) :
    start < hullEnd (· ≥ 0) pts start p n ∧ hullEnd (· ≥ 0) pts start p n ≤ n ∧
      Concave (chainTo pts start (hullEnd (· ≥ 0) pts start p n) ++ [p.pair]) ∧
      ∀ f : Line ℚ, Above f (chainTo pts start (hullEnd (· ≥ 0) pts start p n) ++ [p.pair]) →
        Above f (chainTo pts start n) := by
  induction n with
  | zero => exact absurd hs (Nat.not_lt_zero start)
  | succ n ih =>
    have hlast := chainTo_succ (Nat.le_of_lt_succ hs) (Nat.lt_of_succ_le hn)
    rcases (Nat.le_of_lt_succ hs).eq_or_lt with rfl | hsn
    · -- the point at `start` is never popped
      have hend : hullEnd (· ≥ 0) pts start p (start + 1) = start + 1 := by
        rw [hullEnd, if_neg (by omega)]
      rw [hend]
      refine ⟨hs, le_rfl, ?_, fun f hf => (above_append.mp hf).1⟩
      rw [chainTo_self, List.nil_append] at hlast
      rw [hlast] at hp ⊢
      exact ⟨hp _ List.mem_cons_self, nofun, trivial⟩
    · obtain ⟨n, rfl⟩ : ∃ n', n = n' + 1 := ⟨n - 1, by omega⟩
      have hlast' := chainTo_succ (show start ≤ n by omega) (show n < pts.length by omega)
      rw [hlast] at hp hconcave
      have hp' : ∀ c ∈ chainTo pts start (n + 1), c.1 < p.x := fun c hc =>
        hp c (List.mem_append_left _ hc)
      set a := pts.getD n default with ha
      set b := pts.getD (n + 1) default with hb
      have hpair : chainTo pts start (n + 1) ++ [b.pair] =
          chainTo pts start n ++ [a.pair, b.pair] := by
        rw [hlast', List.append_assoc]
        rfl
      have hab : a.x < b.x := by
        rw [hpair] at hconcave
        exact Point.pair_lt.mp hconcave.right.1
      have hbp : b.x < p.x :=
        Int.cast_lt.mp (hp b.pair (List.mem_append_right _ List.mem_cons_self))
      rw [hullEnd, Nat.add_sub_cancel]
      by_cases hpop : cross a b p ≥ 0
      · -- popped: the point lies below the chord from the one before it to `p`
        rw [if_pos ⟨by omega, decide_eq_true hpop⟩]
        obtain ⟨hlow, hhigh, hturn, hhidden⟩ := ih hsn (by omega) hconcave.left hp'
        refine ⟨hlow, hhigh.trans (Nat.le_succ _), hturn, fun f hf => ?_⟩
        have hprev := hhidden f hf
        rw [hlast]
        refine above_concat.mpr ⟨hprev, ?_⟩
        rw [hlast'] at hprev
        exact le_eval_of_chord (Point.pair_lt.mpr hab) (Point.pair_lt.mpr hbp)
          ((cross_nonneg_iff hab hbp).mp hpop) (above_concat.mp hprev).2 (above_concat.mp hf).2
      · -- kept: the chain turns right at it
        rw [if_neg (fun h => hpop (of_decide_eq_true h.2)), hlast, hpair]
        refine ⟨by omega, le_rfl, ?_, fun f hf => ?_⟩
        · rw [hpair] at hconcave
          rw [List.append_assoc]
          exact hconcave.concat (Point.pair_lt.mpr hbp)
            (not_le.mp (mt (cross_nonneg_iff hab hbp).mpr hpop))
        · exact (above_append.mp hf).1

/-- The hull update keeps the point at `start` and puts the new point at the end. -/
theorem hullPush_spec (hs : start < pts.length)
    (hconcave : Concave ((pts.drop start).map Point.pair))
    (hp : ∀ c ∈ (pts.drop start).map Point.pair, c.1 < p.x) :
    ∃ kept, ((hullPush (· ≥ 0) pts start p).drop start).map Point.pair = kept ++ [p.pair] ∧
      kept ⊆ (pts.drop start).map Point.pair ∧ Concave (kept ++ [p.pair]) ∧
      (∀ f : Line ℚ, Above f (kept ++ [p.pair]) → Above f ((pts.drop start).map Point.pair)) ∧
      ((hullPush (· ≥ 0) pts start p).drop start).head? = (pts.drop start).head? ∧
      ((hullPush (· ≥ 0) pts start p).drop start).getLast? = some p := by
  have hwhole : chainTo pts start pts.length = (pts.drop start).map Point.pair := by
    rw [chainTo, List.take_length]
  rw [← hwhole] at hconcave hp ⊢
  obtain ⟨hlow, hhigh, hturn, hhidden⟩ := hullEnd_spec hs le_rfl hconcave hp
  rw [hullPush]
  generalize hullEnd (· ≥ 0) pts start p pts.length = n at hlow hhigh hturn hhidden ⊢
  have hdrop : (pts.take n ++ [p]).drop start = (pts.take n).drop start ++ [p] := by
    apply List.drop_append_of_le_length
    rw [List.length_take]
    omega
  have hsub : ((pts.take n).drop start).Sublist (pts.drop start) :=
    (List.take_sublist n pts).drop start
  refine ⟨chainTo pts start n, ?_, ?_, hturn, hhidden, ?_, ?_⟩
  · rw [hdrop, List.map_append]
    rfl
  · rw [hwhole]
    exact (hsub.map _).subset
  · rw [hdrop, List.head?_append, List.head?_drop, List.head?_drop, List.getElem?_take,
      if_pos hlow, List.getElem?_eq_getElem hs]
    rfl
  · rw [hdrop, List.getLast?_concat]

end Loops

section Flip

theorem extremeLoop_flip {best : Slope} {bestI : ℕ} (rest : List Point) :
    extremeLoop Slope.lt p rest i best bestI =
      extremeLoop Slope.gt p.flip (rest.map Point.flip) i ⟨best.dx, -best.dy⟩ bestI := by
  induction rest generalizing i best bestI with
  | nil => rfl
  | cons q rest ih =>
    have hsub : q.flip.sub p.flip = ⟨(q.sub p).dx, -(q.sub p).dy⟩ := by
      simp [Point.sub, Point.flip]
      omega
    have hbreak : (q.sub p).lt best = Slope.gt ⟨(q.sub p).dx, -(q.sub p).dy⟩
        ⟨best.dx, -best.dy⟩ := by
      simp only [Slope.lt, Slope.gt, mul_neg, neg_mul, gt_iff_lt, neg_lt_neg_iff]
    simp only [List.map_cons, extremeLoop, hsub, ← hbreak, ih]

theorem getD_map_flip (pts : List Point) (i : ℕ) :
    (pts.map Point.flip).getD i default = (pts.getD i default).flip := by
  rw [List.getD_eq_getElem?_getD, List.getD_eq_getElem?_getD, List.getElem?_map]
  cases pts[i]? <;> rfl

theorem extreme_flip : extreme Slope.lt pts start p =
    extreme Slope.gt (pts.map Point.flip) start p.flip := by
  rw [extreme, extreme, extremeLoop_flip, getD_map_flip, List.map_drop]
  congr 1
  simp [Point.sub, Point.flip]
  omega

theorem cross_flip (a b p : Point) : cross a.flip b.flip p.flip = -cross a b p := by
  simp only [cross, Point.sub_dx, Point.sub_dy, Point.flip_x, Point.flip_y]
  ring

theorem hullEnd_flip (n : ℕ) : hullEnd (· ≤ 0) pts start p n =
    hullEnd (· ≥ 0) (pts.map Point.flip) start p.flip n := by
  induction n with
  | zero => rfl
  | succ n ih =>
    simp only [hullEnd, getD_map_flip, cross_flip, ih, ge_iff_le, Left.nonneg_neg_iff]

theorem hullPush_flip : hullPush (· ≤ 0) pts start p =
    (hullPush (· ≥ 0) (pts.map Point.flip) start p.flip).map Point.flip := by
  rw [hullPush, hullPush, hullEnd_flip, List.length_map, List.map_append, ← List.map_take,
    List.map_map]
  simp [Function.comp_def]

end Flip

end PimLex.Pgm
