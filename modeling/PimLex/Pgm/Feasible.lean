import PimLex.Pgm.Hull
import Mathlib.Algebra.Order.Group.MinMax

/-!
# The corners of the piecewise linear model

As long as points are taken, the line through corners 1 and 3 is the steepest one
within the error intervals of all of them, and the line through corners 0 and 2 the
flattest. The two chains keep what decides where later lines touch, so a point is
refused exactly if no line fits it and all points before.
-/

namespace PimLex.Pgm

open Fitting

variable {m : OptModel} {P : Point} {gs : List (Gate ℚ)} {fs cs : List (ℚ × ℚ)}

namespace OptModel

/-- The line through corners 0 and 2. -/
def flatLine (m : OptModel) : Line ℚ := joining m.rectangle0.pair m.rectangle2.pair

/-- The line through corners 1 and 3. -/
def steepLine (m : OptModel) : Line ℚ := joining m.rectangle1.pair m.rectangle3.pair

/-- What is left of `lower`. -/
def lowerChain (m : OptModel) : List Point := m.lower.drop m.lowerStart

/-- What is left of `upper`. -/
def upperChain (m : OptModel) : List Point := m.upper.drop m.upperStart

/-- The model upside down. -/
def flip (m : OptModel) : OptModel :=
  { m with
    lower := m.upper.map Point.flip, upper := m.lower.map Point.flip
    lowerStart := m.upperStart, upperStart := m.lowerStart
    rectangle0 := m.rectangle1.flip, rectangle1 := m.rectangle0.flip
    rectangle2 := m.rectangle3.flip, rectangle3 := m.rectangle2.flip }

@[simp] theorem flip_flip (m : OptModel) : m.flip.flip = m := by
  simp [flip, Function.comp_def]

theorem flip_flatLine (m : OptModel) : m.flip.flatLine = m.steepLine.flip := by
  simp only [flatLine, steepLine, flip, Point.pair_flip, joining_flipPoint]

theorem flip_steepLine (m : OptModel) : m.flip.steepLine = m.flatLine.flip := by
  simp only [flatLine, steepLine, flip, Point.pair_flip, joining_flipPoint]

theorem flip_lowerChain (m : OptModel) : m.flip.lowerChain = m.upperChain.map Point.flip := by
  simp only [lowerChain, upperChain, flip, List.map_drop]

theorem flip_upperChain (m : OptModel) : m.flip.upperChain = m.lowerChain.map Point.flip := by
  simp only [lowerChain, upperChain, flip, List.map_drop]

/-- The second update is the first one upside down. -/
theorem updateFlattest_eq (m : OptModel) (p2 : Point) :
    m.updateFlattest p2 = (m.flip.updateSteepest p2.flip).flip := by
  have hpush : hullPush (· ≥ 0) m.lower m.lowerStart p2 =
      (hullPush (· ≤ 0) (m.lower.map Point.flip) m.lowerStart p2.flip).map Point.flip := by
    rw [hullPush_flip]
    simp [Function.comp_def]
  simp only [updateFlattest, updateSteepest, flip, extreme_flip, getD_map_flip, hpush,
    List.map_map, Point.flip_flip, Function.comp_def, List.map_id']

/-- The first update, if the steepest line is above the new end. -/
def stepSteepest (m : OptModel) (p1 : Point) : OptModel :=
  if (p1.sub m.rectangle1).lt (m.rectangle3.sub m.rectangle1) then m.updateSteepest p1 else m

/-- The second update, if the flattest line is below the new end. -/
def stepFlattest (m : OptModel) (p2 : Point) : OptModel :=
  if (p2.sub m.rectangle0).gt (m.rectangle2.sub m.rectangle0) then m.updateFlattest p2 else m

theorem stepFlattest_eq (m : OptModel) (p2 : Point) :
    m.stepFlattest p2 = (m.flip.stepSteepest p2.flip).flip := by
  have hlt : (p2.flip.sub m.rectangle0.flip).lt (m.rectangle2.flip.sub m.rectangle0.flip) =
      (p2.sub m.rectangle0).gt (m.rectangle2.sub m.rectangle0) := by
    rw [Bool.eq_iff_iff, Slope.lt_iff, Slope.gt_iff]
    simp only [Point.sub_dx, Point.sub_dy, Point.flip_x, Point.flip_y]
    constructor <;> intro h <;> linarith
  rw [stepFlattest, stepSteepest, updateFlattest_eq]
  simp only [flip, hlt]
  split
  · rfl
  · exact m.flip_flip.symm

@[simp] theorem stepSteepest_rectangle0 (m : OptModel) (p1 : Point) :
    (m.stepSteepest p1).rectangle0 = m.rectangle0 := by
  rw [stepSteepest]
  split <;> rfl

@[simp] theorem stepSteepest_rectangle2 (m : OptModel) (p1 : Point) :
    (m.stepSteepest p1).rectangle2 = m.rectangle2 := by
  rw [stepSteepest]
  split <;> rfl

@[simp] theorem stepSteepest_flatLine (m : OptModel) (p1 : Point) :
    (m.stepSteepest p1).flatLine = m.flatLine := by
  simp only [flatLine, stepSteepest_rectangle0, stepSteepest_rectangle2]

/-- The two steps leave alone what does not belong to the corners and the chains. -/
theorem steps_frame (m : OptModel) (p1 p2 : Point) :
    ((m.stepSteepest p1).stepFlattest p2).epsilon = m.epsilon ∧
      ((m.stepSteepest p1).stepFlattest p2).pointsInHull = m.pointsInHull ∧
      ((m.stepSteepest p1).stepFlattest p2).firstX = m.firstX ∧
      ((m.stepSteepest p1).stepFlattest p2).lastX = m.lastX := by
  rw [stepFlattest, stepSteepest]
  split <;> split <;> exact ⟨rfl, rfl, rfl, rfl⟩

/-- `add_point` from the third point on. -/
theorem addPoint_eq {x y : ℕ} (hcount : 2 ≤ m.pointsInHull) (hx : m.lastX < x) :
    m.addPoint x y =
      if (((upperEnd m.epsilon x y).sub m.rectangle2).lt (m.rectangle2.sub m.rectangle0) ||
        ((lowerEnd m.epsilon x y).sub m.rectangle3).gt (m.rectangle3.sub m.rectangle1)) = true then
        .ok (false, { m with lastX := x, pointsInHull := 0 })
      else .ok (true, (stepSteepest { m with lastX := x, pointsInHull := m.pointsInHull + 1 }
        (upperEnd m.epsilon x y)).stepFlattest (lowerEnd m.epsilon x y)) := by
  rw [addPoint, if_neg (by omega), if_neg (by omega), if_neg (by omega)]
  simp only [stepFlattest, stepSteepest_rectangle0, stepSteepest_rectangle2]
  rfl

end OptModel

/-- Both lines pass the gates, and the two chains run between the corners; they decide for lines
between the two whether they are above the points `fs` and below the points `cs`. -/
structure Hulls (gs : List (Gate ℚ)) (fs cs : List (ℚ × ℚ)) (m : OptModel) : Prop where
  flatPasses : m.flatLine.PassesAll gs
  steepPasses : m.steepLine.PassesAll gs
  flatLt : m.rectangle0.x < m.rectangle2.x
  steepLt : m.rectangle1.x < m.rectangle3.x
  lower : LowerHull fs m.flatLine.slope m.steepLine.slope (m.lowerChain.map Point.pair)
  upper : UpperHull cs m.flatLine.slope m.steepLine.slope (m.upperChain.map Point.pair)
  lowerHead : m.lowerChain.head? = some m.rectangle1
  lowerLast : m.lowerChain.getLast? = some m.rectangle2
  upperHead : m.upperChain.head? = some m.rectangle0
  upperLast : m.upperChain.getLast? = some m.rectangle3

namespace Hulls

theorem map_pair_flip (l : List Point) :
    (l.map Point.flip).map Point.pair = (l.map Point.pair).map flipPoint := by
  simp only [List.map_map]
  exact List.map_congr_left fun p _ => p.pair_flip

theorem flip (h : Hulls gs fs cs m) :
    Hulls (gs.map Gate.flip) (cs.map flipPoint) (fs.map flipPoint) m.flip where
  flatPasses := by
    rw [OptModel.flip_flatLine, Line.flip_passesAll]
    exact h.steepPasses
  steepPasses := by
    rw [OptModel.flip_steepLine, Line.flip_passesAll]
    exact h.flatPasses
  flatLt := h.steepLt
  steepLt := h.flatLt
  lower := by
    rw [OptModel.flip_flatLine, OptModel.flip_steepLine, OptModel.flip_lowerChain, map_pair_flip]
    exact h.upper
  upper := by
    have hid : flipPoint ∘ flipPoint = (id : ℚ × ℚ → ℚ × ℚ) := funext flipPoint_flipPoint
    rw [OptModel.flip_flatLine, OptModel.flip_steepLine, OptModel.flip_upperChain, map_pair_flip,
      UpperHull, List.map_map, List.map_map, hid, List.map_id, List.map_id, Line.flip_slope,
      Line.flip_slope, neg_neg, neg_neg]
    exact h.lower
  lowerHead := by
    rw [OptModel.flip_lowerChain, List.head?_map, h.upperHead]
    rfl
  lowerLast := by
    rw [OptModel.flip_lowerChain, List.getLast?_map, h.upperLast]
    rfl
  upperHead := by
    rw [OptModel.flip_upperChain, List.head?_map, h.lowerHead]
    rfl
  upperLast := by
    rw [OptModel.flip_upperChain, List.getLast?_map, h.lowerLast]
    rfl

theorem lowerHead_mem (h : Hulls gs fs cs m) : m.rectangle1.pair ∈ fs :=
  h.lower.subset (List.mem_map_of_mem (List.mem_of_mem_head? h.lowerHead))

theorem upperLast_mem (h : Hulls gs fs cs m) : m.rectangle3.pair ∈ cs := by
  have hmem := List.mem_map_of_mem (List.mem_of_mem_getLast? h.upperLast) (f := Point.pair)
  have hsub := h.upper.subset (List.mem_map_of_mem (f := flipPoint) hmem)
  obtain ⟨c, hc, heq⟩ := List.mem_map.mp hsub
  have hpair : c = m.rectangle3.pair := by
    rw [← flipPoint_flipPoint c, heq, flipPoint_flipPoint]
  rwa [← hpair]

/-- A new upper end above the steepest line changes nothing. -/
theorem keepSteepest (h : Hulls gs fs cs m) (hcs : ∀ c ∈ cs, c.1 < P.x)
    (hhigh : m.steepLine.eval P.x ≤ P.y) : Hulls gs fs (cs ++ [P.pair]) m where
  flatPasses := h.flatPasses
  steepPasses := h.steepPasses
  flatLt := h.flatLt
  steepLt := h.steepLt
  lower := h.lower
  upper := by
    obtain ⟨l, hl⟩ := List.getLast?_eq_some_iff.mp h.upperLast
    have hupper := h.upper
    have hend : m.steepLine.eval m.rectangle3.pair.1 = m.rectangle3.pair.2 :=
      joining_eval_right (Point.pair_lt.mpr h.steepLt)
    rw [hl, UpperHull, List.map_append, List.map_append] at hupper
    rw [hl, UpperHull, List.map_append, List.map_append, List.map_append]
    refine hupper.skip (f := m.steepLine.flip) rfl ?_ ?_ ?_
    · rw [Line.flip_eval]
      exact neg_le_neg hend.ge
    · exact (hcs _ h.upperLast_mem).le
    · rw [Line.flip_eval]
      exact neg_le_neg hhigh
  lowerHead := h.lowerHead
  lowerLast := h.lowerLast
  upperHead := h.upperHead
  upperLast := h.upperLast

/-- What the first update makes of the lower chain: it is kept from its point `q` on, and the line
from there to the new end is the steepest one that stays. -/
structure Touched (gs : List (Gate ℚ)) (fs : List (ℚ × ℚ)) (m : OptModel) (P q : Point)
    (r : List Point) : Prop where
  lt : q.x < P.x
  corner : (m.updateSteepest P).rectangle1 = q
  chain : (m.updateSteepest P).lowerChain = q :: r
  kept : ∃ l, m.lowerChain = l ++ q :: r
  passes : (joining q.pair P.pair).PassesAll gs
  slope_le : (joining q.pair P.pair).slope ≤ m.steepLine.slope
  hull : LowerHull fs m.flatLine.slope (joining q.pair P.pair).slope ((q :: r).map Point.pair)

section Update

variable (h : Hulls gs fs cs m) (hgs : ∀ g ∈ gs, g.x < P.x) (hsub : floors gs ⊆ fs)
  (hfs : ∀ a ∈ fs, a ∈ floors gs ∨ a.1 = P.x ∧ a.2 < P.y) (hcs : ∀ c ∈ cs, c.1 < P.x)
include h

include hgs hfs in
/-- The lower chain is in front of the new upper end, or below it. -/
theorem lowerChain_front : ∀ b ∈ m.lowerChain, b.x < P.x ∨ b.x = P.x ∧ b.y < P.y := by
  intro b hb
  rcases hfs _ (h.lower.subset (List.mem_map_of_mem hb)) with hfl | ⟨hx, hy⟩
  · obtain ⟨g, hg, heq⟩ := List.mem_map.mp hfl
    have hlt : (b.x : ℚ) < P.x := by
      rw [← (Prod.mk.inj heq).1]
      exact hgs g hg
    exact Or.inl (Int.cast_lt.mp hlt)
  · exact Or.inr ⟨Int.cast_inj.mp hx, Int.cast_lt.mp hy⟩

include hgs hsub hfs hcs in
/-- The line to the new end touches the lower chain at the point that the update finds. -/
theorem exists_touched (hlow : m.flatLine.eval P.x ≤ P.y) (hhigh : P.y ≤ m.steepLine.eval P.x) :
    ∃ q r, Touched gs fs m P q r := by
  obtain ⟨chain, hchain⟩ := List.head?_eq_some_iff.mp h.lowerHead
  have hr1 : m.rectangle1.x < P.x := h.steepLt.trans (Int.cast_lt.mp (hcs _ h.upperLast_mem))
  have hpoint := h.lowerChain_front hgs hfs
  obtain ⟨l, q, r, hsplit, hdrop, hget, hq, hfalls, hrises⟩ :=
    extreme_spec hchain hr1 fun b hb => hpoint b (hchain ▸ List.mem_cons_of_mem _ hb)
  rw [← hchain] at hsplit
  have hlower := h.lower
  rw [hsplit, List.map_append, List.map_cons] at hlower
  have habove : Above (joining q.pair P.pair) (l.map Point.pair ++ q.pair :: r.map Point.pair) := by
    apply hlower.concave.above_joining (Point.pair_lt.mpr hq)
    · rw [← List.map_cons, ← List.map_append, ← hsplit]
      intro a ha
      obtain ⟨b, hb, rfl⟩ := List.mem_map.mp ha
      rcases hpoint b hb with hlt | ⟨hx, hy⟩
      · exact Or.inl (Int.cast_lt.mpr hlt)
      · exact Or.inr ⟨congrArg Int.cast hx, (Int.cast_lt.mpr hy).le⟩
    · intro a ha
      obtain ⟨b, hb, rfl⟩ := List.mem_map.mp ha
      exact hfalls b hb
    · intro a ha hap
      rw [List.head?_map] at ha
      obtain ⟨b, hb, rfl⟩ := Option.map_eq_some_iff.mp ha
      exact hrises b hb (Point.pair_lt.mp hap)
  have hqfloor : q.pair ∈ floors gs := by
    have hmem := hlower.subset (List.mem_append_right _ List.mem_cons_self)
    rcases hfs q.pair hmem with hfl | ⟨hx, -⟩
    · exact hfl
    · exact absurd (Int.cast_inj.mp hx) hq.ne
  obtain ⟨hpass, -, hslope, hhull⟩ := hlower.tangent h.flatPasses h.steepPasses hgs hlow hhigh hsub
    (fun a ha => by
      rw [← List.map_cons, ← List.map_append, ← hsplit, List.head?_map, h.lowerHead] at ha
      obtain rfl := Option.some.inj ha
      exact ⟨Point.pair_lt.mpr hr1, joining_eval_left _ _⟩) hqfloor habove
  exact ⟨q, r, hq, hget, hdrop, ⟨l, hsplit⟩, hpass, hslope, hhull⟩

include hcs in
/-- The new end is put at the end of the upper chain. -/
theorem pushUpper {hi : ℚ} (hhi : hi ≤ m.steepLine.slope) :
    UpperHull (cs ++ [P.pair]) m.flatLine.slope hi
        ((m.updateSteepest P).upperChain.map Point.pair) ∧
      (m.updateSteepest P).upperChain.head? = some m.rectangle0 ∧
      (m.updateSteepest P).upperChain.getLast? = some P := by
  have hupper := h.upper.narrow (neg_le_neg hhi) le_rfl
  have hstart : m.upperStart < (m.upper.map Point.flip).length := by
    rw [List.length_map]
    by_contra hlen
    have hnil : m.upperChain = [] := List.drop_eq_nil_of_le (not_lt.mp hlen)
    exact Option.some_ne_none _ (h.upperHead.symm.trans (congrArg List.head? hnil))
  have hflip : ((m.upper.map Point.flip).drop m.upperStart).map Point.pair =
      (m.upperChain.map Point.pair).map flipPoint := by
    rw [← List.map_drop, map_pair_flip]
    rfl
  rw [← hflip] at hupper
  obtain ⟨kept, hkept, hkeptSub, hturn, hhidden, hhead, hlast⟩ :=
    hullPush_spec (p := P.flip) hstart hupper.concave fun c hc => by
      obtain ⟨c', hc', rfl⟩ := List.mem_map.mp (hupper.subset hc)
      exact hcs c' hc'
  have hchain : (m.updateSteepest P).upperChain =
      ((hullPush (· ≥ 0) (m.upper.map Point.flip) m.upperStart P.flip).drop
        m.upperStart).map Point.flip := by
    simp only [OptModel.upperChain, OptModel.updateSteepest, hullPush_flip, List.map_drop]
  rw [hchain]
  refine ⟨?_, ?_, ?_⟩
  · rw [map_pair_flip, hkept, UpperHull, List.map_map, List.map_append]
    have hid : flipPoint ∘ flipPoint = (id : ℚ × ℚ → ℚ × ℚ) := funext flipPoint_flipPoint
    rw [hid, List.map_id, List.map_singleton, ← Point.pair_flip]
    exact hupper.push hturn hkeptSub hhidden
  · rw [List.head?_map, hhead, ← List.map_drop, List.head?_map]
    change Option.map Point.flip (Option.map Point.flip m.upperChain.head?) = _
    rw [h.upperHead]
    simp
  · rw [List.getLast?_map, hlast]
    simp

include hgs hsub hfs hcs in
/-- The first update. The points `fs` are the lower ends of the gates and possibly one below the
new upper end. -/
theorem updateSteepest (hlow : m.flatLine.eval P.x ≤ P.y) (hhigh : P.y ≤ m.steepLine.eval P.x) :
    Hulls gs fs (cs ++ [P.pair]) (m.updateSteepest P) := by
  obtain ⟨q, r, htouch⟩ := h.exists_touched hgs hsub hfs hcs hlow hhigh
  obtain ⟨hupper, hhead, hlast⟩ := h.pushUpper hcs htouch.slope_le
  have hsteep : (m.updateSteepest P).steepLine = joining q.pair P.pair := by
    rw [OptModel.steepLine, htouch.corner]
    rfl
  refine ⟨h.flatPasses, hsteep ▸ htouch.passes, h.flatLt, ?_, ?_, ?_, ?_, ?_, hhead, hlast⟩
  · rw [htouch.corner]
    exact htouch.lt
  · rw [hsteep, htouch.chain]
    exact htouch.hull
  · rw [hsteep]
    exact hupper
  · rw [htouch.chain, htouch.corner, List.head?_cons]
  · obtain ⟨l, hkept⟩ := htouch.kept
    have hlowerLast := h.lowerLast
    rw [hkept, List.getLast?_append_cons] at hlowerLast
    rw [htouch.chain]
    exact hlowerLast

end Update

/-- The first step of `add_point` behind the gates: of the lines that also keep below the new end
the steepest one is kept. -/
theorem stepSteepest (h : Hulls gs fs cs m) (hgs : ∀ g ∈ gs, g.x < P.x) (hsub : floors gs ⊆ fs)
    (hfs : ∀ a ∈ fs, a ∈ floors gs ∨ a.1 = P.x ∧ a.2 < P.y) (hcs : ∀ c ∈ cs, c.1 < P.x)
    (hlow : m.flatLine.eval P.x ≤ P.y) :
    Hulls gs fs (cs ++ [P.pair]) (m.stepSteepest P) ∧
      (m.stepSteepest P).steepLine.eval P.x = min (P.y : ℚ) (m.steepLine.eval P.x) := by
  have hbelow := lt_iff_eval (p := P) h.steepLt
    (joining_eval_left m.rectangle1.pair m.rectangle3.pair)
  rw [OptModel.stepSteepest]
  by_cases hlt : (P.sub m.rectangle1).lt (m.rectangle3.sub m.rectangle1) = true
  · have hhigh : (P.y : ℚ) ≤ m.steepLine.eval P.x := (hbelow.mp hlt).le
    have hnew := h.updateSteepest hgs hsub hfs hcs hlow hhigh
    rw [if_pos hlt, min_eq_left hhigh]
    exact ⟨hnew, joining_eval_right (Point.pair_lt.mpr hnew.steepLt)⟩
  · have hhigh : m.steepLine.eval P.x ≤ P.y := not_lt.mp (mt hbelow.mpr hlt)
    rw [if_neg hlt, min_eq_right hhigh]
    exact ⟨h.keepSteepest hcs hhigh, rfl⟩

/-- The second step is the first one upside down. -/
theorem stepFlattest (h : Hulls gs fs cs m) (hgs : ∀ g ∈ gs, g.x < P.x) (hsub : ceils gs ⊆ cs)
    (hcs : ∀ a ∈ cs, a ∈ ceils gs ∨ a.1 = P.x ∧ P.y < a.2) (hfs : ∀ c ∈ fs, c.1 < P.x)
    (hhigh : P.y ≤ m.steepLine.eval P.x) :
    Hulls gs (fs ++ [P.pair]) cs (m.stepFlattest P) ∧
      (m.stepFlattest P).steepLine = m.steepLine ∧
      (m.stepFlattest P).flatLine.eval P.x = max (P.y : ℚ) (m.flatLine.eval P.x) := by
  obtain ⟨hnew, heval⟩ := h.flip.stepSteepest (P := P.flip)
    (by
      rw [List.forall_mem_map]
      exact hgs)
    (by
      rw [floors_flip]
      exact List.map_subset _ hsub)
    (fun a ha => by
      obtain ⟨c, hc, rfl⟩ := List.mem_map.mp ha
      rw [floors_flip]
      rcases hcs c hc with hmem | ⟨hx, hy⟩
      · exact Or.inl (List.mem_map_of_mem hmem)
      · refine Or.inr ⟨hx, ?_⟩
        rw [flipPoint_snd, Point.flip_y, Int.cast_neg]
        exact neg_lt_neg hy)
    (by
      rw [List.forall_mem_map]
      exact hfs)
    (by
      rw [OptModel.flip_flatLine, Line.flip_eval, Point.flip_y, Int.cast_neg]
      exact neg_le_neg hhigh)
  -- turned back, upper and lower have changed places twice
  have hback := hnew.flip
  have hid : flipPoint ∘ flipPoint = (id : ℚ × ℚ → ℚ × ℚ) := funext flipPoint_flipPoint
  have hgid : Gate.flip ∘ Gate.flip = (id : Gate ℚ → Gate ℚ) := funext Gate.flip_flip
  rw [← OptModel.stepFlattest_eq, List.map_map, hgid, List.map_id, List.map_append, List.map_map,
    hid, List.map_id, List.map_map, hid, List.map_id, List.map_singleton, Point.pair_flip,
    flipPoint_flipPoint] at hback
  refine ⟨hback, ?_, ?_⟩
  · rw [OptModel.stepFlattest_eq, OptModel.flip_steepLine, OptModel.stepSteepest_flatLine,
      OptModel.flip_flatLine, Line.flip_flip]
  · rw [OptModel.stepFlattest_eq, OptModel.flip_flatLine, Line.flip_eval]
    rw [OptModel.flip_steepLine, Line.flip_eval, Point.flip_y, Point.flip_x, Int.cast_neg] at heval
    rw [heval, min_neg_neg, neg_neg]

end Hulls

end PimLex.Pgm
