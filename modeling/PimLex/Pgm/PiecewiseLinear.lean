import PimLex.Common
import Mathlib.Tactic.Common

/-!
# The piecewise linear model of the vendored index

`OptimalPiecewiseLinearModel` takes points from left to right for as long as some line
keeps within `epsilon` of all of them. It keeps four corners: the flattest such line
runs through corners 0 and 2, the steepest through 1 and 3. Beside them it keeps two
chains, of the lower and of the upper ends of the points' error intervals, in which
it looks for the next corners.

Keys and positions are words of 64 bits; their differences and products are computed
in 128 bits. Points have integer coordinates here, so this is the code as long as no
product overflows: `PimLex.Pgm.Words` says when.
-/

namespace PimLex.Pgm

/-- What the vendored code throws, and the divisions and loops it must not run into. -/
inductive PgmFault where
  | notIncreasing
  | interceptOverflow
  | divideByZero
  | noProgress
  deriving DecidableEq, Repr

/-- `Slope`. -/
structure Slope where
  dx : ℤ
  dy : ℤ
  deriving DecidableEq, Repr, Inhabited

namespace Slope

/-- `operator<`. -/
def lt (s p : Slope) : Bool := s.dy * p.dx < s.dx * p.dy

/-- `operator>`. -/
def gt (s p : Slope) : Bool := s.dy * p.dx > s.dx * p.dy

variable {s p : Slope}

@[simp] theorem lt_iff : s.lt p = true ↔ s.dy * p.dx < s.dx * p.dy := decide_eq_true_iff

@[simp] theorem gt_iff : s.gt p = true ↔ s.dx * p.dy < s.dy * p.dx := decide_eq_true_iff

end Slope

/-- `Point`. -/
structure Point where
  x : ℤ
  y : ℤ
  deriving DecidableEq, Repr, Inhabited

/-- `operator-` of two points. -/
def Point.sub (q p : Point) : Slope := ⟨q.x - p.x, q.y - p.y⟩

@[simp] theorem Point.sub_dx (q p : Point) : (q.sub p).dx = q.x - p.x := rfl

@[simp] theorem Point.sub_dy (q p : Point) : (q.sub p).dy = q.y - p.y := rfl

def cross (O A B : Point) : ℤ :=
  let OA := A.sub O
  let OB := B.sub O
  OA.dx * OB.dy - OA.dy * OB.dx

/-- The upper end of a point's error interval, `p1`. -/
def upperEnd (epsilon x y : ℕ) : Point :=
  ⟨x, if y ≥ 2 ^ 64 - 1 - epsilon then 2 ^ 64 - 1 else y + epsilon⟩

/-- The lower end of a point's error interval, `p2`. -/
def lowerEnd (epsilon x y : ℕ) : Point := ⟨x, if y ≤ epsilon then 0 else y - epsilon⟩

/-- `OptimalPiecewiseLinearModel`, the array `rectangle` by its entries. -/
structure OptModel where
  epsilon : ℕ
  lower : List Point
  upper : List Point
  firstX : ℕ
  lastX : ℕ
  lowerStart : ℕ
  upperStart : ℕ
  pointsInHull : ℕ
  rectangle0 : Point
  rectangle1 : Point
  rectangle2 : Point
  rectangle3 : Point
  deriving DecidableEq, Repr

/-- The constructor. -/
def OptModel.new (epsilon : ℕ) : OptModel where
  epsilon := epsilon
  lower := []
  upper := []
  firstX := 0
  lastX := 0
  lowerStart := 0
  upperStart := 0
  pointsInHull := 0
  rectangle0 := default
  rectangle1 := default
  rectangle2 := default
  rectangle3 := default

/-- The loop of the search for an extreme slope: it stops at the first slope that `breaks`. -/
def extremeLoop (breaks : Slope → Slope → Bool) (p : Point) : List Point → ℕ → Slope → ℕ → ℕ
  | [], _, _, bestI => bestI
  | q :: rest, i, best, bestI =>
    let val := q.sub p
    if breaks val best then bestI else extremeLoop breaks p rest (i + 1) val i

/-- The index of the extreme slope from `start` on. -/
def extreme (breaks : Slope → Slope → Bool) (pts : List Point) (start : ℕ) (p : Point) : ℕ :=
  extremeLoop breaks p (pts.drop (start + 1)) (start + 1)
    ((pts.getD start default).sub p) start

/-- The loop of the hull update: the size after the points that `pops` are gone. -/
def hullEnd (pops : ℤ → Bool) (pts : List Point) (start : ℕ) (p : Point) : ℕ → ℕ
  | 0 => 0
  | n + 1 =>
    if n + 1 ≥ start + 2 ∧
        pops (cross (pts.getD (n - 1) default) (pts.getD n default) p) = true then
      hullEnd pops pts start p n
    else n + 1

/-- The hull update: `resize` and `push_back`. -/
def hullPush (pops : ℤ → Bool) (pts : List Point) (start : ℕ) (p : Point) : List Point :=
  pts.take (hullEnd pops pts start p pts.length) ++ [p]

namespace OptModel

variable (m : OptModel)

/-- The first update of `add_point`: the steepest line now ends in `p1`. -/
def updateSteepest (p1 : Point) : OptModel :=
  let minI := extreme Slope.gt m.lower m.lowerStart p1
  { m with
    rectangle1 := m.lower.getD minI default
    rectangle3 := p1
    lowerStart := minI
    upper := hullPush (· ≤ 0) m.upper m.upperStart p1 }

/-- The second update of `add_point`: the flattest line now ends in `p2`. -/
def updateFlattest (p2 : Point) : OptModel :=
  let maxI := extreme Slope.lt m.upper m.upperStart p2
  { m with
    rectangle0 := m.upper.getD maxI default
    rectangle2 := p2
    upperStart := maxI
    lower := hullPush (· ≥ 0) m.lower m.lowerStart p2 }

/-- `add_point`. -/
def addPoint (x y : ℕ) : Except PgmFault (Bool × OptModel) :=
  if m.pointsInHull > 0 ∧ x ≤ m.lastX then .error .notIncreasing
  else
    let p1 := upperEnd m.epsilon x y
    let p2 := lowerEnd m.epsilon x y
    if m.pointsInHull = 0 then
      .ok (true, { m with
        lastX := x, firstX := x, rectangle0 := p1, rectangle1 := p2, upper := [p1], lower := [p2]
        upperStart := 0, lowerStart := 0, pointsInHull := 1 })
    else if m.pointsInHull = 1 then
      .ok (true, { m with
        lastX := x, rectangle2 := p2, rectangle3 := p1, upper := m.upper ++ [p1]
        lower := m.lower ++ [p2], pointsInHull := 2 })
    else
      let slope1 := m.rectangle2.sub m.rectangle0
      let slope2 := m.rectangle3.sub m.rectangle1
      let outsideLine1 := (p1.sub m.rectangle2).lt slope1
      let outsideLine2 := (p2.sub m.rectangle3).gt slope2
      if outsideLine1 || outsideLine2 then .ok (false, { m with lastX := x, pointsInHull := 0 })
      else
        let m' := { m with lastX := x, pointsInHull := m.pointsInHull + 1 }
        let m' := if (p1.sub m.rectangle1).lt slope2 then m'.updateSteepest p1 else m'
        let m' := if (p2.sub m.rectangle0).gt slope1 then m'.updateFlattest p2 else m'
        .ok (true, m')

end OptModel

/-- `CanonicalSegment`. -/
structure CanonicalSegment where
  rectangle0 : Point
  rectangle1 : Point
  rectangle2 : Point
  rectangle3 : Point
  first : ℕ
  deriving DecidableEq, Repr

/-- `get_segment`. -/
def OptModel.getSegment (m : OptModel) : CanonicalSegment :=
  if m.pointsInHull = 1 then ⟨m.rectangle0, m.rectangle1, m.rectangle0, m.rectangle1, m.firstX⟩
  else ⟨m.rectangle0, m.rectangle1, m.rectangle2, m.rectangle3, m.firstX⟩

namespace CanonicalSegment

variable (cs : CanonicalSegment)

def onePoint : Bool := cs.rectangle0 = cs.rectangle2 ∧ cs.rectangle1 = cs.rectangle3

/-- `get_floating_point_segment` for integer keys and positions: the slope as a fraction, and the
intercept. Positions are unsigned and wrap; the other divisions truncate. -/
def getFloatingPointSegment (origin : ℕ) : Slope × ℤ :=
  if cs.onePoint then (⟨1, 0⟩, (cs.rectangle0.y + cs.rectangle1.y) % 2 ^ 64 / 2)
  else
    let slope := cs.rectangle3.sub cs.rectangle1
    let interceptN := slope.dy * (origin - cs.rectangle1.x)
    let interceptD := slope.dx
    let sign : ℤ := if (decide (interceptN < 0) ^^ decide (interceptD < 0)) then -1 else 1
    let roundingTerm := (sign * interceptD).tdiv 2
    (slope, (interceptN + roundingTerm).tdiv interceptD + cs.rectangle1.y)

end CanonicalSegment

end PimLex.Pgm
