import PimLex.Pgm.Feasible
import PimLex.Pgm.Words

/-!
# Which points are taken

A model that has taken a run of points refuses the next one exactly if no line keeps
within `epsilon` of all of them, and what it emits for a run is its steepest and its
flattest line.
-/

namespace PimLex.Pgm

open Fitting

variable {m m' : OptModel} {epsilon x y : ℕ} {run : List (ℕ × ℕ)} {p : ℕ × ℕ}

/-- The error interval of a point. -/
def gate (epsilon : ℕ) (p : ℕ × ℕ) : Gate ℚ :=
  ⟨p.1, (lowerEnd epsilon p.1 p.2).y, (upperEnd epsilon p.1 p.2).y⟩

/-- The error intervals of a run of points. -/
def gates (epsilon : ℕ) (run : List (ℕ × ℕ)) : List (Gate ℚ) := run.map (gate epsilon)

/-- Some line keeps within `epsilon` of every point of the run. -/
def Fits (epsilon : ℕ) (run : List (ℕ × ℕ)) : Prop := ∃ f : Line ℚ, f.PassesAll (gates epsilon run)

theorem gates_concat : gates epsilon (run ++ [p]) = gates epsilon run ++ [gate epsilon p] :=
  List.map_append

theorem floors_concat (gs : List (Gate ℚ)) (g : Gate ℚ) :
    floors (gs ++ [g]) = floors gs ++ [(g.x, g.floor)] := List.map_append

theorem ceils_concat (gs : List (Gate ℚ)) (g : Gate ℚ) :
    ceils (gs ++ [g]) = ceils gs ++ [(g.x, g.ceil)] := List.map_append

@[simp] theorem upperEnd_x : (upperEnd epsilon x y).x = x := rfl

@[simp] theorem lowerEnd_x : (lowerEnd epsilon x y).x = x := rfl

theorem lowerEnd_lt (he : 0 < epsilon) (hy : y < 2 ^ 64) :
    (lowerEnd epsilon x y).y < (upperEnd epsilon x y).y := by
  simp only [lowerEnd, upperEnd]
  split <;> split <;> omega

/-- The four corners are those of the run. -/
structure CanonicalSegment.IsOf (cs : CanonicalSegment) (epsilon : ℕ) (run : List (ℕ × ℕ)) :
    Prop where
  first : ∀ p ∈ run.head?, cs.first = p.1
  one : ∀ x y, run = [(x, y)] → cs.rectangle0 = upperEnd epsilon x y ∧
    cs.rectangle1 = lowerEnd epsilon x y ∧ cs.rectangle2 = cs.rectangle0 ∧
    cs.rectangle3 = cs.rectangle1
  flattest : 2 ≤ run.length →
    Flattest (gates epsilon run) cs.rectangle0.pair cs.rectangle2.pair
  steepest : 2 ≤ run.length →
    Steepest (gates epsilon run) cs.rectangle1.pair cs.rectangle3.pair

/-- The state of a model that has taken a run of points. -/
structure OptModel.HasTaken (m : OptModel) (epsilon : ℕ) (run : List (ℕ × ℕ)) : Prop where
  epsilon_eq : m.epsilon = epsilon
  count : m.pointsInHull = run.length
  first : ∀ p ∈ run.head?, m.firstX = p.1
  last : ∀ p ∈ run.getLast?, m.lastX = p.1
  range : ∀ p ∈ run, p.2 < 2 ^ 64
  increasing : run.Pairwise fun p q => p.1 < q.1
  one : ∀ x y, run = [(x, y)] → m.rectangle0 = upperEnd epsilon x y ∧
    m.rectangle1 = lowerEnd epsilon x y ∧ m.upper = [upperEnd epsilon x y] ∧
    m.lower = [lowerEnd epsilon x y] ∧ m.upperStart = 0 ∧ m.lowerStart = 0
  many : 2 ≤ run.length →
    Hulls (gates epsilon run) (floors (gates epsilon run)) (ceils (gates epsilon run)) m

namespace Hulls

variable {gs : List (Gate ℚ)}

theorem steepest (h : Hulls gs (floors gs) (ceils gs) m) :
    Steepest gs m.rectangle1.pair m.rectangle3.pair where
  floor := by
    obtain ⟨g, hg, heq⟩ := List.mem_map.mp h.lowerHead_mem
    exact ⟨g, hg, heq.symm⟩
  ceil := by
    obtain ⟨g, hg, heq⟩ := List.mem_map.mp h.upperLast_mem
    exact ⟨g, hg, heq.symm⟩
  lt := Point.pair_lt.mpr h.steepLt
  passes := h.steepPasses

theorem flattest (h : Hulls gs (floors gs) (ceils gs) m) :
    Flattest gs m.rectangle0.pair m.rectangle2.pair := by
  have hflip := h.flip
  rw [← floors_flip, ← ceils_flip] at hflip
  have hid : Gate.flip ∘ Gate.flip = (id : Gate ℚ → Gate ℚ) := funext Gate.flip_flip
  have hsteep := hflip.steepest.flip
  rw [List.map_map, hid, List.map_id] at hsteep
  simpa only [OptModel.flip, Point.pair_flip, flipPoint_flipPoint] using hsteep

/-- The hulls do not depend on what else the model counts. -/
theorem congr (h : Hulls gs (floors gs) (ceils gs) m) (lastX pointsInHull : ℕ) :
    Hulls gs (floors gs) (ceils gs) { m with lastX := lastX, pointsInHull := pointsInHull } :=
  ⟨h.flatPasses, h.steepPasses, h.flatLt, h.steepLt, h.lower, h.upper, h.lowerHead, h.lowerLast,
    h.upperHead, h.upperLast⟩

/-- Two points are joined from end to end. -/
theorem ofTwo {u l u' l' : Point} {g g' : Gate ℚ} (hu : u.pair = (g.x, g.ceil))
    (hl : l.pair = (g.x, g.floor)) (hu' : u'.pair = (g'.x, g'.ceil))
    (hl' : l'.pair = (g'.x, g'.floor)) (hlt : g.x < g'.x) (hg : g.floor ≤ g.ceil)
    (hg' : g'.floor ≤ g'.ceil)
    (hm : m.rectangle0 = u ∧ m.rectangle1 = l ∧ m.rectangle2 = l' ∧ m.rectangle3 = u')
    (hlower : m.lowerChain = [l, l']) (hupper : m.upperChain = [u, u']) :
    Hulls [g, g'] (floors [g, g']) (ceils [g, g']) m := by
  obtain ⟨h0, h1, h2, h3⟩ := hm
  have hflat : m.flatLine = joining (g.x, g.ceil) (g'.x, g'.floor) := by
    rw [OptModel.flatLine, h0, h2, hu, hl']
  have hsteep : m.steepLine = joining (g.x, g.floor) (g'.x, g'.ceil) := by
    rw [OptModel.steepLine, h1, h3, hl, hu']
  have hux : (u.x : ℚ) < l'.x := by
    have hfst := congrArg Prod.fst hu
    have hfst' := congrArg Prod.fst hl'
    rw [Point.pair_fst] at hfst hfst'
    rwa [hfst, hfst']
  have hlx : (l.x : ℚ) < u'.x := by
    have hfst := congrArg Prod.fst hl
    have hfst' := congrArg Prod.fst hu'
    rw [Point.pair_fst] at hfst hfst'
    rwa [hfst, hfst']
  have hends : ∀ {a b : ℚ}, (joining (g.x, a) (g'.x, b)).eval g.x = a ∧
      (joining (g.x, a) (g'.x, b)).eval g'.x = b := fun {a b} =>
    ⟨joining_eval_left (g.x, a) (g'.x, b), joining_eval_right (p := (g.x, a)) (q := (g'.x, b)) hlt⟩
  -- each line runs from an end of the first gate to the other end of the second
  refine ⟨?_, ?_, ?_, ?_, ?_, ?_, ?_, ?_, ?_, ?_⟩
  · rw [hflat]
    refine List.forall_mem_cons.mpr ⟨⟨?_, ?_⟩, List.forall_mem_singleton.mpr ⟨?_, ?_⟩⟩
    · exact hg.trans_eq hends.1.symm
    · exact hends.1.le
    · exact hends.2.ge
    · exact hends.2.trans_le hg'
  · rw [hsteep]
    refine List.forall_mem_cons.mpr ⟨⟨?_, ?_⟩, List.forall_mem_singleton.mpr ⟨?_, ?_⟩⟩
    · exact hends.1.ge
    · exact hends.1.trans_le hg
    · exact hg'.trans_eq hends.2.symm
    · exact hends.2.le
  · rw [h0, h2]
    exact Int.cast_lt.mp hux
  · rw [h1, h3]
    exact Int.cast_lt.mp hlx
  · rw [hlower, List.map_cons, List.map_singleton, hl, hl']
    exact ⟨Concave.pair hlt, List.Subset.refl _, fun _ _ _ habove => habove⟩
  · rw [hupper, List.map_cons, List.map_singleton, hu, hu']
    exact ⟨Concave.pair hlt, List.Subset.refl _, fun _ _ _ habove => habove⟩
  · rw [hlower, h1, List.head?_cons]
  · rw [hlower, h2]
    rfl
  · rw [hupper, h0, List.head?_cons]
  · rw [hupper, h3]
    rfl

/-- The two steps of `add_point` for a further gate. -/
theorem steps {g : Gate ℚ} {p1 p2 : Point} (h : Hulls gs (floors gs) (ceils gs) m)
    (hp1 : p1.pair = (g.x, g.ceil)) (hp2 : p2.pair = (g.x, g.floor)) (hgs : ∀ g' ∈ gs, g'.x < g.x)
    (hg : g.floor < g.ceil) (hlow : m.flatLine.eval g.x ≤ g.ceil)
    (hhigh : g.floor ≤ m.steepLine.eval g.x) :
    Hulls (gs ++ [g]) (floors (gs ++ [g])) (ceils (gs ++ [g]))
      ((m.stepSteepest p1).stepFlattest p2) := by
  obtain ⟨hx1, hy1⟩ : (p1.x : ℚ) = g.x ∧ (p1.y : ℚ) = g.ceil := Prod.mk.inj hp1
  obtain ⟨hx2, hy2⟩ : (p2.x : ℚ) = g.x ∧ (p2.y : ℚ) = g.floor := Prod.mk.inj hp2
  have hfloors : ∀ c ∈ floors gs, c.1 < g.x := fun c hc => by
    obtain ⟨g', hg', rfl⟩ := List.mem_map.mp hc
    exact hgs g' hg'
  have hceils : ∀ c ∈ ceils gs, c.1 < g.x := fun c hc => by
    obtain ⟨g', hg', rfl⟩ := List.mem_map.mp hc
    exact hgs g' hg'
  -- the first step lowers the steepest line, the second one raises the flattest
  obtain ⟨hull₁, hsteep₁⟩ := h.stepSteepest (P := p1) (by rwa [hx1]) (List.Subset.refl _)
    (fun _ ha => Or.inl ha) (by rwa [hx1]) (by rwa [hx1, hy1])
  rw [hx1, hy1] at hsteep₁
  obtain ⟨hull₂, hsteep₂, hflat₂⟩ := hull₁.stepFlattest (P := p2) (by rwa [hx2])
    (List.subset_append_left _ _)
    (fun a ha => by
      rcases List.mem_append.mp ha with ha | ha
      · exact Or.inl ha
      · obtain rfl := List.mem_singleton.mp ha
        rw [hp1, hx2, hy2]
        exact Or.inr ⟨rfl, hg⟩)
    (by rwa [hx2])
    (by
      rw [hx2, hy2, hsteep₁]
      exact le_min hg.le hhigh)
  rw [hx2, hy2, OptModel.stepSteepest_flatLine] at hflat₂
  rw [floors_concat, ceils_concat, ← hp1, ← hp2]
  refine ⟨?_, ?_, hull₂.flatLt, hull₂.steepLt, hull₂.lower, hull₂.upper, hull₂.lowerHead,
    hull₂.lowerLast, hull₂.upperHead, hull₂.upperLast⟩
  · refine Line.passesAll_concat.mpr ⟨hull₂.flatPasses, ?_, ?_⟩
    · exact (le_max_left _ _).trans_eq hflat₂.symm
    · exact hflat₂.trans_le (max_le hg.le hlow)
  · rw [hsteep₂]
    refine Line.passesAll_concat.mpr ⟨hull₁.steepPasses, ?_, ?_⟩
    · exact (le_min hg.le hhigh).trans_eq hsteep₁.symm
    · exact hsteep₁.trans_le (min_le_left _ _)

end Hulls

namespace OptModel.HasTaken

theorem new (epsilon : ℕ) : (OptModel.new epsilon).HasTaken epsilon [] where
  epsilon_eq := rfl
  count := rfl
  first := nofun
  last := nofun
  range := nofun
  increasing := List.Pairwise.nil
  one := nofun
  many := by simp

theorem getSegment (h : m.HasTaken epsilon run) : m.getSegment.IsOf epsilon run := by
  have hcount := h.count
  rw [OptModel.getSegment]
  split
  case isTrue hone =>
    refine ⟨h.first, fun x y hrun => ?_, fun hlen => by omega, fun hlen => by omega⟩
    obtain ⟨h0, h1, -⟩ := h.one x y hrun
    exact ⟨h0, h1, rfl, rfl⟩
  case isFalse hone =>
    refine ⟨h.first, fun x y hrun => ?_, fun hlen => (h.many hlen).flattest,
      fun hlen => (h.many hlen).steepest⟩
    rw [hrun] at hcount
    exact absurd hcount hone

theorem single (h : m.HasTaken epsilon []) (hy : y < 2 ^ 64) :
    ∃ m', m.addPoint x y = .ok (true, m') ∧ m'.HasTaken epsilon [(x, y)] := by
  have hcount : m.pointsInHull = 0 := h.count
  rw [OptModel.addPoint, if_neg (by omega), if_pos hcount]
  refine ⟨_, rfl, h.epsilon_eq, rfl, ?_, ?_, ?_, List.pairwise_singleton _ _, ?_, ?_⟩
  · simp
  · simp
  · simpa using hy
  · intro x' y' heq
    obtain ⟨rfl, rfl⟩ : x = x' ∧ y = y' := by simpa using heq
    simp only [h.epsilon_eq, and_self]
  · simp

theorem second {x₀ y₀ : ℕ} (h : m.HasTaken epsilon [(x₀, y₀)]) (he : 0 < epsilon) (hx : x₀ < x)
    (hy : y < 2 ^ 64) :
    ∃ m', m.addPoint x y = .ok (true, m') ∧ m'.HasTaken epsilon [(x₀, y₀), (x, y)] := by
  have hcount : m.pointsInHull = 1 := h.count
  have hlast : m.lastX = x₀ := h.last _ rfl
  obtain ⟨h0, h1, hup, hlo, hupStart, hloStart⟩ := h.one x₀ y₀ rfl
  rw [OptModel.addPoint, if_neg (by omega), if_neg (by omega), if_pos hcount]
  have hx' : (x₀ : ℤ) < x := Int.ofNat_lt.mpr hx
  have hgate₀ := (lowerEnd_lt (x := x₀) he (h.range _ List.mem_cons_self)).le
  have hgate := (lowerEnd_lt (x := x) he hy).le
  refine ⟨_, rfl, h.epsilon_eq, rfl, ?_, ?_, ?_, ?_, by simp, fun _ => ?_⟩
  · simpa using h.first
  · simp
  · intro p hp
    rcases List.mem_cons.mp hp with rfl | hp
    · exact h.range _ List.mem_cons_self
    · obtain rfl := List.mem_singleton.mp hp
      exact hy
  · simpa using hx
  · have hends : ∀ x y, (upperEnd epsilon x y).pair = ((x : ℚ), (gate epsilon (x, y)).ceil) ∧
        (lowerEnd epsilon x y).pair = ((x : ℚ), (gate epsilon (x, y)).floor) := fun x y =>
      ⟨rfl, rfl⟩
    refine Hulls.ofTwo (hends x₀ y₀).1 (hends x₀ y₀).2 (hends x y).1 (hends x y).2
      (Nat.cast_lt.mpr hx) (Int.cast_le.mpr hgate₀) (Int.cast_le.mpr hgate) ⟨h0, h1, ?_, ?_⟩ ?_ ?_
    · rw [h.epsilon_eq]
    · rw [h.epsilon_eq]
    · simp only [OptModel.lowerChain, hlo, hloStart, h.epsilon_eq, List.drop_zero]
      rfl
    · simp only [OptModel.upperChain, hup, hupStart, h.epsilon_eq, List.drop_zero]
      rfl

theorem fits (h : m.HasTaken epsilon run) (he : 0 < epsilon) : Fits epsilon run := by
  rcases run with - | ⟨⟨x, y⟩, - | ⟨p, run⟩⟩
  · exact ⟨⟨0, 0⟩, nofun⟩
  · refine ⟨⟨0, (lowerEnd epsilon x y).y⟩, List.forall_mem_singleton.mpr ⟨?_, ?_⟩⟩
    · simp [Line.eval, gate]
    · have hy := (lowerEnd_lt (x := x) he (h.range _ List.mem_cons_self)).le
      simpa [Line.eval, gate] using hy
  · exact ⟨_, (h.many (by simp)).flatPasses⟩

section Next

variable (h : m.HasTaken epsilon run) (hlen : 2 ≤ run.length) (he : 0 < epsilon)
  (hx : ∀ p ∈ run, p.1 < x) (hy : y < 2 ^ 64)

include h hlen hx

theorem before : m.lastX < x := by
  have hne : run ≠ [] := List.ne_nil_of_length_pos (by omega)
  rw [h.last _ (List.getLast?_eq_some_getLast hne)]
  exact hx _ (List.getLast_mem hne)

omit h hlen in
theorem gates_before : ∀ g ∈ gates epsilon run, g.x < (x : ℚ) := by
  intro g hg
  obtain ⟨p, hp, rfl⟩ := List.mem_map.mp hg
  exact Nat.cast_lt.mpr (hx p hp)

include he hy

/-- A line for the run and one more point exists exactly if the point's interval reaches into the
space between the flattest and the steepest line of the run. -/
theorem fits_iff : Fits epsilon (run ++ [(x, y)]) ↔
    m.flatLine.eval (x : ℚ) ≤ (upperEnd epsilon x y).y ∧
      ((lowerEnd epsilon x y).y : ℚ) ≤ m.steepLine.eval (x : ℚ) := by
  have hsteepest := (h.many hlen).steepest
  have hflattest := (h.many hlen).flattest
  obtain ⟨g, hg, hgx⟩ := hsteepest.ceil
  obtain ⟨g', hg', hgx'⟩ := hflattest.floor
  rw [Fits, gates_concat]
  refine exists_passes_iff (g := gate epsilon (x, y)) hsteepest hflattest ?_ ?_
    (Int.cast_le.mpr (lowerEnd_lt he hy).le)
  · rw [hgx]
    exact (gates_before hx g hg).le
  · rw [hgx']
    exact (gates_before hx g' hg').le

/-- What `add_point` tests. -/
theorem outside_iff : (((upperEnd epsilon x y).sub m.rectangle2).lt
      (m.rectangle2.sub m.rectangle0) ||
    ((lowerEnd epsilon x y).sub m.rectangle3).gt (m.rectangle3.sub m.rectangle1)) = true ↔
      ¬Fits epsilon (run ++ [(x, y)]) := by
  have hull := h.many hlen
  have hbelow := lt_iff_eval (p := upperEnd epsilon x y) (a := m.rectangle2) hull.flatLt
    (joining_eval_right (Point.pair_lt.mpr hull.flatLt))
  have habove := gt_iff_eval (p := lowerEnd epsilon x y) (a := m.rectangle3) hull.steepLt
    (joining_eval_right (Point.pair_lt.mpr hull.steepLt))
  rw [upperEnd_x, Int.cast_natCast] at hbelow
  rw [lowerEnd_x, Int.cast_natCast] at habove
  rw [h.fits_iff hlen he hx hy, Bool.or_eq_true_iff, hbelow, habove, not_and_or, not_le, not_le]
  rfl

/-- A refused point leaves the segment of the run as it is. -/
theorem refused (hout : ¬Fits epsilon (run ++ [(x, y)])) :
    ∃ m', m.addPoint x y = .ok (false, m') ∧ m'.HasTaken epsilon [] ∧
      m'.getSegment = m.getSegment := by
  have hcount := h.count
  rw [← h.outside_iff hlen he hx hy] at hout
  rw [OptModel.addPoint_eq (by omega) (h.before hlen hx), h.epsilon_eq, if_pos hout]
  refine ⟨_, rfl, ⟨rfl, rfl, nofun, nofun, nofun, List.Pairwise.nil, nofun, by simp⟩, ?_⟩
  rw [OptModel.getSegment, OptModel.getSegment, if_neg (by simp), if_neg (by omega)]

theorem accepted (hfits : Fits epsilon (run ++ [(x, y)])) :
    ∃ m', m.addPoint x y = .ok (true, m') ∧ m'.HasTaken epsilon (run ++ [(x, y)]) := by
  have hcount := h.count
  obtain rfl := h.epsilon_eq
  have hout := mt (h.outside_iff hlen he hx hy).mp (not_not.mpr hfits)
  obtain ⟨hlow, hhigh⟩ := (h.fits_iff hlen he hx hy).mp hfits
  rw [OptModel.addPoint_eq (by omega) (h.before hlen hx), if_neg hout]
  obtain ⟨hepsilon, hpoints, hfirst, hlast⟩ := OptModel.steps_frame
    { m with lastX := x, pointsInHull := m.pointsInHull + 1 } (upperEnd m.epsilon x y)
    (lowerEnd m.epsilon x y)
  refine ⟨_, rfl, hepsilon, ?_, ?_, ?_, ?_, ?_, ?_, fun _ => ?_⟩
  · rw [hpoints, List.length_append, hcount]
    rfl
  · rw [hfirst, List.head?_append_of_ne_nil _ (List.ne_nil_of_length_pos (by omega))]
    exact h.first
  · intro p hp
    rw [List.getLast?_concat] at hp
    obtain rfl := Option.some.inj hp
    exact hlast
  · intro p hp
    rcases List.mem_append.mp hp with hp | hp
    · exact h.range p hp
    · obtain rfl := List.mem_singleton.mp hp
      exact hy
  · refine List.pairwise_append.mpr ⟨h.increasing, List.pairwise_singleton _ _, ?_⟩
    intro p hp q hq
    obtain rfl := List.mem_singleton.mp hq
    exact hx p hp
  · intro x' y' heq
    have hone := congrArg List.length heq
    simp only [List.length_append, List.length_singleton] at hone
    exact absurd hone (by omega)
  · rw [gates_concat]
    exact ((h.many hlen).congr x (m.pointsInHull + 1)).steps (g := gate m.epsilon (x, y)) rfl rfl
      (gates_before hx) (Int.cast_lt.mpr (lowerEnd_lt he hy)) hlow hhigh

end Next

/-- A point to the right of a run is taken exactly if some line keeps within `epsilon` of it and of
the run. -/
theorem addPoint (h : m.HasTaken epsilon run) (he : 0 < epsilon) (hx : ∀ p ∈ run, p.1 < x)
    (hy : y < 2 ^ 64) :
    (Fits epsilon (run ++ [(x, y)]) ∧ ∃ m', m.addPoint x y = .ok (true, m') ∧
      m'.HasTaken epsilon (run ++ [(x, y)])) ∨
    ¬Fits epsilon (run ++ [(x, y)]) ∧ 2 ≤ run.length ∧ ∃ m', m.addPoint x y = .ok (false, m') ∧
      m'.HasTaken epsilon [] ∧ m'.getSegment = m.getSegment := by
  rcases run with - | ⟨⟨x₀, y₀⟩, - | ⟨p, run⟩⟩
  · obtain ⟨m', heq, hm'⟩ := h.single (x := x) hy
    exact Or.inl ⟨hm'.fits he, m', heq, hm'⟩
  · obtain ⟨m', heq, hm'⟩ := h.second he (hx _ List.mem_cons_self) hy
    exact Or.inl ⟨hm'.fits he, m', heq, hm'⟩
  · have hlen : 2 ≤ ((x₀, y₀) :: p :: run).length := by simp
    by_cases hfits : Fits epsilon ((x₀, y₀) :: p :: run ++ [(x, y)])
    · exact Or.inl ⟨hfits, h.accepted hlen he hx hy hfits⟩
    · exact Or.inr ⟨hfits, hlen, h.refused hlen he hx hy hfits⟩

end OptModel.HasTaken

/-- The points are offered one after the other until one is refused. -/
def OptModel.takeRun (m : OptModel) : List (ℕ × ℕ) → Except PgmFault (Bool × OptModel)
  | [] => .ok (true, m)
  | p :: rest => do
    let (added, m) ← m.addPoint p.1 p.2
    if added then m.takeRun rest else .ok (false, m)

theorem OptModel.Small.takeRun {taken : Bool} (h : m.Small) (hkey : ∀ p ∈ run, p.1 < 2 ^ 64)
    (hy : ∀ p ∈ run, p.2 + m.epsilon < 2 ^ 62) (hok : m.takeRun run = .ok (taken, m')) :
    m'.Small := by
  induction run generalizing m with
  | nil =>
    obtain ⟨-, rfl⟩ := Prod.mk.inj (Except.ok.inj hok)
    exact h
  | cons p rest ih =>
    obtain ⟨hkeyp, hkey⟩ := List.forall_mem_cons.mp hkey
    obtain ⟨hyp, hy⟩ := List.forall_mem_cons.mp hy
    rw [OptModel.takeRun] at hok
    cases hadd : m.addPoint p.1 p.2 with
    | error e =>
      rw [hadd] at hok
      cases hok
    | ok next =>
      obtain ⟨added, m₁⟩ := next
      obtain ⟨hsmall, heps⟩ := h.addPoint hkeyp hyp hadd
      rw [hadd] at hok
      cases added with
      | true => exact ih hsmall hkey (heps.symm ▸ hy) hok
      | false =>
        obtain ⟨-, rfl⟩ := Prod.mk.inj (Except.ok.inj hok)
        exact hsmall

theorem OptModel.HasTaken.takeRun {rest : List (ℕ × ℕ)} (h : m.HasTaken epsilon run)
    (he : 0 < epsilon) (hx : (run ++ rest).Pairwise fun p q => p.1 < q.1)
    (hy : ∀ p ∈ rest, p.2 < 2 ^ 64) :
    (Fits epsilon (run ++ rest) ∧ ∃ m', m.takeRun rest = .ok (true, m') ∧
      m'.HasTaken epsilon (run ++ rest)) ∨
    ¬Fits epsilon (run ++ rest) ∧ ∃ m', m.takeRun rest = .ok (false, m') := by
  induction rest generalizing m run with
  | nil =>
    rw [List.append_nil]
    exact Or.inl ⟨h.fits he, m, rfl, h⟩
  | cons p rest ih =>
    have hbefore : ∀ q ∈ run, q.1 < p.1 := fun q hq =>
      (List.pairwise_append.mp hx).2.2 q hq p List.mem_cons_self
    rw [List.append_cons] at hx ⊢
    rw [OptModel.takeRun]
    rcases h.addPoint he hbefore (hy p List.mem_cons_self) with
      ⟨-, m', hadd, hm'⟩ | ⟨hout, -, m', hadd, -⟩
    · rw [hadd]
      exact ih hm' hx fun q hq => hy q (List.mem_cons_of_mem _ hq)
    · rw [hadd]
      refine Or.inr ⟨fun ⟨f, hf⟩ => hout ⟨f, fun g hg => hf g ?_⟩, m', rfl⟩
      rw [gates, List.map_append]
      exact List.mem_append_left _ hg

/-- A run of increasing points is taken exactly if one line keeps within `epsilon` of all of them,
and then the corners are those of its flattest and of its steepest such line. -/
theorem takeRun_iff_fits (epsilon : ℕ) (points : List (ℕ × ℕ)) (he : 0 < epsilon)
    (hx : points.Pairwise fun p q => p.1 < q.1) (hkey : ∀ p ∈ points, p.1 < 2 ^ 64)
    (hy : ∀ p ∈ points, p.2 + epsilon < 2 ^ 62) :
    ∃ taken m, (OptModel.new epsilon).takeRun points = .ok (taken, m) ∧ m.Small ∧
      (taken = true ↔ Fits epsilon points) ∧
      (taken = true → m.getSegment.IsOf epsilon points) := by
  have hnew := OptModel.HasTaken.new epsilon
  have hsmall : ∀ taken m, (OptModel.new epsilon).takeRun points = .ok (taken, m) → m.Small :=
    fun _ _ => (OptModel.Small.new epsilon).takeRun hkey hy
  have hword : ∀ p ∈ points, p.2 < 2 ^ 64 := fun p hp => by
    have hlt := hy p hp
    omega
  rcases hnew.takeRun he ((List.nil_append points).symm ▸ hx) hword with
    ⟨hfits, m, hrun, hm⟩ | ⟨hout, m, hrun⟩
  · exact ⟨true, m, hrun, hsmall _ _ hrun, iff_of_true rfl hfits, fun _ => hm.getSegment⟩
  · exact ⟨false, m, hrun, hsmall _ _ hrun, iff_of_false nofun hout, nofun⟩

/-- Four points of a bend, with an error of 1. -/
theorem takeRun_iff_fits_bend :
    ∃ taken m, (OptModel.new 1).takeRun [(10, 0), (20, 1), (30, 2), (1000, 3)] = .ok (taken, m) ∧
      m.Small ∧
      (taken = true ↔ Fits 1 [(10, 0), (20, 1), (30, 2), (1000, 3)]) ∧
      (taken = true → m.getSegment.IsOf 1 [(10, 0), (20, 1), (30, 2), (1000, 3)]) :=
  takeRun_iff_fits 1 [(10, 0), (20, 1), (30, 2), (1000, 3)] (by decide) (by decide) (by decide)
    (by decide)

end PimLex.Pgm
