import PimLex.Fitting.Line

/-!
# Hulls under a line

Which lines run above a set of points is decided by the points on the upper side of
their hull. Of these only a chain matters to someone who fits a line to more and more
points from left to right: it starts where the steepest line touches, and each of its
points can still become the place where a later line touches. The chain loses points
at its front as the steepest line gets flatter, and at its end as points come that
hide them.
-/

namespace PimLex.Fitting

variable {K : Type*} [Field K] [LinearOrder K] [IsStrictOrderedRing K]
  {a b c p q : K × K} {l r fs chain : List (K × K)} {f : Line K} {lo hi lo' hi' : K}

section Slopes

/-- A point between two others divides the line through them: the two parts are both steeper or
both flatter than the whole, one of each. -/
theorem slope_lt_iff_lt_right (hab : a.1 < b.1) (hbp : b.1 < p.1) :
    (joining a b).slope < (joining a p).slope ↔ (joining a p).slope < (joining b p).slope := by
  have hab' := sub_pos.mpr hab
  have hbp' := sub_pos.mpr hbp
  have hap' := sub_pos.mpr (hab.trans hbp)
  rw [joining_slope, joining_slope, joining_slope, div_lt_div_iff₀ hab' hap',
    div_lt_div_iff₀ hap' hbp']
  constructor <;> intro h <;> linarith

/-- A line through `p` is above a point to the left of it exactly if it is not steeper than the
line that joins the two. -/
theorem le_eval_iff (ha : a.1 < p.1) (hp : f.eval p.1 = p.2) :
    a.2 ≤ f.eval a.1 ↔ f.slope ≤ (joining a p).slope := by
  have hpos := sub_pos.mpr ha
  have hsub := f.eval_sub p.1 a.1
  rw [joining_slope, le_div_iff₀ hpos, ← hsub, hp]
  constructor <;> intro h <;> linarith

/-- A line above two points is above what lies below the line that joins them. -/
theorem le_eval_of_chord (hab : a.1 < b.1) (hbp : b.1 < p.1)
    (hturn : (joining a b).slope ≤ (joining b p).slope) (ha : a.2 ≤ f.eval a.1)
    (hp : p.2 ≤ f.eval p.1) : b.2 ≤ f.eval b.1 := by
  by_contra hb
  rw [not_le] at hb
  have hab' := sub_pos.mpr hab
  have hbp' := sub_pos.mpr hbp
  -- below `b` the line would have to rise less than to `b`, and then more than behind it
  have hleft : (joining a b).slope > f.slope := by
    have hsub := f.eval_sub b.1 a.1
    rw [joining_slope, gt_iff_lt, lt_div_iff₀ hab', ← hsub]
    linarith
  have hright : (joining b p).slope < f.slope := by
    have hsub := f.eval_sub p.1 b.1
    rw [joining_slope, div_lt_iff₀ hbp', ← hsub]
    linarith
  linarith

end Slopes

/-- A line is above all points of a list. -/
def Above (f : Line K) (ps : List (K × K)) : Prop := ∀ p ∈ ps, p.2 ≤ f.eval p.1

omit [IsStrictOrderedRing K] in
theorem above_append : Above f (l ++ r) ↔ Above f l ∧ Above f r :=
  List.forall_mem_append

omit [IsStrictOrderedRing K] in
theorem above_concat : Above f (l ++ [p]) ↔ Above f l ∧ p.2 ≤ f.eval p.1 := by
  rw [above_append]
  exact and_congr_right' List.forall_mem_singleton

/-- A chain of points that goes to the right and turns right at each of them. -/
def Concave : List (K × K) → Prop
  | a :: b :: l =>
    a.1 < b.1 ∧ (∀ c ∈ l.head?, (joining b c).slope < (joining a b).slope) ∧ Concave (b :: l)
  | _ => True

namespace Concave

omit [IsStrictOrderedRing K] in
theorem pair (h : a.1 < b.1) : Concave [a, b] := by
  simpa [Concave] using h

omit [IsStrictOrderedRing K] in
theorem tail (h : Concave (a :: l)) : Concave l := by
  cases l with
  | nil => trivial
  | cons b l => exact h.2.2

omit [IsStrictOrderedRing K] in
theorem right (h : Concave (l ++ r)) : Concave r := by
  induction l with
  | nil => exact h
  | cons a l ih => exact ih h.tail

omit [IsStrictOrderedRing K] in
theorem left (h : Concave (l ++ r)) : Concave l := by
  induction l with
  | nil => trivial
  | cons a l ih =>
    cases l with
    | nil => trivial
    | cons b l =>
      refine ⟨h.1, fun c hc => h.2.1 c ?_, ih h.2.2⟩
      change c ∈ (l ++ r).head?
      rw [List.head?_append, Option.mem_def.mp hc]
      rfl

omit [IsStrictOrderedRing K] in
/-- A chain goes on with a point at which it turns right again. -/
theorem concat (h : Concave (l ++ [a, b])) (hbp : b.1 < p.1)
    (hturn : (joining b p).slope < (joining a b).slope) : Concave (l ++ [a, b, p]) := by
  induction l with
  | nil =>
    refine ⟨h.1, fun c hc => ?_, hbp, nofun, trivial⟩
    obtain rfl := Option.some.inj hc
    exact hturn
  | cons x l ih =>
    have hrest := ih h.tail
    cases l with
    | nil => exact ⟨h.1, h.2.1, hrest⟩
    | cons y l =>
      refine ⟨h.1, fun c hc => h.2.1 c ?_, hrest⟩
      cases l with
      | nil => exact hc
      | cons z l => exact hc

omit [IsStrictOrderedRing K] in
theorem head_lt (h : Concave (a :: l)) : ∀ q ∈ l, a.1 < q.1 := by
  induction l generalizing a with
  | nil => exact nofun
  | cons b l ih =>
    intro q hq
    rcases List.mem_cons.mp hq with rfl | hq
    · exact h.1
    · exact h.1.trans (ih h.2.2 q hq)

omit [IsStrictOrderedRing K] in
theorem lt_of_append (h : Concave (l ++ q :: r)) : ∀ a ∈ l, a.1 < q.1 := by
  induction l with
  | nil => exact nofun
  | cons b l ih =>
    intro a ha
    rcases List.mem_cons.mp ha with rfl | ha
    · exact h.head_lt q (List.mem_append_right _ List.mem_cons_self)
    · exact ih h.tail a ha

/-- Seen from a point behind a chain the slopes do not fall again once they have risen. -/
theorem slope_lt_of_lt (h : Concave (a :: b :: l)) (hright : ∀ q ∈ a :: b :: l, q.1 ≤ p.1)
    (hb : b.1 < p.1) (hlt : (joining a p).slope < (joining b p).slope) :
    ∀ q ∈ l, q.1 < p.1 → (joining a p).slope < (joining q p).slope := by
  induction l generalizing a b with
  | nil => exact nofun
  | cons c l ih =>
    have hrest : ∀ q ∈ b :: c :: l, q.1 ≤ p.1 := fun q hq => hright q (List.mem_cons_of_mem _ hq)
    have hfirst := (slope_lt_iff_lt_right h.1 hb).mpr hlt
    have hturn : (joining b c).slope < (joining a b).slope := h.2.1 c rfl
    intro q hq hqp
    have hcq : c.1 ≤ q.1 := by
      rcases List.mem_cons.mp hq with rfl | hq
      · exact le_rfl
      · exact (h.tail.tail.head_lt q hq).le
    have hc : c.1 < p.1 := hcq.trans_lt hqp
    -- the next point is below the line from `b` too
    have hnext : (joining b p).slope < (joining c p).slope :=
      (slope_lt_iff_lt_right h.2.2.1 hc).mp (by linarith)
    rcases List.mem_cons.mp hq with rfl | hq
    · exact hlt.trans hnext
    · exact hlt.trans (ih h.2.2 hrest hc hnext q hq hqp)

end Concave

/-- The chain decides, for lines whose slope is between two bounds, whether they are above all the
points. -/
structure LowerHull (fs : List (K × K)) (lo hi : K) (chain : List (K × K)) : Prop where
  concave : Concave chain
  subset : chain ⊆ fs
  above : ∀ f : Line K, lo ≤ f.slope → f.slope ≤ hi → Above f chain → Above f fs

namespace LowerHull

omit [IsStrictOrderedRing K] in
theorem narrow (h : LowerHull fs lo hi chain) (hlo : lo ≤ lo') (hhi : hi' ≤ hi) :
    LowerHull fs lo' hi' chain where
  concave := h.concave
  subset := h.subset
  above f hflo hfhi := h.above f (hlo.trans hflo) (hfhi.trans hhi)

/-- With a smaller upper bound the chain may start where the line of that slope touches. -/
theorem drop (h : LowerHull fs lo hi (l ++ q :: r)) (hhi : hi' ≤ hi)
    (hslope : f.slope = hi') (hq : f.eval q.1 = q.2) (hl : Above f l)
    (hlt : ∀ a ∈ l, a.1 < q.1) : LowerHull fs lo hi' (q :: r) where
  concave := h.concave.right
  subset := fun _ hp => h.subset (List.mem_append_right _ hp)
  above g hglo hghi habove := by
    refine h.above g hglo (hghi.trans hhi) (above_append.mpr ⟨fun a ha => ?_, habove⟩)
    have hgq : f.eval q.1 ≤ g.eval q.1 := by
      rw [hq]
      exact habove q List.mem_cons_self
    exact (hl a ha).trans (Line.eval_le_of_le (hghi.trans_eq hslope.symm) (hlt a ha).le hgq)

/-- A new point below the flattest line through the last one changes nothing. -/
theorem skip (h : LowerHull fs lo hi (l ++ [a])) (hslope : f.slope = lo) (ha : f.eval a.1 ≤ a.2)
    (hap : a.1 ≤ p.1) (hp : p.2 ≤ f.eval p.1) : LowerHull (fs ++ [p]) lo hi (l ++ [a]) where
  concave := h.concave
  subset := fun _ hq => List.mem_append_left _ (h.subset hq)
  above g hglo hghi habove := by
    refine above_concat.mpr ⟨h.above g hglo hghi habove, hp.trans ?_⟩
    have hga : a.2 ≤ g.eval a.1 := habove a (List.mem_append_right _ List.mem_cons_self)
    exact Line.eval_le_of_ge (hslope.trans_le hglo) hap (ha.trans hga)

omit [IsStrictOrderedRing K] in
/-- A new point is put at the end, in place of what it hides. -/
theorem push (h : LowerHull fs lo hi chain) (hconcave : Concave (l ++ [p])) (hl : l ⊆ chain)
    (hhidden : ∀ f : Line K, Above f (l ++ [p]) → Above f chain) :
    LowerHull (fs ++ [p]) lo hi (l ++ [p]) where
  concave := hconcave
  subset := by
    intro q hq
    rcases List.mem_append.mp hq with hq | hq
    · exact List.mem_append_left _ (h.subset (hl hq))
    · exact List.mem_append_right _ hq
  above g hglo hghi habove :=
    above_concat.mpr ⟨h.above g hglo hghi (hhidden g habove), (above_concat.mp habove).2⟩

end LowerHull

/-- The lower ends of the gates. -/
def floors (gs : List (Gate K)) : List (K × K) := gs.map fun g => (g.x, g.floor)

/-- The upper ends of the gates. -/
def ceils (gs : List (Gate K)) : List (K × K) := gs.map fun g => (g.x, g.ceil)

omit [LinearOrder K] [IsStrictOrderedRing K] in
theorem floors_flip (gs : List (Gate K)) :
    floors (gs.map Gate.flip) = (ceils gs).map flipPoint := by
  simp only [floors, ceils, List.map_map]
  rfl

omit [LinearOrder K] [IsStrictOrderedRing K] in
theorem ceils_flip (gs : List (Gate K)) :
    ceils (gs.map Gate.flip) = (floors gs).map flipPoint := by
  simp only [floors, ceils, List.map_map]
  exact List.map_congr_left fun g _ => by simp [Gate.flip, flipPoint]

/-- The chain upside down decides whether lines are below all the points. -/
def UpperHull (cs : List (K × K)) (lo hi : K) (chain : List (K × K)) : Prop :=
  LowerHull (cs.map flipPoint) (-hi) (-lo) (chain.map flipPoint)

section Tangent

variable {gs : List (Gate K)} {m M : Line K}

/-- Seen from `p` the slopes fall up to `q` and rise behind it, so the line from `q` to `p` runs
above the whole chain, which may end right below `p`. -/
theorem Concave.above_joining (h : Concave (l ++ q :: r)) (hq : q.1 < p.1)
    (hright : ∀ a ∈ l ++ q :: r, a.1 < p.1 ∨ a.1 = p.1 ∧ a.2 ≤ p.2)
    (hfalls : ∀ a ∈ l, (joining q p).slope ≤ (joining a p).slope)
    (hrises : ∀ b ∈ r.head?, b.1 < p.1 → (joining q p).slope < (joining b p).slope) :
    Above (joining q p) (l ++ q :: r) := by
  have hle : ∀ a ∈ l ++ q :: r, a.1 < p.1 → (joining q p).slope ≤ (joining a p).slope := by
    intro a ha hap
    rcases List.mem_append.mp ha with ha | ha
    · exact hfalls a ha
    rcases List.mem_cons.mp ha with rfl | ha
    · exact le_rfl
    cases r with
    | nil => exact absurd ha List.not_mem_nil
    | cons b r =>
      have hb : b.1 < p.1 := by
        rcases List.mem_cons.mp ha with rfl | ha
        · exact hap
        · exact (h.right.tail.head_lt a ha).trans hap
      have hlt := hrises b rfl hb
      have hle : ∀ x ∈ q :: b :: r, x.1 ≤ p.1 := fun x hx =>
        (hright x (List.mem_append_right _ hx)).elim le_of_lt fun heq => heq.1.le
      rcases List.mem_cons.mp ha with rfl | ha
      · exact hlt.le
      · exact (h.right.slope_lt_of_lt hle hb hlt a ha hap).le
  intro a ha
  rcases hright a ha with hap | ⟨heq, hap⟩
  · exact (le_eval_iff hap (joining_eval_right hq)).mpr (hle a ha hap)
  · rw [heq, joining_eval_right hq]
    exact hap

/-- A point between two passing lines, behind the gates: the line to it from the point of the chain
at which it touches passes the gates, and the chain from there on is all that still matters. -/
theorem LowerHull.tangent (hull : LowerHull fs m.slope M.slope (l ++ q :: r))
    (hm : m.PassesAll gs) (hM : M.PassesAll gs) (hleft : ∀ g ∈ gs, g.x < p.1)
    (hlow : m.eval p.1 ≤ p.2) (hhigh : p.2 ≤ M.eval p.1) (hfloors : floors gs ⊆ fs)
    (hstart : ∀ a ∈ (l ++ q :: r).head?, a.1 < p.1 ∧ M.eval a.1 = a.2)
    (hq : q ∈ floors gs) (habove : Above (joining q p) (l ++ q :: r)) :
    (joining q p).PassesAll gs ∧ m.slope ≤ (joining q p).slope ∧
      (joining q p).slope ≤ M.slope ∧
      LowerHull fs m.slope (joining q p).slope (q :: r) := by
  obtain ⟨gq, hgq, rfl⟩ := List.mem_map.mp hq
  have hqp := hleft gq hgq
  have hend := joining_eval_right (p := (gq.x, gq.floor)) (q := p) hqp
  have hmslope : m.slope ≤ (joining (gq.x, gq.floor) p).slope := by
    refine Line.slope_le_of_eval hqp ?_ (by rwa [hend])
    rw [joining_eval_left (gq.x, gq.floor) p]
    exact (hm gq hgq).1
  have hMslope : (joining (gq.x, gq.floor) p).slope ≤ M.slope := by
    obtain ⟨a, ha⟩ : ∃ a, (l ++ (gq.x, gq.floor) :: r).head? = some a := by
      cases l <;> exact ⟨_, rfl⟩
    obtain ⟨hap, htouch⟩ := hstart a ha
    refine Line.slope_le_of_eval hap ?_ (by rwa [hend])
    rw [htouch]
    exact habove a (List.mem_of_mem_head? ha)
  have hfs : Above (joining (gq.x, gq.floor) p) fs := hull.above _ hmslope hMslope habove
  refine ⟨fun g hg => ⟨?_, ?_⟩, hmslope, hMslope, ?_⟩
  · exact hfs _ (hfloors (List.mem_map_of_mem hg))
  · -- some line through `p` passes, and none of them is steeper
    obtain ⟨f, hfp, hpass⟩ := Line.exists_between hlow hhigh
    have hf : f.PassesAll gs := fun g' hg' => hpass g' (hm g' hg') (hM g' hg')
    have hslope := (le_eval_iff (a := (gq.x, gq.floor)) hqp hfp).mp (hf gq hgq).1
    exact (Line.eval_le_of_le hslope (hleft g hg).le (by rw [hend, hfp])).trans (hf g hg).2
  · refine hull.drop hMslope rfl (joining_eval_left _ _)
      (fun a ha => habove a (List.mem_append_left _ ha)) fun a ha => ?_
    exact hull.concave.lt_of_append a ha

end Tangent

end PimLex.Fitting
