import Mathlib.Algebra.Order.Field.Basic
import Mathlib.Tactic.FieldSimp
import Mathlib.Tactic.Linarith
import Mathlib.Tactic.Ring

/-!
# Lines through gates

A gate is an interval above one place of the axis, and a line passes it if its value
there is in the interval. Of the lines that pass a row of gates the steepest one
touches the floor of a gate and the ceiling of a later one, and the flattest one a
ceiling and then a floor. Behind the last gate all of them run between these two, and
through every point between the two runs one.

Turning the picture upside down swaps floors and ceilings, and steep and flat.
-/

namespace PimLex.Fitting

variable {K : Type*} [Field K] {x y a b : K} {p q : K × K}

/-- A line over a field, by its slope and its value at zero. -/
@[ext] structure Line (K : Type*) where
  slope : K
  height : K

namespace Line

/-- The value of a line. -/
def eval (l : Line K) (x : K) : K := l.slope * x + l.height

/-- The line upside down. -/
def flip (l : Line K) : Line K := ⟨-l.slope, -l.height⟩

@[simp] theorem flip_slope (l : Line K) : l.flip.slope = -l.slope := rfl

@[simp] theorem flip_eval (l : Line K) (x : K) : l.flip.eval x = -l.eval x := by
  simp only [flip, eval]
  ring

@[simp] theorem flip_flip (l : Line K) : l.flip.flip = l := by
  ext <;> simp [flip]

theorem eval_sub (l : Line K) (x y : K) : l.eval x - l.eval y = l.slope * (x - y) := by
  simp only [eval]
  ring

end Line

/-- The line through two points. -/
def joining (p q : K × K) : Line K :=
  ⟨(q.2 - p.2) / (q.1 - p.1), p.2 - (q.2 - p.2) / (q.1 - p.1) * p.1⟩

theorem joining_slope (p q : K × K) : (joining p q).slope = (q.2 - p.2) / (q.1 - p.1) := rfl

@[simp] theorem joining_eval_left (p q : K × K) : (joining p q).eval p.1 = p.2 := by
  simp only [joining, Line.eval]
  ring

/-- A point upside down. -/
def flipPoint (p : K × K) : K × K := (p.1, -p.2)

@[simp] theorem flipPoint_snd (p : K × K) : (flipPoint p).2 = -p.2 := rfl

@[simp] theorem flipPoint_flipPoint (p : K × K) : flipPoint (flipPoint p) = p := by
  simp [flipPoint]

theorem joining_flipPoint (p q : K × K) :
    joining (flipPoint p) (flipPoint q) = (joining p q).flip := by
  simp only [joining, flipPoint, Line.flip, Line.mk.injEq]
  constructor <;> ring

/-- An interval that a line is to pass at `x`. -/
structure Gate (K : Type*) where
  x : K
  floor : K
  ceil : K

/-- The gate upside down. -/
def Gate.flip (g : Gate K) : Gate K := ⟨g.x, -g.ceil, -g.floor⟩

@[simp] theorem Gate.flip_x (g : Gate K) : g.flip.x = g.x := rfl

@[simp] theorem Gate.flip_flip (g : Gate K) : g.flip.flip = g := by
  simp [Gate.flip]

variable [LinearOrder K]

/-- A line passes a gate. -/
def Line.Passes (l : Line K) (g : Gate K) : Prop := g.floor ≤ l.eval g.x ∧ l.eval g.x ≤ g.ceil

/-- A line passes every gate of a row. -/
def Line.PassesAll (l : Line K) (gs : List (Gate K)) : Prop := ∀ g ∈ gs, l.Passes g

@[simp] theorem Line.passesAll_concat {l : Line K} {gs : List (Gate K)} {g : Gate K} :
    l.PassesAll (gs ++ [g]) ↔ l.PassesAll gs ∧ l.Passes g := by
  simp only [Line.PassesAll, List.mem_append, List.mem_singleton]
  constructor
  · exact fun h => ⟨fun g' hg' => h g' (Or.inl hg'), h g (Or.inr rfl)⟩
  · rintro ⟨hall, hg⟩ g' (hg' | rfl)
    · exact hall g' hg'
    · exact hg

variable [IsStrictOrderedRing K] {f l m M : Line K} {g : Gate K} {gs : List (Gate K)}

theorem joining_eval_right (h : p.1 < q.1) : (joining p q).eval q.1 = q.2 := by
  have hne : q.1 - p.1 ≠ 0 := (sub_pos.mpr h).ne'
  have hsub := (joining p q).eval_sub q.1 p.1
  rw [joining_eval_left, joining_slope, div_mul_cancel₀ _ hne] at hsub
  linarith

namespace Line

@[simp] theorem flip_passes : l.flip.Passes g.flip ↔ l.Passes g := by
  simp only [Passes, Gate.flip, flip_eval, neg_le_neg_iff]
  exact and_comm

theorem flip_passesAll : l.flip.PassesAll (gs.map Gate.flip) ↔ l.PassesAll gs := by
  simp only [PassesAll, List.forall_mem_map, flip_passes]

/-- To the left of a place where it is not below, the line with the smaller slope is not below. -/
theorem eval_le_of_le (h : f.slope ≤ l.slope) (hx : x ≤ y) (hy : l.eval y ≤ f.eval y) :
    l.eval x ≤ f.eval x := by
  have hf := f.eval_sub y x
  have hl := l.eval_sub y x
  have := mul_le_mul_of_nonneg_right h (sub_nonneg.mpr hx)
  linarith

/-- To the right of a place where it is not above, the line with the smaller slope is not above. -/
theorem eval_le_of_ge (h : f.slope ≤ l.slope) (hx : y ≤ x) (hy : f.eval y ≤ l.eval y) :
    f.eval x ≤ l.eval x := by
  have hf := f.eval_sub x y
  have hl := l.eval_sub x y
  have := mul_le_mul_of_nonneg_right h (sub_nonneg.mpr hx)
  linarith

theorem slope_le_of_eval (h : a < b) (ha : l.eval a ≤ f.eval a) (hb : f.eval b ≤ l.eval b) :
    f.slope ≤ l.slope := by
  have hf := f.eval_sub b a
  have hl := l.eval_sub b a
  have hpos : 0 < b - a := sub_pos.mpr h
  refine le_of_mul_le_mul_right ?_ hpos
  linarith

/-- Through a point between two lines runs one that passes the gates both of them pass. -/
theorem exists_between (hm : m.eval x ≤ y) (hM : y ≤ M.eval x) :
    ∃ f : Line K, f.eval x = y ∧ ∀ g, m.Passes g → M.Passes g → f.Passes g := by
  rcases hm.eq_or_lt with rfl | hlt
  · exact ⟨m, rfl, fun _ hg _ => hg⟩
  have hpos : 0 < M.eval x - m.eval x := by linarith
  -- the weight that puts the mean of the two lines on the point
  set t := (y - m.eval x) / (M.eval x - m.eval x) with ht
  have ht0 : 0 ≤ t := div_nonneg (by linarith) hpos.le
  have ht1 : t ≤ 1 := (div_le_one hpos).mpr (by linarith)
  have hmean : ∃ f : Line K, ∀ z, f.eval z = m.eval z + t * (M.eval z - m.eval z) := by
    refine ⟨⟨m.slope + t * (M.slope - m.slope), m.height + t * (M.height - m.height)⟩, fun z => ?_⟩
    simp only [eval]
    ring
  obtain ⟨f, hmean⟩ := hmean
  refine ⟨f, ?_, fun g hg hG => ?_⟩
  · rw [hmean, ht, div_mul_cancel₀ _ hpos.ne']
    ring
  · rw [Passes, hmean]
    obtain ⟨hgf, hgc⟩ := hg
    obtain ⟨hGf, hGc⟩ := hG
    constructor
    · have hlow : t * g.floor + (1 - t) * g.floor ≤ t * M.eval g.x + (1 - t) * m.eval g.x := by
        gcongr
      linarith
    · have hhigh : t * M.eval g.x + (1 - t) * m.eval g.x ≤ t * g.ceil + (1 - t) * g.ceil := by
        gcongr
      linarith

end Line

/-- The line through `p` and `q` passes the gates, on the floor of one and at the ceiling of a
later one. -/
structure Steepest (gs : List (Gate K)) (p q : K × K) : Prop where
  floor : ∃ g ∈ gs, p = (g.x, g.floor)
  ceil : ∃ g ∈ gs, q = (g.x, g.ceil)
  lt : p.1 < q.1
  passes : (joining p q).PassesAll gs

/-- The line through `p` and `q` passes the gates, at the ceiling of one and on the floor of a
later one. -/
structure Flattest (gs : List (Gate K)) (p q : K × K) : Prop where
  ceil : ∃ g ∈ gs, p = (g.x, g.ceil)
  floor : ∃ g ∈ gs, q = (g.x, g.floor)
  lt : p.1 < q.1
  passes : (joining p q).PassesAll gs

theorem Steepest.flip (h : Steepest gs p q) :
    Flattest (gs.map Gate.flip) (flipPoint p) (flipPoint q) where
  ceil := by
    obtain ⟨g, hg, rfl⟩ := h.floor
    exact ⟨g.flip, List.mem_map_of_mem hg, rfl⟩
  floor := by
    obtain ⟨g, hg, rfl⟩ := h.ceil
    exact ⟨g.flip, List.mem_map_of_mem hg, rfl⟩
  lt := h.lt
  passes := by
    rw [joining_flipPoint, Line.flip_passesAll]
    exact h.passes

theorem Flattest.flip (h : Flattest gs p q) :
    Steepest (gs.map Gate.flip) (flipPoint p) (flipPoint q) where
  floor := by
    obtain ⟨g, hg, rfl⟩ := h.ceil
    exact ⟨g.flip, List.mem_map_of_mem hg, rfl⟩
  ceil := by
    obtain ⟨g, hg, rfl⟩ := h.floor
    exact ⟨g.flip, List.mem_map_of_mem hg, rfl⟩
  lt := h.lt
  passes := by
    rw [joining_flipPoint, Line.flip_passesAll]
    exact h.passes

namespace Steepest

theorem slope_le (h : Steepest gs p q) (hf : f.PassesAll gs) : f.slope ≤ (joining p q).slope := by
  obtain ⟨gp, hgp, rfl⟩ := h.floor
  obtain ⟨gq, hgq, rfl⟩ := h.ceil
  refine Line.slope_le_of_eval h.lt ?_ ?_
  · rw [joining_eval_left]
    exact (hf gp hgp).1
  · rw [joining_eval_right h.lt]
    exact (hf gq hgq).2

theorem eval_le (h : Steepest gs p q) (hf : f.PassesAll gs) (hx : q.1 ≤ x) :
    f.eval x ≤ (joining p q).eval x := by
  refine Line.eval_le_of_ge (h.slope_le hf) hx ?_
  obtain ⟨gq, hgq, rfl⟩ := h.ceil
  rw [joining_eval_right h.lt]
  exact (hf gq hgq).2

end Steepest

namespace Flattest

theorem le_eval (h : Flattest gs p q) (hf : f.PassesAll gs) (hx : q.1 ≤ x) :
    (joining p q).eval x ≤ f.eval x := by
  have hle := h.flip.eval_le (Line.flip_passesAll.mpr hf) hx
  rw [joining_flipPoint, Line.flip_eval, Line.flip_eval] at hle
  exact neg_le_neg_iff.mp hle

end Flattest

/-- Behind the gates a further one can be passed exactly if it reaches into the space between the
flattest and the steepest line. -/
theorem exists_passes_iff {p' q' : K × K} (hs : Steepest gs p q) (hf : Flattest gs p' q')
    (hq : q.1 ≤ g.x) (hq' : q'.1 ≤ g.x) (hg : g.floor ≤ g.ceil) :
    (∃ f : Line K, f.PassesAll (gs ++ [g])) ↔
      (joining p' q').eval g.x ≤ g.ceil ∧ g.floor ≤ (joining p q).eval g.x := by
  constructor
  · rintro ⟨f, hpass⟩
    obtain ⟨hall, hfloor, hceil⟩ := Line.passesAll_concat.mp hpass
    exact ⟨(hf.le_eval hall hq').trans hceil, hfloor.trans (hs.eval_le hall hq)⟩
  · rintro ⟨hlow, hhigh⟩
    have hmid := hf.le_eval hs.passes hq'
    -- a height both in the gate and between the two lines
    obtain ⟨f, hfx, hpass⟩ := Line.exists_between (y := max g.floor ((joining p' q').eval g.x))
      (le_max_right _ _) (max_le hhigh hmid)
    refine ⟨f, Line.passesAll_concat.mpr ⟨fun g' hg' =>
      hpass g' (hf.passes g' hg') (hs.passes g' hg'), ?_, ?_⟩⟩
    · rw [hfx]
      exact le_max_left _ _
    · rw [hfx]
      exact max_le hg hlow

end PimLex.Fitting
