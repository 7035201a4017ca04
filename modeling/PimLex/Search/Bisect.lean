import Mathlib.Data.Nat.Count
import Mathlib.Order.Basic
import Mathlib.Tactic.Common

/-!
# Bisection on a cut

A predicate on the indices below `n` has a *cut* `c` when it holds exactly
below `c`. Halving an interval that brackets the cut finds the cut, whatever
bracket it starts from; an interval that ends before the cut is driven to its
own right end. A sorted sequence has a cut for every query, and that cut counts
the entries at or below the query.
-/

namespace PimLex.Search

section Cut

variable {p : ℕ → Prop} {n c d i j : ℕ}

/-- The predicate holds exactly at the indices before `c`. -/
structure IsCut (p : ℕ → Prop) (n c : ℕ) : Prop where
  le : c ≤ n
  iff : ∀ i < n, p i ↔ i < c

theorem IsCut.eq (hc : IsCut p n c) (hd : IsCut p n d) : c = d := by
  rcases lt_trichotomy c d with h | h | h
  · have hp := (hd.iff c (h.trans_le hd.le)).mpr h
    exact absurd ((hc.iff c (h.trans_le hd.le)).mp hp) (lt_irrefl c)
  · exact h
  · have hp := (hc.iff d (h.trans_le hc.le)).mpr h
    exact absurd ((hd.iff d (h.trans_le hc.le)).mp hp) (lt_irrefl d)

/-- A predicate that is closed downwards is cut at the number of its indices. -/
theorem isCut_count [DecidablePred p]
    (down : ∀ i j, i < j → j < n → p j → p i) : IsCut p n (Nat.count p n) := by
  induction n with
  | zero => exact ⟨by simp, fun i hi => absurd hi (Nat.not_lt_zero i)⟩
  | succ n ih =>
    have hn := ih fun i j hij hj => down i j hij (by omega)
    have hle := hn.le
    by_cases hp : p n
    · -- downward closure fills everything below `n`
      have full : Nat.count p n = n := by
        by_contra hne
        have hlt : Nat.count p n < n := lt_of_le_of_ne hn.le hne
        have hpc := down _ n hlt (by omega) hp
        exact absurd ((hn.iff _ hlt).mp hpc) (lt_irrefl _)
      rw [Nat.count_succ, if_pos hp, full]
      refine ⟨le_rfl, fun i hi => ⟨fun _ => hi, fun _ => ?_⟩⟩
      rcases Nat.lt_succ_iff_lt_or_eq.mp hi with hlt | rfl
      · exact down i n hlt (by omega) hp
      · exact hp
    · rw [Nat.count_succ, if_neg hp, Nat.add_zero]
      refine ⟨by omega, fun i hi => ?_⟩
      rcases Nat.lt_succ_iff_lt_or_eq.mp hi with hlt | rfl
      · exact hn.iff i hlt
      · exact ⟨fun h => absurd h hp, fun h => absurd h (by omega)⟩

end Cut

section Bisect

variable {p : ℕ → Bool} {n c l r fuel : ℕ}

/-- The halving loop, with its iterations bounded by `fuel`. -/
def bisectFuel (p : ℕ → Bool) : ℕ → ℕ → ℕ → ℕ
  | 0, l, _ => l
  | fuel + 1, l, r =>
    if l < r then
      let m := l + (r - l) / 2
      if p m then bisectFuel p fuel (m + 1) r else bisectFuel p fuel l m
    else l

/-- `while (l < r)`: move `l` past a midpoint where `p` holds, else `r` down to it. -/
def bisect (p : ℕ → Bool) (l r : ℕ) : ℕ := bisectFuel p (r - l) l r

theorem bisectFuel_of_le (h : r ≤ l) : bisectFuel p fuel l r = l := by
  cases fuel with
  | zero => rfl
  | succ fuel => simp [bisectFuel, Nat.not_lt.mpr h]

/-- The halving loop stays in its interval, whatever the predicate. -/
theorem bisectFuel_le (p : ℕ → Bool) (fuel : ℕ) {l r : ℕ} (h : l ≤ r) :
    bisectFuel p fuel l r ≤ r := by
  induction fuel generalizing l r with
  | zero => exact h
  | succ fuel ih =>
    by_cases hlr : l < r
    · simp only [bisectFuel, if_pos hlr]
      split
      · exact ih (by omega)
      · exact (ih (by omega)).trans (by omega)
    · rw [bisectFuel_of_le (Nat.not_lt.mp hlr)]
      exact h

/-- Where a halving loop ends behind its start, the predicate held just before. -/
theorem bisectFuel_pred (p : ℕ → Bool) (fuel l r : ℕ) : bisectFuel p fuel l r = l ∨
    (l < bisectFuel p fuel l r ∧ p (bisectFuel p fuel l r - 1) = true) := by
  induction fuel generalizing l r with
  | zero => exact Or.inl rfl
  | succ fuel ih =>
    by_cases hlr : l < r
    · cases hp : p (l + (r - l) / 2) with
      | true =>
        simp only [bisectFuel, if_pos hlr, hp, if_true]
        right
        rcases ih (l + (r - l) / 2 + 1) r with heq | ⟨hlt, hpred⟩
        · -- the loop stays where this midpoint has put it
          rw [heq, Nat.add_sub_cancel]
          exact ⟨by omega, hp⟩
        · exact ⟨by omega, hpred⟩
      | false =>
        simp only [bisectFuel, if_pos hlr, hp, Bool.false_eq_true, if_false]
        exact ih _ _
    · exact Or.inl (bisectFuel_of_le (Nat.not_lt.mp hlr))

/-- Halving keeps the cut bracketed, so the loop ends on it. -/
theorem bisectFuel_eq_cut (hlow : ∀ i, l ≤ i → i < c → p i = true)
    (hhigh : ∀ i, c ≤ i → i < r → p i = false) (hl : l ≤ c) (hr : c ≤ r)
    (hfuel : r - l ≤ fuel) : bisectFuel p fuel l r = c := by
  -- the induction carries the bracket: `p` holds up to the cut and fails from it on
  induction fuel generalizing l r with
  | zero =>
    have : l = c := by omega
    simpa [bisectFuel] using this
  | succ fuel ih =>
    by_cases hlr : l < r
    · have hmid : l + (r - l) / 2 < r := by omega
      cases hp : p (l + (r - l) / 2) with
      | true =>
        have hlt : l + (r - l) / 2 < c := by
          by_contra hge
          have hfalse := hhigh _ (Nat.not_lt.mp hge) hmid
          rw [hp] at hfalse
          exact absurd hfalse (by simp)
        simp only [bisectFuel, if_pos hlr, hp, if_true]
        exact ih (fun i hi hic => hlow i (by omega) hic) hhigh (by omega) hr (by omega)
      | false =>
        have hge : c ≤ l + (r - l) / 2 := by
          by_contra hlt
          have htrue := hlow _ (by omega) (Nat.not_le.mp hlt)
          rw [hp] at htrue
          exact absurd htrue (by simp)
        simp only [bisectFuel, if_pos hlr, hp]
        exact ih hlow (fun i hci hi => hhigh i hci (by omega)) hl hge (by omega)
    · rw [bisectFuel_of_le (by omega)]
      omega

theorem bisect_of_le (h : r ≤ l) : bisect p l r = l := bisectFuel_of_le h

theorem bisectFuel_add (p : ℕ → Bool) (a fuel l r : ℕ) :
    bisectFuel p fuel (a + l) (a + r) = a + bisectFuel (fun i => p (a + i)) fuel l r := by
  induction fuel generalizing l r with
  | zero => rfl
  | succ fuel ih =>
    have hmid : a + l + (a + r - (a + l)) / 2 = a + (l + (r - l) / 2) := by
      rw [Nat.add_sub_add_left, Nat.add_assoc]
    simp only [bisectFuel, Nat.add_lt_add_iff_left, hmid, Nat.add_assoc, ih]
    split_ifs <;> rfl

theorem bisectFuel_congr {p p' : ℕ → Bool} {l r : ℕ} (fuel : ℕ)
    (h : ∀ i, l ≤ i → i < r → p i = p' i) : bisectFuel p fuel l r = bisectFuel p' fuel l r := by
  induction fuel generalizing l r with
  | zero => rfl
  | succ fuel ih =>
    by_cases hlr : l < r
    · simp only [bisectFuel, if_pos hlr, h (l + (r - l) / 2) (by omega) (by omega)]
      split
      · exact ih fun i hi hi' => h i (by omega) hi'
      · exact ih fun i hi hi' => h i hi (by omega)
    · rw [bisectFuel_of_le (Nat.not_lt.mp hlr), bisectFuel_of_le (Nat.not_lt.mp hlr)]

/-- A search in a part of the sequence is one in the sequence that starts there. -/
theorem bisect_add (p : ℕ → Bool) (a l r : ℕ) :
    bisect p (a + l) (a + r) = a + bisect (fun i => p (a + i)) l r := by
  rw [bisect, bisect, Nat.add_sub_add_left, bisectFuel_add]

/-- Any bracket `l ≤ c ≤ r` inside the sequence leads to the cut. -/
theorem bisect_eq_cut (hcut : IsCut (fun i => p i = true) n c)
    (hl : l ≤ c) (hr : c ≤ r) (hn : r ≤ n) : bisect p l r = c := by
  refine bisectFuel_eq_cut (fun i _ hic => ?_) (fun i hci hir => ?_) hl hr le_rfl
  · exact (hcut.iff i (hic.trans_le hcut.le)).mpr hic
  · have hnot := mt (hcut.iff i (hir.trans_le hn)).mp (Nat.not_lt.mpr hci)
    exact Bool.eq_false_iff.mpr hnot

/-- An interval that ends at or before the cut is driven to its right end. -/
theorem bisect_eq_right (hcut : IsCut (fun i => p i = true) n c)
    (hl : l ≤ r) (hr : r ≤ c) : bisect p l r = r := by
  refine bisectFuel_eq_cut (fun i _ hir => ?_) (fun i hri hir => by omega) hl le_rfl le_rfl
  exact (hcut.iff i (by have := hcut.le; omega)).mpr (hir.trans_le hr)

/-- An interval that starts at or behind the cut is left at its start. -/
theorem bisect_eq_left (hcut : IsCut (fun i => p i = true) n c)
    (hl : c ≤ l) (hn : r ≤ n) : bisect p l r = l := by
  rcases le_or_gt r l with hr | hr
  · exact bisect_of_le hr
  · refine bisectFuel_eq_cut (fun i hli hil => by omega) (fun i hli hir => ?_) le_rfl hr.le le_rfl
    exact Bool.eq_false_iff.mpr (mt (hcut.iff i (hir.trans_le hn)).mp (by omega))

end Bisect

section Rank

variable {α : Type*} [LinearOrder α] {f : ℕ → α} {n i j : ℕ} {q : α}

/-- The first `n` entries of the sequence strictly increase. -/
def StrictIncr (f : ℕ → α) (n : ℕ) : Prop := ∀ i j, i < j → j < n → f i < f j

theorem StrictIncr.mono (h : StrictIncr f n) {m : ℕ} (hm : m ≤ n) : StrictIncr f m :=
  fun i j hij hj => h i j hij (hj.trans_le hm)

theorem StrictIncr.le (h : StrictIncr f n) (hij : i ≤ j) (hj : j < n) : f i ≤ f j := by
  rcases hij.lt_or_eq with hlt | rfl
  · exact (h i j hlt hj).le
  · exact le_rfl

theorem StrictIncr.lt_iff (h : StrictIncr f n) (hi : i < n) (hj : j < n) :
    f i < f j ↔ i < j := by
  refine ⟨fun hlt => ?_, fun hlt => h i j hlt hj⟩
  by_contra hge
  exact absurd (h.le (Nat.not_lt.mp hge) hi) (not_le.mpr hlt)

theorem StrictIncr.le_of_le (h : StrictIncr f n) (hi : i < n) (hle : f i ≤ f j) : i ≤ j := by
  by_contra hlt
  exact absurd hle (not_le.mpr (h j i (Nat.not_le.mp hlt) hi))

theorem StrictIncr.inj (h : StrictIncr f n) (hi : i < n) (hj : j < n) (he : f i = f j) :
    i = j := by
  rcases lt_trichotomy i j with hlt | heq | hgt
  · exact absurd he (h i j hlt hj).ne
  · exact heq
  · exact absurd he.symm (h j i hgt hi).ne

/-- The upper-bound rank of `q`: how many of the first `n` entries are at most `q`. -/
def rank (f : ℕ → α) (n : ℕ) (q : α) : ℕ := Nat.count (fun i => f i ≤ q) n

/-- Sorted entries at or below the query form an initial segment of length `rank`. -/
theorem isCut_rank (h : ∀ i j, i < j → j < n → f i ≤ f j) (q : α) :
    IsCut (fun i => f i ≤ q) n (rank f n q) :=
  isCut_count fun i j hij hj hq => (h i j hij hj).trans hq

theorem StrictIncr.isCut_rank (h : StrictIncr f n) (q : α) :
    IsCut (fun i => f i ≤ q) n (rank f n q) :=
  Search.isCut_rank (fun i j hij hj => (h i j hij hj).le) q

/-- The upper-bound binary search over `f` for `q`. -/
def upperBound (f : ℕ → α) (q : α) (l r : ℕ) : ℕ := bisect (fun i => decide (f i ≤ q)) l r

theorem upperBound_le (f : ℕ → α) (q : α) {l r : ℕ} (h : l ≤ r) : upperBound f q l r ≤ r :=
  bisectFuel_le _ _ h

/-- A search reads nothing outside its interval. -/
theorem upperBound_congr {f g : ℕ → α} {l r : ℕ} (h : ∀ i, l ≤ i → i < r → f i = g i) :
    upperBound f q l r = upperBound g q l r :=
  bisectFuel_congr _ fun i hi hi' => by rw [h i hi hi']

theorem upperBound_add (f : ℕ → α) (q : α) (a l r : ℕ) :
    upperBound f q (a + l) (a + r) = a + upperBound (fun i => f (a + i)) q l r :=
  bisect_add _ a l r

/-- A bracket of the rank is all the search needs. -/
theorem upperBound_eq_rank (h : IsCut (fun i => f i ≤ q) n j) {l r : ℕ}
    (hl : l ≤ j) (hr : j ≤ r) (hn : r ≤ n) : upperBound f q l r = j :=
  bisect_eq_cut (n := n) ⟨h.le, fun i hi => by simpa using h.iff i hi⟩ hl hr hn

theorem upperBound_eq_right (h : IsCut (fun i => f i ≤ q) n j) {l r : ℕ}
    (hl : l ≤ r) (hr : r ≤ j) : upperBound f q l r = r :=
  bisect_eq_right (n := n) ⟨h.le, fun i hi => by simpa using h.iff i hi⟩ hl hr

theorem upperBound_of_le {l r : ℕ} (h : r ≤ l) : upperBound f q l r = l := bisect_of_le h

/-- Whatever interval the search starts from, it ends at the place nearest to the rank. -/
theorem upperBound_eq_clamp (h : IsCut (fun i => f i ≤ q) n j) {l r : ℕ} (hn : r ≤ n) :
    upperBound f q l r = max l (min j r) := by
  have hcut : IsCut (fun i => decide (f i ≤ q) = true) n j :=
    ⟨h.le, fun i hi => by simpa using h.iff i hi⟩
  rcases le_or_gt j l with hl | hl
  · rw [max_eq_left ((min_le_left j r).trans hl)]
    exact bisect_eq_left hcut hl hn
  · rcases le_or_gt r j with hr | hr
    · rw [min_eq_right hr]
      rcases le_or_gt r l with hrl | hrl
      · rw [max_eq_left hrl]
        exact upperBound_of_le hrl
      · rw [max_eq_right hrl.le]
        exact upperBound_eq_right h hrl.le hr
    · rw [min_eq_left hr.le, max_eq_right hl.le]
      exact upperBound_eq_rank h hl.le hr.le hn

end Rank

end PimLex.Search
