import PimLex.Pgm.Build

/-!
# One level

A level stands over increasing keys; above the lowest level the last key may be there
twice. Its segments cover the positions of the keys one run after the other. At the
segment whose key is the last one not above a query, the prediction, cut by the next
segment's intercept, is off by at most one more than the error bound.
-/

namespace PimLex.Pgm

open Fitting

variable {f : ℕ → ℕ} {epsilon a b i j k m n M N D : ℕ} {runs : List (List (ℕ × ℕ))}

section Blocks

/-- A row of positions that is not longer than the error interval is fit by a level line. -/
theorem fits_block (f : ℕ → ℕ) (a : ℕ) {len : ℕ} (hlen : len ≤ 2 * epsilon + 1)
    (hb : a + len + epsilon < 2 ^ 63) : Fits epsilon (positions f a (a + len)) := by
  refine ⟨⟨0, a + epsilon⟩, fun g hg => ?_⟩
  obtain ⟨p, hp, rfl⟩ := List.mem_map.mp hg
  obtain ⟨j, haj, hjb, rfl⟩ := mem_positions.mp hp
  obtain ⟨-, -, -, -, hceil⟩ := gate_bounds f (show j + epsilon < 2 ^ 63 by omega)
  have hfloor : (lowerEnd epsilon (f j) j).y ≤ a + epsilon := by
    simp only [lowerEnd]
    split <;> omega
  rw [Line.Passes, hceil, Line.eval, zero_mul, zero_add]
  change ((lowerEnd epsilon (f j) j).y : ℚ) ≤ a + epsilon ∧ (a : ℚ) + epsilon ≤ j + epsilon
  constructor
  · exact_mod_cast hfloor
  · exact_mod_cast Nat.add_le_add_right haj epsilon

theorem positions_append (f : ℕ → ℕ) {c : ℕ} (hab : a ≤ b) (hbc : b ≤ c) :
    positions f a b ++ positions f b c = positions f a c := by
  have happ : List.range' a (b - a) ++ List.range' (a + 1 * (b - a)) (c - b) = _ :=
    List.range'_append
  rw [one_mul, Nat.add_sub_cancel' hab, show b - a + (c - b) = c - a by omega] at happ
  rw [positions, positions, positions, ← List.map_append, happ]

theorem length_positions (f : ℕ → ℕ) (a b : ℕ) : (positions f a b).length = b - a := by
  rw [positions, List.length_map, List.length_range']

theorem positions_self (f : ℕ → ℕ) (a : ℕ) : positions f a a = [] := by
  rw [positions, Nat.sub_self]
  rfl

/-- Cut into such rows. -/
theorem exists_blocks (f : ℕ → ℕ) (a len : ℕ) (hb : a + len + epsilon < 2 ^ 63) :
    ∃ cuts, Cuts (Fits epsilon) (positions f a (a + len)) cuts ∧
      cuts.length ≤ (len + 2 * epsilon) / (2 * epsilon + 1) := by
  induction len using Nat.strongRecOn generalizing a with
  | ind len ih =>
    rcases Nat.eq_zero_or_pos len with rfl | hpos
    · refine ⟨[], ?_, Nat.zero_le _⟩
      rw [Nat.add_zero, positions_self]
      exact Cuts.nil
    · rcases le_or_gt len (2 * epsilon + 1) with hle | hgt
      · refine ⟨[positions f a (a + len)], ?_, ?_⟩
        · have hcut := Cuts.nil.cons (fits_block f a hle hb)
          rwa [List.append_nil] at hcut
        · rw [List.length_singleton, Nat.le_div_iff_mul_le (by omega)]
          omega
      · obtain ⟨cuts, hcuts, hlen⟩ := ih (len - (2 * epsilon + 1)) (by omega)
          (a + (2 * epsilon + 1)) (by omega)
        refine ⟨positions f a (a + (2 * epsilon + 1)) :: cuts, ?_, ?_⟩
        · have hcut := hcuts.cons (fits_block f a le_rfl (by omega))
          rwa [positions_append f (by omega) (by omega),
            show a + (2 * epsilon + 1) + (len - (2 * epsilon + 1)) = a + len by omega] at hcut
        · have hdiv : (len + 2 * epsilon) / (2 * epsilon + 1) =
              (len - (2 * epsilon + 1) + 2 * epsilon) / (2 * epsilon + 1) + 1 := by
            rw [← Nat.add_div_right _ (by omega)]
            congr 1
            omega
          rw [List.length_cons, hdiv]
          omega

end Blocks

section Runs

/-- Where run `i` starts. -/
def startOf (runs : List (List (ℕ × ℕ))) (i : ℕ) : ℕ := (runs.take i).flatten.length

theorem startOf_zero (runs : List (List (ℕ × ℕ))) : startOf runs 0 = 0 := rfl

theorem startOf_succ (hi : i < runs.length) :
    startOf runs (i + 1) = startOf runs i + runs[i].length := by
  rw [startOf, startOf, List.take_succ_eq_append_getElem hi, List.flatten_append,
    List.length_append, List.flatten_singleton]

theorem startOf_length (h : runs.flatten = positions f 0 M) : startOf runs runs.length = M := by
  rw [startOf, List.take_length, h, length_positions, Nat.sub_zero]

theorem startOf_mono (runs : List (List (ℕ × ℕ))) (hij : i ≤ j) :
    startOf runs i ≤ startOf runs j := by
  have hsub := ((List.take_prefix_take_left hij).flatten : (runs.take i).flatten <+: _)
  exact hsub.length_le

theorem run_eq_positions (h : runs.flatten = positions f 0 M) (hi : i < runs.length) :
    runs[i] = positions f (startOf runs i) (startOf runs (i + 1)) := by
  have hsplit : runs.flatten = (runs.take i).flatten ++ runs[i] ++ (runs.drop (i + 1)).flatten := by
    have hrow : runs.take i ++ [runs[i]] ++ runs.drop (i + 1) = runs := by
      rw [← List.take_succ_eq_append_getElem hi, List.take_append_drop]
    have hflat := congrArg List.flatten hrow
    rw [List.flatten_append, List.flatten_append, List.flatten_singleton] at hflat
    exact hflat.symm
  have hle : startOf runs (i + 1) ≤ M := (startOf_mono runs hi).trans_eq (startOf_length h)
  have hstep := startOf_succ hi
  rw [h, ← positions_append f (Nat.zero_le (startOf runs (i + 1))) hle,
    ← positions_append f (Nat.zero_le (startOf runs i)) (by omega)] at hsplit
  have hfirst : (positions f 0 (startOf runs i)).length = (runs.take i).flatten.length := by
    rw [length_positions, Nat.sub_zero]
    rfl
  have hrun : (positions f (startOf runs i) (startOf runs (i + 1))).length = runs[i].length := by
    rw [length_positions]
    omega
  have hcut := List.append_inj_left hsplit (by
    rw [List.length_append, List.length_append, hfirst, hrun])
  exact (List.append_inj_right hcut hfirst).symm

end Runs

/-- The keys of a level: the first `M` of them increase. No key is more than one above the last key
`D` of the data, and the key one above it may be there twice. -/
structure Keys (f : ℕ → ℕ) (M N D : ℕ) : Prop where
  pos : 0 < M
  increasing : ∀ i j, i < j → j < M → f i < f j
  count : N = M ∨ N = M + 1 ∧ f M = D + 1 ∧ f (M - 1) = D + 1
  head_le : f 0 ≤ D
  le : ∀ i < N, f i ≤ D + 1
  word : D + 1 < 2 ^ 64

namespace Keys

variable (h : Keys f M N D)

include h

theorem le_count : M ≤ N := by
  rcases h.count with rfl | ⟨rfl, -⟩ <;> omega

theorem count_le : N ≤ M + 1 := by
  rcases h.count with rfl | ⟨rfl, -⟩ <;> omega

theorem sorted (hij : i ≤ j) (hj : j < N) : f i ≤ f j := by
  have hmono : ∀ i j, i ≤ j → j < M → f i ≤ f j := by
    intro i j hij hj
    rcases hij.eq_or_lt with rfl | hij
    · exact le_rfl
    · exact (h.increasing i j hij hj).le
  rcases lt_or_ge j M with hjM | hjM
  · exact hmono i j hij hjM
  · have hcount := h.count
    obtain rfl : j = M := by omega
    rcases hij.eq_or_lt with rfl | hij
    · exact le_rfl
    · have heq : f j = f (j - 1) := by
        rcases hcount with rfl | ⟨-, heq, heq'⟩
        · exact absurd hj (lt_irrefl _)
        · exact heq.trans heq'.symm
      rw [heq]
      exact hmono i (j - 1) (by omega) (by omega)

/-- The points of the level that are taken. -/
theorem firstOfEqual {g : ℕ → ℕ × ℕ} (hg : ∀ i < N, g i = (f i, i)) :
    firstOfEqual (points N g) = positions f 0 M := by
  have hfirst : ∀ j < M, isFirst g j = true := by
    intro j hj
    have hle := h.le_count
    rw [isFirst, decide_eq_true_iff]
    rcases Nat.eq_zero_or_pos j with rfl | hpos
    · exact Or.inl rfl
    · rw [hg j (by omega), hg (j - 1) (by omega)]
      exact Or.inr (h.increasing (j - 1) j (by omega) hj).ne'
  have hall : firstsIn g 0 M = positions f 0 M := by
    have hle := h.le_count
    rw [firstsIn, positions, List.filter_eq_self.mpr]
    · exact List.map_congr_left fun j hj => hg j (by
        rw [List.mem_range'_1] at hj
        omega)
    · intro j hj
      rw [List.mem_range'_1] at hj
      exact hfirst j (by omega)
  rw [firstOfEqual_points, ← hall]
  rcases h.count with rfl | ⟨rfl, heq, heq'⟩
  · rfl
  · have hpos := h.pos
    rw [← firstsIn_append (Nat.zero_le M) M.le_succ, firstsIn_skip M.le_succ le_rfl, firstsIn_self,
      List.append_nil]
    intro j hj hj'
    obtain rfl : j = M := by omega
    rw [isFirst, decide_eq_false_iff_not, not_or, hg j (by omega), hg (j - 1) (by omega)]
    exact ⟨by omega, not_not.mpr (heq.trans heq'.symm)⟩

end Keys

/-- The segments of a level: each covers its run, and then comes what `build_level` puts behind. -/
structure IsLevel (f : ℕ → ℕ) (M N D epsilon : ℕ) (starts : ℕ → ℕ) (m : ℕ)
    (level : List (PgmModel ℚ)) : Prop where
  pos : 0 < m
  zero : starts 0 = 0
  last : starts m = M
  lt : ∀ i < m, starts i < starts (i + 1)
  covers : ∀ i < m, ∃ s, level[i]? = some s ∧ Covers f epsilon (starts i) (starts (i + 1)) s
  tail : level.drop m =
    (if N > 1 ∧ M = starts (m - 1) + 1 then [lastSegment D N] else []) ++ [sentinel N]

section Appended

variable {canonical : List CanonicalSegment} {appended : List (PgmModel ℚ)} {starts : ℕ → ℕ}

/-- No run is empty. -/
theorem startOf_lt (hruns : Segmented epsilon (positions f 0 M) runs canonical)
    (hi : i < runs.length) : startOf runs i < startOf runs (i + 1) := by
  have hne := List.length_pos_of_ne_nil (hruns.nonempty _ (List.getElem_mem hi))
  rw [startOf_succ hi]
  omega

/-- The segment of a run covers it. -/
theorem exists_ofCanonical (hruns : Segmented epsilon (positions f 0 M) runs canonical)
    (he : 0 < epsilon) (hbits : M + epsilon ≤ 2 ^ 21) (hf : ∀ i j, i < j → j < M → f i < f j)
    (hi : i < canonical.length) :
    ∃ s, ofCanonical canonical[i] = .ok s ∧
      Covers f epsilon (startOf runs i) (startOf runs (i + 1)) s := by
  obtain ⟨hlen, hsegments⟩ := List.forall₂_iff_get.mp hruns.segments
  have hflat := hruns.cuts.flatten_eq
  have hi' : i < runs.length := hlen ▸ hi
  have hend : startOf runs (i + 1) ≤ M := (startOf_mono runs hi').trans_eq (startOf_length hflat)
  have hcs := hsegments i hi' hi
  have hrun : runs.get ⟨i, hi'⟩ = _ := run_eq_positions hflat hi'
  rw [hrun] at hcs
  exact ofCanonical_covers he (startOf_lt hruns hi') (by omega)
    (fun j l _ hjl hl => hf j l hjl (by omega)) hcs

/-- The segments that `build_level` appends for the runs. -/
theorem exists_appended (hruns : Segmented epsilon (positions f 0 M) runs canonical)
    (he : 0 < epsilon) (hbits : M + epsilon ≤ 2 ^ 21) (hf : ∀ i j, i < j → j < M → f i < f j) :
    ∃ appended, canonical.mapM ofCanonical = .ok appended ∧ appended.length = canonical.length ∧
      ∀ i < canonical.length, ∃ s, appended[i]? = some s ∧
        Covers f epsilon (startOf runs i) (startOf runs (i + 1)) s := by
  obtain ⟨appended, happended, hall⟩ := exists_mapM (g := ofCanonical)
    (R := fun cs s => ofCanonical cs = .ok s) fun cs hcs => by
      obtain ⟨i, hi, rfl⟩ := List.getElem_of_mem hcs
      obtain ⟨s, hs, -⟩ := exists_ofCanonical hruns he hbits hf hi
      exact ⟨s, hs, hs⟩
  obtain ⟨hlen, hget⟩ := List.forall₂_iff_get.mp hall
  refine ⟨appended, happended, hlen.symm, fun i hi => ?_⟩
  obtain ⟨s, hs, hcover⟩ := exists_ofCanonical hruns he hbits hf hi
  have hi' : i < appended.length := hlen ▸ hi
  have heq : appended[i] = s := Except.ok.inj ((hget i hi hi').symm.trans hs)
  exact ⟨s, by rw [List.getElem?_eq_getElem hi', heq], hcover⟩

/-- The last segment is level exactly if it covers one position. -/
theorem getLast?_slope (hpos : 0 < m) (hlen : appended.length = m) (hlast : starts m = M)
    (hcovers : ∀ i < m, ∃ s, appended[i]? = some s ∧
      Covers f epsilon (starts i) (starts (i + 1)) s) (segments : List (PgmModel ℚ)) :
    (segments ++ appended).getLast?.map PgmModel.slope = some 0 ↔ M = starts (m - 1) + 1 := by
  obtain ⟨s, hs, hcover⟩ := hcovers (m - 1) (by omega)
  have hend : starts (m - 1 + 1) = M := by rw [Nat.sub_add_cancel hpos, hlast]
  have hlastAppended : (segments ++ appended).getLast? = some s := by
    rw [List.getLast?_append, List.getLast?_eq_getElem?, hlen, hs]
    rfl
  rw [hlastAppended, Option.map_some, Option.some_inj, hcover.slope_zero, hend]

end Appended

theorem buildLevel_spec {parallelism : ℕ} {g : ℕ → ℕ × ℕ} (hpar : 1 ≤ parallelism)
    (h : Keys f M N D) (he : 0 < epsilon) (hbits : N + epsilon ≤ 2 ^ 21)
    (hg : ∀ i < N, g i = (f i, i)) (segments : List (PgmModel ℚ)) :
    ∃ starts m level, buildLevel parallelism D N epsilon g segments =
        .ok (segments ++ level, level.length - 1) ∧ IsLevel f M N D epsilon starts m level ∧
      m ≤ (M + 2 * epsilon) / (2 * epsilon + 1) + extraSegments parallelism N := by
  have hle := h.le_count
  have hsorted : ∀ i j, i ≤ j → j < N → (g i).1 ≤ (g j).1 := by
    intro i j hij hj
    rw [hg i (by omega), hg j hj]
    exact h.sorted hij hj
  have hword : ∀ i < N, (g i).2 < 2 ^ 64 := by
    intro i hi
    rw [hg i hi]
    change i < 2 ^ 64
    omega
  have hsquare : ¬ 2 ^ 32 ∣ epsilon := Nat.not_dvd_of_pos_of_lt he (by omega)
  obtain ⟨runs, canonical, hok, hruns, hmin⟩ := makeSegmentationPar_spec hpar hsquare hsorted hword
  rw [h.firstOfEqual hg] at hruns hmin
  have hlen := hruns.segments.length_eq
  have hlast : startOf runs canonical.length = M := hlen ▸ startOf_length hruns.cuts.flatten_eq
  obtain ⟨appended, happended, hlen', hcovers⟩ :=
    exists_appended hruns he (by omega) h.increasing
  have hpos : 0 < canonical.length := by
    refine Nat.pos_of_ne_zero fun hzero => ?_
    rw [hzero, startOf_zero] at hlast
    exact h.pos.ne hlast
  have hslope := getLast?_slope hpos hlen' hlast hcovers segments
  refine ⟨startOf runs, canonical.length, appended ++ ((if N > 1 ∧
    M = startOf runs (canonical.length - 1) + 1 then [lastSegment D N] else []) ++ [sentinel N]),
    ?_, ⟨hpos, rfl, hlast, fun i hi => startOf_lt hruns (hlen ▸ hi), ?_, ?_⟩, ?_⟩
  · rw [buildLevel, hok]
    change (canonical.mapM ofCanonical >>= _) = _
    rw [happended]
    change (if _ then _ else _) = _
    simp only [hslope]
    split
    · simp [hlen']
    · simp [hlen']
  · intro i hi
    obtain ⟨s, hs, hcover⟩ := hcovers i hi
    refine ⟨s, ?_, hcover⟩
    rw [List.getElem?_append_left (hlen' ▸ hi), hs]
  · rw [← hlen', List.drop_left]
  · have hroom : 0 + M + epsilon < 2 ^ 63 := by omega
    obtain ⟨cuts, hcuts, hcount⟩ := exists_blocks f 0 M hroom
    rw [Nat.zero_add] at hcuts
    exact (hmin cuts hcuts).trans (Nat.add_le_add_right hcount _)

/-- The key of the segment at a place. -/
def keyAt (level : List (PgmModel ℚ)) (i : ℕ) : ℕ := (level.getD i default).key

/-- Segment `i` has the last key that is not above `k`. -/
def Selected (level : List (PgmModel ℚ)) (k i : ℕ) : Prop :=
  i + 1 < level.length ∧ keyAt level i ≤ k ∧
    ∀ i', i < i' → i' + 1 < level.length → keyAt level i' ≤ k → keyAt level i' = keyAt level i

/-- Position `j` is the one of the last key that is not above `k`. -/
def IsLast (f : ℕ → ℕ) (M k j : ℕ) : Prop := j < M ∧ f j ≤ k ∧ ∀ j', j < j' → j' < M → k < f j'

/-- The segment `s`, followed by `s'`, predicts the position `j` of a query. Where the prediction is
too large, the next intercept is not; where the query is a key of the data, it is smaller by one. -/
structure Predicts (epsilon k j : ℕ) (present last : Prop) (s s' : PgmModel ℚ) : Prop where
  key_le : s.key ≤ k
  slope_nonneg : 0 ≤ s.slope
  slope_le : s.slope ≤ 2 ^ 22
  intercept_nonneg : 0 ≤ s.intercept
  intercept_le : s.intercept ≤ j + epsilon + 1
  low : (j : ℚ) < floatProduct s.slope (k - s.key) + s.intercept + epsilon + 1
  high : floatProduct s.slope (k - s.key) + s.intercept ≤
      (j : ℚ) + epsilon + 1 + slack (j + epsilon + 1) ∨
    s'.intercept ≤ j + epsilon + 1 ∧ last
  present_high : present →
    floatProduct s.slope (k - s.key) + s.intercept ≤ (j : ℚ) + epsilon + slack (j + epsilon)
  next_nonneg : 0 ≤ s'.intercept
  le_next : (j : ℤ) ≤ s'.intercept + epsilon + 1

/-- The segment for the keys above the last one predicts the number of keys. -/
theorem predicts_lastSegment {present last : Prop} (habsent : ¬present) (he : 0 < epsilon)
    (hN : N < 2 ^ 31) (hword : D + 1 < 2 ^ 64) (hle : D + 1 ≤ k) (hj : j ≤ N) (hj' : N ≤ j + 2) :
    Predicts epsilon k j present last (lastSegment D N) (sentinel N) := by
  have hkey : (lastSegment D N).key = D + 1 := Nat.mod_eq_of_lt hword
  have hslope : (lastSegment D N).slope = 0 := rfl
  have hintercept := lastSegment_intercept D hN
  have hnext := sentinel_intercept hN
  have hvalue : floatProduct (lastSegment D N).slope (k - (lastSegment D N).key) +
      (lastSegment D N).intercept = N := by
    rw [hintercept, hslope, floatProduct, zero_mul, roundBits_zero, zero_add, Int.cast_natCast]
  have hNj : (N : ℚ) ≤ j + 2 := by exact_mod_cast hj'
  have hjN : (j : ℚ) ≤ N := Nat.cast_le.mpr hj
  have heps : (1 : ℚ) ≤ epsilon := Nat.one_le_cast.mpr he
  refine ⟨hkey.trans_le hle, hslope.ge, hslope.trans_le (by norm_num), by omega, by omega, ?_,
    Or.inl ?_, fun hpresent => absurd hpresent habsent, by omega, by omega⟩
  · rw [hvalue]
    linarith
  · rw [hvalue]
    linarith [slack_nonneg (j + epsilon + 1)]

/-- A segment predicts in its run, given what the next one does at the run's end. -/
theorem Covers.predicts {s s' : PgmModel ℚ} {last : Prop} (h : Covers f epsilon a b s)
    (hkey : f a ≤ k) (hle : a ≤ j) (hlt : j < b) (hfj : f j ≤ k)
    (habove : j + 1 < b → k < f (j + 1)) (hnext : 0 ≤ s'.intercept)
    (hle' : (j : ℤ) ≤ s'.intercept + epsilon + 1)
    (hend : ¬ j + 1 < b → s'.intercept ≤ j + epsilon + 1 ∧ last) :
    Predicts epsilon k j (f j = k ∧ k ≤ D) last s s' := by
  have hintercept := h.intercept_le
  have hlow := h.low j hle hlt k hfj
  have hhigh : j + 1 < b → floatProduct s.slope (k - f a) + s.intercept ≤
      (j : ℚ) + epsilon + 1 + slack (j + epsilon + 1) := by
    intro hlt'
    have hval := h.high (j + 1) (by omega) hlt' k (habove hlt').le
    push_cast at hval
    rw [Nat.add_right_comm] at hval
    linarith
  have hpresent : f j = k ∧ k ≤ D → floatProduct s.slope (k - f a) + s.intercept ≤
      (j : ℚ) + epsilon + slack (j + epsilon) := fun hk => h.high j hle hlt k hk.1.ge
  rw [← h.key] at hkey hlow hhigh hpresent
  refine ⟨hkey, h.slope_nonneg, h.slope_le, h.intercept_nonneg, by omega, hlow, ?_, hpresent,
    hnext, hle'⟩
  by_cases hj : j + 1 < b
  · exact Or.inl (hhigh hj)
  · exact Or.inr (hend hj)

namespace IsLevel

variable {starts : ℕ → ℕ} {level : List (PgmModel ℚ)}
  (h : IsLevel f M N D epsilon starts m level)

include h

theorem le_length : m ≤ level.length := by
  have hpos := h.pos
  obtain ⟨s, hs, -⟩ := h.covers (m - 1) (by omega)
  obtain ⟨hlt, -⟩ := List.getElem?_eq_some_iff.mp hs
  omega

theorem starts_mono (hij : i ≤ j) (hj : j ≤ m) : starts i ≤ starts j := by
  induction j with
  | zero =>
    obtain rfl : i = 0 := by omega
    exact le_rfl
  | succ j ih =>
    rcases hij.eq_or_lt with rfl | hij
    · exact le_rfl
    · exact (ih (by omega) (by omega)).trans (h.lt j (by omega)).le

theorem starts_lt (hi : i < m) : starts i < M := by
  rw [← h.last]
  exact (h.lt i hi).trans_le (h.starts_mono hi le_rfl)

/-- What is behind the segments of the runs. -/
theorem cases_tail :
    (N > 1 ∧ M = starts (m - 1) + 1 ∧ level.length = m + 2 ∧
      level[m]? = some (lastSegment D N) ∧ level[m + 1]? = some (sentinel N)) ∨
    ((N > 1 → M ≠ starts (m - 1) + 1) ∧ level.length = m + 1 ∧
      level[m]? = some (sentinel N)) := by
  have hle := h.le_length
  have htail := h.tail
  have hlen := congrArg List.length htail
  have hget : ∀ j, level[m + j]? = (level.drop m)[j]? := fun j => by rw [List.getElem?_drop]
  rw [List.length_drop] at hlen
  have h0 := hget 0
  have h1 := hget 1
  rw [Nat.add_zero] at h0
  rw [htail] at h0 h1
  split at htail
  case isTrue hextra =>
    rw [if_pos hextra] at h0 h1 hlen
    refine Or.inl ⟨hextra.1, hextra.2, ?_, h0, h1⟩
    simp only [List.length_append, List.length_singleton] at hlen
    omega
  case isFalse hextra =>
    rw [if_neg hextra] at h0 hlen
    refine Or.inr ⟨fun hN hM => hextra ⟨hN, hM⟩, ?_, h0⟩
    simp only [List.nil_append, List.length_singleton] at hlen
    omega

theorem keyAt_eq (hi : i < m) : keyAt level i = f (starts i) := by
  obtain ⟨s, hs, hcover⟩ := h.covers i hi
  rw [keyAt, List.getD_eq_getElem?_getD, hs]
  exact hcover.key

/-- A level ends with its sentinel. -/
theorem keyAt_last : keyAt level (level.length - 1) = 2 ^ 64 - 1 := by
  rcases h.cases_tail with ⟨-, -, hlen, -, hlast⟩ | ⟨-, hlen, hlast⟩
  · rw [hlen, keyAt, List.getD_eq_getElem?_getD, Nat.add_succ_sub_one, hlast]
    rfl
  · rw [hlen, keyAt, List.getD_eq_getElem?_getD, Nat.add_sub_cancel, hlast]
    rfl

/-- The first keys of the segments are the keys of the next level. -/
theorem keys (hk : Keys f M N D) : ∃ M', Keys (keyAt level) M' (level.length - 1) D := by
  have hpos := h.pos
  have hcount := hk.le_count
  have hword := hk.word
  have hincr : ∀ i j, i < j → j < m → keyAt level i < keyAt level j := by
    intro i j hij hj
    rw [h.keyAt_eq (hij.trans hj), h.keyAt_eq hj]
    refine hk.increasing _ _ ?_ (h.starts_lt hj)
    exact (h.lt i (by omega)).trans_le (h.starts_mono hij hj.le)
  have hhead : keyAt level 0 ≤ D := by
    rw [h.keyAt_eq hpos, h.zero]
    exact hk.head_le
  have hle : ∀ i < m, keyAt level i ≤ D + 1 := by
    intro i hi
    rw [h.keyAt_eq hi]
    exact hk.le _ ((h.starts_lt hi).trans_le hcount)
  rcases h.cases_tail with ⟨-, -, hlen, hlast, -⟩ | ⟨-, hlen, -⟩
  · have hkey : keyAt level m = D + 1 := by
      rw [keyAt, List.getD_eq_getElem?_getD, hlast]
      exact Nat.mod_eq_of_lt hword
    have hle' : ∀ i < level.length - 1, keyAt level i ≤ D + 1 := by
      intro i hi
      rcases (Nat.le_of_lt_succ (show i < m + 1 by omega)).eq_or_lt with rfl | hi
      · exact hkey.le
      · exact hle i hi
    rcases (hle (m - 1) (by omega)).eq_or_lt with heq | hlt
    · refine ⟨m, hpos, hincr, Or.inr ⟨by omega, hkey, heq⟩, hhead, hle', hword⟩
    · refine ⟨m + 1, by omega, fun i j hij hj => ?_, Or.inl (by omega), hhead, hle', hword⟩
      rcases (Nat.le_of_lt_succ hj).eq_or_lt with rfl | hj
      · rw [hkey]
        rcases (Nat.le_sub_one_of_lt hij).eq_or_lt with rfl | hi
        · exact hlt
        · exact (hincr i (j - 1) hi (by omega)).trans hlt
      · exact hincr i j hij hj
  · exact ⟨m, hpos, hincr, Or.inl (by omega), hhead, fun i hi => hle i (by omega), hword⟩

theorem selected_lt (hk : Keys f M N D) (hi : i + 1 < m) (hsel : Selected level k i)
    (hlast : IsLast f M k j) : j < starts (i + 1) := by
  have hlen := h.le_length
  have hlt : keyAt level i < keyAt level (i + 1) := by
    rw [h.keyAt_eq (by omega), h.keyAt_eq hi]
    exact hk.increasing _ _ (h.lt i (by omega)) (h.starts_lt hi)
  by_contra hge
  have hle : keyAt level (i + 1) ≤ k := by
    rw [h.keyAt_eq hi]
    refine (hk.sorted (not_lt.mp hge) ?_).trans hlast.2.1
    exact hlast.1.trans_le hk.le_count
  have hlength : i + 1 + 1 < level.length := by
    rcases h.cases_tail with ⟨-, -, hlen, -⟩ | ⟨-, hlen, -⟩ <;> omega
  exact hlt.ne' (hsel.2.2 (i + 1) i.lt_succ_self hlength hle)

/-- Behind the last run's segment comes one that counts all the keys. -/
theorem intercept_behind (hN : N < 2 ^ 31) : ∃ s', level[m]? = some s' ∧ s'.intercept = N := by
  rcases h.cases_tail with ⟨-, -, -, hs', -⟩ | ⟨-, -, hs'⟩
  · exact ⟨_, hs', lastSegment_intercept D hN⟩
  · exact ⟨_, hs', sentinel_intercept hN⟩

/-- Behind all the keys the next segment counts them. -/
theorem next_intercept (hk : Keys f M N D) (hN : N < 2 ^ 31) (hsel : Selected level k i)
    (hall : ∀ j < N, f j ≤ k) : ∃ s', level[i + 1]? = some s' ∧ s'.intercept = N := by
  have hpos := hk.pos
  have hcount := hk.le_count
  have hlast : IsLast f M k (M - 1) :=
    ⟨by omega, hall _ (by omega), fun j hj hjM => absurd hj (by omega)⟩
  have hmi : m ≤ i + 1 := by
    by_contra hlt
    have hbehind := h.selected_lt hk (not_le.mp hlt) hsel hlast
    have hstart := h.starts_lt (not_le.mp hlt)
    omega
  have hi := hsel.1
  rcases hmi.eq_or_lt with heq | hlt
  · exact heq ▸ h.intercept_behind hN
  · -- the segment selected is itself behind the runs
    rcases h.cases_tail with ⟨-, -, hlen, -, hs'⟩ | ⟨-, hlen, -⟩
    · obtain rfl : i = m := by omega
      exact ⟨_, hs', sentinel_intercept hN⟩
    · omega

/-- The segment selected behind the runs is the one for the keys above the last. -/
theorem predicts_behind (hk : Keys f M N D) (he : 0 < epsilon) (hN : N < 2 ^ 31)
    (hsel : Selected level k m) (hlast : IsLast f M k j) (last : Prop) :
    ∃ s s', level[m]? = some s ∧ level[m + 1]? = some s' ∧
      Predicts epsilon k j (f j = k ∧ k ≤ D) last s s' := by
  have hcount := hk.le_count
  have hcount' := hk.count_le
  obtain ⟨hj, -, habove⟩ := hlast
  have hlength := hsel.1
  rcases h.cases_tail with ⟨-, -, -, hs, hs'⟩ | ⟨-, hlen, -⟩
  · have hkey : keyAt level m = D + 1 := by
      rw [keyAt, List.getD_eq_getElem?_getD, hs]
      exact Nat.mod_eq_of_lt hk.word
    have hle : D + 1 ≤ k := hkey ▸ hsel.2.1
    have hend : j + 1 = M := by
      by_contra hne
      have hbelow := habove (M - 1) (by omega) (by omega)
      have htop := hk.le (M - 1) (by omega)
      omega
    exact ⟨_, _, hs, hs', predicts_lastSegment (by omega) he hN hk.word hle (by omega) (by omega)⟩
  · omega

/-- A query whose last key not above it is in the run of its segment. -/
theorem selected_run (hk : Keys f M N D) (hi : i < m) (hsel : Selected level k i)
    (hlast : IsLast f M k j) : starts i ≤ j ∧ j < starts (i + 1) := by
  constructor
  · by_contra hlt
    have hkey := h.keyAt_eq hi ▸ hsel.2.1
    have habove := hlast.2.2 (starts i) (by omega) (h.starts_lt hi)
    omega
  · rcases (Nat.succ_le_of_lt hi).eq_or_lt with heq | hi'
    · have hend := h.last
      rw [← heq] at hend
      exact hlast.1.trans_eq hend.symm
    · exact h.selected_lt hk hi' hsel hlast

/-- Where the last key not above a query is, the segment selected for the query predicts. -/
theorem predicts (hk : Keys f M N D) (he : 0 < epsilon) (hN : N < 2 ^ 31)
    (hsel : Selected level k i) (hlast : IsLast f M k j) :
    ∃ s s', level[i]? = some s ∧ level[i + 1]? = some s' ∧
      Predicts epsilon k j (f j = k ∧ k ≤ D) (i + 2 < level.length ∨ j + 1 = M) s s' := by
  have hbound : i ≤ m := by
    have hi := hsel.1
    rcases h.cases_tail with ⟨-, -, hlen, -⟩ | ⟨-, hlen, -⟩ <;> omega
  rcases hbound.eq_or_lt with rfl | hi
  · exact h.predicts_behind hk he hN hsel hlast _
  · obtain ⟨s, hs, hcover⟩ := h.covers i hi
    obtain ⟨hle, hnext⟩ := h.selected_run hk hi hsel hlast
    have hM : starts (i + 1) ≤ M := (h.starts_mono hi le_rfl).trans_eq h.last
    have habove : j + 1 < starts (i + 1) → k < f (j + 1) := fun hlt =>
      hlast.2.2 (j + 1) j.lt_succ_self (hlt.trans_le hM)
    have hkey : f (starts i) ≤ k := h.keyAt_eq hi ▸ hsel.2.1
    by_cases hi' : i + 1 < m
    · -- the next segment is that of the next run
      obtain ⟨s', hs', hcover'⟩ := h.covers (i + 1) hi'
      have hlow := hcover'.le_intercept
      have hhigh := hcover'.intercept_le
      refine ⟨s, s', hs, hs', hcover.predicts hkey hle hnext hlast.2.1 habove
        hcover'.intercept_nonneg (by omega) fun hend => ⟨by omega, Or.inl ?_⟩⟩
      rcases h.cases_tail with ⟨-, -, hlen, -⟩ | ⟨-, hlen, -⟩ <;> omega
    · obtain rfl : m = i + 1 := by omega
      have hcount := hk.le_count
      have hcount' := hk.count_le
      have hend := h.last
      obtain ⟨s', hs', hintercept⟩ := h.intercept_behind hN
      exact ⟨s, s', hs, hs', hcover.predicts hkey hle hnext hlast.2.1 habove (by omega) (by omega)
        fun hend => ⟨by omega, Or.inr (by omega)⟩⟩

end IsLevel

end PimLex.Pgm
