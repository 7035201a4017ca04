import PimLex.ModelFit
import PimLex.Pgm.Level

/-!
# The levels of an index

Every level of a trained index stands over the first keys of the one below, and has
fewer segments, until one segment is left. Runs are longer than twice the error bound,
so a few levels are enough.
-/

namespace PimLex.Pgm

open Fitting Search

variable {f keys : ℕ → ℕ} {epsilon parallelism i m M n N D : ℕ} {starts : ℕ → ℕ}
  {level : List (PgmModel ℚ)} {levels : List (List (PgmModel ℚ))}

theorem extraSegments_le (n : ℕ) (hpar : parallelism ≤ 32) :
    extraSegments parallelism n ≤ 31 ∧ (n < 2 ^ 15 → extraSegments parallelism n = 0) := by
  rw [extraSegments]
  split
  case isTrue => exact ⟨Nat.zero_le _, fun _ => rfl⟩
  case isFalse hor => exact ⟨by omega, fun hlt => absurd (Or.inr hlt) hor⟩

namespace IsLevel

variable (h : IsLevel f M N D epsilon starts m level)

include h

theorem le_starts (hi : i ≤ m) : i ≤ starts i := by
  induction i with
  | zero => exact Nat.zero_le _
  | succ i ih => exact (ih (by omega)).trans_lt (h.lt i hi)

theorem length_bounds : 2 ≤ level.length ∧ level.length ≤ M + 2 := by
  have hpos := h.pos
  have hle := h.le_starts le_rfl
  rw [h.last] at hle
  rcases h.cases_tail with ⟨-, -, hlen, -⟩ | ⟨-, hlen, -⟩ <;> omega

/-- Over an upper level's error bound there are fewer segments than keys. -/
theorem length_lt (hk : Keys f M N D) (hN : 1 < N) (hpar : parallelism ≤ 32)
    (hm : m ≤ (M + 2 * upperEpsilon) / (2 * upperEpsilon + 1) + extraSegments parallelism N) :
    level.length - 1 < N ∧ (N ≤ 129 → level.length = 2) ∧
      level.length ≤ (N + 128) / 129 + extraSegments parallelism N + 2 := by
  have hcount := hk.le_count
  have hcount' := hk.count_le
  have hM : 2 ≤ M := by
    rcases hk.count with rfl | ⟨rfl, -, heq⟩
    · exact hN
    · by_contra hlt
      have hhead := hk.head_le
      obtain rfl : M = 1 := by omega
      rw [heq] at hhead
      omega
  have hextra := extraSegments_le N hpar
  have hpos := h.pos
  have hdiv : (M + 128) / 129 ≤ (N + 128) / 129 := Nat.div_le_div_right (by omega)
  norm_num [upperEpsilon] at hm
  -- up to 129 keys there is one run, and only the sentinel behind it
  have hsmall : M ≤ 129 → level.length = 2 := by
    intro hle
    obtain rfl : m = 1 := by
      have := hextra.2 (by omega)
      have : (M + 128) / 129 ≤ 1 := by omega
      omega
    have hzero := h.zero
    rcases h.cases_tail with ⟨-, heq, -⟩ | ⟨-, hlen, -⟩
    · rw [Nat.sub_self, hzero] at heq
      omega
    · exact hlen
  rcases le_or_gt M 129 with hle | hgt
  · have hlen := hsmall hle
    refine ⟨by omega, fun _ => hlen, by omega⟩
  · have hlen : level.length ≤ m + 2 := by
      rcases h.cases_tail with ⟨-, -, hlen, -⟩ | ⟨-, hlen, -⟩ <;> omega
    refine ⟨?_, fun hle => by omega, by omega⟩
    rcases lt_or_ge N (2 ^ 15) with hlt | hge
    · have := hextra.2 hlt
      omega
    · omega

end IsLevel

/-- The keys level `t` stands over. -/
def levelKeys (keys : ℕ → ℕ) (levels : List (List (PgmModel ℚ))) : ℕ → ℕ → ℕ
  | 0 => keys
  | t + 1 => keyAt (levels.getD t [])

/-- How many there are, the `last_n` that level `t` is built for. -/
def levelCount (n : ℕ) (levels : List (List (PgmModel ℚ))) : ℕ → ℕ
  | 0 => n
  | t + 1 => (levels.getD t []).length - 1

/-- The error bound of level `t`. -/
def levelEpsilon (epsilon : ℕ) : ℕ → ℕ
  | 0 => epsilon
  | _ + 1 => upperEpsilon

/-- `MAX_LEVEL`. -/
abbrev maxLevel : ℕ := 5

/-- `levels_offsets`. -/
def offsetsOf (levels : List (List (PgmModel ℚ))) : List ℕ :=
  (List.range (levels.length + 1)).map fun t => (levels.take t).flatten.length

/-- Each level stands over the one below; all but the lowest were needed. -/
structure Levels (keys : ℕ → ℕ) (n D epsilon parallelism : ℕ) (levels : List (List (PgmModel ℚ))) :
    Prop where
  pos : 0 < levels.length
  level : ∀ t < levels.length, ∃ M starts m,
    Keys (levelKeys keys levels t) M (levelCount n levels t) D ∧
    IsLevel (levelKeys keys levels t) M (levelCount n levels t) D (levelEpsilon epsilon t) starts m
      (levels.getD t []) ∧
    m ≤ (M + 2 * levelEpsilon epsilon t) / (2 * levelEpsilon epsilon t + 1) +
      extraSegments parallelism (levelCount n levels t)
  many : ∀ t, 0 < t → t < levels.length → 1 < levelCount n levels t

theorem getD_concat_left (l : List (List (PgmModel ℚ))) (x : List (PgmModel ℚ))
    (hi : i < l.length) : (l ++ [x]).getD i [] = l.getD i [] := by
  rw [List.getD_eq_getElem?_getD, List.getD_eq_getElem?_getD, List.getElem?_append_left hi]

theorem getD_concat_length (l : List (List (PgmModel ℚ))) (x : List (PgmModel ℚ)) :
    (l ++ [x]).getD l.length [] = x := by
  rw [List.getD_eq_getElem?_getD, List.getElem?_concat_length]
  rfl

theorem levelKeys_concat (keys : ℕ → ℕ) (hi : i ≤ levels.length) :
    levelKeys keys (levels ++ [level]) i = levelKeys keys levels i := by
  cases i with
  | zero => rfl
  | succ i => rw [levelKeys, levelKeys, getD_concat_left _ _ hi]

theorem levelCount_concat (n : ℕ) (hi : i ≤ levels.length) :
    levelCount n (levels ++ [level]) i = levelCount n levels i := by
  cases i with
  | zero => rfl
  | succ i => rw [levelCount, levelCount, getD_concat_left _ _ hi]

theorem offsetsOf_concat (levels : List (List (PgmModel ℚ))) (level : List (PgmModel ℚ)) :
    offsetsOf (levels ++ [level]) =
      offsetsOf levels ++ [(levels ++ [level]).flatten.length] := by
  rw [offsetsOf, offsetsOf, List.length_append, List.length_singleton, List.range_succ,
    List.map_append, List.map_singleton]
  congr 1
  · refine List.map_congr_left fun t ht => ?_
    rw [List.mem_range] at ht
    rw [List.take_append_of_le_length (by omega)]
  · rw [List.take_of_length_le (by simp)]

theorem length_offsetsOf (levels : List (List (PgmModel ℚ))) :
    (offsetsOf levels).length = levels.length + 1 := by
  rw [offsetsOf, List.length_map, List.length_range]

theorem offsetsOf_getD (hi : i ≤ levels.length) :
    (offsetsOf levels).getD i 0 = (levels.take i).flatten.length := by
  rw [offsetsOf, List.getD_eq_getElem?_getD, List.getElem?_map,
    List.getElem?_range (Nat.lt_succ_of_le hi)]
  rfl

theorem getLast?_offsetsOf : (offsetsOf levels).getLast? = some levels.flatten.length := by
  rw [offsetsOf, List.range_succ, List.map_append, List.map_singleton, List.getLast?_concat,
    List.take_length]

namespace Levels

theorem concat (h : Levels keys n D epsilon parallelism levels)
    (hN : 1 < levelCount n levels levels.length)
    (hlevel : ∃ M starts m, Keys (levelKeys keys levels levels.length) M
        (levelCount n levels levels.length) D ∧
      IsLevel (levelKeys keys levels levels.length) M (levelCount n levels levels.length) D
        (levelEpsilon epsilon levels.length) starts m level ∧
      m ≤ (M + 2 * levelEpsilon epsilon levels.length) /
        (2 * levelEpsilon epsilon levels.length + 1) +
        extraSegments parallelism (levelCount n levels levels.length)) :
    Levels keys n D epsilon parallelism (levels ++ [level]) where
  pos := by simp
  level t ht := by
    rw [List.length_append, List.length_singleton] at ht
    rw [levelKeys_concat keys (Nat.le_of_lt_succ ht), levelCount_concat n (Nat.le_of_lt_succ ht)]
    rcases (Nat.le_of_lt_succ ht).eq_or_lt with rfl | ht
    · rw [getD_concat_length]
      exact hlevel
    · rw [getD_concat_left _ _ ht]
      exact h.level t ht
  many t ht ht' := by
    rw [List.length_append, List.length_singleton] at ht'
    rw [levelCount_concat n (Nat.le_of_lt_succ ht')]
    rcases (Nat.le_of_lt_succ ht').eq_or_lt with rfl | ht'
    · exact hN
    · exact h.many t ht ht'

/-- The keys of the next level. -/
theorem keys_succ (h : Levels keys n D epsilon parallelism levels) (hi : i < levels.length) :
    ∃ M, Keys (levelKeys keys levels (i + 1)) M (levelCount n levels (i + 1)) D := by
  obtain ⟨M, starts, m, hk, hl, -⟩ := h.level i hi
  exact hl.keys hk

theorem two_le_length (h : Levels keys n D epsilon parallelism levels) (hi : i < levels.length) :
    2 ≤ (levels.getD i []).length := by
  obtain ⟨M, starts, m, -, hl, -⟩ := h.level i hi
  exact hl.length_bounds.1

/-- Above the lowest level the counts fall. -/
theorem count_lt (h : Levels keys n D epsilon parallelism levels) (hpar : parallelism ≤ 32)
    (hpos : 0 < i) (hi : i < levels.length) :
    levelCount n levels (i + 1) < levelCount n levels i := by
  obtain ⟨M, starts, m, hk, hl, hm⟩ := h.level i hi
  have hN := h.many i hpos hi
  obtain ⟨t, rfl⟩ : ∃ t, i = t + 1 := ⟨i - 1, by omega⟩
  exact (hl.length_lt hk hN hpar hm).1

section Size

variable (h : Levels keys n D epsilon parallelism levels) (hpar : parallelism ≤ 32)

include h

theorem count_one_le : levelCount n levels 1 ≤ n + 1 ∧ levelCount n levels 1 + 1 ≤
    (n + 2 * epsilon) / (2 * epsilon + 1) + extraSegments parallelism n + 2 := by
  obtain ⟨M, starts, m, hk, hl, hm⟩ := h.level 0 h.pos
  have hlen := hl.length_bounds
  have hcount : M ≤ n := hk.le_count
  have hdiv : (M + 2 * epsilon) / (2 * epsilon + 1) ≤ (n + 2 * epsilon) / (2 * epsilon + 1) :=
    Nat.div_le_div_right (by omega)
  have hm' : m ≤ (M + 2 * epsilon) / (2 * epsilon + 1) + extraSegments parallelism n := hm
  change (levels.getD 0 []).length - 1 ≤ n + 1 ∧ (levels.getD 0 []).length - 1 + 1 ≤ _
  rcases hl.cases_tail with ⟨-, -, hlen', -⟩ | ⟨-, hlen', -⟩ <;> omega

/-- Every level is its segments and the sentinel. -/
theorem length_flatten : levels.flatten.length =
    ((List.range levels.length).map fun t => levelCount n levels (t + 1) + 1).sum := by
  rw [List.length_flatten]
  congr 1
  refine List.ext_getElem (by simp) fun t ht ht' => ?_
  rw [List.length_map] at ht
  have htwo := h.two_le_length ht
  have hget : levels.getD t [] = levels[t] := by
    rw [List.getD_eq_getElem?_getD, List.getElem?_eq_getElem ht, Option.getD_some]
  rw [hget] at htwo
  rw [List.getElem_map, List.getElem_map, List.getElem_range, levelCount, hget,
    Nat.sub_add_cancel (by omega)]

include hpar

/-- What a level above the lowest leaves for the next one. -/
theorem count_succ_le (hpos : 0 < i) (hi : i < levels.length) :
    (levelCount n levels i ≤ 129 → levelCount n levels (i + 1) = 1) ∧
      levelCount n levels (i + 1) + 1 ≤ (levelCount n levels i + 128) / 129 +
        extraSegments parallelism (levelCount n levels i) + 2 := by
  obtain ⟨M, starts, m, hk, hl, hm⟩ := h.level i hi
  have hN := h.many i hpos hi
  have htwo := h.two_le_length hi
  obtain ⟨t, rfl⟩ : ∃ t, i = t + 1 := ⟨i - 1, by omega⟩
  obtain ⟨-, hsmall, hle⟩ := hl.length_lt hk hN hpar hm
  refine ⟨fun hcount => ?_, ?_⟩
  · rw [levelCount, hsmall hcount]
  · rw [levelCount]
    omega

/-- Four levels are enough for positions of 20 bits. -/
theorem length_le (hn : n ≤ 2 ^ 20) : levels.length ≤ 4 := by
  by_contra hlen
  have h1 := h.count_one_le.1
  have h2 : levelCount n levels 2 + 1 ≤ _ := (h.count_succ_le hpar one_pos (by omega)).2
  have h3 : levelCount n levels 3 + 1 ≤ _ := (h.count_succ_le hpar two_pos (by omega)).2
  have h4 : levelCount n levels 3 ≤ 129 → levelCount n levels 4 = 1 :=
    (h.count_succ_le hpar three_pos (by omega)).1
  have hmany := h.many 4 (by omega) (by omega)
  have hextra1 := (extraSegments_le (levelCount n levels 1) hpar).1
  have hextra2 := (extraSegments_le (levelCount n levels 2) hpar).2
  omega

/-- A slice of at most 2500 times the width of an error interval fits into a DPU's model array. -/
theorem size_le (hn : n ≤ 2 ^ 20) (hwidth : n ≤ 2500 * (2 * epsilon + 1)) :
    levels.flatten.length ≤ maxModelSize := by
  have hlen := h.length_le hpar hn
  have hpos := h.pos
  have hdiv : (n + 2 * epsilon) / (2 * epsilon + 1) ≤ 2500 := by
    rw [← Nat.lt_succ_iff, Nat.div_lt_iff_lt_mul (by omega)]
    omega
  have h1 := h.count_one_le.2
  have hextra0 := (extraSegments_le n hpar).1
  have hextra1 := (extraSegments_le (levelCount n levels 1) hpar).2
  have h2 : 1 < levels.length → levelCount n levels 2 + 1 ≤ _ := fun hlt =>
    (h.count_succ_le hpar one_pos hlt).2
  have h3 : 2 < levels.length → levelCount n levels 2 ≤ 129 → levelCount n levels 3 = 1 :=
    fun hlt => (h.count_succ_le hpar two_pos hlt).1
  have hmany3 := h.many 3 three_pos
  rw [h.length_flatten, maxModelSize]
  obtain hlen | hlen | hlen | hlen : levels.length = 1 ∨ levels.length = 2 ∨ levels.length = 3 ∨
    levels.length = 4 := by omega
  all_goals
    rw [hlen] at h2 h3 hmany3 ⊢
    simp only [List.range_succ, List.range_zero, List.nil_append, List.map_append, List.map_cons,
      List.map_nil, List.sum_append, List.sum_cons, List.sum_nil, Nat.zero_add, Nat.reduceAdd]
    omega

end Size

end Levels

/-- The points that the recursion reads are the first keys of the last level. -/
theorem inFunRec_flatten (init : List (List (PgmModel ℚ))) (level : List (PgmModel ℚ)) (i : ℕ) :
    inFunRec (init ++ [level]).flatten init.flatten.length i = (keyAt level i, i) := by
  rw [inFunRec, keyAt, List.flatten_append, List.flatten_singleton, List.getD_eq_getElem?_getD,
    List.getD_eq_getElem?_getD, List.getElem?_append_right (Nat.le_add_right _ _),
    Nat.add_sub_cancel_left]

/-- The loop over the upper levels ends, at a level with one segment. -/
theorem buildUpper_spec (hpar : 1 ≤ parallelism) (hpar' : parallelism ≤ 32) (fuel : ℕ)
    (h : Levels keys n D epsilon parallelism levels)
    (hbits : levelCount n levels levels.length + upperEpsilon ≤ 2 ^ 21)
    (hfuel : levelCount n levels levels.length ≤ fuel) :
    ∃ levels', buildUpper parallelism D fuel levels.flatten (offsetsOf levels)
        (levelCount n levels levels.length) = .ok (levels'.flatten, offsetsOf levels') ∧
      Levels keys n D epsilon parallelism levels' ∧ levelCount n levels' levels'.length = 1 := by
  induction fuel generalizing levels with
  | zero =>
    -- a level has a segment and its sentinel, so some fuel is left
    have hlen := h.pos
    have htwo := h.two_le_length (i := levels.length - 1) (by omega)
    obtain ⟨t, ht⟩ : ∃ t, levels.length = t + 1 := ⟨levels.length - 1, by omega⟩
    rw [ht] at hfuel htwo
    simp only [levelCount, Nat.add_sub_cancel] at hfuel htwo
    omega
  | succ fuel ih =>
    rw [buildUpper]
    split
    case isTrue hN =>
      have hne := List.ne_nil_of_length_pos h.pos
      obtain ⟨init, last, rfl⟩ : ∃ init last, levels = init ++ [last] :=
        ⟨levels.dropLast, levels.getLast hne, (List.dropLast_append_getLast hne).symm⟩
      have hlen : (init ++ [last]).length = init.length + 1 := by simp
      have hoffset : (offsetsOf (init ++ [last])).getD ((offsetsOf (init ++ [last])).length - 2) 0 =
          init.flatten.length := by
        rw [length_offsetsOf, hlen, offsetsOf_getD (by omega)]
        simp
      have hkeys : levelKeys keys (init ++ [last]) (init ++ [last]).length = keyAt last := by
        rw [hlen, levelKeys, getD_concat_length]
      -- the level above stands over the last one and is shorter, which the fuel counts
      obtain ⟨M, hk⟩ := h.keys_succ (i := init.length) (by omega)
      rw [← hlen, hkeys] at hk
      have hzero : 0 < upperEpsilon := by decide
      obtain ⟨starts, m, level, hok, hl, hm⟩ := buildLevel_spec hpar hk hzero hbits
        (fun i _ => inFunRec_flatten init last i) (init ++ [last]).flatten
      have hshrink := hl.length_lt hk hN hpar' hm
      have htwo := hl.length_bounds.1
      have hnext : Levels keys n D epsilon parallelism (init ++ [last] ++ [level]) := by
        refine h.concat hN ⟨M, starts, m, ?_⟩
        rw [hkeys]
        rw [hlen] at hk hl hm ⊢
        exact ⟨hk, hl, hm⟩
      have hcount : levelCount n (init ++ [last] ++ [level]) (init ++ [last] ++ [level]).length =
          level.length - 1 := by
        rw [List.length_append, List.length_singleton, levelCount, getD_concat_length]
      obtain ⟨levels', hok', hlevels', hone⟩ := ih hnext (by omega) (by omega)
      refine ⟨levels', ?_, hlevels', hone⟩
      rw [hcount] at hok'
      rw [hoffset]
      change (buildLevel _ _ _ _ (inFunRec _ init.flatten.length) _ >>= _) = _
      have hflat : (init ++ [last] ++ [level]).flatten = (init ++ [last]).flatten ++ level := by
        rw [List.flatten_append, List.flatten_singleton]
      rw [hok, ← hok', offsetsOf_concat (init ++ [last]), getLast?_offsetsOf, hflat,
        List.length_append]
      change buildUpper _ _ _ _ (_ ++ [_ + (level.length - 1) + 1]) _ = _
      rw [Nat.add_assoc, Nat.sub_add_cancel (by omega)]
      rfl
    case isFalse hN =>
      -- the loop stops at one segment
      refine ⟨levels, rfl, h, ?_⟩
      have hlen := h.pos
      have htwo := h.two_le_length (i := levels.length - 1) (by omega)
      obtain ⟨t, ht⟩ : ∃ t, levels.length = t + 1 := ⟨levels.length - 1, by omega⟩
      rw [ht] at hN htwo ⊢
      simp only [levelCount, Nat.add_sub_cancel] at hN htwo ⊢
      omega

/-- Increasing 64-bit keys, not all of them the sentinel. -/
structure Slice (keys : ℕ → ℕ) (n : ℕ) : Prop where
  pos : 0 < n
  increasing : StrictIncr keys n
  word : ∀ i < n, keys i < 2 ^ 64
  head : keys 0 < 2 ^ 64 - 1

/-- The number of keys below the sentinel, `last_n`. -/
def usedCount (keys : ℕ → ℕ) (n : ℕ) : ℕ := n - if keys (n - 1) = 2 ^ 64 - 1 then 1 else 0

namespace Slice

variable (h : Slice keys n)

include h

theorem usedCount_bounds :
    0 < usedCount keys n ∧ usedCount keys n ≤ n ∧ n ≤ usedCount keys n + 1 := by
  have hpos := h.pos
  rw [usedCount]
  split
  case isTrue hlast =>
    have hne : n ≠ 1 := by
      rintro rfl
      exact h.head.ne hlast
    omega
  case isFalse => omega

theorem lt_sentinel (hi : i < usedCount keys n) : keys i < 2 ^ 64 - 1 := by
  have hpos := h.pos
  rw [usedCount] at hi
  split at hi
  case isTrue hlast =>
    rw [← hlast]
    exact h.increasing i (n - 1) (by omega) (by omega)
  case isFalse hlast =>
    have hword := h.word i (by omega)
    rcases (Nat.le_sub_one_of_lt hi).eq_or_lt with heq | hi
    · rw [Nat.sub_zero] at heq
      rw [heq] at hword ⊢
      omega
    · have := h.increasing i (n - 1) (by omega) (by omega)
      have := h.word (n - 1) (by omega)
      omega

theorem keys_used : Keys keys (usedCount keys n) (usedCount keys n)
    (keys (usedCount keys n - 1)) := by
  obtain ⟨hpos, hle, -⟩ := h.usedCount_bounds
  have hmono : ∀ i < usedCount keys n, keys i ≤ keys (usedCount keys n - 1) := by
    intro i hi
    rcases (Nat.le_sub_one_of_lt hi).eq_or_lt with heq | hi'
    · exact heq ▸ le_rfl
    · exact (h.increasing i _ hi' (by omega)).le
  refine ⟨hpos, fun i j hij hj => h.increasing i j hij (by omega), Or.inl rfl, hmono 0 hpos,
    fun i hi => (hmono i hi).trans (Nat.le_succ _), ?_⟩
  have := h.lt_sentinel (Nat.sub_lt hpos one_pos)
  omega

/-- No key is moved where there are no equal ones. -/
theorem inFun_eq (hi : i < n) : inFun keys n i = (keys i, i) := by
  have hflag : ¬(i > 0 ∧ i + 1 < n ∧ keys i = keys (i - 1) ∧ keys i ≠ keys (i + 1) ∧
      (keys i + 1) % 2 ^ 64 ≠ keys (i + 1)) := by
    rintro ⟨hpos, -, heq, -⟩
    exact (h.increasing (i - 1) i (by omega) hi).ne' heq
  rw [inFun]
  simp only [if_neg hflag, Nat.add_zero]
  rw [Nat.mod_eq_of_lt (h.word i hi)]

end Slice

/-- Training succeeds: its levels stand over each other, up to one with a single segment. -/
theorem build_spec (hpar : 1 ≤ parallelism) (hpar' : parallelism ≤ 32) (h : Slice keys n)
    (he : 0 < epsilon) (hbits : n + epsilon ≤ 2 ^ 20) :
    ∃ levels, build parallelism keys n epsilon = .ok (levels.flatten, offsetsOf levels) ∧
      Levels keys (usedCount keys n) (keys (usedCount keys n - 1)) epsilon parallelism levels ∧
      levelCount (usedCount keys n) levels levels.length = 1 := by
  obtain ⟨hpos, hle, hle'⟩ := h.usedCount_bounds
  have hk := h.keys_used
  have hsquare : epsilon * epsilon % 2 ^ 64 ≠ 0 :=
    square_wraps_iff.not.mpr (Nat.not_dvd_of_pos_of_lt he (by omega))
  obtain ⟨starts, m, level, hok, hl, hm⟩ := buildLevel_spec hpar hk he (by omega)
    (fun i hi => h.inFun_eq (by omega)) []
  have hlen := hl.length_bounds
  have hfirst : Levels keys (usedCount keys n) (keys (usedCount keys n - 1)) epsilon parallelism
      [level] := by
    refine ⟨Nat.one_pos, fun t ht => ?_, fun t ht ht' => ?_⟩
    · obtain rfl : t = 0 := by simpa using ht
      exact ⟨usedCount keys n, starts, m, hk, hl, hm⟩
    · simp at ht'
      omega
  have hcount : levelCount (usedCount keys n) [level] [level].length = level.length - 1 := rfl
  obtain ⟨levels, hok', hlevels, hone⟩ := buildUpper_spec hpar hpar' (n + 1) hfirst
    (by
      rw [hcount, upperEpsilon]
      omega)
    (by omega)
  refine ⟨levels, ?_, hlevels, hone⟩
  have hn := h.pos
  rw [build, if_neg (by omega), if_neg hsquare]
  change (buildLevel parallelism (keys (usedCount keys n - 1)) (usedCount keys n) epsilon
    (inFun keys n) [] >>= _) = _
  have hoffsets : offsetsOf [level] = [0, level.length - 1 + 1] := by
    rw [Nat.sub_add_cancel (by omega)]
    simp [offsetsOf, List.range_succ]
  rw [hok, ← hok', hcount, hoffsets, List.flatten_singleton]
  rfl

/-- Training a slice whose positions have 20 bits ends with levels that stand over each other up to
one segment, and the offsets of all of them fit into `level_offset[MAX_LEVEL]`. -/
theorem build_levels (parallelism n epsilon : ℕ) (keys : ℕ → ℕ) (hpar : 1 ≤ parallelism)
    (hpar' : parallelism ≤ 32) (h : Slice keys n) (he : 0 < epsilon)
    (hbits : n + epsilon ≤ 2 ^ 20) :
    ∃ levels, build parallelism keys n epsilon = .ok (levels.flatten, offsetsOf levels) ∧
      Levels keys (usedCount keys n) (keys (usedCount keys n - 1)) epsilon parallelism levels ∧
      levelCount (usedCount keys n) levels levels.length = 1 ∧
      (offsetsOf levels).length ≤ maxLevel := by
  obtain ⟨levels, hok, hlevels, hone⟩ := build_spec hpar hpar' h he hbits
  have hle := h.usedCount_bounds.2.1
  refine ⟨levels, hok, hlevels, hone, ?_⟩
  rw [length_offsetsOf]
  exact Nat.succ_le_succ (hlevels.length_le hpar' (by omega))

/-- A slice of every third key. -/
def thirds (i : ℕ) : ℕ := 3 * i + 1

theorem slice_thirds {n : ℕ} (hpos : 0 < n) (hn : n ≤ 2 ^ 20) : Slice thirds n where
  pos := hpos
  increasing i j hij _ := by
    rw [thirds, thirds]
    omega
  word i hi := by
    rw [thirds]
    omega
  head := by decide

theorem build_levels_thirds :
    ∃ levels, build 8 thirds 100000 64 = .ok (levels.flatten, offsetsOf levels) ∧
      Levels thirds (usedCount thirds 100000) (thirds (usedCount thirds 100000 - 1)) 64 8 levels ∧
      levelCount (usedCount thirds 100000) levels levels.length = 1 ∧
      (offsetsOf levels).length ≤ maxLevel :=
  build_levels 8 100000 64 thirds (by norm_num) (by norm_num)
    (slice_thirds (by norm_num) (by norm_num)) (by norm_num) (by norm_num)

/-- The sizes of the models of a slice, `levels_offsets[height()]`. -/
def trainedSizes (parallelism n : ℕ) (keys : ℕ → ℕ) (tries : ℕ → Bool) (cheaper : ℕ → ℕ → Bool) :
    ModelSizes where
  size epsilon :=
    match build parallelism keys n epsilon with
    | .ok (_, levelsOffsets) => levelsOffsets.getLast?.getD 0
    | .error _ => 0
  tries := tries
  cheaper := cheaper

theorem size_trainedSizes {parallelism n epsilon : ℕ} {keys : ℕ → ℕ} {tries : ℕ → Bool}
    {cheaper : ℕ → ℕ → Bool} {levels : List (List (PgmModel ℚ))}
    (h : build parallelism keys n epsilon = .ok (levels.flatten, offsetsOf levels)) :
    (trainedSizes parallelism n keys tries cheaper).size epsilon = levels.flatten.length := by
  simp only [trainedSizes, h, getLast?_offsetsOf, Option.getD_some]

/-- Whatever its keys are, the fit of a slice that is not longer than 2500 error intervals ends
with the bound it starts from or the doubled one, and for that bound with a model that a DPU can
hold. -/
theorem fitPartition_trained (parallelism n initEpsilon : ℕ) (keys : ℕ → ℕ) (tries : ℕ → Bool)
    (cheaper : ℕ → ℕ → Bool) (hpar : 1 ≤ parallelism) (hpar' : parallelism ≤ 32)
    (h : Slice keys n) (he : 0 < initEpsilon) (hbits : n + 2 * initEpsilon ≤ 2 ^ 20)
    (hwidth : n ≤ 2500 * (2 * initEpsilon + 1)) :
    ∃ curModelSize curEpsilon segments levelsOffsets,
      (trainedSizes parallelism n keys tries cheaper).fitPartition initEpsilon =
        .ok (curModelSize, curEpsilon) ∧
      (curEpsilon = initEpsilon ∨ curEpsilon = initEpsilon * 2) ∧
      curModelSize ≤ maxModelSize ∧
      build parallelism keys n curEpsilon = .ok (segments, levelsOffsets) ∧
      segments.length ≤ maxModelSize := by
  have hbuilt : ∀ epsilon, initEpsilon ≤ epsilon → epsilon ≤ initEpsilon * 2 →
      (trainedSizes parallelism n keys tries cheaper).size epsilon ≤ maxModelSize ∧
        ∃ segments levelsOffsets, build parallelism keys n epsilon = .ok (segments, levelsOffsets) ∧
          segments.length ≤ maxModelSize := by
    intro epsilon hlow hhigh
    obtain ⟨levels, hok, hlevels, -⟩ := build_spec hpar hpar' h (he.trans_le hlow) (by omega)
    have hle := h.usedCount_bounds.2.1
    have hsize := hlevels.size_le hpar' (by omega) (by omega)
    exact ⟨(size_trainedSizes hok).trans_le hsize, _, _, hok, hsize⟩
  obtain ⟨hone, hbuilt₁⟩ := hbuilt initEpsilon le_rfl (by omega)
  obtain ⟨htwo, hbuilt₂⟩ := hbuilt (initEpsilon * 2) (by omega) le_rfl
  obtain ⟨segments₁, offsets₁, hok₁, hlen₁⟩ := hbuilt₁
  obtain ⟨segments₂, offsets₂, hok₂, hlen₂⟩ := hbuilt₂
  have hdoubled : ModelSizes.doubled initEpsilon = initEpsilon * 2 := Nat.mod_eq_of_lt (by omega)
  rw [ModelSizes.fitPartition, hdoubled,
    ModelSizes.build_of_buildable (ModelSizes.buildable_of_lt he (by omega)),
    ModelSizes.build_of_buildable (ModelSizes.buildable_of_lt (by omega) (by omega))]
  simp only [bind, Except.bind, ModelSizes.fitLoop_of_le hone, ModelSizes.fitLoop_of_le htwo]
  split_ifs
  · exact ⟨_, _, segments₂, offsets₂, rfl, Or.inr rfl, htwo, hok₂, hlen₂⟩
  · -- the model for the bound itself is built again
    exact ⟨_, _, segments₁, offsets₁, rfl, Or.inl rfl, htwo, hok₁, hlen₁⟩
  · exact ⟨_, _, segments₁, offsets₁, rfl, Or.inl rfl, hone, hok₁, hlen₁⟩

theorem fitPartition_trained_thirds :
    ∃ curModelSize curEpsilon segments levelsOffsets,
      (trainedSizes 8 100000 thirds (fun _ => true) fun a b => a < b).fitPartition 64 =
        .ok (curModelSize, curEpsilon) ∧
      (curEpsilon = 64 ∨ curEpsilon = 64 * 2) ∧ curModelSize ≤ maxModelSize ∧
      build 8 thirds 100000 curEpsilon = .ok (segments, levelsOffsets) ∧
      segments.length ≤ maxModelSize :=
  fitPartition_trained 8 100000 64 thirds (fun _ => true) (fun a b => a < b) (by norm_num)
    (by norm_num) (slice_thirds (by norm_num) (by norm_num)) (by norm_num) (by norm_num)
    (by norm_num)

end PimLex.Pgm
