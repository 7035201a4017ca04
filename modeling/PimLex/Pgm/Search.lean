import PimLex.HostSearch
import PimLex.Pgm.Levels

/-!
# Searching the index

A search starts at the one segment of the top level. On every level the segment
predicts where the next one is, and a binary search around that place finds it; the
segment of the lowest level predicts the position of the key.

A prediction for a query far behind the keys of a segment can be too large for the
conversion to an integer, which then has no value. The other queries are led to a
window of the keys that holds their place.
-/

namespace PimLex.Pgm

open Fitting Search

/-- `PGM_SUB_EPS`. -/
def subEps (x epsilon : ℕ) : ℕ := if x ≤ epsilon then 0 else x - epsilon

/-- `PGM_ADD_EPS`. -/
def addEps (x epsilon size : ℕ) : ℕ :=
  let sum := (x + epsilon + 2) % 2 ^ 64
  if sum ≥ size then size else sum

/-- The conversion of an `int32_t` to `size_t`. -/
def toSizeT (x : ℤ) : ℕ := if x < 0 then (x + 2 ^ 64).toNat else x.toNat

/-- `ApproxPos`. -/
structure ApproxPos where
  pos : ℕ
  lo : ℕ
  hi : ℕ

/-- `PGMIndex`. The segments are read from where the vector starts. -/
structure PgmIndex where
  epsilon : ℕ
  n : ℕ
  firstKey : DTYPE
  segments : ℤ → PgmModel ℚ
  levelsOffsets : List ℕ

namespace PgmIndex

variable (idx : PgmIndex) (undefined : ℚ → ℤ)

/-- Where a level starts. -/
def offset (l : ℕ) : ℕ := idx.levelsOffsets.getD l 0

/-- `height`. -/
def height : ℕ := idx.levelsOffsets.length - 1

/-- What a segment predicts, cut by the intercept of the next one. -/
def position (it : ℤ) (k : DTYPE) : ℕ :=
  min (predict undefined (idx.segments it) k) (toSizeT (idx.segments (it + 1)).intercept)

/-- One turn of the loop of `segment_for_key`, from a segment to one of level `l`. -/
def descend (k : DTYPE) (it : ℤ) (l : ℕ) : ℤ :=
  let levelBegin := idx.offset l
  let pos := idx.position undefined it k
  let lo := levelBegin + subEps pos (upperEpsilon + 1)
  let levelSize := idx.offset (l + 1) - idx.offset l - 1
  let hi := levelBegin + addEps pos upperEpsilon levelSize
  upperBound (fun i : ℕ => (idx.segments i).key) k lo hi - 1

/-- `segment_for_key`. -/
def segmentForKey (k : DTYPE) : ℤ :=
  (List.range (idx.height - 1)).reverse.foldl (idx.descend undefined k)
    (idx.offset (idx.levelsOffsets.length - 2))

/-- `search`. -/
def search (key : DTYPE) : ApproxPos :=
  let k := max idx.firstKey key
  let it := idx.segmentForKey undefined k
  let pos := idx.position undefined it k
  ⟨pos, subEps pos idx.epsilon, addEps pos idx.epsilon idx.n⟩

/-- The constructor. -/
def train (parallelism : ℕ) (keys : ℕ → ℕ) (n epsilon : ℕ) : Except PgmFault PgmIndex := do
  let (segments, levelsOffsets) ← build parallelism keys n epsilon
  .ok ⟨epsilon, n, if n = 0 then 0 else keys 0, fun i => segments.getD i.toNat default,
    levelsOffsets⟩

/-- An index as the constructor makes it, whatever is in memory around the segments. -/
structure IsTrained (idx : PgmIndex) (parallelism : ℕ) (keys : ℕ → ℕ) (n epsilon : ℕ) : Prop where
  epsilon_eq : idx.epsilon = epsilon
  n_eq : idx.n = n
  firstKey_eq : idx.firstKey = keys 0
  segments_eq : ∃ segments, build parallelism keys n epsilon = .ok (segments, idx.levelsOffsets) ∧
    ∀ i : ℕ, i < segments.length → idx.segments i = segments.getD i default

end PgmIndex

section Windows

variable {x epsilon size j : ℕ}

theorem subEps_le (h : x ≤ j + epsilon) : subEps x epsilon ≤ j := by
  rw [subEps]
  split <;> omega

theorem le_addEps (h : j ≤ x + epsilon + 2) (hj : j ≤ size) (hx : x + epsilon + 2 < 2 ^ 64) :
    j ≤ addEps x epsilon size := by
  rw [addEps, Nat.mod_eq_of_lt hx]
  split <;> omega

theorem addEps_le_size (x epsilon size : ℕ) : addEps x epsilon size ≤ size := by
  rw [addEps]
  split <;> omega

/-- A window has no more than two places on top of the error interval. -/
theorem addEps_le (x epsilon size : ℕ) :
    addEps x epsilon size ≤ subEps x epsilon + 2 * epsilon + 2 := by
  have hmod := Nat.mod_le (x + epsilon + 2) (2 ^ 64)
  rw [addEps, subEps]
  split <;> split <;> omega

end Windows

section Products

variable {slope : ℚ} {x : ℕ}

/-- The product of a slope of 22 bits and a number of 40 bits can be converted. -/
theorem floatProduct_lt (hs : 0 ≤ slope) (hslope : slope ≤ 2 ^ 22) (hx : x ≤ 2 ^ 40) :
    floatProduct slope x < 2 ^ 63 := by
  have hx' : (x : ℚ) ≤ 2 ^ 40 := by exact_mod_cast hx
  have hnonneg := roundBits_nonneg (p := floatBits) x.cast_nonneg
  have hround := (roundBits_near floatBits x.cast_nonneg).high
  have hprod : slope * roundBits floatBits x ≤ 2 ^ 22 * (2 ^ 40 * (1 + 1 / 2 ^ 24)) := by
    refine mul_le_mul hslope (hround.trans ?_) hnonneg (by norm_num)
    exact mul_le_mul_of_nonneg_right hx' (by norm_num)
  calc floatProduct slope x ≤ slope * roundBits floatBits x * (1 + 1 / 2 ^ floatBits) :=
        (roundBits_near floatBits (mul_nonneg hs hnonneg)).high
    _ ≤ 2 ^ 22 * (2 ^ 40 * (1 + 1 / 2 ^ 24)) * (1 + 1 / 2 ^ floatBits) :=
        mul_le_mul_of_nonneg_right hprod (by norm_num)
    _ < 2 ^ 63 := by norm_num

end Products

section Level

variable {f : ℕ → ℕ} {epsilon i j k m M N D lo hi : ℕ} {starts : ℕ → ℕ} {present last : Prop}
  {level : List (PgmModel ℚ)} {s s' : PgmModel ℚ} {undefined : ℚ → ℤ}

/-- The prediction of a segment, with the fraction of the product cut off. -/
theorem Predicts.floor_bounds (h : Predicts epsilon k j present last s s')
    (hbits : j + epsilon + 1 < 2 ^ 21) :
    0 ≤ ⌊floatProduct s.slope (k - s.key)⌋ ∧
      (j : ℤ) ≤ ⌊floatProduct s.slope (k - s.key)⌋ + s.intercept + epsilon + 1 ∧
      (⌊floatProduct s.slope (k - s.key)⌋ + s.intercept ≤ j + epsilon + 1 ∨
        s'.intercept ≤ j + epsilon + 1 ∧ last) ∧
      (present → ⌊floatProduct s.slope (k - s.key)⌋ + s.intercept ≤ j + epsilon) := by
  have hnonneg := floatProduct_nonneg h.slope_nonneg (k - s.key)
  have hlow := h.low
  have hhigh := h.high
  have hpresent := h.present_high
  generalize floatProduct s.slope (k - s.key) = P at *
  have hfloor := Int.floor_le P
  have hfloor' := Int.lt_floor_add_one P
  refine ⟨Int.floor_nonneg.mpr hnonneg, ?_, hhigh.imp_left fun hle => ?_, fun hp => ?_⟩
  · have hlt : (j : ℚ) < ⌊P⌋ + s.intercept + epsilon + 1 + 1 := by linarith
    exact Int.lt_add_one_iff.mp (by exact_mod_cast hlt)
  · have hlt : (⌊P⌋ + s.intercept : ℚ) < j + epsilon + 1 + 1 := by linarith [slack_lt_one hbits]
    exact Int.lt_add_one_iff.mp (by exact_mod_cast hlt)
  · have hslack := slack_lt_one (show j + epsilon < 2 ^ 21 by omega)
    have hlt : (⌊P⌋ + s.intercept : ℚ) < j + epsilon + 1 := by linarith [hpresent hp]
    exact Int.lt_add_one_iff.mp (by exact_mod_cast hlt)

/-- As long as the conversion has a value, the position of a segment that predicts is close. -/
theorem Predicts.position_bounds (h : Predicts epsilon k j present last s s') (hk : k < 2 ^ 64)
    (hbits : j + epsilon + 1 < 2 ^ 21)
    (hvalue : floatProduct s.slope (k - s.key) < 2 ^ 63) :
    j ≤ min (predict undefined s k) (toSizeT s'.intercept) + epsilon + 1 ∧
      min (predict undefined s k) (toSizeT s'.intercept) ≤ j + epsilon + 1 ∧
      (present → min (predict undefined s k) (toSizeT s'.intercept) ≤ j + epsilon) := by
  have hdelta : (k + 2 ^ 64 - s.key) % 2 ^ 64 = k - s.key := by
    rw [Nat.sub_add_comm h.key_le, Nat.add_mod_right,
      Nat.mod_eq_of_lt ((Nat.sub_le _ _).trans_lt hk)]
  have hconvert := convert_eq_floor 64 undefined
    (floatProduct_nonneg h.slope_nonneg (k - s.key)) hvalue
  obtain ⟨hfloor, hlow, hhigh, hpresent⟩ := h.floor_bounds hbits
  have hintercept := h.intercept_nonneg
  have hnext : toSizeT s'.intercept = s'.intercept.toNat := if_neg h.next_nonneg.not_gt
  have hnextLow := h.le_next
  have hpos : predict undefined s k =
      (⌊floatProduct s.slope (k - s.key)⌋ + s.intercept).toNat := by
    rw [predict, hdelta, hconvert]
    split <;> omega
  rw [hpos, hnext]
  refine ⟨by omega, by omega, fun hp => ?_⟩
  have hle := hpresent hp
  omega

/-- A binary search between two places around the last key that is not above a query selects. -/
theorem selected_upperBound (hk : Keys (keyAt level) M (level.length - 1) D)
    (hlast : IsLast (keyAt level) M k j) (hlo : lo ≤ j) (hj : j < hi)
    (hhi : hi ≤ level.length - 1) :
    0 < upperBound (keyAt level) k lo hi ∧
      Selected level k (upperBound (keyAt level) k lo hi - 1) := by
  obtain ⟨hjM, hfj, habove⟩ := hlast
  have hcount := hk.le_count
  have hcut := isCut_rank (fun i i' hii' hi' => hk.sorted (le_of_lt hii') hi') k
  have hrank : j < rank (keyAt level) (level.length - 1) k :=
    (hcut.iff j (by omega)).mp hfj
  have hle := hcut.le
  rw [upperBound_eq_clamp hcut hhi]
  generalize rank (keyAt level) (level.length - 1) k = c at *
  have hmax : max lo (min c hi) = min c hi := by omega
  rw [hmax]
  refine ⟨by omega, by omega, (hcut.iff _ (by omega)).mpr (by omega), fun i' hi' hlen hkey => ?_⟩
  have hic : i' < c := (hcut.iff i' (by omega)).mp hkey
  -- only the second copy of the last key is behind the window
  have hMi : M ≤ i' := by
    by_contra hlt
    exact absurd hkey (not_le.mpr (habove i' (by omega) (by omega)))
  rcases hk.count with heq | ⟨heq, htop, htop'⟩
  · omega
  · obtain rfl : i' = M := by omega
    have hjlast : j = i' - 1 := by
      by_contra hne
      have := habove (i' - 1) (by omega) (by omega)
      omega
    have hplace : min c hi - 1 = i' - 1 := by omega
    rw [hplace, htop, htop']

/-- Increasing keys are not there twice. -/
theorem Keys.count_eq (h : Keys f M N D) (hf : StrictIncr f N) : M = N := by
  have hpos := h.pos
  rcases h.count with heq | ⟨rfl, htop, htop'⟩
  · exact heq.symm
  · exact absurd (htop'.trans htop.symm) (hf (M - 1) M (by omega) (by omega)).ne

theorem Keys.exists_isLast (h : Keys f M N D) (hk : f 0 ≤ k) : ∃ j, IsLast f M k j := by
  have hcut := isCut_rank (fun i j hij hj => (h.increasing i j hij hj).le) k
  have hpos : 0 < rank f M k := (hcut.iff 0 h.pos).mp hk
  have hle := hcut.le
  generalize rank f M k = c at *
  refine ⟨c - 1, by omega, (hcut.iff _ (by omega)).mpr (by omega), fun j hj hjM => ?_⟩
  exact not_le.mp (mt (hcut.iff j hjM).mp (by omega))

end Level

/-- The models in memory are those of the levels, one level behind the other. -/
structure Holds (models : ℤ → PgmModel ℚ) (offset : ℕ → ℕ) (levels : List (List (PgmModel ℚ))) :
    Prop where
  offset_eq : ∀ l ≤ levels.length, offset l = (levels.take l).flatten.length
  models_eq : ∀ i : ℕ, i < levels.flatten.length → models i = levels.flatten.getD i default

/-- The models from one offset up to the next. -/
def levelOf (models : ℤ → PgmModel ℚ) (offset : ℕ → ℕ) (l : ℕ) : List (PgmModel ℚ) :=
  (List.range (offset (l + 1) - offset l)).map fun i => models (offset l + i : ℕ)

/-- At the segments that are selected for a query the conversion of the product has a value. -/
def Converts (models : ℤ → PgmModel ℚ) (offset : ℕ → ℕ) (height : ℕ) (k : DTYPE) : Prop :=
  ∀ l < height, ∀ i, Selected (levelOf models offset l) k i →
    floatProduct (models (offset l + i : ℕ)).slope (k - (models (offset l + i : ℕ)).key) < 2 ^ 63

namespace Holds

variable {models : ℤ → PgmModel ℚ} {offset : ℕ → ℕ} {levels : List (List (PgmModel ℚ))} {l i : ℕ}
  (h : Holds models offset levels)

include h

theorem offset_succ (hl : l < levels.length) :
    offset (l + 1) = offset l + (levels.getD l []).length := by
  rw [h.offset_eq _ hl, h.offset_eq _ hl.le, List.take_succ_eq_append_getElem hl,
    List.flatten_append, List.length_append, List.flatten_singleton, List.getD_eq_getElem?_getD,
    List.getElem?_eq_getElem hl, Option.getD_some]

theorem offset_mono {l' : ℕ} (hll' : l ≤ l') (hl' : l' ≤ levels.length) :
    offset l ≤ offset l' := by
  rw [h.offset_eq _ hl', h.offset_eq _ (hll'.trans hl')]
  exact ((List.take_prefix_take_left hll').flatten : (levels.take l).flatten <+: _).length_le

theorem getElem?_level (hl : l < levels.length) (hi : i < (levels.getD l []).length) :
    (levels.getD l [])[i]? = some (models (offset l + i : ℕ)) := by
  have hsplit : levels.flatten = (levels.take l).flatten ++
      (levels.getD l [] ++ (levels.drop (l + 1)).flatten) := by
    rw [List.getD_eq_getElem?_getD, List.getElem?_eq_getElem hl, Option.getD_some,
      ← List.flatten_cons, List.getElem_cons_drop, ← List.flatten_append, List.take_append_drop]
  have hlt : offset l + i < levels.flatten.length := by
    rw [hsplit, h.offset_eq _ hl.le, List.length_append, List.length_append]
    omega
  rw [h.models_eq _ hlt, hsplit, h.offset_eq _ hl.le]
  generalize levels.getD l [] = level at hi ⊢
  rw [List.getD_eq_getElem?_getD, List.getElem?_append_right (Nat.le_add_right _ _),
    Nat.add_sub_cancel_left, List.getElem?_append_left hi, List.getElem?_eq_getElem hi,
    Option.getD_some]

theorem levelOf_eq (hl : l < levels.length) : levelOf models offset l = levels.getD l [] := by
  have hlen : offset (l + 1) - offset l = (levels.getD l []).length := by
    rw [h.offset_succ hl, Nat.add_sub_cancel_left]
  refine List.ext_getElem? fun i => ?_
  rw [levelOf, hlen, List.getElem?_map]
  rcases lt_or_ge i (levels.getD l []).length with hi | hi
  · rw [List.getElem?_range hi, Option.map_some, h.getElem?_level hl hi]
  · rw [List.getElem?_eq_none (by simpa using hi), List.getElem?_eq_none hi, Option.map_none]

theorem keyAt_level (hl : l < levels.length) (hi : i < (levels.getD l []).length) :
    keyAt (levels.getD l []) i = (models (offset l + i : ℕ)).key := by
  rw [keyAt, List.getD_eq_getElem?_getD, h.getElem?_level hl hi, Option.getD_some]

/-- A binary search of a level, around the last key that is not above a query, selects. -/
theorem selected_upperBound {M D j k lo hi : ℕ} (hl : l < levels.length)
    (hkeys : Keys (keyAt (levels.getD l [])) M ((levels.getD l []).length - 1) D)
    (hj : IsLast (keyAt (levels.getD l [])) M k j) (hlo : lo ≤ j) (hhi : j < hi)
    (hsize : hi ≤ (levels.getD l []).length - 1) :
    ∃ i : ℕ, (upperBound (fun i : ℕ => (models i).key) k (offset l + lo) (offset l + hi) : ℤ) - 1 =
      (offset l + i : ℕ) ∧ Selected (levels.getD l []) k i := by
  obtain ⟨hpos, hselected⟩ := Pgm.selected_upperBound hkeys hj hlo hhi hsize
  have hsearch : upperBound (fun i : ℕ => (models i).key) k (offset l + lo) (offset l + hi) =
      offset l + upperBound (keyAt (levels.getD l [])) k lo hi := by
    rw [upperBound_add]
    congr 1
    exact upperBound_congr fun i _ hi' => (h.keyAt_level hl (by omega)).symm
  refine ⟨_, ?_, hselected⟩
  rw [hsearch]
  omega

end Holds

namespace Levels

variable {keys : ℕ → ℕ} {n D epsilon parallelism l i k : ℕ}
  {levels : List (List (PgmModel ℚ))} {models : ℤ → PgmModel ℚ} {offset : ℕ → ℕ}
  (h : Levels keys n D epsilon parallelism levels)

include h

theorem levelKeys_zero (hl : l ≤ levels.length) : levelKeys keys levels l 0 = keys 0 := by
  induction l with
  | zero => rfl
  | succ l ih =>
    obtain ⟨M, starts, m, hk, hlevel, -⟩ := h.level l hl
    rw [levelKeys, hlevel.keyAt_eq hlevel.pos, hlevel.zero, ih (by omega)]

theorem levelCount_le (hpar : parallelism ≤ 32) (hl : l ≤ levels.length) :
    levelCount n levels l ≤ n + 1 := by
  have hpos := h.pos
  cases l with
  | zero => exact Nat.le_succ n
  | succ l =>
    induction l with
    | zero => exact h.count_one_le.1
    | succ l ih => exact (h.count_lt hpar l.succ_pos hl).le.trans (ih (by omega))

/-- The segment selected on a level predicts where the last key not above the query is among the
keys of the level. -/
theorem predicts (hmodels : Holds models offset levels) (hpar : parallelism ≤ 32)
    (he : 0 < epsilon) (hn : n + epsilon ≤ 2 ^ 20) (hl : l < levels.length)
    (hsel : Selected (levels.getD l []) k i) (hk : keys 0 ≤ k) :
    ∃ M j, Keys (levelKeys keys levels l) M (levelCount n levels l) D ∧
      IsLast (levelKeys keys levels l) M k j ∧
      Predicts (levelEpsilon epsilon l) k j (levelKeys keys levels l j = k ∧ k ≤ D)
        (i + 2 < (levels.getD l []).length ∨ j + 1 = M)
        (models (offset l + i : ℕ)) (models (offset l + (i + 1) : ℕ)) := by
  obtain ⟨M, starts, m, hkeys, hlevel, -⟩ := h.level l hl
  have hhead := h.levelKeys_zero hl.le
  have hcount := h.levelCount_le hpar hl.le
  obtain ⟨j, hj⟩ := hkeys.exists_isLast (hhead.trans_le hk)
  have heps : 0 < levelEpsilon epsilon l := by
    cases l with
    | zero => exact he
    | succ l => exact Nat.succ_pos _
  have hi := hsel.1
  obtain ⟨s, s', hs, hs', hpredicts⟩ := hlevel.predicts hkeys heps (by omega) hsel hj
  rw [hmodels.getElem?_level hl (by omega), Option.some_inj] at hs hs'
  rw [← hs, ← hs'] at hpredicts
  exact ⟨M, j, hkeys, hj, hpredicts⟩

/-- A segment behind all the keys of a level is followed by one that counts them. -/
theorem next_intercept (hmodels : Holds models offset levels) (hpar : parallelism ≤ 32)
    (hn : n ≤ 2 ^ 20) (hl : l < levels.length) (hsel : Selected (levels.getD l []) k i)
    (hall : ∀ j < levelCount n levels l, levelKeys keys levels l j ≤ k) :
    (models (offset l + (i + 1) : ℕ)).intercept = levelCount n levels l := by
  obtain ⟨M, starts, m, hkeys, hlevel, -⟩ := h.level l hl
  have hcount := h.levelCount_le hpar hl.le
  have hi := hsel.1
  obtain ⟨s', hs', hintercept⟩ := hlevel.next_intercept hkeys (by omega) hsel hall
  rw [hmodels.getElem?_level hl (by omega), Option.some_inj] at hs'
  rw [hs', hintercept]

/-- The one segment of the top level, with the sentinel. -/
theorem length_top (hone : levelCount n levels levels.length = 1) :
    (levels.getD (levels.length - 1) []).length = 2 := by
  have htwo := h.two_le_length (Nat.sub_lt h.pos one_pos)
  obtain ⟨t, ht⟩ : ∃ t, levels.length = t + 1 := ⟨levels.length - 1, by have := h.pos; omega⟩
  rw [ht, Nat.add_sub_cancel] at htwo ⊢
  rw [ht, levelCount] at hone
  omega

/-- It is selected for every query. -/
theorem selected_top (hone : levelCount n levels levels.length = 1) (hk : keys 0 ≤ k) :
    Selected (levels.getD (levels.length - 1) []) k 0 := by
  have htop := h.length_top hone
  have hhead := h.levelKeys_zero le_rfl
  obtain ⟨t, ht⟩ : ∃ t, levels.length = t + 1 := ⟨levels.length - 1, by have := h.pos; omega⟩
  rw [ht, levelKeys] at hhead
  rw [ht, Nat.add_sub_cancel] at htop ⊢
  exact ⟨by omega, hhead.trans_le hk, fun i' hi' hlt => by omega⟩

end Levels

namespace PgmIndex

variable {keys : ℕ → ℕ} {n D epsilon parallelism l i j k : ℕ}
  {levels : List (List (PgmModel ℚ))} {idx : PgmIndex}

section Descend

variable (undefined : ℚ → ℤ) (h : Levels keys n D epsilon parallelism levels)
  (hmodels : Holds idx.segments idx.offset levels) (hpar : parallelism ≤ 32)
  (he : 0 < epsilon) (hn : n + epsilon ≤ 2 ^ 20) (hk : keys 0 ≤ k) (hword : k < 2 ^ 64)
  (hvalue : Converts idx.segments idx.offset levels.length k)

include h hmodels hpar he hn hk hword hvalue

/-- The position that a selected segment gives. -/
theorem position_spec (hl : l < levels.length) (hsel : Selected (levels.getD l []) k i) :
    ∃ M j, Keys (levelKeys keys levels l) M (levelCount n levels l) D ∧
      IsLast (levelKeys keys levels l) M k j ∧
      j ≤ idx.position undefined (idx.offset l + i : ℕ) k + levelEpsilon epsilon l + 1 ∧
      idx.position undefined (idx.offset l + i : ℕ) k ≤ j + levelEpsilon epsilon l + 1 ∧
      (levelKeys keys levels l j = k ∧ k ≤ D →
        idx.position undefined (idx.offset l + i : ℕ) k ≤ j + levelEpsilon epsilon l) := by
  obtain ⟨M, j, hkeys, hj, hpredicts⟩ := h.predicts hmodels hpar he hn hl hsel hk
  have hconverts := hvalue l hl i (by rwa [hmodels.levelOf_eq hl])
  have hplace : j + levelEpsilon epsilon l + 1 < 2 ^ 21 := by
    have hjM := hj.1
    have hcount := h.levelCount_le hpar hl.le
    have hMN := hkeys.le_count
    have hupper : upperEpsilon = 64 := rfl
    cases l with
    | zero =>
      simp only [levelCount, levelEpsilon] at hMN ⊢
      omega
    | succ l =>
      simp only [levelEpsilon]
      omega
  exact ⟨M, j, hkeys, hj, hpredicts.position_bounds hword hplace hconverts⟩

/-- A turn of the loop leads from a selected segment to one of the level below. -/
theorem descend_spec (hl : l + 1 < levels.length)
    (hsel : Selected (levels.getD (l + 1) []) k i) :
    ∃ i' : ℕ, idx.descend undefined k (idx.offset (l + 1) + i : ℕ) l = (idx.offset l + i' : ℕ) ∧
      Selected (levels.getD l []) k i' := by
  obtain ⟨M, j, hkeys, hj, hlow, hhigh, -⟩ := position_spec undefined h hmodels hpar
    he hn hk hword hvalue hl hsel
  have hl' : l < levels.length := by omega
  have hsize : idx.offset (l + 1) - idx.offset l - 1 = (levels.getD l []).length - 1 := by
    rw [hmodels.offset_succ hl', Nat.add_sub_cancel_left]
  have hcount := h.levelCount_le hpar hl.le
  have hjM := hj.1
  have hMN := hkeys.le_count
  simp only [levelKeys, levelCount, levelEpsilon] at hkeys hj hlow hhigh hcount hMN
  rw [descend]
  simp only [hsize]
  generalize idx.position undefined (idx.offset (l + 1) + i : ℕ) k = pos at hlow hhigh ⊢
  have hupper : upperEpsilon = 64 := rfl
  have hlo : subEps pos (upperEpsilon + 1) ≤ j := subEps_le hhigh
  have hhi : j + 1 ≤ addEps pos upperEpsilon ((levels.getD l []).length - 1) :=
    le_addEps (by omega) (by omega) (by omega)
  exact hmodels.selected_upperBound hl' hkeys hj hlo hhi (addEps_le_size _ _ _)

/-- The loop of `segment_for_key`, from any level down. -/
theorem foldl_descend (hl : l < levels.length) (hsel : Selected (levels.getD l []) k i) :
    ∃ i' : ℕ, (List.range l).reverse.foldl (idx.descend undefined k) (idx.offset l + i : ℕ) =
      (idx.offset 0 + i' : ℕ) ∧ Selected (levels.getD 0 []) k i' := by
  induction l generalizing i with
  | zero => exact ⟨i, rfl, hsel⟩
  | succ l ih =>
    obtain ⟨i', hstep, hsel'⟩ := descend_spec undefined h hmodels hpar he hn hk
      hword hvalue hl hsel
    rw [List.range_succ, List.reverse_append, List.reverse_singleton, List.singleton_append,
      List.foldl_cons, hstep]
    exact ih (by omega) hsel'

end Descend

section Trained

variable {key : ℕ} (undefined : ℚ → ℤ) (hpar : 1 ≤ parallelism) (hpar' : parallelism ≤ 32)
  (h : Slice keys n) (he : 0 < epsilon) (hbits : n + epsilon ≤ 2 ^ 20)
  (htrained : idx.IsTrained parallelism keys n epsilon)

include hpar hpar' h he hbits htrained

omit htrained in
theorem exists_trained : ∃ idx, train parallelism keys n epsilon = .ok idx ∧
    idx.IsTrained parallelism keys n epsilon := by
  obtain ⟨levels, hok, -⟩ := build_spec hpar hpar' h he hbits
  refine ⟨_, by rw [train, hok]; rfl, rfl, rfl, if_neg h.pos.ne', _, hok, fun i _ => ?_⟩
  simp only [Int.toNat_natCast]

/-- A trained index holds the levels that `build` makes. -/
theorem IsTrained.exists_levels : ∃ levels,
    Levels keys (usedCount keys n) (keys (usedCount keys n - 1)) epsilon parallelism levels ∧
      levelCount (usedCount keys n) levels levels.length = 1 ∧
      idx.levelsOffsets.length = levels.length + 1 ∧ Holds idx.segments idx.offset levels := by
  obtain ⟨levels, hok, hlevels, hone⟩ := build_spec hpar hpar' h he hbits
  obtain ⟨segments, hbuild, hread⟩ := htrained.segments_eq
  obtain ⟨rfl, hoffsets⟩ := Prod.mk.inj (Except.ok.inj (hok.symm.trans hbuild))
  refine ⟨levels, hlevels, hone, ?_, fun l hl => ?_, hread⟩
  · rw [← hoffsets, length_offsetsOf]
  · rw [offset, ← hoffsets, offsetsOf_getD hl]

/-- The window of a search, around the last key that is not above the query. -/
theorem search_spec (hkey : key < 2 ^ 64)
    (hvalue : Converts idx.segments idx.offset idx.height (max (keys 0) key)) :
    ∃ j, IsLast keys (usedCount keys n) (max (keys 0) key) j ∧
      (idx.search undefined key).lo ≤ j + 1 ∧ j < (idx.search undefined key).hi ∧
      (keys j = max (keys 0) key ∨ j + 1 = usedCount keys n →
        (idx.search undefined key).lo ≤ j) := by
  obtain ⟨levels, hlevels, hone, hlength, hmodels⟩ :=
    htrained.exists_levels hpar hpar' h he hbits
  obtain ⟨hused, hle, hle'⟩ := h.usedCount_bounds
  have hk : keys 0 ≤ max (keys 0) key := le_max_left _ _
  have hword : max (keys 0) key < 2 ^ 64 := max_lt (h.word 0 h.pos) hkey
  have hheight : idx.height = levels.length := by
    rw [height, hlength, Nat.add_sub_cancel]
  have hpos := hlevels.pos
  rw [hheight] at hvalue
  have hsel := hlevels.selected_top hone hk
  obtain ⟨i, hsegment, hsel'⟩ := foldl_descend undefined hlevels hmodels hpar' he (by omega) hk
    hword hvalue (Nat.sub_lt hpos one_pos) hsel
  obtain ⟨M, j, hkeys, hj, hlow, hhigh, hpresent⟩ := position_spec undefined hlevels hmodels hpar'
    he (by omega) hk hword hvalue hpos hsel'
  simp only [levelKeys, levelCount, levelEpsilon] at hkeys hj hlow hhigh hpresent
  rw [hkeys.count_eq (h.increasing.mono hle)] at hj
  have hjM := hj.1
  -- behind all keys the clamp cuts the position to their number
  have hbehind : j + 1 = usedCount keys n →
      idx.position undefined (idx.offset 0 + i : ℕ) (max (keys 0) key) ≤ usedCount keys n := by
    intro hlast
    have hnext := hlevels.next_intercept hmodels hpar' (by omega) hpos hsel' fun j' hj' => by
      refine le_trans ?_ hj.2.1
      exact h.increasing.le (Nat.le_of_lt_succ (hj'.trans_eq hlast.symm)) (by omega)
    rw [position, show ((idx.offset 0 + i : ℕ) : ℤ) + 1 = (idx.offset 0 + (i + 1) : ℕ) by omega,
      hnext]
    exact min_le_right _ _
  rw [search, htrained.firstKey_eq, htrained.epsilon_eq, htrained.n_eq, segmentForKey, hheight,
    hlength, show levels.length + 1 - 2 = levels.length - 1 by omega]
  rw [Nat.add_zero] at hsegment
  simp only [hsegment]
  generalize idx.position undefined (idx.offset 0 + i : ℕ) (max (keys 0) key) = pos at *
  refine ⟨j, hj, subEps_le (by omega), le_addEps (by omega) (by omega) (by omega), ?_⟩
  rintro (heq | hlast)
  case inr =>
    have hle := hbehind hlast
    exact subEps_le (by omega)
  refine subEps_le (hpresent ⟨heq, ?_⟩)
  rw [← heq]
  rcases (Nat.le_sub_one_of_lt hjM).eq_or_lt with hlast | hlast
  · rw [hlast]
  · exact (h.increasing j _ hlast (by omega)).le

/-- A query with 40 bits selects no segment whose product is too large. -/
theorem IsTrained.converts (hk : keys 0 ≤ k) (hbits' : k ≤ 2 ^ 40) :
    Converts idx.segments idx.offset idx.height k := by
  obtain ⟨levels, hlevels, -, hlength, hmodels⟩ := htrained.exists_levels hpar hpar' h he hbits
  have hle := h.usedCount_bounds.2.1
  intro l hl i hsel
  rw [height, hlength, Nat.add_sub_cancel] at hl
  rw [hmodels.levelOf_eq hl] at hsel
  obtain ⟨M, j, -, -, hpredicts⟩ := hlevels.predicts hmodels hpar' he (by omega) hl hsel hk
  exact floatProduct_lt hpredicts.slope_nonneg hpredicts.slope_le ((Nat.sub_le _ _).trans hbits')

end Trained

/-- Below the sentinel the rank of a query counts the keys up to the last one not above it. -/
theorem rank_eq_of_isLast (h : Slice keys n) (hkey : k < 2 ^ 64 - 1)
    (hj : IsLast keys (usedCount keys n) k j) : rank keys n k = j + 1 := by
  obtain ⟨hjN, hkj, habove⟩ := hj
  obtain ⟨-, hle, hle'⟩ := h.usedCount_bounds
  refine (h.increasing.isCut_rank k).eq ⟨by omega, fun i hi => ⟨fun hik => ?_, fun hij => ?_⟩⟩
  · by_contra hlt
    rcases lt_or_ge i (usedCount keys n) with hiN | hiN
    · exact absurd hik (not_le.mpr (habove i (by omega) hiN))
    · obtain rfl : i = n - 1 := by omega
      have hlast : keys (n - 1) = 2 ^ 64 - 1 := by
        by_contra hne
        rw [usedCount, if_neg hne] at hiN
        omega
      omega
  · exact (h.increasing.le (Nat.le_of_lt_succ hij) (by omega)).trans hkj

/-- For a key of the slice the last key not above it is the key itself. -/
theorem isLast_keys_eq (h : Slice keys n) (hi : i < n) (hkey : keys i < 2 ^ 64 - 1)
    (hj : IsLast keys (usedCount keys n) (keys i) j) : j = i := by
  have hrank := rank_eq_of_isLast h hkey hj
  have hij : i < j + 1 := by
    rw [← hrank]
    exact ((h.increasing.isCut_rank _).iff i hi).mp le_rfl
  have hji := h.increasing.le_of_le (hj.1.trans_le h.usedCount_bounds.2.1) hj.2.1
  omega

/-- A search of a trained index ends with a window of at most two places more than the error
interval that brackets the rank of the query, and holds the query where it is one of the keys. -/
theorem search_brackets (idx : PgmIndex) (undefined : ℚ → ℤ) (parallelism n epsilon : ℕ)
    (keys : ℕ → ℕ) (key : ℕ) (hpar : 1 ≤ parallelism) (hpar' : parallelism ≤ 32)
    (h : Slice keys n) (he : 0 < epsilon) (hbits : n + epsilon ≤ 2 ^ 20)
    (htrained : idx.IsTrained parallelism keys n epsilon) (hkey : key < 2 ^ 64 - 1)
    (hvalue : Converts idx.segments idx.offset idx.height (max (keys 0) key)) :
    (idx.search undefined key).lo ≤ rank keys n key ∧
      rank keys n key ≤ (idx.search undefined key).hi ∧ (idx.search undefined key).hi ≤ n ∧
      (idx.search undefined key).hi ≤ (idx.search undefined key).lo + 2 * epsilon + 2 ∧
      ∀ i < n, keys i = key →
        (idx.search undefined key).lo ≤ i ∧ i < (idx.search undefined key).hi := by
  obtain ⟨j, hj, hlo, hhi, hpresent⟩ := search_spec undefined hpar hpar' h he hbits htrained
    (by omega) hvalue
  have hsize : (idx.search undefined key).hi ≤ n := by
    rw [search, ← htrained.n_eq]
    exact addEps_le_size _ _ _
  have hwidth : (idx.search undefined key).hi ≤
      (idx.search undefined key).lo + 2 * epsilon + 2 := by
    rw [search, ← htrained.epsilon_eq]
    exact addEps_le _ _ _
  rcases lt_or_ge key (keys 0) with hlt | hge
  · -- a query before the first key is searched as the first key
    rw [max_eq_left hlt.le] at hj hpresent
    have hzero : j = 0 := by
      by_contra hne
      have hle := h.usedCount_bounds.2.1
      have hjN := hj.1
      exact absurd hj.2.1 (not_le.mpr (h.increasing 0 j (by omega) (by omega)))
    have hrank : rank keys n key = 0 := by
      refine (h.increasing.isCut_rank key).eq ⟨Nat.zero_le _, fun i hi => ?_⟩
      have hmono := h.increasing.le (Nat.zero_le i) hi
      exact iff_of_false (by omega) (Nat.not_lt_zero i)
    have hlow := hpresent (Or.inl (by rw [hzero]))
    refine ⟨by omega, by omega, hsize, hwidth, fun i hi heq => ?_⟩
    have hmono := h.increasing.le (Nat.zero_le i) hi
    omega
  · rw [max_eq_right hge] at hj hpresent
    have hrank := rank_eq_of_isLast h hkey hj
    refine ⟨by omega, by omega, hsize, hwidth, fun i hi heq => ?_⟩
    subst heq
    obtain rfl := isLast_keys_eq h hi hkey hj
    exact ⟨hpresent (Or.inl rfl), hhi⟩

theorem search_brackets_thirds : ∃ idx, train 8 thirds 100000 64 = .ok idx ∧
    ∀ i < 100000, (idx.search truncate (thirds i)).lo ≤ i ∧
      i < (idx.search truncate (thirds i)).hi := by
  have hslice : Slice thirds 100000 := slice_thirds (by norm_num) (by norm_num)
  obtain ⟨idx, hidx, htrained⟩ : ∃ idx, train 8 thirds 100000 64 = .ok idx ∧
      idx.IsTrained 8 thirds 100000 64 :=
    exists_trained (by norm_num) (by norm_num) hslice (by norm_num) (by norm_num)
  refine ⟨idx, hidx, fun i hi => ?_⟩
  have hle : thirds 0 ≤ thirds i := hslice.increasing.le (Nat.zero_le i) hi
  have hlt : thirds i ≤ 2 ^ 40 := by
    rw [thirds]
    omega
  have hvalue := htrained.converts (by norm_num) (by norm_num) hslice (by norm_num) (by norm_num)
    hle hlt
  exact (search_brackets idx truncate 8 100000 64 thirds (thirds i) (by norm_num) (by norm_num)
    hslice (by norm_num) (by norm_num) htrained (by omega) (by rwa [max_eq_right hle])).2.2.2.2 i hi
    rfl

end PgmIndex

end PimLex.Pgm
