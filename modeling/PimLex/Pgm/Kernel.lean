import PimLex.Pgm.Search

/-!
# The kernel on a trained index

A DPU gets the segments of its partition's index and searches them in its own way: it
starts at a level that the costs of its memory select, adds the intercept in single
precision, and looks for the next segment by a scan to the right instead of a binary
search. On a trained index that leads to the same segment of the lowest level, and the
window around its prediction decides every query.
-/

namespace PimLex.Pgm

open Fitting Search

/-- `slope * x + intercept` in single precision. -/
def floatSum (slope : ℚ) (x : ℕ) (intercept : ℤ) : ℚ :=
  roundBits floatBits (floatProduct slope x + roundBits floatBits intercept)

/-- What the kernel computes with a slope, where `long` has `longBits` bits. -/
def kernelOps (longBits : ℕ) (undefined : ℚ → ℤ) : SlopeOps ℚ where
  toInt slope x := convert 32 undefined (floatProduct slope x)
  toLong slope x intercept := convert longBits undefined (floatSum slope x intercept)

/-- `FastLog2`, the exponent of a `float`. -/
def fastLog2 (x : ℕ) : ℤ := if x = 0 then -127 else Int.log 2 (roundBits floatBits x)

/-- `access_wram_cost`. -/
abbrev accessWramCost : ℤ := 4

/-- `prediction_cost`. -/
abbrev predictionCost : ℤ := 45

/-- `start_level`, as `op_type == 0` sets it. -/
def startLevel (args : DpuArguments) : ℕ :=
  ((List.range args.maxLevels).takeWhile fun level =>
    decide (accessWramCost * fastLog2 (args.levelOffset (level + 1) - args.levelOffset level) >
      predictionCost + accessWramCost * fastLog2 (2 * args.setEpsilon))).length

/-- A DPU has the arguments and the models of a partition's index. -/
structure Launched (args : DpuArguments) (models : ℤ → PgmModel ℚ) (idx : PgmIndex) (start : ℕ) :
    Prop where
  inputSize_eq : args.inputSize = idx.n
  maxLevels_eq : args.maxLevels = idx.height
  levelOffset_eq : ∀ l ≤ idx.height, args.levelOffset l = idx.offset l
  startPos_eq : args.startPos = start
  setEpsilon_eq : args.setEpsilon = idx.epsilon
  fits : idx.offset idx.height ≤ maxModelSize
  models_eq : ∀ i : ℕ, i < idx.offset idx.height → models i = idx.segments i

/-- The kernel's arguments for a partition's index. -/
def inputArguments (idx : PgmIndex) (start : ℕ) (hepsilon : idx.epsilon < 2 ^ 31)
    (hword : (idx.n + start) * interleave ≤ 2 ^ 32) : DpuArguments where
  inputSize := idx.n
  maxLevels := idx.height
  levelOffset := idx.offset
  startPos := start
  setEpsilon := idx.epsilon
  epsilon_int := hepsilon
  pos_word := hword

/-- At the segments that the kernel visits for a query the conversions have values. -/
def KernelConverts (longBits : ℕ) (models : ℤ → PgmModel ℚ) (offset : ℕ → ℕ) (startLevel : ℕ)
    (q : DTYPE) : Prop :=
  ∀ l ≤ startLevel, ∀ i, Selected (levelOf models offset l) q i →
    if l = 0 then
      floatProduct (models (offset l + i : ℕ)).slope (q - (models (offset l + i : ℕ)).key) < 2 ^ 31
    else
      floatSum (models (offset l + i : ℕ)).slope (q - (models (offset l + i : ℕ)).key)
        (models (offset l + i : ℕ)).intercept < 2 ^ (longBits - 1)

section Sum

variable {epsilon j k : ℕ} {present last : Prop} {s s' : PgmModel ℚ}

theorem floatSum_nonneg {slope : ℚ} {x : ℕ} {intercept : ℤ} (hs : 0 ≤ slope)
    (hintercept : 0 ≤ intercept) : 0 ≤ floatSum slope x intercept :=
  roundBits_nonneg (add_nonneg (floatProduct_nonneg hs x)
    (roundBits_nonneg (Int.cast_nonneg hintercept)))

/-- The sum is at most two roundings above the exact one. -/
theorem floatSum_le {slope : ℚ} {x : ℕ} {intercept : ℤ} (hs : 0 ≤ slope)
    (hintercept : 0 ≤ intercept) :
    floatSum slope x intercept ≤ (floatProduct slope x + intercept) * (1 + 1 / 2 ^ 22) := by
  have hproduct := floatProduct_nonneg hs x
  have hcast : (0 : ℚ) ≤ intercept := Int.cast_nonneg hintercept
  have hround := (roundBits_near floatBits hcast).high
  have hsum := (roundBits_near floatBits
    (add_nonneg hproduct (roundBits_nonneg (p := floatBits) hcast))).high
  rw [floatSum]
  norm_num [floatBits] at hround hsum ⊢
  linarith

/-- On a level of few keys the sum is too large only where the next intercept is not. -/
theorem Predicts.floatSum_lt (h : Predicts epsilon k j present last s s')
    (hplace : j + epsilon + 1 ≤ 2 ^ 14) :
    floatSum s.slope (k - s.key) s.intercept < (j : ℚ) + epsilon + 2 ∨
      s'.intercept ≤ j + epsilon + 1 := by
  refine h.high.imp (fun hle => ?_) And.left
  have hplace' : (j : ℚ) + epsilon + 1 ≤ 2 ^ 14 := by exact_mod_cast hplace
  rw [slack] at hle
  push_cast at hle
  calc floatSum s.slope (k - s.key) s.intercept
      ≤ (floatProduct s.slope (k - s.key) + s.intercept) * (1 + 1 / 2 ^ 22) :=
        floatSum_le h.slope_nonneg h.intercept_nonneg
    _ ≤ (j + epsilon + 1 + (1 / 2 + (j + epsilon + 1) / 2 ^ 22)) * (1 + 1 / 2 ^ 22) :=
        mul_le_mul_of_nonneg_right hle (by norm_num)
    _ < j + epsilon + 2 := by linarith

end Sum

section Levels

variable {keys : ℕ → ℕ} {n D epsilon parallelism l i j p q fuel c longBits : ℕ}
  {levels : List (List (PgmModel ℚ))} {models : ℤ → PgmModel ℚ} {args : DpuArguments}
  {undefined : ℚ → ℤ}

/-- A scan within a level that ends with the sentinel stops at the last key not above the query. -/
theorem scanRight_eq (hmodels : Holds models args.levelOffset levels) (hl : l < levels.length)
    (hheight : args.levelOffset (l + 1) ≤ args.levelOffset args.maxLevels)
    (hcut : IsCut (fun i => keyAt (levels.getD l []) i ≤ q) (levels.getD l []).length c)
    (hc : c < (levels.getD l []).length) (hp : p < c) (hfuel : c ≤ p + 1 + fuel) :
    args.scanRight models q fuel (args.levelOffset l + p : ℕ) =
      (args.levelOffset l + (c - 1) : ℕ) := by
  have hoffset := hmodels.offset_succ hl
  induction fuel generalizing p with
  | zero =>
    obtain rfl : p = c - 1 := by omega
    rfl
  | succ fuel ih =>
    have hkey : keyAt (levels.getD l []) (p + 1) ≤ q ↔ p + 1 < c := hcut.iff (p + 1) (by omega)
    rw [hmodels.keyAt_level hl (by omega)] at hkey
    have hnext : ((args.levelOffset l + p : ℕ) : ℤ) + 1 = (args.levelOffset l + (p + 1) : ℕ) := by
      omega
    rw [DpuArguments.scanRight, hnext]
    by_cases hpc : p + 1 < c
    · rw [if_pos ⟨by omega, hkey.mpr hpc⟩]
      exact ih hpc (by omega)
    · rw [if_neg fun hand => hpc (hkey.mp hand.2)]
      congr 1
      omega

/-- The keys of a level up to the sentinel are cut behind the selected segment. -/
theorem isCut_level {level : List (PgmModel ℚ)} {M D : ℕ}
    (hkeys : Keys (keyAt level) M (level.length - 1) D)
    (hsentinel : keyAt level (level.length - 1) = 2 ^ 64 - 1) (hq : q < 2 ^ 64 - 1)
    (hj : IsLast (keyAt level) M q j) :
    ∃ c, IsCut (fun i => keyAt level i ≤ q) level.length c ∧ c < level.length ∧ j < c ∧
      Selected level q (c - 1) := by
  have hjM := hj.1
  have hcount := hkeys.le_count
  have hcut := isCut_rank (fun i i' hii' hi' => hkeys.sorted (le_of_lt hii') hi') q
  have hjc : j < rank (keyAt level) (level.length - 1) q := (hcut.iff j (by omega)).mp hj.2.1
  have hle := hcut.le
  generalize rank (keyAt level) (level.length - 1) q = c at *
  refine ⟨c, ⟨by omega, fun i hi => ?_⟩, by omega, hjc, by omega,
    (hcut.iff _ (by omega)).mpr (by omega), fun i hi hlen hkey => ?_⟩
  · rcases (Nat.le_sub_one_of_lt hi).eq_or_lt with rfl | hi
    · rw [hsentinel]
      omega
    · exact hcut.iff i hi
  · have := (hcut.iff i (by omega)).mp hkey
    omega

section Visit

variable (h : Levels keys n D epsilon parallelism levels)
  (hmodels : Holds models args.levelOffset levels) (hheight : args.maxLevels = levels.length)
  (hfits : levels.flatten.length ≤ maxModelSize) (hpar : parallelism ≤ 32) (he : 0 < epsilon)
  (hn : n + epsilon ≤ 2 ^ 20) (hk : keys 0 ≤ q) (hq : q < 2 ^ 64 - 1)

include h hmodels hk

/-- The binary search of the first level ends at its selected segment. -/
theorem topSegment_spec (hl : l < levels.length) :
    ∃ i : ℕ, args.topSegment models l q = (args.levelOffset l + i : ℕ) ∧
      Selected (levels.getD l []) q i := by
  obtain ⟨M, hkeys⟩ := h.keys_succ hl
  have hhead := h.levelKeys_zero (Nat.succ_le_of_lt hl)
  obtain ⟨j, hj⟩ := hkeys.exists_isLast (hhead.trans_le hk)
  have hjM := hj.1
  have hMN := hkeys.le_count
  simp only [levelKeys, levelCount] at hkeys hj hMN
  obtain ⟨i, hsearch, hsel⟩ := hmodels.selected_upperBound hl hkeys hj (Nat.zero_le j)
    (show j < (levels.getD l []).length - 1 by omega) le_rfl
  refine ⟨i, ?_, hsel⟩
  rw [← hsearch, DpuArguments.topSegment, hmodels.offset_succ hl, Nat.add_zero,
    Nat.add_sub_assoc (by omega)]

omit hk

include hheight hq

/-- So does a scan of a lower level that starts at or before it. -/
theorem scanRight_selected {M : ℕ} (hl : l < levels.length)
    (hkeys : Keys (keyAt (levels.getD l [])) M ((levels.getD l []).length - 1) D)
    (hj : IsLast (keyAt (levels.getD l [])) M q j) (hp : p ≤ j) :
    ∃ i : ℕ, args.scanRight models q
        ((args.levelOffset args.maxLevels : ℤ) - (args.levelOffset l + p : ℕ)).toNat
        (args.levelOffset l + p : ℕ) = (args.levelOffset l + i : ℕ) ∧
      Selected (levels.getD l []) q i := by
  obtain ⟨M', starts, m, -, hlevel, -⟩ := h.level l hl
  obtain ⟨c, hcut, hc, hjc, hsel⟩ := isCut_level hkeys hlevel.keyAt_last hq hj
  have hoffset := hmodels.offset_succ hl
  have htop : args.levelOffset (l + 1) ≤ args.levelOffset args.maxLevels := by
    rw [hheight]
    exact hmodels.offset_mono hl le_rfl
  exact ⟨c - 1, scanRight_eq hmodels hl htop hcut hc (by omega) (by omega), hsel⟩

omit h hmodels hheight hq in
/-- The place before a prediction from which the scan starts. -/
theorem nextSegment_eq {ops : SlopeOps ℚ} {cur next t : ℤ} {base : ℕ}
    (hcur : cur < args.levelOffset args.maxLevels)
    (hvalue : ops.toLong (models cur).slope (DpuArguments.keyDelta models cur q)
      (models cur).intercept = t)
    (hintercept : (models (cur + 1)).intercept = next) (hbase : args.levelOffset l = base)
    (ht : 0 ≤ t) (hplace : t ≤ j + 65 ∨ next ≤ j + 65)
    (hword : base + j < 2 ^ 31) :
    ∃ p ≤ j, args.nextSegment ops models q cur l = args.scanRight models q
      ((args.levelOffset args.maxLevels : ℤ) - (base + p : ℕ)).toNat (base + p : ℕ) := by
  have hstart : ∃ p ≤ j, (if min t next > epsilonRecursive + 1 then
      min t next - epsilonRecursive - 1 else 0) = (p : ℤ) := by
    refine ⟨(min t next - 65).toNat, by omega, ?_⟩
    simp only [epsilonRecursive]
    split <;> omega
  obtain ⟨p, hp, hstart⟩ := hstart
  refine ⟨p, hp, ?_⟩
  have hpos : (if t < 0 then 0 else t) = t := if_neg ht.not_gt
  have hmin : (if cur < args.levelOffset args.maxLevels ∧ t > next then next else t) =
      min t next := by
    split <;> omega
  have hlo : toInt32 ((base : ℤ) + p) = (base + p : ℕ) := by
    rw [toInt32_eq (by omega) (by omega), Nat.cast_add]
  rw [DpuArguments.nextSegment]
  simp only [hvalue, hintercept, hbase, hpos, hmin, hstart, hlo]

include hk hfits hpar he hn

/-- A turn of the kernel's loop leads from a selected segment to one of the level below. -/
theorem nextSegment_spec (undefined : ℚ → ℤ) (hl : l + 1 < levels.length)
    (hsel : Selected (levels.getD (l + 1) []) q i)
    (hvalue : floatSum (models (args.levelOffset (l + 1) + i : ℕ)).slope
        (q - (models (args.levelOffset (l + 1) + i : ℕ)).key)
        (models (args.levelOffset (l + 1) + i : ℕ)).intercept < 2 ^ (longBits - 1)) :
    ∃ i' : ℕ, args.nextSegment (kernelOps longBits undefined) models q
        (args.levelOffset (l + 1) + i : ℕ) l = (args.levelOffset l + i' : ℕ) ∧
      Selected (levels.getD l []) q i' := by
  obtain ⟨M, j, hkeys, hj, hpredicts⟩ := h.predicts hmodels hpar he hn hl hsel hk
  have hl' : l < levels.length := by omega
  have hoffset := hmodels.offset_succ hl
  have hoffset' := hmodels.offset_succ hl'
  have hi := hsel.1
  have htop : args.levelOffset (l + 1 + 1) ≤ args.levelOffset args.maxLevels := by
    rw [hheight]
    exact hmodels.offset_mono hl le_rfl
  have hfew : args.levelOffset args.maxLevels ≤ 2560 := by
    rw [hheight, hmodels.offset_eq _ le_rfl, List.take_length]
    exact hfits
  have hjM := hj.1
  have hMN := hkeys.le_count
  simp only [levelKeys, levelCount, levelEpsilon] at hkeys hj hMN hpredicts
  have hupper : upperEpsilon = 64 := rfl
  have hsum := hpredicts.floatSum_lt (by omega)
  have hnonneg := floatSum_nonneg (x := q - (models (args.levelOffset (l + 1) + i : ℕ)).key)
    hpredicts.slope_nonneg hpredicts.intercept_nonneg
  -- the key is not above the query, so the words do not wrap
  have hdelta : DpuArguments.keyDelta models (args.levelOffset (l + 1) + i : ℕ) q =
      q - (models (args.levelOffset (l + 1) + i : ℕ)).key := by
    have hkey := hpredicts.key_le
    rw [DpuArguments.keyDelta, Nat.sub_add_comm hkey, Nat.add_mod_right,
      Nat.mod_eq_of_lt ((Nat.sub_le _ _).trans_lt (by omega))]
  have hconvert : (kernelOps longBits undefined).toLong
      (models (args.levelOffset (l + 1) + i : ℕ)).slope
      (DpuArguments.keyDelta models (args.levelOffset (l + 1) + i : ℕ) q)
      (models (args.levelOffset (l + 1) + i : ℕ)).intercept =
      ⌊floatSum (models (args.levelOffset (l + 1) + i : ℕ)).slope
        (q - (models (args.levelOffset (l + 1) + i : ℕ)).key)
        (models (args.levelOffset (l + 1) + i : ℕ)).intercept⌋ := by
    simp only [kernelOps, hdelta]
    exact convert_eq_floor longBits undefined hnonneg hvalue
  -- the prediction, or the next intercept that cuts it, is at most 65 places too far
  have hplace : ⌊floatSum (models (args.levelOffset (l + 1) + i : ℕ)).slope
        (q - (models (args.levelOffset (l + 1) + i : ℕ)).key)
        (models (args.levelOffset (l + 1) + i : ℕ)).intercept⌋ ≤ j + 65 ∨
      (models (args.levelOffset (l + 1) + (i + 1) : ℕ)).intercept ≤ j + 65 := by
    refine hsum.imp (fun hlt => ?_) fun hle => by omega
    have hlt' : ⌊_⌋ < (j : ℤ) + upperEpsilon + 2 := Int.floor_lt.mpr (by exact_mod_cast hlt)
    omega
  have hcur : ((args.levelOffset (l + 1) + i : ℕ) : ℤ) < args.levelOffset args.maxLevels := by
    omega
  obtain ⟨p, hp, hscan⟩ := nextSegment_eq (l := l) hcur hconvert rfl rfl
    (Int.floor_nonneg.mpr hnonneg) hplace (by omega)
  rw [hscan]
  exact scanRight_selected h hmodels hheight hq hl' hkeys hj hp

/-- The recursive levels, from any level down. -/
theorem foldl_nextSegment (undefined : ℚ → ℤ) (hl : l < levels.length)
    (hsel : Selected (levels.getD l []) q i)
    (hvalue : KernelConverts longBits models args.levelOffset l q) :
    ∃ i' : ℕ, (List.range l).reverse.foldl
        (args.nextSegment (kernelOps longBits undefined) models q) (args.levelOffset l + i : ℕ) =
      (args.levelOffset 0 + i' : ℕ) ∧ Selected (levels.getD 0 []) q i' := by
  induction l generalizing i with
  | zero => exact ⟨i, rfl, hsel⟩
  | succ l ih =>
    have hconverts := hvalue (l + 1) le_rfl i (by rwa [hmodels.levelOf_eq hl])
    rw [if_neg l.succ_ne_zero] at hconverts
    obtain ⟨i', hstep, hsel'⟩ := nextSegment_spec h hmodels hheight hfits hpar he hn hk hq undefined
      hl hsel hconverts
    rw [List.range_succ, List.reverse_append, List.reverse_singleton, List.singleton_append,
      List.foldl_cons, hstep]
    exact ih (by omega) hsel' fun t ht => hvalue t (by omega)

/-- Whatever level the kernel starts at, it ends at the segment selected on the lowest one. -/
theorem curOffset_spec (undefined : ℚ → ℤ) (hl : l < levels.length)
    (hvalue : KernelConverts longBits models args.levelOffset l q) :
    ∃ i : ℕ, args.curOffset (kernelOps longBits undefined) models l q =
        (args.levelOffset 0 + i : ℕ) ∧ Selected (levels.getD 0 []) q i := by
  obtain ⟨i, htop, hsel⟩ := topSegment_spec h hmodels hk hl
  rw [DpuArguments.curOffset, htop]
  exact foldl_nextSegment h hmodels hheight hfits hpar he hn hk hq undefined hl hsel hvalue

end Visit

end Levels

section Window

variable {args : DpuArguments} {j n : ℕ} {x next predicted : ℤ} {last : Prop}
  [Decidable last]

theorem toInt32_wrap {x : ℤ} (hlow : 2 ^ 31 ≤ x) (hhigh : x < 2 ^ 32 + 2 ^ 31) :
    toInt32 x = x - 2 ^ 32 := by
  have hmod : toInt32 (x + (2 ^ 32 : ℕ) * (-1)) = toInt32 x := Int.add_mul_bmod_self_left x _ _
  rw [← hmod, toInt32_eq (by omega) (by omega)]
  ring

/-- The window around a prediction reaches the place behind `j`, and starts there or before unless
all the keys are before that place. -/
theorem windowAt_spec (hsize : args.inputSize = n) (hn : n + args.setEpsilon ≤ 2 ^ 20)
    (hj : j < n) (hx : 0 ≤ x) (hx' : x < 2 ^ 31 + 2 ^ 21) (hlow : (j : ℤ) ≤ x + args.setEpsilon + 1)
    (hnext : 0 ≤ next) (hnextLow : (j : ℤ) ≤ next + args.setEpsilon + 1)
    (hhigh : x ≤ j + args.setEpsilon + 1 ∨ next ≤ j + args.setEpsilon + 1 ∧ (last ∨ j + 1 = n))
    (hpredicted : predicted = if last ∧ next < toInt32 x then next else toInt32 x) :
    ((args.windowAt predicted).1 ≤ j + 1 ∨ j + 1 = n) ∧ j < (args.windowAt predicted).2 := by
  rcases lt_or_ge predicted 0 with hneg | hnonneg
  · -- a sum that wraps leaves the whole slice
    have hlarge : 2 ^ 31 ≤ x := by
      by_contra hlt
      rw [toInt32_eq (by omega) (by omega)] at hpredicted
      split at hpredicted <;> omega
    rw [toInt32_wrap hlarge (by omega)] at hpredicted
    have hwrap : predicted = x - 2 ^ 32 := by
      split at hpredicted <;> omega
    have hend : toInt32 (predicted + args.setEpsilon + 2) = predicted + args.setEpsilon + 2 :=
      toInt32_eq (by omega) (by omega)
    simp only [DpuArguments.windowAt, hend, hsize]
    rw [if_neg (by omega), if_neg (by omega)]
    omega
  · -- otherwise nothing has wrapped
    have hsmall : x < 2 ^ 31 := by
      by_contra hge
      rw [toInt32_wrap (by omega) (by omega)] at hpredicted
      split at hpredicted <;> omega
    rw [toInt32_eq (by omega) hsmall] at hpredicted
    have hreach : (j : ℤ) ≤ predicted + args.setEpsilon + 1 := by
      split at hpredicted <;> omega
    have hbehind : predicted ≤ j + args.setEpsilon + 1 ∨ j + 1 = n := by
      by_cases hlast : last
      · simp only [hlast, true_and] at hpredicted
        split at hpredicted <;> omega
      · simp only [hlast, false_and, if_false, false_or] at hpredicted hhigh
        omega
    have hend : (if 0 ≤ toInt32 (predicted + args.setEpsilon + 2) ∧
        toInt32 (predicted + args.setEpsilon + 2) < n then
        (toInt32 (predicted + args.setEpsilon + 2)).toNat else n) > j := by
      -- an upper end that wraps is cut to the size
      rcases lt_or_ge (predicted + args.setEpsilon + 2) (2 ^ 31) with hlt | hge
      · rw [toInt32_eq (by omega) hlt]
        split <;> omega
      · rw [toInt32_wrap hge (by omega), if_neg (by omega)]
        exact hj
    simp only [DpuArguments.windowAt, hsize]
    refine ⟨?_, hend⟩
    split <;> omega

end Window

section StartLevel

variable {x : ℕ}

theorem fastLog2_nonneg (hx : 2 ≤ x) : 0 ≤ fastLog2 x := by
  have hround := (roundBits_near floatBits (Nat.cast_nonneg x)).low
  have hx' : (2 : ℚ) ≤ x := by exact_mod_cast hx
  rw [fastLog2, if_neg (by omega)]
  refine (Int.zpow_le_iff_le_log one_lt_two ?_).mp ?_
  · exact roundBits_pos (by decide) (by linarith)
  · norm_num [floatBits] at hround ⊢
    linarith

theorem fastLog2_le (hx : x ≤ maxModelSize) : fastLog2 x ≤ 11 := by
  rw [fastLog2]
  split
  case isTrue => decide
  case isFalse hne =>
    have hround := (roundBits_near floatBits (Nat.cast_nonneg x)).high
    have hx' : (x : ℚ) ≤ 2560 := by exact_mod_cast hx
    have hpos : (0 : ℚ) < x := Nat.cast_pos.mpr (Nat.pos_of_ne_zero hne)
    refine Int.lt_add_one_iff.mp
      ((Int.lt_zpow_iff_log_lt one_lt_two (roundBits_pos (by decide) hpos)).mp ?_)
    norm_num [floatBits] at hround ⊢
    linarith

/-- A level that fits into the model array is never worth skipping, so the kernel starts at the
lowest one. -/
theorem startLevel_eq_zero {args : DpuArguments}
    (hfits : args.levelOffset 1 - args.levelOffset 0 ≤ maxModelSize) (he : 0 < args.setEpsilon) :
    startLevel args = 0 := by
  have hskip : decide (accessWramCost *
      fastLog2 (args.levelOffset (0 + 1) - args.levelOffset 0) >
        predictionCost + accessWramCost * fastLog2 (2 * args.setEpsilon)) = false := by
    have hlog := fastLog2_le hfits
    have hlog' := fastLog2_nonneg (show 2 ≤ 2 * args.setEpsilon by omega)
    refine decide_eq_false ?_
    simp only [accessWramCost, predictionCost, Nat.zero_add]
    omega
  rw [startLevel]
  cases args.maxLevels with
  | zero => rfl
  | succ m => rw [List.range_succ_eq_map, List.takeWhile_cons_of_neg (by rw [hskip]; decide),
      List.length_nil]

end StartLevel

section Answer

variable {idx : PgmIndex} {args : DpuArguments} {models : ℤ → PgmModel ℚ} {mram : ℤ → DTYPE}
  {longBits parallelism n epsilon start l : ℕ} {keys : ℕ → ℕ} {q : ℕ}
  {levels : List (List (PgmModel ℚ))}

/-- The models on a DPU are those of the index. -/
theorem Launched.holds (hlaunched : Launched args models idx start)
    (hlength : idx.height = levels.length) (hmodels : Holds idx.segments idx.offset levels) :
    Holds models args.levelOffset levels where
  offset_eq l hl := by
    rw [hlaunched.levelOffset_eq l (by omega), hmodels.offset_eq l hl]
  models_eq i hi := by
    rw [hlaunched.models_eq i, hmodels.models_eq i hi]
    rw [hlength, hmodels.offset_eq _ le_rfl, List.take_length]
    exact hi

/-- The search of a slice from a window around the last key that is not above the query. -/
theorem kernelSearch_of_window {w : ℕ × ℕ} {j : ℕ}
    (hword : (n + start) * interleave ≤ 2 ^ 32)
    (hcut : IsCut (fun i : ℕ => mram i ≤ q) n (j + 1)) (hlow : w.1 ≤ j + 1 ∨ j + 1 = n)
    (hhigh : j < w.2) (hsize : w.2 ≤ n) :
    kernelSearch mram n start w q =
      if j + 1 < n then (j + start) * interleave else invaildPos := by
  have hsearch := upperBound_eq_clamp (l := w.1) hcut hsize
  have hle := hcut.le
  rcases lt_or_ge (j + 1) n with hlt | hge
  · have hend : max w.1 (min (j + 1) w.2) = j + 1 := by omega
    rw [hend] at hsearch
    rw [DpuArguments.kernelSearch_eq hword hcut hsearch (Nat.succ_pos j) hlt,
      if_pos (Or.inl rfl), if_pos hlt, Nat.add_sub_cancel]
  · rw [if_neg (by omega)]
    exact DpuArguments.kernelSearch_of_le hsearch (by omega) (by omega)

/-- The segment that the kernel ends at gives a window around the last key not above the query. -/
theorem window_spec (undefined : ℚ → ℤ)
    (h : Levels keys n (keys (n - 1)) epsilon parallelism levels)
    (hmodels : Holds models args.levelOffset levels) (hheight : args.maxLevels = levels.length)
    (hfits : levels.flatten.length ≤ maxModelSize) (hpar : parallelism ≤ 32) (he : 0 < epsilon)
    (hn : n + epsilon ≤ 2 ^ 20) (hslice : StrictIncr keys n) (hsize : args.inputSize = n)
    (hepsilon : args.setEpsilon = epsilon) (hk : keys 0 ≤ q) (hq : q < 2 ^ 64 - 1)
    (hl : l < levels.length) (hvalue : KernelConverts longBits models args.levelOffset l q) :
    ∃ j, IsLast keys n q j ∧
      ((args.window (kernelOps longBits undefined) models l q).1 ≤ j + 1 ∨ j + 1 = n) ∧
      j < (args.window (kernelOps longBits undefined) models l q).2 := by
  have hpos := h.pos
  obtain ⟨i, hcur, hsel⟩ := curOffset_spec h hmodels hheight hfits hpar he hn hk hq undefined hl
    hvalue
  obtain ⟨M, j, hkeys, hj, hpredicts⟩ := h.predicts hmodels hpar he hn hpos hsel hk
  have hzero : args.levelOffset 0 = 0 := hmodels.offset_eq 0 (Nat.zero_le _)
  have hone := hmodels.offset_succ hpos
  have hconverts := hvalue 0 (Nat.zero_le l) i (by rwa [hmodels.levelOf_eq hpos])
  rw [if_pos rfl] at hconverts
  simp only [hzero, Nat.zero_add] at hcur hone hpredicts hconverts
  simp only [levelKeys, levelCount, levelEpsilon] at hkeys hj hpredicts
  obtain rfl := hkeys.count_eq hslice
  -- at the lowest level the arithmetic is exact up to the last 32-bit sum
  have hdelta : DpuArguments.keyDelta models (i : ℕ) q = q - (models (i : ℕ)).key := by
    rw [DpuArguments.keyDelta, Nat.sub_add_comm hpredicts.key_le, Nat.add_mod_right,
      Nat.mod_eq_of_lt ((Nat.sub_le _ _).trans_lt (by omega))]
  have hconvert := convert_eq_floor 32 undefined
    (floatProduct_nonneg hpredicts.slope_nonneg (q - (models (i : ℕ)).key)) hconverts
  have hjM := hj.1
  obtain ⟨hfloor, hlow, hhigh, -⟩ := hpredicts.floor_bounds (by omega)
  have hfloorLt : ⌊floatProduct (models (i : ℕ)).slope (q - (models (i : ℕ)).key)⌋ < 2 ^ 31 :=
    Int.floor_lt.mpr (by exact_mod_cast hconverts)
  have hintercept := hpredicts.intercept_nonneg
  have hinterceptLe := hpredicts.intercept_le
  refine ⟨j, hj, ?_⟩
  rw [DpuArguments.window, hcur]
  have hsucc : ((i : ℕ) : ℤ) + 1 = (i + 1 : ℕ) := (Nat.cast_succ i).symm
  -- a prediction is clamped by the next intercept but at the last segment
  have hpredicted : args.predictedPos (kernelOps longBits undefined) models q (i : ℕ) =
      if i + 2 < (levels.getD 0 []).length ∧ (models (i + 1 : ℕ)).intercept <
          toInt32 (⌊floatProduct (models (i : ℕ)).slope (q - (models (i : ℕ)).key)⌋ +
            (models (i : ℕ)).intercept) then (models (i + 1 : ℕ)).intercept
      else toInt32 (⌊floatProduct (models (i : ℕ)).slope (q - (models (i : ℕ)).key)⌋ +
        (models (i : ℕ)).intercept) := by
    have hclamp : (i : ℤ) + 1 < (args.levelOffset 1 : ℤ) - 1 ↔
        i + 2 < (levels.getD 0 []).length := by omega
    rw [DpuArguments.predictedPos]
    simp only [kernelOps, hdelta, hconvert, hsucc, ← hclamp]
  refine windowAt_spec hsize (by omega) hj.1 (by omega) (by omega) (by omega)
    hpredicts.next_nonneg ?_ ?_ hpredicted
  · have hnext := hpredicts.le_next
    omega
  · rw [hepsilon]
    exact hhigh

/-- The kernel's answer from any level of a trained index. -/
theorem searchAnswer_level (undefined : ℚ → ℤ) (hpar : 1 ≤ parallelism) (hpar' : parallelism ≤ 32)
    (h : Slice keys n) (hlast : keys (n - 1) < 2 ^ 64 - 1) (he : 0 < epsilon)
    (hbits : n + epsilon ≤ 2 ^ 20) (htrained : idx.IsTrained parallelism keys n epsilon)
    (hlaunched : Launched args models idx start) (hmram : ∀ i < n, mram i = keys i)
    (hk : keys 0 ≤ q) (hq : q < 2 ^ 64 - 1) (hl : l < args.maxLevels)
    (hvalue : KernelConverts longBits models args.levelOffset l q) :
    args.searchAnswer (kernelOps longBits undefined) models mram l q =
      if rank keys n q < n then (rank keys n q - 1 + start) * interleave else invaildPos := by
  obtain ⟨levels, hlevels, -, hlength, hmodels⟩ := htrained.exists_levels hpar hpar' h he hbits
  have hused : usedCount keys n = n := by
    rw [usedCount, if_neg hlast.ne, Nat.sub_zero]
  rw [hused] at hlevels
  have hheight : idx.height = levels.length := by
    rw [PgmIndex.height, hlength, Nat.add_sub_cancel]
  have hmodels' := hlaunched.holds hheight hmodels
  have hmax : args.maxLevels = levels.length := hlaunched.maxLevels_eq.trans hheight
  have hsize : args.inputSize = n := hlaunched.inputSize_eq.trans htrained.n_eq
  have hfits : levels.flatten.length ≤ maxModelSize := by
    have hfits := hlaunched.fits
    rwa [hheight, hmodels.offset_eq _ le_rfl, List.take_length] at hfits
  obtain ⟨j, hj, hlow, hhigh⟩ := window_spec undefined hlevels hmodels' hmax hfits hpar' he hbits
    h.increasing hsize (hlaunched.setEpsilon_eq.trans htrained.epsilon_eq) hk hq (by omega) hvalue
  rw [← hused] at hj
  have hrank := PgmIndex.rank_eq_of_isLast h hq hj
  have hcut : IsCut (fun i : ℕ => mram i ≤ q) n (j + 1) := by
    have hcut := h.increasing.isCut_rank q
    rw [hrank] at hcut
    exact ⟨hcut.le, fun i hi => by rw [hmram i hi]; exact hcut.iff i hi⟩
  have hword := args.pos_word
  rw [hsize, hlaunched.startPos_eq] at hword
  rw [DpuArguments.searchAnswer, hsize, hlaunched.startPos_eq, hrank, Nat.add_sub_cancel]
  refine kernelSearch_of_window hword hcut hlow hhigh ?_
  rw [← hsize]
  exact DpuArguments.windowAt_le args _

section Trained

variable (hpar : 1 ≤ parallelism) (hpar' : parallelism ≤ 32) (h : Slice keys n) (he : 0 < epsilon)
  (hbits : n + epsilon ≤ 2 ^ 20) (htrained : idx.IsTrained parallelism keys n epsilon)

include hpar hpar' h he hbits htrained

/-- The models of a slice of at most 2500 error intervals fit. -/
theorem launched_inputArguments (hwidth : n ≤ 2500 * (2 * epsilon + 1)) (start : ℕ)
    (hepsilon : idx.epsilon < 2 ^ 31) (hword : (idx.n + start) * interleave ≤ 2 ^ 32) :
    Launched (inputArguments idx start hepsilon hword) idx.segments idx start := by
  obtain ⟨levels, hlevels, -, hlength, hmodels⟩ := htrained.exists_levels hpar hpar' h he hbits
  have hle := h.usedCount_bounds.2.1
  refine ⟨rfl, rfl, fun _ _ => rfl, rfl, rfl, ?_, fun _ _ => rfl⟩
  rw [PgmIndex.height, hlength, Nat.add_sub_cancel, hmodels.offset_eq _ le_rfl, List.take_length]
  exact hlevels.size_le hpar' (by omega) (by omega)

variable (hlaunched : Launched args models idx start)

include hlaunched

/-- The costs that the kernel compares always make it start at the lowest level. -/
theorem Launched.startLevel_eq : startLevel args = 0 := by
  obtain ⟨levels, hlevels, -, hlength, hmodels⟩ := htrained.exists_levels hpar hpar' h he hbits
  have hheight : idx.height = levels.length := by
    rw [PgmIndex.height, hlength, Nat.add_sub_cancel]
  have hfits := hlaunched.fits
  have hmodels' := hlaunched.holds hheight hmodels
  refine startLevel_eq_zero ?_ (by rwa [hlaunched.setEpsilon_eq, htrained.epsilon_eq])
  calc args.levelOffset 1 - args.levelOffset 0 ≤ args.levelOffset 1 := Nat.sub_le _ _
    _ ≤ args.levelOffset levels.length := hmodels'.offset_mono hlevels.pos le_rfl
    _ ≤ maxModelSize := by rwa [← hheight, hlaunched.levelOffset_eq _ le_rfl]

/-- The conversions for a key of the slice have values. -/
theorem Launched.kernelConverts (longBits : ℕ) (hmem : ∃ j < n, keys j = q) (hq : q < 2 ^ 64 - 1) :
    KernelConverts longBits models args.levelOffset 0 q := by
  obtain ⟨levels, hlevels, -, hlength, hmodels⟩ := htrained.exists_levels hpar hpar' h he hbits
  obtain ⟨hused, hle, hle'⟩ := h.usedCount_bounds
  have hheight : idx.height = levels.length := by
    rw [PgmIndex.height, hlength, Nat.add_sub_cancel]
  have hmodels' := hlaunched.holds hheight hmodels
  intro l hl i hsel
  obtain rfl : l = 0 := by omega
  rw [hmodels'.levelOf_eq hlevels.pos] at hsel
  obtain ⟨j, hj, rfl⟩ := hmem
  have hk := h.increasing.le (Nat.zero_le j) hj
  obtain ⟨M, j', hkeys, hj', hpredicts⟩ := hlevels.predicts hmodels' hpar' he (by omega)
    hlevels.pos hsel hk
  simp only [levelKeys, levelCount, levelEpsilon] at hkeys hj' hpredicts
  obtain rfl := hkeys.count_eq (h.increasing.mono hle)
  obtain rfl := PgmIndex.isLast_keys_eq h hj hq hj'
  have hjM := hj'.1
  have hbound := hpredicts.present_high ⟨rfl, h.increasing.le (Nat.le_sub_one_of_lt hjM) (by omega)⟩
  have hslack := slack_lt_one (show j' + epsilon < 2 ^ 21 by omega)
  have hintercept : (0 : ℚ) ≤ (models (args.levelOffset 0 + i : ℕ)).intercept :=
    Int.cast_nonneg hpredicts.intercept_nonneg
  have hplace : (j' : ℚ) + epsilon ≤ 2 ^ 21 := by exact_mod_cast (by omega : j' + epsilon ≤ 2 ^ 21)
  rw [if_pos rfl]
  linarith

end Trained

/-- On a trained index the kernel is exact for every query whose conversions have values: it starts
at the lowest level, and from every level it leads to the block before the rank of the query, or
leaves a query behind the slice to the host. -/
theorem searchAnswer_trained (idx : PgmIndex) (args : DpuArguments) (models : ℤ → PgmModel ℚ)
    (mram : ℤ → DTYPE) (undefined : ℚ → ℤ) (longBits parallelism n epsilon start : ℕ)
    (keys : ℕ → ℕ) (q : ℕ) (hpar : 1 ≤ parallelism) (hpar' : parallelism ≤ 32) (h : Slice keys n)
    (hlast : keys (n - 1) < 2 ^ 64 - 1) (he : 0 < epsilon) (hbits : n + epsilon ≤ 2 ^ 20)
    (htrained : idx.IsTrained parallelism keys n epsilon)
    (hlaunched : Launched args models idx start) (hmram : ∀ i < n, mram i = keys i)
    (hk : keys 0 ≤ q) (hq : q < 2 ^ 64 - 1) :
    startLevel args = 0 ∧ ∀ l < args.maxLevels,
      KernelConverts longBits models args.levelOffset l q →
      args.searchAnswer (kernelOps longBits undefined) models mram l q =
        if rank keys n q < n then (rank keys n q - 1 + start) * interleave else invaildPos :=
  ⟨hlaunched.startLevel_eq hpar hpar' h he hbits htrained, fun _ hl hvalue =>
    searchAnswer_level undefined hpar hpar' h hlast he hbits htrained hlaunched hmram hk hq hl
      hvalue⟩

theorem searchAnswer_trained_thirds : ∃ (idx : PgmIndex) (args : DpuArguments),
    idx.IsTrained 8 thirds 100000 64 ∧ Launched args idx.segments idx 0 ∧ startLevel args = 0 ∧
      ∀ i < 100000, args.searchAnswer (kernelOps 32 truncate) idx.segments
        (fun j => thirds j.toNat) 0 (thirds i) =
          if rank thirds 100000 (thirds i) < 100000 then
            (rank thirds 100000 (thirds i) - 1 + 0) * interleave
          else invaildPos := by
  have h : Slice thirds 100000 := slice_thirds (by norm_num) (by norm_num)
  obtain ⟨idx, -, htrained⟩ : ∃ idx, PgmIndex.train 8 thirds 100000 64 = .ok idx ∧
      idx.IsTrained 8 thirds 100000 64 :=
    PgmIndex.exists_trained (by norm_num) (by norm_num) h (by norm_num) (by norm_num)
  have hepsilon : idx.epsilon < 2 ^ 31 := by
    rw [htrained.epsilon_eq]
    norm_num
  have hword : (idx.n + 0) * interleave ≤ 2 ^ 32 := by
    rw [htrained.n_eq]
    norm_num
  have hlaunched := launched_inputArguments (by norm_num) (by norm_num) h (by norm_num)
    (by norm_num) htrained (by norm_num) 0 hepsilon hword
  have hlevels : 0 < (inputArguments idx 0 hepsilon hword).maxLevels := by
    obtain ⟨levels, hlevels, -, hlength, -⟩ := htrained.exists_levels (by norm_num) (by norm_num) h
      (by norm_num) (by norm_num)
    change 0 < idx.height
    rw [PgmIndex.height, hlength, Nat.add_sub_cancel]
    exact hlevels.pos
  have hanswer : ∀ i < 100000, startLevel (inputArguments idx 0 hepsilon hword) = 0 ∧ _ :=
    fun i hi => searchAnswer_trained idx (inputArguments idx 0 hepsilon hword) idx.segments
      (fun j => thirds j.toNat) truncate 32 8 100000 64 0 thirds (thirds i) (by norm_num)
      (by norm_num) h (by decide) (by norm_num) (by norm_num) htrained hlaunched (fun _ _ => rfl)
      (h.increasing.le (Nat.zero_le i) hi) (by rw [thirds]; omega)
  refine ⟨idx, _, htrained, hlaunched, (hanswer 0 (by norm_num)).1, fun i hi => ?_⟩
  exact (hanswer i hi).2 0 hlevels (hlaunched.kernelConverts (by norm_num) (by norm_num) h
    (by norm_num) (by norm_num) htrained 32 ⟨i, hi, rfl⟩ (by rw [thirds]; omega))

end Answer

end PimLex.Pgm
