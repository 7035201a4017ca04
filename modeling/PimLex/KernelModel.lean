import PimLex.Kernel

/-!
# The kernel's learned window

Level by level the models lead to a segment of the lowest level, and the segment
to a window of the slice. Slopes are floating-point numbers; what the kernel
computes with them is a parameter, so nothing below rests on how good a
prediction is.

The answer needs the window only to contain the rank of the query. Otherwise the
two-key check refuses it, except at the last key of the slice, where a failed
check is passed over.
-/

namespace PimLex

open Search

/-- `pgm_model_t`, over the type of its slopes. -/
structure PgmModel (Slope : Type) where
  key : DTYPE
  slope : Slope
  intercept : ℤ

/-- What is computed with a slope: `(int)(slope * x)`, and `slope * x + intercept` as a `long`. -/
structure SlopeOps (Slope : Type) where
  toInt : Slope → DTYPE → ℤ
  toLong : Slope → DTYPE → ℤ → ℤ

/-- `dpu_arguments_t`, without `kernel`. `setEpsilon` survives the kernel's cast to `int`, and the
positions of the slice the `uint32_t` of an answer. -/
structure DpuArguments where
  inputSize : ℕ
  maxLevels : ℕ
  levelOffset : ℕ → ℕ
  startPos : ℕ
  setEpsilon : ℕ
  epsilon_int : setEpsilon < 2 ^ 31
  pos_word : (inputSize + startPos) * interleave ≤ 2 ^ 32

/-- `EpsilonRecursive_dpu`. -/
abbrev epsilonRecursive : ℤ := 64

namespace DpuArguments

variable {Slope : Type} (args : DpuArguments) (ops : SlopeOps Slope) (models : ℤ → PgmModel Slope)

/-- `searching_for - model_array[cur].key`, an unsigned difference. -/
def keyDelta (models : ℤ → PgmModel Slope) (cur : ℤ) (q : DTYPE) : DTYPE :=
  (q + 2 ^ 64 - (models cur).key) % 2 ^ 64

/-- The search of level `startLevel` for its segment, one before what the loop ends with. In a
level that starts above the query that is a model outside of the level. -/
def topSegment (startLevel : ℕ) (q : DTYPE) : ℤ :=
  upperBound (fun i : ℕ => (models i).key) q (args.levelOffset startLevel)
    (args.levelOffset (startLevel + 1) - 1) - 1

/-- The scan to the right, up to the end of the top level. -/
def scanRight (q : DTYPE) : ℕ → ℤ → ℤ
  | 0, cur => cur
  | fuel + 1, cur =>
    if cur + 1 < args.levelOffset args.maxLevels ∧ (models (cur + 1)).key ≤ q then
      scanRight q fuel (cur + 1)
    else cur

/-- From a segment to the one it leads to in level `curLevel`. -/
def nextSegment (q : DTYPE) (cur : ℤ) (curLevel : ℕ) : ℤ :=
  let top : ℤ := args.levelOffset args.maxLevels
  let pos := ops.toLong (models cur).slope (keyDelta models cur q) (models cur).intercept
  let pos := if pos < 0 then 0 else pos
  let pos := if cur < top ∧ pos > (models (cur + 1)).intercept then (models (cur + 1)).intercept
    else pos
  let pos := if pos > epsilonRecursive + 1 then pos - epsilonRecursive - 1 else 0
  let lo := toInt32 (args.levelOffset curLevel + pos)
  args.scanRight models q (top - lo).toNat lo

/-- `cur_offset` after the recursive levels, from `start_level` down. -/
def curOffset (startLevel : ℕ) (q : DTYPE) : ℤ :=
  (List.range startLevel).reverse.foldl (args.nextSegment ops models q)
    (args.topSegment models startLevel q)

/-- `predicted_pos`, clamped by the next segment of the level unless that is the sentinel. -/
def predictedPos (q : DTYPE) (cur : ℤ) : ℤ :=
  let predicted :=
    toInt32 (ops.toInt (models cur).slope (keyDelta models cur q) + (models cur).intercept)
  if cur + 1 < (args.levelOffset 1 : ℤ) - 1 ∧ (models (cur + 1)).intercept < predicted then
    (models (cur + 1)).intercept
  else predicted

/-- The window `[l, r)` of the slice that a prediction gives. -/
def windowAt (predicted : ℤ) : ℕ × ℕ :=
  let l := if predicted > args.setEpsilon then (predicted - args.setEpsilon).toNat else 0
  let r := toInt32 (predicted + args.setEpsilon + 2)
  -- `input_size` is unsigned, so a negative `r` is above it
  (l, if 0 ≤ r ∧ r < args.inputSize then r.toNat else args.inputSize)

/-- The window the kernel searches for a query. -/
def window (startLevel : ℕ) (q : DTYPE) : ℕ × ℕ :=
  args.windowAt (args.predictedPos ops models q (args.curOffset ops models startLevel q))

/-- `main_kernel1` for `op_type == 1`, for one query. -/
def searchAnswer (mram : ℤ → DTYPE) (startLevel : ℕ) (q : DTYPE) : ℕ :=
  kernelSearch mram args.inputSize args.startPos (args.window ops models startLevel q) q

variable {args ops models} {mram : ℤ → DTYPE} {startLevel : ℕ} {q : DTYPE}

theorem windowAt_le (args : DpuArguments) (predicted : ℤ) :
    (args.windowAt predicted).2 ≤ args.inputSize := by
  simp only [windowAt]
  split_ifs <;> omega

theorem curOffset_zero : args.curOffset ops models 0 q = args.topSegment models 0 q := rfl

/-- Without an upper level the kernel selects the last segment before the sentinel whose key is at
most the query. -/
theorem exists_topSegment (hlevel : args.levelOffset 0 = 0) (hsegs : 2 ≤ args.levelOffset 1)
    (hmodels : ∀ i j : ℕ, i < j → j + 1 < args.levelOffset 1 → (models i).key ≤ (models j).key)
    (hfirst : (models 0).key ≤ q) :
    ∃ s : ℕ, args.topSegment models 0 q = s ∧ s + 1 < args.levelOffset 1 ∧ (models s).key ≤ q ∧
      ∀ j : ℕ, s < j → j + 1 < args.levelOffset 1 → q < (models j).key := by
  have hmono : ∀ i j : ℕ, i < j → j < args.levelOffset 1 - 1 → (models i).key ≤ (models j).key :=
    fun i j hij hj => hmodels i j hij (by omega)
  have hcut := isCut_rank hmono q
  have hbound := upperBound_eq_rank hcut (Nat.zero_le _) hcut.le le_rfl
  generalize rank (fun i : ℕ => (models i).key) (args.levelOffset 1 - 1) q = c at hcut hbound
  have hpos : 0 < c := (hcut.iff 0 (by omega)).mp hfirst
  obtain ⟨s, rfl⟩ : ∃ s, c = s + 1 := ⟨c - 1, by omega⟩
  have hle := hcut.le
  refine ⟨s, ?_, by omega, (hcut.iff s (by omega)).mpr s.lt_succ_self, fun j hsj hj => ?_⟩
  · rw [topSegment, hlevel, hbound]
    omega
  · exact not_le.mp (mt (hcut.iff j (by omega)).mp (by omega))

/-- A search that ends behind the slice is left to the host. -/
theorem kernelSearch_of_le {inputSize startPos l : ℕ} {w : ℕ × ℕ}
    (hl : upperBound (fun i : ℕ => mram i) q w.1 w.2 = l) (hpos : 0 < l) (hle : inputSize ≤ l) :
    kernelSearch mram inputSize startPos w q = invaildPos := by
  rw [kernelSearch, hl]
  simp only [gt_iff_lt]
  rw [if_pos (by omega)]

/-- So is one that ends at the start of a slice of two keys or more. -/
theorem kernelSearch_of_zero {inputSize startPos : ℕ} {w : ℕ × ℕ}
    (hl : upperBound (fun i : ℕ => mram i) q w.1 w.2 = 0) (hsize : 2 ≤ inputSize)
    (hq : mram 0 ≤ q) : kernelSearch mram inputSize startPos w q = invaildPos := by
  have hcheck : ¬(mram ((0 : ℕ) - 1 : ℤ) ≤ q ∧ mram (0 : ℕ) > q) :=
    fun h => absurd h.2 (not_lt.mpr hq)
  rw [kernelSearch, hl]
  simp only [gt_iff_lt]
  rw [if_neg (by omega), if_neg hcheck, if_neg (by omega)]

/-- The two keys around place `l` hold the query between them exactly when `l` is its rank. -/
theorem check_iff {S c l : ℕ} (hcut : IsCut (fun i : ℕ => mram i ≤ q) S c) (hpos : 0 < l)
    (hlt : l < S) : (mram (l - 1) ≤ q ∧ q < mram l) ↔ l = c := by
  have hcast : (l : ℤ) - 1 = (l - 1 : ℕ) := by omega
  have hlow : mram ((l : ℤ) - 1) ≤ q ↔ l - 1 < c := by
    rw [hcast]
    exact hcut.iff (l - 1) (by omega)
  have hhigh := not_congr (hcut.iff l hlt)
  rw [not_le] at hhigh
  rw [hlow, hhigh]
  omega

/-- The kernel's last stage inside the slice, by where its search ends. -/
theorem kernelSearch_eq {inputSize startPos c l : ℕ} {w : ℕ × ℕ}
    (hword : (inputSize + startPos) * interleave ≤ 2 ^ 32)
    (hcut : IsCut (fun i : ℕ => mram i ≤ q) inputSize c)
    (hl : upperBound (fun i : ℕ => mram i) q w.1 w.2 = l) (hpos : 0 < l) (hlt : l < inputSize) :
    kernelSearch mram inputSize startPos w q =
      if l = c ∨ l = inputSize - 1 then (l - 1 + startPos) * interleave else invaildPos := by
  have hfound : (l + 2 ^ 32 - 1 + startPos) * interleave % 2 ^ 32 =
      (l - 1 + startPos) * interleave := by
    simp only [interleave] at hword ⊢
    omega
  have hcheck := check_iff hcut hpos hlt
  rw [kernelSearch, hl]
  simp only [hfound, gt_iff_lt]
  rw [if_neg (by omega)]
  by_cases hc : l = c
  · rw [if_pos (hcheck.mpr hc), if_pos (Or.inl hc)]
  · rw [if_neg (mt hcheck.mp hc)]
    simp only [hc, false_or]

/-- With a window that brackets the rank of the query the kernel is exact: it leads from the last
segment at or below the query to the rank, and leaves the host the queries behind the slice. -/
theorem searchAnswer_exact (args : DpuArguments) (ops : SlopeOps Slope)
    (models : ℤ → PgmModel Slope) (mram : ℤ → DTYPE) (q : DTYPE)
    (hsize : 1 ≤ args.inputSize)
    (hslice : StrictIncr (fun i : ℕ => mram i) args.inputSize) (hq : mram 0 ≤ q)
    (hlevel : args.levelOffset 0 = 0) (hsegs : 2 ≤ args.levelOffset 1)
    (hmodels : ∀ i j : ℕ, i < j → j + 1 < args.levelOffset 1 → (models i).key ≤ (models j).key)
    (hfirst : (models 0).key ≤ q) :
    ∃ s : ℕ, args.curOffset ops models 0 q = s ∧ s + 1 < args.levelOffset 1 ∧
      (models s).key ≤ q ∧
      (∀ j : ℕ, s < j → j + 1 < args.levelOffset 1 → q < (models j).key) ∧
      ((args.window ops models 0 q).1 ≤ rank (fun i : ℕ => mram i) args.inputSize q →
        rank (fun i : ℕ => mram i) args.inputSize q ≤ (args.window ops models 0 q).2 →
        args.searchAnswer ops models mram 0 q =
          if rank (fun i : ℕ => mram i) args.inputSize q < args.inputSize then
            (rank (fun i : ℕ => mram i) args.inputSize q - 1 + args.startPos) * interleave
          else invaildPos) := by
  obtain ⟨s, hs, hlast, hkey, hnext⟩ := exists_topSegment hlevel hsegs hmodels hfirst
  refine ⟨s, by rw [curOffset_zero, hs], hlast, hkey, hnext, fun hlow hhigh => ?_⟩
  have hcut := hslice.isCut_rank q
  have hl := upperBound_eq_rank hcut hlow hhigh (windowAt_le args _)
  generalize rank (fun i : ℕ => mram i) args.inputSize q = c at hcut hl ⊢
  have hpos : 0 < c := (hcut.iff 0 (by omega)).mp hq
  rw [searchAnswer]
  split_ifs with hc
  · rw [kernelSearch_eq args.pos_word hcut hl hpos hc, if_pos (Or.inl rfl)]
  · exact kernelSearch_of_le hl hpos (by omega)

/-- Slopes that are whole numbers. -/
def wholeSlopes : SlopeOps ℕ where
  toInt slope x := slope * x
  toLong slope x intercept := slope * x + intercept

/-- A flat segment, and the sentinel behind it. -/
def flatModels (i : ℤ) : PgmModel ℕ :=
  if i = 0 then ⟨10, 0, 0⟩ else ⟨2 ^ 64 - 1, 0, 4⟩

/-- A slice of four keys with one segment. -/
def fourArguments : DpuArguments where
  inputSize := 4
  maxLevels := 1
  levelOffset level := 2 * level
  startPos := 0
  setEpsilon := 1
  epsilon_int := by decide
  pos_word := by decide

/-- The keys 10, 20, 30 and 40. -/
def tensMram (i : ℤ) : DTYPE := 10 * (i.toNat + 1)

theorem strictIncr_tensMram (n : ℕ) : StrictIncr (fun i : ℕ => tensMram i) n := by
  intro i j hij _
  have hlt : 10 * (i + 1) < 10 * (j + 1) := by omega
  simpa only [tensMram, Int.toNat_natCast] using hlt

/-- The flat segment predicts place 0 and the window `[0, 3)`, which brackets the rank of 25. -/
theorem searchAnswer_exact_four :
    ∃ s : ℕ, fourArguments.curOffset wholeSlopes flatModels 0 25 = s ∧
      fourArguments.searchAnswer wholeSlopes flatModels tensMram 0 25 = 8 := by
  obtain ⟨s, hs, -, -, -, hanswer⟩ := searchAnswer_exact fourArguments wholeSlopes flatModels
    tensMram 25 (by decide) (strictIncr_tensMram 4) (by decide) rfl (by decide)
    (fun i j hij hj => by simp only [fourArguments] at hj; omega) (by decide)
  exact ⟨s, hs, (hanswer (by decide) (by decide)).trans (by decide)⟩

/-- An answer that is no `INVAILD_POS` is the position of the block with the query. -/
def AnswerSound (args : DpuArguments) (mram : ℤ → DTYPE) (q : DTYPE) (answer : ℕ) : Prop :=
  answer ≠ invaildPos → ∃ i : ℕ, i + 1 < args.inputSize ∧ mram i ≤ q ∧ q < mram (i + 1 : ℕ) ∧
    answer = (i + args.startPos) * interleave

/-- A search that stops at the last key answers without the check, so the answer is right only for
the queries of the block before that key. -/
theorem kernelSearch_sound_iff {c l : ℕ} {w : ℕ × ℕ}
    (hcut : IsCut (fun i : ℕ => mram i ≤ q) args.inputSize c)
    (hl : upperBound (fun i : ℕ => mram i) q w.1 w.2 = l) (hsize : 2 ≤ args.inputSize)
    (hq : mram 0 ≤ q) :
    args.AnswerSound mram q (kernelSearch mram args.inputSize args.startPos w q) ↔
      ((l = args.inputSize - 1 → c = args.inputSize - 1) ∨
        (args.inputSize - 2 + args.startPos) * interleave = invaildPos) := by
  rcases Nat.eq_zero_or_pos l with rfl | hpos
  · exact iff_of_true (fun h => absurd (kernelSearch_of_zero hl hsize hq) h)
      (Or.inl fun h => by omega)
  rcases Nat.lt_or_ge l args.inputSize with hlt | hge
  case inr =>
    exact iff_of_true (fun h => absurd (kernelSearch_of_le hl hpos hge) h)
      (Or.inl fun h => by omega)
  rw [AnswerSound, kernelSearch_eq args.pos_word hcut hl hpos hlt]
  have hcast : ((l - 1 : ℕ) : ℤ) = (l : ℤ) - 1 := by omega
  by_cases hc : l = c
  · -- the check confirms the search
    have hcheck := (check_iff hcut hpos hlt).mpr hc
    rw [if_pos (Or.inl hc)]
    refine iff_of_true (fun _ => ⟨l - 1, by omega, ?_, ?_, rfl⟩) (Or.inl fun h => by omega)
    · rw [hcast]
      exact hcheck.1
    · rw [Nat.sub_add_cancel hpos]
      exact hcheck.2
  by_cases hend : l = args.inputSize - 1
  · -- the exception at the end of the slice, taken after the check has failed
    rw [if_pos (Or.inr hend)]
    have hplace : l - 1 = args.inputSize - 2 := by omega
    constructor
    · intro hsound
      right
      rw [← hplace]
      by_contra hne
      obtain ⟨i, hi, hlow, hhigh, heq⟩ := hsound hne
      have hil : i = l - 1 := by
        simp only [interleave] at heq
        omega
      subst hil
      rw [hcast] at hlow
      rw [Nat.sub_add_cancel hpos] at hhigh
      exact hc ((check_iff hcut hpos hlt).mp ⟨hlow, hhigh⟩)
    · rintro (hlast | hinvalid)
      · exact absurd (hend.trans (hlast hend).symm) hc
      · rw [hplace, hinvalid]
        exact fun h => absurd rfl h
  · rw [if_neg (not_or.mpr ⟨hc, hend⟩)]
    exact iff_of_true (fun h => absurd rfl h) (Or.inl fun h => absurd h hend)

/-- A position is wrong only when the search stops at the last key of the slice and the query is
not in the block before it. For a query below that block the window has to start at the last key,
for one behind it the window has to end there. -/
theorem searchAnswer_sound_iff (args : DpuArguments) (ops : SlopeOps Slope)
    (models : ℤ → PgmModel Slope) (mram : ℤ → DTYPE) (startLevel : ℕ) (q : DTYPE)
    (hsize : 2 ≤ args.inputSize)
    (hslice : StrictIncr (fun i : ℕ => mram i) args.inputSize) (hq : mram 0 ≤ q) :
    args.AnswerSound mram q (args.searchAnswer ops models mram startLevel q) ↔
      ((q < mram (args.inputSize - 2 : ℕ) →
          (args.window ops models startLevel q).1 ≠ args.inputSize - 1) ∧
        (mram (args.inputSize - 1 : ℕ) ≤ q →
          max (args.window ops models startLevel q).1 (args.window ops models startLevel q).2 ≠
            args.inputSize - 1)) ∨
      (args.inputSize - 2 + args.startPos) * interleave = invaildPos := by
  have hcut := hslice.isCut_rank q
  have hend : (args.window ops models startLevel q).2 ≤ args.inputSize := windowAt_le args _
  rw [searchAnswer, kernelSearch_sound_iff hcut (upperBound_eq_clamp hcut hend) hsize hq]
  have hle := hcut.le
  have hlow := not_congr (hcut.iff (args.inputSize - 2) (by omega))
  have hhigh := hcut.iff (args.inputSize - 1) (by omega)
  rw [not_le] at hlow
  rw [hlow, hhigh]
  generalize rank (fun i : ℕ => mram i) args.inputSize q = c at hle ⊢
  refine or_congr_left ?_
  omega

/-- The flat segment's window `[0, 3)` ends before the rank of 45, and the kernel answers with the
block from 30 to 40. -/
theorem searchAnswer_four_unsound :
    StrictIncr (fun i : ℕ => tensMram i) fourArguments.inputSize ∧ tensMram 0 ≤ 45 ∧
      fourArguments.searchAnswer wholeSlopes flatModels tensMram 0 45 = 16 ∧
      ¬ fourArguments.AnswerSound tensMram 45
        (fourArguments.searchAnswer wholeSlopes flatModels tensMram 0 45) := by
  have hanswer : fourArguments.searchAnswer wholeSlopes flatModels tensMram 0 45 = 16 := by decide
  refine ⟨strictIncr_tensMram 4, by decide, hanswer, fun hsound => ?_⟩
  obtain ⟨i, hi, -, hhigh, -⟩ := hsound (by rw [hanswer]; decide)
  have hlt : 45 < 10 * (i + 1 + 1) := by simpa only [tensMram, Int.toNat_natCast] using hhigh
  simp only [fourArguments] at hi
  omega

/-- For 25 the same window is sound. -/
theorem searchAnswer_four_sound :
    fourArguments.AnswerSound tensMram 25
      (fourArguments.searchAnswer wholeSlopes flatModels tensMram 0 25) :=
  (searchAnswer_sound_iff fourArguments wholeSlopes flatModels tensMram 0 25 (by decide)
    (strictIncr_tensMram 4) (by decide)).mpr (Or.inl (by decide))

end DpuArguments

end PimLex
