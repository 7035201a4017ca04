import PimLex.KernelModel
import Mathlib.Data.Nat.Bitwise
import Mathlib.Data.Rat.Floor

/-!
# Predictions from a table

With a lookup table the kernel does not evaluate a segment. The table divides the
keys that share the prefix of two neighbouring segments into 16 blocks and holds
the prediction at the start of each; a query is searched for between the entries of
its block and of the next. The plain path clamps a prediction with the intercept of
the next segment. The table does so only from the key of the next segment on, and
the starts of its blocks are computed in 64 bits, its entries in 32.
-/

namespace PimLex

/-- `MAX_LUT_SIZE`. -/
abbrev maxLutSize : ℕ := 16

/-- `MORE_SHIFT_NUM`. -/
abbrev moreShiftNum : ℕ := 4

/-- The loop of `longest_common_prefix`: the shifts after which nothing is left. -/
def shiftCount (xorResult : ℕ) : ℕ :=
  if xorResult > 0 then shiftCount (xorResult >>> 1) + 1 else 0
termination_by xorResult
decreasing_by
  rw [Nat.shiftRight_one]
  omega

/-- `longest_common_prefix`. -/
def longestCommonPrefix (a b : ℕ) : ℕ :=
  let xorResult := a ^^^ b
  if xorResult = 0 then 64 else 64 - shiftCount xorResult

/-- `(int32_t) x` of a number that is not negative; `none` where that is undefined. -/
def castInt32 (x : ℚ) : Option ℤ := if ⌊x⌋ < 2 ^ 31 then some ⌊x⌋ else none

/-- A sum of two `int32_t`, the first not negative; `none` where it overflows. -/
def addInt32 (x y : ℤ) : Option ℤ := if x + y < 2 ^ 31 then some (x + y) else none

namespace PgmModel

variable (seg next : PgmModel ℚ)

/-- `shift_len` of the table between two segments. -/
def shiftLen : ℕ := 64 - longestCommonPrefix seg.key next.key - moreShiftNum

/-- `tempbasekey` of entry `j`, in 64 bits. -/
def tempBaseKey (j : ℕ) : ℕ :=
  (((seg.key >>> shiftLen seg next) + j) % 2 ^ 64) <<< shiftLen seg next % 2 ^ 64

/-- `pos[j]`; `none` for an entry computed outside the range of an `int32_t`. -/
def lutPos (j : ℕ) : Option ℤ :=
  if j = maxLutSize then some next.intercept
  else
    let tempbasekey := tempBaseKey seg next j
    if tempbasekey ≤ seg.key then some seg.intercept
    else if tempbasekey ≥ next.key then some next.intercept
    else (castInt32 (seg.slope * (tempbasekey - seg.key : ℕ))).bind (addInt32 · seg.intercept)

/-- The index the kernel looks a query up with. -/
def lutIndex (q : DTYPE) : ℕ := (q >>> shiftLen seg next) - (seg.key >>> shiftLen seg next)

/-- The value of a segment at a key, before it is clamped. -/
def valueAt (k : DTYPE) : ℤ := ⌊seg.slope * (k - seg.key : ℕ)⌋ + seg.intercept

/-- The clamped prediction of the plain path. -/
def prediction (q : DTYPE) : ℤ := min (seg.valueAt q) next.intercept

/-- The window the kernel searches between two entries, `l` and `r`. -/
def lutWindowAt (args : DpuArguments) (predictedPos predictedPos2 : ℤ) : ℤ × ℤ :=
  -- `setEpsilon` is unsigned, and so is the comparison
  let l := if predictedPos % 2 ^ 32 > args.setEpsilon then toInt32 (predictedPos - args.setEpsilon)
    else 0
  let r := toInt32 (predictedPos2 + args.setEpsilon + 2)
  (l, if 0 ≤ r ∧ r ≤ args.inputSize then r else args.inputSize)

/-- The window of the kernel's table path; `none` for an entry out of range. -/
def lutWindow (args : DpuArguments) (q : DTYPE) : Option (ℤ × ℤ) :=
  if lutIndex seg next q ≥ maxLutSize then
    some (lutWindowAt args (seg.valueAt q) (seg.valueAt q))
  else
    (lutPos seg next (lutIndex seg next q)).bind fun predictedPos =>
      (lutPos seg next (lutIndex seg next q + 1)).map (lutWindowAt args predictedPos)

/-- The ends of the window around an entry are computed in range, and its right end is not
negative. -/
def EntriesInRange (args : DpuArguments) : Prop :=
  ∀ j v, lutPos seg next j = some v →
    -2 ^ 31 ≤ v - args.setEpsilon ∧ 0 ≤ v + args.setEpsilon + 2 ∧
      v + args.setEpsilon + 2 < 2 ^ 31

/-- The window of the table path contains the window of the plain path. -/
def CoversPlain (args : DpuArguments) (q : DTYPE) : Prop :=
  ∃ l r, lutWindow seg next args q = some (l, r) ∧
    l ≤ (args.windowAt (prediction seg next q)).1 ∧
    (args.windowAt (prediction seg next q)).2 ≤ r

/-- The entries of the query's block and of the next bracket the plain prediction. -/
structure LutBrackets (q : DTYPE) : Prop where
  index_lt : lutIndex seg next q < maxLutSize
  brackets : ∃ lo hi, lutPos seg next (lutIndex seg next q) = some lo ∧
    lutPos seg next (lutIndex seg next q + 1) = some hi ∧
    lo ≤ prediction seg next q ∧ prediction seg next q ≤ hi

/-- Where the block of the query starts. -/
def blockStart (q : DTYPE) : ℕ := q / 2 ^ shiftLen seg next * 2 ^ shiftLen seg next

/-- Where the block after it starts. -/
def blockEnd (q : DTYPE) : ℕ := blockStart seg next q + 2 ^ shiftLen seg next

/-- The value of a segment at `k` is computed within 32 bits. -/
def InRange (k : DTYPE) : Prop :=
  ⌊seg.slope * (k - seg.key : ℕ)⌋ < 2 ^ 31 ∧ seg.valueAt k < 2 ^ 31

/-- The segment has not passed the next intercept at the start of the query's block. -/
def StartsBelow (q : DTYPE) : Prop :=
  blockStart seg next q ≤ seg.key ∨
    (⌊seg.slope * (blockStart seg next q - seg.key : ℕ)⌋ < 2 ^ 31 ∧
      seg.valueAt (blockStart seg next q) ≤ next.intercept)

/-- The query is in the last block; or the next block starts at the next segment or behind it, or
where the segment's value is in range; or, where the next block would start behind the largest
key, the segment has not risen. -/
def EndsAbove (q : DTYPE) : Prop :=
  lutIndex seg next q + 1 = maxLutSize ∨
    (blockEnd seg next q < 2 ^ 64 ∧
      (next.key ≤ blockEnd seg next q ∨ seg.InRange (blockEnd seg next q))) ∨
    (2 ^ 64 ≤ blockEnd seg next q ∧
      (seg.slope * (q - seg.key : ℕ) < 1 ∨ next.intercept = seg.intercept))

/-- Neighbouring segments of the lowest level that get a table. -/
structure Adjacent : Prop where
  key_lt : seg.key < next.key
  word : next.key < 2 ^ 64
  intercept_le : seg.intercept ≤ next.intercept
  intercept_int : next.intercept < 2 ^ 31
  slope_nonneg : 0 ≤ seg.slope
  prefix_le : longestCommonPrefix seg.key next.key ≤ 64 - moreShiftNum

end PgmModel

section Prefix

variable {a b q x n : ℕ}

theorem shiftRight_shiftCount (x : ℕ) : x >>> shiftCount x = 0 := by
  fun_induction shiftCount x with
  | case1 x _ ih => rwa [Nat.add_comm, Nat.shiftRight_add]
  | case2 x hx => rw [Nat.eq_zero_of_not_pos hx, Nat.zero_shiftRight]

theorem shiftCount_le (h : x < 2 ^ n) : shiftCount x ≤ n := by
  induction n generalizing x with
  | zero =>
    obtain rfl : x = 0 := by omega
    rw [shiftCount, if_neg (lt_irrefl 0)]
  | succ n ih =>
    rw [shiftCount]
    split
    · have hhalf : x >>> 1 < 2 ^ n := by
        rw [Nat.shiftRight_one]
        omega
      exact Nat.succ_le_succ (ih hhalf)
    · exact Nat.zero_le _

/-- Behind their common prefix nothing distinguishes two keys. -/
theorem div_eq_of_prefix (ha : a < 2 ^ 64) (hb : b < 2 ^ 64) (hab : a ≠ b) :
    a / 2 ^ (64 - longestCommonPrefix a b) = b / 2 ^ (64 - longestCommonPrefix a b) := by
  have hne : a ^^^ b ≠ 0 := fun h => hab (Nat.xor_eq_zero_iff.mp h)
  have hle : shiftCount (a ^^^ b) ≤ 64 := shiftCount_le (Nat.xor_lt_two_pow ha hb)
  have hlen : 64 - longestCommonPrefix a b = shiftCount (a ^^^ b) := by
    rw [longestCommonPrefix, if_neg hne]
    omega
  have hzero := shiftRight_shiftCount (a ^^^ b)
  rw [Nat.shiftRight_xor_distrib, Nat.xor_eq_zero_iff] at hzero
  rwa [hlen, ← Nat.shiftRight_eq_div_pow, ← Nat.shiftRight_eq_div_pow]

theorem sub_lt_of_div_eq (hpos : 0 < n) (h : a / n = b / n) : a - b < n := by
  have ha := Nat.div_add_mod a n
  have hb := Nat.div_add_mod b n
  have hmod := Nat.mod_lt a hpos
  rw [h] at ha
  omega

end Prefix

namespace PgmModel

variable {seg next : PgmModel ℚ} {q k k' : DTYPE} {v : ℤ}

section Blocks

/-- The query and the segment differ in the lowest `shift_len + 4` bits at most. -/
theorem Adjacent.div_eq (h : Adjacent seg next) (hlow : seg.key ≤ q) (hhigh : q < next.key) :
    q / 2 ^ shiftLen seg next / 16 = seg.key / 2 ^ shiftLen seg next / 16 := by
  have hshift : 2 ^ (64 - longestCommonPrefix seg.key next.key) =
      2 ^ shiftLen seg next * 16 := by
    have hlen : moreShiftNum ≤ 64 - longestCommonPrefix seg.key next.key :=
      Nat.le_sub_of_add_le' (Nat.add_le_of_le_sub (by decide) h.prefix_le)
    rw [shiftLen, show (16 : ℕ) = 2 ^ moreShiftNum from rfl, ← Nat.pow_add,
      Nat.sub_add_cancel hlen]
  have hcommon := div_eq_of_prefix (h.key_lt.trans h.word) h.word (Nat.ne_of_lt h.key_lt)
  rw [hshift] at hcommon
  rw [Nat.div_div_eq_div_mul, Nat.div_div_eq_div_mul]
  apply Nat.le_antisymm
  · rw [hcommon]
    exact Nat.div_le_div_right (Nat.le_of_lt hhigh)
  · exact Nat.div_le_div_right hlow

theorem lutIndex_eq (seg next : PgmModel ℚ) (q : DTYPE) : lutIndex seg next q =
    q / 2 ^ shiftLen seg next - seg.key / 2 ^ shiftLen seg next := by
  rw [lutIndex, Nat.shiftRight_eq_div_pow, Nat.shiftRight_eq_div_pow]

theorem Adjacent.lutIndex_lt (h : Adjacent seg next) (hlow : seg.key ≤ q)
    (hhigh : q < next.key) : lutIndex seg next q < maxLutSize := by
  rw [lutIndex_eq]
  exact sub_lt_of_div_eq (by decide) (h.div_eq hlow hhigh)

theorem tempBaseKey_eq (seg next : PgmModel ℚ) (j : ℕ) : tempBaseKey seg next j =
    (seg.key / 2 ^ shiftLen seg next + j) * 2 ^ shiftLen seg next % 2 ^ 64 := by
  rw [tempBaseKey, Nat.shiftLeft_eq, Nat.shiftRight_eq_div_pow, Nat.mod_mul_mod]

theorem blockStart_le (seg next : PgmModel ℚ) (q : DTYPE) : blockStart seg next q ≤ q :=
  Nat.div_mul_le_self _ _

theorem lt_blockEnd (seg next : PgmModel ℚ) (q : DTYPE) : q < blockEnd seg next q :=
  Nat.lt_div_mul_add (Nat.two_pow_pos _)

theorem blockEnd_eq (seg next : PgmModel ℚ) (q : DTYPE) : blockEnd seg next q =
    (q / 2 ^ shiftLen seg next + 1) * 2 ^ shiftLen seg next := by
  rw [blockEnd, blockStart, Nat.succ_mul]

/-- The entry of the query's block is the one for its start. -/
theorem tempBaseKey_lutIndex (hlow : seg.key ≤ q) (hword : q < 2 ^ 64) :
    tempBaseKey seg next (lutIndex seg next q) = blockStart seg next q := by
  have hle : seg.key / 2 ^ shiftLen seg next ≤ q / 2 ^ shiftLen seg next :=
    Nat.div_le_div_right hlow
  rw [tempBaseKey_eq, lutIndex_eq, Nat.add_sub_cancel' hle]
  exact Nat.mod_eq_of_lt ((blockStart_le seg next q).trans_lt hword)

theorem tempBaseKey_succ (hlow : seg.key ≤ q) :
    tempBaseKey seg next (lutIndex seg next q + 1) = blockEnd seg next q % 2 ^ 64 := by
  have hle : seg.key / 2 ^ shiftLen seg next ≤ q / 2 ^ shiftLen seg next :=
    Nat.div_le_div_right hlow
  rw [tempBaseKey_eq, lutIndex_eq, ← Nat.add_assoc, Nat.add_sub_cancel' hle, blockEnd_eq]

/-- Behind the block of the largest keys the next block would start at `2 ^ 64`. -/
theorem blockEnd_le (seg next : PgmModel ℚ) (hword : q < 2 ^ 64) :
    blockEnd seg next q ≤ 2 ^ 64 := by
  have hshift : shiftLen seg next ≤ 64 := by
    rw [shiftLen]
    omega
  have hpow : 2 ^ 64 = 2 ^ (64 - shiftLen seg next) * 2 ^ shiftLen seg next := by
    rw [← Nat.pow_add, Nat.sub_add_cancel hshift]
  rw [hpow] at hword ⊢
  rw [blockEnd_eq]
  exact Nat.mul_le_mul_right _ (Nat.div_lt_of_lt_mul (Nat.mul_comm _ _ ▸ hword))

end Blocks

section Values

theorem Adjacent.valueAt_mono (h : Adjacent seg next) (hk : k ≤ k') :
    seg.valueAt k ≤ seg.valueAt k' := by
  have hsub : ((k - seg.key : ℕ) : ℚ) ≤ (k' - seg.key : ℕ) :=
    Nat.cast_le.mpr (Nat.sub_le_sub_right hk seg.key)
  have hfloor := Int.floor_le_floor (mul_le_mul_of_nonneg_left hsub h.slope_nonneg)
  rw [valueAt, valueAt]
  omega

theorem Adjacent.intercept_le_valueAt (h : Adjacent seg next) (k : DTYPE) :
    seg.intercept ≤ seg.valueAt k := by
  have hfloor := Int.floor_nonneg.mpr (mul_nonneg h.slope_nonneg (Nat.cast_nonneg (k - seg.key)))
  rw [valueAt]
  omega

/-- A computed entry is the value at the start of its block, if that is in range. -/
theorem entry_eq_some_iff :
    (castInt32 (seg.slope * (k - seg.key : ℕ))).bind (addInt32 · seg.intercept) = some v ↔
      seg.InRange k ∧ v = seg.valueAt k := by
  rw [castInt32, InRange, valueAt]
  by_cases hcast : ⌊seg.slope * (k - seg.key : ℕ)⌋ < 2 ^ 31
  · rw [if_pos hcast, Option.bind_some, addInt32]
    by_cases hadd : ⌊seg.slope * (k - seg.key : ℕ)⌋ + seg.intercept < 2 ^ 31
    · rw [if_pos hadd, Option.some_inj, and_iff_right ⟨hcast, hadd⟩, eq_comm]
    · rw [if_neg hadd]
      exact iff_of_false (Option.some_ne_none v).symm fun h => hadd h.1.2
  · rw [if_neg hcast]
    exact iff_of_false (Option.some_ne_none v).symm fun h => hcast h.1.1

theorem Adjacent.intercept_le_prediction (h : Adjacent seg next) (q : DTYPE) :
    seg.intercept ≤ prediction seg next q :=
  le_min (h.intercept_le_valueAt q) h.intercept_le

/-- The entry of the query's block is at most the plain prediction. -/
theorem Adjacent.exists_low_iff (h : Adjacent seg next) (hlow : seg.key ≤ q)
    (hhigh : q < next.key) :
    (∃ lo, lutPos seg next (lutIndex seg next q) = some lo ∧ lo ≤ prediction seg next q) ↔
      StartsBelow seg next q := by
  have hbase := @tempBaseKey_lutIndex seg next q hlow (hhigh.trans h.word)
  have hstart := blockStart_le seg next q
  rw [lutPos, if_neg (h.lutIndex_lt hlow hhigh).ne, hbase, StartsBelow]
  by_cases hle : blockStart seg next q ≤ seg.key
  · rw [if_pos hle]
    exact iff_of_true ⟨_, rfl, h.intercept_le_prediction q⟩ (Or.inl hle)
  · rw [if_neg hle, if_neg (Nat.not_le.mpr (hstart.trans_lt hhigh)), or_iff_right hle]
    simp only [entry_eq_some_iff]
    have hmono := h.valueAt_mono hstart
    have hint := h.intercept_int
    constructor
    · rintro ⟨lo, ⟨hrange, rfl⟩, hpred⟩
      exact ⟨hrange.1, hpred.trans (min_le_right _ _)⟩
    · rintro ⟨hcast, hpred⟩
      exact ⟨_, ⟨⟨hcast, hpred.trans_lt hint⟩, rfl⟩, le_min hmono hpred⟩

/-- The plain prediction is at most the entry of the next block. -/
theorem Adjacent.exists_high_iff (h : Adjacent seg next) (hlow : seg.key ≤ q)
    (hhigh : q < next.key) :
    (∃ hi, lutPos seg next (lutIndex seg next q + 1) = some hi ∧
      prediction seg next q ≤ hi) ↔ EndsAbove seg next q := by
  have hend := lt_blockEnd seg next q
  rw [lutPos, EndsAbove]
  by_cases hlast : lutIndex seg next q + 1 = maxLutSize
  · rw [if_pos hlast]
    exact iff_of_true ⟨_, rfl, min_le_right _ _⟩ (Or.inl hlast)
  rw [if_neg hlast, or_iff_right hlast, tempBaseKey_succ hlow]
  rcases (blockEnd_le seg next (hhigh.trans h.word)).lt_or_eq with hlt | heq
  · -- the next block starts behind the query
    have hnot : ¬ blockEnd seg next q ≤ seg.key := Nat.not_le.mpr (hlow.trans_lt hend)
    rw [Nat.mod_eq_of_lt hlt, if_neg hnot, or_iff_left fun hge => absurd hge.1 hlt.not_ge,
      and_iff_right hlt]
    by_cases hnext : blockEnd seg next q ≥ next.key
    · rw [if_pos hnext]
      exact iff_of_true ⟨_, rfl, min_le_right _ _⟩ (Or.inl hnext)
    · rw [if_neg hnext, or_iff_right hnext]
      simp only [entry_eq_some_iff]
      constructor
      · rintro ⟨hi, ⟨hrange, -⟩, -⟩
        exact hrange
      · intro hrange
        exact ⟨_, ⟨hrange, rfl⟩, (min_le_left _ _).trans (h.valueAt_mono hend.le)⟩
  · -- the start of the next block is zero in 64 bits
    rw [heq, Nat.mod_self, if_pos (Nat.zero_le _),
      or_iff_right fun hlt => absurd hlt.1 (lt_irrefl _), and_iff_right le_rfl]
    have hint := h.intercept_le
    have hflat : seg.valueAt q ≤ seg.intercept ↔ seg.slope * (q - seg.key : ℕ) < 1 := by
      rw [valueAt, add_le_iff_nonpos_left, ← Int.lt_add_one_iff, Int.floor_lt]
      norm_num
    rw [← hflat, prediction]
    constructor
    · rintro ⟨hi, hsome, hle⟩
      obtain rfl := Option.some.inj hsome
      rcases min_le_iff.mp hle with hvalue | hnext
      · exact Or.inl hvalue
      · exact Or.inr (le_antisymm hnext hint)
    · rintro (hvalue | hnext)
      · exact ⟨_, rfl, (min_le_left _ _).trans hvalue⟩
      · exact ⟨_, rfl, (min_le_right _ _).trans hnext.le⟩

end Values

section Windows

variable {args : DpuArguments} {lo p hi : ℤ}

theorem lutWindowAt_fst_le (hlow : -2 ^ 31 ≤ lo - args.setEpsilon) (hle : lo ≤ p)
    (hhigh : p < 2 ^ 31) : (lutWindowAt args lo hi).1 ≤ (args.windowAt p).1 := by
  have hepsilon := args.epsilon_int
  simp only [lutWindowAt, DpuArguments.windowAt]
  rw [toInt32_eq hlow (by omega)]
  split_ifs <;> omega

theorem le_lutWindowAt_snd (hlow : 0 ≤ p + args.setEpsilon + 2) (hle : p ≤ hi)
    (hhigh : hi + args.setEpsilon + 2 < 2 ^ 31) :
    (args.windowAt p).2 ≤ (lutWindowAt args lo hi).2 := by
  simp only [lutWindowAt, DpuArguments.windowAt]
  rw [toInt32_eq (by omega) hhigh, toInt32_eq (by omega) (by omega)]
  split_ifs <;> omega

/-- Between entries that bracket the plain prediction nothing of its window is lost. -/
theorem LutBrackets.coversPlain (h : LutBrackets seg next q)
    (hrange : EntriesInRange seg next args) : CoversPlain seg next args q := by
  obtain ⟨hindex, lo, hi, hlo, hhi, hle, hge⟩ := h
  obtain ⟨hlow, hnonneg, -⟩ := hrange _ _ hlo
  obtain ⟨-, -, hhigh⟩ := hrange _ _ hhi
  have hwindow : lutWindow seg next args q = some (lutWindowAt args lo hi) := by
    rw [lutWindow, if_neg (Nat.not_le.mpr hindex), hlo, hhi]
    rfl
  have hleft : (lutWindowAt args lo hi).1 ≤ (args.windowAt (prediction seg next q)).1 :=
    lutWindowAt_fst_le hlow hle (by omega)
  have hright : (args.windowAt (prediction seg next q)).2 ≤ (lutWindowAt args lo hi).2 :=
    le_lutWindowAt_snd (by omega) hge hhigh
  exact ⟨_, _, hwindow, hleft, hright⟩

end Windows

/-- The table index is always in the table. The entries there bracket the plain prediction
exactly if the segment has not passed the next intercept at the start of the block, and the start
of the next block is neither wrapped around nor out of range. Then the window of the table path
contains the plain one. -/
theorem lutBrackets_iff (h : Adjacent seg next) (hlow : seg.key ≤ q) (hhigh : q < next.key) :
    lutIndex seg next q < maxLutSize ∧
      (LutBrackets seg next q ↔ StartsBelow seg next q ∧ EndsAbove seg next q) ∧
      (LutBrackets seg next q →
        ∀ args, EntriesInRange seg next args → CoversPlain seg next args q) := by
  have hindex := h.lutIndex_lt hlow hhigh
  refine ⟨hindex, ?_, fun hbrackets args hrange => hbrackets.coversPlain hrange⟩
  rw [← h.exists_low_iff hlow hhigh, ← h.exists_high_iff hlow hhigh]
  constructor
  · rintro ⟨-, lo, hi, hlo, hhi, hle, hge⟩
    exact ⟨⟨lo, hlo, hle⟩, hi, hhi, hge⟩
  · rintro ⟨⟨lo, hlo, hle⟩, hi, hhi, hge⟩
    exact ⟨hindex, lo, hi, hlo, hhi, hle, hge⟩

/-- A segment that rises by one for two keys and covers 1000 positions, -/
def halfModel : PgmModel ℚ := ⟨0, 1 / 2, 0⟩

/-- and the segment behind a gap in the keys. -/
def gapModel : PgmModel ℚ := ⟨4000, 1 / 2, 1000⟩

/-- A slice that holds both. -/
def gapArguments : DpuArguments := ⟨2000, 1, fun level => 3 * level, 0, 64, by decide, by decide⟩

theorem adjacent_gapModel : Adjacent halfModel gapModel where
  key_lt := by decide
  word := by decide
  intercept_le := by decide
  intercept_int := by decide
  slope_nonneg := by norm_num [halfModel]
  prefix_le := by decide +kernel

/-- In the block from 1792 the entries are 896 and 1024. -/
theorem lutBrackets_gapModel : lutIndex halfModel gapModel 1800 < maxLutSize ∧
    LutBrackets halfModel gapModel 1800 := by
  have hblocks : StartsBelow halfModel gapModel 1800 ∧ EndsAbove halfModel gapModel 1800 := by
    unfold StartsBelow EndsAbove InRange
    decide +kernel
  obtain ⟨hindex, hiff, -⟩ := lutBrackets_iff adjacent_gapModel
    (show halfModel.key ≤ 1800 by decide) (by decide)
  exact ⟨hindex, hiff.mpr hblocks⟩

/-- The last block starts at 3840, where the segment has passed the next intercept: the table's
window from 1856 to 1066 is empty. -/
theorem lutBrackets_gapModel_past : Adjacent halfModel gapModel ∧ halfModel.key ≤ 3900 ∧
    3900 < gapModel.key ∧ prediction halfModel gapModel 3900 = 1000 ∧
    lutPos halfModel gapModel (lutIndex halfModel gapModel 3900) = some 1920 ∧
    ¬ LutBrackets halfModel gapModel 3900 ∧
    lutWindow halfModel gapModel gapArguments 3900 = some (1856, 1066) := by
  have hpos : lutPos halfModel gapModel (lutIndex halfModel gapModel 3900) = some 1920 := by
    decide +kernel
  have hprediction : prediction halfModel gapModel 3900 = 1000 := by decide +kernel
  refine ⟨adjacent_gapModel, by decide, by decide, hprediction, hpos, ?_, by decide +kernel⟩
  rintro ⟨-, lo, hi, hlo, -, hle, -⟩
  rw [hpos, Option.some_inj] at hlo
  rw [hprediction, ← hlo] at hle
  exact absurd hle (by decide)

end PgmModel

end PimLex
