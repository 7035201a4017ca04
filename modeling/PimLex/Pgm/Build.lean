import PimLex.Pgm.Segment
import PimLex.Pgm.Segmentation

/-!
# Building the index

`build` makes a level of segments over the keys, then a level over the first keys of
these segments, and so on up to a level with one segment. Where the last segment of a
level has slope zero, one more is put behind it for all keys above the last one; and
each level ends with a sentinel.
-/

namespace PimLex.Pgm

open Fitting

instance : Inhabited (PgmModel ℚ) := ⟨⟨0, 0, 0⟩⟩

/-- `EpsilonRecursive`. -/
abbrev upperEpsilon : ℕ := 64

/-- The sentinel of a level, `Segment(size_t n)`. -/
def sentinel (n : ℕ) : PgmModel ℚ := ⟨2 ^ 64 - 1, 0, toInt32 n⟩

/-- The segment for the keys above `lastKey`, `*std::prev(last)`. -/
def lastSegment (lastKey n : ℕ) : PgmModel ℚ := ⟨(lastKey + 1) % 2 ^ 64, 0, toInt32 n⟩

theorem sentinel_intercept {n : ℕ} (hn : n < 2 ^ 31) : (sentinel n).intercept = n := by
  simp only [sentinel]
  exact toInt32_eq (by omega) (by omega)

theorem lastSegment_intercept {n : ℕ} (lastKey : ℕ) (hn : n < 2 ^ 31) :
    (lastSegment lastKey n).intercept = n := by
  simp only [lastSegment]
  exact toInt32_eq (by omega) (by omega)

/-- `build_level` over `lastN` points: the segments with what it appends, and how many it counts. -/
def buildLevel (parallelism lastKey lastN epsilon : ℕ) (inFun : ℕ → ℕ × ℕ)
    (segments : List (PgmModel ℚ)) : Except PgmFault (List (PgmModel ℚ) × ℕ) := do
  let canonical ← makeSegmentationPar parallelism lastN epsilon inFun
  let appended ← canonical.mapM ofCanonical
  let segments := segments ++ appended
  let nSegments := canonical.length
  if lastN > 1 ∧ segments.getLast?.map PgmModel.slope = some 0 then
    .ok (segments ++ [lastSegment lastKey lastN] ++ [sentinel lastN], nSegments + 1)
  else .ok (segments ++ [sentinel lastN], nSegments)

/-- `in_fun` of the first level. Behind a run of equal keys it gives a key one larger. -/
def inFun (keys : ℕ → ℕ) (n i : ℕ) : ℕ × ℕ :=
  let x := keys i
  let flag := i > 0 ∧ i + 1 < n ∧ x = keys (i - 1) ∧ x ≠ keys (i + 1) ∧
    (x + 1) % 2 ^ 64 ≠ keys (i + 1)
  ((x + if flag then 1 else 0) % 2 ^ 64, i)

/-- `in_fun_rec`. -/
def inFunRec (segments : List (PgmModel ℚ)) (offset i : ℕ) : ℕ × ℕ :=
  ((segments.getD (offset + i) default).key, i)

/-- The loop over the upper levels. -/
def buildUpper (parallelism lastKey : ℕ) :
    ℕ → List (PgmModel ℚ) → List ℕ → ℕ → Except PgmFault (List (PgmModel ℚ) × List ℕ)
  | fuel, segments, levelsOffsets, lastN =>
    if lastN > 1 then
      match fuel with
      | 0 => .error .noProgress
      | fuel + 1 => do
        let offset := levelsOffsets.getD (levelsOffsets.length - 2) 0
        let (segments, lastN) ← buildLevel parallelism lastKey lastN upperEpsilon
          (inFunRec segments offset) segments
        buildUpper parallelism lastKey fuel segments
          (levelsOffsets ++ [levelsOffsets.getLast?.getD 0 + lastN + 1]) lastN
    else .ok (segments, levelsOffsets)

/-- `build`: the segments and `levels_offsets`. -/
def build (parallelism : ℕ) (keys : ℕ → ℕ) (n epsilon : ℕ) :
    Except PgmFault (List (PgmModel ℚ) × List ℕ) :=
  if n = 0 then .ok ([], [])
  else if epsilon * epsilon % 2 ^ 64 = 0 then .error .divideByZero
  else do
    let ignoreLast := if keys (n - 1) = 2 ^ 64 - 1 then 1 else 0
    let lastN := n - ignoreLast
    let lastKey := keys (lastN - 1)
    let (segments, lastN) ← buildLevel parallelism lastKey lastN epsilon (inFun keys n) []
    buildUpper parallelism lastKey (n + 1) segments [0, lastN + 1] lastN

end PimLex.Pgm
