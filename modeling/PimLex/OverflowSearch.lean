import PimLex.Tree.Snapshot

/-!
# The overflow search of the kernel

For skewed insertions a DPU searches the separators of its partition's overflow
tree, and returns the pointer that stands beside the last one at or below the
query. The result of the search may be -1. The test for that compares it, as an
unsigned word, with the last index of the slice, which is another array: so it
also refuses what lies behind the slice's length in the overflow keys.
-/

namespace PimLex

open Search

/-- `MAX_OVERFLOW_KEY_SIZE`. -/
abbrev maxOverflowKeySize : ℕ := 2 ^ 19

/-- `main_kernel1` for `op_type == 2` on one query, for `overflow_len != 0`. The indices stay far
from the ends of an `int32_t`. -/
def overflowAnswer (realinnerkeys : ℕ → DTYPE) (realinnerpointers : ℕ → ℕ)
    (overflowLen inputSize : ℕ) (searchingFor : DTYPE) : ℕ :=
  let r := OptNode.overflowSearchFuel realinnerkeys searchingFor overflowLen 0 (overflowLen - 1)
  -- `r > input_size - 1` converts `r` to a `uint64_t`
  if (r % 2 ^ 64).toNat > inputSize - 1 then invaildPos else realinnerpointers r.toNat

/-- The pointer at the last key at or below the query; `INVAILD_POS` below all keys. -/
structure FloorAnswer (keys : ℕ → DTYPE) (pointers : ℕ → ℕ) (n : ℕ) (q : DTYPE)
    (answer : ℕ) : Prop where
  found : keys 0 ≤ q → ∃ r < n, keys r ≤ q ∧ (∀ j, r < j → j < n → q < keys j) ∧
    answer = pointers r
  below : q < keys 0 → answer = invaildPos

variable {keys : ℕ → DTYPE} {pointers : ℕ → ℕ} {n c inputSize answer : ℕ} {q : DTYPE}

theorem overflowAnswer_eq (hcut : IsCut (fun i => keys i ≤ q) n c) (hn : n ≤ maxOverflowKeySize)
    (hsize : 1 ≤ inputSize) (hword : inputSize < 2 ^ 64) :
    overflowAnswer keys pointers n inputSize q =
      if c = 0 ∨ inputSize < c then invaildPos else pointers (c - 1) := by
  have hr : OptNode.overflowSearchFuel keys q n 0 (n - 1) = (c : ℤ) - 1 := by
    have hle := hcut.le
    exact OptNode.overflowSearchFuel_eq hcut le_rfl (by omega) (by omega) (by omega) (by omega)
  rw [overflowAnswer, hr]
  have hle := hcut.le
  simp only [maxOverflowKeySize] at hn
  rcases Nat.eq_zero_or_pos c with rfl | hpos
  · -- -1 becomes the largest word
    rw [if_pos (Or.inl rfl), if_pos (by omega)]
  · have htoNat : ((c : ℤ) - 1).toNat = c - 1 := by omega
    rw [htoNat]
    by_cases hlt : inputSize < c
    · rw [if_pos (Or.inr hlt), if_pos (by omega)]
    · rw [if_neg (by omega), if_neg (by omega)]

/-- A floor answer is the pointer just before the cut. -/
theorem floorAnswer_iff (hcut : IsCut (fun i => keys i ≤ q) n c) (hn : 1 ≤ n) :
    FloorAnswer keys pointers n q answer ↔
      answer = if c = 0 then invaildPos else pointers (c - 1) := by
  have hle := hcut.le
  have hfirst : keys 0 ≤ q ↔ 0 < c := hcut.iff 0 (by omega)
  rcases Nat.eq_zero_or_pos c with rfl | hpos
  · rw [if_pos rfl]
    have hlt := not_le.mp (mt hfirst.mp (lt_irrefl 0))
    exact ⟨fun h => h.below hlt, fun h => ⟨fun hge => absurd hge (not_le.mpr hlt), fun _ => h⟩⟩
  · rw [if_neg hpos.ne']
    have hge := hfirst.mpr hpos
    constructor
    · intro h
      obtain ⟨r, hr, hkey, hlast, hanswer⟩ := h.found hge
      have hrc : r < c := (hcut.iff r hr).mp hkey
      -- a key behind `r` and before the cut would be at most the query
      have heq : r = c - 1 := by
        by_contra hne
        have hmem := (hcut.iff (r + 1) (by omega)).mpr (by omega)
        exact absurd (hlast (r + 1) (by omega) (by omega)) (not_lt.mpr hmem)
      rw [hanswer, heq]
    · refine fun h => ⟨fun _ => ⟨c - 1, by omega, ?_, fun j hj hjn => ?_, h⟩, fun hlt => ?_⟩
      · exact (hcut.iff (c - 1) (by omega)).mpr (by omega)
      · exact not_le.mp (mt (hcut.iff j hjn).mp (by omega))
      · exact absurd hge (not_le.mpr hlt)

/-- The search is a floor search exactly below the overflow key whose index is the length of the
slice, if there is such a key; above it only for a pointer that is `INVAILD_POS` itself. -/
theorem overflowAnswer_floor_iff (keys : ℕ → DTYPE) (pointers : ℕ → ℕ) (n inputSize : ℕ)
    (q : DTYPE) (hpos : 1 ≤ n) (hn : n ≤ maxOverflowKeySize)
    (hkeys : ∀ i j, i < j → j < n → keys i ≤ keys j) (hsize : 1 ≤ inputSize)
    (hword : inputSize < 2 ^ 64) :
    FloorAnswer keys pointers n q (overflowAnswer keys pointers n inputSize q) ↔
      (inputSize < n → q < keys inputSize) ∨ pointers (rank keys n q - 1) = invaildPos := by
  have hcut := isCut_rank hkeys q
  rw [floorAnswer_iff hcut hpos, overflowAnswer_eq hcut hn hsize hword]
  have hle := hcut.le
  have hbehind : (inputSize < n → q < keys inputSize) ↔ rank keys n q ≤ inputSize := by
    constructor
    · intro h
      by_contra hlt
      have hin : inputSize < n := (not_le.mp hlt).trans_le hle
      exact absurd ((hcut.iff inputSize hin).mpr (not_le.mp hlt)) (not_le.mpr (h hin))
    · exact fun h hin => not_le.mp (mt (hcut.iff inputSize hin).mp (not_lt.mpr h))
  rw [hbehind]
  generalize rank keys n q = c
  by_cases hzero : c = 0
  · rw [if_pos (Or.inl hzero), if_pos hzero]
    exact iff_of_true rfl (Or.inl (by omega))
  by_cases hlt : inputSize < c
  · rw [if_pos (Or.inr hlt), if_neg hzero, eq_comm]
    exact (or_iff_right (by omega)).symm
  · rw [if_neg (not_or.mpr ⟨hzero, hlt⟩), if_neg hzero]
    exact iff_of_true rfl (Or.inl (by omega))

/-- 32 separators, as the smallest inner root has them. -/
def separators (i : ℕ) : DTYPE := 100 * (i + 1)

theorem separators_le (i j : ℕ) (hij : i < j) : separators i ≤ separators j :=
  Nat.mul_le_mul_left 100 (Nat.succ_le_succ hij.le)

/-- Over a slice of one key only the first separator is answered: 150 gets its pointer. -/
theorem overflowAnswer_floor_separators :
    FloorAnswer separators (fun i => i) 32 150 (overflowAnswer separators (fun i => i) 32 1 150) :=
  (overflowAnswer_floor_iff separators (fun i => i) 32 1 150 (by decide) (by decide)
    (fun i j hij _ => separators_le i j hij) (by decide) (by decide)).mpr
    (Or.inl fun _ => by decide)

/-- 250 is refused, though the separator at index 1 is 200. -/
theorem overflowAnswer_separators_refused :
    overflowAnswer separators (fun i => i) 32 1 250 = invaildPos ∧
      ¬ FloorAnswer separators (fun i => i) 32 250
        (overflowAnswer separators (fun i => i) 32 1 250) := by
  have hanswer : overflowAnswer separators (fun i => i) 32 1 250 = invaildPos := by decide
  refine ⟨hanswer, fun h => ?_⟩
  obtain ⟨r, hr, -, -, heq⟩ := h.found (by decide)
  rw [hanswer] at heq
  simp only [invaildPos] at heq
  omega

end PimLex
