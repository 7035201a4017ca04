import PimLex.HostSearch

/-!
# The search kernel

Each DPU holds the slice of one partition. The kernel's models predict a window
of the slice, a binary search narrows it, and the answer is the base position of
the block found, or `INVAILD_POS` for a query at or above the slice's last
partial key.
-/

namespace PimLex

open Search

/-- The last stage of `main_kernel1` for `op_type == 1`: binary search of the predicted
window, then the two-key check. `mram` is indexed from the heap pointer. -/
def kernelSearch (mram : ℤ → DTYPE) (inputSize startPos : ℕ) (window : ℕ × ℕ)
    (searchingFor : DTYPE) : ℕ :=
  let l := upperBound (fun i => mram i) searchingFor window.1 window.2
  -- `(uint32_t)(l - 1 + start_pos) << MOV_NUM`, of which `l - 1` wraps at zero
  let found := (l + 2 ^ 32 - 1 + startPos) * interleave % 2 ^ 32
  if l > inputSize - 1 then invaildPos
  else if mram (l - 1) ≤ searchingFor ∧ mram l > searchingFor then found
  else if l = inputSize - 1 then found
  else invaildPos

namespace BulkInput

variable {b : BulkInput} {p j i : ℕ} {k : DTYPE} {answer : ℕ}

/-- The answer of a DPU loaded with partition `p`; what lies around the slice in `mram` is
left open. -/
def kernelAnswer (b : BulkInput) (mram : ℕ → ℤ → DTYPE) (window : ℕ → DTYPE → ℕ × ℕ) (p : ℕ)
    (key : DTYPE) : ℕ :=
  kernelSearch (mram p) b.sliceSize (b.sliceSize * p) (window p key) key

/-- The memory of every DPU starts with the slice of its partition. -/
def Loaded (b : BulkInput) (mram : ℕ → ℤ → DTYPE) : Prop :=
  ∀ p < nrPartition, ∀ i < b.sliceSize, mram p i = b.slice p i

/-- Memory with the slices and nothing else of note. -/
def mram (b : BulkInput) (p : ℕ) (i : ℤ) : DTYPE := b.slice p i.toNat

theorem loaded_mram (b : BulkInput) : b.Loaded b.mram := fun _ _ _ _ => rfl

/-- The right answer for a query of partition `p`: `INVAILD_POS` at or above the slice's
last partial key, and otherwise the position of the query's block. -/
structure CorrectAnswer (b : BulkInput) (p : ℕ) (k : DTYPE) (answer : ℕ) : Prop where
  invalid : b.slice p (b.sliceSize - 1) ≤ k → answer = invaildPos
  block : k < b.slice p (b.sliceSize - 1) →
    ∃ j, answer = interleave * j ∧ j + 1 < b.partialTotalSize ∧
      b.partialKeys j ≤ k ∧ k < b.partialKeys (j + 1)

theorem CorrectAnswer.low (h : b.CorrectAnswer p k answer) (hne : answer ≠ invaildPos) :
    k < b.slice p (b.sliceSize - 1) :=
  not_le.mp fun hge => hne (h.invalid hge)

theorem Owns.rank_eq_sliceSize_iff (h : b.Owns p k) :
    rank (b.slice p) b.sliceSize k = b.sliceSize ↔ b.slice p (b.sliceSize - 1) ≤ k := by
  have hcut := (b.strict_slice h.lt).isCut_rank k
  have hpos := b.sliceSize_pos
  have hle := hcut.le
  rw [hcut.iff (b.sliceSize - 1) (by omega)]
  omega

/-- A query belongs to block `j` exactly when its covered rank is `j + 1`. -/
theorem coveredRank_eq_succ_iff (hj : j + 1 < b.covered) :
    b.coveredRank k = j + 1 ↔ b.partialKeys j ≤ k ∧ k < b.partialKeys (j + 1) := by
  have hcut := b.isCut_coveredRank k
  have hlow := hcut.iff j (by omega)
  have hhigh := not_congr (hcut.iff (j + 1) hj)
  rw [not_le] at hhigh
  rw [hlow, hhigh]
  omega

/-- Below the last partial key of its slice a query sits strictly inside the covered part. -/
theorem Owns.coveredRank_lt (h : b.Owns p k) (hk : k < b.slice p (b.sliceSize - 1)) :
    b.coveredRank k < b.covered := by
  apply lt_of_le_of_ne (b.coveredRank_le)
  intro hfull
  exact absurd (h.rank_eq_sliceSize_iff.mp (h.rank_last hfull).2) (not_le.mpr hk)

/-- Two blocks that hold the query are one. -/
theorem block_unique (hi : i + 1 < b.partialTotalSize) (hj : j + 1 < b.partialTotalSize)
    (hil : b.partialKeys i ≤ k) (hih : k < b.partialKeys (i + 1))
    (hjl : b.partialKeys j ≤ k) (hjh : k < b.partialKeys (j + 1)) : i = j := by
  rcases lt_trichotomy i j with hlt | heq | hgt
  · have hle := b.strict_partialKeys.le (show i + 1 ≤ j by omega) (by omega)
    exact absurd (hle.trans hjl) (not_le.mpr hih)
  · exact heq
  · have hle := b.strict_partialKeys.le (show j + 1 ≤ i by omega) (by omega)
    exact absurd (hle.trans hil) (not_le.mpr hjh)

theorem Owns.exists_block (h : b.Owns p k) (hk : k < b.slice p (b.sliceSize - 1)) :
    ∃ g, b.coveredRank k = g + 1 ∧ g + 1 < b.covered ∧
      b.partialKeys g ≤ k ∧ k < b.partialKeys (g + 1) := by
  have hlt := h.coveredRank_lt hk
  have hpos := coveredRank_pos h
  obtain ⟨g, hg⟩ : ∃ g, b.coveredRank k = g + 1 := ⟨b.coveredRank k - 1, by omega⟩
  exact ⟨g, hg, by omega, (coveredRank_eq_succ_iff (by omega)).mp hg⟩

theorem Owns.block_eq (h : b.Owns p k) (hk : k < b.slice p (b.sliceSize - 1))
    (hanswer : b.CorrectAnswer p k answer) : answer = interleave * (b.coveredRank k - 1) := by
  obtain ⟨j, rfl, hj, hlow, hhigh⟩ := hanswer.block hk
  obtain ⟨g, hg, hglt, hglow, hghigh⟩ := h.exists_block hk
  have hcov := b.covered_le
  rw [block_unique hj (by omega) hlow hhigh hglow hghigh, hg, Nat.add_sub_cancel]

/-- With a window that brackets the rank the kernel answers correctly. -/
theorem kernelAnswer_correct {mram : ℕ → ℤ → DTYPE} {window : ℕ → DTYPE → ℕ × ℕ}
    (hmram : b.Loaded mram) (hwin : b.Brackets window) (h : b.Owns p k) :
    b.CorrectAnswer p k (b.kernelAnswer mram window p k) := by
  obtain ⟨hlo, hhi, hsize⟩ := hwin p k h
  have hslice := (b.strict_slice h.lt).isCut_rank k
  have hpos := h.rank_pos
  have hrank := h.rank_slice
  have hcut : IsCut (fun i : ℕ => mram p i ≤ k) b.sliceSize (rank (b.slice p) b.sliceSize k) :=
    ⟨hslice.le, fun i hi => by rw [hmram p h.lt i hi]; exact hslice.iff i hi⟩
  have hl : upperBound (fun i : ℕ => mram p i) k (window p k).1 (window p k).2 =
      rank (b.slice p) b.sliceSize k := upperBound_eq_rank hcut hlo hhi hsize
  rw [kernelAnswer, kernelSearch, hl]
  constructor
  case invalid =>
    intro hlast
    have hfull := h.rank_eq_sliceSize_iff.mpr hlast
    rw [if_pos (by omega)]
  case block =>
    intro hlast
    have hlt : rank (b.slice p) b.sliceSize k < b.sliceSize :=
      lt_of_le_of_ne hslice.le (mt h.rank_eq_sliceSize_iff.mp (not_le.mpr hlast))
    obtain ⟨g, hg, hglt, hglow, hghigh⟩ := h.exists_block hlast
    -- the two keys read at `l - 1` are the ones around the query, so the check passes
    have hcheck : mram p ((rank (b.slice p) b.sliceSize k : ℕ) - 1) ≤ k ∧
        mram p (rank (b.slice p) b.sliceSize k : ℕ) > k := by
      refine ⟨?_, not_le.mp (mt (hcut.iff _ hlt).mp (lt_irrefl _))⟩
      have hcast : ((rank (b.slice p) b.sliceSize k : ℕ) : ℤ) - 1 =
          ((rank (b.slice p) b.sliceSize k - 1 : ℕ) : ℤ) := by omega
      rw [hcast]
      exact (hcut.iff _ (by omega)).mpr (by omega)
    rw [if_neg (by omega), if_pos hcheck]
    have hcov := b.covered_le
    refine ⟨g, ?_, by omega, hglow, hghigh⟩
    have hbase := b.interleave_mul_partialTotalSize_le
    have hint := b.size_int
    simp only [interleave] at hbase ⊢
    omega

end BulkInput

end PimLex
