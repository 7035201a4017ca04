import PimLex.Index

/-!
# The host's own search

A query the kernel leaves open is searched on the host: the upper level gives the
partition, the partition's learned index a window of its slice, and a binary
search of the partial keys a block. The window is clamped to the last partial
key, one short of the end of a slice that reaches it.
-/

namespace PimLex

open Search

namespace DramLevel

/-- The partition the fallbacks search in, clamped to the valid ones. -/
def fallbackPartition (lvl : DramLevel) (key : DTYPE) : ℕ :=
  let p := lvl.searchUpperLevelGetPartition key
  let p := if p ≥ nrPartition then (nrPartition : ℤ) - 1 else p
  if p < 0 then 0 else p.toNat

end DramLevel

namespace DramIndex

variable {Page Tree : Type}

/-- The window `[l, r]` of `partial_keys` around `pgm_dram_index[p]->search`. -/
def fallbackWindow (idx : DramIndex Page Tree) (pgm : ℕ → DTYPE → ℕ × ℕ) (p : ℕ)
    (key : DTYPE) : ℕ × ℕ :=
  let l := (pgm p key).1 + idx.perDpuInputSize * p
  let r := (pgm p key).2 + idx.perDpuInputSize * p
  (l, if r ≥ idx.partialTotalSize then idx.partialTotalSize - 1 else r)

/-- `l` after the binary search of the fallbacks. -/
def fallbackBound (idx : DramIndex Page Tree) (lvl : DramLevel) (pgm : ℕ → DTYPE → ℕ × ℕ)
    (key : DTYPE) : ℕ :=
  let w := idx.fallbackWindow pgm (lvl.fallbackPartition key) key
  upperBound idx.partialKeys key w.1 w.2

/-- `cur_key_off`, a `size_t` that wraps when the search ends at zero. -/
def curKeyOff (l : ℕ) : ℕ := if l = 0 then 2 ^ 64 - interleave else (l - 1) * interleave

/-- The scan of the `INTERLEAVE` keys at `off`: the offset of the match. -/
def scanBlock (idx : DramIndex Page Tree) (off : ℕ) (key : DTYPE) : Option ℕ :=
  (List.range interleave).find? fun k =>
    decide (off + k < idx.totalSize ∧ idx.keys (off + k) = key)

theorem scanBlock_eq_some {idx : DramIndex Page Tree} {off k : ℕ} {key : DTYPE}
    (h : idx.scanBlock off key = some k) :
    k < interleave ∧ off + k < idx.totalSize ∧ idx.keys (off + k) = key := by
  have hmem := List.mem_range.mp (List.mem_of_find?_eq_some h)
  have hpred := List.find?_some h
  exact ⟨hmem, by simpa using hpred⟩

theorem scanBlock_eq_none {idx : DramIndex Page Tree} {off : ℕ} {key : DTYPE} :
    idx.scanBlock off key = none ↔
      ∀ k < interleave, off + k < idx.totalSize → idx.keys (off + k) ≠ key := by
  simp [scanBlock, List.find?_eq_none]

end DramIndex

namespace BulkInput

/-- A learned search brackets the rank of every query a slice owns. -/
def Brackets (b : BulkInput) (search : ℕ → DTYPE → ℕ × ℕ) : Prop :=
  ∀ p k, b.Owns p k →
    (search p k).1 ≤ rank (b.slice p) b.sliceSize k ∧
      rank (b.slice p) b.sliceSize k ≤ (search p k).2 ∧ (search p k).2 ≤ b.sliceSize

/-- The whole slice as a window. -/
def wholeSlice (b : BulkInput) (_ : ℕ) (_ : DTYPE) : ℕ × ℕ := (0, b.sliceSize)

theorem brackets_wholeSlice (b : BulkInput) : b.Brackets b.wholeSlice :=
  fun _ _ _ => ⟨Nat.zero_le _, rank_slice_le b, le_rfl⟩

/-- The fallback stops one partial key short: the slices cover every partial key, the query
is at or above the last of them, and the window does not start at its own end. -/
def Clamped (b : BulkInput) (pgm : ℕ → DTYPE → ℕ × ℕ) (k : DTYPE) : Prop :=
  b.partialTotalSize = b.covered ∧ b.partialKeys (b.partialTotalSize - 1) ≤ k ∧
    (pgm (nrPartition - 1) k).1 < b.sliceSize

instance (b : BulkInput) (pgm : ℕ → DTYPE → ℕ × ℕ) (k : DTYPE) :
    Decidable (b.Clamped pgm k) := inferInstanceAs (Decidable (_ ∧ _ ∧ _))

variable {b : BulkInput} {nr : ℕ → ℕ} {prev : DramLevel} {pgm : ℕ → DTYPE → ℕ × ℕ}
  {p i j : ℕ} {k : DTYPE} {Page Tree : Type} {idx : DramIndex Page Tree}

theorem Owns.fallbackPartition (h : b.Owns p k) : (b.level nr prev).fallbackPartition k = p := by
  have hp := h.lt
  rw [DramLevel.fallbackPartition, DramLevel.searchUpperLevelGetPartition, h.upperLevelBound]
  simp only [nrPartition] at hp ⊢
  split_ifs <;> omega

/-- An index over the base arrays of the bulk load, whatever its pages, trees and payloads. -/
structure Over (b : BulkInput) (idx : DramIndex Page Tree) : Prop where
  minKey : idx.minKey = b.keys 0
  partialKeys : idx.partialKeys = b.partialKeys
  keys : idx.keys = b.keys
  totalSize : idx.totalSize = b.size
  partialTotalSize : idx.partialTotalSize = b.partialTotalSize

theorem Over.bulkLoad (b : BulkInput) : b.Over b.bulkLoad := ⟨rfl, rfl, rfl, rfl, rfl⟩

/-- Payloads, pages and trees may change. -/
theorem Over.buffers (hover : b.Over idx) (payloads : ℕ → StringPayload) (pages : ℕ → Page)
    (trees : ℕ → Tree) :
    b.Over { idx with payloads := payloads, bufferPages := pages, optOverflowTrees := trees } :=
  ⟨hover.minKey, hover.partialKeys, hover.keys, hover.totalSize, hover.partialTotalSize⟩

/-- A scan only ever matches a base key at its position. -/
theorem Over.scanBlock_eq_some (hover : b.Over idx) {off m : ℕ}
    (h : idx.scanBlock off k = some m) : off + m < b.size ∧ b.keys (off + m) = k := by
  obtain ⟨-, hsize, hkey⟩ := DramIndex.scanBlock_eq_some h
  exact ⟨hover.totalSize ▸ hsize, hover.keys ▸ hkey⟩

theorem coveredRank_pos (h : b.Owns p k) : 0 < b.coveredRank k := by
  have hpos := h.rank_pos
  have heq := h.rank_slice
  omega

/-- The last covered block belongs to the last partition, at the full rank of its slice. -/
theorem Owns.rank_last (h : b.Owns p k) (hc : b.coveredRank k = b.covered) :
    p + 1 = nrPartition ∧ rank (b.slice p) b.sliceSize k = b.sliceSize := by
  have heq := h.rank_slice
  have hle := b.rank_slice_le (p := p) (k := k)
  have hp : p + 1 = nrPartition := by
    by_contra hne
    have hlt : p + 1 < nrPartition := lt_of_le_of_ne h.lt hne
    have hnext : b.sliceSize * (p + 1) < b.covered := Nat.mul_lt_mul_of_pos_left hlt b.sliceSize_pos
    rw [Nat.mul_succ] at hnext
    omega
  refine ⟨hp, ?_⟩
  have hcov := b.covered_of_last hp
  omega

theorem coveredRank_eq_covered_iff :
    b.coveredRank k = b.covered ↔ b.partialKeys (b.covered - 1) ≤ k := by
  have hcut := b.isCut_coveredRank k
  have hpos := b.covered_pos
  have hle := hcut.le
  rw [hcut.iff (b.covered - 1) (by omega)]
  omega

/-- The fallback search ends just past the query's block, one block early when clamped. -/
theorem fallbackBound_eq (hover : b.Over idx) (hpgm : b.Brackets pgm) (h : b.Owns p k)
    (nr : ℕ → ℕ) (prev : DramLevel) :
    idx.fallbackBound (b.level nr prev) pgm k =
      if b.Clamped pgm k then b.coveredRank k - 1 else b.coveredRank k := by
  obtain ⟨hlo, hhi, hsize⟩ := hpgm p k h
  have hrank := h.rank_slice
  have hcov := b.covered_le
  have hpos := b.covered_pos
  have hcut := b.isCut_coveredRank k
  have hle := hcut.le
  have hS : idx.perDpuInputSize = b.sliceSize := by
    rw [DramIndex.perDpuInputSize, hover.partialTotalSize, sliceSize]
  have hend : b.sliceSize * p + b.sliceSize ≤ b.covered := by
    rw [← Nat.mul_succ]
    exact Nat.mul_le_mul_left _ h.lt
  rw [DramIndex.fallbackBound, h.fallbackPartition, DramIndex.fallbackWindow, hS,
    hover.partialTotalSize, hover.partialKeys]
  simp only
  rcases Nat.lt_or_ge ((pgm p k).2 + b.sliceSize * p) b.partialTotalSize with hr | hr
  · -- the window ends inside the partial keys
    have hnot : ¬ b.Clamped pgm k := by
      rintro ⟨hall, hlast, hlt⟩
      rw [hall] at hlast
      obtain ⟨hp, hfull⟩ := h.rank_last (coveredRank_eq_covered_iff.mpr hlast)
      have hc := b.covered_of_last hp
      omega
    rw [if_neg (Nat.not_le.mpr hr), if_neg hnot]
    exact upperBound_eq_rank hcut (by omega) (by omega) (by omega)
  · -- the window reaches the end, so it is the last slice's and the slices cover everything
    have hall : b.partialTotalSize = b.covered := by omega
    rw [if_pos hr]
    rcases hle.lt_or_eq with hlt | hfull
    · -- a query below the last partial key does not feel the clamp
      have hnot : ¬ b.Clamped pgm k := by
        rintro ⟨-, hlast, -⟩
        rw [hall] at hlast
        exact absurd (coveredRank_eq_covered_iff.mpr hlast) hlt.ne
      rw [if_neg hnot]
      exact upperBound_eq_rank hcut (by omega) (by omega) (by omega)
    · obtain ⟨hp, hrankS⟩ := h.rank_last hfull
      obtain rfl : p = nrPartition - 1 := by omega
      by_cases hlow : (pgm (nrPartition - 1) k).1 < b.sliceSize
      · have hclamp : b.Clamped pgm k :=
          ⟨hall, by rw [hall]; exact coveredRank_eq_covered_iff.mp hfull, hlow⟩
        rw [if_pos hclamp, upperBound_eq_right hcut (by omega) (by omega), hall, hfull]
      · -- a window that starts at its end leaves the search at `l = S`, past the clamp
        have hnot : ¬ b.Clamped pgm k := fun hclamp => hlow hclamp.2.2
        rw [if_neg hnot, upperBound_of_le (by omega)]
        omega

/-- A scan finds a base key in its own block and in no other. -/
theorem Over.scanBlock_keys (hover : b.Over idx) (hi : i < b.size) :
    idx.scanBlock (interleave * j) (b.keys i) =
      if i / interleave = j then some (i % interleave) else none := by
  have hdiv := Nat.div_add_mod i interleave
  have hmod := Nat.mod_lt i (show 0 < interleave by decide)
  have hmatch : ∀ m, interleave * j + m < idx.totalSize →
      idx.keys (interleave * j + m) = b.keys i → interleave * j + m = i := by
    intro m hm hkey
    rw [hover.totalSize] at hm
    rw [hover.keys] at hkey
    exact b.strict.inj hm hi hkey
  -- strictly increasing keys match at one position only
  cases hscan : idx.scanBlock (interleave * j) (b.keys i) with
  | some m =>
    obtain ⟨hm, hsize, hkey⟩ := DramIndex.scanBlock_eq_some hscan
    have heq := hmatch m hsize hkey
    simp only [interleave] at hm heq ⊢
    rw [if_pos (by omega), Option.some.injEq]
    omega
  | none =>
    rw [if_neg]
    rintro rfl
    apply DramIndex.scanBlock_eq_none.mp hscan _ hmod
    · rw [hdiv, hover.totalSize]
      exact hi
    · rw [hdiv, hover.keys]

/-- A scan only ever finds base keys. -/
theorem Over.scanBlock_eq_none (hover : b.Over idx) (hk : ∀ i < b.size, b.keys i ≠ k)
    (off : ℕ) : idx.scanBlock off k = none := by
  apply DramIndex.scanBlock_eq_none.mpr
  intro m _ hm
  rw [hover.totalSize] at hm
  rw [hover.keys]
  exact hk _ hm

theorem exists_owns_keys (hi : i < b.size) : ∃ p, b.Owns p (b.keys i) :=
  b.exists_owns (b.strict.le (Nat.zero_le i) hi)

theorem partialKeys_le_keys_iff (hj : j < b.partialTotalSize) (hi : i < b.size) :
    b.partialKeys j ≤ b.keys i ↔ interleave * j ≤ i := by
  have hbase := b.interleave_mul_partialTotalSize_le
  have hlt : interleave * j < b.size := by
    simp only [interleave] at hbase ⊢
    omega
  rw [← not_lt, partialKeys, b.strict.lt_iff hi hlt, not_lt]

/-- A base key's covered rank counts its block, up to the end of the slices. -/
theorem coveredRank_keys (hi : i < b.size) :
    b.coveredRank (b.keys i) = min (i / interleave + 1) b.covered := by
  refine IsCut.eq (b.isCut_coveredRank _) ⟨Nat.min_le_right _ _, fun j hj => ?_⟩
  have hcov := b.covered_le
  rw [partialKeys_le_keys_iff (hj.trans_le hcov) hi]
  simp only [interleave]
  omega

theorem curKeyOff_succ (l : ℕ) : DramIndex.curKeyOff (l + 1) = interleave * l := by
  rw [DramIndex.curKeyOff, if_neg (Nat.succ_ne_zero l), Nat.add_sub_cancel, Nat.mul_comm]

/-- The fallback reaches a base key's block exactly when a slice covers the block and the
search was not clamped. -/
theorem Over.scanBlock_fallback (hover : b.Over idx) (hpgm : b.Brackets pgm) (hi : i < b.size)
    (nr : ℕ → ℕ) (prev : DramLevel) :
    idx.scanBlock (DramIndex.curKeyOff (idx.fallbackBound (b.level nr prev) pgm (b.keys i)))
        (b.keys i) =
      if i / interleave < b.covered ∧ ¬ b.Clamped pgm (b.keys i) then some (i % interleave)
      else none := by
  obtain ⟨p, h⟩ := exists_owns_keys hi
  have hrank := coveredRank_keys hi
  have hcov := b.covered_pos
  rw [fallbackBound_eq hover hpgm h, hrank]
  generalize hq : i / interleave = q at hrank
  by_cases hclamp : b.Clamped pgm (b.keys i)
  · -- the clamped search ends in the block before the last one
    have hlast := hclamp.2.1
    have hle := b.covered_le
    rw [hclamp.1, ← coveredRank_eq_covered_iff, hrank] at hlast
    have htwo : nrPartition ≤ b.covered := Nat.le_mul_of_pos_left _ b.sliceSize_pos
    simp only [nrPartition] at htwo
    obtain ⟨l, hl⟩ : ∃ l, b.covered = l + 2 := ⟨b.covered - 2, by omega⟩
    rw [if_pos hclamp, hlast, if_neg (fun hc => hc.2 hclamp), hl, show l + 2 - 1 = l + 1 from rfl,
      curKeyOff_succ, hover.scanBlock_keys hi, hq, if_neg (by omega)]
  · rw [if_neg hclamp]
    obtain ⟨l, hl⟩ : ∃ l, min (q + 1) b.covered = l + 1 := ⟨min (q + 1) b.covered - 1, by omega⟩
    rw [hl, curKeyOff_succ, hover.scanBlock_keys hi, hq]
    refine if_congr ?_ rfl rfl
    simp only [hclamp, not_false_iff, and_true]
    omega

end BulkInput

end PimLex
