import PimLex.Page
import PimLex.Replica
import PimLex.Tree.Lookup

/-!
# The index after bulk load

Every eighth base key is a partial key. The first `128 * S` partial keys are cut
into slices of `S`, one for each partition; the keys after them form an
uncovered tail. A query's rank among the covered partial keys determines its
partition, its rank inside the slice and its block at once.
-/

namespace PimLex

open Search

/-- `DRAM_index`, over the types of its pages and of its overflow trees. -/
structure DramIndex (Page Tree : Type) where
  minKey : DTYPE
  partialKeys : ℕ → DTYPE
  keys : ℕ → DTYPE
  payloads : ℕ → StringPayload
  totalSize : ℕ
  partialTotalSize : ℕ
  bufferPages : ℕ → Page
  optOverflowTrees : ℕ → Tree

namespace DramIndex

variable {Page Tree : Type}

/-- `per_dpu_input_size`, the length of a slice. -/
def perDpuInputSize (idx : DramIndex Page Tree) : ℕ := idx.partialTotalSize / nrPartition

end DramIndex

/-- What `main` hands to `bulk_load_for_dpu`: sorted distinct keys, their number read as an
`int`, enough of them for a partial key in every slice. -/
structure BulkInput where
  keys : ℕ → DTYPE
  size : ℕ
  strict : StrictIncr keys size
  size_int : size < 2 ^ 31
  slice_pos : 1 ≤ size / interleave / nrPartition

namespace BulkInput

/-- The first `size` positive multiples of `m`. -/
def multiples (m size : ℕ) (pos : 0 < m) (size_int : size < 2 ^ 31)
    (slice_pos : 1 ≤ size / interleave / nrPartition) : BulkInput where
  keys i := m * (i + 1)
  size := size
  strict _ _ hij _ := Nat.mul_lt_mul_of_pos_left (Nat.succ_lt_succ hij) pos
  size_int := size_int
  slice_pos := slice_pos

/-- The first 1024 positive multiples of `m`: 128 slices of one partial key. -/
def kibiMultiples (m : ℕ) (pos : 0 < m) : BulkInput :=
  multiples m 1024 pos (by decide) (by decide)

/-- The input of the keys 1 to 1024. -/
def kibi : BulkInput := kibiMultiples 1 Nat.one_pos

/-- Slot `i` of the sampling loop over every `INTERLEAVE`-th key. -/
def partialKeys (b : BulkInput) (i : ℕ) : DTYPE := b.keys (interleave * i)

/-- `partial_total_size`. -/
def partialTotalSize (b : BulkInput) : ℕ := b.size / interleave

/-- The length `S` of a slice. -/
def sliceSize (b : BulkInput) : ℕ := b.partialTotalSize / nrPartition

/-- How many partial keys the slices cover. -/
def covered (b : BulkInput) : ℕ := b.sliceSize * nrPartition

/-- The insertions into the overflow tree of partition `i`: the sentinel and 100 samples. -/
def treeCalls (b : BulkInput) (i : ℕ) : List (DTYPE × StringPayload) :=
  (1, .ofByte 97) :: (List.range 100).map fun j =>
    (b.partialKeys (min (b.sliceSize * i + j * 800) (b.partialTotalSize - 1)), .ofByte 97)

/-- The overflow tree of partition `i`. -/
def tree (b : BulkInput) (i : ℕ) : OptNode :=
  match OptNode.empty.insertAll (b.treeCalls i) with
  | .ok t => t
  | .error _ => OptNode.empty

/-- `bulk_load_for_dpu`: base arrays, empty pages, partial keys and overflow trees. -/
def bulkLoad (b : BulkInput) : DramIndex BufPage OptNode where
  minKey := b.keys 0
  partialKeys := b.partialKeys
  keys := b.keys
  payloads _ := .ofByte 99
  totalSize := b.size
  partialTotalSize := b.partialTotalSize
  bufferPages _ := BufPage.init
  optOverflowTrees := b.tree

/-- `low_bound_key[i]`. -/
def lowBoundKey (b : BulkInput) (i : ℕ) : DTYPE := b.partialKeys (b.sliceSize * i)

/-- The routing tables for the replica vector `nr`, built over any earlier contents. -/
def level (b : BulkInput) (nr : ℕ → ℕ) (prev : DramLevel) : DramLevel :=
  DramLevel.getStartDpuId
    { prev with lowBoundKey := b.lowBoundKey, nrReplicasPerPartition := nr }

/-- The slice of partition `p`, as pushed to its DPUs. -/
def slice (b : BulkInput) (p i : ℕ) : DTYPE := b.partialKeys (b.sliceSize * p + i)

variable (b : BulkInput) {p q i j : ℕ} {k : DTYPE}

theorem sliceSize_pos : 0 < b.sliceSize := b.slice_pos

theorem covered_le : b.covered ≤ b.partialTotalSize := Nat.div_mul_le_self _ _

theorem covered_pos : 0 < b.covered := Nat.mul_pos b.sliceSize_pos (by decide)

theorem covered_of_last (hp : p + 1 = nrPartition) :
    b.covered = b.sliceSize * p + b.sliceSize := by
  rw [covered, ← hp, Nat.mul_succ]

theorem interleave_mul_partialTotalSize_le : interleave * b.partialTotalSize ≤ b.size :=
  Nat.mul_div_le _ _

theorem strict_partialKeys : StrictIncr b.partialKeys b.partialTotalSize := by
  intro i j hij hj
  have hle := b.interleave_mul_partialTotalSize_le
  simp only [interleave] at hle
  apply b.strict _ _ (Nat.mul_lt_mul_of_pos_left hij (by decide))
  simp only [interleave]
  omega

/-- How many covered partial keys are at most `k`. -/
def coveredRank (k : DTYPE) : ℕ := rank b.partialKeys b.covered k

theorem isCut_coveredRank (k : DTYPE) :
    IsCut (fun i => b.partialKeys i ≤ k) b.covered (b.coveredRank k) :=
  (b.strict_partialKeys.mono b.covered_le).isCut_rank k

theorem coveredRank_le : b.coveredRank k ≤ b.covered := (b.isCut_coveredRank k).le

/-- Partition `p` covers the query: it is the last one whose first key is at most `k`. -/
structure Owns (p : ℕ) (k : DTYPE) : Prop where
  lt : p < nrPartition
  low : b.lowBoundKey p ≤ k
  high : p + 1 < nrPartition → k < b.lowBoundKey (p + 1)

theorem slice_lt_covered (hp : p < nrPartition) (hi : i < b.sliceSize) :
    b.sliceSize * p + i < b.covered := by
  have hstep : b.sliceSize * (p + 1) ≤ b.covered := Nat.mul_le_mul_left _ hp
  rw [Nat.mul_succ] at hstep
  omega

theorem strict_lowBoundKey : StrictIncr b.lowBoundKey nrPartition := by
  intro i j hij hj
  have hpos := b.sliceSize_pos
  apply b.strict_partialKeys _ _ (Nat.mul_lt_mul_of_pos_left hij hpos)
  exact (b.slice_lt_covered (i := 0) hj hpos).trans_le b.covered_le

theorem strict_slice (hp : p < nrPartition) : StrictIncr (b.slice p) b.sliceSize := by
  intro i j hij hj
  exact b.strict_partialKeys _ _ (by omega) ((b.slice_lt_covered hp hj).trans_le b.covered_le)

/-- Every key from the first one on has an owner. -/
theorem exists_owns (hk : b.partialKeys 0 ≤ k) : ∃ p, b.Owns p k := by
  have hcut := b.strict_lowBoundKey.isCut_rank k
  have hpos : 0 < rank b.lowBoundKey nrPartition k :=
    (hcut.iff 0 (by decide)).mp (by simpa [lowBoundKey] using hk)
  generalize rank b.lowBoundKey nrPartition k = c at hcut hpos
  have hle := hcut.le
  refine ⟨c - 1, by omega, (hcut.iff (c - 1) (by omega)).mpr (by omega), fun h => ?_⟩
  exact not_le.mp (mt (hcut.iff (c - 1 + 1) h).mp (by omega))

/-- The routing search stops just past the owner. -/
theorem Owns.upperLevelBound {b : BulkInput} (h : b.Owns p k) (nr : ℕ → ℕ) (prev : DramLevel) :
    (b.level nr prev).upperLevelBound k = p + 1 := by
  have hcut : IsCut (fun i => b.lowBoundKey i ≤ k) nrPartition (p + 1) := by
    refine ⟨h.lt, fun i hi => ⟨fun hle => ?_, fun hlt => ?_⟩⟩
    · by_contra hgt
      have hmono := b.strict_lowBoundKey.le (show p + 1 ≤ i by omega) hi
      exact absurd (h.high (by omega)) (not_lt.mpr (hmono.trans hle))
    · exact (b.strict_lowBoundKey.le (Nat.lt_succ_iff.mp hlt) h.lt).trans h.low
  rw [DramLevel.upperLevelBound, level, DramLevel.getStartDpuId_lowBoundKey]
  exact upperBound_eq_rank hcut (Nat.zero_le _) hcut.le le_rfl

theorem Owns.unique {b : BulkInput} (hp : b.Owns p k) (hq : b.Owns q k) : p = q := by
  have heq := (hp.upperLevelBound (fun _ => 0) .init).symm.trans (hq.upperLevelBound _ .init)
  omega

/-- The rank inside the owner's slice is the covered rank less the slices before it. -/
theorem Owns.rank_slice {b : BulkInput} (h : b.Owns p k) :
    b.sliceSize * p + rank (b.slice p) b.sliceSize k = b.coveredRank k := by
  have hslice := (b.strict_slice h.lt).isCut_rank k
  refine IsCut.eq (p := fun i => b.partialKeys i ≤ k) (n := b.covered) ⟨?_, fun i hi => ?_⟩
    (b.isCut_coveredRank k)
  · have hend : b.sliceSize * (p + 1) ≤ b.covered := Nat.mul_le_mul_left _ h.lt
    rw [Nat.mul_succ] at hend
    have hle := hslice.le
    omega
  · rcases lt_or_ge i (b.sliceSize * p) with hlt | hge
    · refine ⟨fun _ => by omega, fun _ => ?_⟩
      exact (b.strict_partialKeys.le hlt.le
        ((b.slice_lt_covered (i := 0) h.lt b.sliceSize_pos).trans_le b.covered_le)).trans h.low
    · -- from the slice's start on the partial keys are the slice, then the next partition's
      obtain ⟨m, rfl⟩ := Nat.exists_eq_add_of_le hge
      rcases lt_or_ge m b.sliceSize with hm | hm
      · rw [show b.partialKeys (b.sliceSize * p + m) = b.slice p m from rfl]
        rw [hslice.iff m hm]
        omega
      · have hnext : p + 1 < nrPartition := by
          by_contra hlast
          have hp : p + 1 = nrPartition := le_antisymm h.lt (Nat.not_lt.mp hlast)
          have hc := b.covered_of_last hp
          omega
        have hle := hslice.le
        refine ⟨fun hik => absurd hik (not_le.mpr ?_), fun hlt => by omega⟩
        refine (h.high hnext).trans_le (b.strict_partialKeys.le ?_ (hi.trans_le b.covered_le))
        rw [Nat.mul_succ]
        omega

theorem Owns.rank_pos {b : BulkInput} (h : b.Owns p k) : 0 < rank (b.slice p) b.sliceSize k :=
  (((b.strict_slice h.lt).isCut_rank k).iff 0 b.sliceSize_pos).mp h.low

theorem rank_slice_le : rank (b.slice p) b.sliceSize k ≤ b.sliceSize := Nat.count_le _

section BulkTree

/-- The bulk-loaded tree holds the sentinel, and nothing that was not inserted. -/
theorem tree_spec (q : ℕ) :
    (b.tree q).Wf ∧ (b.tree q).HasKey 1 ∧ ∀ e ∈ (b.tree q).entries, e ∈ b.treeCalls q := by
  obtain ⟨t, hall, wf, hsub⟩ := OptNode.insertAll_ok OptNode.wf_empty (b.treeCalls q)
  have htree : b.tree q = t := by rw [tree, hall]
  have hfirst : OptNode.empty.insert 1 (.ofByte 97) = .ok (true, .leaf [(1, .ofByte 97)]) := rfl
  have wf₁ : (OptNode.leaf [(1, StringPayload.ofByte 97)]).Wf :=
    ⟨List.pairwise_singleton _ _, by rw [List.length_singleton]; decide⟩
  obtain ⟨t', hrest, -, hkeep, -⟩ := OptNode.insertAll_ok wf₁ (b.treeCalls q).tail
  have htail : OptNode.empty.insertAll (b.treeCalls q) =
      (OptNode.leaf [(1, .ofByte 97)]).insertAll (b.treeCalls q).tail :=
    OptNode.insertAll_cons hfirst
  rw [hall, hrest, Except.ok.injEq] at htail
  rw [htree]
  refine ⟨wf, OptNode.hasKey_iff.mpr ⟨.ofByte 97, ?_⟩, fun e he => ?_⟩
  · rw [htail]
    exact hkeep _ List.mem_cons_self
  · exact (hsub.2 e he).resolve_left (by simp [OptNode.empty])

theorem payload_treeCalls {b : BulkInput} {e : DTYPE × StringPayload} (he : e ∈ b.treeCalls q) :
    e.2 = .ofByte 97 := by
  rcases List.mem_cons.mp he with rfl | he
  · rfl
  · obtain ⟨j, -, rfl⟩ := List.mem_map.mp he
    rfl

end BulkTree

end BulkInput

end PimLex
