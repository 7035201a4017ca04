import PimLex.Pgm.Kernel
import PimLex.PointRead

/-!
# Pure search on trained indices

With the indices that bulk load trains, in host memory and on the DPUs, a read-only
search needs no assumption about the learned windows. Of the keys in the slices only
those of the very last block can be lost, and they are lost for every training.
-/

namespace PimLex.Pgm

open Fitting Search

/-- `pgm_dram_index[p]->search`. -/
def hostSearch (idx : ℕ → PgmIndex) (undefined : ℚ → ℤ) (p : ℕ) (k : DTYPE) : ℕ × ℕ :=
  (((idx p).search undefined k).lo, ((idx p).search undefined k).hi)

/-- The window of the kernel on the DPUs of partition `p`. -/
def kernelWindow (args : ℕ → DpuArguments) (models : ℕ → ℤ → PgmModel ℚ) (longBits : ℕ)
    (undefined : ℚ → ℤ) (p : ℕ) (k : DTYPE) : ℕ × ℕ :=
  (args p).window (kernelOps longBits undefined) (models p) (startLevel (args p)) k

/-- Every partition has an index trained on its slice, and its DPUs have the models. The sentinel is
no key, and the positions of a slice have 20 bits. -/
structure Deployed (b : BulkInput) (parallelism : ℕ) (epsilon : ℕ → ℕ) (idx : ℕ → PgmIndex)
    (args : ℕ → DpuArguments) (models : ℕ → ℤ → PgmModel ℚ) : Prop where
  parallelism_pos : 1 ≤ parallelism
  parallelism_le : parallelism ≤ 32
  below : ∀ i < b.size, b.keys i < 2 ^ 64 - 1
  epsilon_pos : ∀ p < nrPartition, 0 < epsilon p
  bits : ∀ p < nrPartition, b.sliceSize + epsilon p ≤ 2 ^ 20
  trained : ∀ p < nrPartition, (idx p).IsTrained parallelism (b.slice p) b.sliceSize (epsilon p)
  launched : ∀ p < nrPartition, Launched (args p) (models p) (idx p) (b.sliceSize * p)

/-- For a query of the partition the conversions of both searches have values. -/
structure Valued (longBits : ℕ) (idx : PgmIndex) (args : DpuArguments) (models : ℤ → PgmModel ℚ)
    (k : DTYPE) : Prop where
  host : Converts idx.segments idx.offset idx.height k
  kernel : KernelConverts longBits models args.levelOffset 0 k

variable {b : BulkInput} {parallelism longBits p i k : ℕ} {epsilon : ℕ → ℕ} {idx : ℕ → PgmIndex}
  {args : ℕ → DpuArguments} {models : ℕ → ℤ → PgmModel ℚ} {mram : ℕ → ℤ → DTYPE}

namespace Deployed

variable (hd : Deployed b parallelism epsilon idx args models)

include hd

theorem slice_lt (hp : p < nrPartition) (hi : i < b.sliceSize) : b.slice p i < 2 ^ 64 - 1 := by
  have hcov := (b.slice_lt_covered hp hi).trans_le b.covered_le
  have hbase := b.interleave_mul_partialTotalSize_le
  simp only [interleave] at hbase
  exact hd.below _ (by simp only [interleave]; omega)

theorem slice (hp : p < nrPartition) : Slice (b.slice p) b.sliceSize where
  pos := b.sliceSize_pos
  increasing := b.strict_slice hp
  word i hi := (hd.slice_lt hp hi).trans (by norm_num)
  head := hd.slice_lt hp b.sliceSize_pos

/-- The window of the host's search for a query of its partition. -/
theorem hostSearch_spec (undefined : ℚ → ℤ) (h : b.Owns p k) (hk : k < 2 ^ 64 - 1)
    (hvalue : Valued longBits (idx p) (args p) (models p) k) :
    (hostSearch idx undefined p k).1 ≤ rank (b.slice p) b.sliceSize k ∧
      rank (b.slice p) b.sliceSize k ≤ (hostSearch idx undefined p k).2 ∧
      (hostSearch idx undefined p k).2 ≤ b.sliceSize ∧
      (rank (b.slice p) b.sliceSize k = b.sliceSize →
        (hostSearch idx undefined p k).1 < b.sliceSize) := by
  have hlow : b.slice p 0 ≤ k := h.low
  have hmax : max (b.slice p 0) k = k := max_eq_right hlow
  have hlast := hd.slice_lt h.lt (Nat.sub_lt b.sliceSize_pos one_pos)
  have hused : usedCount (b.slice p) b.sliceSize = b.sliceSize := by
    rw [usedCount, if_neg hlast.ne, Nat.sub_zero]
  have hvalue' := hvalue.host
  rw [← hmax] at hvalue'
  obtain ⟨j, hj, hlo, hhi, hbehind⟩ := PgmIndex.search_spec undefined hd.parallelism_pos
    hd.parallelism_le (hd.slice h.lt) (hd.epsilon_pos p h.lt) (hd.bits p h.lt) (hd.trained p h.lt)
    (hk.trans (by norm_num)) hvalue'
  rw [hmax] at hj
  have hrank := PgmIndex.rank_eq_of_isLast (hd.slice h.lt) hk hj
  have hsize : ((idx p).search undefined k).hi ≤ b.sliceSize := by
    rw [PgmIndex.search, ← (hd.trained p h.lt).n_eq]
    exact addEps_le_size _ _ _
  rw [hostSearch, hrank]
  refine ⟨hlo, hhi, hsize, fun hfull => ?_⟩
  exact (hbehind (Or.inr (hfull.trans hused.symm))).trans_lt (by omega)

/-- The kernel with its learned window answers as with the whole slice. -/
theorem kernelAnswer_eq (undefined : ℚ → ℤ) (hmram : b.Loaded mram) (h : b.Owns p k)
    (hk : k < 2 ^ 64 - 1) (hvalue : Valued longBits (idx p) (args p) (models p) k) :
    b.kernelAnswer mram (kernelWindow args models longBits undefined) p k =
      b.kernelAnswer mram b.wholeSlice p k := by
  have hslice := hd.slice h.lt
  have hlast := hd.slice_lt h.lt (Nat.sub_lt b.sliceSize_pos one_pos)
  have hlaunched := hd.launched p h.lt
  have htrained := hd.trained p h.lt
  have hsize : (args p).inputSize = b.sliceSize := hlaunched.inputSize_eq.trans htrained.n_eq
  have hstart := hlaunched.startLevel_eq hd.parallelism_pos hd.parallelism_le hslice
    (hd.epsilon_pos p h.lt) (hd.bits p h.lt) htrained
  have hlevels : 0 < (args p).maxLevels := by
    obtain ⟨levels, hlevels, -, hlength, -⟩ := htrained.exists_levels hd.parallelism_pos
      hd.parallelism_le hslice (hd.epsilon_pos p h.lt) (hd.bits p h.lt)
    rw [hlaunched.maxLevels_eq, PgmIndex.height, hlength, Nat.add_sub_cancel]
    exact hlevels.pos
  have hanswer := searchAnswer_level undefined hd.parallelism_pos hd.parallelism_le hslice hlast
    (hd.epsilon_pos p h.lt) (hd.bits p h.lt) htrained hlaunched (hmram p h.lt) h.low hk hlevels
    hvalue.kernel
  have hwhole : kernelSearch (mram p) b.sliceSize (b.sliceSize * p) (0, b.sliceSize) k =
      if rank (b.slice p) b.sliceSize k < b.sliceSize then
        (rank (b.slice p) b.sliceSize k - 1 + b.sliceSize * p) * interleave
      else invaildPos := by
    have hrank := h.rank_pos
    have hcut := hslice.increasing.isCut_rank k
    generalize rank (b.slice p) b.sliceSize k = c at *
    obtain ⟨j, rfl⟩ : ∃ j, c = j + 1 := ⟨c - 1, by omega⟩
    have hword := (args p).pos_word
    rw [hsize, hlaunched.startPos_eq] at hword
    refine kernelSearch_of_window hword ⟨hcut.le, fun i hi => ?_⟩ (Or.inl (Nat.zero_le _))
      hcut.le le_rfl
    rw [hmram p h.lt i hi]
    exact hcut.iff i hi
  rw [BulkInput.kernelAnswer, BulkInput.kernelAnswer, BulkInput.wholeSlice, hwhole, ← hanswer,
    DpuArguments.searchAnswer, hsize, hlaunched.startPos_eq, kernelWindow, hstart]

end Deployed

section Congr

variable {nr : ℕ → ℕ} {prev : DramLevel} {window window' pgm pgm' : ℕ → DTYPE → ℕ × ℕ}
  {payloads : ℕ → StringPayload} {rd : ℕ}

/-- The host's own search uses the window of the owner alone. -/
theorem fallbackBound_congr (h : b.Owns p k) (hpgm : pgm p k = pgm' p k)
    (idx : DramIndex BufPage OptNode) :
    idx.fallbackBound (b.level nr prev) pgm k = idx.fallbackBound (b.level nr prev) pgm' k := by
  simp only [DramIndex.fallbackBound, h.fallbackPartition, DramIndex.fallbackWindow, hpgm]

/-- A read-only search uses the learned windows of the owner alone. -/
theorem pureSearch_congr (h : b.Owns p k) (hnr : 1 ≤ nr p)
    (hanswer : b.kernelAnswer mram window p k = b.kernelAnswer mram window' p k)
    (hpgm : pgm p k = pgm' p k) :
    b.pureSearch nr prev mram window pgm payloads rd k =
      b.pureSearch nr prev mram window' pgm' payloads rd k := by
  simp only [BulkInput.pureSearch, h.loadedPartition_searchUpperLevel hnr, hanswer,
    DramIndex.getRealPayload, DramIndex.dramRead, fallbackBound_congr h hpgm]

end Congr

/-- Bulk load can deploy its indices whenever the slices are not too long. -/
theorem exists_deployed (b : BulkInput) (parallelism epsilon : ℕ) (hpar : 1 ≤ parallelism)
    (hpar' : parallelism ≤ 32) (hbelow : ∀ i < b.size, b.keys i < 2 ^ 64 - 1) (he : 0 < epsilon)
    (hbits : b.sliceSize + epsilon ≤ 2 ^ 20) (hwidth : b.sliceSize ≤ 2500 * (2 * epsilon + 1)) :
    ∃ idx args models, Deployed b parallelism (fun _ => epsilon) idx args models := by
  have hslice : ∀ p < nrPartition, Slice (b.slice p) b.sliceSize := by
    intro p hp
    have hlt : ∀ i < b.sliceSize, b.slice p i < 2 ^ 64 - 1 := by
      intro i hi
      have hcov := (b.slice_lt_covered hp hi).trans_le b.covered_le
      have hbase := b.interleave_mul_partialTotalSize_le
      simp only [interleave] at hbase
      exact hbelow _ (by simp only [interleave]; omega)
    exact ⟨b.sliceSize_pos, b.strict_slice hp, fun i hi => (hlt i hi).trans (by norm_num),
      hlt 0 b.sliceSize_pos⟩
  have hexists : ∀ p, ∃ (idx : PgmIndex) (args : DpuArguments), p < nrPartition →
      idx.IsTrained parallelism (b.slice p) b.sliceSize epsilon ∧
        Launched args idx.segments idx (b.sliceSize * p) := by
    intro p
    by_cases hp : p < nrPartition
    · obtain ⟨idx, -, htrained⟩ := PgmIndex.exists_trained hpar hpar' (hslice p hp) he hbits
      have hepsilon : idx.epsilon < 2 ^ 31 := by
        rw [htrained.epsilon_eq]
        omega
      have hword : (idx.n + b.sliceSize * p) * interleave ≤ 2 ^ 32 := by
        have hcov := b.covered_le
        have hbase := b.interleave_mul_partialTotalSize_le
        have hint := b.size_int
        have hstep : b.sliceSize * (p + 1) ≤ b.covered := Nat.mul_le_mul_left _ hp
        rw [Nat.mul_succ] at hstep
        rw [htrained.n_eq]
        simp only [interleave] at hbase ⊢
        omega
      exact ⟨idx, inputArguments idx _ hepsilon hword, fun _ => ⟨htrained,
        launched_inputArguments hpar hpar' (hslice p hp) he hbits htrained hwidth _ hepsilon hword⟩⟩
    · exact ⟨⟨0, 0, 0, fun _ => default, []⟩, ⟨0, 0, fun _ => 0, 0, 0, by norm_num, by norm_num⟩,
        fun hlt => absurd hlt hp⟩
  choose idx args hspec using hexists
  exact ⟨idx, args, fun p => (idx p).segments, hpar, hpar', hbelow, fun _ _ => he, fun _ _ => hbits,
    fun p hp => (hspec p hp).1, fun p hp => (hspec p hp).2⟩

/-- At a base key the host's trained search is like windows that bracket every rank, which are
clamped for the keys of the last block of slices that cover everything. -/
theorem Deployed.exists_brackets (hd : Deployed b parallelism epsilon idx args models)
    (undefined : ℚ → ℤ) (hi : i < b.size) (h : b.Owns p (b.keys i))
    (hvalue : Valued longBits (idx p) (args p) (models p) (b.keys i)) :
    ∃ pgm, b.Brackets pgm ∧
      pgm p (b.keys i) = hostSearch idx undefined p (b.keys i) ∧
      (b.Clamped pgm (b.keys i) ↔ b.partialTotalSize = b.sliceSize * nrPartition ∧
        interleave * (b.partialTotalSize - 1) ≤ i) := by
  have hk := hd.below i hi
  obtain ⟨hlow, hhigh, hend, hfull⟩ := hd.hostSearch_spec undefined h hk hvalue
  -- elsewhere the windows do not matter
  let pgm : ℕ → DTYPE → ℕ × ℕ := fun p' k' =>
    if p' = p ∧ k' = b.keys i then hostSearch idx undefined p (b.keys i) else b.wholeSlice p' k'
  have hpgm : pgm p (b.keys i) = hostSearch idx undefined p (b.keys i) := if_pos ⟨rfl, rfl⟩
  refine ⟨pgm, fun p' k' h' => ?_, hpgm, ?_⟩
  · by_cases hsame : p' = p ∧ k' = b.keys i
    · obtain ⟨rfl, rfl⟩ := hsame
      rw [hpgm]
      exact ⟨hlow, hhigh, hend⟩
    · simp only [pgm, if_neg hsame]
      exact b.brackets_wholeSlice p' k' h'
  have hlast : b.partialKeys (b.partialTotalSize - 1) ≤ b.keys i ↔
      interleave * (b.partialTotalSize - 1) ≤ i := by
    refine BulkInput.partialKeys_le_keys_iff ?_ hi
    have hpos := b.covered_pos
    have hcov := b.covered_le
    omega
  rw [BulkInput.Clamped, hlast, BulkInput.covered]
  refine ⟨fun hand => ⟨hand.1, hand.2.1⟩, fun hand => ⟨hand.1, hand.2, ?_⟩⟩
  -- a key of the last block belongs to the last partition, where its rank is full
  have hcov : b.partialKeys (b.covered - 1) ≤ b.keys i := by
    rw [BulkInput.covered, ← hand.1]
    exact hlast.mpr hand.2
  obtain ⟨hp, hrank⟩ := h.rank_last (BulkInput.coveredRank_eq_covered_iff.mpr hcov)
  have hp' : nrPartition - 1 = p := by omega
  rw [hp', hpgm]
  exact hfull hrank

/-- With trained indices a read-only search finds a key unless it is in the last block of slices
that cover everything. -/
theorem Deployed.pureSearch_keys {undefined : ℚ → ℤ} {nr : ℕ → ℕ} {prev : DramLevel}
    {payloads : ℕ → StringPayload} {rd : ℕ}
    (hd : Deployed b parallelism epsilon idx args models) (hnr : ∀ p < nrPartition, 1 ≤ nr p)
    (hmram : b.Loaded mram) (hi : i < b.sliceSize * nrPartition * interleave)
    (hvalue : ∀ p, b.Owns p (b.keys i) →
      Valued longBits (idx p) (args p) (models p) (b.keys i)) :
    b.pureSearch nr prev mram (kernelWindow args models longBits undefined)
        (hostSearch idx undefined) payloads rd (b.keys i) =
      if b.partialTotalSize = b.sliceSize * nrPartition ∧
        interleave * (b.partialTotalSize - 1) ≤ i then none else some (payloads i) := by
  have hsize := (BulkInput.block_lt_covered hi).2
  obtain ⟨p, h⟩ := BulkInput.exists_owns_keys hsize
  obtain ⟨pgm, hbrackets, hpgm, hclamped⟩ :=
    hd.exists_brackets undefined hsize h (hvalue p h)
  rw [pureSearch_congr h (hnr p h.lt)
    (hd.kernelAnswer_eq undefined hmram h (hd.below i hsize) (hvalue p h)) hpgm.symm,
    BulkInput.pureSearch_keys hnr hmram b.brackets_wholeSlice hbrackets hi]
  simp only [hclamped]

/-- With trained indices a read-only search finds exactly the keys that are not in the last block of
slices that cover everything. -/
theorem pureSearch_trained_iff (b : BulkInput) (parallelism longBits : ℕ) (epsilon : ℕ → ℕ)
    (idx : ℕ → PgmIndex) (args : ℕ → DpuArguments) (models : ℕ → ℤ → PgmModel ℚ)
    (undefined : ℚ → ℤ) (nr : ℕ → ℕ) (prev : DramLevel) (mram : ℕ → ℤ → DTYPE)
    (payloads : ℕ → StringPayload) (rd i : ℕ)
    (hd : Deployed b parallelism epsilon idx args models) (hnr : ∀ p < nrPartition, 1 ≤ nr p)
    (hmram : b.Loaded mram) (hi : i < b.sliceSize * nrPartition * interleave)
    (hvalue : ∀ p, b.Owns p (b.keys i) →
      Valued longBits (idx p) (args p) (models p) (b.keys i)) :
    b.pureSearch nr prev mram (kernelWindow args models longBits undefined)
        (hostSearch idx undefined) payloads rd (b.keys i) = some (payloads i) ↔
      ¬ (b.partialTotalSize = b.sliceSize * nrPartition ∧
        interleave * (b.partialTotalSize - 1) ≤ i) := by
  rw [hd.pureSearch_keys hnr hmram hi hvalue]
  split
  case isTrue hlast => exact iff_of_false (Option.some_ne_none _).symm (not_not.mpr hlast)
  case isFalse hlast => exact iff_of_true rfl hlast

/-- The keys of a slice have values on the whole way, when they have 40 bits. -/
theorem Deployed.valued_slice (hd : Deployed b parallelism epsilon idx args models)
    (hp : p < nrPartition) (hi : i < b.sliceSize) (hbits : b.slice p i ≤ 2 ^ 40) (longBits : ℕ) :
    Valued longBits (idx p) (args p) (models p) (b.slice p i) where
  host := (hd.trained p hp).converts hd.parallelism_pos hd.parallelism_le (hd.slice hp)
    (hd.epsilon_pos p hp) (hd.bits p hp) ((b.strict_slice hp).le (Nat.zero_le i) hi) hbits
  kernel := (hd.launched p hp).kernelConverts hd.parallelism_pos hd.parallelism_le (hd.slice hp)
    (hd.epsilon_pos p hp) (hd.bits p hp) (hd.trained p hp) longBits ⟨i, hi, rfl⟩
    (hd.slice_lt hp hi)

section Kibi

theorem kibi_keys_lt {i : ℕ} (hi : i < BulkInput.kibi.size) : BulkInput.kibi.keys i < 2 ^ 40 := by
  change 1 * (i + 1) < 2 ^ 40
  change i < 1024 at hi
  omega

theorem exists_deployed_kibi :
    ∃ idx args models, Deployed BulkInput.kibi 8 (fun _ => 64) idx args models := by
  have hslice : BulkInput.kibi.sliceSize = 1 := by decide
  exact exists_deployed BulkInput.kibi 8 64 (by norm_num) (by norm_num)
    (fun i hi => (kibi_keys_lt hi).trans (by norm_num)) (by norm_num) (by rw [hslice]; norm_num)
    (by rw [hslice]; norm_num)

theorem kibi_owns {p : ℕ} (hp : p < nrPartition) :
    BulkInput.kibi.Owns p (BulkInput.kibi.keys (8 * p)) := by
  have hslice : BulkInput.kibi.sliceSize = 1 := by decide
  refine ⟨hp, ?_, fun hnext => ?_⟩
  · rw [BulkInput.lowBoundKey, hslice, Nat.one_mul]
    exact le_rfl
  · rw [BulkInput.lowBoundKey, hslice, Nat.one_mul]
    exact BulkInput.kibi.strict _ _ (by simp only [interleave]; omega) (by
      change 8 * (p + 1) < 1024
      simp only [nrPartition] at hnext
      omega)

/-- The first key of a slice has values on the whole way. -/
theorem valued_kibi {p : ℕ} (hd : Deployed BulkInput.kibi 8 (fun _ => 64) idx args models)
    (hp : p < nrPartition) (p' : ℕ)
    (howns : BulkInput.kibi.Owns p' (BulkInput.kibi.keys (8 * p))) :
    Valued 32 (idx p') (args p') (models p') (BulkInput.kibi.keys (8 * p)) := by
  obtain rfl := howns.unique (kibi_owns hp)
  have hslice : BulkInput.kibi.sliceSize = 1 := by decide
  have hsize : 8 * p' < BulkInput.kibi.size := by
    change 8 * p' < 1024
    simp only [nrPartition] at hp
    omega
  have hmem : BulkInput.kibi.slice p' 0 = BulkInput.kibi.keys (8 * p') := by
    rw [BulkInput.slice, hslice, Nat.one_mul]
    rfl
  rw [← hmem]
  refine hd.valued_slice hp BulkInput.kibi.sliceSize_pos ?_ 32
  rw [hmem]
  exact (kibi_keys_lt hsize).le

end Kibi

theorem pureSearch_trained_kibi :
    ∃ idx args models, Deployed BulkInput.kibi 8 (fun _ => 64) idx args models ∧ ∀ p < 127,
      BulkInput.kibi.pureSearch (fun _ => 1) .init BulkInput.kibi.mram
        (kernelWindow args models 32 truncate) (hostSearch idx truncate) (fun _ => .ofByte 99) 0
        (BulkInput.kibi.keys (8 * p)) = some (.ofByte 99) := by
  have hslice : BulkInput.kibi.sliceSize = 1 := by decide
  have htotal : BulkInput.kibi.partialTotalSize = 128 := by decide
  have hnr : nrPartition = 128 := rfl
  obtain ⟨idx, args, models, hd⟩ := exists_deployed_kibi
  refine ⟨idx, args, models, hd, fun p hp => ?_⟩
  refine (pureSearch_trained_iff BulkInput.kibi 8 32 (fun _ => 64) idx args models truncate
    (fun _ => 1) .init BulkInput.kibi.mram (fun _ => .ofByte 99) 0 (8 * p) hd (fun _ _ => le_rfl)
    BulkInput.kibi.loaded_mram (by simp only [hslice, hnr, interleave]; omega)
    (valued_kibi hd (by omega))).mpr ?_
  rw [htotal]
  simp only [interleave]
  omega

end PimLex.Pgm
