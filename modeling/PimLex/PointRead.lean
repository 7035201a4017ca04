import PimLex.Kernel

/-!
# Reading a payload

A read scans the block the kernel answered. When that fails it looks into the
page and the tree beside the block, and falls back to the host's own search. A
read-only run skips the buffered places on the way, so for it the two searches
have to find every base key between them.
-/

namespace PimLex

open Search

/-- How a read looks into a page and into a tree: what it finds, and for a tree the
returned flag beside what is written to the result. -/
structure ReadOps (Page Tree : Type) where
  findKeyPage : Page → DTYPE → Option StringPayload
  lookup : Tree → DTYPE → Bool × Option StringPayload

/-- The lookups as they stand: `find_key_page` assigns its own copy of the pointer, so the
reader sees the `'0'` it started from, and `lookup` never writes its result. -/
def ReadOps.standing : ReadOps BufPage OptNode where
  findKeyPage page _ := if page.pageCount = 0 then none else some (.ofByte 48)
  lookup t key :=
    (match t.lookup key with
      | .ok found => found
      | .error _ => false, none)

namespace DramIndex

variable {Page Tree : Type}

/-- Page first, then tree: the new `dram_check` beside what `ret` is set to. -/
def findBuffered (idx : DramIndex Page Tree) (ops : ReadOps Page Tree) (ipos partitionId : ℕ)
    (key : DTYPE) : Bool × Option StringPayload :=
  match ops.findKeyPage (idx.bufferPages ipos) key with
  | some v => (false, some v)
  | none => ops.lookup (idx.optOverflowTrees partitionId) key

/-- The scan of the answered block, skipped for `INVAILD_POS`. -/
def directScan (idx : DramIndex Page Tree) (key : DTYPE) (answer : ℕ) : Option ℕ :=
  if answer ≠ invaildPos then idx.scanBlock answer key else none

/-- The `dram_check` block of `get_real_payload`, entered with `ret`. -/
def dramRead (idx : DramIndex Page Tree) (ops : ReadOps Page Tree) (lvl : DramLevel)
    (pgm : ℕ → DTYPE → ℕ × ℕ) (dpu : ℕ) (key : DTYPE) (answer : ℕ)
    (ret : Option StringPayload) : Option StringPayload :=
  let cur := curKeyOff (idx.fallbackBound lvl pgm key)
  match idx.scanBlock cur key with
  | some k => some (idx.payloads (cur + k))
  | none =>
    -- the guard tests the raw answer, which is `INVAILD_POS` on the open queries
    if answer < idx.totalSize then
      (idx.findBuffered ops (answer / pageRatio) (lvl.dpuIdToPartition dpu) key).2.or ret
    else ret

/-- One request of `get_real_payload`: what it sets `ret` to, if anything. -/
def getRealPayload (idx : DramIndex Page Tree) (ops : ReadOps Page Tree) (lvl : DramLevel)
    (pgm : ℕ → DTYPE → ℕ × ℕ) (isPureRead : Bool) (dpu : ℕ) (key : DTYPE) (answer : ℕ) :
    Option StringPayload :=
  match idx.directScan key answer with
  | some k => some (idx.payloads (answer + k))
  | none =>
    let first :=
      if isPureRead = false ∧ answer < idx.totalSize then
        idx.findBuffered ops (answer / pageRatio) (lvl.dpuIdToPartition dpu) key
      else (true, none)
    if first.1 then idx.dramRead ops lvl pgm dpu key answer first.2 else first.2

section Cases

variable {idx : DramIndex Page Tree} {ops : ReadOps Page Tree} {lvl : DramLevel}
  {pgm : ℕ → DTYPE → ℕ × ℕ} {isPureRead : Bool} {dpu k answer : ℕ} {key : DTYPE}
  {ret : Option StringPayload}

theorem getRealPayload_direct (h : idx.directScan key answer = some k) :
    idx.getRealPayload ops lvl pgm isPureRead dpu key answer =
      some (idx.payloads (answer + k)) := by
  rw [getRealPayload, h]

theorem getRealPayload_pure (h : idx.directScan key answer = none) :
    idx.getRealPayload ops lvl pgm true dpu key answer =
      idx.dramRead ops lvl pgm dpu key answer none := by
  simp [getRealPayload, h]

theorem dramRead_found
    (h : idx.scanBlock (curKeyOff (idx.fallbackBound lvl pgm key)) key = some k) :
    idx.dramRead ops lvl pgm dpu key answer ret =
      some (idx.payloads (curKeyOff (idx.fallbackBound lvl pgm key) + k)) := by
  rw [dramRead, h]

theorem dramRead_missed
    (h : idx.scanBlock (curKeyOff (idx.fallbackBound lvl pgm key)) key = none) :
    idx.dramRead ops lvl pgm dpu key answer ret =
      if answer < idx.totalSize then
        (idx.findBuffered ops (answer / pageRatio) (lvl.dpuIdToPartition dpu) key).2.or ret
      else ret := by
  rw [dramRead, h]

end Cases

end DramIndex

namespace BulkInput

/-- The whole read-only path for request number `rd`: routing, the kernel on the slice the
chosen DPU was loaded with, and `get_real_payload` over the bulk-loaded index with any
payload array. -/
def pureSearch (b : BulkInput) (nr : ℕ → ℕ) (prev : DramLevel) (mram : ℕ → ℤ → DTYPE)
    (window pgm : ℕ → DTYPE → ℕ × ℕ) (payloads : ℕ → StringPayload) (rd : ℕ) (key : DTYPE) :
    Option StringPayload :=
  let lvl := b.level nr prev
  let dpu := lvl.searchUpperLevel key rd
  let answer := b.kernelAnswer mram window (ReplicaCursor.loadedPartition nr dpu) key
  { b.bulkLoad with payloads := payloads }.getRealPayload .standing lvl pgm true dpu key answer

variable {b : BulkInput} {nr : ℕ → ℕ} {prev : DramLevel} {mram : ℕ → ℤ → DTYPE}
  {window pgm : ℕ → DTYPE → ℕ × ℕ} {p : ℕ} {k : DTYPE}

theorem level_nrReplicas : (b.level nr prev).nrReplicasPerPartition = nr := by
  rw [level, DramLevel.getStartDpuId_nrReplicas]

theorem level_dpuIdToPartition {d : ℕ} (hp : p < nrPartition) (hd : Hosts nr d p) :
    (b.level nr prev).dpuIdToPartition d = p := by
  rw [level, DramLevel.getStartDpuId_dpuIdToPartition hp hd]

/-- Routing picks a DPU among the replicas of the query's partition. -/
theorem Owns.hosts_searchUpperLevel (h : b.Owns p k) (hnr : 1 ≤ nr p) (rd : ℕ) :
    Hosts nr ((b.level nr prev).searchUpperLevel k rd) p := by
  have hstart : (b.level nr prev).startDpuId p = firstDpu nr p := by
    rw [level, DramLevel.getStartDpuId_startDpuId h.lt]
  rw [DramLevel.searchUpperLevel, h.upperLevelBound, level_nrReplicas]
  simp only [Nat.add_sub_cancel, hstart]
  exact hosts_of_mod hnr rd

/-- The DPU chosen for a query was loaded with the slice of the query's partition. -/
theorem Owns.loadedPartition_searchUpperLevel (h : b.Owns p k) (hnr : 1 ≤ nr p) (rd : ℕ) :
    ReplicaCursor.loadedPartition nr ((b.level nr prev).searchUpperLevel k rd) = p :=
  ReplicaCursor.loadedPartition_eq h.lt (h.hosts_searchUpperLevel hnr rd)

/-- On a match the fallback's position is the base key's own. -/
theorem Over.fallback_position {Page Tree : Type} {idx : DramIndex Page Tree} (hover : b.Over idx)
    {off m i : ℕ} (hi : i < b.size) (h : idx.scanBlock off (b.keys i) = some m) : off + m = i := by
  obtain ⟨hsize, hkey⟩ := hover.scanBlock_eq_some h
  exact b.strict.inj hsize hi hkey

/-- With empty pages, the standing lookups leave a base key to the fallback search alone. -/
theorem dramRead_standing {idx : DramIndex BufPage OptNode} {dpu answer i : ℕ}
    (hover : b.Over idx) (hempty : ∀ j, idx.bufferPages j = BufPage.init)
    (hpgm : b.Brackets pgm) (hi : i < b.size) :
    idx.dramRead .standing (b.level nr prev) pgm dpu (b.keys i) answer none =
      if i / interleave < b.covered ∧ ¬ b.Clamped pgm (b.keys i) then some (idx.payloads i)
      else none := by
  have hscan := hover.scanBlock_fallback hpgm hi nr prev
  by_cases hreach : i / interleave < b.covered ∧ ¬ b.Clamped pgm (b.keys i)
  · rw [if_pos hreach] at hscan ⊢
    rw [DramIndex.dramRead_found hscan, hover.fallback_position hi hscan]
  · rw [if_neg hreach] at hscan ⊢
    rw [DramIndex.dramRead_missed hscan]
    have hnone : ∀ ipos q, (idx.findBuffered .standing ipos q (b.keys i)).2 = none := by
      intro ipos q
      rw [DramIndex.findBuffered, hempty]
      rfl
    rw [hnone]
    exact ite_self none

/-- The direct scan finds a base key below the last block of its slice, except in the one
block whose position is `INVAILD_POS`. -/
theorem Owns.directScan_keys {Page Tree : Type} {idx : DramIndex Page Tree} {answer i : ℕ}
    (hover : b.Over idx) (hi : i < b.size) (h : b.Owns p (b.keys i))
    (hans : b.CorrectAnswer p (b.keys i) answer) (hne : answer ≠ invaildPos) :
    idx.directScan (b.keys i) answer = some (i % interleave) ∧ answer + i % interleave = i := by
  have hlow := hans.low hne
  have hlt := h.coveredRank_lt hlow
  have hrank := coveredRank_keys hi
  have hblock := h.block_eq hlow hans
  have hdiv := Nat.div_add_mod i interleave
  generalize hq : i / interleave = q at hrank hdiv
  have hanswer : answer = interleave * q := by
    rw [hblock, hrank]
    congr 1
    omega
  rw [DramIndex.directScan, if_pos hne, hanswer, hover.scanBlock_keys hi, if_pos hq]
  exact ⟨rfl, hdiv⟩

theorem block_lt_covered {i : ℕ} (hi : i < b.sliceSize * nrPartition * interleave) :
    i / interleave < b.covered ∧ i < b.size := by
  have hmul := Nat.mul_le_mul_left interleave b.covered_le
  rw [covered, Nat.mul_comm] at hmul
  exact ⟨(Nat.div_lt_iff_lt_mul (by decide)).mpr hi,
    hi.trans_le (hmul.trans b.interleave_mul_partialTotalSize_le)⟩

/-- A clamped query is at or above the last partial key of the last slice, so the kernel
leaves it open. -/
theorem Owns.invalid_of_clamped {answer : ℕ} (h : b.Owns p k) (hans : b.CorrectAnswer p k answer)
    (hclamp : b.Clamped pgm k) : answer = invaildPos := by
  by_contra hne
  have hlow := hans.low hne
  have hfull := hclamp.2.1
  rw [hclamp.1, ← coveredRank_eq_covered_iff] at hfull
  exact absurd hfull (h.coveredRank_lt hlow).ne

/-- A read-only search of a covered base key fails exactly when the fallback is clamped. -/
theorem pureSearch_keys {payloads : ℕ → StringPayload} {rd i : ℕ}
    (hnr : ∀ p < nrPartition, 1 ≤ nr p) (hmram : b.Loaded mram) (hwindow : b.Brackets window)
    (hpgm : b.Brackets pgm) (hi : i < b.sliceSize * nrPartition * interleave) :
    b.pureSearch nr prev mram window pgm payloads rd (b.keys i) =
      if b.Clamped pgm (b.keys i) then none else some (payloads i) := by
  obtain ⟨hblock, hsize⟩ := block_lt_covered hi
  obtain ⟨p, h⟩ := exists_owns_keys hsize
  have hans := kernelAnswer_correct hmram hwindow h
  have hover : b.Over { b.bulkLoad with payloads := payloads } :=
    (Over.bulkLoad b).buffers _ _ _
  rw [pureSearch]
  simp only [h.loadedPartition_searchUpperLevel (hnr p h.lt)]
  by_cases hne : b.kernelAnswer mram window p (b.keys i) = invaildPos
  · -- the last block of a slice is left to the host's search
    have hscan : { b.bulkLoad with payloads := payloads }.directScan (b.keys i)
        (b.kernelAnswer mram window p (b.keys i)) = none := if_neg (not_not.mpr hne)
    rw [DramIndex.getRealPayload_pure hscan, dramRead_standing hover (fun _ => rfl) hpgm hsize]
    simp only [hblock, true_and]
    exact ite_not _ _ _
  · -- the scan of the answered block finds the key, and its partition is not clamped
    obtain ⟨hscan, hpos⟩ := h.directScan_keys hover hsize hans hne
    rw [DramIndex.getRealPayload_direct hscan, hpos,
      if_neg fun hclamp => hne (h.invalid_of_clamped hans hclamp)]

/-- A read-only search answers a base key exactly when its block is not the very last one of
fully covering slices whose learned window starts before their end. -/
theorem pureSearch_eq_payload_iff (b : BulkInput) (nr : ℕ → ℕ) (prev : DramLevel)
    (mram : ℕ → ℤ → DTYPE) (window pgm : ℕ → DTYPE → ℕ × ℕ) (payloads : ℕ → StringPayload)
    (rd i : ℕ) (hnr : ∀ p < nrPartition, 1 ≤ nr p) (hmram : b.Loaded mram)
    (hwindow : b.Brackets window) (hpgm : b.Brackets pgm)
    (hi : i < b.sliceSize * nrPartition * interleave) :
    b.pureSearch nr prev mram window pgm payloads rd (b.keys i) = some (payloads i) ↔
      ¬ (b.partialTotalSize = b.sliceSize * nrPartition ∧
        interleave * (b.partialTotalSize - 1) ≤ i ∧
        (pgm (nrPartition - 1) (b.keys i)).1 < b.sliceSize) := by
  have hlast : b.partialKeys (b.partialTotalSize - 1) ≤ b.keys i ↔
      interleave * (b.partialTotalSize - 1) ≤ i := by
    refine partialKeys_le_keys_iff ?_ (block_lt_covered hi).2
    have hpos := b.covered_pos
    have hcov := b.covered_le
    omega
  rw [pureSearch_keys hnr hmram hwindow hpgm hi]
  simp only [Clamped, covered, hlast]
  split_ifs with hclamp
  · exact iff_of_false (by simp) (not_not.mpr hclamp)
  · exact iff_of_true rfl hclamp

/-- The first key of 1024 is found. -/
theorem pureSearch_kibi_first :
    kibi.pureSearch (fun _ => 1) .init kibi.mram kibi.wholeSlice kibi.wholeSlice
      (fun _ => .ofByte 99) 0 (kibi.keys 0) = some (.ofByte 99) :=
  (pureSearch_eq_payload_iff kibi (fun _ => 1) .init kibi.mram kibi.wholeSlice kibi.wholeSlice
    (fun _ => .ofByte 99) 0 0 (fun _ _ => le_rfl) kibi.loaded_mram kibi.brackets_wholeSlice
    kibi.brackets_wholeSlice (by decide)).mpr (by decide)

/-- Key 1017 of 1024, in the last block, is in range and is not found. -/
theorem pureSearch_kibi_lost :
    1016 < kibi.sliceSize * nrPartition * interleave ∧ kibi.Loaded kibi.mram ∧
      kibi.Brackets kibi.wholeSlice ∧
      kibi.pureSearch (fun _ => 1) .init kibi.mram kibi.wholeSlice kibi.wholeSlice
        (fun _ => .ofByte 99) 0 (kibi.keys 1016) ≠ some (.ofByte 99) := by
  refine ⟨by decide, kibi.loaded_mram, kibi.brackets_wholeSlice, ?_⟩
  rw [pureSearch_keys (fun _ _ => le_rfl) kibi.loaded_mram kibi.brackets_wholeSlice
    kibi.brackets_wholeSlice (by decide), if_pos (by decide)]
  exact (Option.some_ne_none _).symm

end BulkInput

end PimLex
