import PimLex.Index
import Mathlib.Data.List.Intervals

/-!
# Warm-up sampling

The replica allocation follows the accesses of a sample of the requests: `main`
routes the first million, a merge those of an interval it is called with. Each
routed request is counted for its partition. Neither loop looks at the number of
requests, and neither filters the keys below the smallest loaded one, whose
counter would lie in front of the row.
-/

namespace PimLex

open Search Finset

/-- One pass of a warm-up loop over the thread's row of `access_num`: the request is read, and
`search_upper_level` counts it; `none` for a position outside the requests or the row. -/
def sampleReq (lvl : DramLevel) (querys : ℕ → DTYPE) (numQuerys : ℕ) (accessNum : ℕ → ℕ)
    (req : ℕ) : Option (ℕ → ℕ) :=
  if req < numQuerys then
    let l := lvl.upperLevelBound (querys req)
    if l = 0 then none
    else some (Function.update accessNum (l - 1) (accessNum (l - 1) + 1))
  else none

/-- A warm-up loop over `[startQuery, endQuery)`, from cleared counters. -/
def warmUp (lvl : DramLevel) (querys : ℕ → DTYPE) (numQuerys startQuery endQuery : ℕ) :
    Option (ℕ → ℕ) :=
  (List.Ico startQuery endQuery).foldlM (sampleReq lvl querys numQuerys) fun _ => 0

/-- The requests that `main` samples, and the total it passes on. -/
def sampleSize : ℕ := 1000000

/-- The warm-up of `main`, over the index just loaded. -/
def mainWarmUp (b : BulkInput) (nr : ℕ → ℕ) (prev : DramLevel) (querys : ℕ → DTYPE)
    (numQuerys : ℕ) : Option (ℕ → ℕ) :=
  warmUp (b.level nr prev) querys numQuerys 0 sampleSize

/-- The warm-up of `merge_and_retrain`: the merged index has its low bounds, and still the
replicas of the last one. -/
def mergeWarmUp (merged : BulkInput) (lvl : DramLevel) (querys : ℕ → DTYPE)
    (numQuerys startQuery endQuery : ℕ) : Option (ℕ → ℕ) :=
  warmUp { lvl with lowBoundKey := merged.lowBoundKey } querys numQuerys startQuery endQuery

/-- The `end_query` that a thread in a round from `roundStart` on passes to the merge. -/
def mergeEndQuery (roundStart : ℕ) : ℕ := roundStart + 10000

/-- A warm-up has stayed within its arrays, and its counters sum to the total passed on. -/
def CountsEach (total : ℕ) (result : Option (ℕ → ℕ)) : Prop :=
  ∃ accessNum, result = some accessNum ∧ ∑ p ∈ range nrPartition, accessNum p = total

section Loop

variable {lvl : DramLevel} {querys : ℕ → DTYPE} {numQuerys req total : ℕ} {accessNum : ℕ → ℕ}
  {reqs : List ℕ}

/-- A request that the loop may read, and that belongs to a partition. -/
def Samples (lvl : DramLevel) (querys : ℕ → DTYPE) (numQuerys req : ℕ) : Prop :=
  req < numQuerys ∧ lvl.upperLevelBound (querys req) ≠ 0

/-- A sampled request raises the sum of the counters by one. -/
theorem countsEach_sampleReq (h : Samples lvl querys numQuerys req)
    (hsum : ∑ p ∈ range nrPartition, accessNum p = total) :
    CountsEach (total + 1) (sampleReq lvl querys numQuerys accessNum req) := by
  have hle := lvl.upperLevelBound_le (querys req)
  have hmem : lvl.upperLevelBound (querys req) - 1 ∈ range nrPartition := by
    rw [mem_range]
    have := h.2
    omega
  refine ⟨_, by rw [sampleReq, if_pos h.1, if_neg h.2], ?_⟩
  rw [sum_update_of_mem hmem, ← hsum, ← add_sum_erase _ _ hmem, sdiff_singleton_eq_erase]
  omega

theorem sampleReq_of_not (h : ¬ Samples lvl querys numQuerys req) :
    sampleReq lvl querys numQuerys accessNum req = none := by
  rw [sampleReq]
  by_cases hlt : req < numQuerys
  · have hzero : lvl.upperLevelBound (querys req) = 0 := not_not.mp fun hne => h ⟨hlt, hne⟩
    rw [if_pos hlt, if_pos hzero]
  · rw [if_neg hlt]

/-- A loop counts its requests exactly if each of them can be sampled. -/
theorem countsEach_foldlM_iff (hsum : ∑ p ∈ range nrPartition, accessNum p = total) :
    CountsEach (total + reqs.length) (reqs.foldlM (sampleReq lvl querys numQuerys) accessNum) ↔
      ∀ req ∈ reqs, Samples lvl querys numQuerys req := by
  induction reqs generalizing accessNum total with
  | nil => exact ⟨fun _ _ h => absurd h List.not_mem_nil, fun _ => ⟨accessNum, rfl, hsum⟩⟩
  | cons req reqs ih =>
    rw [List.forall_mem_cons, List.foldlM_cons, List.length_cons]
    by_cases hreq : Samples lvl querys numQuerys req
    · obtain ⟨next, hnext, hsum'⟩ := countsEach_sampleReq hreq hsum
      rw [hnext, ← ih hsum', and_iff_right hreq, Nat.add_right_comm, Nat.add_assoc]
      rfl
    · rw [sampleReq_of_not hreq]
      exact ⟨fun ⟨_, hnone, _⟩ => absurd hnone.symm (Option.some_ne_none _),
        fun h => absurd h.1 hreq⟩

theorem countsEach_warmUp_iff {startQuery endQuery : ℕ} :
    CountsEach (endQuery - startQuery) (warmUp lvl querys numQuerys startQuery endQuery) ↔
      ∀ req, startQuery ≤ req → req < endQuery → Samples lvl querys numQuerys req := by
  have hloop := @countsEach_foldlM_iff lvl querys numQuerys 0 (fun _ => 0)
    (List.Ico startQuery endQuery) (sum_const_zero)
  rw [List.Ico.length, Nat.zero_add] at hloop
  rw [warmUp, hloop]
  simp only [List.Ico.mem, and_imp]

end Loop

namespace BulkInput

variable (b : BulkInput) {lvl : DramLevel} {querys : ℕ → DTYPE} {numQuerys req : ℕ}

theorem samples_iff (hlvl : lvl.lowBoundKey = b.lowBoundKey) :
    Samples lvl querys numQuerys req ↔ req < numQuerys ∧ b.lowBoundKey 0 ≤ querys req := by
  have hmono : ∀ i j, i < j → j < nrPartition → lvl.lowBoundKey i ≤ lvl.lowBoundKey j := by
    rw [hlvl]
    exact fun i j hij hj => (b.strict_lowBoundKey i j hij hj).le
  rw [Samples, DramLevel.upperLevelBound_ne_zero_iff hmono, hlvl]

/-- A warm-up over an index counts its interval exactly if the interval lies within the requests,
and its keys within the partitions. -/
theorem countsEach_iff (hlvl : lvl.lowBoundKey = b.lowBoundKey) {startQuery endQuery : ℕ} :
    CountsEach (endQuery - startQuery) (warmUp lvl querys numQuerys startQuery endQuery) ↔
      (startQuery < endQuery → endQuery ≤ numQuerys) ∧
        ∀ req, startQuery ≤ req → req < endQuery → b.lowBoundKey 0 ≤ querys req := by
  rw [countsEach_warmUp_iff]
  simp only [b.samples_iff hlvl]
  constructor
  · intro h
    refine ⟨fun hlt => ?_, fun req hstart hend => (h req hstart hend).2⟩
    -- the last request of the interval is one of `querys`
    have hlast := (h (endQuery - 1) (by omega) (by omega)).1
    omega
  · rintro ⟨hwithin, hkeys⟩ req hstart hend
    have := hwithin (hstart.trans_lt hend)
    exact ⟨by omega, hkeys req hstart hend⟩

end BulkInput

/-- The warm-ups of `main` and of a merge count each sampled request once exactly if there are
as many requests as they read, none of them with a key below the smallest partial key. -/
theorem warmUps_count_iff (b merged : BulkInput) (nr : ℕ → ℕ) (prev lvl : DramLevel)
    (querys : ℕ → DTYPE) (numQuerys startQuery endQuery : ℕ) :
    (CountsEach sampleSize (mainWarmUp b nr prev querys numQuerys) ↔
      sampleSize ≤ numQuerys ∧ ∀ req < sampleSize, b.lowBoundKey 0 ≤ querys req) ∧
    (CountsEach (endQuery - startQuery)
        (mergeWarmUp merged lvl querys numQuerys startQuery endQuery) ↔
      (startQuery < endQuery → endQuery ≤ numQuerys) ∧
        ∀ req, startQuery ≤ req → req < endQuery → merged.lowBoundKey 0 ≤ querys req) := by
  refine ⟨?_, merged.countsEach_iff rfl⟩
  have hlvl : (b.level nr prev).lowBoundKey = b.lowBoundKey :=
    DramLevel.getStartDpuId_lowBoundKey
  have hpos : 0 < sampleSize := Nat.succ_pos _
  rw [mainWarmUp]
  have hmain := @BulkInput.countsEach_iff b _ querys numQuerys hlvl 0 sampleSize
  simpa only [Nat.sub_zero, hpos, true_imp_iff, Nat.zero_le] using hmain

/-- Over the keys 1 to 1024: `main` samples past the end of a hundred requests; a merge in the
first round samples past the end of 5000; a million insertions of key 0 count for no partition. -/
theorem warmUps_count_short :
    ¬ CountsEach sampleSize (mainWarmUp .kibi (fun _ => 1) .init (fun _ => 5) 100) ∧
    ¬ CountsEach (mergeEndQuery 0) (mergeWarmUp .kibi (BulkInput.kibi.level (fun _ => 1) .init)
        (fun _ => 5) 5000 0 (mergeEndQuery 0)) ∧
    ¬ CountsEach sampleSize (mainWarmUp .kibi (fun _ => 1) .init (fun _ => 0) sampleSize) := by
  have hlvl : (BulkInput.kibi.level (fun _ => 1) .init).lowBoundKey = BulkInput.kibi.lowBoundKey :=
    DramLevel.getStartDpuId_lowBoundKey
  refine ⟨fun h => ?_, fun h => ?_, fun h => ?_⟩
  · have hall := (BulkInput.kibi.countsEach_iff hlvl).mp (by exact h)
    exact absurd (hall.1 (by decide)) (by decide)
  · have hall := (BulkInput.kibi.countsEach_iff rfl).mp (by exact h)
    exact absurd (hall.1 (by decide)) (by decide)
  · have hall := (BulkInput.kibi.countsEach_iff hlvl).mp (by exact h)
    exact absurd (hall.2 0 le_rfl (by decide)) (by decide)

end PimLex
