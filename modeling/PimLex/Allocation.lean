import PimLex.Common
import PimLex.Search.Sorting
import Mathlib.Algebra.BigOperators.Group.Finset.Basic
import Mathlib.Algebra.Order.BigOperators.Group.Finset
import Mathlib.Data.List.Perm.Basic
import Mathlib.Data.Rat.Floor

/-!
# Allocating DPUs to partitions

A partition gets DPUs in proportion to its accesses, at least one. Rounding makes
too many or too few of them, so DPUs are taken from the partitions with the
lowest load for each DPU, or given to those with the highest, and then up to four
are moved from one end to the other. Each change puts the record back by its load.
The array is not quite sorted in between; the bounds rest on the counts alone.

The records and their changes are for any type of ratios, the allocation for exact
ones.
-/

namespace PimLex

open Search

variable {R : Type}

/-- `access_ratio`. -/
structure AccessRatio (R : Type) where
  partitionId : ℕ
  partitionRatio : R
  numDpuPerPartition : ℕ
  perDpuRatio : R

/-- What must not happen: an offset outside the array, or a count taken below one. -/
inductive AllocFault where
  | offset
  | count
  deriving DecidableEq

namespace AccessRatio

/-- The record with another count. -/
def setNum [Div R] [NatCast R] (r : AccessRatio R) (num : ℕ) : AccessRatio R :=
  { r with numDpuPerPartition := num, perDpuRatio := r.partitionRatio / num }

/-- The record as the first loop leaves it. -/
def load (r : AccessRatio ℚ) (ratio : ℚ) (ratioToDpu : ℕ) : AccessRatio ℚ :=
  { r with partitionRatio := ratio }.setNum (max ⌊ratio * ratioToDpu⌋₊ 1)

/-- `cmp_dpu_ratio`. -/
def cmpDpuRatio [LinearOrder R] (a b : AccessRatio R) : Bool :=
  decide (a.perDpuRatio > b.perDpuRatio)

/-- `cmp_pid`. -/
def cmpPid (a b : AccessRatio R) : Bool := decide (a.partitionId < b.partitionId)

/-- A sort by `cmp_dpu_ratio`. -/
abbrev LoadSort (R : Type) [LinearOrder R] := StdSort (cmpDpuRatio (R := R))

/-- Whether a DPU less leaves `a` with less load for each than `b` has. A quotient by zero
is not less than anything; the counts are never zero. -/
def staysBelow [LinearOrder R] [Div R] [NatCast R] (a b : AccessRatio R) : Bool :=
  decide (a.numDpuPerPartition ≠ 1 ∧
    a.partitionRatio / ((a.numDpuPerPartition - 1 : ℕ) : R) < b.perDpuRatio)

end AccessRatio

/-- `partition_access` for one thread. The constructor, the resets and the last sort of
`calculate_partition_skew` leave record `i` with the id `i`. -/
structure PartitionAccess (R : Type) where
  accessNum : ℕ → ℕ
  recordRatio : List (AccessRatio R)
  ids : recordRatio.map AccessRatio.partitionId = List.range nrPartition

namespace PartitionAccess

/-- The constructor; nothing reads the last field before it is set. -/
def init [NatCast R] : PartitionAccess R where
  accessNum _ := 0
  recordRatio := (List.range nrPartition).map fun i => ⟨i, ((0 : ℕ) : R), 0, ((0 : ℕ) : R)⟩
  ids := by rw [List.map_map]; exact List.map_id _

/-- The first loop. -/
def loaded (pa : PartitionAccess ℚ) (avgAccessNum ratioToDpu : ℕ) : List (AccessRatio ℚ) :=
  pa.recordRatio.mapIdx fun i r => r.load ((pa.accessNum i : ℚ) / avgAccessNum) ratioToDpu

end PartitionAccess

/-- `total_alloc_dpu_num`. -/
def allocated (recs : List (AccessRatio R)) : ℕ := (recs.map AccessRatio.numDpuPerPartition).sum

/-- `record_ratio[off]`. -/
def record (recs : List (AccessRatio R)) (off : ℕ) : Except AllocFault (AccessRatio R) :=
  match recs[off]? with
  | some r => .ok r
  | none => .error .offset

/-- The shift loops: the record at `off` goes to `k`, what is between moves by one. -/
def moveTo (recs : List (AccessRatio R)) (off k : ℕ) (r : AccessRatio R) :
    List (AccessRatio R) :=
  (recs.eraseIdx off).insertIdx k r

/-- Whether the record at `k` has less load for each DPU than `r`. -/
def lighterAt [LinearOrder R] (recs : List (AccessRatio R)) (r : AccessRatio R) (k : ℕ) : Bool :=
  recs[k]?.any fun q => decide (q.perDpuRatio < r.perDpuRatio)

/-- One DPU less at `off`; the record moves in front of the first lighter one. -/
def shrinkAt [LinearOrder R] [Div R] [NatCast R] (recs : List (AccessRatio R)) (off : ℕ) :
    Except AllocFault (List (AccessRatio R)) := do
  let r ← record recs off
  if r.numDpuPerPartition ≤ 1 then .error .count
  else
    let r := r.setNum (r.numDpuPerPartition - 1)
    let k := ((List.range off).find? (lighterAt recs r)).getD off
    .ok (moveTo recs off k r)

/-- One DPU more at `off`; the record moves behind the first lighter one, or to the end. -/
def growAt [LinearOrder R] [Div R] [NatCast R] (recs : List (AccessRatio R)) (off : ℕ) :
    Except AllocFault (List (AccessRatio R)) := do
  let r ← record recs off
  let r := r.setNum (r.numDpuPerPartition + 1)
  let k := ((List.range' off (nrPartition - off)).find? (lighterAt (recs.set off r) r)).getD
    (nrPartition - 1)
  .ok (moveTo recs off k r)

/-- The `while` loop that lowers `min_available_off`. -/
def lowerOff (recs : List (AccessRatio R)) : ℕ → Except AllocFault ℕ
  | 0 => do
    let r ← record recs 0
    if r.numDpuPerPartition = 1 then .error .offset else .ok 0
  | off + 1 => do
    let r ← record recs (off + 1)
    if r.numDpuPerPartition = 1 then lowerOff recs off else .ok (off + 1)

/-- The `while` loop that raises `max_available_off`, with the records left from there on. -/
def raiseOff (recs : List (AccessRatio R)) : ℕ → ℕ → Except AllocFault ℕ
  | 0, _ => .error .offset
  | left + 1, off => do
    let r ← record recs off
    if r.numDpuPerPartition = 1 then raiseOff recs left (off + 1) else .ok off

/-- The loop over `overflow_dpu_num`, from the passes left and `min_available_off`. -/
def shrinkLoop : ℕ → ℕ → List (AccessRatio ℚ) → Except AllocFault (List (AccessRatio ℚ))
  | 0, _, recs => .ok recs
  | n + 1, off, recs => do
    let off ← lowerOff recs off
    let recs ← shrinkAt recs off
    shrinkLoop n off recs

/-- The loop over `less_dpu_num`, from the passes left and `max_available_off`. -/
def growLoop : ℕ → ℕ → List (AccessRatio ℚ) → Except AllocFault (List (AccessRatio ℚ))
  | 0, _, recs => .ok recs
  | n + 1, off, recs => do
    let off ← raiseOff recs (nrPartition - off) off
    let recs ← growAt recs off
    growLoop n off recs

/-- The branch on `total_alloc_dpu_num`: as many DPUs are given out as there are. -/
def balance (nrDpus totalAllocDpuNum : ℕ) (recs : List (AccessRatio ℚ)) :
    Except AllocFault (List (AccessRatio ℚ)) :=
  if totalAllocDpuNum > nrDpus then
    shrinkLoop (totalAllocDpuNum - nrDpus) (nrPartition - 1) recs
  else if totalAllocDpuNum < nrDpus then growLoop (nrDpus - totalAllocDpuNum) 0 recs
  else .ok recs

/-- The body of `max_dpu_num_off`'s loop, on `max` and `off`. -/
def maxDpuNumStep (recs : List (AccessRatio R)) (acc : ℕ × ℕ) (i : ℕ) : ℕ × ℕ :=
  match recs[i]? with
  | some r => if r.numDpuPerPartition > acc.1 then (r.numDpuPerPartition, i) else acc
  | none => acc

/-- `max_dpu_num_off`. -/
def maxDpuNumOff (recs : List (AccessRatio R)) : ℕ :=
  ((List.range nrPartition).foldl (maxDpuNumStep recs) (0, 0)).2

/-- The last loop, from the passes left and `min_available_off`; `max_available_off` is 0. -/
def adjustLoop : ℕ → ℕ → List (AccessRatio ℚ) → Except AllocFault (List (AccessRatio ℚ))
  | 0, _, recs => .ok recs
  | n + 1, off, recs => do
    let first ← record recs 0
    let last ← record recs off
    let off := if last.staysBelow first then off else maxDpuNumOff recs
    let last ← record recs off
    if last.staysBelow first then do
      let recs ← shrinkAt recs off
      let recs ← growAt recs 0
      adjustLoop n off recs
    else .ok recs

/-- `calculate_partition_skew`. -/
def calculatePartitionSkew (byRatio : AccessRatio.LoadSort ℚ)
    (byPid : StdSort (AccessRatio.cmpPid (R := ℚ))) (pa : PartitionAccess ℚ)
    (nrDpus partitionRatioToDpu totalAccessNum : ℕ) :
    Except AllocFault (List (AccessRatio ℚ)) := do
  let recs := pa.loaded (totalAccessNum / nrPartition) partitionRatioToDpu
  let recs ← balance nrDpus (allocated recs) (byRatio.sort recs)
  let recs ← adjustLoop 4 (nrPartition - 1) recs
  .ok (byPid.sort recs)

end PimLex
