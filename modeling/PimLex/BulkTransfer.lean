import PimLex.Replica

/-!
# The transfer of a bulk load

`bulk_load_for_dpu` gives every partition the same number of replicas, rounded down,
and asks the replica iterator once for each DPU in every loading pass. The iterator
reads the cumulative ends without looking at the length of their array, so the
calls for DPUs behind the last end read past it.
-/

namespace PimLex

namespace ReplicaCursor

/-- The loop of `next_partition`; `none` when it reads past
`nr_replicas_cumulative_partition`. -/
def advanceWithin (nr : ℕ → ℕ) (dpu p : ℕ) : Option ℕ :=
  if p < nrPartition then
    if dpu ≥ cumulative nr p then advanceWithin nr dpu (p + 1) else some p
  else none
termination_by nrPartition - p

/-- `next_partition`, unless it reads past the array. -/
def nextPartitionWithin (nr : ℕ → ℕ) (c : ReplicaCursor) : Option (ℕ × ReplicaCursor) :=
  if c.curRetPartition < nrPartition then
    if c.curDpu < cumulative nr c.curRetPartition then
      some (c.curRetPartition, ⟨c.curDpu + 1, c.curRetPartition⟩)
    else (advanceWithin nr c.curDpu (c.curRetPartition + 1)).map fun p => (p, ⟨c.curDpu + 1, p⟩)
  else none

/-- What the first `n` calls of a loading pass return, and the cursor they leave. -/
def loadingPass (nr : ℕ → ℕ) : ℕ → Option (List ℕ × ReplicaCursor)
  | 0 => some ([], reset)
  | n + 1 => do
    let (ps, c) ← loadingPass nr n
    let (p, c) ← nextPartitionWithin nr c
    return (ps ++ [p], c)

end ReplicaCursor

/-- The body of `get_start_dpu_id`'s loop on the entries of `dpu_id_to_partition`. -/
def enterPartition (nr : ℕ → ℕ) (acc : ℕ × (ℕ → Option ℕ)) (i : ℕ) : ℕ × (ℕ → Option ℕ) :=
  (acc.1 + nr i,
    (List.range (nr i)).foldl (fun map j => Function.update map (acc.1 + j) (some i)) acc.2)

/-- The entries of `dpu_id_to_partition` that `get_start_dpu_id` makes in an empty map. -/
def dpuEntries (nr : ℕ → ℕ) : ℕ → Option ℕ :=
  ((List.range nrPartition).foldl (enterPartition nr) (0, fun _ => none)).2

/-- The replica vector of `bulk_load_for_dpu`. -/
def uniformReplicas (nrDpus : ℕ) : ℕ → ℕ := fun _ => nrDpus / nrPartition

/-- A loading pass of the bulk load gives every DPU a partition, the one its entry names. -/
structure PlacesEverywhere (nrDpus : ℕ) (ps : List ℕ) (c : ReplicaCursor) : Prop where
  pass : ReplicaCursor.loadingPass (uniformReplicas nrDpus) nrDpus = some (ps, c)
  length : ps.length = nrDpus
  lt : ∀ p ∈ ps, p < nrPartition
  entry : ∀ d < nrDpus, dpuEntries (uniformReplicas nrDpus) d = ps[d]?

namespace ReplicaCursor

variable {nr : ℕ → ℕ} {p q d n : ℕ}

theorem advanceWithin_eq (hp : p < nrPartition) (hd : Hosts nr d p) (hq : q ≤ p) :
    advanceWithin nr d q = some p := by
  induction hq using Nat.decreasingInduction with
  | self =>
    have hlt : ¬ d ≥ cumulative nr p := Nat.not_le.mpr hd.2
    rw [advanceWithin, if_pos hp, if_neg hlt]
  | of_succ q hlt ih =>
    -- a partition before the host ends at or before the DPU
    have hge : d ≥ cumulative nr q := (firstDpu_mono nr hlt).trans hd.1
    rw [advanceWithin, if_pos (hlt.trans hp), if_pos hge, ih]

theorem advanceWithin_eq_none (hd : firstDpu nr nrPartition ≤ d) : advanceWithin nr d q = none := by
  fun_induction advanceWithin nr d q with
  | case1 q hq _ ih => exact ih
  | case2 q hq hlt => exact absurd ((firstDpu_mono nr hq).trans hd) hlt
  | case3 => rfl

/-- `next_partition` is the loop from the partition of its cursor on. -/
theorem nextPartitionWithin_eq (c : ReplicaCursor) :
    nextPartitionWithin nr c =
      (advanceWithin nr c.curDpu c.curRetPartition).map fun p => (p, ⟨c.curDpu + 1, p⟩) := by
  rw [nextPartitionWithin, advanceWithin.eq_def nr c.curDpu c.curRetPartition]
  by_cases hp : c.curRetPartition < nrPartition
  · by_cases hlt : c.curDpu < cumulative nr c.curRetPartition
    · rw [if_pos hp, if_pos hp, if_pos hlt, if_neg (Nat.not_le.mpr hlt)]
      rfl
    · rw [if_pos hp, if_pos hp, if_neg hlt, if_pos (Nat.not_lt.mp hlt)]
  · rw [if_neg hp, if_neg hp]
    rfl

/-- Where the array is long enough the calls are those of the cut-off iterator. -/
theorem loadingPass_eq (hn : n ≤ firstDpu nr nrPartition) :
    loadingPass nr n = some ((List.range n).map (loadedPartition nr), afterCalls nr n) := by
  induction n with
  | zero => rfl
  | succ n ih =>
    obtain ⟨p, hp, hhosts⟩ := exists_hosts (Nat.lt_of_succ_le hn)
    obtain ⟨q, hq, hcur⟩ := afterCalls_eq hp hhosts
    have hnext : nextPartition nr (afterCalls nr n) = (p, ⟨n + 1, p⟩) := by
      rw [hcur, nextPartition_eq hp hhosts hq]
    have hwithin : nextPartitionWithin nr (afterCalls nr n) = some (p, ⟨n + 1, p⟩) := by
      rw [hcur, nextPartitionWithin_eq, advanceWithin_eq hp hhosts hq]
      rfl
    rw [loadingPass, ih (Nat.le_of_succ_le hn), List.range_succ, List.map_append, afterCalls, hnext]
    simp only [Option.bind_eq_bind, Option.bind_some, hwithin, List.map_singleton, loadedPartition,
      hnext]
    rfl

@[simp] theorem afterCalls_curDpu (nr : ℕ → ℕ) (n : ℕ) : (afterCalls nr n).curDpu = n := by
  induction n with
  | zero => rfl
  | succ n ih => rw [afterCalls, nextPartition, ih]

theorem loadingPass_eq_none (hn : firstDpu nr nrPartition < n) : loadingPass nr n = none := by
  induction n with
  | zero => exact absurd hn (Nat.not_lt_zero _)
  | succ n ih =>
    rcases (Nat.le_of_lt_succ hn).lt_or_eq with hlt | rfl
    · rw [loadingPass, ih hlt]
      rfl
    · -- the first call for a DPU behind the last end
      rw [loadingPass, loadingPass_eq le_rfl, Option.bind_eq_bind, Option.bind_some]
      simp only [nextPartitionWithin_eq, afterCalls_curDpu, advanceWithin_eq_none le_rfl]
      rfl

end ReplicaCursor

section Entries

variable {nr : ℕ → ℕ} {p d n : ℕ}

/-- What `get_start_dpu_id` has entered after `n` partitions. -/
structure Entered (nr : ℕ → ℕ) (n : ℕ) (acc : ℕ × (ℕ → Option ℕ)) : Prop where
  cumulative : acc.1 = firstDpu nr n
  entry : ∀ p < n, ∀ d, Hosts nr d p → acc.2 d = some p

theorem Entered.step {acc : ℕ × (ℕ → Option ℕ)} (h : Entered nr n acc) :
    Entered nr (n + 1) (enterPartition nr acc n) := by
  refine ⟨by rw [enterPartition, h.cumulative, firstDpu_succ], fun p hp d hd => ?_⟩
  simp only [enterPartition]
  rw [foldl_update, h.cumulative, ← firstDpu_succ]
  rcases Nat.lt_succ_iff_lt_or_eq.mp hp with hlt | rfl
  · -- an earlier partition's DPUs lie below the ones entered now
    have hend := hd.2.trans_le (firstDpu_mono nr hlt)
    rw [if_neg (by omega)]
    exact h.entry p hlt d hd
  · exact if_pos hd

theorem dpuEntries_eq (hp : p < nrPartition) (hd : Hosts nr d p) : dpuEntries nr d = some p := by
  have hentered : ∀ n, Entered nr n
      ((List.range n).foldl (enterPartition nr) (0, fun _ => none)) := by
    intro n
    induction n with
    | zero => exact ⟨rfl, fun p hp => absurd hp (Nat.not_lt_zero p)⟩
    | succ n ih =>
      rw [List.range_succ, List.foldl_concat]
      exact ih.step
  exact (hentered nrPartition).entry p hp d hd

theorem firstDpu_uniformReplicas (nrDpus : ℕ) :
    firstDpu (uniformReplicas nrDpus) nrPartition = nrPartition * (nrDpus / nrPartition) := by
  simp [firstDpu, uniformReplicas]

/-- Every DPU gets a partition in a loading pass exactly if the partitions divide the DPUs. -/
theorem placesEverywhere_iff (nrDpus : ℕ) :
    (∃ ps c, PlacesEverywhere nrDpus ps c) ↔ nrPartition ∣ nrDpus := by
  have htotal := firstDpu_uniformReplicas nrDpus
  constructor
  · rintro ⟨ps, c, h⟩
    by_contra hdvd
    have hlt : firstDpu (uniformReplicas nrDpus) nrPartition < nrDpus := by
      rw [htotal]
      exact (Nat.mul_div_le _ _).lt_of_ne fun heq => hdvd ⟨_, heq.symm⟩
    have hnone := ReplicaCursor.loadingPass_eq_none hlt
    rw [h.pass] at hnone
    exact absurd hnone (Option.some_ne_none _)
  · intro hdvd
    rw [Nat.mul_div_cancel' hdvd] at htotal
    have hhosts : ∀ d < nrDpus, ∃ p < nrPartition, Hosts (uniformReplicas nrDpus) d p :=
      fun d hd => exists_hosts (hd.trans_eq htotal.symm)
    refine ⟨_, _, ReplicaCursor.loadingPass_eq htotal.ge, by simp, ?_, ?_⟩
    · intro p hp
      obtain ⟨d, hd, rfl⟩ := List.mem_map.mp hp
      obtain ⟨p, hp, hosts⟩ := hhosts d (List.mem_range.mp hd)
      rwa [ReplicaCursor.loadedPartition_eq hp hosts]
    · intro d hd
      obtain ⟨p, hp, hosts⟩ := hhosts d hd
      rw [dpuEntries_eq hp hosts, List.getElem?_map, List.getElem?_range hd, Option.map_some,
        ReplicaCursor.loadedPartition_eq hp hosts]

/-- With 129 DPUs the last call of a loading pass reads past the cumulative ends. -/
theorem placesEverywhere_remainder :
    nrPartition ≤ 129 ∧ ReplicaCursor.loadingPass (uniformReplicas 129) 129 = none ∧
      ¬ ∃ ps c, PlacesEverywhere 129 ps c := by
  have hlt : firstDpu (uniformReplicas 129) nrPartition < 129 := by
    rw [firstDpu_uniformReplicas]
    decide
  have hnone := ReplicaCursor.loadingPass_eq_none hlt
  refine ⟨by decide, hnone, ?_⟩
  rintro ⟨ps, c, h⟩
  rw [h.pass] at hnone
  exact absurd hnone (Option.some_ne_none _)

end Entries

end PimLex
