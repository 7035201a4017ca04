import PimLex.Replica

/-!
# Gathering the accesses of the partitions

`gather_partition_access_from_buffer` adds up the tasks sent to the DPUs of each
partition in one pass. Its cursor moves on when it meets the first DPU of the next
partition; in the last partition it compares with the entry behind
`start_dpu_id`, which is the first replica count and lies far below.
-/

namespace PimLex

open Finset

/-- `start_dpu_id[i]`; the field behind the array is `nr_replicas_per_partition`. -/
def DramLevel.startRead (lvl : DramLevel) (i : ℕ) : ℕ :=
  if i < nrPartition then lvl.startDpuId i else lvl.nrReplicasPerPartition (i - nrPartition)

/-- `cur_partition` and the thread's row of `access_num`. -/
structure GatherState where
  curPartition : ℕ
  accessNum : ℕ → ℕ

namespace GatherState

/-- The cursor at the first partition, whose counter is cleared. -/
def start (accessNum : ℕ → ℕ) : GatherState := ⟨0, Function.update accessNum 0 0⟩

/-- `access_num[cur_partition] += n`. -/
def add (g : GatherState) (n : ℕ) : GatherState :=
  { g with accessNum :=
      Function.update g.accessNum g.curPartition (g.accessNum g.curPartition + n) }

/-- `cur_partition++` and `access_num[cur_partition] = 0`. -/
def enter (g : GatherState) : GatherState :=
  ⟨g.curPartition + 1, Function.update g.accessNum (g.curPartition + 1) 0⟩

/-- The pass of the loop for DPU `i`. -/
def step (lvl : DramLevel) (nTasks : ℕ → ℕ) (g : GatherState) (i : ℕ) : GatherState :=
  let g := if g.curPartition = nrPartition - 1 ∨ i < lvl.startRead (g.curPartition + 1)
    then g.add (nTasks i) else g
  if i = lvl.startRead (g.curPartition + 1) then g.enter.add (nTasks i) else g

/-- The state after the first `n` DPUs. -/
def after (lvl : DramLevel) (nTasks accessNum : ℕ → ℕ) (n : ℕ) : GatherState :=
  (List.range n).foldl (step lvl nTasks) (start accessNum)

end GatherState

/-- `gather_partition_access_from_buffer`: the thread's row of `access_num`. -/
def gatherPartitionAccessFromBuffer (lvl : DramLevel) (nrDpus : ℕ) (nTasks accessNum : ℕ → ℕ) :
    ℕ → ℕ :=
  (GatherState.after lvl nTasks accessNum nrDpus).accessNum

section Reads

variable {lvl : DramLevel} {p : ℕ}

theorem DramLevel.startRead_succ (hp : p + 1 < nrPartition) :
    lvl.getStartDpuId.startRead (p + 1) = firstDpu lvl.nrReplicasPerPartition (p + 1) := by
  rw [startRead, if_pos hp, getStartDpuId_startDpuId hp]

theorem DramLevel.startRead_last :
    lvl.getStartDpuId.startRead nrPartition = lvl.nrReplicasPerPartition 0 := by
  rw [startRead, if_neg (lt_irrefl _), Nat.sub_self, getStartDpuId_nrReplicas]

variable {nr : ℕ → ℕ}

theorem firstDpu_lt_succ (hnr : 1 ≤ nr p) : firstDpu nr p < firstDpu nr (p + 1) := by
  rw [firstDpu_succ]
  exact Nat.lt_add_of_pos_right hnr

/-- The value behind the array is no DPU of the last partition. -/
theorem nr_zero_lt_firstDpu_last (hnr : ∀ p < nrPartition, 1 ≤ nr p) :
    nr 0 < firstDpu nr (nrPartition - 1) := by
  have hone : firstDpu nr 1 = nr 0 := by simp [firstDpu]
  have htwo : firstDpu nr 1 < firstDpu nr 2 := firstDpu_lt_succ (hnr 1 (by decide))
  rw [← hone]
  exact htwo.trans_le (firstDpu_mono nr (by decide))

end Reads

namespace GatherState

variable {lvl : DramLevel} {nr nTasks accessNum : ℕ → ℕ} {n p : ℕ} {g : GatherState}

@[simp] theorem add_curPartition (g : GatherState) (k : ℕ) :
    (g.add k).curPartition = g.curPartition := rfl

@[simp] theorem enter_curPartition (g : GatherState) :
    g.enter.curPartition = g.curPartition + 1 := rfl

theorem add_self (g : GatherState) (k : ℕ) :
    (g.add k).accessNum g.curPartition = g.accessNum g.curPartition + k :=
  Function.update_self _ _ _

theorem add_of_ne (h : p ≠ g.curPartition) (k : ℕ) : (g.add k).accessNum p = g.accessNum p :=
  Function.update_of_ne h _ _

theorem enter_self (g : GatherState) : g.enter.accessNum (g.curPartition + 1) = 0 :=
  Function.update_self _ _ _

theorem enter_of_ne (h : p ≠ g.curPartition + 1) : g.enter.accessNum p = g.accessNum p :=
  Function.update_of_ne h _ _

/-- After `n` DPUs the cursor stands at the partition of the last of them, and the counters up
to it hold what has been sent so far. -/
structure Gathered (nr nTasks : ℕ → ℕ) (n : ℕ) (g : GatherState) : Prop where
  lt : g.curPartition < nrPartition
  low : firstDpu nr g.curPartition ≤ n
  high : n ≤ firstDpu nr (g.curPartition + 1)
  sums : ∀ p ≤ g.curPartition,
    g.accessNum p = ∑ d ∈ Ico (firstDpu nr p) (min n (firstDpu nr (p + 1))), nTasks d

theorem gathered_start (nr nTasks accessNum : ℕ → ℕ) : Gathered nr nTasks 0 (start accessNum) := by
  refine ⟨Nat.succ_pos _, le_rfl, Nat.zero_le _, fun p hp => ?_⟩
  obtain rfl : p = 0 := Nat.le_zero.mp hp
  simp [start]

/-- The counters of the partitions before the cursor are complete. -/
theorem Gathered.sum_of_lt (h : Gathered nr nTasks n g) (hp : p < g.curPartition) {m : ℕ}
    (hm : n ≤ m) :
    g.accessNum p = ∑ d ∈ Ico (firstDpu nr p) (min m (firstDpu nr (p + 1))), nTasks d := by
  have hend : firstDpu nr (p + 1) ≤ n := (firstDpu_mono nr hp).trans h.low
  rw [h.sums p hp.le, min_eq_right hend, min_eq_right (hend.trans hm)]

/-- A DPU of the cursor's partition. -/
theorem Gathered.add (h : Gathered nr nTasks n g) (hlt : n < firstDpu nr (g.curPartition + 1)) :
    Gathered nr nTasks (n + 1) (g.add (nTasks n)) := by
  refine ⟨h.lt, h.low.trans n.le_succ, hlt, fun p hp => ?_⟩
  rw [add_curPartition] at hp
  rcases hp.lt_or_eq with hbefore | rfl
  · rw [add_of_ne hbefore.ne]
    exact h.sum_of_lt hbefore n.le_succ
  · rw [add_self, h.sums _ le_rfl, min_eq_left h.high, min_eq_left hlt,
      sum_Ico_succ_top h.low]

/-- The first DPU of the next partition. -/
theorem Gathered.enter (h : Gathered nr nTasks n g) (hn : n = firstDpu nr (g.curPartition + 1))
    (hnext : g.curPartition + 1 < nrPartition) (hnr : 1 ≤ nr (g.curPartition + 1)) :
    Gathered nr nTasks (n + 1) (g.enter.add (nTasks n)) := by
  have hlt : n < firstDpu nr (g.curPartition + 1 + 1) := hn.trans_lt (firstDpu_lt_succ hnr)
  refine ⟨hnext, hn.ge.trans n.le_succ, hlt, fun p hp => ?_⟩
  rw [add_curPartition, enter_curPartition] at hp
  rcases hp.lt_or_eq with hbefore | rfl
  · -- the counters passed are complete, the one just left included
    have hne : p ≠ g.curPartition + 1 := hbefore.ne
    have hend : firstDpu nr (p + 1) ≤ n := hn ▸ firstDpu_mono nr hbefore
    rw [add_of_ne hne, enter_of_ne hne, h.sums p (Nat.le_of_lt_succ hbefore), min_eq_right hend,
      min_eq_right (hend.trans n.le_succ)]
  · rw [← enter_curPartition, add_self, enter_curPartition, enter_self, zero_add,
      min_eq_left hlt, ← hn]
    simp

theorem Gathered.step (hnr : ∀ p < nrPartition, 1 ≤ lvl.nrReplicasPerPartition p)
    (h : Gathered lvl.nrReplicasPerPartition nTasks n g)
    (hn : n < firstDpu lvl.nrReplicasPerPartition nrPartition) :
    Gathered lvl.nrReplicasPerPartition nTasks (n + 1) (step lvl.getStartDpuId nTasks g n) := by
  rcases eq_or_ne g.curPartition (nrPartition - 1) with hlast | hlast
  · -- in the last partition the second test fails on the value behind the array
    have hread : lvl.getStartDpuId.startRead (g.curPartition + 1) =
        lvl.nrReplicasPerPartition 0 := by
      rw [hlast]
      exact DramLevel.startRead_last
    have hne : n ≠ lvl.nrReplicasPerPartition 0 :=
      ((nr_zero_lt_firstDpu_last hnr).trans_le (hlast ▸ h.low)).ne'
    simp only [GatherState.step, hread, if_pos (Or.inl hlast), if_neg hne, add_curPartition]
    refine h.add ?_
    rw [hlast]
    exact hn
  · have hnext : g.curPartition + 1 < nrPartition := by
      have := h.lt
      omega
    have hread := @DramLevel.startRead_succ lvl _ hnext
    rcases h.high.lt_or_eq with hlt | heq
    · simp only [GatherState.step, hread, if_pos (Or.inr hlt), add_curPartition, if_neg hlt.ne]
      exact h.add hlt
    · have hstay : ¬ (g.curPartition = nrPartition - 1 ∨
          n < firstDpu lvl.nrReplicasPerPartition (g.curPartition + 1)) := by
        rw [not_or]
        exact ⟨hlast, heq.not_lt⟩
      simp only [GatherState.step, hread, if_neg hstay, if_pos heq]
      exact h.enter heq hnext (hnr _ hnext)

theorem gathered_after (hnr : ∀ p < nrPartition, 1 ≤ lvl.nrReplicasPerPartition p)
    (hn : n ≤ firstDpu lvl.nrReplicasPerPartition nrPartition) :
    Gathered lvl.nrReplicasPerPartition nTasks n (after lvl.getStartDpuId nTasks accessNum n) := by
  induction n with
  | zero => exact gathered_start _ _ _
  | succ n ih =>
    rw [after, List.range_succ, List.foldl_concat]
    exact (ih (Nat.le_of_succ_le hn)).step hnr hn

/-- After the last DPU the cursor stands at the last partition. -/
theorem Gathered.curPartition_eq (hnr : ∀ p < nrPartition, 1 ≤ nr p)
    (h : Gathered nr nTasks (firstDpu nr nrPartition) g) : g.curPartition = nrPartition - 1 := by
  by_contra hne
  have hnext : g.curPartition + 1 < nrPartition := by
    have := h.lt
    omega
  exact absurd ((firstDpu_lt_succ (hnr _ hnext)).trans_le (firstDpu_mono nr hnext))
    (Nat.not_lt.mpr h.high)

end GatherState

/-- The gathered counters are the tasks sent to the replicas of each partition, and the cursor
never leaves the partitions. -/
theorem gather_eq_sum (lvl : DramLevel) (nrDpus : ℕ) (nTasks accessNum : ℕ → ℕ)
    (hnr : ∀ p < nrPartition, 1 ≤ lvl.nrReplicasPerPartition p)
    (hsum : ∑ p ∈ range nrPartition, lvl.nrReplicasPerPartition p = nrDpus) :
    let started := lvl.getStartDpuId
    (∀ p < nrPartition, gatherPartitionAccessFromBuffer started nrDpus nTasks accessNum p =
      ∑ d ∈ Ico (started.startDpuId p)
        (started.startDpuId p + started.nrReplicasPerPartition p), nTasks d) ∧
    ∀ n ≤ nrDpus,
      (GatherState.after started nTasks accessNum n).curPartition ≤ nrPartition - 1 := by
  intro started
  have htotal : firstDpu lvl.nrReplicasPerPartition nrPartition = nrDpus := hsum
  have hafter := fun n (hn : n ≤ nrDpus) =>
    @GatherState.gathered_after lvl nTasks accessNum n hnr (hn.trans_eq htotal.symm)
  refine ⟨fun p hp => ?_, fun n hn => Nat.le_sub_one_of_lt (hafter n hn).lt⟩
  have h := hafter nrDpus le_rfl
  have hend := GatherState.Gathered.curPartition_eq hnr (by rw [htotal]; exact h)
  have hp' : p ≤ (GatherState.after started nTasks accessNum nrDpus).curPartition :=
    (Nat.le_sub_one_of_lt hp).trans hend.ge
  rw [gatherPartitionAccessFromBuffer, DramLevel.getStartDpuId_startDpuId hp,
    DramLevel.getStartDpuId_nrReplicas, ← firstDpu_succ]
  refine (h.sums p hp').trans ?_
  rw [← htotal, min_eq_right (firstDpu_mono _ hp)]

/-- Two replicas for every partition and `d` tasks for DPU `d`, over used counters. -/
theorem gather_eq_sum_pairs :
    let started := DramLevel.getStartDpuId ⟨fun _ => 0, fun _ => 7, fun _ => 2, fun d => d⟩
    (∀ p < nrPartition,
      gatherPartitionAccessFromBuffer started 256 (fun d => d) (fun _ => 9) p =
        ∑ d ∈ Ico (started.startDpuId p)
          (started.startDpuId p + started.nrReplicasPerPartition p), d) ∧
    ∀ n ≤ 256, (GatherState.after started (fun d => d) (fun _ => 9) n).curPartition ≤
      nrPartition - 1 :=
  gather_eq_sum ⟨fun _ => 0, fun _ => 7, fun _ => 2, fun d => d⟩ 256 (fun d => d) (fun _ => 9)
    (fun _ _ => Nat.le_succ 1) (by rw [sum_const, card_range]; rfl)

end PimLex
