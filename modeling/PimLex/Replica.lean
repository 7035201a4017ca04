import PimLex.Common
import PimLex.Search.Bisect
import Mathlib.Algebra.BigOperators.Intervals

/-!
# Partitions, replicas and DPUs

Partition `p` is replicated on consecutive DPUs. `get_start_dpu_id` records the
first of them and the reverse map; a loading pass walks the cumulative ends with
a stateful iterator. Both describe one assignment: DPU `d` belongs to the
partition whose interval of prefix sums contains `d`.
-/

namespace PimLex

open Search Finset

/-- `dram_level`: the routing tables on the host. -/
structure DramLevel where
  lowBoundKey : ℕ → DTYPE
  startDpuId : ℕ → ℕ
  nrReplicasPerPartition : ℕ → ℕ
  /-- An `unordered_map`; reading an absent id inserts zero. -/
  dpuIdToPartition : ℕ → ℕ

namespace DramLevel

/-- `upper_dram_level` at program start, a zero-initialised global. -/
def init : DramLevel := ⟨fun _ => 0, fun _ => 0, fun _ => 0, fun _ => 0⟩

/-- The body of `get_start_dpu_id`'s loop for partition `i`. -/
def startPartition (acc : ℕ × DramLevel) (i : ℕ) : ℕ × DramLevel :=
  let (cumulativeDown, lvl) := acc
  (cumulativeDown + lvl.nrReplicasPerPartition i,
    { lvl with
      startDpuId := Function.update lvl.startDpuId i cumulativeDown
      dpuIdToPartition := (List.range (lvl.nrReplicasPerPartition i)).foldl
        (fun map j => Function.update map (cumulativeDown + j) i) lvl.dpuIdToPartition })

/-- `cumulative_down` and the tables after the first `n` partitions. -/
def startPartitions (lvl : DramLevel) (n : ℕ) : ℕ × DramLevel :=
  (List.range n).foldl startPartition (0, lvl)

/-- `get_start_dpu_id`; entries of the reverse map from earlier calls are kept. -/
def getStartDpuId (lvl : DramLevel) : DramLevel := (lvl.startPartitions nrPartition).2

/-- The upper bound both searches of the upper level compute. -/
def upperLevelBound (lvl : DramLevel) (key : DTYPE) : ℕ :=
  upperBound lvl.lowBoundKey key 0 nrPartition

/-- `search_upper_level` for request number `rd`, called with keys not below
`low_bound_key[0]`. -/
def searchUpperLevel (lvl : DramLevel) (key : DTYPE) (rd : ℕ) : ℕ :=
  let l := lvl.upperLevelBound key
  lvl.startDpuId (l - 1) + rd % lvl.nrReplicasPerPartition (l - 1)

/-- `search_upper_level_get_partition`; minus one below every partition. -/
def searchUpperLevelGetPartition (lvl : DramLevel) (key : DTYPE) : ℤ :=
  (lvl.upperLevelBound key : ℤ) - 1

end DramLevel

/-- The first DPU of partition `p` under the replica vector `nr`. -/
def firstDpu (nr : ℕ → ℕ) (p : ℕ) : ℕ := ∑ q ∈ range p, nr q

/-- `replicas_info_t`'s cursor. -/
structure ReplicaCursor where
  curDpu : ℕ
  curRetPartition : ℕ
  deriving DecidableEq

namespace ReplicaCursor

/-- `reset`. -/
def reset : ReplicaCursor := ⟨0, 0⟩

/-- `get_cumulative_info`: the end of partition `i`. -/
def cumulative (nr : ℕ → ℕ) (i : ℕ) : ℕ := firstDpu nr (i + 1)

/-- The unguarded loop of `next_partition`, cut off after `fuel` partitions. -/
def advance (nr : ℕ → ℕ) (dpu : ℕ) : ℕ → ℕ → ℕ
  | 0, p => p
  | fuel + 1, p => if dpu ≥ cumulative nr p then advance nr dpu fuel (p + 1) else p

/-- `next_partition`: the partition returned and the cursor afterwards. -/
def nextPartition (nr : ℕ → ℕ) (c : ReplicaCursor) : ℕ × ReplicaCursor :=
  let p := if c.curDpu < cumulative nr c.curRetPartition then c.curRetPartition
    else advance nr c.curDpu nrPartition (c.curRetPartition + 1)
  (p, ⟨c.curDpu + 1, p⟩)

/-- The cursor after `d` calls of a loading pass. -/
def afterCalls (nr : ℕ → ℕ) : ℕ → ReplicaCursor
  | 0 => reset
  | d + 1 => (nextPartition nr (afterCalls nr d)).2

/-- The partition whose slice a loading pass puts on DPU `d`. -/
def loadedPartition (nr : ℕ → ℕ) (d : ℕ) : ℕ := (nextPartition nr (afterCalls nr d)).1

end ReplicaCursor

section Assignment

variable {nr : ℕ → ℕ} {p q d : ℕ}

/-- DPU `d` lies among the replicas of partition `p`. -/
def Hosts (nr : ℕ → ℕ) (d p : ℕ) : Prop := firstDpu nr p ≤ d ∧ d < firstDpu nr (p + 1)

theorem firstDpu_succ (nr : ℕ → ℕ) (p : ℕ) : firstDpu nr (p + 1) = firstDpu nr p + nr p :=
  sum_range_succ nr p

theorem firstDpu_mono (nr : ℕ → ℕ) : Monotone (firstDpu nr) :=
  monotone_nat_of_le_succ fun p => by rw [firstDpu_succ]; exact Nat.le_add_right _ _

theorem Hosts.unique (hp : Hosts nr d p) (hq : Hosts nr d q) : p = q := by
  rcases lt_trichotomy p q with h | h | h
  · exact absurd (hp.2.trans_le ((firstDpu_mono nr h).trans hq.1)) (lt_irrefl d)
  · exact h
  · exact absurd (hq.2.trans_le ((firstDpu_mono nr h).trans hp.1)) (lt_irrefl d)

theorem hosts_of_mod (hnr : 1 ≤ nr p) (rd : ℕ) : Hosts nr (firstDpu nr p + rd % nr p) p := by
  refine ⟨Nat.le_add_right _ _, ?_⟩
  rw [firstDpu_succ]
  exact Nat.add_lt_add_left (Nat.mod_lt rd hnr) _

/-- Some partition hosts every DPU below the total. -/
theorem exists_hosts (hd : d < firstDpu nr nrPartition) : ∃ p < nrPartition, Hosts nr d p := by
  by_contra hnone
  have hall : ∀ p ≤ nrPartition, firstDpu nr p ≤ d := by
    intro p hp
    induction p with
    | zero => exact Nat.zero_le d
    | succ p ih =>
      by_contra hlt
      exact hnone ⟨p, hp, ih (Nat.le_of_succ_le hp), Nat.not_le.mp hlt⟩
  exact absurd (hall nrPartition le_rfl) (Nat.not_le.mpr hd)

end Assignment

/-- Equal stores to consecutive places. -/
theorem foldl_update {β : Type*} (map : ℕ → β) (i : β) (s n d : ℕ) :
    (List.range n).foldl (fun map j => Function.update map (s + j) i) map d =
      if s ≤ d ∧ d < s + n then i else map d := by
  induction n with
  | zero => simp
  | succ n ih =>
    rw [List.range_succ, List.foldl_concat]
    by_cases hd : d = s + n
    · rw [hd, Function.update_self, if_pos (by omega)]
    · rw [Function.update_of_ne hd, ih]
      by_cases hin : s ≤ d ∧ d < s + n
      · rw [if_pos hin, if_pos (by omega)]
      · rw [if_neg hin, if_neg (by omega)]

namespace DramLevel

variable {lvl : DramLevel} {p d n : ℕ}

/-- What `get_start_dpu_id` has written after `n` partitions. -/
structure Started (lvl : DramLevel) (n : ℕ) (r : ℕ × DramLevel) : Prop where
  cumulative : r.1 = firstDpu lvl.nrReplicasPerPartition n
  lowBoundKey : r.2.lowBoundKey = lvl.lowBoundKey
  nrReplicas : r.2.nrReplicasPerPartition = lvl.nrReplicasPerPartition
  startDpuId : ∀ p < n, r.2.startDpuId p = firstDpu lvl.nrReplicasPerPartition p
  dpuIdToPartition : ∀ p < n, ∀ d, Hosts lvl.nrReplicasPerPartition d p →
    r.2.dpuIdToPartition d = p

theorem Started.step {r : ℕ × DramLevel} (h : Started lvl n r) :
    Started lvl (n + 1) (startPartition r n) := by
  refine ⟨?cumulative, h.lowBoundKey, h.nrReplicas, ?startDpuId, ?dpuIdToPartition⟩
  case cumulative => simp only [startPartition, h.cumulative, h.nrReplicas, firstDpu_succ]
  case startDpuId =>
    intro p hp
    simp only [startPartition]
    rcases Nat.lt_succ_iff_lt_or_eq.mp hp with hlt | rfl
    · rw [Function.update_of_ne hlt.ne]
      exact h.startDpuId p hlt
    · rw [Function.update_self, h.cumulative]
  case dpuIdToPartition =>
    intro p hp d hd
    simp only [startPartition, h.cumulative, h.nrReplicas]
    rw [foldl_update]
    rcases Nat.lt_succ_iff_lt_or_eq.mp hp with hlt | rfl
    · -- an earlier partition's DPUs lie below the ones written now
      have hend := hd.2.trans_le (firstDpu_mono _ hlt)
      rw [if_neg (by omega)]
      exact h.dpuIdToPartition p hlt d hd
    · rw [if_pos ⟨hd.1, by rw [← firstDpu_succ]; exact hd.2⟩]

theorem started (lvl : DramLevel) (n : ℕ) : Started lvl n (lvl.startPartitions n) := by
  induction n with
  | zero =>
    exact ⟨rfl, rfl, rfl, fun p hp => absurd hp (Nat.not_lt_zero p),
      fun p hp => absurd hp (Nat.not_lt_zero p)⟩
  | succ n ih =>
    rw [startPartitions, List.range_succ, List.foldl_concat]
    exact ih.step

@[simp] theorem getStartDpuId_lowBoundKey :
    lvl.getStartDpuId.lowBoundKey = lvl.lowBoundKey := by
  rw [getStartDpuId]
  exact (lvl.started nrPartition).lowBoundKey

@[simp] theorem getStartDpuId_nrReplicas :
    lvl.getStartDpuId.nrReplicasPerPartition = lvl.nrReplicasPerPartition := by
  rw [getStartDpuId]
  exact (lvl.started nrPartition).nrReplicas

@[simp] theorem getStartDpuId_upperLevelBound (key : DTYPE) :
    lvl.getStartDpuId.upperLevelBound key = lvl.upperLevelBound key := by
  rw [upperLevelBound, getStartDpuId_lowBoundKey, upperLevelBound]

theorem upperLevelBound_le (lvl : DramLevel) (key : DTYPE) :
    lvl.upperLevelBound key ≤ nrPartition := upperBound_le _ _ (Nat.zero_le _)

theorem getStartDpuId_startDpuId (hp : p < nrPartition) :
    lvl.getStartDpuId.startDpuId p = firstDpu lvl.nrReplicasPerPartition p := by
  rw [getStartDpuId]
  exact (lvl.started nrPartition).startDpuId p hp

/-- The reverse map is right on every hosted DPU, whatever it held before. -/
theorem getStartDpuId_dpuIdToPartition (hp : p < nrPartition)
    (hd : Hosts lvl.nrReplicasPerPartition d p) : lvl.getStartDpuId.dpuIdToPartition d = p := by
  rw [getStartDpuId]
  exact (lvl.started nrPartition).dpuIdToPartition p hp d hd

end DramLevel

namespace ReplicaCursor

variable {nr : ℕ → ℕ} {p q d fuel : ℕ}

theorem advance_eq (hd : Hosts nr d p) (hq : q ≤ p) (hfuel : p - q < fuel) :
    advance nr d fuel q = p := by
  induction fuel generalizing q with
  | zero => omega
  | succ fuel ih =>
    rcases hq.lt_or_eq with hlt | rfl
    · -- a partition before the host ends at or before the DPU
      have hge : d ≥ cumulative nr q := (firstDpu_mono nr hlt).trans hd.1
      rw [advance, if_pos hge]
      exact ih hlt (by omega)
    · have hlt : ¬ d ≥ cumulative nr q := Nat.not_le.mpr hd.2
      rw [advance, if_neg hlt]

/-- From a cursor at or before the host of its DPU, `next_partition` returns the host. -/
theorem nextPartition_eq (hp : p < nrPartition) (hd : Hosts nr d p) (hq : q ≤ p) :
    nextPartition nr ⟨d, q⟩ = (p, ⟨d + 1, p⟩) := by
  rcases hq.lt_or_eq with hlt | rfl
  · -- the cursor moves on past the partitions that end before `d`
    have hge : ¬ d < cumulative nr q := Nat.not_lt.mpr ((firstDpu_mono nr hlt).trans hd.1)
    simp only [nextPartition, if_neg hge]
    rw [advance_eq hd hlt (by omega)]
  · -- the DPU is in the partition of the cursor
    have hlt : d < cumulative nr q := hd.2
    simp only [nextPartition, if_pos hlt]

/-- A loading pass keeps its cursor at or before the host of the DPU it comes to. -/
theorem afterCalls_eq (hp : p < nrPartition) (hd : Hosts nr d p) :
    ∃ q ≤ p, afterCalls nr d = ⟨d, q⟩ := by
  induction d generalizing p with
  | zero => exact ⟨0, Nat.zero_le p, rfl⟩
  | succ d ih =>
    -- the host of the DPU before is at or before this one's
    have hbelow : d < firstDpu nr nrPartition :=
      (Nat.lt_of_succ_lt hd.2).trans_le (firstDpu_mono nr hp)
    obtain ⟨q, hq, hdq⟩ := exists_hosts hbelow
    obtain ⟨q', hq', hcur⟩ := ih hq hdq
    refine ⟨q, ?_, by rw [afterCalls, hcur, nextPartition_eq hq hdq hq']⟩
    by_contra hlt
    have hend := hd.2.trans_le ((firstDpu_mono nr (Nat.not_le.mp hlt)).trans hdq.1)
    omega

/-- A loading pass puts the slice of its host on every DPU. -/
theorem loadedPartition_eq (hp : p < nrPartition) (hd : Hosts nr d p) :
    loadedPartition nr d = p := by
  obtain ⟨q, hq, hcur⟩ := afterCalls_eq hp hd
  rw [loadedPartition, hcur, nextPartition_eq hp hd hq]

end ReplicaCursor

section Routing

variable {lvl : DramLevel} {k : DTYPE}

/-- Partition `p` is the last one whose low bound is at most the key. -/
structure DramLevel.Routes (lvl : DramLevel) (k : DTYPE) (p : ℕ) : Prop where
  lt : p < nrPartition
  low : lvl.lowBoundKey p ≤ k
  high : p + 1 < nrPartition → k < lvl.lowBoundKey (p + 1)

/-- Only keys below every partition end the search where it began. -/
theorem DramLevel.upperLevelBound_ne_zero_iff
    (hmono : ∀ i j, i < j → j < nrPartition → lvl.lowBoundKey i ≤ lvl.lowBoundKey j) :
    lvl.upperLevelBound k ≠ 0 ↔ lvl.lowBoundKey 0 ≤ k := by
  have hcut := isCut_rank hmono k
  have hbound : lvl.upperLevelBound k = rank lvl.lowBoundKey nrPartition k :=
    upperBound_eq_rank hcut (Nat.zero_le _) hcut.le le_rfl
  rw [hbound, hcut.iff 0 (by decide), Nat.pos_iff_ne_zero]

/-- With equal bounds in a row the search still stops behind the last of them. -/
theorem DramLevel.exists_routes
    (hmono : ∀ i j, i < j → j < nrPartition → lvl.lowBoundKey i ≤ lvl.lowBoundKey j)
    (hk : lvl.lowBoundKey 0 ≤ k) : ∃ p, lvl.upperLevelBound k = p + 1 ∧ lvl.Routes k p := by
  -- the bounds up to the key are an initial segment, the search stops at its end
  have hcut := isCut_rank hmono k
  have hbound : lvl.upperLevelBound k = rank lvl.lowBoundKey nrPartition k :=
    upperBound_eq_rank hcut (Nat.zero_le _) hcut.le le_rfl
  have hpos : 0 < rank lvl.lowBoundKey nrPartition k := (hcut.iff 0 (by decide)).mp hk
  generalize rank lvl.lowBoundKey nrPartition k = c at hcut hbound hpos
  obtain ⟨p, rfl⟩ : ∃ p, c = p + 1 := ⟨c - 1, by omega⟩
  have hlt : p < nrPartition := hcut.le
  refine ⟨p, hbound, hlt, (hcut.iff p hlt).mpr p.lt_succ_self, fun h => ?_⟩
  exact not_le.mp (mt (hcut.iff (p + 1) h).mp (lt_irrefl _))

/-- The DPU that routing picks for a request was loaded, in every loading pass, with the
partition the key belongs to, and the reverse map says so. -/
theorem routing_agrees_loading (lvl : DramLevel) (nrDpus rd : ℕ) (k : DTYPE)
    (hmono : ∀ i j, i < j → j < nrPartition → lvl.lowBoundKey i ≤ lvl.lowBoundKey j)
    (hnr : ∀ p < nrPartition, 1 ≤ lvl.nrReplicasPerPartition p)
    (hsum : ∑ p ∈ range nrPartition, lvl.nrReplicasPerPartition p = nrDpus)
    (hk : lvl.lowBoundKey 0 ≤ k) :
    let routed := lvl.getStartDpuId
    let d := routed.searchUpperLevel k rd
    d < nrDpus ∧ ∃ p < nrPartition,
      ReplicaCursor.loadedPartition lvl.nrReplicasPerPartition d = p ∧
      routed.searchUpperLevelGetPartition k = p ∧ lvl.lowBoundKey p ≤ k ∧
      (p + 1 < nrPartition → k < lvl.lowBoundKey (p + 1)) ∧ routed.dpuIdToPartition d = p := by
  intro routed d
  obtain ⟨p, hbound, hroute⟩ := DramLevel.exists_routes hmono hk
  have hrouted : routed.upperLevelBound k = p + 1 := by
    rw [DramLevel.getStartDpuId_upperLevelBound]
    exact hbound
  have hhosts : Hosts lvl.nrReplicasPerPartition d p := by
    simp only [d, DramLevel.searchUpperLevel, hrouted, Nat.add_sub_cancel]
    rw [DramLevel.getStartDpuId_startDpuId hroute.lt, DramLevel.getStartDpuId_nrReplicas]
    exact hosts_of_mod (hnr p hroute.lt) rd
  have hload := ReplicaCursor.loadedPartition_eq hroute.lt hhosts
  refine ⟨?_, p, hroute.lt, hload, ?_, hroute.low, hroute.high, ?_⟩
  · rw [← hsum]
    exact hhosts.2.trans_le (firstDpu_mono _ hroute.lt)
  · rw [DramLevel.searchUpperLevelGetPartition, hrouted]
    omega
  · simp only [routed, DramLevel.getStartDpuId_dpuIdToPartition hroute.lt hhosts]

/-- Two replicas for every partition, low bounds in pairs, and a used reverse map: request 5
for key 7 goes to DPU 15 of partition 7. -/
theorem routing_agrees_loading_pairs :
    let lvl : DramLevel := ⟨fun i => 2 * (i / 2) + 1, fun _ => 0, fun _ => 2, fun d => d⟩
    let routed := lvl.getStartDpuId
    let d := routed.searchUpperLevel 7 5
    d < 256 ∧ ∃ p < nrPartition,
      ReplicaCursor.loadedPartition lvl.nrReplicasPerPartition d = p ∧
      routed.searchUpperLevelGetPartition 7 = p ∧ lvl.lowBoundKey p ≤ 7 ∧
      (p + 1 < nrPartition → 7 < lvl.lowBoundKey (p + 1)) ∧ routed.dpuIdToPartition d = p :=
  routing_agrees_loading ⟨fun i => 2 * (i / 2) + 1, fun _ => 0, fun _ => 2, fun d => d⟩ 256 5 7
    (fun i j hij _ => by change 2 * (i / 2) + 1 ≤ 2 * (j / 2) + 1; omega)
    (fun _ _ => Nat.le_succ 1) (by rw [Finset.sum_const, Finset.card_range]; rfl) (by decide)

end Routing

end PimLex
