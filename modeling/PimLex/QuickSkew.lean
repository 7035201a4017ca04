import PimLex.AllocationOrder
import PimLex.Fitting.Rounding
import PimLex.Replica

/-!
# Moving single DPUs to hot partitions

The quick change of the replicas keeps the allocation and moves up to 32 DPUs, one
in a pass: the last DPU of the lightest partition with more than one goes to the
end of the hottest partition's list. The moves are recorded, sorted by DPU and
replayed to the DPUs by three loops with a cursor.

The lists stay a partition of the DPUs. The reverse map is not written, and moves
never cancel: each raises the sum, over the DPUs of a partition but its first, of
the load that was there without it. So one move already leaves the map wrong.

The loads are compared as the doubles they are. Below 128 accesses the average is
zero and every load infinite or not a number: none is less than another then, as if
all were zero.
-/

namespace PimLex

open Search Finset

/-- `double`; no exponent here is out of range. -/
abbrev Double : Type := Fitting.Binary 53

/-- `dram_level` with the lists of the `QUICK_HOT_CHANGE` build. -/
structure QuickLevel extends DramLevel where
  dpuIds : ℕ → ℕ → ℕ

/-- The partitions whose arguments, keys and models the DPUs were sent last. -/
structure DpuMemory where
  inputArguments : ℕ → ℕ
  keys : ℕ → ℕ
  modelArray : ℕ → ℕ

/-- What ends `quick_skew_partition` early: an offset or a count as in the allocation, the
assertion, or a store behind the 64 slots of a list. -/
inductive QuickFault where
  | alloc (fault : AllocFault)
  | assertion
  | slot
  deriving DecidableEq

/-- The slots of a list in `dpu_ids`. -/
abbrev dpuSlots : ℕ := 64

/-- `MAX_ADJUST_NUM`. -/
abbrev maxAdjustNum : ℕ := 32

namespace QuickLevel

/-- `get_start_dpu_id`; every slot of a list is written once. -/
def getStartDpuId (lvl : QuickLevel) : QuickLevel :=
  let started := lvl.toDramLevel.getStartDpuId
  { started with
    dpuIds := fun i j => if i < nrPartition ∧ j < started.nrReplicasPerPartition i then
      started.startDpuId i + j else lvl.dpuIds i j }

/-- `search_upper_level` for request number `rd`. -/
def searchUpperLevel (lvl : QuickLevel) (key : DTYPE) (rd : ℕ) : ℕ :=
  let l := lvl.upperLevelBound key
  lvl.dpuIds (l - 1) (rd % lvl.nrReplicasPerPartition (l - 1))

/-- The last DPU in the list of partition `p`. -/
def lastDpu (lvl : QuickLevel) (p : ℕ) : ℕ := lvl.dpuIds p (lvl.nrReplicasPerPartition p - 1)

/-- The stores of a move to the lists. -/
def moveLast (lvl : QuickLevel) (minPartitionId maxPartitionId : ℕ) :
    Except QuickFault QuickLevel :=
  let nr := Function.update lvl.nrReplicasPerPartition minPartitionId
    (lvl.nrReplicasPerPartition minPartitionId - 1)
  if nr maxPartitionId ≥ dpuSlots then .error .slot
  else .ok { lvl with
    nrReplicasPerPartition := Function.update nr maxPartitionId (nr maxPartitionId + 1)
    dpuIds := Function.update lvl.dpuIds maxPartitionId
      (Function.update (lvl.dpuIds maxPartitionId) (nr maxPartitionId)
        (lvl.lastDpu minPartitionId)) }

end QuickLevel

/-- The state of the passes; `adjust_partition` up to `real_adjust_num`. -/
structure QuickState where
  level : QuickLevel
  recordRatio : List (AccessRatio Double)
  adjustPartition : List (ℕ × ℕ)

/-- The branch under `enter_adjust`. -/
def QuickState.adjust (st : QuickState) (minAvailableOff : ℕ) (last first : AccessRatio Double) :
    Except QuickFault QuickState := do
  let level ← st.level.moveLast last.partitionId first.partitionId
  let recs ← (shrinkAt st.recordRatio minAvailableOff).mapError .alloc
  let recs ← (growAt recs 0).mapError .alloc
  .ok ⟨level, recs,
    st.adjustPartition ++ [(st.level.lastDpu last.partitionId, first.partitionId)]⟩

/-- A pass of the loop over `MAX_ADJUST_NUM`. -/
def quickPass (st : QuickState) : Except QuickFault QuickState := do
  let off ← (lowerOff st.recordRatio (nrPartition - 1)).mapError .alloc
  if off ≤ 1 then .error .assertion
  else
    let last ← (record st.recordRatio off).mapError .alloc
    let first ← (record st.recordRatio 0).mapError .alloc
    if last.staysBelow first then st.adjust off last first else .ok st

/-- The body of a cursor loop at DPU `i`: `cur_adjust_array_off` and what the DPUs hold. -/
def replayAt (adjust : List (ℕ × ℕ)) (acc : ℕ × (ℕ → ℕ)) (i : ℕ) : ℕ × (ℕ → ℕ) :=
  match adjust[acc.1]? with
  | some (dpu, curP) => if dpu = i then (acc.1 + 1, Function.update acc.2 i curP) else acc
  | none => acc

/-- A cursor loop and the push after it. -/
def replay (adjust : List (ℕ × ℕ)) (nrDpus : ℕ) (held : ℕ → ℕ) : ℕ → ℕ :=
  ((List.range nrDpus).foldl (replayAt adjust) (0, held)).2

/-- `cmp_pair_id`. -/
def cmpPairId (a b : ℕ × ℕ) : Bool := decide (a.1 < b.1)

namespace PartitionAccess

/-- The first loop, which takes the counts from the routing tables. -/
def quickLoaded (pa : PartitionAccess Double) (lvl : QuickLevel) (avgAccessNum : ℕ) :
    List (AccessRatio Double) :=
  pa.recordRatio.mapIdx fun i r =>
    { r with partitionRatio := (pa.accessNum i : Double) / (avgAccessNum : Double) }.setNum
      (lvl.nrReplicasPerPartition i)

/-- The records that the passes start from. -/
def quickLoads (byRatio : AccessRatio.LoadSort Double) (pa : PartitionAccess Double)
    (lvl : QuickLevel) (totalAccessNum : ℕ) : List (AccessRatio Double) :=
  byRatio.sort (pa.quickLoaded lvl (totalAccessNum / nrPartition))

end PartitionAccess

/-- `quick_skew_partition`. -/
def quickSkewPartition (byRatio : AccessRatio.LoadSort Double) (byDpu : StdSort cmpPairId)
    (pa : PartitionAccess Double) (nrDpus totalAccessNum : ℕ) (lvl : QuickLevel) (mem : DpuMemory) :
    Except QuickFault (QuickLevel × DpuMemory) := do
  let st ← afterPasses quickPass ⟨lvl, pa.quickLoads byRatio lvl totalAccessNum, []⟩ maxAdjustNum
  let adjust := byDpu.sort st.adjustPartition
  .ok (st.level, ⟨replay adjust nrDpus mem.inputArguments, replay adjust nrDpus mem.keys,
    replay adjust nrDpus mem.modelArray⟩)

/-- The list `dpu_ids[p][0..nr_replicas_per_partition[p])`, without its order. -/
def QuickLevel.dpus (lvl : QuickLevel) (p : ℕ) : Multiset ℕ :=
  (Multiset.range (lvl.nrReplicasPerPartition p)).map (lvl.dpuIds p)

/-- Every DPU is in one list, once, and no list is longer than its slots. -/
structure QuickLevel.Partitions (lvl : QuickLevel) (nrDpus : ℕ) : Prop where
  sum : ∑ p ∈ range nrPartition, lvl.dpus p = Multiset.range nrDpus
  slots : ∀ p < nrPartition, lvl.nrReplicasPerPartition p ≤ dpuSlots

/-- The lists partition the DPUs, and each DPU in the list of `p` holds what belongs to `p` and
is mapped to it. -/
structure Together (lvl : QuickLevel) (mem : DpuMemory) (nrDpus : ℕ) : Prop
    extends lvl.Partitions nrDpus where
  mapped : ∀ p < nrPartition, ∀ d ∈ lvl.dpus p, lvl.dpuIdToPartition d = p
  held : ∀ p < nrPartition, ∀ d ∈ lvl.dpus p,
    mem.inputArguments d = p ∧ mem.keys d = p ∧ mem.modelArray d = p

/-- The last record with more than one DPU is behind the first two, and would not be lighter with
one DPU less than the first record is. -/
def Settled (recs : List (AccessRatio Double)) : Prop :=
  ∃ (off : ℕ) (last first : AccessRatio Double), 1 < off ∧ recs[off]? = some last ∧
    last.numDpuPerPartition ≠ 1 ∧ OnesBehind recs off ∧ recs[0]? = some first ∧
    first.perDpuRatio ≤ last.partitionRatio / ((last.numDpuPerPartition - 1 : ℕ) : Double)

section Start

variable {lvl : QuickLevel} {nr : ℕ → ℕ} {nrDpus p d n : ℕ}

/-- A request goes to a DPU that holds the partition of its key. -/
theorem Together.routes {mem : DpuMemory} (h : Together lvl mem nrDpus)
    (hmono : ∀ i j, i < j → j < nrPartition → lvl.lowBoundKey i ≤ lvl.lowBoundKey j)
    (hnr : ∀ p < nrPartition, 1 ≤ lvl.nrReplicasPerPartition p) {key : DTYPE}
    (hkey : lvl.lowBoundKey 0 ≤ key) (rd : ℕ) :
    ∃ p, lvl.Routes key p ∧ mem.keys (lvl.searchUpperLevel key rd) = p ∧
      lvl.dpuIdToPartition (lvl.searchUpperLevel key rd) = p := by
  obtain ⟨p, hbound, hroute⟩ := DramLevel.exists_routes hmono hkey
  have hmem : lvl.searchUpperLevel key rd ∈ lvl.dpus p := by
    rw [QuickLevel.searchUpperLevel, hbound, Nat.add_sub_cancel]
    exact Multiset.mem_map_of_mem _ (Multiset.mem_range.mpr (Nat.mod_lt _ (hnr p hroute.lt)))
  exact ⟨p, hroute, (h.held p hroute.lt _ hmem).2.1, h.mapped p hroute.lt _ hmem⟩

/-- Consecutive intervals make up one. -/
theorem sum_intervals (nr : ℕ → ℕ) (n : ℕ) :
    ∑ p ∈ range n, (Multiset.range (nr p)).map (firstDpu nr p + ·) =
      Multiset.range (firstDpu nr n) := by
  induction n with
  | zero => rfl
  | succ n ih => rw [sum_range_succ, ih, firstDpu_succ, Multiset.range_add]

theorem QuickLevel.getStartDpuId_toDramLevel (lvl : QuickLevel) :
    lvl.getStartDpuId.toDramLevel = lvl.toDramLevel.getStartDpuId := by
  rw [getStartDpuId]

theorem getStartDpuId_dpus (hp : p < nrPartition) : lvl.getStartDpuId.dpus p =
    (Multiset.range (lvl.nrReplicasPerPartition p)).map
      (firstDpu lvl.nrReplicasPerPartition p + ·) := by
  rw [QuickLevel.dpus, QuickLevel.getStartDpuId_toDramLevel, DramLevel.getStartDpuId_nrReplicas]
  refine Multiset.map_congr rfl fun j hj => ?_
  simp only [QuickLevel.getStartDpuId, DramLevel.getStartDpuId_nrReplicas]
  rw [if_pos ⟨hp, Multiset.mem_range.mp hj⟩, DramLevel.getStartDpuId_startDpuId hp]

theorem hosts_of_mem_dpus (hp : p < nrPartition) (hd : d ∈ lvl.getStartDpuId.dpus p) :
    Hosts lvl.nrReplicasPerPartition d p := by
  rw [getStartDpuId_dpus hp] at hd
  obtain ⟨j, hj, rfl⟩ := Multiset.mem_map.mp hd
  refine ⟨Nat.le_add_right _ _, ?_⟩
  rw [firstDpu_succ]
  exact Nat.add_lt_add_left (Multiset.mem_range.mp hj) _

/-- `get_start_dpu_id` and the loading passes bring lists, reverse map and DPUs together. -/
theorem together_getStartDpuId
    (hslots : ∀ p < nrPartition, lvl.nrReplicasPerPartition p ≤ dpuSlots)
    (hsum : ∑ p ∈ range nrPartition, lvl.nrReplicasPerPartition p = nrDpus) :
    Together lvl.getStartDpuId
      ⟨ReplicaCursor.loadedPartition lvl.nrReplicasPerPartition,
        ReplicaCursor.loadedPartition lvl.nrReplicasPerPartition,
        ReplicaCursor.loadedPartition lvl.nrReplicasPerPartition⟩ nrDpus where
  sum := by
    rw [sum_congr rfl fun p hp => getStartDpuId_dpus (mem_range.mp hp), sum_intervals, ← hsum,
      firstDpu]
  slots p hp := by
    rw [QuickLevel.getStartDpuId_toDramLevel, DramLevel.getStartDpuId_nrReplicas]
    exact hslots p hp
  mapped p hp d hd := by
    rw [QuickLevel.getStartDpuId_toDramLevel]
    exact DramLevel.getStartDpuId_dpuIdToPartition hp (hosts_of_mem_dpus hp hd)
  held p hp d hd := by
    have hload := ReplicaCursor.loadedPartition_eq hp (hosts_of_mem_dpus hp hd)
    exact ⟨hload, hload, hload⟩

end Start

section Sums

variable {ι M : Type*} [DecidableEq ι] [AddCommMonoid M] {s : Finset ι} {f g : ι → M} {a b : ι}

/-- Sums that differ in two places. -/
theorem sum_add_pair (ha : a ∈ s) (hb : b ∈ s) (hab : a ≠ b)
    (h : ∀ i ∈ s, i ≠ a → i ≠ b → g i = f i) :
    ∑ i ∈ s, g i + (f a + f b) = ∑ i ∈ s, f i + (g a + g b) := by
  have hb' : b ∈ s.erase a := mem_erase.mpr ⟨hab.symm, hb⟩
  have hrest : ∑ i ∈ (s.erase a).erase b, g i = ∑ i ∈ (s.erase a).erase b, f i := by
    refine sum_congr rfl fun i hi => ?_
    obtain ⟨hib, hi⟩ := mem_erase.mp hi
    obtain ⟨hia, hi⟩ := mem_erase.mp hi
    exact h i hi hia hib
  rw [← add_sum_erase s g ha, ← add_sum_erase s f ha, ← add_sum_erase _ g hb',
    ← add_sum_erase _ f hb', hrest]
  abel

/-- No element is in two summands of a sum without repetitions. -/
theorem eq_of_mem_sum {α : Type*} {n : ℕ} {f : ℕ → Multiset α} {m : Multiset α}
    (hsum : ∑ p ∈ range n, f p = m) (hm : m.Nodup) {p q : ℕ} (hp : p < n) (hq : q < n) {x : α}
    (hxp : x ∈ f p) (hxq : x ∈ f q) : p = q := by
  by_contra hne
  have hle : f p + f q ≤ ∑ p ∈ range n, f p :=
    add_le_sum (fun i _ => Multiset.zero_le (f i)) (mem_range.mpr hp) (mem_range.mpr hq) hne
  rw [hsum] at hle
  exact Multiset.disjoint_left.mp
    (Multiset.nodup_add.mp (Multiset.nodup_of_le hle hm)).2.2 hxp hxq

end Sums

section Lists

variable {lvl lvl' : QuickLevel} {nrDpus a b p q d : ℕ}

/-- What a move does to the tables. -/
structure Moved (lvl lvl' : QuickLevel) (a b : ℕ) : Prop where
  counts : lvl'.nrReplicasPerPartition =
    Function.update (Function.update lvl.nrReplicasPerPartition a
      (lvl.nrReplicasPerPartition a - 1)) b (lvl.nrReplicasPerPartition b + 1)
  source : lvl.dpus a = lvl'.dpus a + {lvl.lastDpu a}
  target : lvl'.dpus b = lvl.dpus b + {lvl.lastDpu a}
  others : ∀ p, p ≠ a → p ≠ b → lvl'.dpus p = lvl.dpus p
  slot : lvl.nrReplicasPerPartition b < dpuSlots
  map : lvl'.dpuIdToPartition = lvl.dpuIdToPartition

theorem moveLast_spec (hab : a ≠ b) (ha : 1 ≤ lvl.nrReplicasPerPartition a)
    (h : lvl.moveLast a b = .ok lvl') : Moved lvl lvl' a b := by
  rw [QuickLevel.moveLast] at h
  simp only [Function.update_of_ne hab.symm] at h
  split at h
  · cases h
  · rename_i hslot
    obtain rfl := Except.ok.inj h
    refine ⟨rfl, ?source, ?target, ?others, not_le.mp hslot, rfl⟩
    case source =>
      obtain ⟨n, hn⟩ := Nat.exists_eq_add_of_le' ha
      simp only [QuickLevel.dpus, QuickLevel.lastDpu, Function.update_of_ne hab,
        Function.update_self, hn, Nat.add_sub_cancel]
      rw [Multiset.range_succ, Multiset.map_cons, ← Multiset.singleton_add, add_comm]
    case target =>
      simp only [QuickLevel.dpus, Function.update_self]
      rw [Multiset.range_succ, Multiset.map_cons, Function.update_self, ← Multiset.singleton_add,
        add_comm]
      refine congrArg (· + _) (Multiset.map_congr rfl fun j hj => ?_)
      exact Function.update_of_ne (Multiset.mem_range.mp hj).ne _ _
    case others =>
      intro p hpa hpb
      simp only [QuickLevel.dpus, Function.update_of_ne hpa, Function.update_of_ne hpb]

theorem QuickLevel.Partitions.lt (h : lvl.Partitions nrDpus) (hp : p < nrPartition)
    (hd : d ∈ lvl.dpus p) : d < nrDpus := by
  rw [← Multiset.mem_range, ← h.sum, Multiset.mem_sum]
  exact ⟨p, mem_range.mpr hp, hd⟩

/-- No DPU is in two lists. -/
theorem QuickLevel.Partitions.unique (h : lvl.Partitions nrDpus) (hp : p < nrPartition)
    (hq : q < nrPartition) (hdp : d ∈ lvl.dpus p) (hdq : d ∈ lvl.dpus q) : p = q :=
  eq_of_mem_sum h.sum (Multiset.nodup_range nrDpus) hp hq hdp hdq

/-- The reverse map that the records of the moves stand for. -/
def recorded (map : ℕ → ℕ) (adjust : List (ℕ × ℕ)) : ℕ → ℕ :=
  adjust.foldl (fun map x => Function.update map x.1 x.2) map

theorem recorded_concat (map : ℕ → ℕ) (adjust : List (ℕ × ℕ)) (x : ℕ × ℕ) :
    recorded map (adjust ++ [x]) = Function.update (recorded map adjust) x.1 x.2 :=
  List.foldl_concat _ _ _ _

/-- The records stand for the lists. -/
def Recorded (map : ℕ → ℕ) (adjust : List (ℕ × ℕ)) (lvl : QuickLevel) : Prop :=
  ∀ p < nrPartition, ∀ d ∈ lvl.dpus p, recorded map adjust d = p

/-- A move leaves the lists a partition. -/
theorem Moved.partitions (h : Moved lvl lvl' a b) (hlists : lvl.Partitions nrDpus)
    (ha : a < nrPartition) (hb : b < nrPartition) (hab : a ≠ b) : lvl'.Partitions nrDpus where
  sum := by
    have hsum := sum_add_pair (mem_range.mpr ha) (mem_range.mpr hb) hab
      fun p _ hpa hpb => h.others p hpa hpb
    rw [h.source, h.target, add_assoc (lvl'.dpus a), add_comm {lvl.lastDpu a}] at hsum
    rw [← hlists.sum]
    exact add_right_cancel hsum
  slots p hp := by
    have hslots := hlists.slots p hp
    rw [h.counts, Function.update_apply, Function.update_apply]
    split_ifs with hpb hpa
    · exact h.slot
    · subst hpa
      exact (Nat.sub_le _ 1).trans hslots
    · exact hslots

theorem Moved.mem_source (h : Moved lvl lvl' a b) : lvl.lastDpu a ∈ lvl.dpus a := by
  rw [h.source]
  exact Multiset.mem_add.mpr (Or.inr (Multiset.mem_singleton_self _))

theorem Moved.mem_target (h : Moved lvl lvl' a b) : lvl.lastDpu a ∈ lvl'.dpus b := by
  rw [h.target]
  exact Multiset.mem_add.mpr (Or.inr (Multiset.mem_singleton_self _))

/-- A DPU that is not moved was in its list before. -/
theorem Moved.mem_of_ne (h : Moved lvl lvl' a b) (hd : d ∈ lvl'.dpus p) (hne : d ≠ lvl.lastDpu a) :
    d ∈ lvl.dpus p := by
  by_cases hpa : p = a
  · rw [hpa, h.source]
    exact Multiset.mem_add.mpr (Or.inl (hpa ▸ hd))
  · by_cases hpb : p = b
    · rw [hpb, h.target, Multiset.mem_add, Multiset.mem_singleton] at hd
      exact hpb ▸ hd.resolve_right hne
    · rwa [h.others p hpa hpb] at hd

/-- The record of a move stands for it. -/
theorem Moved.recorded (h : Moved lvl lvl' a b) (hlists : lvl'.Partitions nrDpus)
    (hb : b < nrPartition) {map : ℕ → ℕ} {adjust : List (ℕ × ℕ)} (hrec : Recorded map adjust lvl) :
    Recorded map (adjust ++ [(lvl.lastDpu a, b)]) lvl' := by
  intro p hp d hd
  rw [recorded_concat]
  by_cases hmoved : d = lvl.lastDpu a
  · subst hmoved
    rw [Function.update_self]
    exact hlists.unique hb hp h.mem_target hd
  · rw [Function.update_of_ne hmoved]
    exact hrec p hp d (h.mem_of_ne hd hmoved)

end Lists

section Potential

variable {ratio : ℕ → Double} {nr nr' : ℕ → ℕ} {a b : ℕ}

/-- The loads that the DPUs of a partition with this share but its first found there. -/
def found (share : Double) (num : ℕ) : ℚ := ∑ j ∈ range (num - 1), (share / (j + 1 : ℕ)).val

theorem found_succ (share : Double) {num : ℕ} (hnum : 1 ≤ num) :
    found share (num + 1) = found share num + (share / (num : Double)).val := by
  obtain ⟨n, rfl⟩ := Nat.exists_eq_add_of_le' hnum
  rw [found, found, Nat.add_sub_cancel, Nat.add_sub_cancel, sum_range_succ]

/-- The loads that all DPUs but the first of each partition found. -/
def potential (ratio : ℕ → Double) (nr : ℕ → ℕ) : ℚ :=
  ∑ p ∈ range nrPartition, found (ratio p) (nr p)

theorem potential_congr (h : ∀ p < nrPartition, nr' p = nr p) :
    potential ratio nr' = potential ratio nr :=
  sum_congr rfl fun p hp => by rw [h p (mem_range.mp hp)]

/-- A DPU that finds more load than it left behind raises the potential. -/
theorem potential_lt (ha : a < nrPartition) (hb : b < nrPartition) (hab : a ≠ b)
    (hlarge : 1 < nr a) (hpos : 1 ≤ nr b)
    (hload : ratio a / ((nr a - 1 : ℕ) : Double) < ratio b / (nr b : Double)) :
    potential ratio nr <
      potential ratio (Function.update (Function.update nr a (nr a - 1)) b (nr b + 1)) := by
  set nr' := Function.update (Function.update nr a (nr a - 1)) b (nr b + 1) with hnr'
  have hrest : ∀ p ∈ range nrPartition, p ≠ a → p ≠ b →
      found (ratio p) (nr' p) = found (ratio p) (nr p) := by
    intro p _ hpa hpb
    rw [hnr', Function.update_of_ne hpb, Function.update_of_ne hpa]
  have hsum := sum_add_pair (mem_range.mpr ha) (mem_range.mpr hb) hab hrest
  have hnra : nr' a = nr a - 1 := by
    rw [hnr', Function.update_of_ne hab, Function.update_self]
  have hnrb : nr' b = nr b + 1 := by rw [hnr', Function.update_self]
  -- the summand of the DPU taken, and of the DPU given
  have hsource : found (ratio a) (nr a) =
      found (ratio a) (nr' a) + (ratio a / ((nr a - 1 : ℕ) : Double)).val := by
    obtain ⟨n, hn⟩ := Nat.exists_eq_add_of_lt hlarge
    rw [hnra, hn, Nat.add_sub_cancel, found_succ _ (Nat.le_add_right 1 n)]
  have htarget : found (ratio b) (nr' b) =
      found (ratio b) (nr b) + (ratio b / (nr b : Double)).val := by
    rw [hnrb, found_succ _ hpos]
  have hval := Fitting.Binary.val_lt_val.mpr hload
  rw [potential, potential]
  linarith

end Potential

section Records

variable {ratio : ℕ → Double} {nr : ℕ → ℕ} {recs recs' E : List (AccessRatio Double)}
  {r : AccessRatio Double} {m : ℕ}

/-- The records hold the shares and the counts of their partitions. -/
def Records (ratio : ℕ → Double) (nr : ℕ → ℕ) (recs : List (AccessRatio Double)) : Prop :=
  ∀ r ∈ recs, r.partitionRatio = ratio r.partitionId ∧
    r.numDpuPerPartition = nr r.partitionId ∧
    r.perDpuRatio = r.partitionRatio / r.numDpuPerPartition

theorem Records.allocated (h : Records ratio nr recs)
    (hids : (recs.map AccessRatio.partitionId).Perm (List.range nrPartition)) :
    allocated recs = ∑ p ∈ range nrPartition, nr p := by
  have hcounts : recs.map AccessRatio.numDpuPerPartition =
      (recs.map AccessRatio.partitionId).map nr := by
    rw [List.map_map]
    exact List.map_congr_left fun r hr => (h r hr).2.1
  rw [PimLex.allocated, hcounts, (hids.map nr).sum_eq]
  rfl

/-- Another count in one record and for its partition. -/
theorem Records.setNum (h : Records ratio nr recs)
    (hids : (recs.map AccessRatio.partitionId).Nodup) (hold : recs.Perm (r :: E))
    (hnew : recs'.Perm (r.setNum m :: E)) :
    Records ratio (Function.update nr r.partitionId m) recs' := by
  have hr := h r (hold.symm.subset List.mem_cons_self)
  rw [(hold.map AccessRatio.partitionId).nodup_iff, List.map_cons, List.nodup_cons] at hids
  intro q hq
  rcases List.mem_cons.mp (hnew.subset hq) with rfl | hq
  · exact ⟨hr.1, (Function.update_self r.partitionId m nr).symm, rfl⟩
  · have hne : q.partitionId ≠ r.partitionId := fun heq =>
      hids.1 (heq ▸ List.mem_map_of_mem hq)
    rw [Function.update_of_ne hne]
    exact h q (hold.symm.subset (List.mem_cons_of_mem _ hq))

end Records

section Passes

variable {ratio : ℕ → Double} {map : ℕ → ℕ} {nrDpus off : ℕ} {st st' : QuickState}
  {last first : AccessRatio Double}

/-- What holds between the passes: the loads agree with the lists, the lists partition the DPUs,
the records of the moves stand for them, and the reverse map is as it was. -/
structure QuickInv (ratio : ℕ → Double) (map : ℕ → ℕ) (nrDpus : ℕ) (st : QuickState) : Prop where
  alloc : Allocated st.recordRatio nrDpus
  records : Records ratio st.level.nrReplicasPerPartition st.recordRatio
  lists : st.level.Partitions nrDpus
  map_eq : st.level.dpuIdToPartition = map
  moves : Recorded map st.adjustPartition st.level
  moves_lt : ∀ x ∈ st.adjustPartition, x.1 < nrDpus

theorem QuickInv.id_lt (h : QuickInv ratio map nrDpus st) {r : AccessRatio Double}
    (hr : r ∈ st.recordRatio) : r.partitionId < nrPartition :=
  List.mem_range.mp (h.alloc.ids.subset (List.mem_map_of_mem hr))

/-- The record moved stays behind the first, which is heavier. -/
theorem shrinkAt_first {recs : List (AccessRatio Double)} (hoff : 0 < off)
    (hlast : recs[off]? = some last)
    (hfirst : recs[0]? = some first) (hlarge : 1 < last.numDpuPerPartition)
    (hbelow : last.staysBelow first = true) :
    ∃ recs', shrinkAt recs off = .ok recs' ∧ recs'[0]? = some first ∧
      recs'.Perm (last.setNum (last.numDpuPerPartition - 1) :: recs.eraseIdx off) := by
  have hlt := (List.getElem?_eq_some_iff.mp hlast).1
  obtain ⟨k, hk, hle, -, hlighter⟩ :=
    firstLighter_spec recs (last.setNum (last.numDpuPerPartition - 1)) off
  have hpos : 0 < k := by
    rcases Nat.eq_zero_or_pos k with rfl | hpos
    · have hlight := hlighter hoff
      rw [lighterAt_eq hfirst] at hlight
      exact absurd (of_decide_eq_true hlight) (of_decide_eq_true hbelow).2.not_gt
    · exact hpos
  refine ⟨_, (shrinkAt_eq hlast hlarge).trans (by rw [hk]), ?_,
    perm_moveTo hlast (hle.trans_lt hlt)⟩
  rw [moveTo, List.getElem?_insertIdx_of_lt hpos, List.getElem?_eraseIdx_of_lt hoff, hfirst]

/-- The record that gets a DPU. -/
theorem growAt_perm {recs : List (AccessRatio Double)} (hlen : recs.length = nrPartition)
    (hfirst : recs[0]? = some first) :
    ∃ recs', growAt recs 0 = .ok recs' ∧
      recs'.Perm (first.setNum (first.numDpuPerPartition + 1) :: recs.eraseIdx 0) := by
  refine ⟨_, growAt_eq hfirst, perm_moveTo hfirst ?_⟩
  rw [hlen]
  exact (growPlace_mem _ (by decide)).2

/-- The last and the first record are of different partitions. -/
theorem partitionId_ne {recs : List (AccessRatio Double)}
    (hids : (recs.map AccessRatio.partitionId).Nodup) (hoff : 0 < off)
    (hlast : recs[off]? = some last) (hfirst : recs[0]? = some first) :
    last.partitionId ≠ first.partitionId := by
  rw [((perm_cons_eraseIdx hlast).map AccessRatio.partitionId).nodup_iff, List.map_cons,
    List.nodup_cons] at hids
  intro heq
  refine hids.1 (heq ▸ List.mem_map_of_mem (List.mem_iff_getElem?.mpr ⟨0, ?_⟩))
  rw [List.getElem?_eraseIdx_of_lt hoff, hfirst]

/-- What a move does to the records. -/
theorem Records.adjust {recs : List (AccessRatio Double)} {nr : ℕ → ℕ} {n : ℕ}
    (h : Records ratio nr recs) (halloc : Allocated recs n) (hoff : 0 < off)
    (hlast : recs[off]? = some last) (hfirst : recs[0]? = some first)
    (hlarge : 1 < last.numDpuPerPartition)
    (hbelow : last.staysBelow first = true) :
    ∃ recs₁ recs₂, shrinkAt recs off = .ok recs₁ ∧ growAt recs₁ 0 = .ok recs₂ ∧
      Allocated recs₂ n ∧ Records ratio
        (Function.update (Function.update nr last.partitionId (last.numDpuPerPartition - 1))
          first.partitionId (first.numDpuPerPartition + 1)) recs₂ := by
  obtain ⟨m, rfl⟩ : ∃ m, n = m + 1 :=
    Nat.exists_eq_succ_of_ne_zero (Nat.ne_of_gt ((by decide : 0 < nrPartition).trans_le halloc.le))
  obtain ⟨recs₁, hshrink, hfirst₁, hperm₁⟩ := shrinkAt_first hoff hlast hfirst hlarge hbelow
  obtain ⟨recs', hshrink', halloc₁, -⟩ := halloc.shrinkAt hlast hlarge
  obtain rfl : recs₁ = recs' := Except.ok.inj (hshrink.symm.trans hshrink')
  obtain ⟨recs₂, hgrow, hperm₂⟩ := growAt_perm halloc₁.length hfirst₁
  obtain ⟨recs', hgrow', halloc₂, -⟩ := halloc₁.growAt hfirst₁
  obtain rfl : recs₂ = recs' := Except.ok.inj (hgrow.symm.trans hgrow')
  have hrecords₁ := h.setNum halloc.ids_nodup (perm_cons_eraseIdx hlast) hperm₁
  exact ⟨recs₁, recs₂, hshrink, hgrow, halloc₂,
    hrecords₁.setNum halloc₁.ids_nodup (perm_cons_eraseIdx hfirst₁) hperm₂⟩

/-- What a move does to the state. -/
theorem adjust_eq_ok {recs₁ recs₂ : List (AccessRatio Double)}
    (hshrink : shrinkAt st.recordRatio off = .ok recs₁)
    (hgrow : growAt recs₁ 0 = .ok recs₂) (h : st.adjust off last first = .ok st') :
    st.level.moveLast last.partitionId first.partitionId = .ok st'.level ∧
      st'.recordRatio = recs₂ ∧ st'.adjustPartition =
        st.adjustPartition ++ [(st.level.lastDpu last.partitionId, first.partitionId)] := by
  rw [QuickState.adjust] at h
  cases hmove : st.level.moveLast last.partitionId first.partitionId with
  | error e =>
    rw [hmove] at h
    cases h
  | ok level =>
    rw [hmove, hshrink] at h
    change ((growAt recs₁ 0).mapError _ >>= _) = _ at h
    rw [hgrow] at h
    obtain rfl := Except.ok.inj h
    exact ⟨rfl, rfl, rfl⟩

/-- A move keeps the invariant and raises the potential. -/
theorem QuickInv.adjust (h : QuickInv ratio map nrDpus st) (hoff : 0 < off)
    (hlast : st.recordRatio[off]? = some last) (hfirst : st.recordRatio[0]? = some first)
    (hlarge : 1 < last.numDpuPerPartition) (hbelow : last.staysBelow first = true)
    (hadjust : st.adjust off last first = .ok st') :
    QuickInv ratio map nrDpus st' ∧ potential ratio st.level.nrReplicasPerPartition <
      potential ratio st'.level.nrReplicasPerPartition := by
  have hlastmem := List.mem_of_getElem? hlast
  have hfirstmem := List.mem_of_getElem? hfirst
  obtain ⟨hratio, hcount, hload⟩ := h.records _ hlastmem
  obtain ⟨hratio', hcount', hload'⟩ := h.records _ hfirstmem
  have hne := partitionId_ne h.alloc.ids_nodup hoff hlast hfirst
  have hlt := h.id_lt hlastmem
  have hlt' := h.id_lt hfirstmem
  obtain ⟨recs₁, recs₂, hshrink, hgrow, halloc, hrecords⟩ :=
    h.records.adjust h.alloc hoff hlast hfirst hlarge hbelow
  obtain ⟨hmove, hrecs, hadjusted⟩ := adjust_eq_ok hshrink hgrow hadjust
  have hmoved := moveLast_spec hne (hcount ▸ hlarge.le) hmove
  have hlists := hmoved.partitions h.lists hlt hlt' hne
  rw [hcount, hcount', ← hmoved.counts, ← hrecs] at hrecords
  refine ⟨⟨hrecs ▸ halloc, hrecords, hlists, hmoved.map.trans h.map_eq, ?moves, ?moves_lt⟩,
    ?potential⟩
  case moves =>
    rw [hadjusted]
    exact hmoved.recorded hlists hlt' h.moves
  case moves_lt =>
    rw [hadjusted]
    intro x hx
    rcases List.mem_append.mp hx with hx | hx
    · exact h.moves_lt x hx
    · rw [List.mem_singleton.mp hx]
      exact h.lists.lt hlt hmoved.mem_source
  case potential =>
    have hless := (of_decide_eq_true hbelow).2
    rw [hload', hratio, hratio', hcount, hcount'] at hless
    rw [hmoved.counts]
    exact potential_lt hlt hlt' hne (hcount ▸ hlarge) (hcount' ▸ h.alloc.pos _ hfirstmem) hless

/-- Past records with one DPU only, the offset leaves the array. -/
theorem lowerOff_of_ones {recs : List (AccessRatio Double)} {n : ℕ} (h : Allocated recs n)
    (hoff : off < nrPartition)
    (hones : ∀ i r, i ≤ off → recs[i]? = some r → r.numDpuPerPartition = 1) :
    lowerOff recs off = .error .offset := by
  obtain ⟨r, hr, -⟩ := exists_record h hoff
  have hone := hones off r le_rfl hr
  induction off generalizing r with
  | zero =>
    rw [lowerOff, record_eq_ok hr]
    exact if_pos hone
  | succ off ih =>
    rw [lowerOff, record_eq_ok hr]
    refine (if_pos hone).trans ?_
    obtain ⟨q, hq, -⟩ := exists_record h (Nat.lt_of_succ_lt hoff)
    exact ih (Nat.lt_of_succ_lt hoff) (fun i r hi => hones i r (Nat.le_succ_of_le hi)) q hq
      (hones off q (Nat.le_succ off) hq)

theorem quickPass_eq (hlower : lowerOff st.recordRatio (nrPartition - 1) = .ok off)
    (hoff : 1 < off) (hlast : st.recordRatio[off]? = some last)
    (hfirst : st.recordRatio[0]? = some first) :
    quickPass st = if last.staysBelow first then st.adjust off last first else .ok st := by
  rw [quickPass, hlower]
  refine (if_neg (not_le.mpr hoff)).trans ?_
  rw [record_eq_ok hlast, record_eq_ok hfirst]
  rfl

/-- A pass leaves everything as it is, or moves a DPU. -/
theorem QuickInv.pass (h : QuickInv ratio map nrDpus st) (hpass : quickPass st = .ok st') :
    (Settled st.recordRatio ∧ st' = st) ∨
      (QuickInv ratio map nrDpus st' ∧ potential ratio st.level.nrReplicasPerPartition <
        potential ratio st'.level.nrReplicasPerPartition) := by
  by_cases hlarge : ∃ (i : ℕ) (r : AccessRatio Double), st.recordRatio[i]? = some r ∧
      1 < r.numDpuPerPartition
  · obtain ⟨i, r, hr, hlarge⟩ := hlarge
    have hi := (List.getElem?_eq_some_iff.mp hr).1
    rw [h.alloc.length] at hi
    obtain ⟨off, last, hlower, hle, hlast, hlast_large, hones⟩ :=
      lowerOff_spec h.alloc (by decide) (Nat.le_sub_one_of_lt hi) hr hlarge
    obtain ⟨first, hfirst, -⟩ := exists_record h.alloc (show 0 < nrPartition by decide)
    by_cases hoff : off ≤ 1
    · rw [quickPass, hlower] at hpass
      cases (if_pos hoff).symm.trans hpass
    rw [quickPass_eq hlower (not_le.mp hoff) hlast hfirst] at hpass
    split at hpass
    · exact Or.inr (h.adjust (by omega) hlast hfirst hlast_large ‹_› hpass)
    · rename_i hbelow
      refine Or.inl ⟨⟨off, last, first, not_le.mp hoff, hlast, hlast_large.ne', ?_, hfirst, ?_⟩,
        (Except.ok.inj hpass).symm⟩
      · intro m q hm hq
        have hlt := (List.getElem?_eq_some_iff.mp hq).1
        rw [h.alloc.length] at hlt
        exact hones m q hm (Nat.le_sub_one_of_lt hlt) hq
      · refine not_lt.mp fun hlt => hbelow ?_
        exact decide_eq_true ⟨hlast_large.ne', hlt⟩
  · -- every partition has one DPU
    have hall : lowerOff st.recordRatio (nrPartition - 1) = .error .offset := by
      refine lowerOff_of_ones h.alloc (by decide) fun i r _ hr => ?_
      have hpos := h.alloc.pos r (List.mem_of_getElem? hr)
      exact Nat.le_antisymm (not_lt.mp fun hlt => hlarge ⟨i, r, hr, hlt⟩) hpos
    rw [quickPass, hall] at hpass
    cases hpass

/-- Where no DPU is to be moved, a pass does nothing. -/
theorem QuickInv.pass_of_settled (h : QuickInv ratio map nrDpus st)
    (hsettled : Settled st.recordRatio) : quickPass st = .ok st := by
  obtain ⟨off, last, first, hoff, hlast, hnum, hones, hfirst, hle⟩ := hsettled
  have hpos := h.alloc.pos last (List.mem_of_getElem? hlast)
  have hlt := (List.getElem?_eq_some_iff.mp hlast).1
  rw [h.alloc.length] at hlt
  obtain ⟨off', last', hlower, hle', hlast', hlarge', hones'⟩ :=
    lowerOff_spec h.alloc (by decide) (Nat.le_sub_one_of_lt hlt) hlast (by omega)
  -- the offset is the last one with a larger count
  have heq : off' = off := by
    rcases lt_trichotomy off' off with hlow | heq | hhigh
    · exact absurd (hones' off last hlow (Nat.le_sub_one_of_lt hlt) hlast) hnum
    · exact heq
    · exact absurd (hones off' last' hhigh hlast') hlarge'.ne'
  subst heq
  rw [quickPass_eq hlower hoff hlast hfirst, if_neg]
  exact fun hbelow => absurd (of_decide_eq_true hbelow).2 (not_lt.mpr hle)

/-- Any number of passes keeps the invariant and never lowers the potential. -/
theorem QuickInv.passes (h : QuickInv ratio map nrDpus st) (n : ℕ)
    (hrun : afterPasses quickPass st n = .ok st') :
    QuickInv ratio map nrDpus st' ∧ potential ratio st.level.nrReplicasPerPartition ≤
      potential ratio st'.level.nrReplicasPerPartition := by
  induction n generalizing st' with
  | zero =>
    obtain rfl := Except.ok.inj hrun
    exact ⟨h, le_rfl⟩
  | succ n ih =>
    rw [afterPasses] at hrun
    cases hbefore : afterPasses quickPass st n with
    | error e =>
      rw [hbefore] at hrun
      cases hrun
    | ok st₁ =>
      rw [hbefore] at hrun
      obtain ⟨hinv, hle⟩ := ih hbefore
      rcases hinv.pass hrun with ⟨-, rfl⟩ | ⟨hinv', hlt⟩
      · exact ⟨hinv, hle⟩
      · exact ⟨hinv', hle.trans hlt.le⟩

/-- If a DPU is to be moved, a run that ends has raised the potential. -/
theorem QuickInv.passes_of_not_settled (h : QuickInv ratio map nrDpus st)
    (hsettled : ¬ Settled st.recordRatio) (n : ℕ)
    (hrun : afterPasses quickPass st (n + 1) = .ok st') :
    potential ratio st.level.nrReplicasPerPartition <
      potential ratio st'.level.nrReplicasPerPartition := by
  rw [afterPasses_succ] at hrun
  cases hfirst : quickPass st with
  | error e =>
    rw [hfirst] at hrun
    cases hrun
  | ok st₁ =>
    rw [hfirst] at hrun
    rcases h.pass hfirst with ⟨hdone, -⟩ | ⟨hinv, hlt⟩
    · exact absurd hdone hsettled
    · exact hlt.trans_le (hinv.passes n hrun).2

/-- Where no DPU is to be moved, the passes do nothing. -/
theorem QuickInv.passes_of_settled (h : QuickInv ratio map nrDpus st)
    (hsettled : Settled st.recordRatio) (n : ℕ) : afterPasses quickPass st n = .ok st := by
  induction n with
  | zero => rfl
  | succ n ih =>
    rw [afterPasses, ih]
    exact h.pass_of_settled hsettled

end Passes

namespace PartitionAccess

variable {pa : PartitionAccess Double} {lvl : QuickLevel} {nrDpus total : ℕ}

theorem partitionId_recordRatio (pa : PartitionAccess Double) {i : ℕ}
    (hi : i < pa.recordRatio.length) :
    pa.recordRatio[i].partitionId = i := by
  have hget : (pa.recordRatio.map AccessRatio.partitionId)[i]? = (List.range nrPartition)[i]? := by
    rw [pa.ids]
  rw [List.getElem?_map, List.getElem?_range (pa.length_recordRatio ▸ hi),
    List.getElem?_eq_getElem hi] at hget
  exact Option.some.inj hget

/-- The shares of the partitions. -/
def share (pa : PartitionAccess Double) (avgAccessNum p : ℕ) : Double :=
  (pa.accessNum p : Double) / (avgAccessNum : Double)

theorem records_quickLoaded (pa : PartitionAccess Double) (lvl : QuickLevel) (avg : ℕ) :
    Records (pa.share avg) lvl.nrReplicasPerPartition (pa.quickLoaded lvl avg) := by
  intro r hr
  obtain ⟨i, hi, rfl⟩ := List.mem_mapIdx.mp hr
  have hid := pa.partitionId_recordRatio hi
  refine ⟨?_, ?_, rfl⟩
  · exact congrArg (pa.share avg) hid.symm
  · exact congrArg lvl.nrReplicasPerPartition hid.symm

theorem ids_quickLoaded (pa : PartitionAccess Double) (lvl : QuickLevel) (avg : ℕ) :
    (pa.quickLoaded lvl avg).map AccessRatio.partitionId = List.range nrPartition := by
  rw [← pa.ids]
  refine List.ext_getElem? fun i => ?_
  rw [List.getElem?_map, quickLoaded, List.getElem?_mapIdx, List.getElem?_map, Option.map_map]
  rfl

theorem ids_quickLoads (byRatio : AccessRatio.LoadSort Double) (pa : PartitionAccess Double)
    (lvl : QuickLevel) (total : ℕ) :
    ((pa.quickLoads byRatio lvl total).map AccessRatio.partitionId).Perm
      (List.range nrPartition) := by
  rw [← pa.ids_quickLoaded lvl (total / nrPartition)]
  exact (byRatio.perm _).map _

theorem records_quickLoads (byRatio : AccessRatio.LoadSort Double) (pa : PartitionAccess Double)
    (lvl : QuickLevel) (total : ℕ) :
    Records (pa.share (total / nrPartition)) lvl.nrReplicasPerPartition
      (pa.quickLoads byRatio lvl total) :=
  fun r hr => pa.records_quickLoaded lvl _ r ((byRatio.perm _).subset hr)

end PartitionAccess

section Replay

variable {adjust : List (ℕ × ℕ)} {held : ℕ → ℕ} {acc : ℕ × (ℕ → ℕ)} {n i d : ℕ}

theorem recorded_of_notMem {map : ℕ → ℕ} (hd : d ∉ adjust.map Prod.fst) :
    recorded map adjust d = map d := by
  induction adjust generalizing map with
  | nil => rfl
  | cons x adjust ih =>
    rw [List.map_cons, List.mem_cons, not_or] at hd
    exact (ih hd.2).trans (Function.update_of_ne hd.1 _ _)

theorem recorded_of_mem {map : ℕ → ℕ} {x : ℕ × ℕ} (hnodup : (adjust.map Prod.fst).Nodup)
    (hx : x ∈ adjust) : recorded map adjust x.1 = x.2 := by
  induction adjust generalizing map with
  | nil => exact absurd hx List.not_mem_nil
  | cons y adjust ih =>
    rw [List.map_cons, List.nodup_cons] at hnodup
    rcases List.mem_cons.mp hx with rfl | hx
    · exact (recorded_of_notMem hnodup.1).trans (Function.update_self _ _ _)
    · exact ih hnodup.2 hx

/-- What a cursor loop has done up to DPU `i`. -/
structure Replayed (adjust : List (ℕ × ℕ)) (held : ℕ → ℕ) (i : ℕ) (acc : ℕ × (ℕ → ℕ)) :
    Prop where
  before : ∀ x ∈ adjust.take acc.1, x.1 < i
  behind : ∀ x ∈ adjust.drop acc.1, i ≤ x.1
  sent : acc.2 = recorded held (adjust.take acc.1)

theorem Replayed.step (h : Replayed adjust held i acc)
    (hsorted : (adjust.map Prod.fst).Pairwise (· < ·)) :
    Replayed adjust held (i + 1) (replayAt adjust acc i) := by
  obtain ⟨c, f⟩ := acc
  cases hget : adjust[c]? with
  | none =>
    -- the records are used up
    have hstay : replayAt adjust (c, f) i = (c, f) := by
      simp only [replayAt, hget]
    have hdrop : adjust.drop c = [] := List.drop_eq_nil_of_le (List.getElem?_eq_none_iff.mp hget)
    rw [hstay]
    refine ⟨fun x hx => (h.before x hx).trans (Nat.lt_succ_self i), fun x hx => ?_, h.sent⟩
    rw [hdrop] at hx
    exact absurd hx List.not_mem_nil
  | some y =>
    obtain ⟨hc, hy⟩ := List.getElem?_eq_some_iff.mp hget
    have hdrop : adjust.drop c = y :: adjust.drop (c + 1) := by
      rw [← hy, List.drop_eq_getElem_cons hc]
    have hbehind := h.behind
    have hlater : ∀ x ∈ adjust.drop (c + 1), y.1 < x.1 := by
      have hpair := (List.pairwise_map.mp hsorted).sublist (List.drop_sublist c adjust)
      rw [hdrop, List.pairwise_cons] at hpair
      exact hpair.1
    simp only [hdrop, List.forall_mem_cons] at hbehind
    by_cases hi : y.1 = i
    · -- the DPU of the record is reached
      have hnext : replayAt adjust (c, f) i = (c + 1, Function.update f i y.2) := by
        simp only [replayAt, hget, if_pos hi]
      have htake : adjust.take (c + 1) = adjust.take c ++ [y] := by
        rw [← hy, List.take_append_getElem hc]
      rw [hnext]
      refine ⟨?_, fun x hx => hi ▸ hlater x hx, ?_⟩
      · simp only [htake, List.forall_mem_append, List.forall_mem_singleton]
        exact ⟨fun x hx => (h.before x hx).trans (Nat.lt_succ_self i), hi ▸ Nat.lt_succ_self _⟩
      · change Function.update f i y.2 = recorded held (adjust.take (c + 1))
        rw [htake, recorded_concat, hi]
        exact congrArg (Function.update · i y.2) h.sent
    · have hstay : replayAt adjust (c, f) i = (c, f) := by
        simp only [replayAt, hget, if_neg hi]
      have hlt : i < y.1 := lt_of_le_of_ne hbehind.1 (Ne.symm hi)
      rw [hstay]
      refine ⟨fun x hx => (h.before x hx).trans (Nat.lt_succ_self i), ?_, h.sent⟩
      simp only [hdrop, List.forall_mem_cons]
      exact ⟨hlt, fun x hx => hlt.trans (hlater x hx)⟩

/-- The loops send the records of distinct DPUs as they are. -/
theorem replay_eq (hsorted : (adjust.map Prod.fst).Pairwise (· < ·))
    (hlt : ∀ x ∈ adjust, x.1 < n) : replay adjust n held = recorded held adjust := by
  have hrun : ∀ i, Replayed adjust held i ((List.range i).foldl (replayAt adjust) (0, held)) := by
    intro i
    induction i with
    | zero => exact ⟨fun x hx => absurd hx List.not_mem_nil, fun x _ => Nat.zero_le _, rfl⟩
    | succ i ih =>
      rw [List.range_succ, List.foldl_concat]
      exact ih.step hsorted
  have hdone := hrun n
  rw [replay, hdone.sent, List.take_of_length_le]
  -- a record left over would be of a DPU that is not there
  by_contra hleft
  have hmem := List.getElem_mem (List.length_drop ▸ Nat.sub_pos_of_lt (not_le.mp hleft))
  exact absurd (hdone.behind _ hmem) (not_le.mpr (hlt _ (List.mem_of_mem_drop hmem)))

end Replay

section Call

variable {lvl lvl' : QuickLevel} {mem mem' : DpuMemory} {nrDpus p : ℕ}

theorem QuickLevel.card_dpus (lvl : QuickLevel) (p : ℕ) :
    (lvl.dpus p).card = lvl.nrReplicasPerPartition p := by
  rw [QuickLevel.dpus, Multiset.card_map, Multiset.card_range]

theorem QuickLevel.Partitions.sum_counts (h : lvl.Partitions nrDpus) :
    ∑ p ∈ range nrPartition, lvl.nrReplicasPerPartition p = nrDpus := by
  have hcard := congrArg Multiset.card h.sum
  rw [Multiset.card_sum, Multiset.card_range] at hcard
  rw [← hcard]
  exact sum_congr rfl fun p _ => (lvl.card_dpus p).symm

/-- The reverse map determines the counts. -/
theorem Together.count_eq (h : Together lvl mem nrDpus) (hp : p < nrPartition) :
    lvl.nrReplicasPerPartition p =
      (Multiset.range nrDpus).countP fun d => lvl.dpuIdToPartition d = p := by
  rw [← h.sum, ← Multiset.coe_countPAddMonoidHom, map_sum, sum_eq_single p]
  · rw [Multiset.coe_countPAddMonoidHom, Multiset.countP_eq_card.mpr (h.mapped p hp),
      QuickLevel.card_dpus]
  · intro q hq hqp
    rw [Multiset.coe_countPAddMonoidHom, Multiset.countP_eq_zero]
    exact fun d hd heq => hqp ((h.mapped q (mem_range.mp hq) d hd).symm.trans heq)
  · exact fun hnot => absurd (mem_range.mpr hp) hnot

theorem quickInv_start (byRatio : AccessRatio.LoadSort Double) (pa : PartitionAccess Double)
    (total : ℕ) (h : Together lvl mem nrDpus)
    (hnr : ∀ p < nrPartition, 1 ≤ lvl.nrReplicasPerPartition p) :
    QuickInv (pa.share (total / nrPartition)) lvl.dpuIdToPartition nrDpus
      ⟨lvl, pa.quickLoads byRatio lvl total, []⟩ := by
  have hrecords := pa.records_quickLoads byRatio lvl total
  have hids := pa.ids_quickLoads byRatio lvl total
  refine ⟨⟨hids, fun r hr => ?_, ?_⟩, hrecords, h.toPartitions, rfl, h.mapped,
    fun x hx => absurd hx List.not_mem_nil⟩
  · rw [(hrecords r hr).2.1]
    exact hnr _ (List.mem_range.mp (hids.subset (List.mem_map_of_mem hr)))
  · rw [hrecords.allocated hids, h.toPartitions.sum_counts]

theorem replay_nil (n : ℕ) (held : ℕ → ℕ) : replay [] n held = held := by
  rw [replay, List.foldl_fixed' fun _ => rfl]

/-- What a call that returns has run. -/
theorem quickSkewPartition_eq_ok {byRatio : AccessRatio.LoadSort Double}
    {byDpu : StdSort cmpPairId} {pa : PartitionAccess Double} {total : ℕ}
    (h : quickSkewPartition byRatio byDpu pa nrDpus total lvl mem = .ok (lvl', mem')) :
    ∃ st, afterPasses quickPass ⟨lvl, pa.quickLoads byRatio lvl total, []⟩ maxAdjustNum = .ok st ∧
      st.level = lvl' := by
  rw [quickSkewPartition] at h
  cases hrun : afterPasses quickPass ⟨lvl, pa.quickLoads byRatio lvl total, []⟩ maxAdjustNum with
  | error e =>
    rw [hrun] at h
    cases h
  | ok st =>
    rw [hrun] at h
    exact ⟨st, rfl, congrArg Prod.fst (Except.ok.inj h)⟩

/-- The DPUs hold what the reverse map says. -/
theorem Together.held_eq (h : Together lvl mem nrDpus) {d : ℕ} (hd : d < nrDpus) :
    mem.inputArguments d = lvl.dpuIdToPartition d ∧ mem.keys d = lvl.dpuIdToPartition d ∧
      mem.modelArray d = lvl.dpuIdToPartition d := by
  rw [← Multiset.mem_range, ← h.sum, Multiset.mem_sum] at hd
  obtain ⟨p, hp, hd⟩ := hd
  rw [h.mapped p (mem_range.mp hp) d hd]
  exact h.held p (mem_range.mp hp) d hd

/-- Sorted by DPU, the records of distinct DPUs send what they say. -/
theorem replay_sort {byDpu : StdSort cmpPairId} {adjust : List (ℕ × ℕ)} {map held : ℕ → ℕ} {d : ℕ}
    (hdistinct : (adjust.map Prod.fst).Nodup) (hlt : ∀ x ∈ adjust, x.1 < nrDpus)
    (hheld : held d = map d) :
    replay (byDpu.sort adjust) nrDpus held d = recorded map adjust d := by
  have hperm := byDpu.perm adjust
  have hnodup := ((hperm.map Prod.fst).nodup_iff).mpr hdistinct
  rw [replay_eq ((byDpu.pairwise_lt_iff adjust).mpr hdistinct) fun x hx => hlt x (hperm.subset hx)]
  by_cases hmem : d ∈ adjust.map Prod.fst
  · obtain ⟨x, hx, rfl⟩ := List.mem_map.mp hmem
    rw [recorded_of_mem hdistinct hx, recorded_of_mem hnodup (hperm.symm.subset hx)]
  · rw [recorded_of_notMem hmem, recorded_of_notMem ((hperm.map _).mem_iff.not.mpr hmem), hheld]

/-- If no DPU is moved twice, each DPU has been sent what belongs to the list it is in. -/
theorem quickSkewPartition_held {byRatio : AccessRatio.LoadSort Double}
    {byDpu : StdSort cmpPairId} {pa : PartitionAccess Double} {total : ℕ} {st : QuickState}
    (h : Together lvl mem nrDpus) (hnr : ∀ p < nrPartition, 1 ≤ lvl.nrReplicasPerPartition p)
    (hrun : afterPasses quickPass ⟨lvl, pa.quickLoads byRatio lvl total, []⟩ maxAdjustNum = .ok st)
    (hdistinct : (st.adjustPartition.map Prod.fst).Nodup) :
    ∃ mem', quickSkewPartition byRatio byDpu pa nrDpus total lvl mem = .ok (st.level, mem') ∧
      ∀ p < nrPartition, ∀ d ∈ st.level.dpus p,
        mem'.inputArguments d = p ∧ mem'.keys d = p ∧ mem'.modelArray d = p := by
  have hinv := ((quickInv_start byRatio pa total h hnr).passes _ hrun).1
  have hcall : quickSkewPartition byRatio byDpu pa nrDpus total lvl mem = .ok (st.level,
      ⟨replay (byDpu.sort st.adjustPartition) nrDpus mem.inputArguments,
        replay (byDpu.sort st.adjustPartition) nrDpus mem.keys,
        replay (byDpu.sort st.adjustPartition) nrDpus mem.modelArray⟩) := by
    rw [quickSkewPartition, hrun]
    rfl
  refine ⟨_, hcall, fun p hp d hd => ?_⟩
  obtain ⟨harguments, hkeys, hmodel⟩ := h.held_eq (hinv.lists.lt hp hd)
  have hmoves := hinv.moves p hp d hd
  refine ⟨?_, ?_, ?_⟩
  · exact (replay_sort hdistinct hinv.moves_lt harguments).trans hmoves
  · exact (replay_sort hdistinct hinv.moves_lt hkeys).trans hmoves
  · exact (replay_sort hdistinct hinv.moves_lt hmodel).trans hmoves

/-- Moves do not cancel, so a call that keeps everything together has moved no DPU. -/
theorem Together.settled {byRatio : AccessRatio.LoadSort Double} {byDpu : StdSort cmpPairId}
    {pa : PartitionAccess Double} {total : ℕ} (h : Together lvl mem nrDpus)
    (hnr : ∀ p < nrPartition, 1 ≤ lvl.nrReplicasPerPartition p)
    (hcall : quickSkewPartition byRatio byDpu pa nrDpus total lvl mem = .ok (lvl', mem'))
    (htogether : Together lvl' mem' nrDpus) : Settled (pa.quickLoads byRatio lvl total) := by
  have hstart := quickInv_start byRatio pa total h hnr
  obtain ⟨st, hrun, rfl⟩ := quickSkewPartition_eq_ok hcall
  by_contra hsettled
  -- the map is unchanged, so the counts would be too, but the potential has risen
  have hmap : st.level.dpuIdToPartition = lvl.dpuIdToPartition := (hstart.passes _ hrun).1.map_eq
  have hcounts : ∀ p < nrPartition,
      st.level.nrReplicasPerPartition p = lvl.nrReplicasPerPartition p := by
    intro p hp
    rw [htogether.count_eq hp, h.count_eq hp, hmap]
  have hlt := hstart.passes_of_not_settled hsettled _ hrun
  rw [potential_congr hcounts] at hlt
  exact lt_irrefl _ hlt

/-- The lists stay a partition of the DPUs. With the reverse map and the DPUs they stay together
exactly if no DPU is moved. -/
theorem quickSkewPartition_together_iff (byRatio : AccessRatio.LoadSort Double)
    (byDpu : StdSort cmpPairId) (pa : PartitionAccess Double) (nrDpus total : ℕ) (lvl : QuickLevel)
    (mem : DpuMemory) (h : Together lvl mem nrDpus)
    (hnr : ∀ p < nrPartition, 1 ≤ lvl.nrReplicasPerPartition p) :
    (∀ lvl' mem', quickSkewPartition byRatio byDpu pa nrDpus total lvl mem = .ok (lvl', mem') →
      lvl'.Partitions nrDpus) ∧
    ((∃ lvl' mem', quickSkewPartition byRatio byDpu pa nrDpus total lvl mem = .ok (lvl', mem') ∧
      Together lvl' mem' nrDpus) ↔ Settled (pa.quickLoads byRatio lvl total)) := by
  have hstart := quickInv_start byRatio pa total h hnr
  refine ⟨?_, ?_, ?_⟩
  · intro lvl' mem' hcall
    obtain ⟨st, hrun, rfl⟩ := quickSkewPartition_eq_ok hcall
    exact (hstart.passes _ hrun).1.lists
  · rintro ⟨lvl', mem', hcall, htogether⟩
    exact h.settled hnr hcall htogether
  · intro hsettled
    refine ⟨lvl, mem, ?_, h⟩
    have hnil : byDpu.sort [] = [] := List.perm_nil.mp (byDpu.perm [])
    rw [quickSkewPartition, hstart.passes_of_settled hsettled]
    change Except.ok _ = _
    simp only [hnil, replay_nil]

/-- Partitions with the same accesses and two DPUs each stay as they are. -/
theorem settled_of_even (byRatio : AccessRatio.LoadSort Double) (pa : PartitionAccess Double)
    {accesses total : ℕ} (hnr : ∀ p < nrPartition, lvl.nrReplicasPerPartition p = 2)
    (heven : ∀ p < nrPartition, pa.accessNum p = accesses) :
    Settled (pa.quickLoads byRatio lvl total) := by
  have hids := pa.ids_quickLoads byRatio lvl total
  have hlen : (pa.quickLoads byRatio lvl total).length = nrPartition := by
    rw [← List.length_map (f := AccessRatio.partitionId), hids.length_eq, List.length_range]
  have hall : ∀ r ∈ pa.quickLoads byRatio lvl total,
      r.partitionRatio = (accesses : Double) / ((total / nrPartition : ℕ) : Double) ∧
        r.numDpuPerPartition = 2 ∧ r.perDpuRatio = r.partitionRatio / ((2 : ℕ) : Double) := by
    intro r hr
    obtain ⟨hratio, hcount, hload⟩ := pa.records_quickLoads byRatio lvl total r hr
    have hlt := List.mem_range.mp (hids.subset (List.mem_map_of_mem hr))
    rw [hnr _ hlt] at hcount
    rw [PartitionAccess.share, heven _ hlt] at hratio
    exact ⟨hratio, hcount, by rw [hload, hcount]⟩
  have hfirst := List.getElem?_eq_getElem
    (show 0 < (pa.quickLoads byRatio lvl total).length by rw [hlen]; decide)
  have hlast := List.getElem?_eq_getElem
    (show nrPartition - 1 < (pa.quickLoads byRatio lvl total).length by rw [hlen]; decide)
  obtain ⟨hratio, -, hload⟩ := hall _ (List.mem_of_getElem? hfirst)
  obtain ⟨hratio', hcount', -⟩ := hall _ (List.mem_of_getElem? hlast)
  refine ⟨nrPartition - 1, _, _, by decide, hlast, by rw [hcount']; decide, onesBehind_last hlen,
    hfirst, ?_⟩
  rw [hload, hratio, hratio', hcount']
  exact Fitting.Binary.div_le_div_of_le
    (Fitting.Binary.val_div_nonneg (Fitting.Binary.val_natCast_nonneg _)
      (Fitting.Binary.val_natCast_nonneg _)) (by decide +kernel) (by decide +kernel)

end Call

/-- Two DPUs for each partition. -/
def pairsLevel : QuickLevel :=
  QuickLevel.getStartDpuId ⟨⟨fun p => p, fun _ => 0, fun _ => 2, fun _ => 0⟩, fun _ _ => 0⟩

/-- What the loading passes put there. -/
def pairsMemory : DpuMemory :=
  ⟨ReplicaCursor.loadedPartition fun _ => 2, ReplicaCursor.loadedPartition fun _ => 2,
    ReplicaCursor.loadedPartition fun _ => 2⟩

theorem together_pairs : Together pairsLevel pairsMemory 256 :=
  together_getStartDpuId (fun _ _ => by change 2 ≤ 64; decide)
    (by rw [sum_const, card_range]; rfl)

theorem pairsLevel_nrReplicas : pairsLevel.nrReplicasPerPartition = fun _ => 2 := by
  rw [pairsLevel, QuickLevel.getStartDpuId_toDramLevel, DramLevel.getStartDpuId_nrReplicas]

/-- One access for each partition: no DPU is moved. -/
theorem quickSkewPartition_together_pairs :
    ∃ lvl' mem', quickSkewPartition (.byKeyDesc AccessRatio.perDpuRatio) (.byKey Prod.fst)
      { PartitionAccess.init with accessNum := fun _ => 1 } 256 128 pairsLevel pairsMemory =
        .ok (lvl', mem') ∧ Together lvl' mem' 256 := by
  refine (quickSkewPartition_together_iff (.byKeyDesc AccessRatio.perDpuRatio) (.byKey Prod.fst)
    { PartitionAccess.init with accessNum := fun _ => 1 } 256 128 pairsLevel pairsMemory
    together_pairs fun p _ => ?_).2.mpr ?_
  · rw [pairsLevel_nrReplicas]
    exact Nat.le_succ 1
  · exact settled_of_even _ _ (fun p _ => by rw [pairsLevel_nrReplicas]) fun _ _ => rfl

/-- Three accesses for the first partition: it gets DPU 255, which stays mapped to the last. -/
theorem quickSkewPartition_together_uneven :
    Together pairsLevel pairsMemory 256 ∧
    ∃ lvl' mem', quickSkewPartition (.byInsertionDesc AccessRatio.perDpuRatio)
      (.byInsertion Prod.fst)
      { PartitionAccess.init with accessNum := fun p => if p = 0 then 3 else 1 } 256 130
      pairsLevel pairsMemory = .ok (lvl', mem') ∧ ¬ Together lvl' mem' 256 := by
  refine ⟨together_pairs, ?_⟩
  have hmoved : ((quickSkewPartition (.byInsertionDesc AccessRatio.perDpuRatio)
      (.byInsertion Prod.fst)
      { PartitionAccess.init with accessNum := fun p => if p = 0 then 3 else 1 } 256 130
      pairsLevel pairsMemory).toOption.any fun x =>
        decide (x.1.nrReplicasPerPartition 0 = 3 ∧ x.1.dpuIds 0 2 = 255 ∧
          x.1.dpuIdToPartition 255 = 127)) = true := by decide +kernel
  cases hcall : quickSkewPartition (.byInsertionDesc AccessRatio.perDpuRatio)
      (.byInsertion Prod.fst)
      { PartitionAccess.init with accessNum := fun p => if p = 0 then 3 else 1 } 256 130
      pairsLevel pairsMemory with
  | error e =>
    rw [hcall] at hmoved
    exact absurd hmoved Bool.false_ne_true
  | ok x =>
    rw [hcall] at hmoved
    obtain ⟨hcount, hslot, hmap⟩ := of_decide_eq_true hmoved
    refine ⟨x.1, x.2, rfl, fun htogether => ?_⟩
    have hmem : 255 ∈ x.1.dpus 0 := by
      rw [QuickLevel.dpus, hcount, ← hslot]
      exact Multiset.mem_map_of_mem _ (Multiset.mem_range.mpr (by decide))
    rw [htogether.mapped 0 (by decide) 255 hmem] at hmap
    exact absurd hmap (by decide)

end PimLex
