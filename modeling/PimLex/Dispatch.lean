import PimLex.Replica
import Mathlib.Data.List.Intervals

/-!
# Dispatching a batch

Every workload sends the requests of a thread's range to the DPUs in one loop: a
request takes the next slot of the buffer of its DPU, and a mixed or a range
workload writes a parallel array at the same slot. No loop compares a slot with
the size of a buffer.
-/

namespace PimLex

open Search

/-- The workloads with a dispatch loop of this kind. -/
inductive Workload where
  | search
  | insert
  | mix
  | scan
  deriving DecidableEq, Repr

/-- What the dispatch loops read. -/
structure DispatchInput where
  minKey : DTYPE
  querys : ℕ → DTYPE
  ops : ℕ → UInt8
  scanEndQuerys : ℕ → DTYPE

/-- The buffers of one thread, by DPU: `host_send_buffer`, `type_array` and
`scan_endkeys_buffer`. -/
structure ThreadBuffers where
  nTasks : ℕ → ℕ
  sbuffer : ℕ → ℕ → DTYPE
  ops : ℕ → ℕ → UInt8
  endkeys : ℕ → ℕ → ℕ

namespace ThreadBuffers

/-- A key stored in a slot of a DPU's buffer, whose `n_tasks` has moved on. -/
def put (buf : ThreadBuffers) (dpu slot : ℕ) (key : DTYPE) : ThreadBuffers :=
  { buf with
    nTasks := Function.update buf.nTasks dpu (slot + 1)
    sbuffer := Function.update buf.sbuffer dpu (Function.update (buf.sbuffer dpu) slot key) }

def putOp (buf : ThreadBuffers) (dpu slot : ℕ) (op : UInt8) : ThreadBuffers :=
  { buf with ops := Function.update buf.ops dpu (Function.update (buf.ops dpu) slot op) }

/-- The array of end keys has 32-bit entries. -/
def putEndkey (buf : ThreadBuffers) (dpu slot : ℕ) (key : DTYPE) : ThreadBuffers :=
  { buf with
    endkeys := Function.update buf.endkeys dpu
      (Function.update (buf.endkeys dpu) slot (key % 2 ^ 32)) }

/-- The buffers after `clear_send_buffer`. -/
def clear (buf : ThreadBuffers) : ThreadBuffers := { buf with nTasks := fun _ => 0 }

end ThreadBuffers

/-- `search_upper_level`; below `low_bound_key[0]` it reads in front of its tables. -/
def DramLevel.routed (lvl : DramLevel) (key : DTYPE) (rd : ℕ) : Option ℕ :=
  if lvl.upperLevelBound key = 0 then none else some (lvl.searchUpperLevel key rd)

namespace Workload

/-- The guard of the loop. -/
def sends (w : Workload) (inp : DispatchInput) (req : ℕ) : Bool :=
  match w with
  | search | scan => true
  | insert | mix => inp.minKey < inp.querys req

/-- The writes of request `req` at a slot. -/
def writes (w : Workload) (inp : DispatchInput) (buf : ThreadBuffers) (dpu slot req : ℕ) :
    ThreadBuffers :=
  let buf := buf.put dpu slot (inp.querys req)
  match w with
  | search | insert => buf
  | mix => buf.putOp dpu slot (inp.ops req)
  | scan => buf.putEndkey dpu slot (inp.scanEndQuerys req)

/-- The body of the loop; `none` for a write outside the buffers. -/
def dispatchReq (w : Workload) (inp : DispatchInput) (lvl : DramLevel) (nrDpus : ℕ)
    (buf : ThreadBuffers) (req : ℕ) : Option ThreadBuffers :=
  if w.sends inp req then
    match lvl.routed (inp.querys req) req with
    | none => none
    | some dpu =>
      let slot := buf.nTasks dpu
      if dpu < nrDpus ∧ slot < maxBufferSize then some (w.writes inp buf dpu slot req) else none
  else some buf

/-- The dispatch loop over `[startOps, endOps)`, from cleared buffers. -/
def dispatch (w : Workload) (inp : DispatchInput) (lvl : DramLevel) (nrDpus : ℕ)
    (buf : ThreadBuffers) (startOps endOps : ℕ) : Option ThreadBuffers :=
  (List.Ico startOps endOps).foldlM (w.dispatchReq inp lvl nrDpus) buf.clear

/-- The loop sends request `req` to a DPU. -/
def SentTo (w : Workload) (inp : DispatchInput) (lvl : DramLevel) (dpu req : ℕ) : Prop :=
  w.sends inp req = true ∧ lvl.routed (inp.querys req) req = some dpu

instance (w : Workload) (inp : DispatchInput) (lvl : DramLevel) (dpu req : ℕ) :
    Decidable (w.SentTo inp lvl dpu req) := inferInstanceAs (Decidable (_ ∧ _))

section Loop

variable {w : Workload} {inp : DispatchInput} {lvl : DramLevel} {nrDpus dpu req : ℕ}
  {buf buf' : ThreadBuffers} {reqs : List ℕ}

theorem writes_nTasks (slot : ℕ) :
    (w.writes inp buf dpu slot req).nTasks = Function.update buf.nTasks dpu (slot + 1) := by
  cases w <;> rfl

/-- A request is dispatched if it has a DPU, and a slot in the buffer of the DPU. -/
theorem exists_dispatchReq_iff :
    (∃ buf', w.dispatchReq inp lvl nrDpus buf req = some buf') ↔
      (w.sends inp req = true → ∃ dpu < nrDpus, lvl.routed (inp.querys req) req = some dpu) ∧
        ∀ dpu, w.SentTo inp lvl dpu req → buf.nTasks dpu < maxBufferSize := by
  rw [dispatchReq]
  by_cases hsend : w.sends inp req = true
  · rw [if_pos hsend]
    cases hroute : lvl.routed (inp.querys req) req with
    | none => simp [hsend]
    | some dpu =>
      by_cases hfits : dpu < nrDpus ∧ buf.nTasks dpu < maxBufferSize
      · simp [SentTo, hsend, hroute, hfits]
      · simp only [if_neg hfits, SentTo, hsend, hroute]
        simpa using hfits
  · simp [hsend, SentTo]

/-- Every dispatched request takes one slot of its DPU's buffer. -/
theorem dispatchReq_nTasks (h : w.dispatchReq inp lvl nrDpus buf req = some buf') (dpu : ℕ) :
    buf'.nTasks dpu = buf.nTasks dpu + if w.SentTo inp lvl dpu req then 1 else 0 := by
  rw [dispatchReq] at h
  by_cases hsend : w.sends inp req = true
  · rw [if_pos hsend] at h
    cases hroute : lvl.routed (inp.querys req) req with
    | none => simp [hroute] at h
    | some d =>
      simp only [hroute] at h
      obtain ⟨-, hwrites⟩ := Option.ite_none_right_eq_some.mp h
      obtain rfl := Option.some.inj hwrites
      rw [writes_nTasks]
      rcases eq_or_ne dpu d with rfl | hne
      · rw [Function.update_self, if_pos ⟨hsend, hroute⟩]
      · rw [Function.update_of_ne hne, if_neg]
        · rfl
        · rintro ⟨-, heq⟩
          rw [hroute] at heq
          exact hne (Option.some.inj heq).symm
  · rw [if_neg hsend] at h
    obtain rfl := Option.some.inj h
    rw [if_neg fun hs => hsend hs.1, Nat.add_zero]

/-- A loop is dispatched if every request has a DPU and no buffer gets more than it holds. -/
theorem exists_foldlM_iff (hbuf : ∀ dpu, buf.nTasks dpu ≤ maxBufferSize) :
    (∃ buf', reqs.foldlM (w.dispatchReq inp lvl nrDpus) buf = some buf') ↔
      (∀ req ∈ reqs, w.sends inp req = true →
        ∃ dpu < nrDpus, lvl.routed (inp.querys req) req = some dpu) ∧
      ∀ dpu, buf.nTasks dpu + reqs.countP (fun req => w.SentTo inp lvl dpu req) ≤
        maxBufferSize := by
  induction reqs generalizing buf with
  | nil => simpa using hbuf
  | cons req reqs ih =>
    -- the loop goes on exactly if this request can be sent
    have hhead : (∃ buf', (req :: reqs).foldlM (w.dispatchReq inp lvl nrDpus) buf = some buf') ↔
        ∃ next, w.dispatchReq inp lvl nrDpus buf req = some next ∧
          ∃ buf', reqs.foldlM (w.dispatchReq inp lvl nrDpus) next = some buf' := by
      rw [List.foldlM_cons]
      simp only [Option.bind_eq_bind, Option.bind_eq_some_iff]
      exact ⟨fun ⟨b, n, hn, hb⟩ => ⟨n, hn, b, hb⟩, fun ⟨n, hn, b, hb⟩ => ⟨b, n, hn, hb⟩⟩
    rw [hhead, List.forall_mem_cons, and_assoc]
    simp only [List.countP_cons, decide_eq_true_eq]
    constructor
    · rintro ⟨next, hnext, hrest⟩
      have hroom := exists_dispatchReq_iff.mp ⟨next, hnext⟩
      have hcount := dispatchReq_nTasks hnext
      have hbuf' : ∀ dpu, next.nTasks dpu ≤ maxBufferSize := by
        intro dpu
        rw [hcount]
        split
        · exact hroom.2 dpu ‹_›
        · exact hbuf dpu
      obtain ⟨hroutes, hrooms⟩ := (ih hbuf').mp hrest
      refine ⟨hroom.1, hroutes, fun dpu => ?_⟩
      have := hrooms dpu
      rw [hcount] at this
      omega
    · rintro ⟨hroute, hroutes, hrooms⟩
      have hroom : ∀ dpu, w.SentTo inp lvl dpu req → buf.nTasks dpu < maxBufferSize := by
        intro dpu hsent
        have := hrooms dpu
        rw [if_pos hsent] at this
        omega
      obtain ⟨next, hnext⟩ := exists_dispatchReq_iff.mpr ⟨hroute, hroom⟩
      have hcount := dispatchReq_nTasks hnext
      have hrooms' : ∀ dpu, next.nTasks dpu +
          reqs.countP (fun req => w.SentTo inp lvl dpu req) ≤ maxBufferSize := by
        intro dpu
        rw [hcount]
        have := hrooms dpu
        omega
      exact ⟨next, hnext, (ih fun dpu => (Nat.le_add_right _ _).trans (hrooms' dpu)).mpr
        ⟨hroutes, hrooms'⟩⟩

end Loop

end Workload

section Fits

variable {lvl : DramLevel} {key : DTYPE} {rd d p : ℕ}

theorem DramLevel.getPartition_eq_iff :
    lvl.searchUpperLevelGetPartition key = p ↔ lvl.upperLevelBound key = p + 1 := by
  rw [searchUpperLevelGetPartition]
  omega

/-- A request is routed by the partition of its key and by its number. -/
theorem DramLevel.routed_eq_some_iff : lvl.getStartDpuId.routed key rd = some d ↔
    ∃ p < nrPartition, lvl.searchUpperLevelGetPartition key = p ∧
      firstDpu lvl.nrReplicasPerPartition p + rd % lvl.nrReplicasPerPartition p = d := by
  have hle := lvl.upperLevelBound_le key
  simp only [getPartition_eq_iff]
  rw [routed, searchUpperLevel, getStartDpuId_upperLevelBound]
  cases hkey : lvl.upperLevelBound key with
  | zero => simp
  | succ q =>
    have hq : q < nrPartition := hkey.ge.trans hle
    rw [if_neg (Nat.succ_ne_zero q), Nat.add_sub_cancel, getStartDpuId_startDpuId hq,
      getStartDpuId_nrReplicas, Option.some_inj]
    constructor
    · intro heq
      exact ⟨q, hq, rfl, heq⟩
    · rintro ⟨p, -, hpq, heq⟩
      obtain rfl := Nat.succ.inj hpq
      exact heq

/-- Some DPU is routed to unless the key lies below the partitions. -/
theorem DramLevel.exists_routed_iff {nrDpus : ℕ}
    (hnr : ∀ p < nrPartition, 1 ≤ lvl.nrReplicasPerPartition p)
    (hsum : firstDpu lvl.nrReplicasPerPartition nrPartition = nrDpus) :
    (∃ d < nrDpus, lvl.getStartDpuId.routed key rd = some d) ↔
      0 ≤ lvl.searchUpperLevelGetPartition key := by
  simp only [routed_eq_some_iff]
  constructor
  · rintro ⟨d, -, p, -, hp, -⟩
    omega
  · intro hpos
    have hle := lvl.upperLevelBound_le key
    obtain ⟨p, hp⟩ := Int.eq_ofNat_of_zero_le hpos
    have hlt : p < nrPartition := (DramLevel.getPartition_eq_iff.mp hp).ge.trans hle
    have hhosts := hosts_of_mod (hnr p hlt) rd
    exact ⟨_, hsum ▸ hhosts.2.trans_le (firstDpu_mono _ hlt), p, hlt, hp, rfl⟩

/-- Replica `r` of partition `p` is the DPU `r` places behind the first of the partition. -/
theorem sentTo_replica_iff {w : Workload} {inp : DispatchInput} {r req : ℕ}
    (hnr : ∀ p < nrPartition, 1 ≤ lvl.nrReplicasPerPartition p) (hp : p < nrPartition)
    (hr : r < lvl.nrReplicasPerPartition p) :
    w.SentTo inp lvl.getStartDpuId (firstDpu lvl.nrReplicasPerPartition p + r) req ↔
      w.sends inp req = true ∧ lvl.searchUpperLevelGetPartition (inp.querys req) = p ∧
        req % lvl.nrReplicasPerPartition p = r := by
  rw [Workload.SentTo, DramLevel.routed_eq_some_iff]
  refine and_congr_right fun _ => ⟨?_, fun h => ⟨p, hp, h.1, by rw [h.2]⟩⟩
  rintro ⟨q, hq, hkey, heq⟩
  have hhosts : Hosts lvl.nrReplicasPerPartition
      (firstDpu lvl.nrReplicasPerPartition p + r) p := by
    have hmod := hosts_of_mod (hnr p hp) r
    rwa [Nat.mod_eq_of_lt hr] at hmod
  have hsame : q = p := (heq ▸ hosts_of_mod (hnr q hq) req).unique hhosts
  subst hsame
  exact ⟨hkey, Nat.add_left_cancel heq⟩

/-- A dispatch loop stays within the buffers exactly if every request it sends belongs to a
partition, and no replica of a partition is the turn of more requests than a buffer holds. -/
theorem dispatch_fits_iff (w : Workload) (inp : DispatchInput) (lvl : DramLevel) (nrDpus : ℕ)
    (buf : ThreadBuffers) (startOps endOps : ℕ)
    (hnr : ∀ p < nrPartition, 1 ≤ lvl.nrReplicasPerPartition p)
    (hsum : ∑ p ∈ Finset.range nrPartition, lvl.nrReplicasPerPartition p = nrDpus) :
    (∃ buf', w.dispatch inp lvl.getStartDpuId nrDpus buf startOps endOps = some buf') ↔
      (∀ req ∈ List.Ico startOps endOps, w.sends inp req = true →
        0 ≤ lvl.searchUpperLevelGetPartition (inp.querys req)) ∧
      ∀ p < nrPartition, ∀ r < lvl.nrReplicasPerPartition p,
        (List.Ico startOps endOps).countP (fun req => w.sends inp req = true ∧
          lvl.searchUpperLevelGetPartition (inp.querys req) = p ∧
          req % lvl.nrReplicasPerPartition p = r) ≤ maxBufferSize := by
  have htotal : firstDpu lvl.nrReplicasPerPartition nrPartition = nrDpus := hsum
  have hclear : ∀ dpu, buf.clear.nTasks dpu ≤ maxBufferSize := fun _ => Nat.zero_le _
  rw [Workload.dispatch, Workload.exists_foldlM_iff hclear]
  simp only [DramLevel.exists_routed_iff hnr htotal]
  refine and_congr_right fun _ => ?_
  constructor
  · intro hrooms p hp r hr
    have hroom := hrooms (firstDpu lvl.nrReplicasPerPartition p + r)
    simpa only [sentTo_replica_iff hnr hp hr, ThreadBuffers.clear, Nat.zero_add] using hroom
  · intro hrooms dpu
    by_cases hsent : ∃ req ∈ List.Ico startOps endOps, w.SentTo inp lvl.getStartDpuId dpu req
    · obtain ⟨req, -, -, hroute⟩ := hsent
      obtain ⟨p, hp, -, heq⟩ := DramLevel.routed_eq_some_iff.mp hroute
      have hr := Nat.mod_lt req (hnr p hp)
      subst heq
      simpa only [sentTo_replica_iff hnr hp hr, ThreadBuffers.clear, Nat.zero_add] using
        hrooms p hp _ hr
    · have hnone : (List.Ico startOps endOps).countP
          (fun req => w.SentTo inp lvl.getStartDpuId dpu req) = 0 := by
        rw [List.countP_eq_zero]
        intro req hreq hdec
        exact hsent ⟨req, hreq, of_decide_eq_true hdec⟩
      rw [hnone]
      exact Nat.zero_le _

end Fits

/-- Partitions of one key each, on one replica each. -/
def unitLevel : DramLevel := ⟨fun i => i, fun _ => 0, fun _ => 1, fun _ => 0⟩

/-- Empty buffers over zeroed memory. -/
def ThreadBuffers.zeroed : ThreadBuffers :=
  ⟨fun _ => 0, fun _ _ => 0, fun _ _ => 0, fun _ _ => 0⟩

/-- Four requests of a mixed batch fit. -/
theorem dispatch_fits_four :
    ∃ buf', Workload.mix.dispatch ⟨0, fun req => req + 1, fun _ => 2, fun _ => 0⟩
      unitLevel.getStartDpuId 128 .zeroed 0 4 = some buf' := by
  refine (dispatch_fits_iff .mix _ unitLevel 128 .zeroed 0 4 (fun _ _ => le_rfl)
    (by simp [unitLevel])).mpr ⟨by decide, fun p _ r _ => ?_⟩
  exact List.countP_le_length.trans (by decide)

/-- A search for one key, one time more than a buffer holds, overruns the buffer of its DPU. -/
theorem dispatch_fits_overrun :
    (∀ p < nrPartition, 1 ≤ unitLevel.nrReplicasPerPartition p) ∧
    ∑ p ∈ Finset.range nrPartition, unitLevel.nrReplicasPerPartition p = 128 ∧
    Workload.search.dispatch ⟨0, fun _ => 0, fun _ => 0, fun _ => 0⟩ unitLevel.getStartDpuId 128
      .zeroed 0 (maxBufferSize + 1) = none := by
  refine ⟨fun _ _ => le_rfl, by simp [unitLevel], ?_⟩
  rw [Option.eq_none_iff_forall_ne_some]
  intro buf' hsome
  have hrooms := ((Workload.exists_foldlM_iff fun _ => Nat.zero_le _).mp ⟨buf', hsome⟩).2 0
  have hkey : unitLevel.searchUpperLevelGetPartition 0 = (0 : ℕ) := by decide
  have hall : (List.Ico 0 (maxBufferSize + 1)).countP (fun req => Workload.search.SentTo
      ⟨0, fun _ => 0, fun _ => 0, fun _ => 0⟩ unitLevel.getStartDpuId 0 req) =
        (List.Ico 0 (maxBufferSize + 1)).length := by
    rw [List.countP_eq_length]
    intro req _
    have hturn : firstDpu unitLevel.nrReplicasPerPartition 0 + req % 1 = 0 := by
      rw [Nat.mod_one]
      rfl
    exact decide_eq_true
      ⟨rfl, DramLevel.routed_eq_some_iff.mpr ⟨0, by decide, hkey, hturn⟩⟩
  rw [hall, List.Ico.length] at hrooms
  exact absurd hrooms (by omega)

end PimLex
