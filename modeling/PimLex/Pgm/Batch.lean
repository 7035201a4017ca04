import PimLex.Pgm.PureSearch
import PimLex.SearchBatch

/-!
# A batch of searches on trained indices

A read-only run from its queries to the payloads: the threads' batches, the tasklets of
the DPUs on the trained models and the host's fallback together.
-/

namespace PimLex.Pgm

open Fitting Search

/-- A batch over trained indices reads for every request the payload of its key, or nothing where
the key is in the last block of slices that cover everything. -/
theorem searchBatch_trained (b : BulkInput) (parallelism longBits : ℕ) (epsilon : ℕ → ℕ)
    (idx : ℕ → PgmIndex) (args : ℕ → DpuArguments) (models : ℕ → ℤ → PgmModel ℚ)
    (undefined : ℚ → ℤ) (nr : ℕ → ℕ) (prev : DramLevel) (mram : ℕ → ℤ → DTYPE)
    (payloads : ℕ → StringPayload) (inp : DispatchInput) (pos : ℕ → ℕ) (buf buf' : ThreadBuffers)
    (nrDpus startOps endOps nrTasklets : ℕ) (sheld : ℕ → ℕ → DTYPE) (rheld : ℕ → ℕ → ℕ)
    (launch : ℕ → Launch nrTasklets)
    (hd : Deployed b parallelism epsilon idx args models) (hnr : ∀ p < nrPartition, 1 ≤ nr p)
    (hmram : b.Loaded mram) (hpos : 1 ≤ nrTasklets)
    (hquerys : ∀ req, startOps ≤ req → req < endOps → inp.querys req = b.keys (pos req) ∧
      pos req < b.sliceSize * nrPartition * interleave ∧ ∀ p, b.Owns p (b.keys (pos req)) →
        Valued longBits (idx p) (args p) (models p) (b.keys (pos req)))
    (hdispatch : Workload.search.dispatch inp (b.level nr prev) nrDpus buf startOps endOps =
      some buf')
    (hdone : ∀ d < nrDpus, (launch d).Complete (b.kernelInput nr mram
      (kernelWindow args models longBits undefined) buf' nrDpus sheld d)) :
    (b.searchBatch nr prev mram (kernelWindow args models longBits undefined)
      (hostSearch idx undefined) payloads buf' nrDpus sheld rheld launch).Perm
      ((List.Ico startOps endOps).map fun req => (b.keys (pos req),
        if b.partialTotalSize = b.sliceSize * nrPartition ∧
          interleave * (b.partialTotalSize - 1) ≤ pos req then none
        else some (payloads (pos req)))) := by
  refine (BulkInput.searchBatch_perm hpos hdispatch hdone).trans ?_
  refine List.Perm.of_eq (List.map_congr_left fun req hreq => ?_)
  obtain ⟨hlow, hhigh⟩ := List.Ico.mem.mp hreq
  obtain ⟨hkey, hslice, hvalue⟩ := hquerys req hlow hhigh
  rw [hkey, hd.pureSearch_keys hnr hmram hslice hvalue]

/-- One request, for the first key of partition 1. -/
theorem searchBatch_trained_kibi :
    ∃ (idx : ℕ → PgmIndex) (args : ℕ → DpuArguments) (models : ℕ → ℤ → PgmModel ℚ)
      (buf' : ThreadBuffers) (launch : ℕ → Launch 16),
      (BulkInput.kibi.searchBatch (fun _ => 1) .init BulkInput.kibi.mram
        (kernelWindow args models 32 truncate) (hostSearch idx truncate) (fun _ => .ofByte 99) buf'
        128 (fun _ _ => 0) (fun _ _ => 0) launch).Perm
        [(BulkInput.kibi.keys 8, some (.ofByte 99))] := by
  obtain ⟨idx, args, models, hd⟩ := exists_deployed_kibi
  have howns : BulkInput.kibi.Owns 1 (BulkInput.kibi.keys 8) := kibi_owns (by decide)
  let inp : DispatchInput := ⟨0, fun _ => BulkInput.kibi.keys 8, fun _ => 0, fun _ => 0⟩
  -- the one request has a DPU, and its buffer has room
  obtain ⟨buf', hdispatch⟩ : ∃ buf', Workload.search.dispatch inp
      (BulkInput.kibi.level (fun _ => 1) .init) 128 .zeroed 0 1 = some buf' := by
    refine (Workload.exists_foldlM_iff fun _ => Nat.zero_le _).mpr ⟨fun req _ _ => ?_, fun d => ?_⟩
    · have hhosts : Hosts (fun _ => 1) ((BulkInput.kibi.level (fun _ => 1) .init).searchUpperLevel
          (BulkInput.kibi.keys 8) req) 1 := howns.hosts_searchUpperLevel le_rfl req
      refine ⟨_, ?_, if_neg ?_⟩
      · have hbound : _ < firstDpu (fun _ => 1) 2 := hhosts.2
        simp only [firstDpu, Finset.sum_const, Finset.card_range, smul_eq_mul] at hbound
        exact hbound.trans (by norm_num)
      · rw [howns.upperLevelBound]
        exact Nat.succ_ne_zero 1
    · rw [ThreadBuffers.clear, Nat.zero_add]
      exact List.countP_le_length.trans (by decide)
  have hlaunch : ∀ d, ∃ l : Launch 16, l.Complete (BulkInput.kibi.kernelInput (fun _ => 1)
      BulkInput.kibi.mram (kernelWindow args models 32 truncate) buf' 128 (fun _ _ => 0) d) := by
    intro d
    obtain ⟨schedule, hcomplete⟩ := Launch.exists_complete _ 0 (fun _ => 0)
      fun _ => ⟨.split, 0, 0, 0, 0, fun _ => 0, (0, 0), 0⟩
    exact ⟨_, hcomplete⟩
  choose launch hdone using hlaunch
  refine ⟨idx, args, models, buf', launch, ?_⟩
  exact searchBatch_trained BulkInput.kibi 8 32 (fun _ => 64) idx args models truncate (fun _ => 1)
    .init BulkInput.kibi.mram (fun _ => .ofByte 99) inp (fun _ => 8) .zeroed buf' 128 0 1 16
    (fun _ _ => 0) (fun _ _ => 0) launch hd (fun _ _ => le_rfl) BulkInput.kibi.loaded_mram
    (by decide) (fun _ _ _ => ⟨rfl, by decide, valued_kibi (p := 1) hd (by decide)⟩) hdispatch
    fun d _ => hdone d

end PimLex.Pgm
