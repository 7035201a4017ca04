import PimLex.InsertedRead
import PimLex.Merge.Union
import PimLex.Reinsertion
import PimLex.Sampling
import PimLex.Tree.Collect

/-!
# What a merge leaves

Behind the third barrier the merge threads sample the partial keys; then the new
arrays replace the old ones, the overflow entries are collected, and the trees
are cleared and filled again. When the pages hold keys that are new, each once,
this is a bulk load of the base entries and the page entries, whatever the order
of the threads; and since the collection comes back empty-handed, the trees stay
empty.

Two things are taken for granted. The scan for the next page with entries, which
has no bound in the source, ends at `num_buf_pages`, as in the merge loop. And
when the number of merged keys is no multiple of eight, the last sampling loop's
write into the slot behind the new partial keys hits nothing else.
-/

namespace PimLex

open Search Transition

namespace MergeShared

variable (sh : MergeShared)

/-- `new_keys`; a slot that was not written reads 0. -/
def newKeys (slot : ℕ) : DTYPE := ((sh.newEntry slot).map Prod.fst).getD 0

/-- `new_payloads`. -/
def newPayloads (slot : ℕ) : StringPayload := ((sh.newEntry slot).map Prod.snd).getD (.ofByte 0)

/-- The arrays the host publishes after its threads have joined. -/
def published (arr : SampleArray) (size_pos : interleave ≤ sh.newTotalSize) : Published where
  keys := sh.newKeys
  payloads := sh.newPayloads
  partialKeys := arr.partialKeys
  totalSize := sh.newTotalSize
  size_pos := size_pos

/-- The new arrays hold the entries of a list. -/
theorem newEntry_of_newEntries {entries : List Entry} (hentries : sh.newEntries = entries)
    (hlength : entries.length = sh.newTotalSize)
    (hslots : (sh.writes.map Prod.fst).Perm (List.range sh.newTotalSize)) (slot : ℕ) :
    sh.newEntry slot = entries[slot]? := by
  have hwritten : ∀ slot, sh.newEntry slot ≠ none ↔ slot < sh.newTotalSize := by
    intro slot
    rw [newEntry, Ne, contents_eq_none, not_not, hslots.mem_iff, List.mem_range]
  by_cases hslot : slot < sh.newTotalSize
  · have hmap : sh.newEntries.map some = (List.range sh.newTotalSize).map sh.newEntry := by
      rw [newEntries, List.map_filterMap, ← List.filterMap_eq_map]
      refine List.filterMap_congr fun i hi => ?_
      obtain ⟨e, he⟩ := Option.ne_none_iff_exists'.mp ((hwritten i).mpr (List.mem_range.mp hi))
      rw [Function.comp_apply, he, Option.map_some]
    have hget := congrArg (fun l : List (Option Entry) => l[slot]?) hmap
    rw [hentries] at hget
    simpa [hslot, hlength] using hget.symm
  · rw [not_not.mp (mt (hwritten slot).mp hslot), List.getElem?_eq_none (by omega)]

end MergeShared

theorem DramIndex.length_sequentialMerge (idx : DramIndex BufPage OptNode) :
    idx.sequentialMerge.length = idx.totalSize + idx.bufferedEntries.length := by
  rw [sequentialMerge, List.length_merge, baseEntries, length_baseFrom, Nat.sub_zero]

/-- Mergeable pages whose keys are new, each once. -/
structure FreshPages (idx : DramIndex BufPage OptNode) : Prop extends Mergeable idx where
  apart : idx.Apart
  nodup : (idx.bufferedEntries.map Prod.fst).Nodup

namespace FreshPages

variable {idx : DramIndex BufPage OptNode} (h : FreshPages idx)

include h in
/-- The merged keys increase. -/
theorem pairwise_keys : (idx.sequentialMerge.map Prod.fst).Pairwise (· < ·) := by
  obtain ⟨hsorted, hunion⟩ := DramIndex.sequentialMerge_spec h.toMergeable
  have hbase : (idx.baseEntries.map Prod.fst).Nodup := by
    rw [DramIndex.baseEntries, DramIndex.baseFrom, List.map_map, List.Nodup, List.pairwise_map]
    refine List.Pairwise.imp_of_mem (fun _ hj hij => ?_) List.pairwise_lt_range'
    rw [List.mem_range'_1] at hj
    exact (h.strict _ _ hij (by omega)).ne
  have hnodup : (idx.sequentialMerge.map Prod.fst).Nodup := by
    rw [(hunion.map Prod.fst).nodup_iff, List.map_append, List.nodup_append]
    refine ⟨hbase, h.nodup, ?_⟩
    rintro k hk k' hk' rfl
    obtain ⟨e, he, rfl⟩ := List.mem_map.mp hk
    obtain ⟨e', he', heq⟩ := List.mem_map.mp hk'
    refine h.apart e' he' ?_
    rw [heq]
    exact DramIndex.isBaseKey_of_mem he le_rfl
  -- the merge sorts, and with no key twice it sorts strictly
  rw [← List.pairwise_map] at hsorted
  exact hsorted.imp₂ (fun _ _ hle hne => lt_of_le_of_ne hle hne) hnodup

/-- The merged entries as the input of a bulk load. -/
def merged (hslice : 1 ≤ idx.sequentialMerge.length / interleave / nrPartition) : BulkInput where
  keys i := (idx.sequentialMerge[i]?.map Prod.fst).getD 0
  size := idx.sequentialMerge.length
  strict i j hij hj := by
    have hkeys := List.pairwise_iff_getElem.mp h.pairwise_keys i j
      (by rw [List.length_map]; omega) (by rwa [List.length_map]) hij
    simpa [hj, hij.trans hj] using hkeys
  size_int := by
    rw [DramIndex.length_sequentialMerge]
    exact h.total_int
  slice_pos := hslice

end FreshPages

namespace DramIndex

/-- The payloads of the merged entries. -/
def mergedPayloads (idx : DramIndex BufPage OptNode) (i : ℕ) : StringPayload :=
  (idx.sequentialMerge[i]?.map Prod.snd).getD (.ofByte 0)

/-- `merge_and_retrain` on the index, for an order of the merge threads' steps and one of their
sampling loops' passes, with page scans that end at `num_buf_pages`. -/
def mergeAndRetrain (idx : DramIndex BufPage OptNode)
    (schedule samples : List (Fin mergeThreadNum))
    (size_pos : interleave ≤ (mergeRun idx schedule).shared.newTotalSize) (prev : DramLevel)
    (pgm : ℕ → DTYPE → ℕ × ℕ) (nrDpus : ℕ) : DramIndex BufPage OptNode :=
  let sh := (mergeRun idx schedule).shared
  let arr := (sampleRun sh.newKeys (mergeSampling sh.newTotalSize) samples).shared
  let new := publish (sh.published arr size_pos)
  -- the trees are collected into the old index's vectors before they are cleared
  new.reinsertAll (new.slicedLevel prev) pgm nrDpus
    (OptNode.collectAndClear fun p => idx.optOverflowTrees p).1

end DramIndex

theorem OptNode.collectAndClear_fst (trees : Fin nrPartition → OptNode) :
    (OptNode.collectAndClear trees).1 = [] := by
  rw [OptNode.collectAndClear, List.flatMap_eq_nil_iff]
  exact fun p _ => OptNode.getAllData_eq_nil _

section Retrained

variable {idx : DramIndex BufPage OptNode} {schedule samples : List (Fin mergeThreadNum)}

theorem newTotalSize_mergeRun (hdone : (mergeRun idx schedule).Finished) :
    (mergeRun idx schedule).shared.newTotalSize = idx.sequentialMerge.length := by
  rw [(mergeInv_run idx schedule).total_finished hdone, DramIndex.length_sequentialMerge]

variable (h : FreshPages idx) (hdone : (mergeRun idx schedule).Finished)

include h hdone

theorem newEntry_mergeRun (slot : ℕ) :
    (mergeRun idx schedule).shared.newEntry slot = idx.sequentialMerge[slot]? := by
  have hmerged := (mergeInv_run idx schedule).mergedApart h.toMergeable h.apart hdone
  refine MergeShared.newEntry_of_newEntries _ hmerged.sequential ?_ hmerged.once slot
  rw [hmerged.total, DramIndex.length_sequentialMerge]

/-- The published index, once the sampling has ended. -/
theorem mergeAndRetrain_of_stuck
    (hslice : 1 ≤ idx.sequentialMerge.length / interleave / nrPartition)
    (hint : idx.sequentialMerge.length + interleave ≤ 2 ^ 31)
    (hstuck : Stuck (System.step (sampleAct (mergeRun idx schedule).shared.newKeys))
      (sampleRun (mergeRun idx schedule).shared.newKeys
        (mergeSampling idx.sequentialMerge.length) samples))
    (size_pos : interleave ≤ (mergeRun idx schedule).shared.newTotalSize) (prev : DramLevel)
    (pgm : ℕ → DTYPE → ℕ × ℕ) (nrDpus : ℕ) :
    idx.mergeAndRetrain schedule samples size_pos prev pgm nrDpus =
      { (h.merged hslice).bulkLoad with
        payloads := idx.mergedPayloads
        optOverflowTrees := fun _ => OptNode.empty } := by
  have hentry := newEntry_mergeRun h hdone
  have htotal := newTotalSize_mergeRun hdone
  have hkeys : (mergeRun idx schedule).shared.newKeys = (h.merged hslice).keys := by
    funext slot
    rw [MergeShared.newKeys, hentry]
    rfl
  have hpayloads : (mergeRun idx schedule).shared.newPayloads = idx.mergedPayloads := by
    funext slot
    rw [MergeShared.newPayloads, hentry]
    rfl
  have hpartial : (sampleRun (mergeRun idx schedule).shared.newKeys
      (mergeSampling idx.sequentialMerge.length) samples).shared.partialKeys =
        (h.merged hslice).partialKeys := by
    funext i
    have hN : roundedKeys idx.sequentialMerge.length < 2 ^ 31 := by
      simp only [roundedKeys, interleave] at hint ⊢
      omega
    rw [sampled_partialKeys hN hstuck, BulkInput.partialKeys, hkeys]
    split_ifs with hi
    · rfl
    · -- behind the merged keys the slots read 0
      rw [FreshPages.merged]
      simp only
      rw [List.getElem?_eq_none (not_lt.mp hi)]
      rfl
  -- the collection hands back nothing, so the last loop has nothing to insert
  rw [DramIndex.mergeAndRetrain]
  simp only [OptNode.collectAndClear_fst, DramIndex.reinsertAll, run_nil, DramIndex.publish,
    MergeShared.published, htotal, hkeys, hpayloads]
  rw [← hkeys, hpartial, hkeys]
  rfl

end Retrained

/-- When the pages hold new keys, each once, a merge comes to an end in every order that keeps
giving its threads turns. It samples no slot twice and none behind the first one past the partial
keys, and leaves what a bulk load of the base entries and the page entries leaves, beside empty
trees. -/
theorem mergeAndRetrain_eq_bulkLoad (idx : DramIndex BufPage OptNode) (h : FreshPages idx)
    (hslice : 1 ≤ idx.sequentialMerge.length / interleave / nrPartition)
    (hint : idx.sequentialMerge.length + interleave ≤ 2 ^ 31) :
    (∃ enough, ∀ rounds : List (List (Fin mergeThreadNum)), Rounds rounds →
      enough ≤ rounds.length → (mergeRun idx rounds.flatten).Finished) ∧
    ∀ schedule, (mergeRun idx schedule).Finished →
      let sh := (mergeRun idx schedule).shared
      let sampling := sampleRun sh.newKeys (mergeSampling sh.newTotalSize)
      (∃ enough, ∀ rounds, Rounds rounds → enough ≤ rounds.length →
        Stuck (System.step (sampleAct sh.newKeys)) (sampling rounds.flatten)) ∧
      ∀ samples, SampledOnce (roundedKeys sh.newTotalSize) (sampling samples).shared ∧
        (Stuck (System.step (sampleAct sh.newKeys)) (sampling samples) →
          ∀ (size_pos : interleave ≤ sh.newTotalSize) (prev : DramLevel)
            (pgm : ℕ → DTYPE → ℕ × ℕ) (nrDpus : ℕ),
            idx.mergeAndRetrain schedule samples size_pos prev pgm nrDpus =
              { (h.merged hslice).bulkLoad with
                payloads := idx.mergedPayloads
                optOverflowTrees := fun _ => OptNode.empty }) := by
  refine ⟨mergeRun_finished idx, fun schedule hdone => ?_⟩
  -- the sampling threads take one slot each pass, so as many rounds as slots are enough
  have hN : roundedKeys idx.sequentialMerge.length < 2 ^ 31 := by
    simp only [roundedKeys, interleave] at hint ⊢
    omega
  intro sh sampling
  have htotal : sh.newTotalSize = idx.sequentialMerge.length := newTotalSize_mergeRun hdone
  have hsampling : sampling =
      sampleRun sh.newKeys (mergeSampling idx.sequentialMerge.length) := by
    rw [← htotal]
  rw [hsampling, congrArg roundedKeys htotal]
  refine ⟨⟨roundedKeys idx.sequentialMerge.length + 1, fun rounds hrounds hlen =>
    sampleRun_stuck _ hN hrounds hlen⟩, fun samples => ⟨sampled_once _ hN samples, ?_⟩⟩
  exact fun hstuck => mergeAndRetrain_of_stuck h hdone hslice hint hstuck

section Odds

/-- A page after insertions. -/
def insertedPage (keys : List DTYPE) : BufPage :=
  keys.foldl (fun page k => (page.insertPage k (.ofByte 98)).2) BufPage.init

/-- The even keys 2 to 2048, with the odd keys 17 to 31 in the first two pages. -/
def oddsFromSeventeen : DramIndex BufPage OptNode :=
  { BulkInput.evens.bulkLoad with
    bufferPages := fun
      | 0 => insertedPage [17]
      | 1 => insertedPage [19, 21, 23, 25, 27, 29, 31]
      | _ => BufPage.init }

theorem bufferedEntries_oddsFromSeventeen :
    oddsFromSeventeen.bufferedEntries =
      [17, 19, 21, 23, 25, 27, 29, 31].map fun k => (k, .ofByte 98) := by
  have hrest : oddsFromSeventeen.pagesFrom 2 oddsFromSeventeen.numBufPages = [] := by
    rw [DramIndex.pagesFrom, List.flatMap_eq_nil_iff]
    intro i hi
    rw [List.mem_range'_1] at hi
    obtain ⟨n, rfl⟩ := Nat.exists_eq_add_of_le' hi.1
    rfl
  rw [DramIndex.bufferedEntries, DramIndex.pagesFrom_cons (by decide),
    DramIndex.pagesFrom_cons (by decide), hrest]
  rfl

theorem mem_oddsFromSeventeen {i k : ℕ} (hk : k ∈ (oddsFromSeventeen.bufferPages i).bufKey) :
    i = 0 ∧ k = 17 ∨ i = 1 ∧ 18 < k ∧ k < 32 := by
  match i, hk with
  | 0, hk => exact Or.inl ⟨rfl, List.mem_singleton.mp hk⟩
  | 1, hk =>
    have hbounds : ∀ x ∈ [19, 21, 23, 25, 27, 29, 31], 18 < x ∧ x < 32 := by decide
    exact Or.inr ⟨rfl, hbounds k hk⟩
  | n + 2, hk => exact absurd hk List.not_mem_nil

theorem freshPages_oddsFromSeventeen : FreshPages oddsFromSeventeen where
  strict := BulkInput.evens.strict
  size_int := BulkInput.evens.size_int
  guarded i _ (k : ℕ) hk := by
    change i + 1 < 128 ∧ 2 * (8 * i + 1) ≤ k ∧ k < 2 * (8 * (i + 1) + 1)
    have hbounds := mem_oddsFromSeventeen hk
    omega
  pos := by decide
  sorted i _ := by
    match i with
    | 0 => exact List.pairwise_singleton _ _
    | 1 => exact (by decide : [19, 21, 23, 25, 27, 29, 31].Pairwise (· ≤ ·))
    | n + 2 => exact List.Pairwise.nil
  total_int := by
    rw [bufferedEntries_oddsFromSeventeen]
    decide
  apart e he := by
    rw [bufferedEntries_oddsFromSeventeen] at he
    obtain ⟨k, hk, rfl⟩ := List.mem_map.mp he
    rintro ⟨j, -, hj⟩
    change 2 * (j + 1) = k at hj
    have hodd : ∀ x ∈ [17, 19, 21, 23, 25, 27, 29, 31], x % 2 = 1 := by decide
    have := hodd k hk
    omega
  nodup := by
    rw [bufferedEntries_oddsFromSeventeen]
    decide

theorem length_oddsFromSeventeen : oddsFromSeventeen.sequentialMerge.length = 1032 := by
  rw [DramIndex.length_sequentialMerge, bufferedEntries_oddsFromSeventeen]
  rfl

/-- The number of merged keys is a multiple of eight, so the sampling keeps within its array. -/
theorem mergeAndRetrain_oddsFromSeventeen :
    ∃ merged : BulkInput, merged.size = 1032 ∧
      (∃ enough, ∀ rounds : List (List (Fin mergeThreadNum)), Rounds rounds →
        enough ≤ rounds.length → (mergeRun oddsFromSeventeen rounds.flatten).Finished) ∧
      ∀ schedule, (mergeRun oddsFromSeventeen schedule).Finished →
        let sh := (mergeRun oddsFromSeventeen schedule).shared
        let sampling := sampleRun sh.newKeys (mergeSampling sh.newTotalSize)
        (∃ enough, ∀ rounds, Rounds rounds → enough ≤ rounds.length →
          Stuck (System.step (sampleAct sh.newKeys)) (sampling rounds.flatten)) ∧
        ∀ samples, SampledOnce 1032 (sampling samples).shared ∧
          (Stuck (System.step (sampleAct sh.newKeys)) (sampling samples) →
            ∀ (size_pos : interleave ≤ sh.newTotalSize) (prev : DramLevel)
              (pgm : ℕ → DTYPE → ℕ × ℕ) (nrDpus : ℕ),
              oddsFromSeventeen.mergeAndRetrain schedule samples size_pos prev pgm nrDpus =
                { merged.bulkLoad with
                  payloads := oddsFromSeventeen.mergedPayloads
                  optOverflowTrees := fun _ => OptNode.empty }) := by
  have hslice : 1 ≤ oddsFromSeventeen.sequentialMerge.length / interleave / nrPartition := by
    rw [length_oddsFromSeventeen]
    decide
  obtain ⟨hfinish, hmerged⟩ := mergeAndRetrain_eq_bulkLoad oddsFromSeventeen
    freshPages_oddsFromSeventeen hslice (by rw [length_oddsFromSeventeen]; decide)
  refine ⟨freshPages_oddsFromSeventeen.merged hslice, length_oddsFromSeventeen, hfinish,
    fun schedule hdone => ?_⟩
  obtain ⟨hstuck, hsampled⟩ := hmerged schedule hdone
  have hrounded : roundedKeys (mergeRun oddsFromSeventeen schedule).shared.newTotalSize = 1032 := by
    rw [newTotalSize_mergeRun hdone, length_oddsFromSeventeen]
    rfl
  refine ⟨hstuck, fun samples => ⟨?_, (hsampled samples).2⟩⟩
  have honce := (hsampled samples).1
  rwa [hrounded] at honce

end Odds

end PimLex
