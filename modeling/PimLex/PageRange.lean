import PimLex.Skew
import PimLex.MixInsert

/-!
# Pages hold their own keys

Four callers insert into pages, each with its own way to an index, and all behind
one guard: the key lies in the interval of partial keys that the index names. A
merge replaces the partial keys, and empties the pages with them. So whatever the
routing tables, the learned windows and the answers are, and in whatever order
the calls come, a page is sorted and within its interval.
-/

namespace PimLex

open Transition

/-- What a merge publishes: new base arrays, long enough for one partial key. -/
structure Published where
  keys : ℕ → DTYPE
  payloads : ℕ → StringPayload
  partialKeys : ℕ → DTYPE
  totalSize : ℕ
  size_pos : interleave ≤ totalSize

namespace DramIndex

/-- `merge_and_retrain` from the publication of its arrays to the clearing of the trees. -/
def publish (m : Published) : DramIndex BufPage OptNode where
  minKey := m.keys 0
  partialKeys := m.partialKeys
  keys := m.keys
  payloads := m.payloads
  totalSize := m.totalSize
  partialTotalSize := m.totalSize / interleave
  bufferPages _ := BufPage.init
  optOverflowTrees _ := OptNode.empty

/-- The host's search in the re-insertion loop. Its windows start at multiples of
`partial_total_size / NR_DPUS`, where the other searches divide by the partitions. -/
def reinsertPos (idx : DramIndex BufPage OptNode) (lvl : DramLevel) (pgm : ℕ → DTYPE → ℕ × ℕ)
    (nrDpus : ℕ) (key : DTYPE) : ℕ :=
  let p := lvl.fallbackPartition key
  let l := (pgm p key).1 + idx.partialTotalSize / nrDpus * p
  let r := (pgm p key).2 + idx.partialTotalSize / nrDpus * p
  let r := if r ≥ idx.partialTotalSize then idx.partialTotalSize - 1 else r
  curKeyOff (Search.upperBound idx.partialKeys key l r) / pageRatio

/-- One pass of the re-insertion loop, for a collected key and its payload. -/
def reinsert (idx : DramIndex BufPage OptNode) (lvl : DramLevel) (pgm : ℕ → DTYPE → ℕ × ℕ)
    (nrDpus : ℕ) (key : DTYPE) (val : StringPayload) : DramIndex BufPage OptNode :=
  let ipos := idx.reinsertPos lvl pgm nrDpus key
  if ipos < idx.partialTotalSize - 1 ∧ idx.partialKeys ipos ≤ key ∧
      idx.partialKeys (ipos + 1) > key then
    let p := lvl.fallbackPartition key
    let (ret, page) := (idx.bufferPages ipos).insertPage key val
    let idx := { idx with bufferPages := Function.update idx.bufferPages ipos page }
    if ret then idx
    else { idx with
      optOverflowTrees := Function.update idx.optOverflowTrees p
        (InsertOps.standing.insert (idx.optOverflowTrees p) key val) }
  else idx

end DramIndex

/-- A call that inserts, with the tables and windows it finds, or a publication. The skewed
and the mixed call come with what their states hold beside the index. -/
inductive PageOp where
  | insert (lvl : DramLevel) (pgm : ℕ → DTYPE → ℕ × ℕ) (r : Request)
  | skew (lvl : DramLevel) (pgm : ℕ → DTYPE → ℕ × ℕ) (enablePimOverflow : ℕ → Bool)
      (send : ℕ → SendBuffer) (r : Request)
  | mix (ops : MixOps BufPage OptNode) (lvl : DramLevel) (pgm : ℕ → DTYPE → ℕ × ℕ)
      (ret pret : StringPayload) (r : Request)
  | publish (m : Published)
  | reinsert (lvl : DramLevel) (pgm : ℕ → DTYPE → ℕ × ℕ) (nrDpus : ℕ) (key : DTYPE)
      (val : StringPayload)

/-- The index after a call. -/
def pageStep (idx : DramIndex BufPage OptNode) : PageOp → DramIndex BufPage OptNode
  | .insert lvl pgm r => idx.insertPayload .standing lvl pgm r
  | .skew lvl pgm enable send r =>
    (SkewState.placeSkew lvl pgm enable r.dpu ⟨idx, send⟩ r.key r.answer).idx
  | .mix ops lvl pgm ret pret r =>
    (MixState.mixPayload ⟨idx, ret, pret, []⟩ ops.inserting lvl pgm .insert r.dpu r.key
      r.answer).idx
  | .publish m => DramIndex.publish m
  | .reinsert lvl pgm nrDpus key val => idx.reinsert lvl pgm nrDpus key val

/-- A page is sorted and within an interval. -/
structure BufPage.Within (page : BufPage) (lo hi : DTYPE) : Prop where
  sorted : page.bufKey.Pairwise (· ≤ ·)
  range : ∀ k ∈ page.bufKey, lo ≤ k ∧ k < hi

/-- Every page is within the interval of its block. -/
def PagesWithin (idx : DramIndex BufPage OptNode) : Prop :=
  ∀ i, (idx.bufferPages i).Within (idx.partialKeys i) (idx.partialKeys (i + 1))

variable {idx idx' : DramIndex BufPage OptNode} {page : BufPage} {lo hi key : DTYPE}
  {val : StringPayload} {lvl : DramLevel} {pgm : ℕ → DTYPE → ℕ × ℕ} {ipos partitionId nrDpus : ℕ}

theorem BufPage.within_init : BufPage.init.Within lo hi :=
  ⟨List.Pairwise.nil, fun _ hk => absurd hk List.not_mem_nil⟩

theorem BufPage.Within.insertPage (h : page.Within lo hi) (hlo : lo ≤ key) (hhi : key < hi)
    (val : StringPayload) : (page.insertPage key val).2.Within lo hi := by
  cases hins : (page.insertPage key val).1 with
  | true =>
    refine ⟨BufPage.sorted_insertPage h.sorted hins, fun k hk => ?_⟩
    rw [BufPage.bufKey_insertPage hins, BufPage.shiftIn] at hk
    rcases List.mem_append.mp hk with hk | hk
    · exact h.range k (List.mem_of_mem_take hk)
    · rcases List.mem_cons.mp hk with rfl | hk
      · exact ⟨hlo, hhi⟩
      · exact h.range k (List.mem_of_mem_drop hk)
  | false =>
    -- a full page is left as it is
    rw [BufPage.insertPage_refused hins]
    exact h

/-- Behind the guard an insertion keeps every page within its interval. -/
theorem PagesWithin.update (val : StringPayload) (h : PagesWithin idx)
    (hlo : idx.partialKeys ipos ≤ key) (hhi : idx.partialKeys (ipos + 1) > key)
    (hkeys : idx'.partialKeys = idx.partialKeys)
    (hpages : idx'.bufferPages = Function.update idx.bufferPages ipos
      ((idx.bufferPages ipos).insertPage key val).2) : PagesWithin idx' := by
  intro i
  rw [hkeys, hpages]
  rcases eq_or_ne i ipos with rfl | hi
  · rw [Function.update_self]
    exact (h i).insertPage hlo hhi val
  · rw [Function.update_of_ne hi]
    exact h i

theorem PagesWithin.guardedInsert (h : PagesWithin idx) :
    PagesWithin (idx.guardedInsert .standing ipos partitionId key) := by
  rw [DramIndex.guardedInsert]
  split_ifs with hguard
  · refine h.update (.ofByte 99) hguard.2.1 hguard.2.2 ?_ ?_
    -- the tree does not matter for the page
    all_goals
      simp only [DramIndex.placeInPage]
      split_ifs <;> rfl
  · exact h

theorem PagesWithin.placeSkew {st : SkewState} {enable : ℕ → Bool} {dpu answer : ℕ}
    (h : PagesWithin st.idx) : PagesWithin (st.placeSkew lvl pgm enable dpu key answer).idx := by
  rw [SkewState.placeSkew]
  simp only
  split_ifs with hguard
  -- stored in the page, or refused and then sent to the tree or the send buffer
  · exact h.update (.ofByte 99) hguard.2.1 hguard.2.2 rfl rfl
  · exact h.update (.ofByte 99) hguard.2.1 hguard.2.2 rfl rfl
  · exact h.update (.ofByte 99) hguard.2.1 hguard.2.2 rfl rfl
  · exact h

theorem PagesWithin.reinsert (h : PagesWithin idx) :
    PagesWithin (idx.reinsert lvl pgm nrDpus key val) := by
  rw [DramIndex.reinsert]
  simp only
  split_ifs with hguard
  · exact h.update val hguard.2.1 hguard.2.2 rfl rfl
  · exact h.update val hguard.2.1 hguard.2.2 rfl rfl
  · exact h

/-- Every call keeps the pages within their intervals. -/
theorem PagesWithin.step (h : PagesWithin idx) (op : PageOp) : PagesWithin (pageStep idx op) := by
  cases op with
  | insert lvl pgm r => exact h.guardedInsert
  | skew lvl pgm enable send r =>
    have hst : PagesWithin (⟨idx, send⟩ : SkewState).idx := h
    exact hst.placeSkew
  | mix ops lvl pgm ret pret r =>
    -- the mixed path inserts only where the DPU gave a position
    by_cases hopen : r.answer = invaildPos
    · rw [pageStep, MixState.mixPayload_open hopen]
      exact h
    · rw [pageStep, MixState.mixPayload_answered hopen]
      exact h.guardedInsert
  | publish m => exact fun _ => BufPage.within_init
  | reinsert lvl pgm nrDpus key val => exact h.reinsert

theorem pagesWithin_bulkLoad (b : BulkInput) : PagesWithin b.bulkLoad :=
  fun _ => BufPage.within_init

/-- After bulk load and any calls every page is sorted, within its interval and not above its
capacity; and an insertion into it adds its entry, or leaves the page as it is. -/
theorem pages_hold_own (b : BulkInput) (ops : List PageOp) :
    let idx := run pageStep b.bulkLoad ops
    ∀ i, (idx.bufferPages i).pageCount ≤ bufSize ∧
      (idx.bufferPages i).bufKey.Pairwise (· ≤ ·) ∧
      (∀ k ∈ (idx.bufferPages i).bufKey, idx.partialKeys i ≤ k ∧ k < idx.partialKeys (i + 1)) ∧
      ∀ key val,
        let r := (idx.bufferPages i).insertPage key val
        (r.1 = true → r.2.entries.Perm ((key, val) :: (idx.bufferPages i).entries)) ∧
          (r.1 = false → r.2 = idx.bufferPages i) := by
  intro idx i
  have hwithin : PagesWithin idx :=
    run_invariant (pagesWithin_bulkLoad b) (fun _ op h => h.step op) ops
  exact ⟨(idx.bufferPages i).length_le, (hwithin i).sorted, (hwithin i).range,
    fun key val => ⟨BufPage.entries_insertPage_perm, BufPage.insertPage_refused⟩⟩

end PimLex
