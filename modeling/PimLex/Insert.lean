import PimLex.PointRead

/-!
# Inserting a batch

An insertion goes to the page of its key's block when that page has room and to
the partition's overflow tree otherwise. Both branches of `insert_payload` end in
one guard without an alternative: it passes below the last partial key that a
slice covers and that has a successor, and above that the request is dropped.
-/

namespace PimLex

open Search

/-- How an insertion changes a page and a tree. -/
structure InsertOps (Page Tree : Type) where
  insertPage : Page → DTYPE → StringPayload → Bool × Page
  insert : Tree → DTYPE → StringPayload → Tree

/-- The insertions as they stand; no insertion into a well-formed tree faults. -/
def InsertOps.standing : InsertOps BufPage OptNode where
  insertPage := BufPage.insertPage
  insert t key p :=
    match t.insert key p with
    | .ok (_, t') => t'
    | .error _ => t

/-- A request as `insert_payload` finds it in the two buffers of a DPU. -/
structure Request where
  dpu : ℕ
  key : DTYPE
  answer : ℕ
  deriving DecidableEq

namespace DramIndex

variable {Page Tree : Type}

/-- The body of the guard: the page, or the tree when the page is full. -/
def placeInPage (idx : DramIndex Page Tree) (ops : InsertOps Page Tree) (ipos partitionId : ℕ)
    (key : DTYPE) : DramIndex Page Tree :=
  let (ret, page) := ops.insertPage (idx.bufferPages ipos) key (.ofByte 99)
  if ret then { idx with bufferPages := Function.update idx.bufferPages ipos page }
  else { idx with
    bufferPages := Function.update idx.bufferPages ipos page
    optOverflowTrees := Function.update idx.optOverflowTrees partitionId
      (ops.insert (idx.optOverflowTrees partitionId) key (.ofByte 99)) }

/-- The guard both branches share; it has no `else`. -/
def guardedInsert (idx : DramIndex Page Tree) (ops : InsertOps Page Tree) (ipos partitionId : ℕ)
    (key : DTYPE) : DramIndex Page Tree :=
  if ipos < idx.partialTotalSize - 1 ∧ idx.partialKeys ipos ≤ key ∧
      idx.partialKeys (ipos + 1) > key then
    idx.placeInPage ops ipos partitionId key
  else idx

/-- The page an insertion aims at: from the DPU's answer, or from the host's search. -/
def insertPos (idx : DramIndex Page Tree) (lvl : DramLevel) (pgm : ℕ → DTYPE → ℕ × ℕ)
    (key : DTYPE) (answer : ℕ) : ℕ :=
  if answer ≠ invaildPos then answer / pageRatio
  else curKeyOff (idx.fallbackBound lvl pgm key) / pageRatio

/-- One request of `insert_payload`. -/
def insertPayload (ops : InsertOps Page Tree) (lvl : DramLevel) (pgm : ℕ → DTYPE → ℕ × ℕ)
    (idx : DramIndex Page Tree) (r : Request) : DramIndex Page Tree :=
  idx.guardedInsert ops (idx.insertPos lvl pgm r.key r.answer) (lvl.dpuIdToPartition r.dpu) r.key

/-- `insert_payload` on a batch, in the order of its two loops. -/
def insertBatch (ops : InsertOps Page Tree) (lvl : DramLevel) (pgm : ℕ → DTYPE → ℕ × ℕ)
    (idx : DramIndex Page Tree) (batch : List Request) : DramIndex Page Tree :=
  batch.foldl (insertPayload ops lvl pgm) idx

/-- An insertion touches nothing beside the buffers. -/
theorem guardedInsert_frame (idx : DramIndex Page Tree) (ops : InsertOps Page Tree)
    (ipos partitionId : ℕ) (key : DTYPE) :
    idx.guardedInsert ops ipos partitionId key =
      { idx with
        bufferPages := (idx.guardedInsert ops ipos partitionId key).bufferPages
        optOverflowTrees := (idx.guardedInsert ops ipos partitionId key).optOverflowTrees } := by
  rw [guardedInsert]
  split_ifs
  · simp only [placeInPage]
    split_ifs <;> rfl
  · rfl

end DramIndex

namespace BulkInput

variable {b : BulkInput} {nr : ℕ → ℕ} {prev : DramLevel} {pgm : ℕ → DTYPE → ℕ × ℕ}
  {p : ℕ} {k : DTYPE} {r : Request}

/-- A request as the threads hand it over: above the smallest key, routed to a DPU of its
partition, and answered correctly. -/
structure Handed (b : BulkInput) (nr : ℕ → ℕ) (r : Request) (p : ℕ) : Prop where
  above : b.keys 0 < r.key
  owns : b.Owns p r.key
  hosts : Hosts nr r.dpu p
  correct : b.CorrectAnswer p r.key r.answer

/-- The bound the guards impose on keys. -/
def insertBound (b : BulkInput) : DTYPE :=
  b.partialKeys (min b.covered (b.partialTotalSize - 1))

section Guard

variable {Page Tree : Type} {idx : DramIndex Page Tree} {ops : InsertOps Page Tree}

/-- An insertion aims at its key's block, one block early when clamped. -/
theorem Handed.insertPos_eq (h : b.Handed nr r p) (hover : b.Over idx) (hpgm : b.Brackets pgm) :
    idx.insertPos (b.level nr prev) pgm r.key r.answer =
      if b.Clamped pgm r.key then b.coveredRank r.key - 1 - 1 else b.coveredRank r.key - 1 := by
  have hbound := fallbackBound_eq hover hpgm h.owns nr prev
  have hpos := coveredRank_pos h.owns
  rw [DramIndex.insertPos]
  by_cases hne : r.answer = invaildPos
  · rw [if_neg (not_not.mpr hne), hbound]
    by_cases hclamp : b.Clamped pgm r.key
    · -- slices that cover everything cover 128 blocks at least, so `l - 1` does not wrap
      have hfull := hclamp.2.1
      rw [hclamp.1, ← coveredRank_eq_covered_iff] at hfull
      have htwo : nrPartition ≤ b.covered := Nat.le_mul_of_pos_left _ b.sliceSize_pos
      simp only [nrPartition] at htwo
      obtain ⟨l, hl⟩ : ∃ l, b.coveredRank r.key = l + 2 := ⟨b.coveredRank r.key - 2, by omega⟩
      rw [if_pos hclamp, if_pos hclamp, hl, show l + 2 - 1 = l + 1 from rfl, curKeyOff_succ]
      exact Nat.mul_div_cancel_left l (by decide)
    · obtain ⟨l, hl⟩ : ∃ l, b.coveredRank r.key = l + 1 := ⟨b.coveredRank r.key - 1, by omega⟩
      rw [if_neg hclamp, if_neg hclamp, hl, curKeyOff_succ]
      exact Nat.mul_div_cancel_left l (by decide)
  · have hlow := h.correct.low hne
    rw [if_pos hne, if_neg fun hclamp => hne (h.owns.invalid_of_clamped h.correct hclamp),
      h.owns.block_eq hlow h.correct]
    exact Nat.mul_div_cancel_left _ (by decide)

/-- Below the bound a key's block is covered and has a successor. -/
theorem Owns.block_of_lt_insertBound (h : b.Owns p k) (hk : k < b.insertBound) :
    b.coveredRank k - 1 < b.covered ∧ b.coveredRank k - 1 + 1 < b.partialTotalSize ∧
      b.partialKeys (b.coveredRank k - 1) ≤ k ∧ k < b.partialKeys (b.coveredRank k - 1 + 1) := by
  have hcut := b.isCut_coveredRank k
  have hpos := coveredRank_pos h
  have hle := hcut.le
  have hcov := b.covered_le
  obtain ⟨g, hg⟩ : ∃ g, b.coveredRank k = g + 1 := ⟨b.coveredRank k - 1, by omega⟩
  rw [hg] at hcut hle ⊢
  have hlow : b.partialKeys g ≤ k := (hcut.iff g hle).mpr (Nat.lt_succ_self g)
  rw [insertBound] at hk
  have hsucc : g + 1 < b.partialTotalSize := by
    by_contra hge
    have hmin : min b.covered (b.partialTotalSize - 1) = g := by omega
    rw [hmin] at hk
    exact absurd hk (not_lt.mpr hlow)
  refine ⟨hle, hsucc, hlow, ?_⟩
  rcases Nat.lt_or_ge (g + 1) b.covered with hlt | hge
  · exact not_le.mp (mt (hcut.iff (g + 1) hlt).mp (lt_irrefl _))
  · have hmin : min b.covered (b.partialTotalSize - 1) = g + 1 := by omega
    rwa [hmin] at hk

/-- A block below the end of the slices, with a successor, only holds keys below the bound. -/
theorem lt_insertBound {i : ℕ} (hi : i < b.covered) (hsucc : i + 1 < b.partialTotalSize)
    (hk : k < b.partialKeys (i + 1)) : k < b.insertBound := by
  have hpos : 0 < b.partialTotalSize := b.covered_pos.trans_le b.covered_le
  exact hk.trans_le (b.strict_partialKeys.le (by omega) (by omega))

theorem not_clamped_of_lt_insertBound (hk : k < b.insertBound) : ¬ b.Clamped pgm k := by
  intro hclamp
  have hmin : min b.covered (b.partialTotalSize - 1) = b.partialTotalSize - 1 := by
    rw [← hclamp.1]
    exact Nat.min_eq_right (Nat.sub_le _ _)
  rw [insertBound, hmin] at hk
  exact absurd hk (not_lt.mpr hclamp.2.1)

/-- Below the bound an insertion aims at its key's own block. -/
theorem Handed.insertPos_of_lt (h : b.Handed nr r p) (hover : b.Over idx) (hpgm : b.Brackets pgm)
    (prev : DramLevel) (hk : r.key < b.insertBound) :
    idx.insertPos (b.level nr prev) pgm r.key r.answer = b.coveredRank r.key - 1 := by
  rw [h.insertPos_eq hover hpgm, if_neg (not_clamped_of_lt_insertBound hk)]

/-- The guard passes exactly below the bound. -/
theorem Handed.guard_iff (h : b.Handed nr r p) (hover : b.Over idx) (hpgm : b.Brackets pgm)
    (prev : DramLevel) :
    let ipos := idx.insertPos (b.level nr prev) pgm r.key r.answer
    (ipos < idx.partialTotalSize - 1 ∧ idx.partialKeys ipos ≤ r.key ∧
      idx.partialKeys (ipos + 1) > r.key) ↔ r.key < b.insertBound := by
  have hpos := coveredRank_pos h.owns
  have hrank : b.coveredRank r.key ≤ b.covered := b.coveredRank_le
  intro ipos
  rw [hover.partialTotalSize, hover.partialKeys]
  constructor
  · -- a block whose guard passes has its keys below the bound
    rintro ⟨hsucc, -, hhigh⟩
    refine lt_insertBound ?_ (by omega) hhigh
    simp only [ipos, h.insertPos_eq hover hpgm]
    split_ifs <;> omega
  · intro hk
    obtain ⟨-, hsucc, hlow, hhigh⟩ := h.owns.block_of_lt_insertBound hk
    simp only [ipos, h.insertPos_of_lt hover hpgm prev hk]
    exact ⟨by omega, hlow, hhigh⟩

/-- An insertion takes place exactly below the bound, and then at the key's own block. -/
theorem Handed.insertPayload_eq (h : b.Handed nr r p) (hover : b.Over idx)
    (hpgm : b.Brackets pgm) :
    idx.insertPayload ops (b.level nr prev) pgm r =
      if r.key < b.insertBound then idx.placeInPage ops (b.coveredRank r.key - 1) p r.key
      else idx := by
  rw [DramIndex.insertPayload, DramIndex.guardedInsert,
    level_dpuIdToPartition h.owns.lt h.hosts]
  by_cases hk : r.key < b.insertBound
  · rw [if_pos ((h.guard_iff hover hpgm prev).mpr hk), if_pos hk,
      h.insertPos_of_lt hover hpgm prev hk]
  · rw [if_neg (mt (h.guard_iff hover hpgm prev).mp hk), if_neg hk]

end Guard

end BulkInput

end PimLex
