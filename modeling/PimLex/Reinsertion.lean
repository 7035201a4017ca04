import PimLex.PageRange
import PimLex.Tree.Placement

/-!
# Re-insertion after a merge

The merge collects the entries of the old trees and inserts them into the new
index, whose pages and trees are empty. Its loop repeats the host's search, but
takes the start of a slice to be `p * (partial_total_size / NR_DPUS)`, where the
slices were cut with the number of partitions. The guard behind the search makes a
wrong window harmless for the pages and drops the key. A key whose page is full goes
to a tree without the sentinel, which has no place for a key below its first one
once it is full.
-/

namespace PimLex

open Search Transition

namespace DramIndex

/-- The low bounds that the merge's loop over the partitions sets. -/
def slicedLevel (idx : DramIndex BufPage OptNode) (prev : DramLevel) : DramLevel :=
  { prev with
    lowBoundKey := fun kk =>
      if kk < nrPartition then idx.partialKeys (idx.perDpuInputSize * kk)
      else prev.lowBoundKey kk }

/-- The loop over `collect_overflow_keys` and `collect_overflow_val`. -/
def reinsertAll (idx : DramIndex BufPage OptNode) (lvl : DramLevel) (pgm : ℕ → DTYPE → ℕ × ℕ)
    (nrDpus : ℕ) (collected : List (DTYPE × StringPayload)) : DramIndex BufPage OptNode :=
  run (fun idx e => idx.reinsert lvl pgm nrDpus e.1 e.2) idx collected

/-- How many partial keys of the key's slice are at most the key. -/
def sliceRank (idx : DramIndex BufPage OptNode) (lvl : DramLevel) (k : DTYPE) : ℕ :=
  rank (fun i => idx.partialKeys (idx.perDpuInputSize * lvl.fallbackPartition k + i))
    idx.perDpuInputSize k

/-- The slice-local bounds for the key bracket its rank in the slice. -/
def SliceBracket (idx : DramIndex BufPage OptNode) (lvl : DramLevel) (pgm : ℕ → DTYPE → ℕ × ℕ)
    (k : DTYPE) : Prop :=
  (pgm (lvl.fallbackPartition k) k).1 ≤ idx.sliceRank lvl k ∧
    idx.sliceRank lvl k ≤ (pgm (lvl.fallbackPartition k) k).2

/-- From where the loop takes the slice to start, the bounds still bracket the key's place. -/
def ShiftedBracket (idx : DramIndex BufPage OptNode) (lvl : DramLevel)
    (pgm : ℕ → DTYPE → ℕ × ℕ) (nrDpus : ℕ) (k : DTYPE) : Prop :=
  let p := lvl.fallbackPartition k
  let place := idx.perDpuInputSize * p + idx.sliceRank lvl k
  (pgm p k).1 + idx.partialTotalSize / nrDpus * p ≤ place ∧
    place ≤ (pgm p k).2 + idx.partialTotalSize / nrDpus * p

/-- The entry is in a page or in a tree. -/
def Held (idx : DramIndex BufPage OptNode) (ipos p : ℕ) (e : DTYPE × StringPayload) : Prop :=
  e ∈ (idx.bufferPages ipos).entries ∨ e ∈ (idx.optOverflowTrees p).entries

/-- The entry is where `insert_payload` puts its key on the host's path: in the page of the block
with the key, or in the tree of its partition. -/
structure Placed (idx : DramIndex BufPage OptNode) (lvl : DramLevel) (pgm : ℕ → DTYPE → ℕ × ℕ)
    (e : DTYPE × StringPayload) : Prop where
  low : idx.partialKeys (idx.insertPos lvl pgm e.1 invaildPos) ≤ e.1
  high : e.1 < idx.partialKeys (idx.insertPos lvl pgm e.1 invaildPos + 1)
  held : idx.Held (idx.insertPos lvl pgm e.1 invaildPos) (lvl.fallbackPartition e.1) e

/-- The key's page has room, or the tree of its partition takes it. -/
def HasPlace (idx : DramIndex BufPage OptNode) (lvl : DramLevel) (pgm : ℕ → DTYPE → ℕ × ℕ)
    (k : DTYPE) : Prop :=
  (idx.bufferPages (idx.insertPos lvl pgm k invaildPos)).pageCount < bufSize ∨
    (idx.optOverflowTrees (lvl.fallbackPartition k)).Takes k

/-- The partial keys of a merge, cut into slices. -/
structure Sliced (idx : DramIndex BufPage OptNode) (lvl : DramLevel) : Prop where
  size : nrPartition ≤ idx.partialTotalSize
  mono : ∀ i j, i < j → j < idx.partialTotalSize → idx.partialKeys i ≤ idx.partialKeys j
  bounds : ∀ p < nrPartition, lvl.lowBoundKey p = idx.partialKeys (idx.perDpuInputSize * p)

/-- A key between the first partial key and the last one that a slice covers. -/
structure SliceCovers (idx : DramIndex BufPage OptNode) (k : DTYPE) : Prop where
  low : idx.partialKeys 0 ≤ k
  high : k < idx.partialKeys (idx.perDpuInputSize * nrPartition - 1)

variable {idx idx' : DramIndex BufPage OptNode} {lvl prev : DramLevel}
  {pgm : ℕ → DTYPE → ℕ × ℕ} {nrDpus i p c : ℕ} {k : DTYPE} {e e' : DTYPE × StringPayload}

section Place

theorem Sliced.slice_pos (h : idx.Sliced lvl) : 0 < idx.perDpuInputSize :=
  Nat.div_pos h.size (by decide)

theorem covered_le (idx : DramIndex BufPage OptNode) :
    idx.perDpuInputSize * nrPartition ≤ idx.partialTotalSize := Nat.div_mul_le_self _ _

/-- A covered key goes to a slice that starts at or below it; the next one starts above it. -/
theorem Sliced.fallbackPartition_spec (h : idx.Sliced lvl) (hk : idx.SliceCovers k) :
    lvl.fallbackPartition k < nrPartition ∧
      idx.partialKeys (idx.perDpuInputSize * lvl.fallbackPartition k) ≤ k ∧
      (lvl.fallbackPartition k + 1 < nrPartition →
        k < idx.partialKeys (idx.perDpuInputSize * (lvl.fallbackPartition k + 1))) := by
  have hmono : ∀ i j, i < j → j < nrPartition → lvl.lowBoundKey i ≤ lvl.lowBoundKey j := by
    intro i j hij hj
    rw [h.bounds i (hij.trans hj), h.bounds j hj]
    exact h.mono _ _ (Nat.mul_lt_mul_of_pos_left hij h.slice_pos)
      ((Nat.mul_lt_mul_of_pos_left hj h.slice_pos).trans_le (covered_le idx))
  have hfirst : lvl.lowBoundKey 0 ≤ k := by
    rw [h.bounds 0 (by decide)]
    exact hk.low
  obtain ⟨p, hbound, hp, hlow, hhigh⟩ := DramLevel.exists_routes hmono hfirst
  have hpart : lvl.fallbackPartition k = p := by
    rw [DramLevel.fallbackPartition, DramLevel.searchUpperLevelGetPartition, hbound]
    simp only [nrPartition] at hp ⊢
    split_ifs <;> omega
  rw [hpart]
  refine ⟨hp, ?_, fun hnext => ?_⟩
  · rw [← h.bounds p hp]
    exact hlow
  · rw [← h.bounds _ hnext]
    exact hhigh hnext

/-- The place of a covered key among all partial keys is its place in the slice, from the start
of the slice on. -/
theorem Sliced.rank_eq (h : idx.Sliced lvl) (hk : idx.SliceCovers k) :
    IsCut (fun i => idx.partialKeys i ≤ k) idx.partialTotalSize
        (idx.perDpuInputSize * lvl.fallbackPartition k + idx.sliceRank lvl k) ∧
      0 < idx.sliceRank lvl k ∧
      idx.perDpuInputSize * lvl.fallbackPartition k + idx.sliceRank lvl k <
        idx.partialTotalSize := by
  have hpos := h.slice_pos
  have hcov := covered_le idx
  obtain ⟨hp, hlow, hhigh⟩ := h.fallbackPartition_spec hk
  rw [sliceRank]
  generalize lvl.fallbackPartition k = p at hp hlow hhigh ⊢
  have hcut := isCut_rank h.mono k
  generalize rank idx.partialKeys idx.partialTotalSize k = c at hcut
  have hend : idx.perDpuInputSize * p + idx.perDpuInputSize ≤
      idx.perDpuInputSize * nrPartition := by
    rw [← Nat.mul_succ]
    exact Nat.mul_le_mul_left _ hp
  have hstart : idx.perDpuInputSize * p < c := (hcut.iff _ (by omega)).mp hlow
  have hlast : c ≤ idx.perDpuInputSize * nrPartition - 1 :=
    not_lt.mp (mt (hcut.iff _ (by omega)).mpr (not_le.mpr hk.high))
  -- the next slice starts above the key, and the last slice ends above it
  have hstop : c ≤ idx.perDpuInputSize * p + idx.perDpuInputSize := by
    by_cases hnext : p + 1 < nrPartition
    · have habove := hhigh hnext
      have hlt := (Nat.mul_lt_mul_of_pos_left hnext hpos).trans_le hcov
      rw [Nat.mul_succ] at habove hlt
      exact not_lt.mp (mt (hcut.iff _ hlt).mpr (not_le.mpr habove))
    · have hlastp : nrPartition = p + 1 := by omega
      rw [hlastp, Nat.mul_succ] at hlast
      omega
  have hslice : IsCut (fun i => idx.partialKeys (idx.perDpuInputSize * p + i) ≤ k)
      idx.perDpuInputSize (c - idx.perDpuInputSize * p) := by
    refine ⟨by omega, fun i hi => ?_⟩
    rw [hcut.iff _ (by omega)]
    omega
  have hmono : ∀ i j, i < j → j < idx.perDpuInputSize →
      idx.partialKeys (idx.perDpuInputSize * p + i) ≤
        idx.partialKeys (idx.perDpuInputSize * p + j) := by
    intro i j hij hj
    exact h.mono _ _ (by omega) (by omega)
  rw [(isCut_rank hmono k).eq hslice, Nat.add_sub_cancel' hstart.le]
  exact ⟨hcut, by omega, by omega⟩

theorem curKeyOff_div (hc : 0 < c) : curKeyOff c / pageRatio = c - 1 := by
  rw [curKeyOff, if_neg hc.ne']
  simp only [interleave, pageRatio]
  omega

/-- On its path the host finds the block before the key's place. -/
theorem Sliced.insertPos_eq (h : idx.Sliced lvl) (hk : idx.SliceCovers k)
    (hpgm : idx.SliceBracket lvl pgm k) :
    idx.insertPos lvl pgm k invaildPos =
      idx.perDpuInputSize * lvl.fallbackPartition k + idx.sliceRank lvl k - 1 := by
  obtain ⟨hcut, hpos, hlt⟩ := h.rank_eq hk
  obtain ⟨hlo, hhi⟩ := hpgm
  have hbound : idx.fallbackBound lvl pgm k =
      idx.perDpuInputSize * lvl.fallbackPartition k + idx.sliceRank lvl k := by
    rw [fallbackBound, fallbackWindow]
    refine upperBound_eq_rank hcut (by simp only; omega) ?_ ?_
    all_goals
      simp only
      split_ifs <;> omega
  rw [insertPos, if_neg (fun h => h rfl), hbound, curKeyOff_div (by omega)]

/-- The guard behind the loop's search, which passes exactly where the shifted bounds bracket the
key's place; the search then ends at the block that the host's path finds. -/
theorem Sliced.reinsertPos_spec (h : idx.Sliced lvl) (hk : idx.SliceCovers k)
    (hpgm : idx.SliceBracket lvl pgm k) (nrDpus : ℕ) :
    let ipos := idx.reinsertPos lvl pgm nrDpus k
    ((ipos < idx.partialTotalSize - 1 ∧ idx.partialKeys ipos ≤ k ∧ idx.partialKeys (ipos + 1) > k) ↔
        idx.ShiftedBracket lvl pgm nrDpus k) ∧
      (idx.ShiftedBracket lvl pgm nrDpus k → ipos = idx.insertPos lvl pgm k invaildPos) := by
  intro ipos
  obtain ⟨hcut, hpos, hlt⟩ := h.rank_eq hk
  rw [h.insertPos_eq hk hpgm]
  obtain ⟨hlo, hhi⟩ := hpgm
  have hsize : 1 < idx.partialTotalSize := lt_of_lt_of_le (by decide) h.size
  have hipos : ipos = curKeyOff (upperBound idx.partialKeys k
      ((pgm (lvl.fallbackPartition k) k).1 +
        idx.partialTotalSize / nrDpus * lvl.fallbackPartition k)
      (if (pgm (lvl.fallbackPartition k) k).2 +
          idx.partialTotalSize / nrDpus * lvl.fallbackPartition k ≥ idx.partialTotalSize then
        idx.partialTotalSize - 1
      else (pgm (lvl.fallbackPartition k) k).2 +
        idx.partialTotalSize / nrDpus * lvl.fallbackPartition k)) / pageRatio := rfl
  rw [upperBound_eq_clamp hcut (by split_ifs <;> omega)] at hipos
  rw [ShiftedBracket]
  generalize idx.partialTotalSize / nrDpus * lvl.fallbackPartition k = start at hipos ⊢
  generalize (pgm (lvl.fallbackPartition k) k).1 = lo at hipos hlo ⊢
  generalize (pgm (lvl.fallbackPartition k) k).2 = hi at hipos hhi ⊢
  generalize idx.sliceRank lvl k = r at hcut hpos hlt hlo hhi hipos ⊢
  have hplace : 0 < idx.perDpuInputSize * lvl.fallbackPartition k + r := by omega
  generalize hc : idx.perDpuInputSize * lvl.fallbackPartition k + r = c at hcut hlt hipos hplace ⊢
  have hr : r ≤ c := by omega
  generalize hend : (if hi + start ≥ idx.partialTotalSize then idx.partialTotalSize - 1
    else hi + start) = stop at hipos
  have hstop : (stop = idx.partialTotalSize - 1 ∧ idx.partialTotalSize ≤ hi + start) ∨
      (stop = hi + start ∧ hi + start < idx.partialTotalSize) := by
    rw [← hend]
    split_ifs <;> omega
  -- the search ends at `m`, which is the key's place exactly if the window has it
  generalize hm : max (lo + start) (min c stop) = m at hipos
  have hmpos : 0 < m := by omega
  have hmeq : m = c ↔ lo + start ≤ c ∧ c ≤ hi + start := by omega
  rw [curKeyOff_div hmpos] at hipos
  rw [hipos, ← hmeq, Nat.sub_add_cancel hmpos]
  refine ⟨⟨fun ⟨hend, hlow, hhigh⟩ => ?_, ?_⟩, fun heq => by rw [heq]⟩
  · have h1 := (hcut.iff (m - 1) (by omega)).mp hlow
    have h2 := mt (hcut.iff m (by omega)).mpr (not_le.mpr hhigh)
    omega
  · rintro rfl
    exact ⟨by omega, (hcut.iff _ (by omega)).mpr (by omega),
      not_le.mp (mt (hcut.iff m hlt).mp (lt_irrefl m))⟩

end Place

section Step

/-- What the loop leaves of the index it started with. -/
structure Refills (base idx : DramIndex BufPage OptNode) : Prop where
  partialKeys : idx.partialKeys = base.partialKeys
  partialTotalSize : idx.partialTotalSize = base.partialTotalSize
  trees : ∀ p, (idx.optOverflowTrees p).Wf

theorem Refills.insertPos (h : Refills idx idx') (answer : ℕ) :
    idx'.insertPos lvl pgm k answer = idx.insertPos lvl pgm k answer := by
  obtain ⟨hkeys, hsize, -⟩ := h
  cases idx
  cases idx'
  subst hkeys hsize
  rfl

theorem Refills.reinsertPos (h : Refills idx idx') :
    idx'.reinsertPos lvl pgm nrDpus k = idx.reinsertPos lvl pgm nrDpus k := by
  obtain ⟨hkeys, hsize, -⟩ := h
  cases idx
  cases idx'
  subst hkeys hsize
  rfl

theorem standing_insert_spec {t : OptNode} (wf : t.Wf) (k : DTYPE) (v : StringPayload) :
    OptNode.Inserted k v t (InsertOps.standing.insert t k v) ∧
      (InsertOps.standing.insert t k v).Wf := by
  obtain ⟨ret, t', hins, hspec⟩ := OptNode.insert_spec wf k v
  have heq : InsertOps.standing.insert t k v = t' := by
    simp only [InsertOps.standing, hins]
  rw [heq]
  exact ⟨OptNode.inserted_of_insert wf hins, hspec.wf⟩

/-- A pass whose guard fails changes nothing. -/
theorem reinsert_skip (h : ¬(idx.reinsertPos lvl pgm nrDpus k < idx.partialTotalSize - 1 ∧
      idx.partialKeys (idx.reinsertPos lvl pgm nrDpus k) ≤ k ∧
      idx.partialKeys (idx.reinsertPos lvl pgm nrDpus k + 1) > k)) (v : StringPayload) :
    idx.reinsert lvl pgm nrDpus k v = idx := by
  simp only [reinsert, if_neg h]

/-- A pass whose guard passes gives a page with room the entry, and otherwise the tree. -/
theorem reinsert_store (hguard : idx.reinsertPos lvl pgm nrDpus k < idx.partialTotalSize - 1 ∧
      idx.partialKeys (idx.reinsertPos lvl pgm nrDpus k) ≤ k ∧
      idx.partialKeys (idx.reinsertPos lvl pgm nrDpus k + 1) > k) (v : StringPayload) :
    idx.reinsert lvl pgm nrDpus k v =
      if (idx.bufferPages (idx.reinsertPos lvl pgm nrDpus k)).pageCount < bufSize then
        { idx with
          bufferPages := Function.update idx.bufferPages (idx.reinsertPos lvl pgm nrDpus k)
            ((idx.bufferPages (idx.reinsertPos lvl pgm nrDpus k)).insertPage k v).2 }
      else
        { idx with
          optOverflowTrees := Function.update idx.optOverflowTrees (lvl.fallbackPartition k)
            (InsertOps.standing.insert (idx.optOverflowTrees (lvl.fallbackPartition k)) k v) } := by
  simp only [reinsert, if_pos hguard]
  generalize idx.reinsertPos lvl pgm nrDpus k = ipos
  by_cases hroom : (idx.bufferPages ipos).pageCount < bufSize
  · rw [if_pos (BufPage.insertPage_fst.mpr hroom), if_pos hroom]
  · have hfull : ((idx.bufferPages ipos).insertPage k v).1 = false :=
      Bool.eq_false_of_not_eq_true (mt BufPage.insertPage_fst.mp hroom)
    rw [hfull, BufPage.insertPage_refused hfull, if_neg Bool.false_ne_true, if_neg hroom,
      Function.update_eq_self]

theorem Refills.reinsert (h : Refills idx idx') (k : DTYPE) (v : StringPayload) :
    Refills idx (idx'.reinsert lvl pgm nrDpus k v) := by
  by_cases hguard : idx'.reinsertPos lvl pgm nrDpus k < idx'.partialTotalSize - 1 ∧
      idx'.partialKeys (idx'.reinsertPos lvl pgm nrDpus k) ≤ k ∧
      idx'.partialKeys (idx'.reinsertPos lvl pgm nrDpus k + 1) > k
  · rw [reinsert_store hguard]
    split_ifs with hroom
    · exact ⟨h.partialKeys, h.partialTotalSize, h.trees⟩
    · refine ⟨h.partialKeys, h.partialTotalSize, fun p => ?_⟩
      change (Function.update idx'.optOverflowTrees _ _ p).Wf
      rcases eq_or_ne p (lvl.fallbackPartition k) with rfl | hp
      · rw [Function.update_self]
        exact (standing_insert_spec (h.trees _) k v).2
      · rw [Function.update_of_ne hp]
        exact h.trees p
  · rw [reinsert_skip hguard]
    exact h

/-- What a storing pass adds to a page and a tree: its own entry, in the one or the other. -/
theorem held_store {ipos p' : ℕ} (htrees : ∀ p, (idx.optOverflowTrees p).Wf)
    (hstore : idx' =
      if (idx.bufferPages ipos).pageCount < bufSize then
        { idx with
          bufferPages := Function.update idx.bufferPages ipos
            ((idx.bufferPages ipos).insertPage e'.1 e'.2).2 }
      else
        { idx with
          optOverflowTrees := Function.update idx.optOverflowTrees p'
            (InsertOps.standing.insert (idx.optOverflowTrees p') e'.1 e'.2) }) :
    idx'.Held i p e ↔ idx.Held i p e ∨ (e = e' ∧
      if (idx.bufferPages ipos).pageCount < bufSize then i = ipos
      else p = p' ∧ (idx.optOverflowTrees p').Takes e'.1) := by
  subst hstore
  by_cases hroom : (idx.bufferPages ipos).pageCount < bufSize
  · rw [if_pos hroom, if_pos hroom]
    simp only [Held]
    rcases eq_or_ne i ipos with rfl | hi
    · rw [Function.update_self, BufPage.mem_entries_insertPage (BufPage.insertPage_fst.mpr hroom)]
      tauto
    · rw [Function.update_of_ne hi]
      tauto
  · rw [if_neg hroom, if_neg hroom]
    simp only [Held]
    rcases eq_or_ne p p' with rfl | hp
    · rw [Function.update_self, (standing_insert_spec (htrees p) e'.1 e'.2).1.mem_iff]
      tauto
    · rw [Function.update_of_ne hp]
      tauto

/-- A pass for `e'` puts an entry into its page or tree exactly if the entry is `e'`, the shifted
bounds lead to its block, and there is room for it. -/
theorem Refills.held_reinsert (h : Refills idx idx') (hsliced : idx.Sliced lvl)
    (hk : idx.SliceCovers e'.1) (hpgm : idx.SliceBracket lvl pgm e'.1) :
    (idx'.reinsert lvl pgm nrDpus e'.1 e'.2).Held (idx.insertPos lvl pgm e.1 invaildPos)
        (lvl.fallbackPartition e.1) e ↔
      idx'.Held (idx.insertPos lvl pgm e.1 invaildPos) (lvl.fallbackPartition e.1) e ∨
        (e' = e ∧ idx.ShiftedBracket lvl pgm nrDpus e'.1 ∧ idx'.HasPlace lvl pgm e'.1) := by
  obtain ⟨hguard, hpos⟩ := hsliced.reinsertPos_spec hk hpgm nrDpus
  rw [← h.reinsertPos, ← h.partialKeys, ← h.partialTotalSize] at hguard
  rw [← h.reinsertPos] at hpos
  by_cases hshift : idx.ShiftedBracket lvl pgm nrDpus e'.1
  · have hstore := reinsert_store (hguard.mpr hshift) e'.2
    rw [hpos hshift] at hstore
    rw [held_store h.trees hstore, HasPlace, h.insertPos]
    refine or_congr_right ⟨?_, ?_⟩
    · rintro ⟨rfl, hroom⟩
      split_ifs at hroom with hlt
      · exact ⟨rfl, hshift, Or.inl hlt⟩
      · exact ⟨rfl, hshift, Or.inr hroom.2⟩
    · rintro ⟨rfl, -, hroom⟩
      refine ⟨rfl, ?_⟩
      split_ifs with hlt
      · rfl
      · exact ⟨rfl, hroom.resolve_left hlt⟩
  · rw [reinsert_skip (mt hguard.mp hshift)]
    simp only [hshift, false_and, and_false, or_false]

end Step

section Loop

variable {collected : List (DTYPE × StringPayload)}

theorem refills_reinsertAll (htrees : ∀ p, (idx.optOverflowTrees p).Wf)
    (collected : List (DTYPE × StringPayload)) :
    Refills idx (idx.reinsertAll lvl pgm nrDpus collected) :=
  run_invariant (P := Refills idx) ⟨rfl, rfl, htrees⟩ (fun _ e h => h.reinsert e.1 e.2) collected

/-- On the path of the host every covered key has its block, so being placed is being held. -/
theorem Refills.placed_iff (h : Refills idx idx') (hsliced : idx.Sliced lvl)
    (hk : idx.SliceCovers e.1) (hpgm : idx.SliceBracket lvl pgm e.1) :
    idx'.Placed lvl pgm e ↔
      idx'.Held (idx.insertPos lvl pgm e.1 invaildPos) (lvl.fallbackPartition e.1) e := by
  obtain ⟨hcut, hpos, hlt⟩ := hsliced.rank_eq hk
  have hplace := hsliced.insertPos_eq hk hpgm
  rw [← h.insertPos]
  refine ⟨Placed.held, fun hheld => ⟨?_, ?_, hheld⟩⟩
  · rw [h.insertPos, h.partialKeys, hplace]
    exact (hcut.iff _ (by omega)).mpr (by omega)
  · rw [h.insertPos, h.partialKeys, hplace, Nat.sub_add_cancel (by omega)]
    exact not_le.mp (mt (hcut.iff _ hlt).mp (lt_irrefl _))

theorem sliced_publish (m : Published) (prev : DramLevel)
    (hsize : nrPartition ≤ m.totalSize / interleave)
    (hmono : ∀ i j, i < j → j < m.totalSize / interleave → m.partialKeys i ≤ m.partialKeys j) :
    (publish m).Sliced ((publish m).slicedLevel prev) :=
  ⟨hsize, hmono, fun _ hp => if_pos hp⟩

/-- The loop places every collected entry exactly if, for every one, the bounds still bracket the
key's place when they are taken from `p * (partial_total_size / NR_DPUS)` on, and at some turn of
the entry its page has room or its tree takes it. -/
theorem reinsertAll_places_iff (m : Published) (prev : DramLevel) (pgm : ℕ → DTYPE → ℕ × ℕ)
    (nrDpus : ℕ) (collected : List (DTYPE × StringPayload))
    (hsize : nrPartition ≤ m.totalSize / interleave)
    (hmono : ∀ i j, i < j → j < m.totalSize / interleave → m.partialKeys i ≤ m.partialKeys j)
    (hkeys : ∀ e ∈ collected, (publish m).SliceCovers e.1)
    (hpgm : ∀ e ∈ collected, (publish m).SliceBracket ((publish m).slicedLevel prev) pgm e.1) :
    let idx := publish m
    let lvl := idx.slicedLevel prev
    (∀ e ∈ collected, (idx.reinsertAll lvl pgm nrDpus collected).Placed lvl pgm e) ↔
      ∀ e ∈ collected, idx.ShiftedBracket lvl pgm nrDpus e.1 ∧
        ∃ pre post, collected = pre ++ e :: post ∧
          (idx.reinsertAll lvl pgm nrDpus pre).HasPlace lvl pgm e.1 := by
  intro idx lvl
  have hsliced : idx.Sliced lvl := sliced_publish m prev hsize hmono
  have htrees : ∀ p, (idx.optOverflowTrees p).Wf := fun _ => OptNode.wf_empty
  refine forall₂_congr fun e he => ?_
  rw [(refills_reinsertAll htrees collected).placed_iff hsliced (hkeys e he) (hpgm e he),
    reinsertAll, run_gains_iff (I := Refills idx)
      (P := fun s => s.Held (idx.insertPos lvl pgm e.1 invaildPos) (lvl.fallbackPartition e.1) e)
      ⟨rfl, rfl, htrees⟩ (fun _ e' _ h => h.reinsert e'.1 e'.2)
      (fun _ e' he' h => h.held_reinsert hsliced (hkeys e' he') (hpgm e' he'))]
  -- the pages and trees are empty when the loop starts
  have hempty : ¬ idx.Held (idx.insertPos lvl pgm e.1 invaildPos) (lvl.fallbackPartition e.1) e :=
    fun h => h.elim List.not_mem_nil List.not_mem_nil
  rw [or_iff_right hempty]
  constructor
  · rintro ⟨pre, _, post, heq, rfl, hshift, hplace⟩
    exact ⟨hshift, pre, post, heq, hplace⟩
  · rintro ⟨hshift, pre, post, heq, hplace⟩
    exact ⟨pre, e, post, heq, rfl, hshift, hplace⟩

/-- 256 partial keys, the multiples of 80, in 128 slices of two. -/
def eighties : Published where
  keys i := 10 * i
  payloads _ := .ofByte 97
  partialKeys i := 80 * i
  totalSize := 2048
  size_pos := by decide

theorem eighties_covers : (publish eighties).SliceCovers 245 := ⟨by decide, by decide⟩

/-- The bounds `[0, 2]` are the whole slice. -/
theorem eighties_bracket :
    (publish eighties).SliceBracket ((publish eighties).slicedLevel .init) (fun _ _ => (0, 2))
      245 := by
  unfold SliceBracket
  decide

/-- With as many DPUs as partitions key 245 gets to its page. -/
theorem reinsertAll_eighties :
    ((publish eighties).reinsertAll ((publish eighties).slicedLevel .init) (fun _ _ => (0, 2))
        128 [((245 : DTYPE), StringPayload.ofByte 1)]).Placed
      ((publish eighties).slicedLevel .init) (fun _ _ => (0, 2)) (245, .ofByte 1) := by
  refine (reinsertAll_places_iff eighties .init (fun _ _ => (0, 2)) 128 [(245, .ofByte 1)]
    (by decide) (fun i j hij _ => Nat.mul_le_mul_left 80 hij.le) ?_ ?_).mpr ?_ _
    List.mem_cons_self
  · exact List.forall_mem_singleton.mpr eighties_covers
  · exact List.forall_mem_singleton.mpr eighties_bracket
  · refine List.forall_mem_singleton.mpr ⟨?_, [], [], rfl, Or.inl (Nat.zero_lt_succ 15)⟩
    unfold ShiftedBracket
    decide

/-- With 512 DPUs the loop searches the slice of partition 0 for key 245 of partition 1, and
drops the key. -/
theorem reinsertAll_drops :
    nrPartition ≤ eighties.totalSize / interleave ∧ (publish eighties).SliceCovers 245 ∧
      (publish eighties).SliceBracket ((publish eighties).slicedLevel .init) (fun _ _ => (0, 2))
        245 ∧
      ¬ ((publish eighties).reinsertAll ((publish eighties).slicedLevel .init) (fun _ _ => (0, 2))
          512 [((245 : DTYPE), StringPayload.ofByte 1)]).Placed
        ((publish eighties).slicedLevel .init) (fun _ _ => (0, 2)) (245, .ofByte 1) := by
  refine ⟨by decide, eighties_covers, eighties_bracket, fun h => ?_⟩
  have hheld := h.held
  rw [reinsertAll, run_cons, run_nil, reinsert_skip (by decide)] at hheld
  exact hheld.elim List.not_mem_nil List.not_mem_nil

end Loop

end DramIndex

end PimLex
