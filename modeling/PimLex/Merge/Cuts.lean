import PimLex.Merge.Slice

/-!
# How the merge is cut

The threads' pages are consecutive, and so are their base positions and their
slots: a thread starts where the one before it ends. The cuts of pages and of
base positions agree, except that the last slice takes the rest of both.
-/

namespace PimLex

open Search

namespace DramIndex

variable (idx : DramIndex BufPage OptNode)

/-- The first page of slice `m`; the end of the pages for `m = 32`. -/
def pageCut (m : ℕ) : ℕ :=
  if m = mergeThreadNum then idx.numBufPages else idx.interleavePageOffset * m

/-- The first base position of slice `m`; the end of the base for `m = 32`. -/
def posCut (m : ℕ) : ℕ :=
  if m = mergeThreadNum then idx.totalSize else idx.interleavePageOffset * m * pageRatio

/-- The first slot of slice `m`; the new size for `m = 32`. -/
def slotCut (m : ℕ) : ℕ := idx.posCut m + (idx.pagesFrom 0 (idx.pageCut m)).length

/-- The counts of the threads before `t`. -/
def mergeOffset (t : ℕ) : ℕ := ((List.range t).map idx.keyCount).sum

/-- The bound variables of thread `t`. -/
def boundsOf (t : ℕ) : MergeBounds := idx.mergeBounds t (idx.keyCount t)

/-- The base entries of slice `t`. -/
def oldSlice (t : ℕ) : List Entry := idx.baseFrom (idx.posCut t) (idx.posCut (t + 1))

/-- The buffered entries of slice `t`. -/
def bufSlice (t : ℕ) : List Entry := idx.pagesFrom (idx.pageCut t) (idx.pageCut (t + 1))

variable {idx} {m m' t : ℕ}

theorem interleavePageOffset_mul_le (idx : DramIndex BufPage OptNode) :
    32 * idx.interleavePageOffset ≤ idx.totalSize / 8 + 1 ∧
      8 * (31 * idx.interleavePageOffset) ≤ idx.totalSize := by
  have hq : 32 * idx.interleavePageOffset ≤ idx.totalSize / 8 + 1 := Nat.mul_div_le _ _
  have hn : 8 * (idx.totalSize / 8) ≤ idx.totalSize := Nat.mul_div_le _ _
  omega

theorem pageCut_of_lt (h : m < mergeThreadNum) : idx.pageCut m = idx.interleavePageOffset * m :=
  if_neg h.ne

theorem pageCut_zero (idx : DramIndex BufPage OptNode) : idx.pageCut 0 = 0 := by
  rw [pageCut_of_lt (by decide), Nat.mul_zero]

theorem pageCut_last (idx : DramIndex BufPage OptNode) :
    idx.pageCut mergeThreadNum = idx.numBufPages := if_pos rfl

theorem posCut_of_lt (h : m < mergeThreadNum) : idx.posCut m = 8 * idx.pageCut m := by
  rw [posCut, if_neg h.ne, pageCut_of_lt h, Nat.mul_comm]

theorem posCut_zero (idx : DramIndex BufPage OptNode) : idx.posCut 0 = 0 := by
  rw [posCut_of_lt (by decide), pageCut_zero]

theorem posCut_last (idx : DramIndex BufPage OptNode) :
    idx.posCut mergeThreadNum = idx.totalSize := if_pos rfl

theorem interleavePageOffset_mul_lt (idx : DramIndex BufPage OptNode)
    (h : m < mergeThreadNum) : idx.interleavePageOffset * m ≤ 31 * idx.interleavePageOffset := by
  rw [Nat.mul_comm]
  exact Nat.mul_le_mul_right _ (Nat.le_of_lt_succ h)

/-- The cuts ascend. -/
theorem cut_mono (idx : DramIndex BufPage OptNode) (h : m ≤ m') (h' : m' ≤ mergeThreadNum) :
    idx.pageCut m ≤ idx.pageCut m' ∧ idx.posCut m ≤ idx.posCut m' := by
  obtain ⟨hpages, hpos⟩ := interleavePageOffset_mul_le idx
  -- the last cut is the end of pages and base, the others are multiples of the slice length
  rcases Nat.eq_or_lt_of_le h' with rfl | hlt'
  · rcases Nat.eq_or_lt_of_le h with rfl | hlt
    · exact ⟨le_rfl, le_rfl⟩
    · have hm := interleavePageOffset_mul_lt idx hlt
      rw [pageCut_last, posCut_last, posCut_of_lt hlt, pageCut_of_lt hlt]
      have hnum : idx.numBufPages = idx.totalSize / 8 + 1 := rfl
      omega
  · have hlt := h.trans_lt hlt'
    have hmul : idx.interleavePageOffset * m ≤ idx.interleavePageOffset * m' :=
      Nat.mul_le_mul_left _ h
    rw [posCut_of_lt hlt, posCut_of_lt hlt', pageCut_of_lt hlt, pageCut_of_lt hlt']
    omega

theorem cut_le_end (idx : DramIndex BufPage OptNode) (h : m ≤ mergeThreadNum) :
    idx.pageCut m ≤ idx.numBufPages ∧ idx.posCut m ≤ idx.totalSize := by
  rw [← pageCut_last, ← posCut_last]
  exact cut_mono idx h le_rfl

theorem startPage_eq (h : t < mergeThreadNum) : idx.startPage t = idx.pageCut t :=
  (pageCut_of_lt h).symm

theorem startPage_mul (h : t < mergeThreadNum) : idx.startPage t * pageRatio = idx.posCut t := by
  rw [startPage_eq h, posCut_of_lt h, Nat.mul_comm]

theorem endPage_eq (idx : DramIndex BufPage OptNode) (t : ℕ) :
    idx.endPage t = idx.pageCut (t + 1) := by
  rw [endPage, pageCut]
  by_cases hlast : t = mergeThreadNum - 1
  · rw [if_pos hlast, if_pos (by rw [hlast]; rfl)]
  · have hne : t + 1 ≠ mergeThreadNum := by
      simp only [mergeThreadNum] at hlast ⊢
      omega
    rw [if_neg hlast, if_neg hne]

theorem maxOldInputSize_eq (idx : DramIndex BufPage OptNode) (h : t < mergeThreadNum) :
    (idx.boundsOf t).maxOldInputSize = idx.posCut (t + 1) := by
  rw [boundsOf, mergeBounds]
  simp only
  by_cases hlast : t = mergeThreadNum - 1
  · rw [if_pos hlast, posCut, if_pos (by rw [hlast]; rfl)]
  · have hne : t + 1 < mergeThreadNum := by
      simp only [mergeThreadNum] at hlast h ⊢
      omega
    rw [if_neg hlast, endPage_eq, posCut_of_lt hne, Nat.mul_comm]

theorem maxPageId_eq (idx : DramIndex BufPage OptNode) (t : ℕ) :
    (idx.boundsOf t).maxPageId = idx.pageCut (t + 1) := endPage_eq idx t

theorem foldl_add_count (pages : List ℕ) (c : ℕ) :
    pages.foldl (fun count j => count + (idx.bufferPages j).pageCount) c =
      c + (pages.flatMap fun j => (idx.bufferPages j).entries).length := by
  induction pages generalizing c with
  | nil => rfl
  | cons j pages ih =>
    rw [List.foldl_cons, ih, List.flatMap_cons, List.length_append, BufPage.length_entries,
      Nat.add_assoc]

theorem keyCount_eq (h : t < mergeThreadNum) : idx.keyCount t = (idx.bufSlice t).length := by
  rw [keyCount, foldl_add_count, Nat.zero_add, startPage_eq h, endPage_eq]
  rfl

/-- The number of passes is the number of entries of the slice. -/
theorem totalOps_eq (h : t < mergeThreadNum) :
    (idx.boundsOf t).totalOps = (idx.oldSlice t).length + (idx.bufSlice t).length := by
  have hmax := maxOldInputSize_eq idx h
  have hmono := (cut_mono idx (Nat.le_add_right t 1) h).2
  have hpos : idx.startPage t * pageRatio = idx.posCut t := startPage_mul h
  rw [oldSlice, length_baseFrom, ← keyCount_eq h, ← hmax, ← hpos]
  rw [boundsOf, mergeBounds] at hmax ⊢
  simp only at hmax ⊢
  rw [← hpos, ← hmax] at hmono
  split_ifs at hmono ⊢ <;> omega

theorem mergeOffset_eq (h : t ≤ mergeThreadNum) :
    idx.mergeOffset t = (idx.pagesFrom 0 (idx.pageCut t)).length := by
  induction t with
  | zero => rw [pageCut_zero, pagesFrom_of_le le_rfl]; rfl
  | succ t ih =>
    have hpages := @pagesFrom_append idx _ _ _ (Nat.zero_le (idx.pageCut t))
      (cut_mono idx (Nat.le_add_right t 1) h).1
    rw [mergeOffset, List.range_succ, List.map_append, List.sum_append, List.map_singleton,
      List.sum_singleton, ← mergeOffset, ih (Nat.le_of_succ_le h), keyCount_eq h, bufSlice,
      ← List.length_append, hpages]

/-- A thread's slots end where the next one's start. -/
theorem slotCut_succ (idx : DramIndex BufPage OptNode) (h : t < mergeThreadNum) :
    idx.slotCut (t + 1) = idx.slotCut t + (idx.boundsOf t).totalOps := by
  have hmono := cut_mono idx (Nat.le_add_right t 1) h
  have hpages := congrArg List.length
    (@pagesFrom_append idx _ _ _ (Nat.zero_le (idx.pageCut t)) hmono.1)
  rw [List.length_append] at hpages
  rw [totalOps_eq h, slotCut, slotCut, oldSlice, length_baseFrom, bufSlice, ← hpages]
  omega

theorem slotCut_zero (idx : DramIndex BufPage OptNode) : idx.slotCut 0 = 0 := by
  rw [slotCut, posCut_zero, pageCut_zero, pagesFrom_of_le le_rfl]
  rfl

theorem slotCut_last (idx : DramIndex BufPage OptNode) :
    idx.slotCut mergeThreadNum = idx.totalSize + idx.bufferedEntries.length := by
  rw [slotCut, posCut_last, pageCut_last]
  rfl

theorem slotCut_mono (idx : DramIndex BufPage OptNode) (h : m ≤ m') (h' : m' ≤ mergeThreadNum) :
    idx.slotCut m ≤ idx.slotCut m' := by
  induction m', h using Nat.le_induction with
  | base => exact le_rfl
  | succ m' hm ih =>
    rw [slotCut_succ idx h']
    exact (ih (Nat.le_of_succ_le h')).trans (Nat.le_add_right _ _)

end DramIndex

end PimLex
