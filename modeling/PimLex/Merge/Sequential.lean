import PimLex.Merge.Cuts

/-!
# The sequential merge

The insert guard keeps the keys of page `i` between two partial keys, so slices
of pages and slices of the base are ordered alike, and the slices' merges put
together are the merge of everything. A thread's variables stand at the start of
its slice.
-/

namespace PimLex

open Search

/-- What the insert guard leaves in the pages of a sorted index: a page has entries only if a
further block follows the next one's start, and its keys lie between the two blocks' first
keys. -/
structure PagesGuarded (idx : DramIndex BufPage OptNode) : Prop where
  strict : StrictIncr idx.keys idx.totalSize
  size_int : idx.totalSize < 2 ^ 31
  guarded : ∀ i < idx.numBufPages, ∀ k ∈ (idx.bufferPages i).bufKey,
    i + 1 < idx.totalSize / pageRatio ∧
      idx.keys (pageRatio * i) ≤ k ∧ k < idx.keys (pageRatio * (i + 1))

/-- Guarded pages, each of them sorted, over at least one base key, with fewer than `2^31`
entries in all. -/
structure Mergeable (idx : DramIndex BufPage OptNode) : Prop extends PagesGuarded idx where
  pos : 1 ≤ idx.totalSize
  sorted : ∀ i < idx.numBufPages, (idx.bufferPages i).bufKey.Pairwise (· ≤ ·)
  total_int : idx.totalSize + idx.bufferedEntries.length < 2 ^ 31

namespace DramIndex

variable (idx : DramIndex BufPage OptNode)

/-- Some base key equals `k`. -/
def IsBaseKey (k : DTYPE) : Prop := ∃ j < idx.totalSize, idx.keys j = k

/-- No buffered key is a base key. -/
def Apart : Prop := ∀ e ∈ idx.bufferedEntries, ¬ idx.IsBaseKey e.1

/-- The variables of thread `t` before its loop. -/
def startOf (t : ℕ) : MergeLocals := idx.firstLocals t (idx.mergeOffset t)

/-- The merge of the base and the pages by one thread. -/
def sequentialMerge : List Entry := idx.baseEntries.merge idx.bufferedEntries keyLe

variable {idx} {m m' t a b p q i : ℕ} {e : Entry}

theorem mem_bufKey_of_mem (h : e ∈ (idx.bufferPages i).entries) :
    e.1 ∈ (idx.bufferPages i).bufKey :=
  BufPage.hasKey_iff.mpr ⟨e.2, h⟩

theorem isBaseKey_of_mem (h : e ∈ idx.baseFrom a b) (hb : b ≤ idx.totalSize) :
    idx.IsBaseKey e.1 := by
  obtain ⟨i, -, hi, rfl⟩ := mem_baseFrom.mp h
  exact ⟨i, hi.trans_le hb, rfl⟩

/-- A buffered entry of pages from `p` on, below page `q`, lies between their first keys. -/
theorem bounds_of_mem (h : PagesGuarded idx) (he : e ∈ idx.pagesFrom p q)
    (hq : q ≤ idx.numBufPages) :
    ∃ i, p ≤ i ∧ i < q ∧ 8 * (i + 1) < idx.totalSize ∧ idx.keys (8 * i) ≤ e.1 ∧
      e.1 < idx.keys (8 * (i + 1)) := by
  obtain ⟨i, hpi, hiq, hmem⟩ := mem_pagesFrom.mp he
  obtain ⟨hnext, hlow, hhigh⟩ := h.guarded i (hiq.trans_le hq) e.1 (mem_bufKey_of_mem hmem)
  have hn : 8 * (idx.totalSize / 8) ≤ idx.totalSize := Nat.mul_div_le _ _
  simp only [pageRatio] at hnext
  exact ⟨i, hpi, hiq, by omega, hlow, hhigh⟩

section Slices

/-- An earlier slice comes before a later one. -/
theorem before_slices (h : PagesGuarded idx) (hlt : m < m') (hm' : m' < mergeThreadNum) :
    Before keyLe (idx.oldSlice m) (idx.bufSlice m) (idx.oldSlice m') (idx.bufSlice m') := by
  have hcut := cut_mono idx (show m + 1 ≤ m' from hlt) hm'.le
  have hmid := cut_mono idx (Nat.le_add_right m' 1) hm'
  have hend := cut_le_end idx (show m' + 1 ≤ mergeThreadNum from hm')
  have hpos : idx.posCut m' = 8 * idx.pageCut m' := posCut_of_lt hm'
  constructor
  case left =>
    intro x hx y hy
    obtain ⟨j, -, hj, rfl⟩ := mem_baseFrom.mp hx
    obtain ⟨i, hpi, -, hi, hlow, -⟩ := bounds_of_mem h hy (by omega)
    have hkey : idx.keys j ≤ idx.keys (8 * i) := h.strict.le (by omega) (by omega)
    exact decide_eq_true (hkey.trans hlow)
  case right =>
    intro x hx y hy
    obtain ⟨j, hj, hj', rfl⟩ := mem_baseFrom.mp hx
    -- strictly below: the guard keeps the keys of a page under the next block's first key
    obtain ⟨i, -, hpi, hi, -, hhigh⟩ := bounds_of_mem h hy (by omega)
    have hkey : idx.keys (8 * (i + 1)) ≤ idx.keys j := h.strict.le (by omega) (by omega)
    exact decide_eq_false (not_le.mpr (hhigh.trans_le hkey))

theorem flatMap_oldSlice (idx : DramIndex BufPage OptNode) :
    (List.range mergeThreadNum).flatMap idx.oldSlice = idx.baseEntries := by
  have hall := flatMap_segments idx.baseFrom idx.posCut mergeThreadNum
    (baseFrom_of_le le_rfl) fun m hm => baseFrom_append (cut_mono idx (Nat.zero_le m) hm.le).2
      (cut_mono idx (Nat.le_add_right m 1) hm).2
  rwa [posCut_zero, posCut_last] at hall

theorem flatMap_bufSlice (idx : DramIndex BufPage OptNode) :
    (List.range mergeThreadNum).flatMap idx.bufSlice = idx.bufferedEntries := by
  have hall := flatMap_segments idx.pagesFrom idx.pageCut mergeThreadNum
    (pagesFrom_of_le le_rfl) fun m hm => pagesFrom_append (cut_mono idx (Nat.zero_le m) hm.le).1
      (cut_mono idx (Nat.le_add_right m 1) hm).1
  rwa [pageCut_zero, pageCut_last] at hall

/-- The merges of the slices, put together, are the sequential merge. -/
theorem flatMap_merge (h : PagesGuarded idx) :
    ((List.range mergeThreadNum).flatMap fun t => (idx.oldSlice t).merge (idx.bufSlice t) keyLe) =
      idx.sequentialMerge := by
  rw [sequentialMerge, ← flatMap_oldSlice, ← flatMap_bufSlice, merge_flatMap]
  apply List.pairwise_lt_range.imp_of_mem
  intro m m' _ hm' hlt
  exact before_slices h hlt (List.mem_range.mp hm')

end Slices

section Sequential

theorem pairwise_baseEntries (h : PagesGuarded idx) :
    idx.baseEntries.Pairwise fun a b => keyLe a b = true := by
  rw [baseEntries, baseFrom, List.pairwise_map]
  refine List.Pairwise.imp_of_mem (fun _ hj hij => ?_) List.pairwise_lt_range'
  rw [List.mem_range'_1] at hj
  exact decide_eq_true (h.strict _ _ hij (by omega)).le

theorem pairwise_bufferedEntries (h : Mergeable idx) :
    idx.bufferedEntries.Pairwise fun a b => keyLe a b = true := by
  rw [bufferedEntries, pagesFrom, List.pairwise_flatMap]
  constructor
  · intro i hi
    rw [List.mem_range'_1] at hi
    have hkeys : (idx.bufferPages i).entries.map Prod.fst = (idx.bufferPages i).bufKey :=
      List.map_fst_zip (idx.bufferPages i).length_eq.ge
    have hsorted := h.sorted i (by omega)
    rw [← hkeys, List.pairwise_map] at hsorted
    exact hsorted.imp decide_eq_true
  · -- between two pages lies the first key of the later one's block
    refine List.Pairwise.imp_of_mem (fun hi hj hij x hx y hy => ?_) List.pairwise_lt_range'
    rw [List.mem_range'_1] at hi hj
    obtain ⟨-, -, hx⟩ := h.guarded _ (by omega) x.1 (mem_bufKey_of_mem hx)
    obtain ⟨hnext, hy, -⟩ := h.guarded _ (by omega) y.1 (mem_bufKey_of_mem hy)
    have hn : pageRatio * (idx.totalSize / pageRatio) ≤ idx.totalSize := Nat.mul_div_le _ _
    have hkey := h.strict.le (Nat.mul_le_mul_left pageRatio (Nat.succ_le_of_lt hij))
      (by simp only [pageRatio] at hnext hn ⊢; omega)
    exact decide_eq_true ((hx.le.trans hkey).trans hy)

/-- The sequential merge is sorted and holds the base entries and the buffered entries. -/
theorem sequentialMerge_spec (h : Mergeable idx) :
    idx.sequentialMerge.Pairwise (fun a b => a.1 ≤ b.1) ∧
      idx.sequentialMerge.Perm (idx.baseEntries ++ idx.bufferedEntries) := by
  refine ⟨?_, List.merge_perm_append keyLe⟩
  have hsorted := @List.pairwise_merge _ keyLe
    (fun a b c hab hbc => decide_eq_true ((of_decide_eq_true hab).trans (of_decide_eq_true hbc)))
    (fun a b => by simpa [keyLe] using le_total a.1 b.1)
    _ _ (pairwise_baseEntries h.toPagesGuarded) (pairwise_bufferedEntries h)
  exact hsorted.imp of_decide_eq_true

end Sequential

section Start

theorem inside_boundsOf (idx : DramIndex BufPage OptNode) (ht : t < mergeThreadNum) :
    (idx.boundsOf t).Inside idx := by
  have hend := cut_le_end idx (show t + 1 ≤ mergeThreadNum from ht)
  constructor
  · rw [maxPageId_eq]
    exact hend.1
  · rw [maxOldInputSize_eq idx ht]
    exact hend.2

theorem startOf_old (ht : t < mergeThreadNum) :
    (idx.startOf t).old =
      ⟨idx.keys (idx.posCut t), idx.payloads (idx.posCut t), idx.posCut t + 1, false⟩ := by
  rw [startOf, firstLocals]
  simp only [startPage_mul ht]

theorem oldRest_startOf (ht : t < mergeThreadNum) :
    (idx.startOf t).oldRest idx (idx.boundsOf t) = idx.oldSlice t := by
  rw [MergeLocals.oldRest, startOf_old ht, maxOldInputSize_eq idx ht, oldSlice]
  rcases Nat.lt_or_ge (idx.posCut t) (idx.posCut (t + 1)) with hlt | hge
  · rw [OldCursor.rest_live rfl hlt, baseFrom_cons hlt]
    rfl
  · rw [OldCursor.rest_past (Nat.lt_succ_of_le hge), baseFrom_of_le hge]

theorem bufRest_startOf (ht : t < mergeThreadNum) :
    (idx.startOf t).bufRest idx (idx.boundsOf t) = idx.bufSlice t := by
  have hin := (inside_boundsOf idx ht).page
  have hcut := cut_le_end idx ht.le
  rw [maxPageId_eq] at hin
  rw [MergeLocals.bufRest, startOf, firstLocals, maxPageId_eq, endPage_eq]
  simp only
  rw [rest_enterPage (by rfl) (by rfl) _ hin]
  · exact congrArg (fun p => idx.pagesFrom p _) (startPage_eq ht)
  · rw [startPage_eq ht]
    exact hcut.1

theorem sliceInv_startOf (h : PagesGuarded idx) (ht : t < mergeThreadNum) :
    SliceInv idx (idx.boundsOf t) (idx.startOf t) := by
  constructor
  case live =>
    intro hbuf _
    -- a page with entries has a base block of its own in the slice
    have hne : idx.bufSlice t ≠ [] := by
      rw [← bufRest_startOf ht, MergeLocals.bufRest, BufCursor.rest_live hbuf]
      exact List.cons_ne_nil _ _
    obtain ⟨e, he⟩ := List.exists_mem_of_ne_nil _ hne
    have hend := cut_le_end idx (show t + 1 ≤ mergeThreadNum from ht)
    obtain ⟨i, hpi, hiq, hi, -⟩ := bounds_of_mem h he hend.1
    have hpos : idx.posCut t = 8 * idx.pageCut t := posCut_of_lt ht
    rw [startOf_old ht, maxOldInputSize_eq idx ht]
    change idx.posCut t + 1 ≤ idx.posCut (t + 1)
    rcases Nat.eq_or_lt_of_le (show t + 1 ≤ mergeThreadNum from ht) with hlast | hlt
    · rw [hlast, posCut_last]
      omega
    · rw [posCut_of_lt hlt]
      omega
  case inPages =>
    rw [startOf, firstLocals]
    apply inPages_enterPage
    rw [endPage_eq, ← maxPageId_eq]
    exact (inside_boundsOf idx ht).page

theorem curNewOff_startOf (ht : t < mergeThreadNum) :
    (idx.startOf t).curNewOff = idx.slotCut t % word := by
  rw [startOf, firstLocals, mergeOffset_eq ht.le, slotCut, posCut_of_lt ht, startPage_eq ht,
    Nat.mul_comm 8]

/-- Thread `t` stores the merge of its slice from its first slot on. -/
theorem passes_startOf (h : Mergeable idx) (hapart : idx.Apart) (ht : t < mergeThreadNum) :
    (idx.mergePasses (idx.boundsOf t) (idx.startOf t) (idx.boundsOf t).totalOps).1 =
      writesFrom (idx.slotCut t) ((idx.oldSlice t).merge (idx.bufSlice t) keyLe) := by
  have hsucc := slotCut_succ idx ht
  have hend := slotCut_mono idx (show t + 1 ≤ mergeThreadNum from ht) le_rfl
  have htotal := h.total_int
  rw [slotCut_last] at hend
  have hcur : (idx.startOf t).curNewOff = idx.slotCut t := by
    rw [curNewOff_startOf ht, Nat.mod_eq_of_lt]
    simp only [word]
    omega
  rw [← oldRest_startOf ht, ← bufRest_startOf ht, ← hcur]
  apply (sliceInv_startOf h.toPagesGuarded ht).passes_all (inside_boundsOf idx ht)
  · -- what the cursors have left is the slice, where buffered keys are not base keys
    rw [oldRest_startOf ht, bufRest_startOf ht]
    intro a ha b hb heq
    have hold := cut_le_end idx (show t + 1 ≤ mergeThreadNum from ht)
    have hmem : b ∈ idx.bufferedEntries := by
      rw [← flatMap_bufSlice]
      exact List.mem_flatMap.mpr ⟨t, List.mem_range.mpr ht, hb⟩
    exact hapart b hmem (heq ▸ isBaseKey_of_mem ha hold.2)
  · rw [oldRest_startOf ht, bufRest_startOf ht]
    exact totalOps_eq ht
  · rw [hcur]
    simp only [word]
    omega

end Start

end DramIndex

end PimLex
