import PimLex.Merge.Loop

/-!
# What a cursor has left

A cursor stands for the list of entries it still has to deliver: its loaded
entry and everything behind it up to the end of the slice. Fetching drops the
first of them, across empty pages on the buffer side.
-/

namespace PimLex

namespace DramIndex

variable (idx : DramIndex BufPage OptNode)

/-- The base entry at position `i`. -/
def baseEntry (i : ℕ) : Entry := (idx.keys i, idx.payloads i)

/-- The base entries from position `a` on, below position `b`. -/
def baseFrom (a b : ℕ) : List Entry := (List.range' a (b - a)).map idx.baseEntry

/-- The entries of the pages from `p` on, below page `q`. -/
def pagesFrom (p q : ℕ) : List Entry :=
  (List.range' p (q - p)).flatMap fun i => (idx.bufferPages i).entries

/-- The base entries. -/
def baseEntries : List Entry := idx.baseFrom 0 idx.totalSize

/-- The buffered entries. -/
def bufferedEntries : List Entry := idx.pagesFrom 0 idx.numBufPages

variable {idx} {a b c p q r i : ℕ} {e : Entry}

theorem baseFrom_of_le (h : b ≤ a) : idx.baseFrom a b = [] := by
  rw [baseFrom, Nat.sub_eq_zero_of_le h]
  rfl

theorem baseFrom_cons (h : a < b) :
    idx.baseFrom a b = idx.baseEntry a :: idx.baseFrom (a + 1) b := by
  rw [baseFrom, show b - a = b - (a + 1) + 1 by omega, List.range'_succ]
  rfl

theorem baseFrom_append (hab : a ≤ b) (hbc : b ≤ c) :
    idx.baseFrom a b ++ idx.baseFrom b c = idx.baseFrom a c := by
  have hrange := @List.range'_append_1 a (b - a) (c - b)
  rw [Nat.add_sub_cancel' hab, show b - a + (c - b) = c - a by omega] at hrange
  rw [baseFrom, baseFrom, baseFrom, ← List.map_append, hrange]

theorem length_baseFrom (idx : DramIndex BufPage OptNode) (a b : ℕ) :
    (idx.baseFrom a b).length = b - a := by
  rw [baseFrom, List.length_map, List.length_range']

theorem mem_baseFrom : e ∈ idx.baseFrom a b ↔ ∃ i, a ≤ i ∧ i < b ∧ idx.baseEntry i = e := by
  simp only [baseFrom, List.mem_map, List.mem_range'_1]
  constructor
  · rintro ⟨i, hi, rfl⟩
    exact ⟨i, hi.1, by omega, rfl⟩
  · rintro ⟨i, hai, hib, rfl⟩
    exact ⟨i, ⟨hai, by omega⟩, rfl⟩

theorem pagesFrom_of_le (h : q ≤ p) : idx.pagesFrom p q = [] := by
  rw [pagesFrom, Nat.sub_eq_zero_of_le h]
  rfl

theorem pagesFrom_cons (h : p < q) :
    idx.pagesFrom p q = (idx.bufferPages p).entries ++ idx.pagesFrom (p + 1) q := by
  rw [pagesFrom, show q - p = q - (p + 1) + 1 by omega, List.range'_succ]
  rfl

theorem pagesFrom_append (hpq : p ≤ q) (hqr : q ≤ r) :
    idx.pagesFrom p q ++ idx.pagesFrom q r = idx.pagesFrom p r := by
  have hrange := @List.range'_append_1 p (q - p) (r - q)
  rw [Nat.add_sub_cancel' hpq, show q - p + (r - q) = r - p by omega] at hrange
  rw [pagesFrom, pagesFrom, pagesFrom, ← List.flatMap_append, hrange]

theorem mem_pagesFrom :
    e ∈ idx.pagesFrom p q ↔ ∃ i, p ≤ i ∧ i < q ∧ e ∈ (idx.bufferPages i).entries := by
  simp only [pagesFrom, List.mem_flatMap, List.mem_range'_1]
  constructor
  · rintro ⟨i, hi, he⟩
    exact ⟨i, hi.1, by omega, he⟩
  · rintro ⟨i, hpi, hiq, he⟩
    exact ⟨i, ⟨hpi, by omega⟩, he⟩

section Scan

theorem pagesFrom_skip (h : (idx.bufferPages p).pageCount = 0) (q : ℕ) :
    idx.pagesFrom p q = idx.pagesFrom (p + 1) q := by
  rcases Nat.lt_or_ge p q with hlt | hge
  · have hnil : (idx.bufferPages p).entries = [] := by
      rw [← List.length_eq_zero_iff, BufPage.length_entries]
      exact h
    rw [pagesFrom_cons hlt, hnil, List.nil_append]
  · rw [pagesFrom_of_le hge, pagesFrom_of_le (Nat.le_succ_of_le hge)]

/-- The scan passes empty pages only, and stops early only at a page with entries. -/
theorem skipEmpty_spec (fuel p : ℕ) (q : ℕ) :
    idx.pagesFrom p q = idx.pagesFrom (idx.skipEmpty fuel p) q ∧
      (idx.skipEmpty fuel p < p + fuel →
        (idx.bufferPages (idx.skipEmpty fuel p)).pageCount ≠ 0) := by
  induction fuel generalizing p with
  | zero => exact ⟨rfl, fun h => absurd h (lt_irrefl _)⟩
  | succ fuel ih =>
    rw [skipEmpty]
    split_ifs with hempty
    · obtain ⟨hpages, hstop⟩ := ih (p + 1)
      rw [pagesFrom_skip hempty]
      exact ⟨hpages, fun hlt => hstop (by omega)⟩
    · exact ⟨rfl, fun _ => hempty⟩

theorem pagesFrom_nextPage (idx : DramIndex BufPage OptNode) (p q : ℕ) :
    idx.pagesFrom p q = idx.pagesFrom (idx.nextPage p) q :=
  (skipEmpty_spec _ _ _).1

theorem pageCount_nextPage (hp : p ≤ idx.numBufPages) (h : idx.nextPage p < idx.numBufPages) :
    (idx.bufferPages (idx.nextPage p)).pageCount ≠ 0 :=
  (skipEmpty_spec _ _ 0).2 (by rw [nextPage] at h; omega)

end Scan

end DramIndex

namespace BufPage

theorem drop_entries {page : BufPage} {i : ℕ} (h : i < page.pageCount) :
    page.entries.drop i = (page.keyAt i, page.payloadAt i) :: page.entries.drop (i + 1) := by
  have hi : i < page.entries.length := page.length_entries.symm ▸ h
  have hkey : i < page.bufKey.length := h
  have hval : i < page.bufPayload.length := page.length_eq.symm ▸ h
  rw [List.drop_eq_getElem_cons hi]
  simp [entries, keyAt, payloadAt, hkey, hval]

end BufPage

section Cursors

variable (idx : DramIndex BufPage OptNode)

/-- What the base side still delivers below the end `stop` of its slice; a cursor that ran past
the end has nothing left. -/
def OldCursor.rest (stop : ℕ) (old : OldCursor) : List Entry :=
  if old.oldEndFlag ∨ stop < old.curOldOff then []
  else (old.oldKey, old.oldValue) :: idx.baseFrom old.curOldOff stop

/-- What the buffer side still delivers behind its loaded entry, below page `stop`. -/
def BufCursor.behind (stop : ℕ) (buf : BufCursor) : List Entry :=
  (idx.bufferPages buf.pageId).entries.drop buf.inPageOff ++ idx.pagesFrom (buf.pageId + 1) stop

/-- What the buffer side still delivers below page `stop`. -/
def BufCursor.rest (stop : ℕ) (buf : BufCursor) : List Entry :=
  if buf.bufEndFlag then [] else (buf.bufKey, buf.bufValue) :: buf.behind idx stop

variable {idx} {old : OldCursor} {buf : BufCursor} {stop bound : ℕ}

theorem OldCursor.rest_live (hend : old.oldEndFlag = false) (h : old.curOldOff ≤ stop) :
    old.rest idx stop = (old.oldKey, old.oldValue) :: idx.baseFrom old.curOldOff stop :=
  if_neg (not_or.mpr ⟨by simp [hend], Nat.not_lt.mpr h⟩)

theorem OldCursor.rest_ended (hend : old.oldEndFlag = true) : old.rest idx stop = [] :=
  if_pos (Or.inl hend)

theorem OldCursor.rest_past (h : stop < old.curOldOff) : old.rest idx stop = [] :=
  if_pos (Or.inr h)

theorem BufCursor.rest_live (hend : buf.bufEndFlag = false) :
    buf.rest idx stop = (buf.bufKey, buf.bufValue) :: buf.behind idx stop :=
  if_neg (by simp [hend])

theorem BufCursor.rest_ended (hend : buf.bufEndFlag = true) : buf.rest idx stop = [] :=
  if_pos hend

/-- A fetch drops the loaded entry, also one that may run past the slice. -/
theorem rest_fetchOld (hend : old.oldEndFlag = false) (h : stop ≤ bound) :
    (idx.fetchOld bound old).rest idx stop = idx.baseFrom old.curOldOff stop := by
  rw [DramIndex.fetchOld, OldCursor.rest]
  rcases Nat.lt_or_ge old.curOldOff stop with hlt | hge
  · -- the next entry is still in the slice
    rw [if_pos (hlt.trans_le h), if_neg (by simp [hend, hlt]), DramIndex.baseFrom_cons hlt]
    rfl
  · -- past the slice a fetch may load on, but the cursor counts as empty
    rw [DramIndex.baseFrom_of_le hge]
    split_ifs with hoff hdone
    · rfl
    · exact absurd (Or.inr (Nat.lt_succ_of_le hge)) hdone
    · rfl
    · rename_i hdone
      exact absurd (Or.inl rfl) hdone

theorem rest_loadBuf (hend : buf.bufEndFlag = false)
    (h : buf.inPageOff < (idx.bufferPages buf.pageId).pageCount) :
    (idx.loadBuf buf).rest idx stop = buf.behind idx stop := by
  rw [BufCursor.behind, BufPage.drop_entries h, BufCursor.rest_live (by exact hend)]
  rfl

theorem rest_enterPage (hend : buf.bufEndFlag = false) (hoff : buf.inPageOff = 0)
    (hpage : buf.pageId ≤ idx.numBufPages) (hstop : stop ≤ idx.numBufPages) :
    (idx.enterPage stop buf).rest idx stop = idx.pagesFrom buf.pageId stop := by
  obtain ⟨key, value, page, off, ended⟩ := buf
  simp only at hend hoff hpage
  subst hend hoff
  rw [DramIndex.pagesFrom_nextPage, DramIndex.enterPage]
  simp only
  split_ifs with hlt
  · -- the scan stopped before the end, so at a page with entries
    have hcount := DramIndex.pageCount_nextPage hpage (hlt.trans_le hstop)
    rw [rest_loadBuf rfl (Nat.pos_of_ne_zero hcount), BufCursor.behind,
      DramIndex.pagesFrom_cons hlt]
    simp only [List.drop_zero]
  · rw [DramIndex.pagesFrom_of_le (Nat.le_of_not_lt hlt)]
    rfl

/-- A fetch drops the loaded entry. -/
theorem rest_fetchBuf (hend : buf.bufEndFlag = false) (hpage : buf.pageId < idx.numBufPages)
    (hstop : stop ≤ idx.numBufPages) :
    (idx.fetchBuf stop buf).rest idx stop = buf.behind idx stop := by
  rw [DramIndex.fetchBuf]
  split_ifs with hlt
  · exact rest_loadBuf hend hlt
  · rw [rest_enterPage (by exact hend) (by rfl) (by exact hpage) hstop, BufCursor.behind,
      List.drop_eq_nil_of_le, List.nil_append]
    rw [BufPage.length_entries]
    exact Nat.le_of_not_lt hlt

end Cursors

end PimLex
