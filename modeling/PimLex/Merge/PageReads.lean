import PimLex.Merge.Update

/-!
# The pages a merge thread reads

The three scans for the next page with entries stop only at such a page, and test
the thread's limit afterwards. So a scan leaves the page array exactly if no page
from its start on has an entry. The last thread comes to such a scan behind its
last entry, unless it has no base entries: then its first base key, read past the
base array, costs a pass that its entries lack.
-/

namespace PimLex

namespace DramIndex

variable (idx : DramIndex BufPage OptNode)

/-- The pages whose count a scan from `page` on reads; the first one outside of the array is the
last one that is listed. -/
def scanReads : ℕ → ℕ → List ℕ
  | 0, page => [page]
  | fuel + 1, page =>
    page :: if (idx.bufferPages page).pageCount = 0 then scanReads fuel (page + 1) else []

/-- The pages that `enterPage` reads: those of its scan, and the one it fetches an entry of. -/
def enterReads (maxPageId page : ℕ) : List ℕ :=
  idx.scanReads (idx.numBufPages - page) page ++
    if idx.nextPage page < maxPageId then [idx.nextPage page] else []

/-- The pages that `fetchBuf` reads. -/
def fetchReads (maxPageId : ℕ) (buf : BufCursor) : List ℕ :=
  buf.pageId ::
    if buf.inPageOff < (idx.bufferPages buf.pageId).pageCount then [buf.pageId]
    else idx.enterReads maxPageId (buf.pageId + 1)

/-- The pages that a pass of the loop reads, in the two-sided and in the buffer-only state. -/
def passReads (bounds : MergeBounds) (l : MergeLocals) : List ℕ :=
  match l.old.oldEndFlag, l.buf.bufEndFlag with
  | false, false =>
    if l.old.oldKey < l.buf.bufKey then [] else idx.fetchReads bounds.maxPageId l.buf
  | true, false => idx.fetchReads bounds.maxPageId l.buf
  | _, true => []

/-- The pages that the first `targets` passes read. -/
def passesReads (bounds : MergeBounds) (l : MergeLocals) : ℕ → List ℕ
  | 0 => []
  | targets + 1 =>
    passesReads bounds l targets ++ idx.passReads bounds (idx.mergePasses bounds l targets).2

/-- The pages that thread `t` reads in its merge, before its loop and in it. -/
def mergeReads (t : ℕ) : List ℕ :=
  idx.enterReads (idx.endPage t) (idx.startPage t) ++
    idx.passesReads (idx.boundsOf t) (idx.startOf t) (idx.boundsOf t).totalOps

/-- The pages are pages of the array. -/
def PagesInside (pages : List ℕ) : Prop := ∀ page ∈ pages, page < idx.numBufPages

variable {idx} {p q m t : ℕ} {buf : BufCursor} {bounds : MergeBounds} {l : MergeLocals}
  {pages pages' : List ℕ}

theorem pagesInside_nil (idx : DramIndex BufPage OptNode) : idx.PagesInside [] := nofun

theorem pagesInside_append :
    idx.PagesInside (pages ++ pages') ↔ idx.PagesInside pages ∧ idx.PagesInside pages' :=
  List.forall_mem_append

section Scan

theorem le_skipEmpty (fuel p : ℕ) :
    p ≤ idx.skipEmpty fuel p ∧ idx.skipEmpty fuel p ≤ p + fuel := by
  induction fuel generalizing p with
  | zero => exact ⟨le_rfl, le_rfl⟩
  | succ fuel ih =>
    rw [skipEmpty]
    split_ifs
    · have hnext := ih (p + 1)
      omega
    · omega

/-- A scan reads all pages up to the one it stops at. -/
theorem mem_scanReads (fuel : ℕ) :
    q ∈ idx.scanReads fuel p ↔ p ≤ q ∧ q ≤ idx.skipEmpty fuel p := by
  induction fuel generalizing p with
  | zero =>
    rw [scanReads, skipEmpty, List.mem_singleton]
    omega
  | succ fuel ih =>
    rw [scanReads, skipEmpty, List.mem_cons]
    split_ifs with hempty
    · have hnext := @le_skipEmpty idx fuel (p + 1)
      rw [ih]
      omega
    · rw [List.mem_nil_iff, or_false]
      omega

theorem enterReads_inside :
    idx.PagesInside (idx.enterReads m p) ↔ idx.nextPage p < idx.numBufPages := by
  constructor
  · intro h
    apply h
    rw [enterReads, List.mem_append, mem_scanReads]
    exact Or.inl ⟨(le_skipEmpty _ p).1, le_rfl⟩
  · intro h page hpage
    rw [enterReads, List.mem_append, mem_scanReads] at hpage
    rcases hpage with ⟨-, hle⟩ | hmem
    · exact Nat.lt_of_le_of_lt hle h
    · split_ifs at hmem
      · rw [List.mem_singleton.mp hmem]
        exact h
      · exact absurd hmem (List.not_mem_nil)

/-- A scan stays in the array if a page from its start on has an entry. -/
theorem nextPage_lt_iff (hp : p ≤ idx.numBufPages) :
    idx.nextPage p < idx.numBufPages ↔ idx.pagesFrom p idx.numBufPages ≠ [] := by
  rw [pagesFrom_nextPage]
  constructor
  · intro h hnil
    rw [pagesFrom_cons h, List.append_eq_nil_iff, ← List.length_eq_zero_iff,
      BufPage.length_entries] at hnil
    exact pageCount_nextPage hp h hnil.1
  · intro h
    by_contra hge
    exact h (pagesFrom_of_le (Nat.not_lt.mp hge))

/-- A fetch stays in the array if there is an entry behind the loaded one, in any later page. -/
theorem fetchReads_inside (hpage : buf.pageId < idx.numBufPages) :
    idx.PagesInside (idx.fetchReads m buf) ↔ buf.behind idx idx.numBufPages ≠ [] := by
  have hcons : ∀ pages, idx.PagesInside (buf.pageId :: pages) ↔ idx.PagesInside pages :=
    fun _ => List.forall_mem_cons.trans (and_iff_right hpage)
  rw [fetchReads, hcons, BufCursor.behind]
  split_ifs with hlt
  · rw [hcons, BufPage.drop_entries hlt]
    exact iff_of_true (pagesInside_nil idx) (List.cons_ne_nil _ _)
  · have hdrop : (idx.bufferPages buf.pageId).entries.drop buf.inPageOff = [] :=
      List.drop_eq_nil_of_le (by rw [BufPage.length_entries]; exact Nat.not_lt.mp hlt)
    rw [hdrop, List.nil_append, enterReads_inside, nextPage_lt_iff hpage]

end Scan

section Pass

/-- A pass leaves the buffer side alone and reads no page, or it fetches a new `buf_key`. -/
theorem passReads_cases (idx : DramIndex BufPage OptNode) (bounds : MergeBounds) (l : MergeLocals) :
    (idx.passReads bounds l = [] ∧ (idx.mergePass bounds l).2.buf = l.buf) ∨
      (l.buf.bufEndFlag = false ∧
        idx.passReads bounds l = idx.fetchReads bounds.maxPageId l.buf ∧
        (idx.mergePass bounds l).2.buf = idx.fetchBuf bounds.maxPageId l.buf) := by
  obtain ⟨old, buf, curNewOff⟩ := l
  unfold passReads mergePass
  cases hold : old.oldEndFlag <;> cases hbuf : buf.bufEndFlag
  · by_cases hlt : old.oldKey < buf.bufKey
    · left
      simp only [hold, hbuf, if_pos hlt, and_self]
    · right
      simp only [hold, hbuf, if_neg hlt, and_self]
  · left
    simp only [hold, hbuf, and_self]
  · right
    simp only [hold, hbuf, and_self]
  · left
    simp only [hold, hbuf, and_self]

theorem inPages_pass (hin : bounds.Inside idx) (h : l.buf.InPages idx) :
    (idx.mergePass bounds l).2.buf.InPages idx := by
  rcases passReads_cases idx bounds l with ⟨-, hbuf⟩ | ⟨hend, -, hbuf⟩
  · rw [hbuf]
    exact h
  · rw [hbuf]
    exact inPages_fetchBuf hin.page h hend

/-- With an entry in a page behind the thread's pages, its fetches stay in the array. -/
theorem passReads_inside_of_later (hin : bounds.Inside idx)
    (hlater : idx.pagesFrom bounds.maxPageId idx.numBufPages ≠ [])
    (h : l.buf.Below bounds.maxPageId) :
    idx.PagesInside (idx.passReads bounds l) ∧
      (idx.mergePass bounds l).2.buf.Below bounds.maxPageId := by
  rcases passReads_cases idx bounds l with ⟨hreads, hbuf⟩ | ⟨hend, hreads, hbuf⟩
  · rw [hreads, hbuf]
    exact ⟨pagesInside_nil idx, h⟩
  · rw [hreads, hbuf, fetchReads_inside ((h hend).trans_le hin.page), BufCursor.behind,
      ← pagesFrom_append (h hend) hin.page]
    refine ⟨?_, below_fetchBuf h hend⟩
    rw [← List.append_assoc]
    exact List.append_ne_nil_of_right_ne_nil _ hlater

theorem passesReads_inside_of_later (hin : bounds.Inside idx)
    (hlater : idx.pagesFrom bounds.maxPageId idx.numBufPages ≠ [])
    (h : l.buf.Below bounds.maxPageId) (m : ℕ) :
    idx.PagesInside (idx.passesReads bounds l m) ∧
      (idx.mergePasses bounds l m).2.buf.Below bounds.maxPageId := by
  induction m with
  | zero => exact ⟨pagesInside_nil idx, h⟩
  | succ m ih =>
    obtain ⟨hreads, hbelow⟩ := passReads_inside_of_later hin hlater ih.2
    exact ⟨pagesInside_append.mpr ⟨ih.1, hreads⟩, hbelow⟩

end Pass

section LastThread

theorem bufEndFlag_iff : l.buf.bufEndFlag = false ↔ l.bufRest idx bounds ≠ [] := by
  cases hend : l.buf.bufEndFlag with
  | false =>
    rw [MergeLocals.bufRest, BufCursor.rest_live hend]
    exact iff_of_true rfl (List.cons_ne_nil _ _)
  | true =>
    rw [MergeLocals.bufRest, BufCursor.rest_ended hend]
    exact iff_of_false Bool.noConfusion fun h => h rfl

/-- Up to the end of the array, a pass that leaves the array is one that ends the buffer side. -/
theorem passReads_inside_iff (hin : bounds.Inside idx) (hmax : bounds.maxPageId = idx.numBufPages)
    (h : l.buf.InPages idx) :
    idx.PagesInside (idx.passReads bounds l) ∧ l.buf.bufEndFlag = false ↔
      (idx.mergePass bounds l).2.buf.bufEndFlag = false := by
  rcases passReads_cases idx bounds l with ⟨hreads, hbuf⟩ | ⟨hend, hreads, hbuf⟩
  · rw [hreads, hbuf]
    exact and_iff_right (pagesInside_nil idx)
  · have hrest := rest_fetchBuf hend (h hend) hin.page
    rw [hreads, and_iff_left hend, fetchReads_inside (h hend), ← hmax, ← hrest, ← hbuf]
    exact bufEndFlag_iff.symm

theorem passesReads_inside_iff (hin : bounds.Inside idx)
    (hmax : bounds.maxPageId = idx.numBufPages) (h : l.buf.InPages idx) (m : ℕ) :
    (idx.PagesInside (idx.passesReads bounds l m) ∧ l.buf.bufEndFlag = false ↔
        (idx.mergePasses bounds l m).2.buf.bufEndFlag = false) ∧
      (idx.mergePasses bounds l m).2.buf.InPages idx := by
  induction m with
  | zero => exact ⟨and_iff_right (pagesInside_nil idx), h⟩
  | succ m ih =>
    obtain ⟨hreads, hpages⟩ := ih
    refine ⟨?_, inPages_pass hin hpages⟩
    rw [passesReads, pagesInside_append, and_right_comm, hreads, and_comm]
    exact passReads_inside_iff hin hmax hpages

theorem bufEndFlag_enterPage (hend : buf.bufEndFlag = false) :
    (idx.enterPage m buf).bufEndFlag = false ↔ idx.nextPage buf.pageId < m := by
  rw [enterPage]
  simp only
  split_ifs with hlt
  · exact iff_of_true hend hlt
  · exact iff_of_false not_false hlt

/-- The last thread stays in the array exactly if it does not come to its last entry's end. -/
theorem mergeReads_last_iff (idx : DramIndex BufPage OptNode) :
    idx.PagesInside (idx.mergeReads 31) ↔
      (idx.mergePasses (idx.boundsOf 31) (idx.startOf 31)
        (idx.boundsOf 31).totalOps).2.buf.bufEndFlag = false := by
  have hin := inside_boundsOf idx (show 31 < mergeThreadNum by decide)
  have hstart : (idx.startOf 31).buf.bufEndFlag = false ↔
      idx.PagesInside (idx.enterReads (idx.endPage 31) (idx.startPage 31)) := by
    rw [enterReads_inside]
    exact bufEndFlag_enterPage rfl
  have hpages : (idx.startOf 31).buf.InPages idx := inPages_enterPage (by exact hin.page)
  rw [mergeReads, pagesInside_append, ← hstart, and_comm]
  exact (passesReads_inside_iff hin rfl hpages _).1

end LastThread

end DramIndex

section Passes

open DramIndex

variable {idx : DramIndex BufPage OptNode} {bounds : MergeBounds} {l : MergeLocals} {m : ℕ}

/-- While the buffer side is live a pass takes an entry from the slice, an update takes two. -/
theorem SliceInv.pass_takes (h : SliceInv idx bounds l) (hin : bounds.Inside idx)
    (hbuf : l.buf.bufEndFlag = false) :
    let l' := (idx.mergePass bounds l).2
    SliceInv idx bounds l' ∧
      (l'.oldRest idx bounds).length + (l'.bufRest idx bounds).length <
        (l.oldRest idx bounds).length + (l.bufRest idx bounds).length := by
  have hrest : l.old.oldEndFlag = false →
      ((idx.fetchOld bounds.maxOldInputSize l.old).rest idx bounds.maxOldInputSize).length <
        (l.oldRest idx bounds).length := by
    intro hold
    rw [rest_fetchOld hold le_rfl, MergeLocals.oldRest,
      OldCursor.rest_live hold (h.live hbuf hold)]
    exact Nat.lt_succ_self _
  rcases mergePass_cases idx bounds l with
    ⟨stop, hold, hlt, -, heq⟩ | ⟨old', -, -, hold', heq⟩ | ⟨-, hend, -⟩
  · obtain ⟨-, rfl⟩ := hlt hbuf
    rw [heq]
    refine ⟨⟨fun _ hend => live_fetchOld hend, h.inPages⟩, ?_⟩
    exact Nat.add_lt_add_right (hrest hold) _
  · have hnext : ((idx.fetchBuf bounds.maxPageId l.buf).rest idx bounds.maxPageId).length <
        (l.bufRest idx bounds).length := by
      rw [rest_fetchBuf hbuf (h.inPages hbuf) hin.page, MergeLocals.bufRest,
        BufCursor.rest_live hbuf]
      exact Nat.lt_succ_self _
    rw [heq]
    rcases hold' with rfl | ⟨hold, -, rfl⟩
    · refine ⟨⟨fun _ hend => h.live hbuf hend, inPages_fetchBuf hin.page h.inPages hbuf⟩, ?_⟩
      exact Nat.add_lt_add_left hnext _
    · refine ⟨⟨fun _ hend => live_fetchOld hend, inPages_fetchBuf hin.page h.inPages hbuf⟩, ?_⟩
      exact Nat.add_lt_add (hrest hold) hnext
  · exact absurd (hbuf.symm.trans hend) Bool.noConfusion

/-- As many passes as the slice has entries come to the end of the buffer side. -/
theorem SliceInv.passes_end (h : SliceInv idx bounds l) (hin : bounds.Inside idx)
    (hm : m = (l.oldRest idx bounds).length + (l.bufRest idx bounds).length) :
    (idx.mergePasses bounds l m).2.buf.bufEndFlag = true := by
  have hrun : ∀ n, (idx.mergePasses bounds l n).2.buf.bufEndFlag = true ∨
      SliceInv idx bounds (idx.mergePasses bounds l n).2 ∧
        ((idx.mergePasses bounds l n).2.oldRest idx bounds).length +
            ((idx.mergePasses bounds l n).2.bufRest idx bounds).length + n ≤ m := by
    intro n
    induction n with
    | zero => exact Or.inr ⟨h, hm.ge⟩
    | succ n ih =>
      cases hend : (idx.mergePasses bounds l n).2.buf.bufEndFlag with
      | true =>
        left
        rcases passReads_cases idx bounds (idx.mergePasses bounds l n).2 with
          ⟨-, hbuf⟩ | ⟨hlive, -, -⟩
        · exact (congrArg BufCursor.bufEndFlag hbuf).trans hend
        · exact absurd (hlive.symm.trans hend) Bool.noConfusion
      | false =>
        right
        obtain ⟨hinv, hlen⟩ := ih.resolve_left (by rw [hend]; exact Bool.noConfusion)
        obtain ⟨hinv', hlen'⟩ := hinv.pass_takes hin hend
        refine ⟨hinv', ?_⟩
        rw [mergePasses]
        simp only at hlen' ⊢
        omega
  rcases hrun m with hend | ⟨-, hlen⟩
  · exact hend
  · -- nothing is left, so the buffer side has no loaded entry either
    have hnil : (idx.mergePasses bounds l m).2.bufRest idx bounds = [] :=
      List.length_eq_zero_iff.mp (by omega)
    by_contra hlive
    exact bufEndFlag_iff.mp (Bool.eq_false_iff.mpr hlive) hnil

theorem mergePasses_succ (m : ℕ) :
    (idx.mergePasses bounds l (m + 1)).2 =
      (idx.mergePasses bounds (idx.mergePass bounds l).2 m).2 := by
  induction m with
  | zero => rfl
  | succ m ih =>
    have hlast : ∀ (l : MergeLocals) n, (idx.mergePasses bounds l (n + 1)).2 =
        (idx.mergePass bounds (idx.mergePasses bounds l n).2).2 := fun _ _ => rfl
    rw [hlast, ih, hlast]

/-- With the base side ended each pass takes a buffered entry. -/
theorem bufRest_pass_of_ended (hin : bounds.Inside idx) (h : l.buf.InPages idx)
    (hold : l.old.oldEndFlag = true) :
    (idx.mergePass bounds l).2.old.oldEndFlag = true ∧
      (idx.mergePass bounds l).2.bufRest idx bounds = (l.bufRest idx bounds).tail := by
  rcases mergePass_cases idx bounds l with
    ⟨_, hlive, -⟩ | ⟨old', hbuf, -, hold', heq⟩ | ⟨-, hend, heq⟩
  · exact absurd (hlive.symm.trans hold) Bool.noConfusion
  · obtain rfl : old' = l.old := hold'.resolve_right fun hlive =>
      absurd (hlive.1.symm.trans hold) Bool.noConfusion
    rw [heq, MergeLocals.bufRest, rest_fetchBuf hbuf (h hbuf) hin.page, MergeLocals.bufRest,
      BufCursor.rest_live hbuf]
    exact ⟨hold, rfl⟩
  · rw [heq, MergeLocals.bufRest, BufCursor.rest_ended hend]
    exact ⟨hold, rfl⟩

theorem bufRest_passes_of_ended (hin : bounds.Inside idx) (h : l.buf.InPages idx)
    (hold : l.old.oldEndFlag = true) (m : ℕ) :
    (idx.mergePasses bounds l m).2.bufRest idx bounds = (l.bufRest idx bounds).drop m := by
  induction m generalizing l with
  | zero => rfl
  | succ m ih =>
    obtain ⟨hold', hrest⟩ := bufRest_pass_of_ended hin h hold
    rw [mergePasses_succ, ih (inPages_pass hin h) hold', hrest, List.drop_tail]

/-- A pass of the two-sided state, side by side. -/
theorem mergePass_live (hold : l.old.oldEndFlag = false) (hbuf : l.buf.bufEndFlag = false) :
    (idx.mergePass bounds l).2.old =
        (if l.old.oldKey ≤ l.buf.bufKey then idx.fetchOld bounds.maxOldInputSize l.old
          else l.old) ∧
      (idx.mergePass bounds l).2.buf =
        if l.old.oldKey < l.buf.bufKey then l.buf else idx.fetchBuf bounds.maxPageId l.buf := by
  obtain ⟨old, buf, curNewOff⟩ := l
  unfold mergePass
  simp only at hold hbuf ⊢
  rw [hold, hbuf]
  simp only
  rcases lt_trichotomy old.oldKey buf.bufKey with hlt | heq | hgt
  · rw [if_pos hlt, if_pos hlt, if_pos hlt.le]
    exact ⟨rfl, rfl⟩
  · rw [if_neg heq.not_lt, if_neg heq.not_lt, if_pos heq, if_pos heq.le]
    exact ⟨rfl, rfl⟩
  · rw [if_neg hgt.not_gt, if_neg hgt.not_gt, if_neg hgt.ne', if_neg (not_le.mpr hgt)]
    exact ⟨rfl, rfl⟩

/-- A base key from behind the slice takes a pass of its own if it lies strictly below the first
buffered key that is not below it; then as many passes as there are buffered entries leave the
last of them loaded. -/
theorem bufRest_passes_of_past (hin : bounds.Inside idx) (h : l.buf.InPages idx)
    (hold : l.old.oldEndFlag = false) (hpast : bounds.maxOldInputSize ≤ l.old.curOldOff) :
    (idx.mergePasses bounds l (l.bufRest idx bounds).length).2.bufRest idx bounds ≠ [] ↔
      ∃ k, ((l.bufRest idx bounds).map Prod.fst).find? (fun k => l.old.oldKey ≤ k) = some k ∧
        l.old.oldKey < k := by
  generalize hentries : l.bufRest idx bounds = entries
  induction entries generalizing l with
  | nil =>
    refine iff_of_false (fun hne => hne hentries) ?_
    rintro ⟨_, hfind, -⟩
    exact absurd hfind nofun
  | cons e entries ih =>
    have hbuf : l.buf.bufEndFlag = false :=
      bufEndFlag_iff.mpr (by rw [hentries]; exact List.cons_ne_nil _ _)
    have hloaded := hentries
    rw [MergeLocals.bufRest, BufCursor.rest_live hbuf, List.cons.injEq] at hloaded
    obtain ⟨rfl, hbehind⟩ := hloaded
    have hended : (idx.fetchOld bounds.maxOldInputSize l.old).oldEndFlag = true := by
      rw [fetchOld, if_neg (Nat.not_lt.mpr hpast)]
    have hnext : (idx.fetchBuf bounds.maxPageId l.buf).rest idx bounds.maxPageId = entries := by
      rw [rest_fetchBuf hbuf (h hbuf) hin.page, hbehind]
    have hpages := inPages_pass hin h
    rw [List.length_cons, mergePasses_succ, List.map_cons]
    obtain ⟨hold', hbuf'⟩ := @mergePass_live idx bounds l hold hbuf
    rcases lt_trichotomy l.old.oldKey l.buf.bufKey with hlt | heq | hgt
    · -- the base key is stored, which leaves one pass too few for the buffered entries
      rw [if_pos hlt.le] at hold'
      rw [if_pos hlt] at hbuf'
      rw [bufRest_passes_of_ended hin hpages (hold' ▸ hended), MergeLocals.bufRest, hbuf',
        ← MergeLocals.bufRest, hentries, List.find?_cons_of_pos (by simpa using hlt.le)]
      refine iff_of_true (fun hnil => ?_) ⟨_, rfl, hlt⟩
      have hlen := List.drop_eq_nil_iff.mp hnil
      rw [List.length_cons] at hlen
      omega
    · -- the base key is dropped with the buffered one
      rw [if_pos heq.le] at hold'
      rw [if_neg heq.not_lt] at hbuf'
      rw [bufRest_passes_of_ended hin hpages (hold' ▸ hended), MergeLocals.bufRest, hbuf', hnext,
        List.drop_length, List.find?_cons_of_pos (by simpa using heq.le)]
      refine iff_of_false (fun hne => hne rfl) ?_
      rintro ⟨k, hfind, hlt⟩
      obtain rfl := Option.some.inj hfind
      exact hlt.ne heq
    · -- the base key stays in front
      rw [if_neg (not_le.mpr hgt)] at hold'
      rw [if_neg hgt.not_gt] at hbuf'
      have hrest : (idx.mergePass bounds l).2.bufRest idx bounds = entries := by
        rw [MergeLocals.bufRest, hbuf', hnext]
      rw [List.find?_cons_of_neg (by simpa using hgt), ← hold']
      rw [← hold'] at hold hpast
      exact ih hpages hold hpast hrest

end Passes

namespace DramIndex

variable {idx : DramIndex BufPage OptNode} {t : ℕ}

/-- The last slice has base entries unless the pages before its own cover the base array. -/
theorem posCut_eq_totalSize_iff (idx : DramIndex BufPage OptNode) :
    idx.posCut 31 = idx.totalSize ↔ idx.totalSize = 0 ∨ idx.totalSize = 248 := by
  have hpos : idx.posCut 31 = 8 * ((idx.totalSize / 8 + 1) / 32 * 31) :=
    posCut_of_lt (show 31 < mergeThreadNum by decide)
  omega

/-- Without base entries the last slice has a single page. -/
theorem bufSlice_last (h : idx.totalSize = 0 ∨ idx.totalSize = 248) :
    (idx.bufSlice 31).map Prod.fst = (idx.bufferPages (idx.totalSize / 8)).bufKey := by
  have hpage : idx.pageCut 31 = idx.totalSize / 8 := by
    have hcut : idx.pageCut 31 = (idx.totalSize / 8 + 1) / 32 * 31 :=
      pageCut_of_lt (show 31 < mergeThreadNum by decide)
    omega
  have hend : idx.pageCut (31 + 1) = idx.totalSize / 8 + 1 := pageCut_last idx
  rw [bufSlice, hpage, hend, pagesFrom_cons (Nat.lt_succ_self _), pagesFrom_of_le le_rfl,
    List.append_nil]
  exact List.map_fst_zip (BufPage.length_eq _).ge

/-- The last thread stays in the array only by a pass on a base key from behind the array. -/
theorem mergeReads_last_inside_iff (idx : DramIndex BufPage OptNode) :
    idx.PagesInside (idx.mergeReads 31) ↔
      (idx.totalSize = 0 ∨ idx.totalSize = 248) ∧
        ∃ k, (idx.bufferPages (idx.totalSize / 8)).bufKey.find?
            (fun k => idx.keys idx.totalSize ≤ k) = some k ∧ idx.keys idx.totalSize < k := by
  have ht : 31 < mergeThreadNum := by decide
  have hin := inside_boundsOf idx ht
  have hold := @startOf_old idx 31 ht
  have hrest := @oldRest_startOf idx 31 ht
  have hbuf := @bufRest_startOf idx 31 ht
  have hmax : (idx.boundsOf 31).maxOldInputSize = idx.totalSize := maxOldInputSize_eq idx ht
  have hops := @totalOps_eq idx 31 ht
  have hpages : (idx.startOf 31).buf.InPages idx := inPages_enterPage (by exact hin.page)
  rw [mergeReads_last_iff, ← posCut_eq_totalSize_iff]
  rcases Nat.lt_or_ge (idx.posCut 31) idx.totalSize with hlt | hge
  · -- with a base entry of its own the thread comes to the end of its buffered entries
    have hinv : SliceInv idx (idx.boundsOf 31) (idx.startOf 31) :=
      ⟨fun _ _ => by rw [hold, hmax]; exact hlt, hpages⟩
    rw [← hrest, ← hbuf] at hops
    have hend := hinv.passes_end hin hops
    refine iff_of_false (by rw [hend]; exact Bool.noConfusion) ?_
    rintro ⟨heq, -⟩
    exact hlt.ne heq
  · have heq : idx.posCut 31 = idx.totalSize := le_antisymm (cut_le_end idx ht.le).2 hge
    have hslice : idx.oldSlice 31 = [] := baseFrom_of_le hge
    have hpast := bufRest_passes_of_past hin hpages (by rw [hold])
      (by rw [hold, hmax]; exact Nat.le_succ_of_le hge)
    rw [hbuf, bufSlice_last ((posCut_eq_totalSize_iff idx).mp heq), hold, heq] at hpast
    rw [hslice, List.length_nil, Nat.zero_add] at hops
    rw [bufEndFlag_iff, hops, hpast, and_iff_right heq]

theorem mergeReads_inside_of_later (ht : t < 31) (hlater : idx.bufSlice 31 ≠ []) :
    idx.PagesInside (idx.mergeReads t) := by
  have ht' : t < mergeThreadNum := ht.trans (by decide)
  have hin := inside_boundsOf idx ht'
  -- some page behind the thread's own has an entry
  have hbehind : ∀ p ≤ idx.pageCut 31, idx.pagesFrom p idx.numBufPages ≠ [] := by
    intro p hp
    rw [← pagesFrom_append hp (cut_le_end idx (by decide)).1]
    exact List.append_ne_nil_of_right_ne_nil _ hlater
  have hmax : (idx.boundsOf t).maxPageId ≤ idx.pageCut 31 := by
    rw [maxPageId_eq]
    exact (cut_mono idx ht (by decide)).1
  have hstart : idx.startPage t ≤ idx.pageCut 31 := by
    rw [startPage_eq ht']
    exact (cut_mono idx ht.le (by decide)).1
  have hfirst : idx.startPage t ≤ idx.numBufPages :=
    hstart.trans (cut_le_end idx (by decide)).1
  rw [mergeReads, pagesInside_append, enterReads_inside, nextPage_lt_iff hfirst]
  refine ⟨hbehind _ hstart, ?_⟩
  exact (passesReads_inside_of_later hin (hbehind _ hmax) below_enterPage _).1

/-- The merge stays in the page array exactly if the last thread has no base entries and, in its
one page, the first key not below the word behind the base array is above it. -/
theorem mergeReads_inside_iff (idx : DramIndex BufPage OptNode) :
    (∀ t < mergeThreadNum, ∀ page ∈ idx.mergeReads t, page < idx.numBufPages) ↔
      (idx.totalSize = 0 ∨ idx.totalSize = 248) ∧
        ∃ k, (idx.bufferPages (idx.totalSize / 8)).bufKey.find?
            (fun k => idx.keys idx.totalSize ≤ k) = some k ∧ idx.keys idx.totalSize < k := by
  rw [← mergeReads_last_inside_iff]
  constructor
  · intro h
    exact h 31 (by decide)
  · intro h t ht
    rcases Nat.lt_or_ge t 31 with hlt | hge
    · apply mergeReads_inside_of_later hlt
      obtain ⟨hsize, k, hfind, -⟩ := (mergeReads_last_inside_iff idx).mp h
      intro hnil
      have hkeys := bufSlice_last hsize
      rw [hnil] at hkeys
      rw [← hkeys] at hfind
      exact absurd hfind nofun
    · obtain rfl : t = 31 := le_antisymm (Nat.le_of_lt_succ ht) hge
      exact h

/-- One key in the second of five pages: the last thread reads the sixth. -/
theorem mergeReads_nineteen :
    (evensWith 19).numBufPages = 5 ∧ 5 ∈ (evensWith 19).mergeReads 31 ∧
      ¬ ∀ t < mergeThreadNum, ∀ page ∈ (evensWith 19).mergeReads t,
        page < (evensWith 19).numBufPages := by
  have hread : 5 ∈ (evensWith 19).mergeReads 31 := by decide +kernel
  exact ⟨rfl, hread, fun h => absurd (h 31 (by decide) 5 hread) (by decide)⟩

/-- The insert guard keeps the last page empty: over guarded pages every merge leaves the array. -/
theorem mergeReads_leave_of_guarded (h : PagesGuarded idx) :
    ¬ idx.PagesInside (idx.mergeReads 31) := by
  rw [mergeReads_last_inside_iff]
  rintro ⟨-, k, hfind, -⟩
  obtain ⟨hnext, -⟩ := h.guarded _ (Nat.lt_succ_self _) k (List.mem_of_find?_eq_some hfind)
  exact absurd hnext (Nat.not_lt.mpr (Nat.le_succ _))

end DramIndex

section Schedule

open DramIndex

variable (idx : DramIndex BufPage OptNode)

/-- The pages that thread `t`'s next step reads for its merge. -/
def MergeSystem.nextReads (s : MergeSystem) (t : Fin mergeThreadNum) : List ℕ :=
  let th := s.threads t
  match th.pc with
  | .first => idx.enterReads (idx.endPage t) (idx.startPage t)
  | .merge => if th.targets < th.bounds.totalOps then idx.passReads th.bounds th.vars else []
  | _ => []

variable {idx}

theorem subset_passesReads {bounds : MergeBounds} {l : MergeLocals} {n m : ℕ} (h : n < m) :
    idx.passReads bounds (idx.mergePasses bounds l n).2 ⊆ idx.passesReads bounds l m := by
  induction m, h using Nat.le_induction with
  | base => exact List.subset_append_right _ _
  | succ m _ ih => exact List.subset_append_of_subset_left _ ih

/-- In every schedule a thread reads the pages of its own passes. -/
theorem nextReads_subset (idx : DramIndex BufPage OptNode)
    (schedule : List (Fin mergeThreadNum)) (t : Fin mergeThreadNum) :
    (mergeRun idx schedule).nextReads idx t ⊆ idx.mergeReads t := by
  have ht := (mergeInv_run idx schedule).threads t
  rw [MergeSystem.nextReads]
  generalize (mergeRun idx schedule).threads t = th at ht ⊢
  cases hpc : th.pc with
  | first => exact List.subset_append_left _ _
  | merge =>
    obtain ⟨hbounds, hvars, -⟩ := ht.vars hpc
    simp only [hbounds, hvars]
    split_ifs with hlt
    · exact List.subset_append_of_subset_right _ (subset_passesReads hlt)
    · exact List.nil_subset _
  | _ => exact List.nil_subset _

end Schedule

end PimLex
