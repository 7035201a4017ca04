import PimLex.Merge.Cursor
import PimLex.Search.TwoWay

/-!
# The loop on one slice

Without a key on both sides a pass is one step of the two-way merge of what the
cursors have left, so as many passes as there are entries store the merge of the
slice, in order, from the first slot on.
-/

namespace PimLex

open Search

/-- Entries are compared by their keys. -/
def keyLe (a b : Entry) : Bool := decide (a.1 ≤ b.1)

/-- The stores of the entries into consecutive slots from `off` on. -/
def writesFrom (off : ℕ) (entries : List Entry) : List MergeEvent :=
  (entries.zipIdx off).map fun x => .write x.2 x.1

theorem writesFrom_concat (off : ℕ) (entries : List Entry) (e : Entry) :
    writesFrom off (entries ++ [e]) =
      writesFrom off entries ++ [.write (off + entries.length) e] := by
  simp [writesFrom, List.zipIdx_append]

section Pass

variable (idx : DramIndex BufPage OptNode) (bounds : MergeBounds) (l : MergeLocals)

/-- A pass stores the base entry, or the buffered entry, or nothing. An update fetches on both
sides. -/
theorem mergePass_cases :
    (∃ stop, l.old.oldEndFlag = false ∧
      (l.buf.bufEndFlag = false →
        l.old.oldKey < l.buf.bufKey ∧ stop = bounds.maxOldInputSize) ∧
      (stop = bounds.maxOldInputSize ∨ stop = idx.totalSize) ∧
      idx.mergePass bounds l = (.write l.curNewOff (l.old.oldKey, l.old.oldValue),
        ⟨idx.fetchOld stop l.old, l.buf, (l.curNewOff + 1) % word⟩)) ∨
    (∃ old', l.buf.bufEndFlag = false ∧
      (l.old.oldEndFlag = false → l.buf.bufKey ≤ l.old.oldKey) ∧
      (old' = l.old ∨ l.old.oldEndFlag = false ∧ l.old.oldKey = l.buf.bufKey ∧
        old' = idx.fetchOld bounds.maxOldInputSize l.old) ∧
      idx.mergePass bounds l = (.write l.curNewOff (l.buf.bufKey, l.buf.bufValue),
        ⟨old', idx.fetchBuf bounds.maxPageId l.buf, (l.curNewOff + 1) % word⟩)) ∨
    (l.old.oldEndFlag = true ∧ l.buf.bufEndFlag = true ∧
      idx.mergePass bounds l = (.error, l)) := by
  obtain ⟨old, buf, curNewOff⟩ := l
  unfold DramIndex.mergePass
  cases hold : old.oldEndFlag <;> cases hbuf : buf.bufEndFlag
  · by_cases hlt : old.oldKey < buf.bufKey
    · left
      refine ⟨bounds.maxOldInputSize, rfl, fun _ => ⟨hlt, rfl⟩, Or.inl rfl, ?_⟩
      simp only [hold, hbuf, if_pos hlt]
    · right; left
      by_cases heq : old.oldKey = buf.bufKey
      · refine ⟨_, rfl, fun _ => heq.ge, Or.inr ⟨rfl, heq, rfl⟩, ?_⟩
        simp only [hold, hbuf, if_neg hlt, if_pos heq]
      · refine ⟨old, rfl, fun _ => Nat.le_of_not_lt hlt, Or.inl rfl, ?_⟩
        simp only [hold, hbuf, if_neg hlt, if_neg heq]
  · left
    refine ⟨idx.totalSize, rfl, nofun, Or.inr rfl, ?_⟩
    simp only [hold, hbuf]
  · right; left
    refine ⟨old, rfl, nofun, Or.inl rfl, ?_⟩
    simp only [hold, hbuf]
  · right; right
    refine ⟨rfl, rfl, ?_⟩
    simp only [hold, hbuf]

end Pass

section Buffer

variable {idx : DramIndex BufPage OptNode} {buf : BufCursor} {stop : ℕ}

/-- A loaded buffer cursor is inside the page array. -/
def BufCursor.InPages (idx : DramIndex BufPage OptNode) (buf : BufCursor) : Prop :=
  buf.bufEndFlag = false → buf.pageId < idx.numBufPages

/-- A loaded buffer cursor is before page `stop`. -/
def BufCursor.Below (stop : ℕ) (buf : BufCursor) : Prop :=
  buf.bufEndFlag = false → buf.pageId < stop

theorem below_enterPage : (idx.enterPage stop buf).Below stop := by
  intro hend
  rw [DramIndex.enterPage] at hend ⊢
  simp only at hend ⊢
  split_ifs at hend ⊢ with hlt
  exact hlt

theorem below_fetchBuf (h : buf.Below stop) (hend : buf.bufEndFlag = false) :
    (idx.fetchBuf stop buf).Below stop := by
  rw [DramIndex.fetchBuf]
  split_ifs
  · exact fun _ => h hend
  · exact below_enterPage

theorem inPages_enterPage (hstop : stop ≤ idx.numBufPages) :
    (idx.enterPage stop buf).InPages idx :=
  fun hend => (below_enterPage hend).trans_le hstop

theorem inPages_fetchBuf (hstop : stop ≤ idx.numBufPages) (h : buf.InPages idx)
    (hend : buf.bufEndFlag = false) : (idx.fetchBuf stop buf).InPages idx := by
  rw [DramIndex.fetchBuf]
  split_ifs with hlt
  · exact fun _ => h hend
  · exact inPages_enterPage hstop

end Buffer

/-- The bounds of a slice lie inside the arrays. -/
structure MergeBounds.Inside (idx : DramIndex BufPage OptNode) (bounds : MergeBounds) : Prop where
  page : bounds.maxPageId ≤ idx.numBufPages
  old : bounds.maxOldInputSize ≤ idx.totalSize

/-- While both sides are live, the loaded base entry belongs to the slice. -/
structure SliceInv (idx : DramIndex BufPage OptNode) (bounds : MergeBounds) (l : MergeLocals) :
    Prop where
  live : l.buf.bufEndFlag = false → l.old.oldEndFlag = false →
    l.old.curOldOff ≤ bounds.maxOldInputSize
  inPages : l.buf.InPages idx

section Slice

variable (idx : DramIndex BufPage OptNode) (bounds : MergeBounds)

/-- What the base side still delivers. -/
def MergeLocals.oldRest (l : MergeLocals) : List Entry := l.old.rest idx bounds.maxOldInputSize

/-- What the buffer side still delivers. -/
def MergeLocals.bufRest (l : MergeLocals) : List Entry := l.buf.rest idx bounds.maxPageId

variable {idx bounds} {l : MergeLocals}

theorem live_fetchOld
    (h : (idx.fetchOld bounds.maxOldInputSize l.old).oldEndFlag = false) :
    (idx.fetchOld bounds.maxOldInputSize l.old).curOldOff ≤ bounds.maxOldInputSize := by
  rw [DramIndex.fetchOld] at h ⊢
  split_ifs at h ⊢ with hlt
  exact hlt

/-- Taking the base entry, which is below the buffered one, is a step of the merge. -/
theorem mergeStep_old (hin : bounds.Inside idx) {stop : ℕ} (hold : l.old.oldEndFlag = false)
    (hcur : l.old.curOldOff ≤ bounds.maxOldInputSize)
    (hlt : l.buf.bufEndFlag = false → l.old.oldKey < l.buf.bufKey)
    (hstop : stop = bounds.maxOldInputSize ∨ stop = idx.totalSize) :
    MergeStep keyLe (l.oldRest idx bounds) (l.bufRest idx bounds) (l.old.oldKey, l.old.oldValue)
      ((idx.fetchOld stop l.old).rest idx bounds.maxOldInputSize) (l.bufRest idx bounds) := by
  have hbound : bounds.maxOldInputSize ≤ stop := by
    rcases hstop with rfl | rfl
    · exact le_rfl
    · exact hin.old
  rw [rest_fetchOld hold hbound, MergeLocals.oldRest, OldCursor.rest_live hold hcur]
  apply MergeStep.left
  intro b hb
  cases hbuf : l.buf.bufEndFlag with
  | true =>
    rw [MergeLocals.bufRest, BufCursor.rest_ended hbuf] at hb
    exact absurd hb (by simp)
  | false =>
    rw [MergeLocals.bufRest, BufCursor.rest_live hbuf, List.head?_cons,
      Option.mem_some_iff] at hb
    subst hb
    exact decide_eq_true (hlt hbuf).le

/-- Taking the buffered entry, which is below the base one, is a step of the merge. -/
theorem mergeStep_buf (hin : bounds.Inside idx) (hpages : l.buf.InPages idx)
    (hbuf : l.buf.bufEndFlag = false)
    (hlive : l.old.oldEndFlag = false → l.old.curOldOff ≤ bounds.maxOldInputSize)
    (hlt : l.old.oldEndFlag = false → l.buf.bufKey < l.old.oldKey) :
    MergeStep keyLe (l.oldRest idx bounds) (l.bufRest idx bounds) (l.buf.bufKey, l.buf.bufValue)
      (l.oldRest idx bounds) ((idx.fetchBuf bounds.maxPageId l.buf).rest idx bounds.maxPageId) := by
  rw [rest_fetchBuf hbuf (hpages hbuf) hin.page, MergeLocals.bufRest, BufCursor.rest_live hbuf]
  apply MergeStep.right
  intro a ha
  cases hold : l.old.oldEndFlag with
  | true =>
    rw [MergeLocals.oldRest, OldCursor.rest_ended hold] at ha
    exact absurd ha (by simp)
  | false =>
    rw [MergeLocals.oldRest, OldCursor.rest_live hold (hlive hold), List.head?_cons,
      Option.mem_some_iff] at ha
    subst ha
    exact decide_eq_false (not_le.mpr (hlt hold))

/-- On disjoint sides a pass is a step of their merge. -/
theorem SliceInv.pass (h : SliceInv idx bounds l) (hin : bounds.Inside idx)
    (hne : l.oldRest idx bounds ≠ [] ∨ l.bufRest idx bounds ≠ [])
    (hdisj : ∀ a ∈ l.oldRest idx bounds, ∀ b ∈ l.bufRest idx bounds, a.1 ≠ b.1) :
    ∃ e l', idx.mergePass bounds l = (.write l.curNewOff e, l') ∧
      MergeStep keyLe (l.oldRest idx bounds) (l.bufRest idx bounds) e (l'.oldRest idx bounds)
        (l'.bufRest idx bounds) ∧
      l'.curNewOff = (l.curNewOff + 1) % word ∧ SliceInv idx bounds l' := by
  rcases mergePass_cases idx bounds l with
    ⟨stop, hold, hlt, hstop, heq⟩ | ⟨old', hbuf, hle, hold', heq⟩ | ⟨hold, hbuf, -⟩
  · -- the base entry is next
    have hcur : l.old.curOldOff ≤ bounds.maxOldInputSize := by
      cases hbuf : l.buf.bufEndFlag with
      | false => exact h.live hbuf hold
      | true =>
        -- past its slice the old side has nothing left, and here the buffer side has not either
        by_contra hpast
        rcases hne with hne | hne
        · exact hne (OldCursor.rest_past (Nat.lt_of_not_le hpast))
        · exact hne (BufCursor.rest_ended hbuf)
    refine ⟨_, _, heq, mergeStep_old hin hold hcur (fun hbuf => (hlt hbuf).1) hstop, rfl,
      fun hbuf hend => ?_, h.inPages⟩
    obtain ⟨-, rfl⟩ := hlt hbuf
    exact live_fetchOld hend
  · -- the buffered entry is next
    have hne : l.old.oldEndFlag = false → l.old.oldKey ≠ l.buf.bufKey := by
      intro hold
      refine hdisj (l.old.oldKey, l.old.oldValue) ?_ (l.buf.bufKey, l.buf.bufValue) ?_
      · rw [MergeLocals.oldRest, OldCursor.rest_live hold (h.live hbuf hold)]
        exact List.mem_cons_self
      · rw [MergeLocals.bufRest, BufCursor.rest_live hbuf]
        exact List.mem_cons_self
    obtain rfl : old' = l.old := hold'.resolve_right fun ⟨hold, hkey, _⟩ => hne hold hkey
    exact ⟨_, _, heq, mergeStep_buf hin h.inPages hbuf (h.live hbuf)
      (fun hold => lt_of_le_of_ne (hle hold) (hne hold).symm), rfl,
      fun _ hend => h.live hbuf hend, inPages_fetchBuf hin.page h.inPages hbuf⟩
  · -- with both ends reached nothing is left
    rcases hne with hne | hne
    · exact absurd (OldCursor.rest_ended hold) hne
    · exact absurd (BufCursor.rest_ended hbuf) hne

/-- After some passes the merge of the slice has been stored so far, and what the cursors have
left is the rest of it. -/
theorem SliceInv.passes (h : SliceInv idx bounds l) (hin : bounds.Inside idx)
    (hdisj : ∀ a ∈ l.oldRest idx bounds, ∀ b ∈ l.bufRest idx bounds, a.1 ≠ b.1) (m : ℕ)
    (hm : m ≤ (l.oldRest idx bounds).length + (l.bufRest idx bounds).length)
    (hword : l.curNewOff + m < word) :
    ∃ done l', idx.mergePasses bounds l m = (writesFrom l.curNewOff done, l') ∧
      done.length = m ∧ l'.curNewOff = l.curNewOff + m ∧ SliceInv idx bounds l' ∧
      l'.oldRest idx bounds ⊆ l.oldRest idx bounds ∧
      l'.bufRest idx bounds ⊆ l.bufRest idx bounds ∧
      (l.oldRest idx bounds).merge (l.bufRest idx bounds) keyLe =
        done ++ (l'.oldRest idx bounds).merge (l'.bufRest idx bounds) keyLe := by
  induction m with
  | zero => exact ⟨[], l, rfl, rfl, rfl, h, List.Subset.refl _, List.Subset.refl _, rfl⟩
  | succ m ih =>
    obtain ⟨done, l', hrun, hlen, hcur, h', hold, hbuf, hmerge⟩ := ih (by omega) (by omega)
    -- fewer entries than the slice has are stored, so a cursor still has one
    have hlength := congrArg List.length hmerge
    rw [List.length_append, List.length_merge, List.length_merge, hlen] at hlength
    have hne : l'.oldRest idx bounds ≠ [] ∨ l'.bufRest idx bounds ≠ [] := by
      by_contra hnil
      rw [not_or, not_not, not_not] at hnil
      rw [hnil.1, hnil.2, List.length_nil] at hlength
      omega
    obtain ⟨e, l'', hpass, hstep, hcur', h''⟩ :=
      h'.pass hin hne fun a ha b hb => hdisj a (hold ha) b (hbuf hb)
    refine ⟨done ++ [e], l'', ?_, ?_, ?_, h'', List.Subset.trans hstep.subset.1 hold,
      List.Subset.trans hstep.subset.2 hbuf, ?_⟩
    · rw [DramIndex.mergePasses, hrun]
      simp only [hpass, writesFrom_concat, hlen, hcur]
    · rw [List.length_append, hlen, List.length_singleton]
    · rw [hcur', hcur, Nat.add_assoc, Nat.mod_eq_of_lt hword]
    · rw [hmerge, hstep.merge_eq, List.append_assoc, List.singleton_append]

/-- As many passes as the slice has entries store its merge. -/
theorem SliceInv.passes_all (h : SliceInv idx bounds l) (hin : bounds.Inside idx)
    (hdisj : ∀ a ∈ l.oldRest idx bounds, ∀ b ∈ l.bufRest idx bounds, a.1 ≠ b.1) {m : ℕ}
    (hm : m = (l.oldRest idx bounds).length + (l.bufRest idx bounds).length)
    (hword : l.curNewOff + m < word) :
    (idx.mergePasses bounds l m).1 =
      writesFrom l.curNewOff ((l.oldRest idx bounds).merge (l.bufRest idx bounds) keyLe) := by
  obtain ⟨done, l', hrun, hlen, -, -, -, -, hmerge⟩ := h.passes hin hdisj m hm.le hword
  have hlength := congrArg List.length hmerge
  rw [List.length_append, List.length_merge, hlen, ← hm] at hlength
  have hnil : (l'.oldRest idx bounds).merge (l'.bufRest idx bounds) keyLe = [] :=
    List.length_eq_zero_iff.mp (by omega)
  rw [hrun, hmerge, hnil, List.append_nil]

end Slice

end PimLex
