import PimLex.Mix
import PimLex.Tree.History

/-!
# The two insert paths

`mix_payload` inserts only where the DPU gave a position; an open answer falls
through the code for reads and updates. `insert_payload` searches on the host
instead. The two part at the first open request whose guard passes, unless its
page is full and its tree has nothing to do.
-/

namespace PimLex

open Search BulkInput

namespace OptNode

/-- An insertion of the key leaves the tree as it is: the descent stops at a first key, or ends
in a leaf with room that holds the key. A leaf with too many keys trips the assertion. -/
def Absorbs : OptNode → DTYPE → Prop
  | .leaf es, k => childNum < es.length ∨ (es.length < childNum ∧ searchLeaf es k = true)
  | .inner keys pointers, k =>
    k ≤ keys 0 ∨ ∀ pos, childIndex keys k = some pos → (pointers pos).Absorbs k

variable {t : OptNode} {es : List (DTYPE × StringPayload)} {k : DTYPE} {v : StringPayload}

/-- A leaf with room changes unless its search finds the key. -/
theorem insertLeaf_eq_self_iff (hlen : es.length < childNum) :
    (∃ ret es', insertLeaf es k v = .ok (ret, es') ∧ (es' = es ↔ searchLeaf es k = true)) := by
  by_cases hne : es.length ≠ 0
  · by_cases hhit : lowerBound es k < es.length ∧ keyAt es (lowerBound es k) = k
    · -- the search finds the key, and the insertion returns at once
      exact ⟨false, es, by simp only [insertLeaf, if_pos hlen, if_pos hne, if_pos hhit],
        by simp [searchLeaf, hne, hhit]⟩
    · -- the key is put in at its lower bound, so the leaf gets longer
      refine ⟨true, _, by simp only [insertLeaf, if_pos hlen, if_pos hne, if_neg hhit]; rfl, ?_⟩
      simp only [searchLeaf, if_pos hne, decide_eq_true_eq, iff_false_intro hhit, iff_false]
      intro heq
      have hlength := congrArg List.length heq
      simp only [List.length_append, List.length_take, List.length_cons,
        List.length_drop] at hlength
      omega
  · refine ⟨true, [(k, v)], by simp only [insertLeaf, if_pos hlen, if_neg hne], ?_⟩
    have hnil : es = [] := List.length_eq_zero_iff.mp (not_not.mp hne)
    simp [searchLeaf, hnil]

theorem standing_insert_eq_self_iff : InsertOps.standing.insert t k v = t ↔ t.Absorbs k := by
  induction t with
  | leaf es =>
    rcases lt_trichotomy es.length childNum with hlt | hfull | hgt
    · obtain ⟨ret, es', hins, hiff⟩ := insertLeaf_eq_self_iff (k := k) (v := v) hlt
      simp only [InsertOps.standing, insert, if_neg hlt.ne, hins, bind, Except.bind, Absorbs,
        leaf.injEq, hiff]
      simp [hlt, hlt.not_gt]
    · -- a full leaf becomes an inner node
      obtain ⟨pointers, hsplit⟩ := historyStep_full (k := k) (p := v) hfull
      have hinner : InsertOps.standing.insert (leaf es) k v = inner (splitKeys es) pointers :=
        hsplit
      rw [hinner]
      simp [Absorbs, hfull]
    · have hassert : insertLeaf es k v = .error .countAssert := if_neg hgt.not_gt
      simp only [InsertOps.standing, insert, if_neg hgt.ne', hassert, bind, Except.bind, Absorbs,
        hgt, true_or]
  | inner keys pointers ih =>
    by_cases h0 : k ≤ keys 0
    · exact iff_of_true (by simp only [InsertOps.standing, insert, if_pos h0]) (Or.inl h0)
    · cases hpos : childIndex keys k with
      | none => simp [InsertOps.standing, insert, h0, hpos, Absorbs]
      | some pos =>
        specialize ih pos
        simp only [Absorbs, h0, false_or, hpos, Option.some.injEq, forall_eq', ← ih]
        simp only [InsertOps.standing, insert, if_neg h0, hpos]
        -- the node changes exactly if the child on the path does
        cases hchild : (pointers pos).insert k v with
        | error f => simp [bind, Except.bind]
        | ok r =>
          simp only [bind, Except.bind, inner.injEq, true_and]
          constructor
          · intro heq
            rw [← congrFun heq pos, Function.update_self]
          · intro heq
            rw [heq, Function.update_eq_self]

end OptNode

namespace DramIndex

variable {idx : DramIndex BufPage OptNode} {ipos partitionId : ℕ} {key : DTYPE}

/-- The guard of an insertion passes, and the page or the tree has to change for the key. -/
structure Changes (idx : DramIndex BufPage OptNode) (ipos partitionId : ℕ) (key : DTYPE) :
    Prop where
  pos : ipos < idx.partialTotalSize - 1
  low : idx.partialKeys ipos ≤ key
  high : idx.partialKeys (ipos + 1) > key
  buffers : (idx.bufferPages ipos).pageCount < bufSize ∨
    ¬ (idx.optOverflowTrees partitionId).Absorbs key

/-- The pages and trees of two indexes are the same. -/
def SameBuffers (idx idx' : DramIndex BufPage OptNode) : Prop :=
  idx.bufferPages = idx'.bufferPages ∧ idx.optOverflowTrees = idx'.optOverflowTrees

/-- An insertion that passes its guard leaves both buffers alone only if the page is full and
the tree absorbs the key. -/
theorem guardedInsert_same_iff :
    SameBuffers idx (idx.guardedInsert .standing ipos partitionId key) ↔
      ¬ idx.Changes ipos partitionId key := by
  by_cases hguard : ipos < idx.partialTotalSize - 1 ∧ idx.partialKeys ipos ≤ key ∧
      idx.partialKeys (ipos + 1) > key
  · obtain ⟨hpos, hlow, hhigh⟩ := hguard
    rw [guardedInsert, if_pos ⟨hpos, hlow, hhigh⟩]
    cases hins : ((idx.bufferPages ipos).insertPage key (.ofByte 99)).1 with
    | true =>
      -- a page with room takes the key
      have hroom := BufPage.insertPage_fst.mp hins
      rw [BulkInput.placeInPage_room hins]
      refine iff_of_false (fun hsame => ?_) (not_not.mpr ⟨hpos, hlow, hhigh, Or.inl hroom⟩)
      have hpage := congrArg BufPage.pageCount (Function.eq_update_self_iff.mp hsame.1)
      rw [BufPage.pageCount_insertPage hins] at hpage
      omega
    | false =>
      -- a full page hands the key to the tree
      have hfull := mt BufPage.insertPage_fst.mpr (Bool.not_eq_true _ ▸ hins)
      rw [BulkInput.placeInPage_full hins, SameBuffers]
      simp only [true_and]
      rw [Function.eq_update_self_iff, eq_comm, OptNode.standing_insert_eq_self_iff]
      refine ⟨fun habs hchange => hchange.buffers.elim hfull (· habs), fun hnot => ?_⟩
      by_contra habs
      exact hnot ⟨hpos, hlow, hhigh, Or.inr habs⟩
  · rw [guardedInsert, if_neg hguard]
    exact iff_of_true ⟨rfl, rfl⟩ fun hchange => hguard ⟨hchange.pos, hchange.low, hchange.high⟩

theorem guardedInsert_eq_of_same
    (h : SameBuffers idx (idx.guardedInsert .standing ipos partitionId key)) :
    idx.guardedInsert .standing ipos partitionId key = idx := by
  rw [guardedInsert_frame, ← h.1, ← h.2]

end DramIndex

/-- The standing insertions beside any reads and updates, which an insertion never calls. -/
def MixOps.inserting (ops : MixOps BufPage OptNode) : MixOps BufPage OptNode where
  toReadOps := ops.toReadOps
  toInsertOps := .standing
  updateKeyPage := ops.updateKeyPage
  update := ops.update

namespace MixState

variable {ops : MixOps BufPage OptNode} {lvl : DramLevel} {pgm : ℕ → DTYPE → ℕ × ℕ}
  {st : MixState BufPage OptNode} {r : Request} {batch : List Request}

/-- `mix_payload` on a list of insertions. -/
def mixInserts (ops : MixOps BufPage OptNode) (lvl : DramLevel) (pgm : ℕ → DTYPE → ℕ × ℕ)
    (st : MixState BufPage OptNode) (batch : List Request) : MixState BufPage OptNode :=
  batch.foldl (fun st r => st.mixPayload ops lvl pgm .insert r.dpu r.key r.answer) st

/-- An open answer sends an insertion through code that has no branch for it. -/
theorem mixPayload_open (h : r.answer = invaildPos) :
    st.mixPayload ops lvl pgm .insert r.dpu r.key r.answer = st := by
  have hdirect : st.idx.directScan r.key r.answer = none := if_neg (not_not.mpr h)
  have hbuffered : ∀ ipos q, st.buffered ops .insert ipos q r.key = (true, st) := fun _ _ => rfl
  have hcheck : st.dramCheck ops lvl pgm .insert r.dpu r.key r.answer = st := by
    rw [dramCheck]
    cases st.idx.scanBlock (DramIndex.curKeyOff (st.idx.fallbackBound lvl pgm r.key)) r.key with
    | some k => rfl
    | none => simp only [hbuffered, ite_self]
  rw [mixPayload, if_neg (fun hne => hne.1 h), hdirect]
  simp only [hbuffered, ite_self, hcheck]

theorem mixPayload_answered (h : r.answer ≠ invaildPos) :
    (st.mixPayload ops lvl pgm .insert r.dpu r.key r.answer).idx =
      st.idx.insertPayload ops.toInsertOps lvl pgm r := by
  rw [mixPayload, if_pos ⟨h, rfl⟩, DramIndex.insertPayload, DramIndex.insertPos, if_pos h]

end MixState

/-- The two insert paths agree after each request of a list exactly when every open request
comes to a state that `insert_payload` does not have to change for it. -/
theorem insert_paths_agree_iff (ops : MixOps BufPage OptNode) (lvl : DramLevel)
    (pgm : ℕ → DTYPE → ℕ × ℕ) (st : MixState BufPage OptNode) (batch : List Request) :
    (∀ pre post, batch = pre ++ post →
      DramIndex.SameBuffers
        (st.mixInserts ops.inserting lvl pgm pre).idx
        (st.idx.insertBatch .standing lvl pgm pre)) ↔
      ∀ pre r post, batch = pre ++ r :: post → r.answer = invaildPos →
        let idx := st.idx.insertBatch .standing lvl pgm pre
        ¬ idx.Changes (idx.insertPos lvl pgm r.key r.answer) (lvl.dpuIdToPartition r.dpu)
          r.key := by
  have hmix : ∀ pre r, st.mixInserts ops.inserting lvl pgm (pre ++ [r]) =
      (st.mixInserts ops.inserting lvl pgm pre).mixPayload
        ops.inserting lvl pgm .insert r.dpu r.key r.answer :=
    fun pre r => List.foldl_concat _ _ _ _
  have hins : ∀ pre r, st.idx.insertBatch .standing lvl pgm (pre ++ [r]) =
      (st.idx.insertBatch .standing lvl pgm pre).insertPayload .standing lvl pgm r :=
    fun pre r => List.foldl_concat _ _ _ _
  constructor
  · intro h pre r post heq hopen idx
    -- the mixed path stands still for an open request, so the other one does too
    have hbefore := h pre (r :: post) heq
    have hafter := h (pre ++ [r]) post (by rw [heq, List.append_assoc]; rfl)
    rw [hmix, MixState.mixPayload_open hopen, hins] at hafter
    exact DramIndex.guardedInsert_same_iff.mp
      ⟨hbefore.1.symm.trans hafter.1, hbefore.2.symm.trans hafter.2⟩
  · intro h
    have hall : ∀ pre post, batch = pre ++ post →
        (st.mixInserts ops.inserting lvl pgm pre).idx =
          st.idx.insertBatch .standing lvl pgm pre := by
      intro pre
      induction pre using List.reverseRecOn with
      | nil => exact fun _ _ => rfl
      | append_singleton pre r ih =>
        intro post heq
        have heq' : batch = pre ++ r :: post := by rw [heq, List.append_assoc]; rfl
        rw [hmix, hins, ← ih _ heq']
        by_cases hopen : r.answer = invaildPos
        · -- an open request changes neither side, here by assumption
          rw [MixState.mixPayload_open hopen, ih _ heq']
          have hsame := DramIndex.guardedInsert_same_iff.mpr (h pre r post heq' hopen)
          exact (DramIndex.guardedInsert_eq_of_same hsame).symm
        · exact MixState.mixPayload_answered hopen
    intro pre post heq
    rw [hall pre post heq]
    exact ⟨rfl, rfl⟩

/-- Key 5, left to the host as every key of a one-block slice, is stored on one path only. -/
theorem insert_paths_kibi_five :
    kibi.Handed (fun _ => 1) ⟨0, 5, invaildPos⟩ 0 ∧ ∀ ops : MixOps BufPage OptNode,
      let st : MixState BufPage OptNode := ⟨kibi.bulkLoad, .ofByte 0, .ofByte 48, []⟩
      ¬ DramIndex.SameBuffers
        (st.mixInserts ops.inserting (kibi.level (fun _ => 1) .init)
          kibi.wholeSlice [⟨0, 5, invaildPos⟩]).idx
        (st.idx.insertBatch .standing (kibi.level (fun _ => 1) .init) kibi.wholeSlice
          [⟨0, 5, invaildPos⟩]) := by
  have hr : kibi.Handed (fun _ => 1) ⟨0, 5, invaildPos⟩ 0 :=
    handed_kibi (by decide) ⟨by decide, by decide, by decide⟩ ⟨by decide, by decide⟩
  refine ⟨hr, ?_⟩
  intro ops st hsame
  have hpos : kibi.bulkLoad.insertPos (kibi.level (fun _ => 1) .init) kibi.wholeSlice 5
      invaildPos = 0 := by
    have hrank : kibi.coveredRank 5 = 0 + 1 :=
      (coveredRank_eq_succ_iff (by decide)).mpr ⟨by decide, by decide⟩
    have hlow : (5 : DTYPE) < kibi.insertBound := by decide
    apply (hr.insertPos_eq (Over.bulkLoad kibi) kibi.brackets_wholeSlice).trans
    rw [if_neg (not_clamped_of_lt_insertBound hlow), hrank]
  rw [MixState.mixInserts, List.foldl_cons, List.foldl_nil,
    MixState.mixPayload_open (r := ⟨0, 5, invaildPos⟩) rfl] at hsame
  apply DramIndex.guardedInsert_same_iff.mp hsame
  rw [hpos]
  exact ⟨by decide, by decide, by decide, Or.inl (by decide)⟩

end PimLex
