import PimLex.Scan
import PimLex.Tree.Collect
import PimLex.Transition.Trace

/-!
# What a scan visits

What a task stores before it sorts is a list that depends on the request and the
index only: the page keys in range, then every base key of the walk, and behind
the first key of a block the whole of its page above the lower bound. The tree
adds nothing. So a run of tasks leaves the array exactly when one of these lists
is longer than the array.
-/

namespace PimLex

open Search

namespace OptNode

variable {t : OptNode}

theorem helpGetDataWithinRange_inner (h : t.isLeaf = false) (lo hi : DTYPE) :
    t.helpGetDataWithinRange lo hi = 0 := by
  induction t with
  | leaf es => simp [isLeaf] at h
  | inner keys pointers ih =>
    rw [helpGetDataWithinRange]
    refine List.sum_eq_zero fun x hx => ?_
    obtain ⟨i, -, rfl⟩ := List.mem_map.mp hx
    cases hi : (pointers i).isLeaf with
    -- as in the other walk, only inner children are entered
    | true => rw [if_pos rfl]
    | false =>
      rw [if_neg (by simp)]
      exact ih i hi

/-- No tree adds to a scan. -/
theorem getAllDataWithinRange_eq_zero (t : OptNode) (lo hi : DTYPE) :
    t.getAllDataWithinRange lo hi = 0 := by
  cases h : t.isLeaf with
  | true => rw [getAllDataWithinRange, if_pos h]
  | false => rw [getAllDataWithinRange, if_neg (by simp [h]), helpGetDataWithinRange_inner h]

end OptNode

namespace DramIndex

variable (idx : DramIndex BufPage OptNode)

/-- What the walk stores at one base position. -/
def baseVisit (minKey : DTYPE) (curPos : ℕ) : List (DTYPE × StringPayload) :=
  (idx.keys curPos, idx.payloads curPos) ::
    if curPos % interleave = 0 then
      (idx.bufferPages (curPos / pageRatio)).entries.filter fun e => decide (e.1 > minKey)
    else []

/-- The test of the walk. -/
def Walks (minKey maxKey : DTYPE) (curPos : ℕ) : Prop :=
  curPos < idx.totalSize ∧ minKey ≤ idx.keys curPos ∧ idx.keys curPos < maxKey

instance (minKey maxKey : DTYPE) : DecidablePred (idx.Walks minKey maxKey) :=
  fun _ => inferInstanceAs (Decidable (_ ∧ _))

/-- The positions the walk passes. -/
def walked (minKey maxKey : DTYPE) (fuel curPos : ℕ) : List ℕ :=
  (List.range' curPos fuel).takeWhile fun c => decide (idx.Walks minKey maxKey c)

/-- The keys of the first page that lie in the range. -/
def firstVisit (r : ScanRequest) : List (DTYPE × StringPayload) :=
  (idx.bufferPages (r.answer / pageRatio)).entries.filter fun e =>
    decide (e.1 ≥ r.minKey ∧ e.1 < r.endKey)

/-- All that an answered task stores, in this order. -/
def visited (r : ScanRequest) : List (DTYPE × StringPayload) :=
  idx.firstVisit r ++
    (idx.walked r.minKey r.endKey (idx.totalSize - r.answer) r.answer).flatMap
      (idx.baseVisit r.minKey)

end DramIndex

namespace ScanLocals

variable {st st' : ScanLocals} {idx : DramIndex BufPage OptNode}
  {e : DTYPE × StringPayload} {l : List (DTYPE × StringPayload)} {minKey maxKey : DTYPE}

theorem length_found (st : ScanLocals) : st.found.length = st.curResultOff := by
  simp [found]

theorem store_eq_none (h : maxScanLength ≤ st.curResultOff) : st.store e = none :=
  if_neg (not_lt.mpr h)

/-- A store inside the array appends. -/
theorem store_eq_some (e : DTYPE × StringPayload) (h : st.curResultOff < maxScanLength) :
    ∃ st', st.store e = some st' ∧ st'.found = st.found ++ [e] ∧ st'.maxKey = st.maxKey := by
  exact ⟨_, if_pos h, Transition.map_range_update _ _ _, rfl⟩

theorem foldlM_store_eq_some (h : st.curResultOff + l.length ≤ maxScanLength) :
    ∃ st', l.foldlM store st = some st' ∧ st'.found = st.found ++ l ∧
      st'.maxKey = st.maxKey := by
  induction l generalizing st with
  | nil => exact ⟨st, rfl, (List.append_nil _).symm, rfl⟩
  | cons e l ih =>
    rw [List.length_cons] at h
    have hroom : st.curResultOff < maxScanLength := by omega
    obtain ⟨st₁, hstore, hfound, hmax⟩ := store_eq_some e hroom
    have hoff : st₁.curResultOff = st.curResultOff + 1 := by
      rw [← length_found, hfound, List.length_append, length_found, List.length_singleton]
    have hrest : st₁.curResultOff + l.length ≤ maxScanLength := by omega
    obtain ⟨st₂, hrest, hfound₂, hmax₂⟩ := ih hrest
    refine ⟨st₂, ?_, ?_, hmax₂.trans hmax⟩
    · rw [List.foldlM_cons, hstore]
      exact hrest
    · rw [hfound₂, hfound, List.append_assoc, List.singleton_append]

theorem foldlM_store_eq_none (hoff : st.curResultOff ≤ maxScanLength)
    (h : maxScanLength < st.curResultOff + l.length) : l.foldlM store st = none := by
  induction l generalizing st with
  | nil =>
    rw [List.length_nil] at h
    omega
  | cons e l ih =>
    rw [List.length_cons] at h
    rw [List.foldlM_cons]
    rcases Nat.lt_or_ge st.curResultOff maxScanLength with hlt | hge
    · obtain ⟨st₁, hstore, hfound, -⟩ := store_eq_some (e := e) hlt
      have hoff₁ : st₁.curResultOff = st.curResultOff + 1 := by
        rw [← length_found, hfound, List.length_append, length_found, List.length_singleton]
      rw [hstore]
      exact ih (by omega) (by omega)
    · -- the array is full
      rw [store_eq_none hge]
      rfl

theorem foldlM_store_maxKey (h : l.foldlM store st = some st') : st'.maxKey = st.maxKey := by
  induction l generalizing st with
  | nil =>
    rw [Option.some.inj h]
  | cons e l ih =>
    rw [List.foldlM_cons, Option.bind_eq_bind, Option.bind_eq_some_iff] at h
    obtain ⟨st₁, hstore, hrest⟩ := h
    rw [store] at hstore
    split_ifs at hstore
    rw [ih hrest, ← Option.some.inj hstore]

/-- The walk is a run of stores. -/
theorem scanBase_eq (idx : DramIndex BufPage OptNode) (minKey maxKey : DTYPE) :
    ∀ fuel curPos (st : ScanLocals), st.maxKey = maxKey →
      st.scanBase idx minKey fuel curPos =
        ((idx.walked minKey maxKey fuel curPos).flatMap
          (idx.baseVisit minKey)).foldlM store st := by
  intro fuel
  induction fuel with
  | zero => exact fun _ _ _ => rfl
  | succ fuel ih =>
    intro curPos st hst
    rw [DramIndex.walked, List.range'_succ, List.takeWhile_cons]
    by_cases hwalk : idx.Walks minKey maxKey curPos
    · simp only [hwalk, decide_true, if_true, List.flatMap_cons, List.foldlM_append]
      rw [scanBase, if_pos hwalk.1, if_pos (by rw [hst]; exact hwalk.2)]
      -- one turn of the loop stores one visit; it overruns with the visit or goes on from it
      cases hrun : (idx.baseVisit minKey curPos).foldlM store st with
      | none =>
        rw [DramIndex.baseVisit, List.foldlM_cons] at hrun
        -- the overrun is in the base key or in its page
        cases hstore : st.store (idx.keys curPos, idx.payloads curPos) with
        | none => rfl
        | some st₁ =>
          rw [hstore] at hrun
          change List.foldlM store st₁ _ = none at hrun
          split_ifs at hrun ⊢ with hblock
          · change (st₁.storePage _ _ >>= _) = none
            rw [storePage, hrun]
            rfl
          · exact absurd hrun (Option.some_ne_none _)
      | some st₂ =>
        have hrest := ih (curPos + 1) st₂ ((foldlM_store_maxKey hrun).trans hst)
        rw [DramIndex.baseVisit, List.foldlM_cons, Option.bind_eq_bind,
          Option.bind_eq_some_iff] at hrun
        obtain ⟨st₁, hstore, hpage⟩ := hrun
        rw [hstore]
        split_ifs at hpage ⊢ with hblock
        · change (st₁.storePage _ _ >>= _) = _
          rw [storePage, hpage]
          exact hrest
        · rw [← Option.some.inj hpage] at hrest ⊢
          exact hrest
    · -- the loop stops, by either of its two tests
      simp only [hwalk, decide_false, Bool.false_eq_true, if_false, List.flatMap_nil]
      rw [scanBase]
      by_cases hsize : curPos < idx.totalSize
      · rw [if_pos hsize, if_neg fun hkeys => hwalk ⟨hsize, by rwa [hst] at hkeys⟩]
        rfl
      · rw [if_neg hsize]
        rfl

variable {byKey : StdSort fun a b : DTYPE × StringPayload => decide (a.1 < b.1)}
  {lvl : DramLevel} {batch : ScanBatch} {partitionId : ℕ} {r : ScanRequest} {task : ℕ × ℕ}
  {tasks : List (ℕ × ℕ)}

/-- Overwriting all that was stored. -/
theorem found_getD (st : ScanLocals) (h : l.length = st.curResultOff) :
    ({ st with results := fun i => l.getD i (st.results i) } : ScanLocals).found = l := by
  refine List.ext_getElem (by rw [length_found, h]) fun i hi hi' => ?_
  simp only [found, List.getElem_map, List.getElem_range]
  rw [List.getD_eq_getElem?_getD, List.getElem?_eq_getElem hi', Option.getD_some]

theorem scanAnswered_eq : ScanLocals.scanAnswered byKey idx partitionId st r =
    ((idx.visited r).foldlM store { st with curResultOff := 0, maxKey := r.endKey }).map
      fun st => { st with results := fun i => (byKey.sort st.found).getD i (st.results i) } := by
  rw [scanAnswered, DramIndex.visited, List.foldlM_append]
  simp only [storePage, OptNode.getAllDataWithinRange_eq_zero, Nat.add_zero]
  change (idx.firstVisit r).foldlM store _ >>= _ = _
  cases hfirst : (idx.firstVisit r).foldlM store
      { st with curResultOff := 0, maxKey := r.endKey } with
  | none => rfl
  | some st₁ =>
    have hmax : st₁.maxKey = r.endKey := foldlM_store_maxKey hfirst
    change st₁.scanBase idx r.minKey _ _ >>= _ = Option.map _ (List.foldlM store st₁ _)
    rw [scanBase_eq idx r.minKey r.endKey _ _ _ hmax]
    cases List.foldlM store st₁ _ <;> rfl

/-- A task with few enough visits leaves them sorted. -/
theorem scanAnswered_fits (h : (idx.visited r).length ≤ maxScanLength) :
    ∃ st', ScanLocals.scanAnswered byKey idx partitionId st r = some st' ∧
      st'.found = byKey.sort (idx.visited r) ∧ st'.maxKey = r.endKey := by
  have hroom : { st with curResultOff := 0, maxKey := r.endKey }.curResultOff +
      (idx.visited r).length ≤ maxScanLength := by rwa [Nat.zero_add]
  obtain ⟨st₁, hrun, hfound, hmax⟩ := foldlM_store_eq_some hroom
  have hvisited : st₁.found = idx.visited r := hfound
  rw [scanAnswered_eq, hrun]
  refine ⟨_, rfl, (found_getD st₁ ?_).trans (congrArg _ hvisited), hmax⟩
  rw [(byKey.perm _).length_eq, length_found]

theorem scanAnswered_overruns (h : maxScanLength < (idx.visited r).length) :
    ScanLocals.scanAnswered byKey idx partitionId st r = none := by
  rw [scanAnswered_eq, foldlM_store_eq_none (Nat.zero_le _) (by rwa [Nat.zero_add])]
  rfl

/-- Every answered task among these stores no more than the array holds. -/
def Fits (idx : DramIndex BufPage OptNode) (batch : ScanBatch) (tasks : List (ℕ × ℕ)) : Prop :=
  ∀ t ∈ tasks, (batch.request t.1 t.2).answer ≠ invaildPos →
    (idx.visited (batch.request t.1 t.2)).length ≤ maxScanLength

theorem exists_scanTask_iff :
    (∃ st', scanTask byKey idx lvl batch st task = some st') ↔ Fits idx batch [task] := by
  rw [Fits, List.forall_mem_singleton, scanTask]
  by_cases hans : (batch.request task.1 task.2).answer ≠ invaildPos
  · rw [if_pos hans]
    constructor
    · rintro ⟨st', hst⟩
      intro _
      by_contra hlong
      rw [scanAnswered_overruns (not_le.mp hlong)] at hst
      exact Option.some_ne_none _ hst.symm
    · intro hfits
      obtain ⟨st', hst, -⟩ := scanAnswered_fits (hfits hans)
      exact ⟨st', hst⟩
  · rw [if_neg hans]
    exact iff_of_true ⟨st, rfl⟩ fun h => absurd h hans

/-- Whether a run goes through does not depend on the locals it starts with. -/
theorem exists_scanPayload_iff :
    (∃ st', scanPayload byKey idx lvl batch st tasks = some st') ↔ Fits idx batch tasks := by
  induction tasks generalizing st with
  | nil => exact iff_of_true ⟨st, rfl⟩ fun t ht => absurd ht List.not_mem_nil
  | cons task tasks ih =>
    have hcons : Fits idx batch (task :: tasks) ↔
        Fits idx batch [task] ∧ Fits idx batch tasks := by
      rw [Fits, List.forall_mem_cons, Fits, List.forall_mem_singleton, Fits]
    have htask : (∃ st', scanTask byKey idx lvl batch st task = some st') ↔
        Fits idx batch [task] := exists_scanTask_iff
    rw [hcons, ← htask]
    simp only [scanPayload, List.foldlM_cons, Option.bind_eq_bind, Option.bind_eq_some_iff]
    constructor
    · rintro ⟨st', st₁, htask, hrest⟩
      exact ⟨⟨st₁, htask⟩, ih.mp ⟨st', hrest⟩⟩
    · rintro ⟨⟨st₁, htask⟩, hrest⟩
      obtain ⟨st', hst⟩ := ih.mpr hrest
      exact ⟨st', st₁, htask, hst⟩

/-- The locals after a run that ends with an answered task. -/
theorem scanPayload_snoc {pre : List (ℕ × ℕ)}
    (hans : (batch.request task.1 task.2).answer ≠ invaildPos)
    (h : scanPayload byKey idx lvl batch st (pre ++ [task]) = some st') :
    st'.found = byKey.sort (idx.visited (batch.request task.1 task.2)) ∧
      st'.maxKey = (batch.request task.1 task.2).endKey := by
  rw [scanPayload, List.foldlM_append, Option.bind_eq_bind, Option.bind_eq_some_iff] at h
  obtain ⟨st₁, -, hlast⟩ := h
  rw [List.foldlM_cons] at hlast
  simp only [List.foldlM_nil, bind_pure, scanTask, if_pos hans] at hlast
  have hfits : (idx.visited (batch.request task.1 task.2)).length ≤ maxScanLength := by
    by_contra hlong
    rw [scanAnswered_overruns (not_le.mp hlong)] at hlast
    exact Option.some_ne_none _ hlast.symm
  have hanswered : ∃ st₂, scanAnswered byKey idx (lvl.dpuIdToPartition task.1) st₁
      (batch.request task.1 task.2) = some st₂ ∧ st₂.found = byKey.sort _ ∧ st₂.maxKey = _ :=
    scanAnswered_fits hfits
  obtain ⟨st₂, hrun, hfound, hmax⟩ := hanswered
  rw [hlast, Option.some.injEq] at hrun
  rw [hrun]
  exact ⟨hfound, hmax⟩

end ScanLocals

end PimLex
