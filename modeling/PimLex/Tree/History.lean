import PimLex.Index
import PimLex.Transition.Run

/-!
# A tree across merges

A merge clears a partition's tree and inserts on, without the sentinel. The tree
then stays a leaf that answers every query, until an insertion finds it full: its
first key becomes the smallest separator of an inner root, and from there on a
query below it follows `smallnode`.
-/

namespace PimLex.OptNode

open Transition

/-- The calls a partition's tree receives after bulk load. -/
inductive HistoryOp where
  | insert (k : DTYPE) (p : StringPayload)
  | clear

/-- The tree after a call. -/
def historyStep : OptNode → HistoryOp → OptNode
  | t, .insert k p =>
    match t.insert k p with
    | .ok (_, t') => t'
    | .error _ => t
  | t, .clear => t.clear

/-- The insertions are of keys from 1 on. -/
def FromOne (ops : List HistoryOp) : Prop := ∀ k p, .insert k p ∈ ops → 1 ≤ k

/-- When an insertion splits a full root leaf, that leaf starts at 1 or below. -/
def SplitLow : OptNode → HistoryOp → Prop
  | .leaf es, .insert _ _ => es.length = childNum → keyAt es 0 ≤ 1
  | _, _ => True

/-- A history in which an insertion that returned true is found until the next `clear`, and
no query from 1 on follows `smallnode`. -/
structure Usable (t : OptNode) (ops : List HistoryOp) : Prop where
  found : ∀ pre k p mid post, ops = pre ++ .insert k p :: (mid ++ post) → .clear ∉ mid →
    ((run historyStep t pre).insert k p).map Prod.fst = .ok true →
      (run historyStep t (pre ++ .insert k p :: mid)).lookup k = .ok true
  total : ∀ pre post, ops = pre ++ post → ∀ k, 1 ≤ k →
    (run historyStep t pre).lookup k ≠ .error .smallnode ∧
      ∀ v, (run historyStep t pre).update k v ≠ .error .smallnode

/-- Well-formed, and an inner root starts at 1 or below. -/
structure Safe (t : OptNode) : Prop where
  wf : t.Wf
  low : t.isLeaf = true ∨ ∃ lo ≤ 1, t.headKey = some lo

variable {t t' : OptNode} {k : DTYPE} {p : StringPayload} {es : List (DTYPE × StringPayload)}
  {op : HistoryOp} {ops : List HistoryOp}

theorem Safe.covers {keys : Fin childNum → DTYPE} {pointers : Fin childNum → OptNode}
    (h : Safe (inner keys pointers)) (hk : 1 ≤ k) : (inner keys pointers).Covers k := by
  rcases h.low with hleaf | ⟨lo, hlo, hhead⟩
  · exact absurd hleaf (by simp [isLeaf])
  · exact covers_of_head hhead (hlo.trans hk)

/-- A safe tree answers membership of every key from 1 on. -/
theorem Safe.lookup (h : Safe t) (hk : 1 ≤ k) : t.lookup k = .ok (decide (t.HasKey k)) := by
  cases t with
  | leaf es =>
    change Except.ok (searchLeaf es k) = _
    rw [Except.ok.injEq, Bool.eq_iff_iff, searchLeaf_iff h.wf.1, decide_eq_true_iff]
    exact hasKey_leaf.symm
  | inner keys pointers => exact lookup_spec h.wf (h.covers hk)

theorem Safe.update (h : Safe t) (hk : 1 ≤ k) (v : StringPayload) :
    ∃ r, t.update k v = .ok r := by
  cases t with
  | leaf es => exact ⟨_, rfl⟩
  | inner keys pointers => exact update_ok h.wf (h.covers hk)

theorem isLeaf_of_insert (hlen : es.length ≠ childNum) {ret : Bool}
    (h : (leaf es).insert k p = .ok (ret, t')) : t'.isLeaf = true := by
  simp only [insert, if_neg hlen] at h
  cases hins : insertLeaf es k p with
  | error f => simp [hins, bind, Except.bind] at h
  | ok r =>
    simp only [hins, bind, Except.bind, Except.ok.injEq, Prod.mk.injEq] at h
    rw [← h.2]
    rfl

/-- An insertion whose split is low keeps the tree safe and stores its key. -/
theorem Safe.insert (h : Safe t) (hk : 1 ≤ k) (hlow : SplitLow t (.insert k p)) :
    ∃ ret t', t.insert k p = .ok (ret, t') ∧ Safe t' ∧ t'.HasKey k ∧
      ∀ q, t.HasKey q → t'.HasKey q := by
  obtain ⟨ret, t', hins, hspec⟩ := insert_spec h.wf k p
  have hkeep : ∀ q, t.HasKey q → t'.HasKey q := fun q hq => hq.mono hspec.keep
  refine ⟨ret, t', hins, ?_, ?_, hkeep⟩
  · refine ⟨hspec.wf, ?_⟩
    cases t with
    | leaf es =>
      by_cases hlen : es.length = childNum
      · -- the split makes the leaf's first key, at most 1, the smallest separator
        have hhead := headKey_of_full hlen
        have hfirst := hspec.head (covers_of_head hhead ((hlow hlen).trans hk))
        rw [hhead] at hfirst
        exact Or.inr ⟨_, hlow hlen, hfirst⟩
      · exact Or.inl (isLeaf_of_insert hlen hins)
    | inner keys pointers =>
      rcases h.low with hleaf | ⟨lo, hlo, hhead⟩
      · exact absurd hleaf (by simp [isLeaf])
      · have hfirst := hspec.head (h.covers hk)
        rw [hhead] at hfirst
        exact Or.inr ⟨lo, hlo, hfirst⟩
  · apply hspec.stored
    cases t with
    | leaf es =>
      rintro ⟨hlen, hlt⟩
      exact absurd ((hlow hlen).trans hk) (not_le.mpr hlt)
    | inner keys pointers => exact (h.covers hk).not_low

theorem Safe.step (h : Safe t) (hone : ∀ k p, op = .insert k p → 1 ≤ k) (hlow : SplitLow t op) :
    Safe (historyStep t op) ∧ (op ≠ .clear → ∀ q, t.HasKey q → (historyStep t op).HasKey q) := by
  cases op with
  | insert k p =>
    obtain ⟨ret, t', hins, hsafe, -, hkeep⟩ := h.insert (hone k p rfl) hlow
    simp only [historyStep, hins]
    exact ⟨hsafe, fun _ => hkeep⟩
  | clear => exact ⟨⟨wf_empty, Or.inl rfl⟩, fun hne => absurd rfl hne⟩

/-- Along a run with low splits the tree stays safe, and without a `clear` keeps its keys. -/
theorem Safe.run (h : Safe t) (hone : FromOne ops) (hg : Guarded historyStep SplitLow t ops) :
    Safe (run historyStep t ops) ∧
      (.clear ∉ ops → ∀ q, t.HasKey q → (run historyStep t ops).HasKey q) := by
  induction ops generalizing t with
  | nil => exact ⟨h, fun _ _ hq => hq⟩
  | cons op ops ih =>
    obtain ⟨hlow, hrest⟩ := hg
    obtain ⟨hsafe, hkeep⟩ := h.step (fun k p hop => hone k p (hop ▸ List.mem_cons_self)) hlow
    obtain ⟨hsafe', hkeep'⟩ :=
      ih hsafe (fun k p hmem => hone k p (List.mem_cons_of_mem _ hmem)) hrest
    refine ⟨hsafe', fun hclear q hq => ?_⟩
    rw [List.mem_cons, not_or] at hclear
    exact hkeep' hclear.2 q (hkeep (Ne.symm hclear.1) q hq)

/-- A full root leaf becomes an inner root over its own keys. -/
theorem historyStep_full (hlen : es.length = childNum) :
    ∃ pointers, historyStep (leaf es) (.insert k p) = inner (splitKeys es) pointers := by
  by_cases h0 : splitKeys es 0 < k
  · have hone := splitLeaf_eq hlen (nextInsertChildId (splitKeys es) k)
    have hsingle : Sorted (splitLeaf es (nextInsertChildId (splitKeys es) k)) := by
      rw [hone]
      exact List.pairwise_singleton _ _
    obtain ⟨ret, es', hins, -⟩ := insertLeaf_spec hsingle
      (by rw [hone, List.length_singleton]; decide) k p
    refine ⟨Function.update (fun i => leaf (splitLeaf es i))
      (nextInsertChildId (splitKeys es) k) (leaf es'), ?_⟩
    simp only [historyStep, insert, if_pos hlen, if_pos h0, hins, bind, Except.bind]
  · refine ⟨fun i => leaf (splitLeaf es i), ?_⟩
    simp only [historyStep, insert, if_pos hlen, if_neg h0]

/-- Splitting a full leaf that starts above 1 leaves key 1 below every separator. -/
theorem lookup_one_of_split (hlen : es.length = childNum) (hfirst : 1 < keyAt es 0) :
    (historyStep (leaf es) (.insert k p)).lookup 1 = .error .smallnode := by
  obtain ⟨pointers, hstep⟩ := historyStep_full (k := k) (p := p) hlen
  rw [hstep, lookup, descend_of_lt hfirst]
  rfl

theorem Safe.usable (h : Safe t) (hone : FromOne ops)
    (hg : Guarded historyStep SplitLow t ops) : Usable t ops := by
  have hprefix : ∀ pre post, ops = pre ++ post → Safe (Transition.run historyStep t pre) := by
    rintro pre post rfl
    refine (h.run (fun k p hmem => hone k p (List.mem_append_left _ hmem)) ?_).1
    exact guarded_iff.mpr fun pre' a post' heq =>
      guarded_iff.mp hg pre' a (post' ++ post) (by rw [heq]; simp)
  refine ⟨?_, fun pre post heq k hk => ?_⟩
  · rintro pre k p mid post heq hclear -
    have hk : 1 ≤ k := hone k p (by rw [heq]; simp)
    have hsafe := hprefix pre _ heq
    have hlow := guarded_iff.mp hg pre (.insert k p) _ heq
    obtain ⟨ret, t', hins, hsafe', hkey, -⟩ := hsafe.insert hk hlow
    have hstep : historyStep (Transition.run historyStep t pre) (.insert k p) = t' := by
      simp only [historyStep, hins]
    have hrun : Transition.run historyStep t (pre ++ .insert k p :: mid) =
        Transition.run historyStep t' mid := by
      rw [run_append, run_cons, hstep]
    -- no `clear` in `mid`, so the key stays from its insertion to the end of `mid`
    have hmid : Guarded historyStep SplitLow t' mid := by
      apply guarded_iff.mpr
      intro pre' a post' hmid
      have hguard := guarded_iff.mp hg (pre ++ .insert k p :: pre') a (post' ++ post)
        (by rw [heq, hmid]; simp)
      rwa [run_append, run_cons, hstep] at hguard
    obtain ⟨hlast, hkeep⟩ := hsafe'.run (fun q v hmem => hone q v (by rw [heq]; simp [hmem])) hmid
    rw [hrun, hlast.lookup hk, decide_eq_true (hkeep hclear k hkey)]
  · have hsafe := hprefix pre post heq
    constructor
    · rw [hsafe.lookup hk]
      nofun
    · intro v
      obtain ⟨r, hr⟩ := hsafe.update hk v
      rw [hr]
      nofun

/-- A split that is not low makes key 1 unreachable. -/
theorem Usable.guarded (h : Usable t ops) : Guarded historyStep SplitLow t ops := by
  apply guarded_iff.mpr
  intro pre op post heq
  have hnext := (h.total (pre ++ [op]) post (by rw [heq]; simp) 1 le_rfl).1
  rw [run_concat] at hnext
  cases hroot : Transition.run historyStep t pre with
  | inner keys pointers => trivial
  | leaf es =>
    cases op with
    | clear => trivial
    | insert k p =>
      intro hlen
      by_contra hfirst
      rw [hroot, lookup_one_of_split hlen (not_le.mp hfirst)] at hnext
      exact hnext rfl

theorem safe_tree (b : BulkInput) (i : ℕ) : Safe (b.tree i) := by
  obtain ⟨wf, hkey, -⟩ := b.tree_spec i
  refine ⟨wf, ?_⟩
  cases htree : b.tree i with
  | leaf es => exact Or.inl rfl
  | inner keys pointers =>
    rw [htree] at wf hkey
    exact Or.inr ⟨keys 0, wf.headKey_le rfl hkey, rfl⟩

/-- A history from bulk load on is usable exactly when no insertion finds the root a full
leaf whose first key is above 1. -/
theorem history_usable_iff (b : BulkInput) (i : ℕ) (ops : List HistoryOp) (hone : FromOne ops) :
    Usable (b.tree i) ops ↔
      ∀ pre k p post, ops = pre ++ .insert k p :: post →
        ∀ es, run historyStep (b.tree i) pre = .leaf es → es.length = childNum →
          keyAt es 0 ≤ 1 := by
  constructor
  · intro h pre k p post heq es hroot
    have hlow := guarded_iff.mp h.guarded pre (.insert k p) post heq
    rwa [hroot] at hlow
  · intro h
    apply (safe_tree b i).usable hone
    apply guarded_iff.mpr
    intro pre op post heq
    cases op with
    | clear => cases Transition.run historyStep (b.tree i) pre <;> trivial
    | insert k p =>
      cases hroot : Transition.run historyStep (b.tree i) pre with
      | inner keys pointers => trivial
      | leaf es => exact h pre k p post heq es hroot

/-- A history of insertions is a list of calls. -/
theorem run_insertAll {calls : List (DTYPE × StringPayload)} (h : t.insertAll calls = .ok t') :
    run historyStep t (calls.map fun e => .insert e.1 e.2) = t' := by
  induction calls generalizing t with
  | nil => simpa using h
  | cons call calls ih =>
    cases hins : t.insert call.1 call.2 with
    | error f => simp [insertAll, hins, Except.map, bind, Except.bind] at h
    | ok r =>
      obtain ⟨ret, t₁⟩ := r
      rw [insertAll_cons hins] at h
      rw [List.map_cons, run_cons]
      simp only [historyStep, hins]
      exact ih h

/-- The 32 overflow keys 100 to 131. -/
def overflow : List (DTYPE × StringPayload) := (List.range' 100 32).map fun k => (k, .ofByte 99)

/-- A clear and then the overflow keys. -/
def refill : List HistoryOp := .clear :: overflow.map fun e => .insert e.1 e.2

theorem fromOne_refill : FromOne refill := by
  intro k p hmem
  obtain ⟨e, he, heq⟩ := List.mem_map.mp (List.mem_of_ne_of_mem (by simp) hmem)
  obtain ⟨j, hj, rfl⟩ := List.mem_map.mp he
  rw [HistoryOp.insert.injEq] at heq
  rw [← heq.1]
  exact le_trans (by decide) (List.mem_range'_1.mp hj).1

/-- The condition on the refill of a bulk-loaded tree. -/
theorem history_usable_refill :
    Usable (BulkInput.kibi.tree 0) refill ↔
      ∀ pre k p post, refill = pre ++ .insert k p :: post →
        ∀ es, run historyStep (BulkInput.kibi.tree 0) pre = .leaf es → es.length = childNum →
          keyAt es 0 ≤ 1 :=
  history_usable_iff BulkInput.kibi 0 refill fromOne_refill

/-- After the refill the root is a full leaf that starts at 100. -/
theorem run_refill (t : OptNode) : run historyStep t refill = .leaf overflow := by
  rw [refill, run_cons]
  have hs : Sorted overflow := List.pairwise_map.mpr List.pairwise_lt_range'
  rw [← List.nil_append overflow] at hs
  exact run_insertAll (insertAll_ascending hs (by decide))

/-- The next insertion, of key 50, returns true, and the key is not found but follows
`smallnode`. -/
theorem refill_loses_fifty :
    FromOne (refill ++ [.insert 50 (.ofByte 99)]) ∧
      ((run historyStep (BulkInput.kibi.tree 0) refill).insert 50 (.ofByte 99)).map Prod.fst =
        .ok true ∧
      (run historyStep (BulkInput.kibi.tree 0) (refill ++ [.insert 50 (.ofByte 99)])).lookup 50 =
        .error .smallnode := by
  have hlen : overflow.length = childNum := by decide
  have hfirst : splitKeys overflow 0 = 100 := by decide
  obtain ⟨pointers, hstep⟩ := historyStep_full (k := 50) (p := .ofByte 99) hlen
  rw [run_concat, run_refill, hstep, lookup, descend_of_lt (by rw [hfirst]; decide)]
  refine ⟨fun k p hmem => ?_, ?_, rfl⟩
  · rcases List.mem_append.mp hmem with hmem | hmem
    · exact fromOne_refill k p hmem
    · rw [List.mem_singleton, HistoryOp.insert.injEq] at hmem
      rw [hmem.1]
      decide
  · have hbelow : ¬ splitKeys overflow 0 < 50 := by
      rw [hfirst]
      decide
    simp only [insert, if_pos hlen, if_neg hbelow]
    rfl

end PimLex.OptNode
