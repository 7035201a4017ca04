import PimLex.ScanVisit
import PimLex.InsertedRead

/-!
# When a scan is exact

The walk looks at the base keys from its block's first one on and stops at the
first that is out of range. So a scan that starts inside its block sees no base
key at all, and one that starts with its block sees them all, but the pages only
through a test without an end key, and its own page twice. What the tree alone
has is never seen, an end key is cut to 32 bits, and the last task of a DPU is
not run.
-/

namespace PimLex

open Search

/-- Members of the part of an interval in front of the first failure of a test. -/
theorem mem_takeWhile_range' {p : ℕ → Bool} {a n c : ℕ} :
    c ∈ (List.range' a n).takeWhile p ↔ a ≤ c ∧ c < a + n ∧ ∀ i, a ≤ i → i ≤ c → p i = true := by
  induction n generalizing a with
  | zero =>
    rw [List.range'_zero, List.takeWhile_nil]
    exact iff_of_false List.not_mem_nil fun h => by omega
  | succ n ih =>
    rw [List.range'_succ, List.takeWhile_cons]
    cases ha : p a with
    | true =>
      rw [if_pos rfl, List.mem_cons, ih]
      constructor
      · rintro (rfl | ⟨hac, hcn, hp⟩)
        · refine ⟨le_rfl, by omega, fun i hi hic => ?_⟩
          rwa [le_antisymm hic hi]
        · refine ⟨by omega, by omega, fun i hi hic => ?_⟩
          rcases hi.eq_or_lt with rfl | hlt
          · exact ha
          · exact hp i hlt hic
      · rintro ⟨hac, hcn, hp⟩
        rcases hac.eq_or_lt with rfl | hlt
        · exact Or.inl rfl
        · exact Or.inr ⟨hlt, by omega, fun i hi hic => hp i (by omega) hic⟩
    | false =>
      rw [if_neg Bool.false_ne_true]
      refine iff_of_false List.not_mem_nil ?_
      rintro ⟨hac, -, hp⟩
      rw [hp a le_rfl hac] at ha
      exact Bool.noConfusion ha

namespace ScanBatch

variable {batch : ScanBatch} {nrDpus : ℕ} {s t : ℕ × ℕ} {pre post : List (ℕ × ℕ)}

/-- The order in which the two loops come to the tasks. -/
def Before (s t : ℕ × ℕ) : Prop := s.1 < t.1 ∨ s.1 = t.1 ∧ s.2 < t.2

theorem mem_tasks : t ∈ batch.tasks nrDpus ↔ t.1 < nrDpus ∧ t.2 + 1 < batch.nTasks t.1 := by
  simp only [tasks, List.mem_flatMap, List.mem_map, List.mem_range]
  constructor
  · rintro ⟨dpu, hdpu, j, hj, rfl⟩
    exact ⟨hdpu, Nat.add_lt_of_lt_sub hj⟩
  · rintro ⟨hdpu, hj⟩
    exact ⟨t.1, hdpu, t.2, by omega, rfl⟩

theorem pairwise_tasks (batch : ScanBatch) (nrDpus : ℕ) :
    (batch.tasks nrDpus).Pairwise Before := by
  rw [tasks, List.pairwise_flatMap]
  constructor
  · intro dpu _
    rw [List.pairwise_map]
    exact List.pairwise_lt_range.imp fun h => Or.inr ⟨rfl, h⟩
  · refine List.pairwise_lt_range.imp fun h s hs t ht => ?_
    obtain ⟨-, -, rfl⟩ := List.mem_map.mp hs
    obtain ⟨-, -, rfl⟩ := List.mem_map.mp ht
    exact Or.inl h

/-- The tasks up to a task are those that do not come after it. -/
theorem mem_upTo (h : batch.tasks nrDpus = pre ++ t :: post) :
    s ∈ pre ++ [t] ↔ s ∈ batch.tasks nrDpus ∧ ¬ Before t s := by
  have hpair := batch.pairwise_tasks nrDpus
  rw [h] at hpair ⊢
  obtain ⟨-, hpost, hcross⟩ := List.pairwise_append.mp hpair
  have hafter := (List.pairwise_cons.mp hpost).1
  simp only [List.mem_append, List.mem_cons, List.not_mem_nil, or_false]
  constructor
  · rintro (hs | rfl)
    · have hlt : Before s t := hcross s hs t List.mem_cons_self
      simp only [Before] at hlt ⊢
      exact ⟨Or.inl hs, by omega⟩
    · refine ⟨Or.inr (Or.inl rfl), ?_⟩
      rw [Before]
      omega
  · rintro ⟨hs | rfl | hs, hnot⟩
    · exact Or.inl hs
    · exact Or.inr rfl
    · exact absurd (hafter s hs) hnot

end ScanBatch

namespace BulkInput

variable {b : BulkInput} {idx : DramIndex BufPage OptNode} {p i c : ℕ} {k minKey maxKey : DTYPE}
  {r : ScanRequest}

/-- What a scan finds: base arrays, sorted pages within their blocks, and any trees. -/
structure ScanState (b : BulkInput) (idx : DramIndex BufPage OptNode) : Prop where
  onBase : b.Over idx
  sorted : ∀ i, (idx.bufferPages i).bufKey.Pairwise (· ≤ ·)
  page : ∀ i, ∀ k ∈ (idx.bufferPages i).bufKey,
    interleave * i < b.size ∧ b.keys (interleave * i) ≤ k ∧
      (interleave * (i + 1) < b.size → k < b.keys (interleave * (i + 1)))

/-- The base array, a page or the tree of partition `p` has the key. -/
def Kept (b : BulkInput) (idx : DramIndex BufPage OptNode) (p : ℕ) (k : DTYPE) : Prop :=
  b.IsBase k ∨ (∃ i, (idx.bufferPages i).HasKey k) ∨ (idx.optOverflowTrees p).HasKey k

/-- The key is in the range of the request. -/
def InRange (r : ScanRequest) (k : DTYPE) : Prop := r.minKey ≤ k ∧ k < r.maxKey

/-- These keys are the kept ones of the range, in order and each once. -/
structure Exactly (b : BulkInput) (idx : DramIndex BufPage OptNode) (p : ℕ) (r : ScanRequest)
    (ks : List DTYPE) : Prop where
  ascending : ks.Pairwise (· < ·)
  keys : ∀ k, k ∈ ks ↔ InRange r k ∧ b.Kept idx p k

/-- The run of a batch comes to task `j` of the DPU, does not pass it over as unanswered, serves
it with the end key it asked for, and leaves exactly the range. -/
def Served (b : BulkInput) (idx : DramIndex BufPage OptNode)
    (byKey : StdSort fun a b : DTYPE × StringPayload => decide (a.1 < b.1)) (lvl : DramLevel)
    (batch : ScanBatch) (nrDpus : ℕ) (st₀ : ScanLocals) (p dpu j : ℕ) : Prop :=
  ∃ pre post st, batch.tasks nrDpus = pre ++ (dpu, j) :: post ∧
    (batch.request dpu j).answer ≠ invaildPos ∧
    scanPayload byKey idx lvl batch st₀ (pre ++ [(dpu, j)]) = some st ∧
    st.maxKey = (batch.request dpu j).maxKey ∧
    b.Exactly idx p (batch.request dpu j) (st.found.map Prod.fst)

/-- What a scan from inside a block needs: the block's page alone has what is in range, and
has it once. -/
structure InsideClean (b : BulkInput) (idx : DramIndex BufPage OptNode) (p : ℕ)
    (r : ScanRequest) : Prop where
  nodup : ((idx.bufferPages (r.answer / pageRatio)).bufKey.filter fun k =>
    decide (k ≥ r.minKey ∧ k < r.maxKey)).Nodup
  page : ∀ k, InRange r k → b.Kept idx p k → (idx.bufferPages (r.answer / pageRatio)).HasKey k

/-- What a scan from a block's first key needs: its page is empty, the pages of the later
blocks that begin in range lie in range and repeat no key, and the tree has nothing of its
own. -/
structure AlignedClean (b : BulkInput) (idx : DramIndex BufPage OptNode) (p : ℕ)
    (r : ScanRequest) : Prop where
  first : (idx.bufferPages (r.answer / pageRatio)).bufKey = []
  nodup : ∀ g, r.answer < interleave * g → interleave * g < b.size →
    b.keys (interleave * g) < r.maxKey → (idx.bufferPages g).bufKey.Nodup
  page : ∀ g, r.answer < interleave * g → interleave * g < b.size →
    b.keys (interleave * g) < r.maxKey →
      ∀ k ∈ (idx.bufferPages g).bufKey, k < r.maxKey ∧ ¬ b.IsBase k
  tree : ∀ k, InRange r k → (idx.optOverflowTrees p).HasKey k →
    b.IsBase k ∨ ∃ i, (idx.bufferPages i).HasKey k

/-- What a scan of a range that is not empty needs of the state. -/
def ScanClean (b : BulkInput) (idx : DramIndex BufPage OptNode) (p : ℕ) (r : ScanRequest) :
    Prop :=
  r.minKey < r.maxKey →
    (b.keys r.answer < r.minKey → b.InsideClean idx p r) ∧
      (b.keys r.answer = r.minKey → b.AlignedClean idx p r)

theorem ScanState.page_le (h : b.ScanState idx) {i j : ℕ} (hi : (idx.bufferPages i).HasKey k)
    (hj : (idx.bufferPages j).HasKey k) : j ≤ i := by
  by_contra hlt
  obtain ⟨hsize, hlow, -⟩ := h.page j k hj
  have hnext : interleave * (i + 1) ≤ interleave * j := Nat.mul_le_mul_left _ (not_le.mp hlt)
  have hhigh := (h.page i k hi).2.2 (hnext.trans_lt hsize)
  exact absurd ((b.strict.le hnext hsize).trans hlow) (not_le.mpr hhigh)

/-- No two pages share a key. -/
theorem ScanState.page_unique (h : b.ScanState idx) {i j : ℕ}
    (hi : (idx.bufferPages i).HasKey k) (hj : (idx.bufferPages j).HasKey k) : i = j :=
  le_antisymm (h.page_le hj hi) (h.page_le hi hj)

/-- The keys that are stored at one base position. -/
def visitKeys (idx : DramIndex BufPage OptNode) (minKey : DTYPE) (c : ℕ) : List DTYPE :=
  idx.keys c :: if c % interleave = 0 then
    (idx.bufferPages (c / pageRatio)).bufKey.filter fun k => decide (k > minKey) else []

theorem map_fst_visited (idx : DramIndex BufPage OptNode) (r : ScanRequest) :
    (idx.visited r).map Prod.fst =
      ((idx.bufferPages (r.answer / pageRatio)).bufKey.filter fun k =>
        decide (k ≥ r.minKey ∧ k < r.endKey)) ++
      (idx.walked r.minKey r.endKey (idx.totalSize - r.answer) r.answer).flatMap
        (visitKeys idx r.minKey) := by
  have hfilter : ∀ (page : BufPage) (test : DTYPE → Bool),
      (page.entries.filter fun e => test e.1).map Prod.fst = page.bufKey.filter test := by
    intro page test
    rw [← BufPage.map_fst_entries, List.filter_map]
    rfl
  rw [DramIndex.visited, List.map_append, List.map_flatMap]
  refine congrArg₂ _ (hfilter _ fun k => decide (k ≥ r.minKey ∧ k < r.endKey)) ?_
  refine List.flatMap_congr fun c _ => ?_
  rw [DramIndex.baseVisit, visitKeys, List.map_cons]
  split_ifs
  · exact congrArg _ (hfilter _ fun k => decide (k > r.minKey))
  · rfl

theorem mem_visitKeys : k ∈ visitKeys idx minKey c ↔ k = idx.keys c ∨
    c % interleave = 0 ∧ (idx.bufferPages (c / pageRatio)).HasKey k ∧ minKey < k := by
  rw [visitKeys, List.mem_cons]
  split_ifs with h
  · simp only [List.mem_filter, decide_eq_true_eq, h, true_and]
    rfl
  · simp only [List.not_mem_nil, h, false_and]

/-- From a block on, the walk passes the base keys below the end key. -/
theorem ScanState.mem_walked (h : b.ScanState idx) {a : ℕ} (hlow : b.keys a = minKey) :
    c ∈ idx.walked minKey maxKey (idx.totalSize - a) a ↔
      a ≤ c ∧ c < b.size ∧ b.keys c < maxKey := by
  rw [DramIndex.walked, mem_takeWhile_range']
  simp only [DramIndex.Walks, decide_eq_true_eq, h.onBase.totalSize, h.onBase.keys]
  constructor
  · rintro ⟨hac, -, hwalk⟩
    obtain ⟨hsize, -, hmax⟩ := hwalk c hac le_rfl
    exact ⟨hac, hsize, hmax⟩
  · rintro ⟨hac, hsize, hmax⟩
    refine ⟨hac, by omega, fun i hai hic => ⟨by omega, ?_, ?_⟩⟩
    · rw [← hlow]
      exact b.strict.le hai (by omega)
    · exact (b.strict.le hic hsize).trans_lt hmax

/-- From inside a block the walk passes nothing. -/
theorem ScanState.walked_eq_nil (h : b.ScanState idx) {a n : ℕ}
    (hlow : b.keys a < minKey ∨ maxKey ≤ b.keys a) : idx.walked minKey maxKey n a = [] := by
  rw [List.eq_nil_iff_forall_not_mem]
  intro c hc
  obtain ⟨hac, -, hwalk⟩ := mem_takeWhile_range'.mp hc
  obtain ⟨-, hge, hlt⟩ := of_decide_eq_true (hwalk a le_rfl hac)
  rw [h.onBase.keys] at hge hlt
  exact hlow.elim (not_lt.mpr hge) (not_le.mpr hlt)

/-- The keys that a task stores are the kept ones of its range, each once. -/
structure StoresRange (b : BulkInput) (idx : DramIndex BufPage OptNode) (p : ℕ)
    (r : ScanRequest) : Prop where
  nodup : ((idx.visited r).map Prod.fst).Nodup
  keys : ∀ k, k ∈ (idx.visited r).map Prod.fst ↔ InRange r k ∧ b.Kept idx p k

/-- The sort brings them in order. -/
theorem exactly_sort_iff
    (byKey : StdSort fun a b : DTYPE × StringPayload => decide (a.1 < b.1)) :
    b.Exactly idx p r ((byKey.sort (idx.visited r)).map Prod.fst) ↔ b.StoresRange idx p r := by
  have hmem : ∀ k, k ∈ (byKey.sort (idx.visited r)).map Prod.fst ↔
      k ∈ (idx.visited r).map Prod.fst := fun k => ((byKey.perm _).map Prod.fst).mem_iff
  constructor
  · rintro ⟨hasc, hkeys⟩
    exact ⟨(byKey.pairwise_lt_iff _).mp hasc, fun k => (hmem k).symm.trans (hkeys k)⟩
  · rintro ⟨hnodup, hkeys⟩
    exact ⟨(byKey.pairwise_lt_iff _).mpr hnodup, fun k => (hmem k).trans (hkeys k)⟩

/-- The request starts with its block, and its range is not empty. -/
structure Starts (b : BulkInput) (r : ScanRequest) : Prop where
  block : r.answer = interleave * (r.answer / pageRatio)
  size : r.answer < b.size
  low : b.keys r.answer = r.minKey
  range : r.minKey < r.maxKey

section Exact

variable (h : b.ScanState idx) (hend : r.endKey = r.maxKey)
include h hend

/-- A scan from inside its block stores the first page's part of the range. -/
theorem ScanState.storesRange_inside (hlow : b.keys r.answer < r.minKey) :
    b.StoresRange idx p r ↔ b.InsideClean idx p r := by
  have hvisited : (idx.visited r).map Prod.fst =
      (idx.bufferPages (r.answer / pageRatio)).bufKey.filter fun k =>
        decide (k ≥ r.minKey ∧ k < r.maxKey) := by
    rw [map_fst_visited, h.walked_eq_nil (Or.inl hlow), hend, List.flatMap_nil, List.append_nil]
  have hmem : ∀ k, k ∈ (idx.visited r).map Prod.fst ↔
      (idx.bufferPages (r.answer / pageRatio)).HasKey k ∧ InRange r k := by
    intro k
    rw [hvisited, List.mem_filter, decide_eq_true_eq]
    rfl
  -- what is stored is the page's part of the range, so it must be all of the range
  constructor
  · rintro ⟨hnodup, hkeys⟩
    exact ⟨hvisited ▸ hnodup, fun k hk hkept => ((hmem k).mp ((hkeys k).mpr ⟨hk, hkept⟩)).1⟩
  · rintro ⟨hnodup, hpage⟩
    refine ⟨hvisited.symm ▸ hnodup, fun k => (hmem k).trans ⟨?_, ?_⟩⟩
    · -- a stored key is in a page
      rintro ⟨hkey, hk⟩
      exact ⟨hk, Or.inr (Or.inl ⟨_, hkey⟩)⟩
    · rintro ⟨hk, hkept⟩
      exact ⟨hpage k hk hkept, hk⟩

variable (hr : b.Starts r)
include hr

/-- A scan from its block's first key stores the visits at the base keys in range, behind the
first page's part. -/
theorem ScanState.map_fst_visited_aligned : ∃ cs : List ℕ,
    (idx.visited r).map Prod.fst =
      ((idx.bufferPages (r.answer / pageRatio)).bufKey.filter fun k =>
        decide (k ≥ r.minKey ∧ k < r.maxKey)) ++ cs.flatMap (visitKeys idx r.minKey) ∧
    cs.Pairwise (· < ·) ∧
    ∀ c, c ∈ cs ↔ r.answer ≤ c ∧ c < b.size ∧ b.keys c < r.maxKey := by
  refine ⟨_, by rw [map_fst_visited, hend], ?_, fun c => h.mem_walked hr.low⟩
  exact (List.pairwise_lt_range' 1).sublist (List.takeWhile_sublist _)

omit hend in
/-- A later block's keys are all above the lower bound and pass the test of the walk. -/
theorem ScanState.visitKeys_later {g : ℕ} (hg : r.answer < interleave * g)
    (hgsize : interleave * g < b.size) :
    visitKeys idx r.minKey (interleave * g) =
      b.keys (interleave * g) :: (idx.bufferPages g).bufKey := by
  rw [visitKeys, if_pos (Nat.mul_mod_right _ _), h.onBase.keys,
    Nat.mul_div_cancel_left _ (by decide : 0 < pageRatio), List.filter_eq_self.mpr]
  intro k hk
  apply decide_eq_true
  rw [gt_iff_lt, ← hr.low]
  exact (b.strict _ _ hg hgsize).trans_le (h.page g k hk).2.1

theorem ScanState.alignedClean (hst : b.StoresRange idx p r) : b.AlignedClean idx p r := by
  obtain ⟨cs, hvisited, -, hcs⟩ := h.map_fst_visited_aligned hend hr
  obtain ⟨hnodup, hkeys⟩ := hst
  rw [hvisited] at hnodup
  -- no key is stored twice: not by two visits, nor before the walk and in it
  obtain ⟨-, hvisits, hfirst⟩ := List.nodup_append'.mp hnodup
  obtain ⟨hvisit, hdisj⟩ := List.nodup_flatMap.mp hvisits
  have hmax : ∀ c ∈ cs, ∀ k ∈ visitKeys idx r.minKey c, k < r.maxKey := by
    intro c hc k hk
    have hmem := (hkeys k).mp (by
      rw [hvisited]
      exact List.mem_append_right _ (List.mem_flatMap_of_mem hc hk))
    exact hmem.1.2
  constructor
  case first =>
    rw [List.eq_nil_iff_forall_not_mem]
    intro k hk
    have hge : r.minKey ≤ k := by
      have hpage := (h.page _ k hk).2.1
      rwa [← hr.block, hr.low] at hpage
    have hansw : r.answer ∈ cs := (hcs _).mpr ⟨le_rfl, hr.size, by rw [hr.low]; exact hr.range⟩
    have hagain : k ∈ visitKeys idx r.minKey r.answer := by
      rw [mem_visitKeys, h.onBase.keys, hr.low]
      rcases hge.eq_or_lt with heq | hlt
      · exact Or.inl heq.symm
      · exact Or.inr ⟨by rw [hr.block]; exact Nat.mul_mod_right _ _, hk, hlt⟩
    -- the key is visited before the walk and once more at its start
    refine hfirst (List.mem_filter.mpr ⟨hk, ?_⟩) (List.mem_flatMap_of_mem hansw hagain)
    exact decide_eq_true ⟨hge, hmax _ hansw k hagain⟩
  case nodup =>
    intro g hg hgsize hgmax
    -- one visit stores the whole page of a later block
    have hnodup := hvisit _ ((hcs _).mpr ⟨hg.le, hgsize, hgmax⟩)
    rw [h.visitKeys_later hr hg hgsize, List.nodup_cons] at hnodup
    exact hnodup.2
  case page =>
    intro g hg hgsize hgmax k hk
    have hmem := (hcs _).mpr ⟨hg.le, hgsize, hgmax⟩
    have hvisited : k ∈ visitKeys idx r.minKey (interleave * g) := by
      rw [h.visitKeys_later hr hg hgsize]
      exact List.mem_cons_of_mem _ hk
    refine ⟨hmax _ hmem k hvisited, ?_⟩
    rintro ⟨c, hc, hck⟩
    rcases eq_or_ne c (interleave * g) with rfl | hne
    · -- the block's own first key is stored just in front of the page
      have hnodup := hvisit _ hmem
      rw [h.visitKeys_later hr hg hgsize, List.nodup_cons, hck] at hnodup
      exact hnodup.1 hk
    · -- another base key in the page's range has a visit of its own
      have hgc : interleave * g ≤ c := by
        apply b.strict.le_of_le hgsize
        rw [hck]
        exact (h.page g k hk).2.1
      have hmemc := (hcs c).mpr ⟨hg.le.trans hgc, hc, by rw [hck]; exact hmax _ hmem k hvisited⟩
      have hhead : k ∈ visitKeys idx r.minKey c := by
        rw [mem_visitKeys, h.onBase.keys]
        exact Or.inl hck.symm
      have : Std.Symm (Function.onFun List.Disjoint (visitKeys idx r.minKey)) :=
        ⟨fun _ _ hd => hd.symm⟩
      exact hdisj.forall hmemc hmem hne hhead hvisited
  case tree =>
    intro k hk hkey
    -- a tree key is stored only where a page or the base array has it too
    have hmem := (hkeys k).mpr ⟨hk, Or.inr (Or.inr hkey)⟩
    rw [hvisited] at hmem
    rcases List.mem_append.mp hmem with hfirst | hwalk
    · exact Or.inr ⟨_, List.mem_of_mem_filter hfirst⟩
    · obtain ⟨c, hc, hkc⟩ := List.mem_flatMap.mp hwalk
      rw [mem_visitKeys, h.onBase.keys] at hkc
      rcases hkc with rfl | ⟨-, hpage, -⟩
      · exact Or.inl ⟨c, ((hcs c).mp hc).2.1, rfl⟩
      · exact Or.inr ⟨_, hpage⟩

omit hend in
/-- With the first page empty, page keys in range are in pages of later blocks. -/
theorem ScanState.answer_lt_of_page {g : ℕ}
    (hfirst : (idx.bufferPages (r.answer / pageRatio)).bufKey = [])
    (hkey : (idx.bufferPages g).HasKey k) (hge : r.minKey ≤ k) : r.answer < interleave * g := by
  have hblock := hr.block
  rcases lt_trichotomy g (r.answer / pageRatio) with hlt | rfl | hgt
  · -- the pages before the block end below the range
    have hnext : interleave * (g + 1) ≤ r.answer := by
      rw [hblock]
      exact Nat.mul_le_mul_left _ hlt
    have hkeys := b.strict.le hnext hr.size
    rw [hr.low] at hkeys
    have hhigh := (h.page g k hkey).2.2 (hnext.trans_lt hr.size)
    exact absurd (hkeys.trans hge) (not_le.mpr hhigh)
  · rw [BufPage.HasKey, hfirst] at hkey
    exact absurd hkey List.not_mem_nil
  · rw [hblock]
    exact Nat.mul_lt_mul_of_pos_left hgt (by decide)

omit h hend hr in
/-- The pages that the walk comes to are clean. -/
theorem AlignedClean.visited (hc : b.AlignedClean idx p r) (hac : r.answer ≤ c)
    (hsize : c < b.size) (hmax : b.keys c < r.maxKey) (hblock : c % interleave = 0) :
    (idx.bufferPages (c / pageRatio)).bufKey.Nodup ∧
      ∀ k ∈ (idx.bufferPages (c / pageRatio)).bufKey, k < r.maxKey ∧ ¬ b.IsBase k := by
  obtain ⟨g, rfl⟩ := Nat.dvd_of_mod_eq_zero hblock
  rcases hac.eq_or_lt with heq | hlt
  · rw [← heq, hc.first]
    exact ⟨List.nodup_nil, fun k hk => absurd hk List.not_mem_nil⟩
  · rw [Nat.mul_div_cancel_left _ (by decide : 0 < pageRatio)]
    exact ⟨hc.nodup g hlt hsize hmax, hc.page g hlt hsize hmax⟩

theorem ScanState.storesRange_aligned (hc : b.AlignedClean idx p r) :
    b.StoresRange idx p r := by
  obtain ⟨cs, hvisited, hasc, hcs⟩ := h.map_fst_visited_aligned hend hr
  rw [hc.first, List.filter_nil, List.nil_append] at hvisited
  have hbase : ∀ c ∈ cs, b.IsBase (b.keys c) := fun c hc => ⟨c, ((hcs c).mp hc).2.1, rfl⟩
  have hclean : ∀ c ∈ cs, c % interleave = 0 →
      (idx.bufferPages (c / pageRatio)).bufKey.Nodup ∧
        ∀ k ∈ (idx.bufferPages (c / pageRatio)).bufKey, k < r.maxKey ∧ ¬ b.IsBase k := by
    intro c hmem hblock
    obtain ⟨hac, hsize, hmax⟩ := (hcs c).mp hmem
    exact hc.visited hac hsize hmax hblock
  constructor
  case nodup =>
    rw [hvisited, List.nodup_flatMap]
    constructor
    · intro c hmem
      rw [visitKeys, List.nodup_cons, h.onBase.keys]
      split_ifs with hblock
      · obtain ⟨hnodup, hpage⟩ := hclean c hmem hblock
        exact ⟨fun hin => (hpage _ (List.mem_of_mem_filter hin)).2 (hbase c hmem),
          hnodup.filter _⟩
      · exact ⟨List.not_mem_nil, List.nodup_nil⟩
    · -- two visits share no key: base keys differ, and no page key is a base key or in two pages
      refine hasc.imp_of_mem fun {c d} hmem hmem' hlt k hk hk' => ?_
      rw [mem_visitKeys, h.onBase.keys] at hk hk'
      rcases hk with rfl | ⟨hblock, hkey, -⟩
      · rcases hk' with heq | ⟨hblock', hkey', -⟩
        · exact absurd heq (b.strict _ _ hlt ((hcs d).mp hmem').2.1).ne
        · exact ((hclean d hmem' hblock').2 _ hkey').2 (hbase c hmem)
      · rcases hk' with rfl | ⟨hblock', hkey', -⟩
        · exact ((hclean c hmem hblock).2 _ hkey).2 (hbase d hmem')
        · have hpage := h.page_unique hkey hkey'
          obtain ⟨i, rfl⟩ := Nat.dvd_of_mod_eq_zero hblock
          obtain ⟨j, rfl⟩ := Nat.dvd_of_mod_eq_zero hblock'
          rw [Nat.mul_div_cancel_left _ (by decide), Nat.mul_div_cancel_left _ (by decide)] at hpage
          exact absurd hlt (hpage ▸ lt_irrefl _)
  case keys =>
    intro k
    rw [hvisited, List.mem_flatMap]
    constructor
    · -- what a visit stores is in range
      rintro ⟨c, hmem, hk⟩
      obtain ⟨hac, hsize, hmax⟩ := (hcs c).mp hmem
      have hge : r.minKey ≤ b.keys c := by
        rw [← hr.low]
        exact b.strict.le hac hsize
      rw [mem_visitKeys, h.onBase.keys] at hk
      rcases hk with rfl | ⟨hblock, hkey, hgt⟩
      · exact ⟨⟨hge, hmax⟩, Or.inl (hbase c hmem)⟩
      · exact ⟨⟨hgt.le, ((hclean c hmem hblock).2 k hkey).1⟩, Or.inr (Or.inl ⟨_, hkey⟩)⟩
    · -- what is in range is stored by the visit of its block or of itself
      rintro ⟨hk, hkept⟩
      have hkeyed : b.IsBase k ∨ ∃ g, (idx.bufferPages g).HasKey k := by
        rcases hkept with hbase | hpage | htree
        · exact Or.inl hbase
        · exact Or.inr hpage
        · exact hc.tree k hk htree
      rcases hkeyed with ⟨c, hsize, rfl⟩ | ⟨g, hkey⟩
      · have hac : r.answer ≤ c := by
          apply b.strict.le_of_le hr.size
          rw [hr.low]
          exact hk.1
        refine ⟨c, (hcs c).mpr ⟨hac, hsize, hk.2⟩, ?_⟩
        rw [mem_visitKeys, h.onBase.keys]
        exact Or.inl rfl
      · obtain ⟨hgsize, hglow, -⟩ := h.page g k hkey
        have hlater := h.answer_lt_of_page hr hc.first hkey hk.1
        refine ⟨interleave * g, (hcs _).mpr ⟨hlater.le, hgsize, hglow.trans_lt hk.2⟩, ?_⟩
        rw [h.visitKeys_later hr hlater hgsize]
        exact List.mem_cons_of_mem _ hkey

end Exact

/-- When the stores of a task are right, for a request answered with its block. -/
theorem ScanState.storesRange_iff (h : b.ScanState idx) (hend : r.endKey = r.maxKey)
    (hblock : r.answer = interleave * (r.answer / pageRatio)) (hsize : r.answer < b.size)
    (hlow : b.keys r.answer ≤ r.minKey) : b.StoresRange idx p r ↔ b.ScanClean idx p r := by
  -- the walk goes through its first test only from the first key of a block
  rcases lt_or_ge r.minKey r.maxKey with hrange | hempty
  · rcases hlow.lt_or_eq with hlt | heq
    · rw [h.storesRange_inside hend hlt]
      exact ⟨fun hc _ => ⟨fun _ => hc, fun he => absurd he hlt.ne⟩, fun hc => (hc hrange).1 hlt⟩
    · have hr : b.Starts r := ⟨hblock, hsize, heq, hrange⟩
      constructor
      · intro hst _
        exact ⟨fun hlt => absurd heq hlt.ne, fun _ => h.alignedClean hend hr hst⟩
      · exact fun hc => h.storesRange_aligned hend hr ((hc hrange).2 heq)
  · -- nothing is in range, and nothing is stored
    have hnone : ∀ k, ¬ InRange r k := fun k hk => absurd (hk.1.trans_lt hk.2) (not_lt.mpr hempty)
    have hvisited : (idx.visited r).map Prod.fst = [] := by
      have hwalk : b.keys r.answer < r.minKey ∨ r.maxKey ≤ b.keys r.answer :=
        hlow.lt_or_eq.imp_right fun heq => by rwa [heq]
      rw [map_fst_visited, hend, h.walked_eq_nil hwalk, List.flatMap_nil, List.append_nil,
        List.filter_eq_nil_iff]
      intro k _ hk
      rw [decide_eq_true_eq] at hk
      exact hnone k hk
    refine iff_of_true ⟨?_, fun k => ?_⟩ fun hrange => absurd hrange (not_lt.mpr hempty)
    · rw [hvisited]
      exact List.nodup_nil
    · rw [hvisited]
      exact iff_of_false List.not_mem_nil fun hk => hnone k hk.1

section Served

variable {byKey : StdSort fun a b : DTYPE × StringPayload => decide (a.1 < b.1)}
  {lvl : DramLevel} {batch : ScanBatch} {nrDpus dpu j : ℕ} {st₀ : ScanLocals}

/-- Every answered task that is run up to this one stores no more than the array holds. -/
def FitsUpTo (idx : DramIndex BufPage OptNode) (batch : ScanBatch) (dpu j : ℕ) : Prop :=
  ∀ dpu' j', dpu' < dpu ∨ dpu' = dpu ∧ j' ≤ j → j' + 1 < batch.nTasks dpu' →
    (batch.request dpu' j').answer ≠ invaildPos →
      (idx.visited (batch.request dpu' j')).length ≤ maxScanLength

theorem fits_iff_fitsUpTo {pre post : List (ℕ × ℕ)}
    (h : batch.tasks nrDpus = pre ++ (dpu, j) :: post) :
    ScanLocals.Fits idx batch (pre ++ [(dpu, j)]) ↔ FitsUpTo idx batch dpu j := by
  have hdpu : dpu < nrDpus := by
    have hmem : (dpu, j) ∈ batch.tasks nrDpus := by
      rw [h]
      exact List.mem_append_right _ List.mem_cons_self
    exact (ScanBatch.mem_tasks.mp hmem).1
  constructor
  · -- the tasks run up to this one are those of smaller number, as far as the loop goes
    intro hfits dpu' j' hupTo htask
    apply hfits (dpu', j')
    rw [ScanBatch.mem_upTo h, ScanBatch.mem_tasks, ScanBatch.Before]
    exact ⟨⟨by simp only; omega, htask⟩, by simp only; omega⟩
  · intro hfits t ht
    rw [ScanBatch.mem_upTo h, ScanBatch.mem_tasks, ScanBatch.Before] at ht
    exact hfits t.1 t.2 (by omega) ht.1.2

/-- A task is served exactly if the run comes to it, its answer does not read as none, its end key
survives the 32 bits, and it stores its range. -/
theorem served_iff (hdpu : dpu < nrDpus) :
    b.Served idx byKey lvl batch nrDpus st₀ p dpu j ↔
      j + 1 < batch.nTasks dpu ∧ (batch.request dpu j).answer ≠ invaildPos ∧
        (batch.request dpu j).endKey = (batch.request dpu j).maxKey ∧
        FitsUpTo idx batch dpu j ∧ b.StoresRange idx p (batch.request dpu j) := by
  constructor
  · -- a run up to the task shows that all tasks before it fit
    rintro ⟨pre, post, st, htasks, hanswered, hrun, hmax, hexact⟩
    have hmem : (dpu, j) ∈ batch.tasks nrDpus := by
      rw [htasks]
      exact List.mem_append_right _ List.mem_cons_self
    obtain ⟨hfound, hend⟩ := ScanLocals.scanPayload_snoc hanswered hrun
    rw [hfound] at hexact
    refine ⟨(ScanBatch.mem_tasks.mp hmem).2, hanswered, hend.symm.trans hmax, ?_,
      (exactly_sort_iff byKey).mp hexact⟩
    exact (fits_iff_fitsUpTo htasks).mp (ScanLocals.exists_scanPayload_iff.mp ⟨st, hrun⟩)
  · -- tasks that fit have a run, and its last task leaves its own visits
    rintro ⟨htask, hanswered, hend, hfits, hst⟩
    obtain ⟨pre, post, htasks⟩ := List.append_of_mem
      (ScanBatch.mem_tasks.mpr ⟨hdpu, htask⟩ : (dpu, j) ∈ batch.tasks nrDpus)
    have hrun : ∃ st, scanPayload byKey idx lvl batch st₀ (pre ++ [(dpu, j)]) = some st :=
      ScanLocals.exists_scanPayload_iff.mpr ((fits_iff_fitsUpTo htasks).mpr hfits)
    obtain ⟨st, hrun⟩ := hrun
    obtain ⟨hfound, hmax⟩ := ScanLocals.scanPayload_snoc hanswered hrun
    refine ⟨pre, post, st, htasks, hanswered, hrun, hmax.trans hend, ?_⟩
    rw [hfound]
    exact (exactly_sort_iff byKey).mpr hst

end Served

/-- A request that was answered with its block is served exactly if it is not its DPU's last
task, the block's position does not read as no answer, the end key fits in 32 bits, no task up
to it overruns the array of results, and the state is clean for it. -/
theorem scan_exact_iff (b : BulkInput) (idx : DramIndex BufPage OptNode) (hidx : b.ScanState idx)
    (byKey : StdSort fun a b : DTYPE × StringPayload => decide (a.1 < b.1)) (lvl : DramLevel)
    (batch : ScanBatch) (nrDpus : ℕ) (st₀ : ScanLocals) (p dpu j : ℕ) (hdpu : dpu < nrDpus)
    (hcorrect : b.CorrectAnswer p (batch.request dpu j).minKey (batch.request dpu j).answer)
    (hlast : (batch.request dpu j).minKey < b.slice p (b.sliceSize - 1)) :
    b.Served idx byKey lvl batch nrDpus st₀ p dpu j ↔
      j + 1 < batch.nTasks dpu ∧ (batch.request dpu j).answer ≠ invaildPos ∧
        (batch.request dpu j).maxKey < 2 ^ 32 ∧ FitsUpTo idx batch dpu j ∧
          b.ScanClean idx p (batch.request dpu j) := by
  obtain ⟨g, hg, hsucc, hlow, -⟩ := hcorrect.block hlast
  have hbase := b.interleave_mul_partialTotalSize_le
  have hblock : (batch.request dpu j).answer =
      interleave * ((batch.request dpu j).answer / pageRatio) := by
    rw [hg, Nat.mul_div_cancel_left _ (by decide : 0 < pageRatio)]
  have hsize : (batch.request dpu j).answer < b.size := by
    rw [hg]
    exact (Nat.mul_lt_mul_of_pos_left (by omega) (by decide)).trans_le hbase
  have hkey : b.keys (batch.request dpu j).answer ≤ (batch.request dpu j).minKey := by
    rw [hg]
    exact hlow
  have hend : (batch.request dpu j).endKey = (batch.request dpu j).maxKey ↔
      (batch.request dpu j).maxKey < 2 ^ 32 :=
    ⟨fun h => h ▸ Nat.mod_lt _ (by decide), Nat.mod_eq_of_lt⟩
  rw [served_iff hdpu, hend]
  constructor
  · rintro ⟨htask, hanswered, hmax, hfits, hst⟩
    exact ⟨htask, hanswered, hmax, hfits,
      (hidx.storesRange_iff (hend.mpr hmax) hblock hsize hkey).mp hst⟩
  · rintro ⟨htask, hanswered, hmax, hfits, hclean⟩
    exact ⟨htask, hanswered, hmax, hfits,
      (hidx.storesRange_iff (hend.mpr hmax) hblock hsize hkey).mpr hclean⟩

/-- The first 2048 positive multiples of 2: two partial keys in every slice. -/
def evenPairs : BulkInput := multiples 2 2048 Nat.two_pos (by decide) (by decide)

theorem scanState_bulkLoad (b : BulkInput) : b.ScanState b.bulkLoad where
  onBase := Over.bulkLoad b
  sorted _ := List.Pairwise.nil
  page _ _ hk := absurd hk List.not_mem_nil

theorem correctAnswer_evenPairs (hlow : 2 ≤ k) (hhigh : k < 18) :
    evenPairs.CorrectAnswer 0 k 0 where
  invalid hge := absurd hhigh (not_lt.mpr hge)
  block _ := ⟨0, rfl, by decide, hlow, hhigh⟩

/-- DPU 0 with the requests `[2, 7)`, `[3, 7)` and `[4, 7)`, all answered with the first
block. -/
def threeScans : ScanBatch where
  nTasks dpu := if dpu = 0 then 3 else 0
  request _ j := ⟨2 + j, 7, 0⟩

/-- Locals before any task. -/
def freshLocals : ScanLocals := ⟨fun _ => (0, .ofByte 0), 0, 0⟩

theorem scanClean_evenPairs : evenPairs.ScanClean evenPairs.bulkLoad 0 ⟨2, 7, 0⟩ := by
  intro _
  refine ⟨fun hlt => absurd hlt (lt_irrefl _), fun _ => ?_⟩
  constructor
  case first => rfl
  case nodup => exact fun _ _ _ _ => List.nodup_nil
  case page => exact fun _ _ _ _ _ hk => absurd hk List.not_mem_nil
  case tree =>
    -- the tree has the sentinel, which is below the range, and samples of base keys
    intro k hk hkey
    obtain ⟨v, hv⟩ := OptNode.hasKey_iff.mp hkey
    rcases List.mem_cons.mp ((evenPairs.tree_spec 0).2.2 _ hv) with heq | hsample
    · rw [Prod.mk.injEq] at heq
      exact absurd hk.1 (by rw [heq.1]; decide)
    · obtain ⟨j, -, heq⟩ := List.mem_map.mp hsample
      rw [Prod.mk.injEq] at heq
      rw [← heq.1]
      exact Or.inl ⟨_, (Nat.mul_lt_mul_of_pos_left (Nat.lt_succ_of_le (Nat.min_le_right _ _))
        (by decide)).trans_le (by decide), rfl⟩

/-- The first of the three scans is served. -/
theorem scan_exact_evenPairs :
    evenPairs.Served evenPairs.bulkLoad (.byKey Prod.fst) .init threeScans 1 freshLocals
      0 0 0 := by
  refine (scan_exact_iff evenPairs evenPairs.bulkLoad (scanState_bulkLoad _) (.byKey Prod.fst)
    .init threeScans 1 freshLocals 0 0 0 (by decide)
    (correctAnswer_evenPairs le_rfl (by decide)) (by decide)).mpr
    ⟨by decide, by decide, by decide, ?_, scanClean_evenPairs⟩
  rintro dpu j (hlt | ⟨rfl, hj⟩) - -
  · exact absurd hlt (Nat.not_lt_zero _)
  · rw [Nat.le_zero.mp hj]
    decide +kernel

/-- The second one runs and misses key 4, which is in the base array; the third one is passed
over. -/
theorem scan_misses_four : evenPairs.ScanState evenPairs.bulkLoad ∧
    evenPairs.CorrectAnswer 0 3 0 ∧ evenPairs.CorrectAnswer 0 4 0 ∧
    ¬ evenPairs.Served evenPairs.bulkLoad (.byKey Prod.fst) .init threeScans 1 freshLocals
      0 0 1 ∧
    ¬ evenPairs.Served evenPairs.bulkLoad (.byKey Prod.fst) .init threeScans 1 freshLocals
      0 0 2 := by
  refine ⟨scanState_bulkLoad _, correctAnswer_evenPairs (by decide) (by decide),
    correctAnswer_evenPairs (by decide) (by decide), fun hserved => ?_, fun hserved => ?_⟩
  · obtain ⟨-, -, hend, -, hst⟩ := (served_iff (by decide)).mp hserved
    have hclean := ((scanState_bulkLoad _).storesRange_inside hend (by decide)).mp hst
    have hfour := hclean.page 4 ⟨by decide, by decide⟩ (Or.inl ⟨1, by decide, rfl⟩)
    exact absurd hfour List.not_mem_nil
  · obtain ⟨htask, -⟩ := (served_iff (by decide)).mp hserved
    exact absurd htask (by decide)

end BulkInput

end PimLex
