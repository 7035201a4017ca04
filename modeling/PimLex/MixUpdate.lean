import PimLex.Mix

/-!
# When an update changes its key and nothing else

An update is right for every content of the places exactly when its key is not
stored, when the answered block holds it, or when the search finds it in the very
block the answer names. Every other path writes a leftover or indexes the
payloads by an answer that is not the matched block.
-/

namespace PimLex

open Search

/-- An index whose pages and trees are exact maps. -/
abbrev MapIndex := DramIndex ExactMap ExactMap

namespace BulkInput

variable {b : BulkInput} {nr : ℕ → ℕ} {prev : DramLevel} {pgm : ℕ → DTYPE → ℕ × ℕ}
  {ins : InsertOps ExactMap ExactMap} {op : MixOp} {p d i : ℕ} {k : DTYPE} {answer : ℕ}
  {v w : StringPayload} {idx idx' : MapIndex} {st : MixState ExactMap ExactMap}

/-- The key has a payload somewhere: in the base arrays, a page or its partition's tree. -/
def Present (b : BulkInput) (idx : MapIndex) (p : ℕ) (k : DTYPE) : Prop :=
  b.IsBase k ∨ (∃ i, (idx.bufferPages i k).isSome) ∨ (idx.optOverflowTrees p k).isSome

/-- The key's payload, the base arrays first, then the pages, then the tree. -/
def PayloadIs (b : BulkInput) (idx : MapIndex) (p : ℕ) (k : DTYPE) (v : StringPayload) : Prop :=
  (∃ i < b.size, b.keys i = k ∧ idx.payloads i = v) ∨
    (¬ b.IsBase k ∧ ∃ i, idx.bufferPages i k = some v) ∨
    (¬ b.IsBase k ∧ (∀ i, idx.bufferPages i k = none) ∧ idx.optOverflowTrees p k = some v)

/-- Nothing is changed for any other key. -/
structure OthersKept (b : BulkInput) (idx idx' : MapIndex) (k : DTYPE) : Prop where
  payloads : ∀ i < b.size, b.keys i ≠ k → idx'.payloads i = idx.payloads i
  pages : ∀ i, ∀ q ≠ k, idx'.bufferPages i q = idx.bufferPages i q
  trees : ∀ t, ∀ q ≠ k, idx'.optOverflowTrees t q = idx.optOverflowTrees t q

/-- Every payload index used is the matched position and inside the array. -/
def SlotsRight (b : BulkInput) (st : MixState ExactMap ExactMap) : Prop :=
  ∀ a ∈ st.accesses, a.2 = a.1 ∧ a.2 < b.size

/-- What an update of `k` promises. -/
structure UpdateExact (b : BulkInput) (idx : MapIndex) (p : ℕ) (k : DTYPE)
    (st : MixState ExactMap ExactMap) : Prop where
  stored : b.Present idx p k → b.PayloadIs st.idx p k MixState.newVal
  others : b.OthersKept idx st.idx k
  absent : ¬ b.Present idx p k → st.idx = idx
  slots : b.SlotsRight st

/-- The same keys in the same places, with payloads of their own. -/
structure SameLayout (b : BulkInput) (idx idx' : MapIndex) : Prop where
  onBase : b.Over idx'
  pages : ∀ i q, (idx'.bufferPages i q).isSome = (idx.bufferPages i q).isSome
  trees : ∀ t q, (idx'.optOverflowTrees t q).isSome = (idx.optOverflowTrees t q).isSome

/-- The scan of the answered block finds the key. -/
def Direct (b : BulkInput) (k : DTYPE) (answer : ℕ) : Prop :=
  answer ≠ invaildPos ∧ ∃ m < interleave, answer + m < b.size ∧ b.keys (answer + m) = k

/-- The first look into page and tree leads on to the search. -/
def Searched (b : BulkInput) (idx : MapIndex) (p : ℕ) (k : DTYPE) (answer : ℕ) : Prop :=
  ¬ b.Direct k answer ∧ (answer < b.size →
    idx.bufferPages (answer / pageRatio) k = none ∧ (idx.optOverflowTrees p k).isSome)

/-- The search finds the key, in the block at `off`. -/
def FoundAt (b : BulkInput) (pgm : ℕ → DTYPE → ℕ × ℕ) (k : DTYPE) (off : ℕ) : Prop :=
  ∃ i < b.size, b.keys i = k ∧ i / interleave < b.covered ∧ ¬ b.Clamped pgm k ∧
    off = interleave * (i / interleave)

theorem Over.directScan_iff (hover : b.Over idx) :
    (∃ m, idx.directScan k answer = some m) ↔ b.Direct k answer := by
  rw [DramIndex.directScan, Direct]
  by_cases hne : answer ≠ invaildPos
  · rw [if_pos hne, ← hover.totalSize, ← hover.keys]
    simp only [hne, ne_eq, not_false_iff, true_and]
    constructor
    · rintro ⟨m, hm⟩
      exact ⟨m, DramIndex.scanBlock_eq_some hm⟩
    · rintro ⟨m, hm, hsize, hkey⟩
      by_contra hnone
      rw [← Option.ne_none_iff_exists', not_not] at hnone
      exact DramIndex.scanBlock_eq_none.mp hnone m hm hsize hkey
  · simp [hne]

theorem Over.directScan_eq_none (hover : b.Over idx) (h : ¬ b.Direct k answer) :
    idx.directScan k answer = none := by
  by_contra hne
  exact h (hover.directScan_iff.mp (Option.ne_none_iff_exists'.mp hne))

/-- A match of the search is in the block it searched. -/
theorem Over.foundAt_of_scan (hover : b.Over idx) (hpgm : b.Brackets pgm) {m : ℕ}
    (h : idx.scanBlock (DramIndex.curKeyOff (idx.fallbackBound (b.level nr prev) pgm k)) k =
      some m) :
    b.FoundAt pgm k (DramIndex.curKeyOff (idx.fallbackBound (b.level nr prev) pgm k)) := by
  obtain ⟨hsize, hkey⟩ := hover.scanBlock_eq_some h
  have hscan := hover.scanBlock_fallback hpgm hsize nr prev
  rw [hkey, h] at hscan
  generalize DramIndex.curKeyOff (idx.fallbackBound (b.level nr prev) pgm k) = cur at *
  have hdiv := Nat.div_add_mod (cur + m) interleave
  split_ifs at hscan with hfound
  rw [Option.some.injEq] at hscan
  exact ⟨cur + m, hsize, hkey, hfound.1, hfound.2, by omega⟩

theorem FoundAt.scan (h : b.FoundAt pgm k i) (hover : b.Over idx) (hpgm : b.Brackets pgm)
    (nr : ℕ → ℕ) (prev : DramLevel) :
    ∃ m, idx.scanBlock (DramIndex.curKeyOff (idx.fallbackBound (b.level nr prev) pgm k)) k =
      some m := by
  obtain ⟨j, hj, rfl, hcov, hclamp, -⟩ := h
  exact ⟨_, (hover.scanBlock_fallback hpgm hj nr prev).trans (if_pos ⟨hcov, hclamp⟩)⟩

theorem FoundAt.unique {off : ℕ} (h : b.FoundAt pgm k i) (h' : b.FoundAt pgm k off) :
    i = off := by
  obtain ⟨j, hj, hkey, -, -, rfl⟩ := h
  obtain ⟨j', hj', hkey', -, -, rfl⟩ := h'
  rw [b.strict.inj hj hj' (hkey.trans hkey'.symm)]

section Buffered

/-- What a look into a page and a tree does, for reads and updates alike. -/
structure BufferedSpec (b : BulkInput) (st : MixState ExactMap ExactMap) (ipos p : ℕ)
    (k : DTYPE) (r : Bool × MixState ExactMap ExactMap) : Prop where
  flag : r.1 = true ↔ st.idx.bufferPages ipos k = none ∧ (st.idx.optOverflowTrees p k).isSome
  onBase : b.Over st.idx → b.Over r.2.idx
  accesses : r.2.accesses = st.accesses
  payloads : r.2.idx.payloads = st.idx.payloads
  others : b.OthersKept st.idx r.2.idx k
  absent : st.idx.bufferPages ipos k = none → st.idx.optOverflowTrees p k = none →
    r.2.idx = st.idx

theorem OthersKept.refl (b : BulkInput) (idx : MapIndex) (k : DTYPE) : b.OthersKept idx idx k :=
  ⟨fun _ _ _ => rfl, fun _ _ _ => rfl, fun _ _ _ => rfl⟩

theorem update_of_isSome {m : ExactMap} (h : (m k).isSome) :
    m.update k v = (true, Function.update m k (some v)) := if_pos h

theorem update_of_none {m : ExactMap} (h : m k = none) : m.update k v = (false, m) :=
  if_neg (by simp [h])

theorem bufferedSpec_get (ins : InsertOps ExactMap ExactMap) (st : MixState ExactMap ExactMap)
    (ipos p : ℕ) (k : DTYPE) :
    b.BufferedSpec st ipos p k (st.buffered (.exact ins) .get ipos p k) := by
  cases hpage : st.idx.bufferPages ipos k with
  | some v =>
    have heq : st.buffered (.exact ins) .get ipos p k =
        (false, { st with ret := v, pret := v }) := by
      simp only [MixState.buffered, MixOps.exact, hpage]
    rw [heq]
    exact ⟨by simp [hpage], id, rfl, rfl, .refl b st.idx k, fun _ _ => rfl⟩
  | none =>
    have heq : st.buffered (.exact ins) .get ipos p k = ((st.idx.optOverflowTrees p k).isSome,
        { st with ret := (st.idx.optOverflowTrees p k).getD st.ret }) := by
      simp only [MixState.buffered, MixOps.exact, hpage]
    rw [heq]
    exact ⟨by simp [hpage], id, rfl, rfl, .refl b st.idx k, fun _ _ => rfl⟩

theorem buffered_update_page {st : MixState ExactMap ExactMap} {ipos : ℕ}
    (h : (st.idx.bufferPages ipos k).isSome) :
    st.buffered (.exact ins) .update ipos p k = (false, { st with
      idx := { st.idx with
        bufferPages := Function.update st.idx.bufferPages ipos
          (Function.update (st.idx.bufferPages ipos) k (some st.pret)) } }) := by
  simp only [MixState.buffered, MixOps.exact, update_of_isSome h, if_true]

theorem buffered_update_tree {st : MixState ExactMap ExactMap} {ipos : ℕ}
    (hpage : st.idx.bufferPages ipos k = none) (h : (st.idx.optOverflowTrees p k).isSome) :
    st.buffered (.exact ins) .update ipos p k = (true, { st with
      idx := { st.idx with
        optOverflowTrees := Function.update st.idx.optOverflowTrees p
          (Function.update (st.idx.optOverflowTrees p) k (some st.ret)) } }) := by
  simp only [MixState.buffered, MixOps.exact, update_of_none hpage, update_of_isSome h,
    Function.update_eq_self]
  rfl

theorem buffered_update_none {st : MixState ExactMap ExactMap} {ipos : ℕ}
    (hpage : st.idx.bufferPages ipos k = none) (h : st.idx.optOverflowTrees p k = none) :
    st.buffered (.exact ins) .update ipos p k = (false, st) := by
  simp only [MixState.buffered, MixOps.exact, update_of_none hpage, update_of_none h,
    Function.update_eq_self]
  rfl

/-- An update inside one map of a family changes no other key. -/
theorem update_other {f : ℕ → ExactMap} {j q : ℕ} (hq : q ≠ k) (i : ℕ) :
    Function.update f j (Function.update (f j) k (some v)) i q = f i q := by
  by_cases hi : i = j
  · subst hi
    rw [Function.update_self, Function.update_of_ne hq]
  · rw [Function.update_of_ne hi]

theorem bufferedSpec_update (ins : InsertOps ExactMap ExactMap)
    (st : MixState ExactMap ExactMap) (ipos p : ℕ) (k : DTYPE) :
    b.BufferedSpec st ipos p k (st.buffered (.exact ins) .update ipos p k) := by
  cases hpage : st.idx.bufferPages ipos k with
  | some v =>
    -- the page holds the key, and its payload becomes the leftover `pret`
    rw [buffered_update_page (by rw [hpage]; rfl)]
    refine ⟨by simp [hpage], fun h => h.buffers _ _ _, rfl, rfl,
      ⟨fun _ _ _ => rfl, fun i q hq => update_other hq i, fun _ _ _ => rfl⟩, fun h => ?_⟩
    rw [hpage] at h
    exact absurd h (Option.some_ne_none v)
  | none =>
    cases htree : st.idx.optOverflowTrees p k with
    | some v =>
      -- the tree holds the key; the flag leads on to the search all the same
      rw [buffered_update_tree hpage (by rw [htree]; rfl)]
      refine ⟨by simp [hpage, htree], fun h => h.buffers _ _ _, rfl, rfl,
        ⟨fun _ _ _ => rfl, fun _ _ _ => rfl, fun i q hq => update_other hq i⟩, fun _ h => ?_⟩
      rw [htree] at h
      exact absurd h (Option.some_ne_none v)
    | none =>
      -- neither holds it, and nothing is written
      rw [buffered_update_none hpage htree]
      exact ⟨by simp [htree], id, rfl, rfl, .refl b st.idx k, fun _ _ => rfl⟩

/-- One payload everywhere, in the leftovers too. -/
structure Uniform (st : MixState ExactMap ExactMap) (w : StringPayload) : Prop where
  payloads : ∀ i, st.idx.payloads i = w
  pages : ∀ i q v, st.idx.bufferPages i q = some v → v = w
  trees : ∀ t q v, st.idx.optOverflowTrees t q = some v → v = w
  ret : st.ret = w
  pret : st.pret = w

theorem Uniform.payload (h : Uniform st w) (hv : b.PayloadIs st.idx p k v) : v = w := by
  rcases hv with ⟨i, -, -, rfl⟩ | ⟨-, i, hi⟩ | ⟨-, -, ht⟩
  · exact h.payloads i
  · exact h.pages i k v hi
  · exact h.trees p k v ht

private theorem update_uniform {f : ℕ → ExactMap} (h : ∀ i q v, f i q = some v → v = w)
    (j : ℕ) (hv : v = w) :
    ∀ i q u, Function.update f j (Function.update (f j) k (some v)) i q = some u → u = w := by
  intro i q u hu
  by_cases hi : i = j
  · subst hi
    rw [Function.update_self] at hu
    by_cases hq : q = k
    · subst hq
      rw [Function.update_self, Option.some.injEq] at hu
      exact hu.symm.trans hv
    · rw [Function.update_of_ne hq] at hu
      exact h i q u hu
  · rw [Function.update_of_ne hi] at hu
    exact h i q u hu

/-- An update that stays in pages and trees spreads only what was there. -/
theorem Uniform.buffered (h : Uniform st w) (ipos p : ℕ) (k : DTYPE) :
    Uniform (st.buffered (.exact ins) .update ipos p k).2 w := by
  cases hpage : st.idx.bufferPages ipos k with
  | some v =>
    rw [buffered_update_page (by rw [hpage]; rfl)]
    exact ⟨h.payloads, update_uniform h.pages ipos h.pret, h.trees, h.ret, h.pret⟩
  | none =>
    cases htree : st.idx.optOverflowTrees p k with
    | some v =>
      rw [buffered_update_tree hpage (by rw [htree]; rfl)]
      exact ⟨h.payloads, h.pages, update_uniform h.trees p h.ret, h.ret, h.pret⟩
    | none =>
      rw [buffered_update_none hpage htree]
      exact h

end Buffered

section Flow

variable {lvl : DramLevel} {ops : MixOps ExactMap ExactMap}

theorem mixPayload_direct (hop : op ≠ .insert) {m : ℕ}
    (h : st.idx.directScan k answer = some m) :
    st.mixPayload ops lvl pgm op d k answer = st.access op (answer + m) (answer + m) := by
  rw [MixState.mixPayload, if_neg (fun hins => hop hins.2), h]

/-- Past the direct scan: a first look when the answer is inside the array, then the search. -/
theorem mixPayload_missed (hop : op ≠ .insert) (hpid : lvl.dpuIdToPartition d = p)
    (h : st.idx.directScan k answer = none) :
    st.mixPayload ops lvl pgm op d k answer =
      if answer < st.idx.totalSize then
        if (st.buffered ops op (answer / pageRatio) p k).1 then
          (st.buffered ops op (answer / pageRatio) p k).2.dramCheck ops lvl pgm op d k answer
        else (st.buffered ops op (answer / pageRatio) p k).2
      else st.dramCheck ops lvl pgm op d k answer := by
  rw [MixState.mixPayload, if_neg (fun hins => hop hins.2), h]
  by_cases hlt : answer < st.idx.totalSize
  · simp only [hpid, if_pos hlt]
  · simp only [if_neg hlt, if_true]

theorem dramCheck_found {m : ℕ}
    (h : st.idx.scanBlock (DramIndex.curKeyOff (st.idx.fallbackBound lvl pgm k)) k = some m) :
    st.dramCheck ops lvl pgm op d k answer =
      st.access op (DramIndex.curKeyOff (st.idx.fallbackBound lvl pgm k) + m) (answer + m) := by
  simp only [MixState.dramCheck, h]

theorem dramCheck_missed (hpid : lvl.dpuIdToPartition d = p)
    (h : st.idx.scanBlock (DramIndex.curKeyOff (st.idx.fallbackBound lvl pgm k)) k = none) :
    st.dramCheck ops lvl pgm op d k answer =
      if answer < st.idx.totalSize then
        (st.buffered ops op (DramIndex.curKeyOff (st.idx.fallbackBound lvl pgm k) / pageRatio %
          2 ^ 32) p k).2
      else st := by
  simp only [MixState.dramCheck, h, hpid]

/-- Updating the matched slot itself is exact, whatever the trees did to the key before. -/
theorem updateExact_access {pos : ℕ} (hothers : b.OthersKept idx st.idx k)
    (hacc : st.accesses = []) (hpos : pos < b.size) (hkey : b.keys pos = k) :
    b.UpdateExact idx p k (st.access .update pos pos) where
  stored _ := Or.inl ⟨pos, hpos, hkey, Function.update_self _ _ _⟩
  others := by
    refine ⟨fun i hi hne => ?_, hothers.pages, hothers.trees⟩
    rw [← hothers.payloads i hi hne]
    refine Function.update_of_ne ?_ _ _
    rintro rfl
    exact hne hkey
  absent h := absurd (Or.inl ⟨pos, hpos, hkey⟩) h
  slots a ha := by
    simp only [MixState.access, hacc, List.mem_singleton] at ha
    subst ha
    exact ⟨rfl, hpos⟩

theorem slotsRight_access (hop : op ≠ .insert) (hacc : st.accesses = []) {pos used : ℕ}
    (hpos : pos < b.size) : b.SlotsRight (st.access op pos used) ↔ used = pos := by
  have haccess : (st.access op pos used).accesses = [(pos, used)] := by
    cases op with
    | get => simp only [MixState.access, hacc]
    | update => simp only [MixState.access, hacc]
    | insert => exact absurd rfl hop
  rw [SlotsRight, haccess, List.forall_mem_singleton]
  exact ⟨And.left, fun h => ⟨h, by rw [h]; exact hpos⟩⟩

theorem update_exact_direct {m : ℕ} (hover : b.Over st.idx) (hacc : st.accesses = [])
    (hscan : st.idx.directScan k answer = some m) :
    b.UpdateExact st.idx p k
      (st.mixPayload (.exact ins) lvl pgm .update d k answer) := by
  rw [mixPayload_direct (by decide) hscan]
  have hne : answer ≠ invaildPos := fun heq => by simp [DramIndex.directScan, heq] at hscan
  rw [DramIndex.directScan, if_pos hne] at hscan
  obtain ⟨hsize, hkey⟩ := hover.scanBlock_eq_some hscan
  exact updateExact_access (.refl b st.idx k) hacc hsize hkey

end Flow

section Present

theorem Present.of_layout (h : b.Present idx' p k) (hlay : b.SameLayout idx idx') :
    b.Present idx p k := by
  rcases h with h | ⟨i, hi⟩ | ht
  · exact Or.inl h
  · exact Or.inr (Or.inl ⟨i, by rw [← hlay.pages]; exact hi⟩)
  · exact Or.inr (Or.inr (by rw [← hlay.trees]; exact ht))

theorem SameLayout.symm (h : b.SameLayout idx idx') (hover : b.Over idx) : b.SameLayout idx' idx :=
  ⟨hover, fun i q => (h.pages i q).symm, fun t q => (h.trees t q).symm⟩

theorem SameLayout.searched (h : b.SameLayout idx idx') (hs : b.Searched idx p k answer) :
    b.Searched idx' p k answer := by
  refine ⟨hs.1, fun hlt => ?_⟩
  obtain ⟨hpage, htree⟩ := hs.2 hlt
  rw [← Option.not_isSome_iff_eq_none] at hpage ⊢
  rw [h.pages, h.trees]
  exact ⟨hpage, htree⟩

/-- The same layout with one payload throughout. -/
def uniform (idx : MapIndex) (w : StringPayload) : MapIndex :=
  { idx with
    payloads := fun _ => w
    bufferPages := fun i q => (idx.bufferPages i q).map fun _ => w
    optOverflowTrees := fun t q => (idx.optOverflowTrees t q).map fun _ => w }

theorem sameLayout_uniform (hover : b.Over idx) (w : StringPayload) :
    b.SameLayout idx (uniform idx w) :=
  ⟨hover.buffers _ _ _, fun _ _ => Option.isSome_map,
    fun _ _ => Option.isSome_map⟩

theorem uniform_uniform (idx : MapIndex) (w : StringPayload) :
    Uniform ⟨uniform idx w, w, w, []⟩ w := by
  have hmap : ∀ (o : Option StringPayload) v, o.map (fun _ => w) = some v → v = w := by
    intro o v hv
    obtain ⟨_, -, rfl⟩ := Option.map_eq_some_iff.mp hv
    rfl
  exact ⟨fun _ => rfl, fun _ _ => hmap _, fun _ _ => hmap _, rfl, rfl⟩

end Present

section Requests

variable (hpgm : b.Brackets pgm) (hpid : (b.level nr prev).dpuIdToPartition d = p)
include hpgm hpid

/-- The search of an update writes exactly when it finds the key in the answered block. -/
theorem dramCheck_update (hover : b.Over st.idx) (hu : Uniform st w) (hw : w ≠ MixState.newVal)
    (hacc : st.accesses = []) (hstored : b.PayloadIs
      (st.dramCheck (.exact ins) (b.level nr prev) pgm .update d k answer).idx p k MixState.newVal)
    (hslots : b.SlotsRight (st.dramCheck (.exact ins) (b.level nr prev) pgm .update d k answer)) :
    b.FoundAt pgm k answer := by
  cases hscan : st.idx.scanBlock
      (DramIndex.curKeyOff (st.idx.fallbackBound (b.level nr prev) pgm k)) k with
  | some m =>
    rw [dramCheck_found hscan, slotsRight_access (by decide) hacc (hover.scanBlock_eq_some hscan).1]
      at hslots
    -- matched and used slot agree, so the blocks do
    rw [Nat.add_right_cancel hslots]
    exact hover.foundAt_of_scan hpgm hscan
  | none =>
    -- a missed search leaves at most the leftovers, all of the one payload
    rw [dramCheck_missed hpid hscan] at hstored
    split_ifs at hstored
    · exact absurd ((hu.buffered _ p k).payload hstored).symm hw
    · exact absurd (hu.payload hstored).symm hw

/-- Only the three kinds of paths can be right for one payload throughout. -/
theorem update_exact_uniform (hover : b.Over st.idx) (hu : Uniform st w)
    (hw : w ≠ MixState.newVal) (hacc : st.accesses = [])
    (h : b.UpdateExact st.idx p k
      (st.mixPayload (.exact ins) (b.level nr prev) pgm .update d k answer)) :
    ¬ b.Present st.idx p k ∨ b.Direct k answer ∨
      (b.Searched st.idx p k answer ∧ b.FoundAt pgm k answer) := by
  by_contra hnone
  rw [not_or, not_not, not_or] at hnone
  obtain ⟨hpresent, hdirect, hsearch⟩ := hnone
  have hstored := h.stored hpresent
  have hslots := h.slots
  have hscan := hover.directScan_eq_none hdirect
  have hspec := bufferedSpec_update (b := b) ins st (answer / pageRatio) p k
  rw [mixPayload_missed (by decide) hpid hscan, hover.totalSize] at hstored hslots
  -- the three ways past the direct scan: look and search, look alone, search alone
  split_ifs at hstored hslots with hlt hflag
  · have hfound := dramCheck_update hpgm hpid (hspec.onBase hover) (hu.buffered _ p k) hw
      (hspec.accesses.trans hacc) hstored hslots
    exact hsearch ⟨⟨hdirect, fun _ => hspec.flag.mp hflag⟩, hfound⟩
  · exact absurd ((hu.buffered _ p k).payload hstored).symm hw
  · have hfound := dramCheck_update hpgm hpid hover hu hw hacc hstored hslots
    exact hsearch ⟨⟨hdirect, fun hlt' => absurd hlt' hlt⟩, hfound⟩

omit hpgm in
theorem update_exact_absent (hover : b.Over st.idx) (hacc : st.accesses = [])
    (h : ¬ b.Present st.idx p k) :
    b.UpdateExact st.idx p k
      (st.mixPayload (.exact ins) (b.level nr prev) pgm .update d k answer) := by
  obtain ⟨hbase, hrest⟩ := not_or.mp h
  obtain ⟨hpages, htree⟩ := not_or.mp hrest
  have hscan : ∀ off, st.idx.scanBlock off k = none :=
    hover.scanBlock_eq_none fun i hi hkey => hbase ⟨i, hi, hkey⟩
  have hdirect : st.idx.directScan k answer = none := by
    rw [DramIndex.directScan, hscan, ite_self]
  have hnone : ∀ i, st.idx.bufferPages i k = none := fun i =>
    Option.not_isSome_iff_eq_none.mp (not_exists.mp hpages i)
  -- every place the update looks at is without the key
  have hsame : st.mixPayload (.exact ins) (b.level nr prev) pgm .update d k answer = st := by
    rw [mixPayload_missed (by decide) hpid hdirect,
      buffered_update_none (hnone _) (Option.not_isSome_iff_eq_none.mp htree),
      dramCheck_missed hpid (hscan _)]
    by_cases hlt : answer < st.idx.totalSize <;> simp [hlt]
  rw [hsame]
  refine ⟨fun hp => absurd hp h, .refl b st.idx k, fun _ => rfl, ?_⟩
  rw [SlotsRight, hacc]
  simp

theorem update_exact_searched (hover : b.Over st.idx) (hacc : st.accesses = [])
    (hs : b.Searched st.idx p k answer) (hf : b.FoundAt pgm k answer) :
    b.UpdateExact st.idx p k
      (st.mixPayload (.exact ins) (b.level nr prev) pgm .update d k answer) := by
  have hscan := hover.directScan_eq_none hs.1
  -- the answer names the block of a base key, so the first look was made
  have hlt : answer < b.size := by
    obtain ⟨i, hi, -, -, -, rfl⟩ := hf
    exact (Nat.mul_div_le i interleave).trans_lt hi
  have hspec := bufferedSpec_update (b := b) ins st (answer / pageRatio) p k
  have hover' := hspec.onBase hover
  obtain ⟨m, hm⟩ := hf.scan hover' hpgm nr prev
  obtain ⟨hsize, hkey⟩ := hover'.scanBlock_eq_some hm
  have hcur := (hover'.foundAt_of_scan hpgm hm).unique hf
  rw [mixPayload_missed (by decide) hpid hscan, hover.totalSize, if_pos hlt,
    if_pos (hspec.flag.mpr (hs.2 hlt)), dramCheck_found hm, hcur]
  rw [hcur] at hsize hkey
  exact updateExact_access hspec.others (hspec.accesses.trans hacc) hsize hkey

/-- The search of a read uses a wrong slot exactly when it finds the key in another block
than the answered one. -/
theorem dramCheck_get (hover : b.Over st.idx) (hacc : st.accesses = []) :
    b.SlotsRight (st.dramCheck (.exact ins) (b.level nr prev) pgm .get d k answer) ↔
      ¬ ∃ off ≠ answer, b.FoundAt pgm k off := by
  cases hscan : st.idx.scanBlock
      (DramIndex.curKeyOff (st.idx.fallbackBound (b.level nr prev) pgm k)) k with
  | some m =>
    have hfound := hover.foundAt_of_scan hpgm hscan
    rw [dramCheck_found hscan, slotsRight_access (by decide) hacc (hover.scanBlock_eq_some hscan).1,
      Nat.add_right_cancel_iff]
    refine ⟨fun heq ⟨off, hne, hoff⟩ => hne ?_, fun hnone => ?_⟩
    · rw [heq]
      exact hoff.unique hfound
    · by_contra hne
      exact hnone ⟨_, Ne.symm hne, hfound⟩
  | none =>
    -- a missed search uses no slot, and there is no block where it finds the key
    have hnone : ¬ ∃ off ≠ answer, b.FoundAt pgm k off := by
      rintro ⟨off, -, hoff⟩
      obtain ⟨m, hm⟩ := hoff.scan hover hpgm nr prev
      rw [hscan] at hm
      exact Option.some_ne_none m hm.symm
    refine iff_of_true ?_ hnone
    have haccesses :
        (st.dramCheck (.exact ins) (b.level nr prev) pgm .get d k answer).accesses = [] := by
      rw [dramCheck_missed hpid hscan]
      split_ifs
      · exact (bufferedSpec_get (b := b) ins st _ p k).accesses.trans hacc
      · exact hacc
    rw [SlotsRight, haccesses]
    simp

theorem get_slots_iff (hover : b.Over st.idx) (hacc : st.accesses = []) :
    b.SlotsRight (st.mixPayload (.exact ins) (b.level nr prev) pgm .get d k answer) ↔
      ¬ (b.Searched st.idx p k answer ∧ ∃ off ≠ answer, b.FoundAt pgm k off) := by
  by_cases hdirect : b.Direct k answer
  · obtain ⟨m, hm⟩ := hover.directScan_iff.mpr hdirect
    refine iff_of_true ?_ fun h => h.1.1 hdirect
    rw [mixPayload_direct (by decide) hm]
    rw [DramIndex.directScan, if_pos hdirect.1] at hm
    exact (slotsRight_access (by decide) hacc (hover.scanBlock_eq_some hm).1).mpr rfl
  · have hscan := hover.directScan_eq_none hdirect
    have hspec := bufferedSpec_get (b := b) ins st (answer / pageRatio) p k
    rw [mixPayload_missed (by decide) hpid hscan, hover.totalSize]
    split_ifs with hlt hflag
    · -- the first look leads on to the search
      have hsearched : b.Searched st.idx p k answer := ⟨hdirect, fun _ => hspec.flag.mp hflag⟩
      rw [dramCheck_get hpgm hpid (hspec.onBase hover) (hspec.accesses.trans hacc)]
      simp only [hsearched, true_and]
    · -- the first look ends the read, without a slot
      refine iff_of_true ?_ fun h => hflag (hspec.flag.mpr (h.1.2 hlt))
      rw [SlotsRight, hspec.accesses, hacc]
      simp
    · -- no first look at an answer beyond the array
      have hsearched : b.Searched st.idx p k answer := ⟨hdirect, fun h => absurd h hlt⟩
      rw [dramCheck_get hpgm hpid hover hacc]
      simp only [hsearched, true_and]

end Requests

/-- For every layout of keys and every answer: an update is exact, whatever the payloads and
leftovers, if and only if the key is absent, in the answered block, or found by the search in
the answered block; and a read uses the slot it matched if and only if the search does not
find the key in another block. -/
theorem mixPayload_exact_iff (b : BulkInput) (nr : ℕ → ℕ) (prev : DramLevel)
    (pgm : ℕ → DTYPE → ℕ × ℕ) (ins : InsertOps ExactMap ExactMap) (idx : MapIndex) (p d : ℕ)
    (k : DTYPE) (answer : ℕ) (hover : b.Over idx) (hpgm : b.Brackets pgm) (hown : b.Owns p k)
    (hd : Hosts nr d p) :
    ((∀ idx' ret pret, b.SameLayout idx idx' →
      b.UpdateExact idx' p k (MixState.mixPayload ⟨idx', ret, pret, []⟩ (.exact ins)
        (b.level nr prev) pgm .update d k answer)) ↔
      ¬ b.Present idx p k ∨ b.Direct k answer ∨
        (b.Searched idx p k answer ∧ b.FoundAt pgm k answer)) ∧
    ((∀ idx' ret pret, b.SameLayout idx idx' →
      b.SlotsRight (MixState.mixPayload ⟨idx', ret, pret, []⟩ (.exact ins)
        (b.level nr prev) pgm .get d k answer)) ↔
      ¬ (b.Searched idx p k answer ∧ ∃ off ≠ answer, b.FoundAt pgm k off)) := by
  have hpid : (b.level nr prev).dpuIdToPartition d = p := level_dpuIdToPartition hown.lt hd
  refine ⟨⟨fun hall => ?_, fun hcond idx' ret pret hlay => ?_⟩, fun hall => ?_,
    fun hcond idx' ret pret hlay => ?_⟩
  · -- one payload other than `new_val` throughout tells every wrong write apart
    have hlay := sameLayout_uniform hover (.ofByte 0)
    have huni := uniform_uniform idx (.ofByte 0)
    have hw : StringPayload.ofByte 0 ≠ MixState.newVal := fun heq =>
      absurd (StringPayload.ofByte_injective heq) (by decide)
    have hback := hlay.symm hover
    rcases update_exact_uniform hpgm hpid hlay.onBase huni hw rfl (hall _ _ _ hlay) with
      habs | hdirect | ⟨hs, hf⟩
    · exact Or.inl fun hp => habs (hp.of_layout hback)
    · exact Or.inr (Or.inl hdirect)
    · exact Or.inr (Or.inr ⟨hback.searched hs, hf⟩)
  · have hover' : b.Over (MixState.mk idx' ret pret []).idx := hlay.onBase
    rcases hcond with habs | hdirect | ⟨hs, hf⟩
    · exact update_exact_absent hpid hover' rfl fun hp : b.Present idx' p k =>
        habs (hp.of_layout hlay)
    · obtain ⟨m, hm⟩ := hover'.directScan_iff.mpr hdirect
      exact update_exact_direct hover' rfl hm
    · exact update_exact_searched hpgm hpid hover' rfl (hlay.searched hs) hf
  · -- the layout itself is one of those the reads range over
    have hself : b.SameLayout idx idx := ⟨hover, fun _ _ => rfl, fun _ _ => rfl⟩
    exact (get_slots_iff hpgm hpid hover rfl).mp (hall idx (.ofByte 0) (.ofByte 0) hself)
  · refine (get_slots_iff hpgm hpid hlay.onBase rfl).mpr fun h => hcond ⟨?_, h.2⟩
    exact (hlay.symm hover).searched h.1

/-- The base arrays of a bulk load, with nothing in pages and trees. -/
def bareMaps (b : BulkInput) : MapIndex where
  minKey := b.keys 0
  partialKeys := b.partialKeys
  keys := b.keys
  payloads _ := .ofByte 99
  totalSize := b.size
  partialTotalSize := b.partialTotalSize
  bufferPages _ _ := none
  optOverflowTrees _ _ := none

theorem over_bareMaps (b : BulkInput) : b.Over b.bareMaps := ⟨rfl, rfl, rfl, rfl, rfl⟩

theorem owns_kibi_one : kibi.Owns 0 1 := ⟨by decide, by decide, by decide⟩

/-- Insertions that do nothing; updates and reads never call them. -/
def noInsertions : InsertOps ExactMap ExactMap := ⟨fun m _ _ => (true, m), fun m _ _ => m⟩

/-- The conditions on updating and reading key 1 of 1024 with an open answer. -/
theorem mixPayload_kibi_one :
    ((∀ idx' ret pret, kibi.SameLayout kibi.bareMaps idx' →
      kibi.UpdateExact idx' 0 1 (MixState.mixPayload ⟨idx', ret, pret, []⟩ (.exact noInsertions)
        (kibi.level (fun _ => 1) .init) kibi.wholeSlice .update 0 1 invaildPos)) ↔
      ¬ kibi.Present kibi.bareMaps 0 1 ∨ kibi.Direct 1 invaildPos ∨
        (kibi.Searched kibi.bareMaps 0 1 invaildPos ∧
          kibi.FoundAt kibi.wholeSlice 1 invaildPos)) ∧
    ((∀ idx' ret pret, kibi.SameLayout kibi.bareMaps idx' →
      kibi.SlotsRight (MixState.mixPayload ⟨idx', ret, pret, []⟩ (.exact noInsertions)
        (kibi.level (fun _ => 1) .init) kibi.wholeSlice .get 0 1 invaildPos)) ↔
      ¬ (kibi.Searched kibi.bareMaps 0 1 invaildPos ∧
        ∃ off ≠ invaildPos, kibi.FoundAt kibi.wholeSlice 1 off)) :=
  mixPayload_exact_iff kibi (fun _ => 1) .init kibi.wholeSlice noInsertions kibi.bareMaps 0 0 1
    invaildPos kibi.over_bareMaps kibi.brackets_wholeSlice owns_kibi_one ⟨by decide, by decide⟩

/-- Updating key 1 of 1024, which the kernel answers with `INVAILD_POS`, is not exact. -/
theorem update_kibi_one_lost :
    kibi.Brackets kibi.wholeSlice ∧ kibi.Owns 0 1 ∧ Hosts (fun _ => 1) 0 0 ∧
      kibi.CorrectAnswer 0 1 invaildPos ∧
      ¬ kibi.UpdateExact kibi.bareMaps 0 1
        (MixState.mixPayload ⟨kibi.bareMaps, .ofByte 99, .ofByte 99, []⟩ (.exact noInsertions)
          (kibi.level (fun _ => 1) .init) kibi.wholeSlice .update 0 1 invaildPos) := by
  have hd : Hosts (fun _ => 1) 0 0 := ⟨by decide, by decide⟩
  refine ⟨kibi.brackets_wholeSlice, owns_kibi_one, hd,
    ⟨fun _ => rfl, fun hlt => absurd hlt (by decide)⟩, fun hexact => ?_⟩
  have huni : Uniform ⟨kibi.bareMaps, .ofByte 99, .ofByte 99, []⟩ (.ofByte 99) :=
    ⟨fun _ => rfl, fun _ _ _ h => absurd h.symm (Option.some_ne_none _),
      fun _ _ _ h => absurd h.symm (Option.some_ne_none _), rfl, rfl⟩
  have hw : StringPayload.ofByte 99 ≠ MixState.newVal := fun heq =>
    absurd (StringPayload.ofByte_injective heq) (by decide)
  rcases update_exact_uniform kibi.brackets_wholeSlice
    (level_dpuIdToPartition (by decide) hd) kibi.over_bareMaps huni hw rfl hexact with
    habs | hdirect | ⟨-, i, hi, -, -, -, hoff⟩
  · exact habs (Or.inl ⟨0, by decide, rfl⟩)
  · exact hdirect.1 rfl
  · have hsize : i < 1024 := hi
    simp only [interleave, invaildPos] at hoff
    omega

end BulkInput

end PimLex
