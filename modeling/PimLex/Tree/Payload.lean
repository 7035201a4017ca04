import PimLex.Tree.Placement

/-!
# The payload under a key

The leaf that a descent reaches carries one payload for its key, and insertions and
updates treat it as a map does: the first insertion sets it, an update replaces it,
and nothing else touches it. This holds even where a split has put a second entry
into the left neighbour, since no descent for the key goes there.

What is carried does not come out: in `searchLeaf` the assignment to its argument
`p` is commented out, so `lookup` leaves `result` as it was.
-/

namespace PimLex.OptNode

/-- `searchLeaf` with its argument `p`, to which the code no longer assigns. -/
def searchLeafInto (es : List (DTYPE × StringPayload)) (k : DTYPE) (p : StringPayload) :
    Bool × StringPayload := (searchLeaf es k, p)

/-- `OptBTree::lookup` with its argument `result`. -/
def lookupInto (t : OptNode) (k : DTYPE) (result : StringPayload) :
    Except Fault (Bool × StringPayload) :=
  (t.descend k).map fun es => searchLeafInto es k result

/-- The leaf that a descent for the key reaches has the key with this payload. -/
def Carries (t : OptNode) (k : DTYPE) (v : StringPayload) : Prop :=
  ∃ es, t.descend k = .ok es ∧ (k, v) ∈ es

variable {t t' : OptNode} {k q lo : DTYPE} {p v : StringPayload} {ret : Bool}
  {es : List (DTYPE × StringPayload)} {keys : Fin childNum → DTYPE}
  {pointers : Fin childNum → OptNode} {i pos : Fin childNum}

section Descent

theorem carries_leaf : (leaf es).Carries q v ↔ (q, v) ∈ es := by
  refine ⟨fun ⟨es', heq, h⟩ => ?_, fun h => ⟨es, rfl, h⟩⟩
  obtain rfl := Except.ok.inj heq
  exact h

theorem Enters.childIndex_eq (h : Enters keys k pos) (mono : StrictMono keys) :
    childIndex keys k = some pos := childIndex_eq_some mono h.1 h.2

theorem Enters.first_le (h : Enters keys k pos) (mono : StrictMono keys) : keys 0 ≤ k :=
  (mono.monotone (Fin.zero_le pos)).trans h.1

theorem exists_enters (mono : StrictMono keys) (h0 : keys 0 ≤ k) : ∃ pos, Enters keys k pos := by
  obtain ⟨pos, -, hle, hgt⟩ := exists_childIndex mono h0
  exact ⟨pos, hle, hgt⟩

theorem Enters.carries_iff (h : Enters keys q pos) (mono : StrictMono keys) :
    (inner keys pointers).Carries q v ↔ (pointers pos).Carries q v := by
  simp only [Carries, descend, if_neg (not_lt.mpr (h.first_le mono)), h.childIndex_eq mono]

/-- A covered key is stored exactly if the tree carries a payload for it. -/
theorem Wf.hasKey_iff_carries (wf : t.Wf) (hq : t.Covers q) :
    t.HasKey q ↔ ∃ v, t.Carries q v := by
  obtain ⟨es, hes, -, hmem, -⟩ := descend_spec wf hq
  rw [← hmem, List.mem_map]
  constructor
  · rintro ⟨e, he, rfl⟩
    exact ⟨e.2, es, hes, he⟩
  · rintro ⟨v, es', hes', h⟩
    obtain rfl := Except.ok.inj (hes.symm.trans hes')
    exact ⟨(q, v), h, rfl⟩

end Descent

section Split

/-- A separator of a split leaf is the key of its child's entry. -/
theorem enters_splitKeys (hs : Sorted es) (hlen : es.length = childNum) (i : Fin childNum) :
    Enters (splitKeys es) (splitKeys es i) i :=
  ⟨le_rfl, fun _ hij => (wf_splitNode hs hlen).1 hij⟩

/-- The child that a descent enters after a split has the entry that the leaf had. -/
theorem mem_splitLeaf_iff (hs : Sorted es) (hlen : es.length = childNum)
    (h : Enters (splitKeys es) q pos) : (q, v) ∈ splitLeaf es pos ↔ (q, v) ∈ es := by
  rw [splitLeaf_eq hlen, List.mem_singleton]
  constructor
  · intro heq
    rw [heq]
    exact List.get_mem es _
  · intro hmem
    obtain ⟨i, hi, heq⟩ := List.getElem_of_mem hmem
    have hkey := splitKeys_eq hlen ⟨i, hlen ▸ hi⟩
    rw [List.get_eq_getElem, heq] at hkey
    have henters := enters_splitKeys hs hlen ⟨i, hlen ▸ hi⟩
    rw [hkey] at henters
    obtain rfl := henters.unique h
    exact heq.symm

/-- A key enters the child that the split has picked exactly if the leaf did not have it. -/
theorem enters_next_iff {next : Fin childNum} (hs : Sorted es) (hlen : es.length = childNum)
    (low : splitKeys es next < k) (high : ∀ j, next < j → k ≤ splitKeys es j) :
    Enters (splitKeys es) k next ↔ ¬ (leaf es).HasKey k := by
  constructor
  · -- the key would be the one of the child's entry, which is below it
    intro hnext hhas
    obtain ⟨e, he, rfl⟩ := List.mem_map.mp (hasKey_leaf.mp hhas)
    have hmem := (mem_splitLeaf_iff (v := e.2) hs hlen hnext).mpr he
    rw [splitLeaf_eq hlen, List.mem_singleton] at hmem
    rw [splitKeys_eq hlen, ← hmem] at low
    exact lt_irrefl _ low
  · intro hnot
    refine ⟨low.le, fun j hj => lt_of_le_of_ne (high j hj) ?_⟩
    rintro rfl
    refine hnot (hasKey_leaf.mpr ?_)
    rw [splitKeys_eq hlen]
    exact List.mem_map_of_mem (List.get_mem es _)

end Split

section Insert

/-- An insertion gives its payload to a key that has none, and leaves all others. -/
theorem Inserted.carries_iff (h : Inserted k p t t') (wf : t.Wf) (hk : t.Covers k)
    (hq : t.Covers q) :
    t'.Carries q v ↔ t.Carries q v ∨ (¬ t.HasKey k ∧ (q, v) = (k, p)) := by
  induction h with
  | present room mem => simp [hasKey_leaf.mpr mem]
  | @absent a b room low high =>
    have hnot : ¬ (leaf (a ++ b)).HasKey k := mt hasKey_leaf.mp (notMem_of_between low high)
    simp only [carries_leaf, List.mem_append, List.mem_cons, hnot, not_false_eq_true, true_and]
    tauto
  | @beneath es full le =>
    have hfirst : keyAt es 0 ≤ q := hq _ (headKey_of_full full)
    have mono : StrictMono (splitKeys es) := (wf_splitNode wf.1 full).1
    obtain ⟨pos, henters⟩ := exists_enters mono hfirst
    -- the key is the first one, so it is there already
    have hhas : (leaf es).HasKey k := by
      obtain rfl : k = keyAt es 0 := le_antisymm le (hk _ (headKey_of_full full))
      exact wf.hasKey_head (headKey_of_full full)
    rw [splitNode, henters.carries_iff mono, carries_leaf, carries_leaf,
      mem_splitLeaf_iff wf.1 full henters]
    simp [hhas]
  | @split es next full first low high =>
    have mono : StrictMono (splitKeys es) := (wf_splitNode wf.1 full).1
    obtain ⟨pos, henters⟩ := exists_enters mono (hq _ (headKey_of_full full))
    have hnext : Enters (splitKeys es) k next ↔ ¬ (leaf es).HasKey k :=
      enters_next_iff wf.1 full low high
    rw [henters.carries_iff mono, carries_leaf]
    rcases eq_or_ne pos next with rfl | hpos
    · rw [Function.update_self, carries_leaf, List.mem_append, mem_splitLeaf_iff wf.1 full henters,
        List.mem_singleton]
      refine or_congr_right ⟨fun heq => ⟨hnext.mp ?_, heq⟩, And.right⟩
      obtain ⟨rfl, -⟩ := Prod.mk.injEq _ _ _ _ ▸ heq
      exact henters
    · rw [Function.update_of_ne hpos, carries_leaf, mem_splitLeaf_iff wf.1 full henters]
      refine (or_iff_left ?_).symm
      rintro ⟨hnot, heq⟩
      obtain ⟨rfl, -⟩ := Prod.mk.injEq _ _ _ _ ▸ heq
      exact hpos (henters.unique (hnext.mpr hnot))
  | @stay keys pointers le =>
    obtain rfl : k = keys 0 := le_antisymm le (hk _ rfl)
    simp [wf.hasKey_head headKey_inner]
  | @child keys pointers pos child first enters _ ih =>
    have hchild := wf.2.1 pos
    obtain ⟨posq, hposq⟩ := exists_enters wf.1 (hq _ rfl)
    rw [hposq.carries_iff wf.1, hposq.carries_iff wf.1, ← wf.hasKey_child enters.1 enters.2]
    rcases eq_or_ne posq pos with rfl | hne
    · rw [Function.update_self]
      exact ih hchild.1 (covers_of_head hchild.2 enters.1) (covers_of_head hchild.2 hposq.1)
    · -- a key that goes another way is another key
      rw [Function.update_of_ne hne]
      refine (or_iff_left ?_).symm
      rintro ⟨-, heq⟩
      obtain ⟨rfl, -⟩ := Prod.mk.injEq _ _ _ _ ▸ heq
      exact hne (hposq.unique enters)

end Insert

section Update

theorem updateLeaf_sorted (hs : Sorted es) (k : DTYPE) (p : StringPayload) :
    Sorted (updateLeaf es k p).2 := by
  have hkeys : ((updateLeaf es k p).2.map Prod.fst).Pairwise (· < ·) := by
    rw [updateLeaf_keys]
    exact List.pairwise_map.mpr hs
  exact List.pairwise_map.mp hkeys

/-- An update of a leaf replaces the payload of its key, if it has the key. -/
theorem mem_updateLeaf_iff (hs : Sorted es) :
    (q, v) ∈ (updateLeaf es k p).2 ↔
      if q = k then k ∈ es.map Prod.fst ∧ v = p else (q, v) ∈ es := by
  by_cases hmem : k ∈ es.map Prod.fst
  · obtain ⟨hlt, hkey⟩ := (lowerBound_hit_iff hs).mpr hmem
    have hne : es.length ≠ 0 := by omega
    simp only [updateLeaf, if_pos hne, if_pos (And.intro hlt hkey)]
    generalize lowerBound es k = n at hlt hkey
    rw [keyAt_eq_getElem hlt] at hkey
    -- the entry of the key, those before it and those behind it
    have hsplit : es = es.take n ++ es[n] :: es.drop (n + 1) := by
      rw [← List.drop_eq_getElem_cons hlt, List.take_append_drop]
    have hparts := hs
    rw [hsplit, Sorted, List.pairwise_append, List.pairwise_cons] at hparts
    obtain ⟨-, ⟨hbehind, -⟩, hbefore⟩ := hparts
    rw [List.set_eq_take_append_cons_drop, if_pos hlt]
    conv_rhs => rw [hsplit]
    simp only [List.mem_append, List.mem_cons]
    split_ifs with hq
    · subst hq
      refine ⟨?_, fun h => Or.inr (Or.inl (by rw [h.2]))⟩
      rintro (h | h | h)
      · exact absurd (hkey ▸ hbefore _ h _ List.mem_cons_self) (lt_irrefl _)
      · exact ⟨by rw [← hsplit]; exact hmem, congrArg Prod.snd h⟩
      · exact absurd (hkey ▸ hbehind _ h) (lt_irrefl _)
    · have hnew : (q, v) ≠ (k, p) := fun h => hq (congrArg Prod.fst h)
      have hold : (q, v) ≠ es[n] := fun h => hq ((congrArg Prod.fst h).trans hkey)
      simp only [hnew, hold, false_or]
  · have hmiss := mt (lowerBound_hit_iff hs).mp hmem
    have hsame : (updateLeaf es k p).2 = es := by
      simp only [updateLeaf, if_neg hmiss]
      split_ifs <;> rfl
    rw [hsame]
    split_ifs with hq
    · subst hq
      exact iff_of_false (fun h => hmem (List.mem_map_of_mem h)) fun h => hmem h.1
    · rfl

theorem hasKey_congr (h : t'.entries.map Prod.fst = t.entries.map Prod.fst) (q : DTYPE) :
    t'.HasKey q ↔ t.HasKey q := by
  rw [HasKey, HasKey, h]

/-- What one `update` call does to a well-formed tree. -/
structure UpdateSpec (t : OptNode) (k : DTYPE) (p : StringPayload) (t' : OptNode) : Prop where
  wf : t'.Wf
  head : t'.headKey = t.headKey
  carries : ∀ q v, t.Covers q →
    (t'.Carries q v ↔ if q = k then t.HasKey k ∧ v = p else t.Carries q v)

theorem update_spec (wf : t.Wf) (hk : t.Covers k) (p : StringPayload) :
    ∃ ret t', t.update k p = .ok (ret, t') ∧ UpdateSpec t k p t' := by
  induction t with
  | leaf es =>
    have hkeys := updateLeaf_keys es k p
    refine ⟨_, _, rfl, ⟨updateLeaf_sorted wf.1 k p, ?_⟩, ?_, fun q v _ => ?_⟩
    · have hlen := congrArg List.length hkeys
      rw [List.length_map, List.length_map] at hlen
      exact hlen.trans_le wf.2
    · have hhead := congrArg List.head? hkeys
      rwa [List.head?_map, List.head?_map] at hhead
    · rw [carries_leaf, carries_leaf]
      exact mem_updateLeaf_iff wf.1
  | inner keys pointers ih =>
    obtain ⟨pos, henters⟩ := exists_enters wf.1 (hk _ rfl)
    have hchild := wf.2.1 pos
    obtain ⟨ret, child, hupd, hspec⟩ := ih pos hchild.1 (covers_of_head hchild.2 henters.1)
    have hkeys := update_keys hupd
    refine ⟨ret, inner keys (Function.update pointers pos child), ?_, ?_, rfl, fun q v hq => ?_⟩
    · simp only [update, if_neg (not_lt.mpr (hk _ rfl)), henters.childIndex_eq wf.1, hupd]
      rfl
    · exact wf.update_child hspec.wf (hspec.head.trans hchild.2) fun j hj q hq =>
        wf.2.2 pos j hj q ((hasKey_congr hkeys q).mp hq)
    · obtain ⟨posq, hposq⟩ := exists_enters wf.1 (hq _ rfl)
      rw [hposq.carries_iff wf.1, hposq.carries_iff wf.1, ← wf.hasKey_child henters.1 henters.2]
      rcases eq_or_ne posq pos with rfl | hne
      · rw [Function.update_self]
        exact hspec.carries q v (covers_of_head hchild.2 hposq.1)
      · rw [Function.update_of_ne hne, if_neg]
        rintro rfl
        exact hne (hposq.unique henters)

end Update

section History

/-- A call on a tree. -/
inductive PayloadOp where
  | insert (k : DTYPE) (v : StringPayload)
  | update (k : DTYPE) (v : StringPayload)

/-- The key of a call. -/
def PayloadOp.key : PayloadOp → DTYPE
  | .insert k _ => k
  | .update k _ => k

/-- The tree after a call. -/
def payloadStep (t : OptNode) : PayloadOp → Except Fault OptNode
  | .insert k v => (t.insert k v).map Prod.snd
  | .update k v => (t.update k v).map Prod.snd

/-- The tree after a sequence of calls. -/
def payloadRun (t : OptNode) (ops : List PayloadOp) : Except Fault OptNode :=
  ops.foldlM payloadStep t

/-- A call on a map that keeps the first insertion of a key and its last update. -/
def storeStep (m : DTYPE → Option StringPayload) : PayloadOp → DTYPE → Option StringPayload
  | .insert k v => Function.update m k (some ((m k).getD v))
  | .update k v => if (m k).isSome then Function.update m k (some v) else m

/-- The payload that each key has after a sequence of calls on an empty store. -/
def stored (ops : List PayloadOp) : DTYPE → Option StringPayload :=
  ops.foldl storeStep fun _ => none

/-- The first inserted key is at most every key used. -/
def FirstLeast (ops : List PayloadOp) : Prop :=
  ∀ pre s v post, ops = pre ++ .insert s v :: post → (∀ op ∈ pre, ∀ k v, op ≠ .insert k v) →
    ∀ op ∈ ops, s ≤ op.key

/-- The tree carries what the store has, for keys from `s` on, and the store has no others. -/
structure Stores (s : DTYPE) (t : OptNode) (m : DTYPE → Option StringPayload) : Prop where
  wf : t.Wf
  head : t.headKey = some s
  carries : ∀ q, s ≤ q → ∀ v, t.Carries q v ↔ m q = some v
  low : ∀ q v, m q = some v → s ≤ q

variable {s : DTYPE} {m : DTYPE → Option StringPayload} {op : PayloadOp} {ops : List PayloadOp}

theorem Stores.covers (h : Stores s t m) (hk : s ≤ k) : t.Covers k := covers_of_head h.head hk

theorem Stores.hasKey_iff (h : Stores s t m) (hk : s ≤ k) : t.HasKey k ↔ (m k).isSome := by
  rw [h.wf.hasKey_iff_carries (h.covers hk), Option.isSome_iff_exists]
  exact exists_congr fun v => h.carries k hk v

/-- One call keeps tree and store in agreement. -/
theorem Stores.step (h : Stores s t m) (hop : s ≤ op.key) :
    ∃ t', payloadStep t op = .ok t' ∧ Stores s t' (storeStep m op) := by
  cases op with
  | insert k v =>
    obtain ⟨ret, t', hins, hspec⟩ := insert_spec h.wf k v
    have hk : s ≤ k := hop
    have hcover := h.covers hk
    refine ⟨t', by simp only [payloadStep, hins]; rfl, hspec.wf, ?_, fun q hq w => ?_, ?_⟩
    · rw [hspec.head hcover, h.head]
      rfl
    · -- a key that is stored already keeps its first payload
      rw [(inserted_of_insert h.wf hins).carries_iff h.wf hcover (h.covers hq), h.carries q hq,
        h.hasKey_iff hk, storeStep]
      rcases eq_or_ne q k with rfl | hne
      · rw [Function.update_self]
        cases m q <;> simp [eq_comm]
      · rw [Function.update_of_ne hne]
        simp [hne]
    · intro q w hq
      rw [storeStep] at hq
      rcases eq_or_ne q k with rfl | hne
      · exact hk
      · rw [Function.update_of_ne hne] at hq
        exact h.low q w hq
  | update k v =>
    have hk : s ≤ k := hop
    obtain ⟨ret, t', hupd, hspec⟩ := update_spec h.wf (h.covers hk) v
    refine ⟨t', by simp only [payloadStep, hupd]; rfl, hspec.wf, hspec.head.trans h.head,
      fun q hq w => ?_, ?_⟩
    · rw [hspec.carries q w (h.covers hq), h.hasKey_iff hk, h.carries q hq, storeStep]
      rcases eq_or_ne q k with rfl | hne
      · cases hm : m q <;> simp [hm, eq_comm]
      · cases hm : m k <;> simp [hne, Function.update_of_ne]
    · intro q w hq
      rw [storeStep] at hq
      split_ifs at hq
      · rcases eq_or_ne q k with rfl | hne
        · exact hk
        · rw [Function.update_of_ne hne] at hq
          exact h.low q w hq
      · exact h.low q w hq

theorem Stores.run (h : Stores s t m) (hops : ∀ op ∈ ops, s ≤ op.key) :
    ∃ t', t.payloadRun ops = .ok t' ∧ Stores s t' (ops.foldl storeStep m) := by
  induction ops generalizing t m with
  | nil => exact ⟨t, rfl, h⟩
  | cons op ops ih =>
    obtain ⟨t₁, hstep, h₁⟩ := h.step (hops op List.mem_cons_self)
    obtain ⟨t₂, hrun, h₂⟩ := ih h₁ fun op' hop' => hops op' (List.mem_cons_of_mem op hop')
    refine ⟨t₂, ?_, h₂⟩
    rw [payloadRun, List.foldlM_cons, hstep]
    exact hrun

theorem stores_singleton (s : DTYPE) (v : StringPayload) :
    Stores s (leaf [(s, v)]) (Function.update (fun _ => none) s (some v)) := by
  refine ⟨⟨List.pairwise_singleton _ _, ?_⟩, rfl, fun q _ w => ?_, fun q w hq => ?_⟩
  · rw [List.length_singleton]
    decide
  · rw [carries_leaf, List.mem_singleton, Prod.mk.injEq]
    rcases eq_or_ne q s with rfl | hne
    · rw [Function.update_self, Option.some.injEq, eq_comm (a := v)]
      exact and_iff_right rfl
    · rw [Function.update_of_ne hne]
      simp [hne]
  · rcases eq_or_ne q s with rfl | hne
    · exact le_rfl
    · rw [Function.update_of_ne hne] at hq
      exact absurd hq (Option.some_ne_none w).symm

theorem FirstLeast.tail {k : DTYPE} {v : StringPayload}
    (h : FirstLeast (.update k v :: ops)) : FirstLeast ops := by
  rintro pre s w post rfl hpre op hop
  refine h (.update k v :: pre) s w post rfl (fun op' hop' => ?_) op (List.mem_cons_of_mem _ hop)
  rcases List.mem_cons.mp hop' with rfl | hop'
  · exact fun _ _ => nofun
  · exact hpre op' hop'

/-- From the first insertion on, tree and store agree; before it both are empty. -/
theorem payloadRun_stores (hfirst : FirstLeast ops) :
    ∃ t, empty.payloadRun ops = .ok t ∧
      ((∀ k, stored ops k = none) ∨ ∃ s, Stores s t (stored ops)) := by
  induction ops with
  | nil => exact ⟨empty, rfl, Or.inl fun _ => rfl⟩
  | cons op ops ih =>
    cases op with
    | update k v => exact ih hfirst.tail
    | insert s v =>
      have hleast := hfirst [] s v ops rfl fun op hop => absurd hop List.not_mem_nil
      obtain ⟨t, hrun, hstores⟩ := (stores_singleton s v).run fun op hop =>
        hleast op (List.mem_cons_of_mem _ hop)
      exact ⟨t, hrun, Or.inr ⟨s, hstores⟩⟩

/-- After any calls whose first inserted key bounds the others, the tree carries what the store
has for a key. A lookup of the key returns true, and hands that payload over exactly if `result`
had it already. -/
theorem lookup_returns_iff (ops : List PayloadOp) (hfirst : FirstLeast ops) :
    ∃ t, empty.payloadRun ops = .ok t ∧ ∀ k v, stored ops k = some v →
      t.Carries k v ∧ ∀ result, (t.lookupInto k result).map Prod.fst = .ok true ∧
        ((t.lookupInto k result).map Prod.snd = .ok v ↔ result = v) := by
  obtain ⟨t, hrun, hcases⟩ := payloadRun_stores hfirst
  refine ⟨t, hrun, fun k v hk => ?_⟩
  rcases hcases with hnone | ⟨s, hstores⟩
  · rw [hnone k] at hk
    exact absurd hk (Option.some_ne_none v).symm
  have hs : s ≤ k := hstores.low k v hk
  have hcarries := (hstores.carries k hs v).mpr hk
  refine ⟨hcarries, fun result => ?_⟩
  obtain ⟨es, hes, hsorted, hmem, -⟩ := descend_spec hstores.wf (hstores.covers hs)
  have hkey : k ∈ es.map Prod.fst := by
    rw [hmem, hstores.wf.hasKey_iff_carries (hstores.covers hs)]
    exact ⟨v, hcarries⟩
  have hlookup : t.lookupInto k result = .ok (true, result) := by
    rw [lookupInto, hes, ← (searchLeaf_iff hsorted).mpr hkey]
    rfl
  rw [hlookup]
  refine ⟨rfl, ?_⟩
  change Except.ok result = Except.ok v ↔ _
  rw [Except.ok.injEq]

theorem firstLeast_cons {v : StringPayload} (h : ∀ op ∈ ops, s ≤ op.key) :
    FirstLeast (.insert s v :: ops) := by
  intro pre s' v' post heq hpre
  cases pre with
  | nil =>
    obtain ⟨hins, rfl⟩ := List.cons.inj heq
    obtain ⟨rfl, -⟩ := PayloadOp.insert.inj hins
    exact List.forall_mem_cons.mpr ⟨le_rfl, h⟩
  | cons op pre =>
    obtain ⟨rfl, -⟩ := List.cons.inj heq
    exact absurd rfl (hpre _ List.mem_cons_self s v)

/-- Three keys inserted, and one of them updated. -/
def threeCalls : List PayloadOp :=
  [.insert 1 (.ofByte 97), .insert 5 (.ofByte 98), .insert 9 (.ofByte 99), .update 5 (.ofByte 117)]

theorem firstLeast_threeCalls : FirstLeast threeCalls := firstLeast_cons (by decide)

/-- The updated payload of 5 comes out only of a `result` that has it. -/
theorem lookup_returns_three :
    ∃ t, empty.payloadRun threeCalls = .ok t ∧ t.Carries 5 (.ofByte 117) ∧
      ∀ result, ((t.lookupInto 5 result).map Prod.snd = .ok (.ofByte 117) ↔
        result = .ofByte 117) := by
  obtain ⟨t, hrun, hall⟩ := lookup_returns_iff threeCalls firstLeast_threeCalls
  obtain ⟨hcarries, hresult⟩ := hall 5 (.ofByte 117) (by decide)
  exact ⟨t, hrun, hcarries, fun result => (hresult result).2⟩

/-- With another `result` the lookup of 5 returns true and changes nothing. -/
theorem lookup_three_unset :
    FirstLeast threeCalls ∧ stored threeCalls 5 = some (.ofByte 117) ∧
      ∃ t, empty.payloadRun threeCalls = .ok t ∧
        t.lookupInto 5 (.ofByte 0) = .ok (true, .ofByte 0) ∧
        (.ofByte 0 : StringPayload) ≠ .ofByte 117 :=
  ⟨firstLeast_threeCalls, by decide, _, rfl, rfl,
    fun h => absurd (StringPayload.ofByte_injective h) (by decide)⟩

end History

end PimLex.OptNode
