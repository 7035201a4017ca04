import PimLex.Tree.Heap

/-!
# When concurrent inserts exclude each other

No step but the taking of a lock gives a call a node that another owns, and that one
does so only for a node that the other's published split is still to insert into. In
the runs without such a step no two calls insert into one leaf together, and a key
that a call has put into a leaf stays in the tree.
-/

namespace PimLex

open Search Transition

variable {ι : Type*} {s : CallSystem ι} {lo k : DTYPE} {n m : NodeId} {t u : ι} {i : ℕ}
  {cells cells' base : NodeId → Cell}

section Cells

namespace Cell

variable {cell : Cell} {pos : ℕ}

theorem shiftIn_keys_self : (cell.shiftIn pos k).keys pos = k := by
  simp [shiftIn]

theorem shiftIn_keys_zero_le (h : pos = 0 → k ≤ cell.keys 0) :
    (cell.shiftIn pos k).keys 0 ≤ cell.keys 0 := by
  cases pos with
  | zero =>
    rw [shiftIn_keys_self]
    exact h rfl
  | succ pos => simp [shiftIn]

/-- A key that is counted stays, at its slot or one behind. -/
theorem exists_shiftIn_keys (hi : i < cell.count) :
    ∃ j ≤ cell.count, (cell.shiftIn pos k).keys j = cell.keys i := by
  by_cases hpos : i < pos
  · exact ⟨i, hi.le, by simp only [shiftIn, if_pos hpos]⟩
  · refine ⟨i + 1, hi, ?_⟩
    have hlt : ¬ i + 1 < pos := by omega
    have hne : i + 1 ≠ pos := by omega
    have hle : i + 1 ≤ cell.count := hi
    simp only [shiftIn, if_neg hlt, if_neg hne, if_pos hle, Nat.add_sub_cancel]

end Cell

/-- The nodes that the pointers lead to are as they were, their locks apart. -/
def Agree (cells cells' : NodeId → Cell) : Prop :=
  ∀ n, Reach cells n → (cells' n).inner = (cells n).inner ∧ (cells' n).count = (cells n).count ∧
    (cells' n).keys = (cells n).keys

/-- The nodes that the pointers lead to have kept their kind, and the leaves among them have
gained keys: no count and no first key is worse than before. -/
structure Grows (cells cells' : NodeId → Cell) : Prop where
  inner : ∀ n, Reach cells n → (cells' n).inner = (cells n).inner
  keys : ∀ n, Reach cells n → (cells n).inner = true → (cells' n).keys = (cells n).keys
  first : ∀ n, Reach cells n → (cells' n).keys 0 ≤ (cells n).keys 0
  count : ∀ n, Reach cells n → (cells n).count ≤ (cells' n).count

theorem Agree.refl (cells : NodeId → Cell) : Agree cells cells := fun _ _ => ⟨rfl, rfl, rfl⟩

theorem agree_nodelock (cells : NodeId → Cell) (n : NodeId) (v : ℕ) :
    Agree cells (Function.update cells n { cells n with nodelock := v }) := by
  intro m _
  rcases eq_or_ne m n with rfl | hm
  · rw [Function.update_self]
    exact ⟨rfl, rfl, rfl⟩
  · rw [Function.update_of_ne hm]
    exact ⟨rfl, rfl, rfl⟩

/-- A node that no pointer leads to yet may be written. -/
theorem agree_of_not_reach (hn : ¬ Reach cells n) (cell : Cell) :
    Agree cells (Function.update cells n cell) := by
  intro m hm
  have hne : m ≠ n := fun heq => hn (heq ▸ hm)
  rw [Function.update_of_ne hne]
  exact ⟨rfl, rfl, rfl⟩

theorem Agree.grows (h : Agree cells cells') : Grows cells cells' where
  inner n hn := (h n hn).1
  keys n hn _ := (h n hn).2.2
  first n hn := by rw [(h n hn).2.2]
  count n hn := (h n hn).2.1.ge

/-- A leaf that the pointers lead to may take a change of its keys and count. -/
theorem grows_leaf {cell : Cell} (hleaf : (cells n).inner = false) (hinner : cell.inner = false)
    (hfirst : cell.keys 0 ≤ (cells n).keys 0) (hcount : (cells n).count ≤ cell.count) :
    Grows cells (Function.update cells n cell) := by
  constructor
  case inner =>
    intro m _
    rcases eq_or_ne m n with rfl | hm
    · rw [Function.update_self, hleaf, hinner]
    · rw [Function.update_of_ne hm]
  case keys =>
    intro m _ hm
    have hne : m ≠ n := by
      rintro rfl
      rw [hleaf] at hm
      exact Bool.noConfusion hm
    rw [Function.update_of_ne hne]
  case first =>
    intro m _
    rcases eq_or_ne m n with rfl | hm
    · rwa [Function.update_self]
    · rw [Function.update_of_ne hm]
  case count =>
    intro m _
    rcases eq_or_ne m n with rfl | hm
    · rwa [Function.update_self]
    · rw [Function.update_of_ne hm]

theorem Grows.reach_of (h : Grows cells cells') (hn : Reach cells' n) : Reach cells n := by
  induction n with
  | nil => trivial
  | cons i n ih =>
    have hreach := ih hn.2
    exact ⟨(h.inner n hreach).symm.trans hn.1, hreach⟩

theorem Grows.reach (h : Grows cells cells') (hn : Reach cells n) : Reach cells' n :=
  hn.mono fun m hm hinner => (h.inner m hm).trans hinner

/-- Growing leaves keep what a tree satisfies. -/
theorem CellsOk.grow (h : CellsOk lo cells) (hg : Grows cells cells') : CellsOk lo cells' where
  root := (hg.first [] trivial).trans h.root
  count n hn := (h.count n (hg.reach_of hn)).trans (hg.count n (hg.reach_of hn))
  child n i hn hinner := by
    have hreach := hg.reach_of hn
    rw [hg.inner n hreach] at hinner
    rw [hg.keys n hreach hinner]
    exact (hg.first (i :: n) ⟨hinner, hreach⟩).trans (h.child n i hreach hinner)

/-- A split opens the way to its children and to nothing else. -/
theorem reach_of_publish (hmade : ∀ j, (cells (j :: n)).inner = false)
    (h : Reach (Function.update cells n { cells n with inner := true }) m) :
    Reach cells m ∨ ∃ j, m = j :: n := by
  induction m with
  | nil => exact Or.inl trivial
  | cons i m ih =>
    rcases eq_or_ne m n with rfl | hm
    · exact Or.inr ⟨i, rfl⟩
    · obtain ⟨hinner, hreach⟩ := h
      rw [Function.update_of_ne hm] at hinner
      rcases ih hreach with hold | ⟨j, rfl⟩
      · exact Or.inl ⟨hinner, hold⟩
      · rw [hmade j] at hinner
        exact Bool.noConfusion hinner

theorem publish_count (cells : NodeId → Cell) (n m : NodeId) :
    (Function.update cells n { cells n with inner := true } m).count = (cells m).count := by
  rcases eq_or_ne m n with rfl | hm
  · rw [Function.update_self]
  · rw [Function.update_of_ne hm]

theorem publish_keys (cells : NodeId → Cell) (n m : NodeId) :
    (Function.update cells n { cells n with inner := true } m).keys = (cells m).keys := by
  rcases eq_or_ne m n with rfl | hm
  · rw [Function.update_self]
  · rw [Function.update_of_ne hm]

theorem publish_inner (h : (cells m).inner = true) :
    (Function.update cells n { cells n with inner := true } m).inner = true := by
  rcases eq_or_ne m n with rfl | hm
  · rw [Function.update_self]
  · rwa [Function.update_of_ne hm]

theorem Reach.publish (h : Reach cells m) :
    Reach (Function.update cells n { cells n with inner := true }) m :=
  h.mono fun _ _ => publish_inner

theorem CellsOk.publish (h : CellsOk lo cells)
    (hmade : ∀ j : Fin childNum, cells (j :: n) = .fresh ((cells n).keys j)) :
    CellsOk lo (Function.update cells n { cells n with inner := true }) := by
  have hleaves : ∀ j, (cells (j :: n)).inner = false := fun j => by
    rw [hmade j]
    rfl
  constructor
  case root =>
    rw [publish_keys]
    exact h.root
  case count =>
    intro m hm
    rw [publish_count]
    rcases reach_of_publish hleaves hm with hold | ⟨j, rfl⟩
    · exact h.count m hold
    · rw [hmade j]
      exact le_rfl
  case child =>
    intro m i hm hinner
    rw [publish_keys, publish_keys]
    rcases eq_or_ne m n with rfl | hne
    · rw [hmade i]
      exact le_rfl
    · rw [Function.update_of_ne hne] at hinner
      rcases reach_of_publish hleaves hm with hold | ⟨j, rfl⟩
      · exact h.child m i hold hinner
      · rw [hleaves j] at hinner
        exact Bool.noConfusion hinner

/-- The descent goes on to a child whose first key is not above the key it looks for. -/
theorem CellsOk.routed (h : CellsOk lo cells) (hn : Reach cells n)
    (hinner : (cells n).inner = true) (hi : i < childNum)
    (hub : upperBound (cells n).keys k 0 (cells n).count = i + 1) :
    Arrived lo cells k (⟨i, hi⟩ :: n) := by
  refine ⟨⟨hinner, hn⟩, fun _ => (h.child n ⟨i, hi⟩ hn hinner).trans ?_⟩
  rcases bisectFuel_pred (fun j => decide ((cells n).keys j ≤ k)) ((cells n).count - 0) 0
    (cells n).count with hzero | ⟨-, hpred⟩
  · exact absurd (hub.symm.trans hzero) (Nat.succ_ne_zero i)
  · unfold upperBound bisect at hub
    rw [hub] at hpred
    exact of_decide_eq_true hpred

theorem Cell.lowerBound_slot (cell : Cell) (k : DTYPE) :
    cell.lowerBound k ≤ cell.count ∧
      (cell.lowerBound k = cell.count ∨ k ≤ cell.keys (cell.lowerBound k)) :=
  OptNode.lowerBoundFuel_slot (Nat.zero_le _) le_rfl

end Cells

section Step

variable [DecidableEq ι] {th' : InsertCall} {pc pc' : CallPc}

theorem Live.put (h : Live s n i) (hcount : (cells' n).count = (s.shared n).count)
    (hne : (s.threads t).pc.counts ≠ some n) : Live (s.put t cells' th') n i := by
  rcases h with hlt | ⟨heq, u, hu⟩
  · exact Or.inl (hcount.symm ▸ hlt)
  · have hut : u ≠ t := fun hut => hne (hut ▸ hu)
    refine Or.inr ⟨heq.trans hcount.symm, u, ?_⟩
    rw [System.put_of_ne hut]
    exact hu

omit [DecidableEq ι] in
/-- Before its owner has stored a key, a leaf has the keys it counts. -/
theorem TreeInv.lt_of_live (h : TreeInv lo base s) (hl : Live s n i) (hown : OwnsNode s t n)
    (hne : (s.threads t).pc.counts ≠ some n) : i < (s.shared n).count := by
  rcases hl with hlt | ⟨-, u, hu⟩
  · exact hlt
  · obtain rfl := h.owner_unique hown (.of_inLeaf (CallPc.inLeaf_of_counts hu))
    exact absurd hu hne

omit [DecidableEq ι] in
theorem TreeInv.free (h : TreeInv lo base s) (hown : OwnsNode s t n) :
    ∀ u ≠ t, ¬ OwnsNode s u n :=
  fun _ hut hu => hut (h.owner_unique hu hown)

omit [DecidableEq ι] in
/-- A change of one node that no other call owns. -/
theorem owned_update (hfree : ∀ u ≠ t, ¬ OwnsNode s u n) (cell : Cell) :
    ∀ u, u ≠ t → ∀ m, OwnsNode s u m → Function.update s.shared n cell m = s.shared m := by
  intro u hut m hm
  apply Function.update_of_ne
  rintro rfl
  exact hfree u hut hm

theorem Grows.keeps (hg : Grows s.shared cells')
    (howned : ∀ u, u ≠ t → ∀ n, OwnsNode s u n → cells' n = s.shared n)
    (hplaced : ∀ k, Placed s k → Placed (s.put t cells' th') k) :
    Keeps s (s.put t cells' th') t where
  inner n hn hinner := ⟨(hg.inner n hn).trans hinner, hg.keys n hn hinner⟩
  first := hg.first
  owned := howned
  placed := hplaced

/-- A step that changes no key and no count the pointers lead to keeps every key placed. -/
theorem Agree.keeps (hag : Agree s.shared cells') (hcounts : (s.threads t).pc.counts = none)
    (howned : ∀ u, u ≠ t → ∀ n, OwnsNode s u n → cells' n = s.shared n) :
    Keeps s (s.put t cells' th') t := by
  apply hag.grows.keeps howned
  rintro k ⟨n, i, hreach, hleaf, hlive, hkey⟩
  obtain ⟨hinner, hcount, hkeys⟩ := hag n hreach
  refine ⟨n, i, ?_, hinner.trans hleaf, ?_, ?_⟩
  · exact hreach.mono fun m hm hin => (hag m hm).1.trans hin
  · apply hlive.put hcount
    rw [hcounts]
    exact (Option.some_ne_none n).symm
  · rw [System.put_shared, hkeys]
    exact hkey

/-- A step that only moves the call on, with what it owned before. -/
theorem TreeInv.move (h : TreeInv lo base s) (hpc : (s.threads t).pc = pc)
    (hholds : ∀ n, pc'.holds = some n → pc.holds = some n)
    (haims : ∀ n, pc'.aims = some n → pc.aims = some n) (hcounts : pc.counts = none)
    (hcall : (∀ k, Placed s k → Placed (s.put t s.shared { s.threads t with pc := pc' }) k) →
      CallOk lo (s.put t s.shared { s.threads t with pc := pc' })
        { s.threads t with pc := pc' }) :
    TreeInv lo base (s.put t s.shared { s.threads t with pc := pc' }) := by
  subst hpc
  have hkeeps : Keeps s (s.put t s.shared { s.threads t with pc := pc' }) t :=
    (Agree.refl _).keeps hcounts fun _ _ _ _ => rfl
  refine h.put h.cells (hcall hkeeps.placed) ?set ?alone hkeeps
  case set =>
    intro n hn
    exact h.held t n (hholds n hn)
  case alone =>
    rintro n (hn | hn)
    · exact h.free (Or.inl (hholds n hn))
    · exact h.free (Or.inr (Or.inr (haims n hn)))

omit [DecidableEq ι] in
/-- A lock that is taken beside no split belongs to nobody. -/
theorem TreeInv.free_of_cas (h : TreeInv lo base s) {old : ℕ}
    (hpc : (s.threads t).pc = .lockCas n old) (hg : TakesUnaimed s t)
    (hsame : (s.shared n).nodelock = old) : ∀ u ≠ t, ¬ OwnsNode s u n := by
  obtain ⟨harr, hold⟩ := h.callOk hpc
  unfold TakesUnaimed at hg
  rw [hpc] at hg
  rintro u hut (hheld | ⟨m, i, -, hleaf, rfl⟩ | haims)
  · have hset := h.held u n hheld
    rw [hsame, IsSet, Nat.div_eq_of_lt hold] at hset
    exact absurd hset (by decide)
  · -- the parent of a node that a call has come to is published
    rw [harr.1.1] at hleaf
    exact Bool.noConfusion hleaf
  · exact hg hsame u hut haims

/-- The compare-and-swap that takes a lock. -/
theorem TreeInv.take (h : TreeInv lo base s) {old : ℕ} (hpc : (s.threads t).pc = .lockCas n old)
    (hg : TakesUnaimed s t) (hsame : (s.shared n).nodelock = old) :
    TreeInv lo base (s.put t
      (Function.update s.shared n { s.shared n with nodelock := old + lockSet })
      { s.threads t with pc := .recheck n }) := by
  have hfree := h.free_of_cas hpc hg hsame
  obtain ⟨harr, hold⟩ := h.callOk hpc
  have hag := agree_nodelock s.shared n (old + lockSet)
  have hkeeps : Keeps s (s.put t _ { s.threads t with pc := .recheck n }) t :=
    hag.keeps (by rw [hpc]; rfl) (owned_update hfree _)
  refine h.put (h.cells.grow hag.grows) (hkeeps.arrived harr) ?set ?alone hkeeps
  case set =>
    intro m hm
    obtain rfl := Option.some.inj hm
    rw [Function.update_self]
    apply isSet_add_lockSet
    rw [IsSet, Nat.div_eq_of_lt hold]
    decide
  case alone =>
    rintro m (hm | hm)
    · obtain rfl := Option.some.inj hm
      exact hfree
    · exact absurd hm.symm (Option.some_ne_none m)

/-- The split makes a child, and no pointer leads to it yet. -/
theorem TreeInv.make (h : TreeInv lo base s) {next next' : Fin childNum}
    (hpc : (s.threads t).pc = .split n i next) (hi : i < childNum) :
    TreeInv lo base (s.put t
      (Function.update s.shared (⟨i, hi⟩ :: n) (.fresh ((s.shared n).keys i)))
      { s.threads t with pc := .split n (i + 1) next' }) := by
  obtain ⟨harr, hleaf, hcount, hmade⟩ := h.callOk hpc
  have hheld : (s.threads t).pc.holds = some n := by
    rw [hpc]
    rfl
  have hown : OwnsNode s t (⟨i, hi⟩ :: n) := Or.inr (Or.inl ⟨n, _, hheld, hleaf, rfl⟩)
  -- a leaf has no children to reach
  have hnot : ¬ Reach s.shared (⟨i, hi⟩ :: n) := by
    rintro ⟨hinner, -⟩
    rw [hleaf] at hinner
    exact Bool.noConfusion hinner
  have hag := agree_of_not_reach hnot (.fresh ((s.shared n).keys i))
  have hkeeps : Keeps s (s.put t _ { s.threads t with pc := .split n (i + 1) next' }) t :=
    hag.keeps (by rw [hpc]; rfl) (owned_update (h.free hown) _)
  have hself : Function.update s.shared (⟨i, hi⟩ :: n) (.fresh ((s.shared n).keys i)) n =
      s.shared n := Function.update_of_ne (List.cons_ne_self _ n).symm _ _
  refine h.put (h.cells.grow hag.grows) ⟨hkeeps.arrived harr, ?leaf, ?count, ?made⟩ ?set ?alone
    hkeeps
  case leaf =>
    rw [System.put_shared, hself]
    exact hleaf
  case count =>
    rw [System.put_shared, hself]
    exact hcount
  case made =>
    intro j hj
    rw [System.put_shared, hself]
    -- the children made before, and this one
    rcases Nat.lt_succ_iff_lt_or_eq.mp hj with hj | rfl
    · have hne : j :: n ≠ ⟨i, hi⟩ :: n := by
        intro heq
        rw [(List.cons.inj heq).1] at hj
        exact lt_irrefl i hj
      rw [Function.update_of_ne hne]
      exact hmade j hj
    · exact Function.update_self _ _ _
  case set =>
    intro m hm
    obtain rfl := Option.some.inj hm
    rw [hself]
    exact h.held t n hheld
  case alone =>
    rintro m (hm | hm)
    · obtain rfl := Option.some.inj hm
      exact h.free (Or.inl hheld)
    · exact absurd hm.symm (Option.some_ne_none m)

/-- A key of the node that is published is now the one key of a child. -/
theorem placed_publish (hreach : Reach s.shared n)
    (hmade : ∀ j : Fin childNum, s.shared (j :: n) = .fresh ((s.shared n).keys j))
    (hi : i < childNum) :
    Placed (s.put t (Function.update s.shared n { s.shared n with inner := true }) th')
      ((s.shared n).keys i) := by
  have hchild : Function.update s.shared n { s.shared n with inner := true } (⟨i, hi⟩ :: n) =
      .fresh ((s.shared n).keys i) := by
    rw [Function.update_of_ne (List.cons_ne_self _ n)]
    exact hmade _
  have hinner : (Function.update s.shared n { s.shared n with inner := true } n).inner = true := by
    rw [Function.update_self]
  refine ⟨⟨i, hi⟩ :: n, 0, ⟨hinner, hreach.publish⟩, ?leaf, Or.inl ?live, ?key⟩
  all_goals rw [System.put_shared, hchild]
  case leaf => rfl
  case live => exact Nat.one_pos
  case key => rfl

/-- The publication keeps what the other calls rely on: a key of the node itself goes to a child,
and every other key stays where it is. -/
theorem TreeInv.keeps_publish (h : TreeInv lo base s) {next : Fin childNum}
    (hpc : (s.threads t).pc = .publish n next) :
    Keeps s (s.put t (Function.update s.shared n { s.shared n with inner := true }) th') t := by
  obtain ⟨harr, hleaf, hcount, hmade⟩ := h.callOk hpc
  have hheld : (s.threads t).pc.holds = some n := by
    rw [hpc]
    rfl
  constructor
  case inner => exact fun m _ hm => ⟨publish_inner hm, publish_keys _ n m⟩
  case first =>
    intro m _
    rw [System.put_shared, publish_keys]
  case owned => exact owned_update (h.free (Or.inl hheld)) _
  case placed =>
    rintro k ⟨m, i, hm, hmleaf, hlive, rfl⟩
    have hcounts : (s.threads t).pc.counts ≠ some m := by
      rw [hpc]
      exact (Option.some_ne_none m).symm
    rcases eq_or_ne m n with rfl | hne
    · apply placed_publish harr.1 hmade
      rw [← hcount]
      exact h.lt_of_live hlive (Or.inl hheld) hcounts
    · refine ⟨m, i, hm.publish, ?_, hlive.put (publish_count _ n m) hcounts, ?_⟩
      · rw [System.put_shared, Function.update_of_ne hne]
        exact hmleaf
      · rw [System.put_shared, publish_keys]

/-- The split is published: its keys are now the first keys of its children. -/
theorem TreeInv.publish (h : TreeInv lo base s) {next : Fin childNum}
    (hpc : (s.threads t).pc = .publish n next) :
    TreeInv lo base (s.put t (Function.update s.shared n { s.shared n with inner := true })
      { s.threads t with pc := .splitCompare n next }) := by
  obtain ⟨harr, hleaf, hcount, hmade⟩ := h.callOk hpc
  have hheld : (s.threads t).pc.holds = some n := by
    rw [hpc]
    rfl
  have hkeeps : Keeps s (s.put t (Function.update s.shared n { s.shared n with inner := true })
      { s.threads t with pc := .splitCompare n next }) t := h.keeps_publish hpc
  refine h.put (h.cells.publish hmade) ⟨hkeeps.arrived harr, ?inner, ?leaf, ?placed⟩ ?set ?alone
    hkeeps
  case inner => rw [System.put_shared, Function.update_self]
  case leaf =>
    rw [System.put_shared, Function.update_of_ne (List.cons_ne_self next n), hmade]
    rfl
  case placed =>
    rw [System.put_shared, publish_keys]
    exact placed_publish harr.1 hmade (by decide)
  case set =>
    intro m hm
    obtain rfl := Option.some.inj hm
    rw [Function.update_self]
    exact h.held t n hheld
  case alone =>
    rintro m (hm | hm)
    · obtain rfl := Option.some.inj hm
      exact h.free (Or.inl hheld)
    · obtain rfl := Option.some.inj hm
      exact h.free (Or.inr (Or.inl ⟨n, next, hheld, hleaf, rfl⟩))

/-- A step inside `insertLeaf`: it grows the leaf it runs on, and every key there stays. -/
theorem TreeInv.fill (h : TreeInv lo base s) (hin : (s.threads t).pc.inLeaf = some m)
    (hleaf : (s.shared m).inner = false) {cell : Cell} (hinner : cell.inner = false)
    (hlock : cell.nodelock = (s.shared m).nodelock)
    (hfirst : cell.keys 0 ≤ (s.shared m).keys 0) (hcount : (s.shared m).count ≤ cell.count)
    (hholds : ∀ n, pc'.holds = some n → (s.threads t).pc.holds = some n)
    (haims : ∀ n, pc'.aims = some n → (s.threads t).pc.aims = some n)
    (hlive : ∀ i, Live s m i → ∃ j, cell.keys j = (s.shared m).keys i ∧
      Live (s.put t (Function.update s.shared m cell) { s.threads t with pc := pc' }) m j)
    (hcall : Keeps s (s.put t (Function.update s.shared m cell) { s.threads t with pc := pc' }) t →
      CallOk lo (s.put t (Function.update s.shared m cell) { s.threads t with pc := pc' })
        { s.threads t with pc := pc' }) :
    TreeInv lo base (s.put t (Function.update s.shared m cell) { s.threads t with pc := pc' }) := by
  have hg : Grows s.shared (Function.update s.shared m cell) :=
    grows_leaf hleaf hinner hfirst hcount
  have hkeeps : Keeps s
      (s.put t (Function.update s.shared m cell) { s.threads t with pc := pc' }) t := by
    apply hg.keeps (owned_update (h.free (.of_inLeaf hin)) cell)
    -- a key of this leaf may have moved one slot, all others stay
    rintro k ⟨n, i, hreach, hnleaf, hl, rfl⟩
    rcases eq_or_ne n m with rfl | hn
    · obtain ⟨j, hkeys, hj⟩ := hlive i hl
      refine ⟨n, j, hg.reach hreach, ?_, hj, ?_⟩
      · rw [System.put_shared, Function.update_self]
        exact hinner
      · rw [System.put_shared, Function.update_self]
        exact hkeys
    · have hsame : Function.update s.shared m cell n = s.shared n := Function.update_of_ne hn _ _
      have hcounts : (s.threads t).pc.counts ≠ some n := by
        intro hcounts
        rw [CallPc.inLeaf_of_counts hcounts] at hin
        exact hn (Option.some.inj hin)
      refine ⟨n, i, hg.reach hreach, ?_, hl.put (by rw [hsame]) hcounts, ?_⟩
      · rw [System.put_shared, hsame]
        exact hnleaf
      · rw [System.put_shared, hsame]
  refine h.put (h.cells.grow hg) (hcall hkeeps) ?set ?alone hkeeps
  case set =>
    intro n hn
    have hset := h.held t n (hholds n hn)
    rcases eq_or_ne n m with rfl | hne
    · rwa [Function.update_self, hlock]
    · rwa [Function.update_of_ne hne]
  case alone =>
    rintro n (hn | hn)
    · exact h.free (Or.inl (hholds n hn))
    · exact h.free (Or.inr (Or.inr (haims n hn)))

/-- `insertLeaf` stores its key. -/
theorem TreeInv.store (h : TreeInv lo base s) {child : Option (Fin childNum)} {pos : ℕ}
    (hpc : (s.threads t).pc = .leafWrite n child pos) :
    TreeInv lo base (s.put t
      (Function.update s.shared (target n child)
        ((s.shared (target n child)).shiftIn pos (s.threads t).key))
      { s.threads t with pc := .leafCount n child }) := by
  obtain ⟨⟨harr, hreach, hleaf⟩, hpos, hzero⟩ := h.callOk hpc
  have hin : (s.threads t).pc.inLeaf = some (target n child) := by
    rw [hpc]
    rfl
  have hcounts : (s.threads t).pc.counts ≠ some (target n child) := by
    rw [hpc]
    exact (Option.some_ne_none _).symm
  refine h.fill hin hleaf hleaf rfl (Cell.shiftIn_keys_zero_le hzero) le_rfl ?holds ?aims ?live
    ?call
  case holds =>
    rw [hpc]
    exact fun _ => id
  case aims =>
    rw [hpc]
    exact fun _ => id
  case live =>
    intro i hl
    have hi := h.lt_of_live hl (.of_inLeaf hin) hcounts
    obtain ⟨j, hj, hkeys⟩ := Cell.exists_shiftIn_keys hi
    refine ⟨j, hkeys, ?_⟩
    unfold Live
    rw [System.put_shared, Function.update_self]
    rcases hj.lt_or_eq with hlt | heq
    · exact Or.inl hlt
    · -- the last key is behind the count until the call counts it
      refine Or.inr ⟨heq, t, ?_⟩
      rw [System.put_self]
      rfl
  case call =>
    intro hkeeps
    refine ⟨⟨hkeeps.arrived harr, hkeeps.reach hreach, ?_⟩, pos, ?_, ?_⟩
    all_goals rw [System.put_shared, Function.update_self]
    · exact hleaf
    · exact hpos
    · exact Cell.shiftIn_keys_self

/-- `insertLeaf` counts its key. -/
theorem TreeInv.count (h : TreeInv lo base s) {child : Option (Fin childNum)}
    (hpc : (s.threads t).pc = .leafCount n child) :
    TreeInv lo base (s.put t
      (Function.update s.shared (target n child)
        { s.shared (target n child) with count := (s.shared (target n child)).count + 1 })
      { s.threads t with pc := .releaseLoad n false }) := by
  obtain ⟨⟨harr, hreach, hleaf⟩, i, hi, hkey⟩ := h.callOk hpc
  have hin : (s.threads t).pc.inLeaf = some (target n child) := by
    rw [hpc]
    rfl
  have hlive : ∀ j ≤ (s.shared (target n child)).count,
      Live (s.put t
        (Function.update s.shared (target n child)
          { s.shared (target n child) with count := (s.shared (target n child)).count + 1 })
        { s.threads t with pc := .releaseLoad n false }) (target n child) j := by
    intro j hj
    unfold Live
    rw [System.put_shared, Function.update_self]
    exact Or.inl (Nat.lt_succ_of_le hj)
  refine h.fill hin hleaf hleaf rfl le_rfl (Nat.le_succ _) ?holds ?aims ?live ?call
  case holds =>
    rw [hpc]
    exact fun _ => id
  case aims => exact fun m hm => absurd hm.symm (Option.some_ne_none m)
  case live =>
    rintro j (hlt | ⟨heq, -⟩)
    · exact ⟨j, rfl, hlive j hlt.le⟩
    · exact ⟨j, rfl, hlive j heq.le⟩
  case call =>
    intro hkeeps
    refine ⟨hkeeps.arrived harr, fun _ _ => ⟨_, i, hkeeps.reach hreach, ?_, hlive i hi, ?_⟩⟩
    all_goals rw [System.put_shared, Function.update_self]
    · exact hleaf
    · exact hkey

/-- The store of `release_lock`. -/
theorem TreeInv.release (h : TreeInv lo base s) {retry : Bool} {v w : ℕ}
    (hpc : (s.threads t).pc = .releaseStore n retry v) :
    TreeInv lo base (s.put t (Function.update s.shared n { s.shared n with nodelock := w })
      { s.threads t with pc := if retry then .readType n else .done true }) := by
  obtain ⟨harr, hplaced⟩ := h.callOk hpc
  have hown : OwnsNode s t n := Or.inl (by rw [hpc]; rfl)
  have hag := agree_nodelock s.shared n w
  have hkeeps : ∀ pc', Keeps s
      (s.put t (Function.update s.shared n { s.shared n with nodelock := w })
        { s.threads t with pc := pc' }) t := fun pc' =>
    hag.keeps (by rw [hpc]; rfl) (owned_update (h.free hown) _)
  cases retry with
  | true =>
    refine h.put (h.cells.grow hag.grows) ((hkeeps _).arrived harr) ?_ ?_ (hkeeps _)
    · exact fun m hm => absurd hm.symm (Option.some_ne_none m)
    · rintro m (hm | hm)
      · exact absurd hm.symm (Option.some_ne_none m)
      · exact absurd hm.symm (Option.some_ne_none m)
  | false =>
    refine h.put (h.cells.grow hag.grows) ?_ ?_ ?_ (hkeeps _)
    · exact fun _ hlo => (hkeeps _).placed _ (hplaced rfl hlo)
    · exact fun m hm => absurd hm.symm (Option.some_ne_none m)
    · rintro m (hm | hm)
      · exact absurd hm.symm (Option.some_ne_none m)
      · exact absurd hm.symm (Option.some_ne_none m)

/-- The checks and the search of `insertLeaf`. -/
theorem TreeInv.search (h : TreeInv lo base s) {child : Option (Fin childNum)}
    (hpc : (s.threads t).pc = .leafRead n child) : TreeInv lo base (callStep s t) := by
  obtain ⟨harr, hreach, hleaf⟩ := h.callOk hpc
  have hcount := h.cells.count _ hreach
  obtain ⟨hle, hslot⟩ := (s.shared (target n child)).lowerBound_slot (s.threads t).key
  rw [callStep, System.step_eq_put]
  simp only [callAct, hpc]
  split_ifs with hinner hfull hzero hdup
  · rw [hleaf] at hinner
    exact Bool.noConfusion hinner
  · exact h.move hpc nofun nofun rfl fun _ => trivial
  · -- no node of a tree is empty
    omega
  · -- the key is there already
    exact h.move hpc (fun _ => id) nofun rfl fun hplaced =>
      ⟨harr, fun _ _ => hplaced _ ⟨_, _, hreach, hleaf, Or.inl hdup.1, hdup.2⟩⟩
  · -- at slot 0 the search has seen that the key is not above the first one
    refine h.move hpc (fun _ => id) (fun _ => id) rfl fun _ =>
      ⟨⟨harr, hreach, hleaf⟩, hle, fun hpos => ?_⟩
    rw [hpos] at hslot
    exact hslot.resolve_left (by omega)

/-- The descent goes on with the child behind the last separator that is not above the key. -/
theorem TreeInv.route (h : TreeInv lo base s) (hpc : (s.threads t).pc = .route n) :
    TreeInv lo base (callStep s t) := by
  obtain ⟨harr, hinner⟩ := h.callOk hpc
  rw [callStep, System.step_eq_put]
  simp only [callAct, hpc]
  split_ifs with hle
  · exact h.move hpc nofun nofun rfl fun _ => nofun
  · split
    · exact h.move hpc nofun nofun rfl fun _ => nofun
    · rename_i i hub
      split_ifs with hi
      · exact h.move hpc nofun nofun rfl fun _ => h.cells.routed harr.1 hinner hi hub
      · exact h.move hpc nofun nofun rfl fun _ => nofun

/-- The load of `get_lock` and its `old_value &= lockMask`. -/
theorem TreeInv.lockLoad (h : TreeInv lo base s) (hpc : (s.threads t).pc = .lockLoad n) :
    TreeInv lo base (callStep s t) := by
  have ht := h.callOk hpc
  rw [callStep, System.step_eq_put]
  simp only [callAct, hpc]
  split_ifs with hset
  · rwa [System.put_eq_self]
  · exact h.move hpc nofun nofun rfl fun _ => ⟨ht, Nat.mod_lt _ (by decide)⟩

/-- The swap of `get_lock` takes the lock of a node that no split aims at. -/
theorem TreeInv.lockCas (h : TreeInv lo base s) (hg : TakesUnaimed s t) {old : ℕ}
    (hpc : (s.threads t).pc = .lockCas n old) : TreeInv lo base (callStep s t) := by
  have ht := h.callOk hpc
  rw [callStep, System.step_eq_put]
  simp only [callAct, hpc]
  split_ifs with hsame
  · exact h.take hpc hg hsame
  · exact h.move hpc nofun nofun rfl fun _ => ht.1

/-- A node that was split meanwhile is left, and the descent goes on from it. -/
theorem TreeInv.recheck (h : TreeInv lo base s) (hpc : (s.threads t).pc = .recheck n) :
    TreeInv lo base (callStep s t) := by
  have ht := h.callOk hpc
  rw [callStep, System.step_eq_put]
  simp only [callAct, hpc]
  split_ifs with hinner
  · exact h.move hpc (fun _ => id) nofun rfl fun _ => ⟨ht, nofun⟩
  · exact h.move hpc (fun _ => id) nofun rfl fun _ => ⟨ht, Bool.not_eq_true _ ▸ hinner⟩

theorem TreeInv.readCount (h : TreeInv lo base s) (hpc : (s.threads t).pc = .readCount n) :
    TreeInv lo base (callStep s t) := by
  obtain ⟨harr, hleaf⟩ := h.callOk hpc
  rw [callStep, System.step_eq_put]
  simp only [callAct, hpc]
  split_ifs with hfull
  · exact h.move hpc (fun _ => id) nofun rfl fun _ => ⟨harr, hleaf, hfull, nofun⟩
  · exact h.move hpc (fun _ => id) nofun rfl fun _ => ⟨harr, harr.1, hleaf⟩

/-- The split's loop makes a child in each pass; behind it every child is made. -/
theorem TreeInv.split (h : TreeInv lo base s) {i : ℕ} {next : Fin childNum}
    (hpc : (s.threads t).pc = .split n i next) : TreeInv lo base (callStep s t) := by
  obtain ⟨harr, hleaf, hcount, hmade⟩ := h.callOk hpc
  rw [callStep, System.step_eq_put]
  simp only [callAct, hpc]
  split_ifs with hi
  · exact h.make hpc hi
  · exact h.make hpc hi
  · exact h.move hpc (fun _ => id) nofun rfl fun _ =>
      ⟨harr, hleaf, hcount, fun j => hmade j (j.isLt.trans_le (Nat.not_lt.mp hi))⟩

/-- A key at the node's first one is among those the split has moved down. -/
theorem TreeInv.splitCompare (h : TreeInv lo base s) {next : Fin childNum}
    (hpc : (s.threads t).pc = .splitCompare n next) : TreeInv lo base (callStep s t) := by
  obtain ⟨harr, hinner, hleaf, hplaced⟩ := h.callOk hpc
  rw [callStep, System.step_eq_put]
  simp only [callAct, hpc]
  split_ifs with hlt
  · exact h.move hpc (fun _ => id) (fun _ => id) rfl fun _ => ⟨harr, ⟨hinner, harr.1⟩, hleaf⟩
  · refine h.move hpc (fun _ => id) nofun rfl fun hkeep => ⟨harr, fun _ hlo => hkeep _ ?_⟩
    rw [(Nat.not_lt.mp hlt).antisymm (harr.2 hlo)]
    exact hplaced

/-- A step that takes no lock beside a split keeps the invariant. -/
theorem TreeInv.step (h : TreeInv lo base s) (hg : TakesUnaimed s t) :
    TreeInv lo base (callStep s t) := by
  rw [callStep, System.step_eq_put]
  cases hpc : (s.threads t).pc with
  | leafRead n child => exact h.search hpc
  | readType n =>
    have ht := h.callOk hpc
    simp only [callAct, hpc]
    split_ifs with hinner
    · exact h.move hpc nofun nofun rfl fun _ => ⟨ht, hinner⟩
    · exact h.move hpc nofun nofun rfl fun _ => ht
  | route n => exact h.route hpc
  | lockLoad n => exact h.lockLoad hpc
  | lockCas n old =>
    -- the one step that uses the guard
    exact h.lockCas hg hpc
  | recheck n => exact h.recheck hpc
  | readCount n => exact h.readCount hpc
  | split n i next => exact h.split hpc
  | publish n next =>
    simp only [callAct, hpc]
    exact h.publish hpc
  | splitCompare n next => exact h.splitCompare hpc
  | leafWrite n child pos =>
    simp only [callAct, hpc]
    exact h.store hpc
  | leafCount n child =>
    simp only [callAct, hpc]
    exact h.count hpc
  | releaseLoad n retry =>
    have ht := h.callOk hpc
    simp only [callAct, hpc]
    exact h.move hpc (fun _ => id) nofun rfl fun hkeep =>
      ⟨ht.1, fun hretry hlo => hkeep _ (ht.2 hretry hlo)⟩
  | releaseStore n retry v =>
    simp only [callAct, hpc]
    exact h.release hpc
  | done ret | aborted =>
    simp only [callAct, hpc]
    rwa [System.put_eq_self]

omit [DecidableEq ι] in
theorem treeInv_start (h : CellsOk lo cells) (keys : ι → DTYPE) :
    TreeInv lo cells (callStart cells keys) where
  cells := h
  calls _ := ⟨trivial, fun hlo => h.root.trans hlo.le⟩
  held _ _ := nofun
  holder _ _ _ := nofun
  alone _ _ _ := nofun
  kept := by
    rintro k ⟨n, i, hreach, hleaf, hi, hkey⟩
    exact ⟨n, i, hreach, hleaf, Or.inl hi, hkey⟩

omit [DecidableEq ι] in
/-- When no call is inside `insertLeaf` any more, a placed key is in the tree. -/
theorem Placed.inTree (h : Placed s k) (hcounts : ∀ t, (s.threads t).pc.counts = none) :
    InTree s.shared k := by
  obtain ⟨n, i, hreach, hleaf, hlive, hkey⟩ := h
  rcases hlive with hlt | ⟨-, t, ht⟩
  · exact ⟨n, i, hreach, hleaf, hlt, hkey⟩
  · exact absurd ((hcounts t).symm.trans ht) (Option.some_ne_none n).symm

omit [DecidableEq ι] in
theorem callAct_key {th : InsertCall} : (callAct t cells th).2.key = th.key := by
  cases hpc : th.pc with
  | route n =>
    simp only [callAct, hpc]
    split_ifs
    · rfl
    · split
      · rfl
      · split_ifs <;> rfl
  | _ =>
    simp only [callAct, hpc]
    try split_ifs
    all_goals rfl

/-- A call keeps the key it was given. -/
theorem run_key (cells : NodeId → Cell) (keys : ι → DTYPE) (schedule : List ι) (t : ι) :
    ((run callStep (callStart cells keys) schedule).threads t).key = keys t := by
  have hkeep : ∀ (s : CallSystem ι) (u : ι), (s.threads t).key = keys t →
      ((callStep s u).threads t).key = keys t := by
    intro s u h
    rw [callStep]
    rcases eq_or_ne t u with rfl | htu
    · rw [System.step_self, callAct_key]
      exact h
    · rw [System.step_of_ne htu]
      exact h
  exact run_invariant (P := fun s : CallSystem ι => (s.threads t).key = keys t) rfl hkeep schedule

end Step

/-- In every run in which no call takes the lock of a node that another call's published split
is still to insert into, no two calls are ever inside `insertLeaf` on one node; and when all
calls have returned, the tree has the keys it had, and every key above the sentinel whose call
returned true. -/
theorem insert_exclusive [DecidableEq ι] (cells : NodeId → Cell) (h : CellsOk lo cells)
    (keys : ι → DTYPE) (schedule : List ι)
    (hunaimed : Guarded callStep TakesUnaimed (callStart cells keys) schedule) :
    Throughout callStep Exclusive (callStart cells keys) schedule ∧
      let s : CallSystem ι := run callStep (callStart cells keys) schedule
      (∀ t, ∃ ret, (s.threads t).pc = .done ret) →
        (∀ k, InTree cells k → InTree s.shared k) ∧
        ∀ t, lo < keys t → (s.threads t).pc = .done true → InTree s.shared (keys t) := by
  have hinv : Throughout callStep (TreeInv lo cells) (callStart cells keys) schedule :=
    hunaimed.throughout (treeInv_start h keys) fun _ _ hs hg => hs.step hg
  refine ⟨hinv.mono fun _ hs => hs.exclusive, ?_⟩
  intro s hdone
  have hlast : TreeInv lo cells s := hinv.last
  have hcounts : ∀ t, (s.threads t).pc.counts = none := by
    intro t
    obtain ⟨ret, ht⟩ := hdone t
    rw [ht]
    rfl
  refine ⟨fun k hk => (hlast.kept k hk).inTree hcounts, fun t hlo ht => ?_⟩
  have hcall := hlast.calls t
  have hkey : (s.threads t).key = keys t := run_key cells keys schedule t
  unfold CallOk at hcall
  rw [ht, hkey] at hcall
  exact (hcall rfl hlo).inTree hcounts

/-- A root without room. -/
def fullRoot : OptNode := .leaf ((List.range childNum).map fun i => (10 * i + 1, .ofByte 97))

/-- Two keys between the same two keys of that root. -/
def nearKeys (t : Fin 2) : DTYPE := 45 + 2 * t.val

theorem cellsOk_fullRoot : CellsOk 1 fullRoot.heap := by
  apply OptNode.Wf.cellsOk
  · exact ⟨by decide +kernel, by decide +kernel⟩
  · rfl

/-- The second call descends behind the first one's split, and takes the lock of the child when
the first one has inserted there and still holds the root. -/
theorem insert_exclusive_behind :
    let schedule := List.replicate 41 0 ++ List.replicate 4 1 ++ List.replicate 2 0 ++
      List.replicate 8 1 ++ List.replicate 2 0
    let s := run callStep (callStart fullRoot.heap nearKeys) schedule
    Throughout callStep Exclusive (callStart fullRoot.heap nearKeys) schedule ∧
      (∀ k, fullRoot.HasKey k → InTree s.shared k) ∧ InTree s.shared 45 ∧ InTree s.shared 47 := by
  intro schedule
  obtain ⟨hexclusive, hkeys⟩ := insert_exclusive fullRoot.heap cellsOk_fullRoot nearKeys
    schedule (by decide +kernel)
  have hdone : ∀ t, ((run callStep (callStart fullRoot.heap nearKeys) schedule).threads t).pc =
      .done true := by decide +kernel
  generalize run callStep (callStart fullRoot.heap nearKeys) schedule = s at hkeys hdone ⊢
  obtain ⟨hkept, hstored⟩ := hkeys fun t => ⟨true, hdone t⟩
  exact ⟨hexclusive, fun k hk => hkept k (OptNode.inTree_heap.mpr hk),
    hstored 0 (by decide) (hdone 0), hstored 1 (by decide) (hdone 1)⟩

/-- Where every child of the root is a leaf, the pointers lead no further. -/
theorem length_le_of_reach (h : ∀ j : Fin childNum, (cells [j]).inner = false)
    (hn : Reach cells n) : n.length ≤ 1 := by
  induction n with
  | nil => exact Nat.zero_le 1
  | cons j n ih =>
    cases n with
    | nil => exact le_rfl
    | cons i n =>
      -- the node's parent would be a child of the root with children
      have hlen := ih hn.2
      rw [List.length_cons, Nat.succ_le_succ_iff, Nat.le_zero, List.length_eq_zero_iff] at hlen
      subst hlen
      have hinner := hn.1
      rw [h i] at hinner
      exact Bool.noConfusion hinner

/-- The first call stops before its store into the child that its split has made, and the second
one takes the lock of the child and comes as far; after the rest of the run both have returned
true, and the second one's key is lost. -/
theorem insert_overwrites :
    let s := run callStep (callStart fullRoot.heap nearKeys)
      (List.replicate 41 0 ++ List.replicate 9 1)
    let s' := run callStep s [0, 0, 1, 0, 0, 0, 1, 1, 1]
    ¬ Exclusive s ∧ (∀ t, (s'.threads t).pc = .done true) ∧ nearKeys 1 = 47 ∧
      ¬ InTree s'.shared 47 := by
  intro s s'
  have hinside : (s.threads 0).pc.inLeaf = some [4] ∧ (s.threads 1).pc.inLeaf = some [4] := by
    decide +kernel
  have hleaves : ∀ j : Fin childNum, (s'.shared [j]).inner = false ∧
      ∀ i < (s'.shared [j]).count, (s'.shared [j]).keys i ≠ 47 := by decide +kernel
  refine ⟨fun h => ?_, by decide +kernel, rfl, ?_⟩
  · exact absurd (h 0 1 [4] hinside.1 hinside.2) (by decide)
  · rintro ⟨n, i, hreach, hleaf, hi, hkey⟩
    have hlen := length_le_of_reach (fun j => (hleaves j).1) hreach
    cases n with
    | nil => exact absurd hleaf (by decide +kernel)
    | cons j n =>
      cases n with
      | nil => exact (hleaves j).2 i hi hkey
      | cons => exact absurd hlen (by simp)

end PimLex
