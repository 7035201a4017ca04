import PimLex.Tree.Lookup

/-!
# Where an insertion goes

An insertion into a well-formed tree does one of six things, by the node its descent
ends in. Said once, this tells what becomes of the entries: they gain one, or stay
as they were, and which of the two is seen in the tree beforehand. A full leaf does
not look for the key: if it has the key above its first one, the split stores it
again in the left neighbour.
-/

namespace PimLex.OptNode

/-- The descent for `k` enters child `pos`. -/
def Enters (keys : Fin childNum → DTYPE) (k : DTYPE) (pos : Fin childNum) : Prop :=
  keys pos ≤ k ∧ ∀ j, pos < j → k < keys j

/-- What an insertion makes of a node. -/
inductive Inserted (k : DTYPE) (p : StringPayload) : OptNode → OptNode → Prop
  | present {es} (room : es.length < childNum) (mem : k ∈ es.map Prod.fst) :
    Inserted k p (leaf es) (leaf es)
  | absent {a b} (room : (a ++ b).length < childNum) (low : ∀ e ∈ a, e.1 < k)
    (high : ∀ e ∈ b, k < e.1) : Inserted k p (leaf (a ++ b)) (leaf (a ++ (k, p) :: b))
  | beneath {es} (full : es.length = childNum) (le : k ≤ keyAt es 0) :
    Inserted k p (leaf es) (splitNode es)
  | split {es} {next : Fin childNum} (full : es.length = childNum) (first : keyAt es 0 < k)
    (low : splitKeys es next < k) (high : ∀ j, next < j → k ≤ splitKeys es j) :
    Inserted k p (leaf es) (inner (splitKeys es)
      (Function.update (fun i => leaf (splitLeaf es i)) next
        (leaf (splitLeaf es next ++ [(k, p)]))))
  | stay {keys pointers} (le : k ≤ keys 0) :
    Inserted k p (inner keys pointers) (inner keys pointers)
  | child {keys pointers} {pos : Fin childNum} {t : OptNode} (first : keys 0 < k)
    (enters : Enters keys k pos) (inserted : Inserted k p (pointers pos) t) :
    Inserted k p (inner keys pointers) (inner keys (Function.update pointers pos t))

/-- The insertion of `k` adds an entry. -/
def Takes : OptNode → DTYPE → Prop
  | .leaf es, k => if es.length = childNum then keyAt es 0 < k else k ∉ es.map Prod.fst
  | .inner keys pointers, k => keys 0 < k ∧ ∃ pos, Enters keys k pos ∧ Takes (pointers pos) k

/-- The insertion of `k` adds a second entry for it. -/
def Doubles : OptNode → DTYPE → Prop
  | .leaf es, k => es.length = childNum ∧ keyAt es 0 < k ∧ k ∈ es.map Prod.fst
  | .inner keys pointers, k => keys 0 < k ∧ ∃ pos, Enters keys k pos ∧ Doubles (pointers pos) k

variable {t t' : OptNode} {k : DTYPE} {p : StringPayload} {ret : Bool}
  {es : List (DTYPE × StringPayload)} {keys : Fin childNum → DTYPE}
  {pointers : Fin childNum → OptNode} {i j pos : Fin childNum}

theorem notMem_of_between {a b : List (DTYPE × StringPayload)} (low : ∀ e ∈ a, e.1 < k)
    (high : ∀ e ∈ b, k < e.1) : k ∉ (a ++ b).map Prod.fst := by
  intro hmem
  obtain ⟨e, he, rfl⟩ := List.mem_map.mp hmem
  rcases List.mem_append.mp he with he | he
  · exact lt_irrefl _ (low e he)
  · exact lt_irrefl _ (high e he)

theorem Enters.unique (hi : Enters keys k i) (hj : Enters keys k j) : i = j := by
  rcases lt_trichotomy i j with h | h | h
  · exact absurd hj.1 (not_le.mpr (hi.2 j h))
  · exact h
  · exact absurd hi.1 (not_le.mpr (hj.2 i h))

theorem takes_leaf_of_lt (h : es.length < childNum) :
    (leaf es).Takes k ↔ k ∉ es.map Prod.fst := by
  rw [Takes, if_neg h.ne]

theorem takes_leaf_of_full (h : es.length = childNum) :
    (leaf es).Takes k ↔ keyAt es 0 < k := by
  rw [Takes, if_pos h]

theorem Enters.takes_iff (h : Enters keys k pos) (first : keys 0 < k) :
    (inner keys pointers).Takes k ↔ (pointers pos).Takes k := by
  rw [Takes]
  refine ⟨fun ⟨_, j, hj, htakes⟩ => ?_, fun htakes => ⟨first, pos, h, htakes⟩⟩
  rwa [h.unique hj]

theorem Enters.doubles_iff (h : Enters keys k pos) (first : keys 0 < k) :
    (inner keys pointers).Doubles k ↔ (pointers pos).Doubles k := by
  rw [Doubles]
  refine ⟨fun ⟨_, j, hj, hdoubles⟩ => ?_, fun hdoubles => ⟨first, pos, h, hdoubles⟩⟩
  rwa [h.unique hj]

/-- A second entry is what an insertion adds for a key that the tree has. -/
theorem doubles_iff (wf : t.Wf) : t.Doubles k ↔ t.Takes k ∧ t.HasKey k := by
  induction t with
  | leaf es =>
    rcases wf.2.lt_or_eq with hlt | hfull
    · rw [takes_leaf_of_lt hlt]
      exact iff_of_false (fun h => hlt.ne h.1) fun h => h.1 h.2
    · rw [takes_leaf_of_full hfull]
      exact ⟨fun h => h.2, fun h => ⟨hfull, h⟩⟩
  | inner keys pointers ih =>
    by_cases first : keys 0 < k
    · obtain ⟨pos, -, hle, hgt⟩ := exists_childIndex wf.1 first.le
      have enters : Enters keys k pos := ⟨hle, hgt⟩
      rw [enters.doubles_iff first, enters.takes_iff first, ih pos (wf.2.1 pos).1,
        wf.hasKey_child hle hgt]
    · exact iff_of_false (fun h => first h.1) fun h => first h.1.1

/-- The six cases are all there are. -/
theorem inserted_of_insert (wf : t.Wf) (h : t.insert k p = .ok (ret, t')) :
    Inserted k p t t' := by
  induction t generalizing ret t' with
  | leaf es =>
    obtain ⟨hs, hle⟩ := wf
    by_cases hfull : es.length = childNum
    · by_cases h0 : splitKeys es 0 < k
      · obtain ⟨hlow, hhigh⟩ := nextInsertChildId_spec h0
        simp only [insert, if_pos hfull, if_pos h0] at h
        generalize nextInsertChildId (splitKeys es) k = next at hlow hhigh h
        -- the child has one entry, below `k`
        have hlow' : ∀ e ∈ splitLeaf es next, e.1 < k := by
          intro e he
          rw [splitLeaf_eq hfull, List.mem_singleton] at he
          rwa [he, ← splitKeys_eq hfull]
        have hone : (splitLeaf es next).length = 1 := by rw [splitLeaf_eq hfull]; rfl
        have hsingle : Sorted (splitLeaf es next) := by
          rw [splitLeaf_eq hfull]
          exact List.pairwise_singleton _ _
        rw [insertLeaf_end hsingle (by rw [hone]; decide) hlow'] at h
        simp only [bind, Except.bind, Except.ok.injEq, Prod.mk.injEq] at h
        rw [← h.2]
        exact .split hfull h0 hlow hhigh
      · simp only [insert, if_pos hfull, if_neg h0, Except.ok.injEq, Prod.mk.injEq] at h
        rw [← h.2]
        exact .beneath hfull (not_lt.mp h0)
    · have hroom : es.length < childNum := lt_of_le_of_ne hle hfull
      by_cases hmem : k ∈ es.map Prod.fst
      · simp only [insert, if_neg hfull, insertLeaf_of_mem hs hroom hmem, bind, Except.bind,
          Except.ok.injEq, Prod.mk.injEq] at h
        rw [← h.2]
        exact .present hroom hmem
      · obtain ⟨a, b, rfl, ha, hb, hins⟩ := insertLeaf_of_notMem (p := p) hs hroom hmem
        simp only [insert, if_neg hfull, hins, bind, Except.bind, Except.ok.injEq,
          Prod.mk.injEq] at h
        rw [← h.2]
        exact .absent hroom ha hb
  | inner keys pointers ih =>
    by_cases h0 : k ≤ keys 0
    · simp only [insert, if_pos h0, Except.ok.injEq, Prod.mk.injEq] at h
      rw [← h.2]
      exact .stay h0
    · obtain ⟨pos, hpos, hle, hgt⟩ := exists_childIndex wf.1 (not_le.mp h0).le
      cases hchild : (pointers pos).insert k p with
      | error f => simp [insert, h0, hpos, hchild, bind, Except.bind] at h
      | ok r =>
        simp only [insert, if_neg h0, hpos, hchild, bind, Except.bind, Except.ok.injEq,
          Prod.mk.injEq] at h
        rw [← h.2]
        exact .child (not_le.mp h0) ⟨hle, hgt⟩ (ih pos (wf.2.1 pos).1 hchild)

section Entries

/-- A child that gains entries gives them to its node. -/
theorem entries_update_perm {child : OptNode} (added : List (DTYPE × StringPayload))
    (h : child.entries.Perm (added ++ (pointers pos).entries)) :
    (inner keys (Function.update pointers pos child)).entries.Perm
      (added ++ (inner keys pointers).entries) := by
  -- the child comes first, the others are as they were
  have hperm : (List.finRange childNum).Perm (pos :: (List.finRange childNum).erase pos) :=
    List.perm_cons_erase (List.mem_finRange pos)
  have hrest : ((List.finRange childNum).erase pos).flatMap
      (fun i => (Function.update pointers pos child i).entries) =
        ((List.finRange childNum).erase pos).flatMap fun i => (pointers i).entries := by
    apply List.flatMap_congr
    intro i hi
    have hne : i ≠ pos := fun heq =>
      (List.nodup_finRange childNum).not_mem_erase (heq ▸ hi)
    rw [Function.update_of_ne hne]
  have hnew : (inner keys (Function.update pointers pos child)).entries.Perm
      (child.entries ++ ((List.finRange childNum).erase pos).flatMap
        fun i => (pointers i).entries) := by
    rw [entries, ← hrest]
    refine (hperm.flatMap_right _).trans (List.Perm.of_eq ?_)
    rw [List.flatMap_cons, Function.update_self]
  have hold : (inner keys pointers).entries.Perm
      ((pointers pos).entries ++ ((List.finRange childNum).erase pos).flatMap
        fun i => (pointers i).entries) := by
    rw [entries]
    refine (hperm.flatMap_right _).trans (List.Perm.of_eq ?_)
    rw [List.flatMap_cons]
  refine hnew.trans ((h.append_right _).trans ?_)
  rw [List.append_assoc]
  exact hold.symm.append_left added

/-- An insertion that takes adds its entry. -/
theorem Inserted.perm_of_takes (h : Inserted k p t t') (htakes : t.Takes k) :
    t'.entries.Perm ((k, p) :: t.entries) := by
  induction h with
  | present room mem => exact absurd mem ((takes_leaf_of_lt room).mp htakes)
  | absent room low high => exact List.perm_middle
  | beneath full le => exact absurd ((takes_leaf_of_full full).mp htakes) (not_lt.mpr le)
  | @split es next full first low high =>
    have hchild : (leaf (splitLeaf es next ++ [(k, p)])).entries.Perm
        ([(k, p)] ++ (leaf (splitLeaf es next)).entries) := List.perm_append_comm
    have hperm : (inner (splitKeys es) (Function.update (fun i => leaf (splitLeaf es i)) next
        (leaf (splitLeaf es next ++ [(k, p)])))).entries.Perm
          ([(k, p)] ++ (splitNode es).entries) :=
      entries_update_perm [(k, p)] hchild
    rwa [entries_splitNode full] at hperm
  | stay le => exact absurd htakes.1 (not_lt.mpr le)
  | child first enters _ ih =>
    exact entries_update_perm [(k, p)] (ih ((enters.takes_iff first).mp htakes))

/-- Any other insertion adds nothing. -/
theorem Inserted.perm_of_not_takes (h : Inserted k p t t') (htakes : ¬ t.Takes k) :
    t'.entries.Perm t.entries := by
  induction h with
  | present room mem => exact List.Perm.refl _
  | absent room low high =>
    exact absurd ((takes_leaf_of_lt room).mpr (notMem_of_between low high)) htakes
  | beneath full le => rw [entries_splitNode full]; rfl
  | split full first low high => exact absurd ((takes_leaf_of_full full).mpr first) htakes
  | stay le => exact List.Perm.refl _
  | child first enters _ ih =>
    exact entries_update_perm [] (ih (mt (enters.takes_iff first).mpr htakes))

theorem Inserted.mem_iff (h : Inserted k p t t') {e : DTYPE × StringPayload} :
    e ∈ t'.entries ↔ e ∈ t.entries ∨ (t.Takes k ∧ e = (k, p)) := by
  by_cases htakes : t.Takes k
  · rw [(h.perm_of_takes htakes).mem_iff, List.mem_cons, or_comm]
    simp only [htakes, true_and]
  · rw [(h.perm_of_not_takes htakes).mem_iff]
    simp only [htakes, false_and, or_false]

end Entries

end PimLex.OptNode
