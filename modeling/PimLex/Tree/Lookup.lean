import PimLex.Tree.Invariant

/-!
# The tree as a set

Above the first key, a descent ends in the leaf that stores the key if any leaf
does, so `lookup` decides membership and nothing faults. A sequence of insertions
above a sentinel therefore builds exactly the set of the keys inserted.
-/

namespace PimLex.OptNode

variable {t : OptNode} {k lo : DTYPE} {p : StringPayload}

instance : Decidable (t.HasKey k) := inferInstanceAs (Decidable (k ∈ t.entries.map Prod.fst))

/-- The key is not below the first key; an empty tree covers every key. -/
def Covers (t : OptNode) (k : DTYPE) : Prop := ∀ lo, t.headKey = some lo → lo ≤ k

theorem Covers.not_low (h : t.Covers k) : ¬ t.Low k := not_low_of_le h

theorem covers_of_head (hhead : t.headKey = some lo) (hle : lo ≤ k) : t.Covers k := by
  intro lo' hlo'
  rw [hhead, Option.some.injEq] at hlo'
  exact hlo' ▸ hle

/-- The child a descent enters stores the key if any child does. -/
theorem Wf.hasKey_child {keys : Fin childNum → DTYPE} {pointers : Fin childNum → OptNode}
    {pos : Fin childNum} (wf : (inner keys pointers).Wf) (hle : keys pos ≤ k)
    (hgt : ∀ j, pos < j → k < keys j) :
    (pointers pos).HasKey k ↔ (inner keys pointers).HasKey k := by
  refine ⟨fun h => hasKey_inner.mpr ⟨pos, h⟩, fun h => ?_⟩
  obtain ⟨i, hi⟩ := hasKey_inner.mp h
  rcases lt_trichotomy i pos with hlt | rfl | hlt
  · -- only the separator itself can have stayed in a left neighbour
    obtain rfl : k = keys pos := le_antisymm (wf.2.2 i pos hlt k hi) hle
    exact (wf.2.1 pos).1.hasKey_head (wf.2.1 pos).2
  · exact hi
  · have hge := (wf.2.1 i).1.headKey_le (wf.2.1 i).2 hi
    exact absurd (hgt i hlt) (not_lt.mpr hge)

/-- A descent above the first key ends in a sorted leaf with the right answer for the key. -/
theorem descend_spec (wf : t.Wf) (hk : t.Covers k) :
    ∃ es, t.descend k = .ok es ∧ Sorted es ∧ (k ∈ es.map Prod.fst ↔ t.HasKey k) ∧
      ∀ e ∈ es, e ∈ t.entries := by
  induction t with
  | leaf es => exact ⟨es, rfl, wf.1, Iff.rfl, fun _ h => h⟩
  | inner keys pointers ih =>
    -- coverage of the root passes to the child, which starts at its separator
    have h0 : keys 0 ≤ k := hk _ rfl
    obtain ⟨pos, hpos, hle, hgt⟩ := exists_childIndex wf.1 h0
    obtain ⟨es, hes, hs, hmem, hsub⟩ :=
      ih pos (wf.2.1 pos).1 (covers_of_head (wf.2.1 pos).2 hle)
    refine ⟨es, ?_, hs, hmem.trans (wf.hasKey_child hle hgt), fun e he => ?_⟩
    · simp only [descend, if_neg (not_lt.mpr h0), hpos, hes]
    · exact mem_entries_inner.mpr ⟨pos, hsub e he⟩

/-- `lookup` decides membership of every key at or above the first one. -/
theorem lookup_spec (wf : t.Wf) (hk : t.Covers k) : t.lookup k = .ok (decide (t.HasKey k)) := by
  obtain ⟨es, hes, hs, hmem, -⟩ := descend_spec wf hk
  rw [lookup, hes]
  change Except.ok (searchLeaf es k) = _
  rw [Except.ok.injEq, Bool.eq_iff_iff, searchLeaf_iff hs, decide_eq_true_iff, hmem]

/-- Below the separators of an inner root a descent follows `smallnode`. -/
theorem descend_of_lt {keys : Fin childNum → DTYPE} {pointers : Fin childNum → OptNode}
    (h : k < keys 0) : (inner keys pointers).descend k = .error .smallnode := by
  simp only [descend, if_pos h]

/-- `update` takes the same descent as `lookup`. -/
theorem update_ok_iff : (∃ r, t.update k p = .ok r) ↔ ∃ es, t.descend k = .ok es := by
  induction t with
  | leaf es => exact ⟨fun _ => ⟨es, rfl⟩, fun _ => ⟨_, rfl⟩⟩
  | inner keys pointers ih =>
    by_cases h0 : k < keys 0
    · simp [update, descend, h0]
    · cases hpos : childIndex keys k with
      | none => simp [update, descend, h0, hpos]
      | some pos =>
        simp only [update, descend, if_neg h0, hpos]
        rw [← ih pos]
        cases (pointers pos).update k p with
        | error f => simp [bind, Except.bind]
        | ok r => exact ⟨fun _ => ⟨r, rfl⟩, fun _ => ⟨_, rfl⟩⟩

theorem update_ok (wf : t.Wf) (hk : t.Covers k) : ∃ r, t.update k p = .ok r := by
  obtain ⟨es, hes, -⟩ := descend_spec wf hk
  exact update_ok_iff.mpr ⟨es, hes⟩

/-- An update changes no key. -/
theorem update_keys {t' : OptNode} {ret : Bool} (h : t.update k p = .ok (ret, t')) :
    t'.entries.map Prod.fst = t.entries.map Prod.fst := by
  induction t generalizing ret t' with
  | leaf es =>
    simp only [update, Except.ok.injEq, Prod.mk.injEq] at h
    rw [← h.2]
    exact updateLeaf_keys es k p
  | inner keys pointers ih =>
    by_cases h0 : k < keys 0
    · simp [update, h0] at h
    · cases hpos : childIndex keys k with
      | none => simp [update, h0, hpos] at h
      | some pos =>
        cases hchild : (pointers pos).update k p with
        | error f => simp [update, h0, hpos, hchild, bind, Except.bind] at h
        | ok r =>
          simp only [update, if_neg h0, hpos, hchild, bind, Except.bind, Except.ok.injEq,
            Prod.mk.injEq] at h
          rw [← h.2, entries, entries, List.map_flatMap, List.map_flatMap]
          apply List.flatMap_congr
          intro i _
          -- only the child on the path is another, and it has the same keys
          rcases eq_or_ne i pos with rfl | hi
          · rw [Function.update_self]
            exact ih i hchild
          · rw [Function.update_of_ne hi]

section Sequences

variable {es calls : List (DTYPE × StringPayload)} {call : DTYPE × StringPayload}

@[simp] theorem insertAll_nil : t.insertAll [] = .ok t := rfl

theorem insertAll_cons {t' : OptNode} {ret : Bool}
    (h : t.insert call.1 call.2 = .ok (ret, t')) :
    t.insertAll (call :: calls) = t'.insertAll calls := by
  rw [insertAll, List.foldlM_cons, h]
  rfl

theorem insertAll_append {t' : OptNode} {calls' : List (DTYPE × StringPayload)}
    (h : t.insertAll calls = .ok t') : t.insertAll (calls ++ calls') = t'.insertAll calls' := by
  rw [insertAll, List.foldlM_append, ← insertAll, h]
  rfl

/-- Any insertions into a well-formed tree run without a fault, and only add entries. -/
theorem insertAll_ok (wf : t.Wf) (calls : List (DTYPE × StringPayload)) :
    ∃ t', t.insertAll calls = .ok t' ∧ t'.Wf ∧ (∀ e ∈ t.entries, e ∈ t'.entries) ∧
      ∀ e ∈ t'.entries, e ∈ t.entries ∨ e ∈ calls := by
  induction calls generalizing t with
  | nil => exact ⟨t, rfl, wf, fun _ h => h, fun _ h => Or.inl h⟩
  | cons call calls ih =>
    obtain ⟨ret, t₁, hins, hspec⟩ := insert_spec wf call.1 call.2
    obtain ⟨t₂, hall, wf₂, hkeep, honly⟩ := ih hspec.wf
    refine ⟨t₂, (insertAll_cons hins).trans hall, wf₂, fun e he => hkeep e (hspec.keep e he),
      fun e he => ?_⟩
    rcases honly e he with he | he
    · rcases hspec.only e he with he | rfl
      · exact Or.inl he
      · exact Or.inr List.mem_cons_self
    · exact Or.inr (List.mem_cons_of_mem _ he)

/-- Insertions at or above the first key add exactly their keys. -/
theorem insertAll_spec (wf : t.Wf) (hhead : t.headKey = some lo)
    (hcalls : ∀ c ∈ calls, lo ≤ c.1) :
    ∃ t', t.insertAll calls = .ok t' ∧ t'.Wf ∧ t'.headKey = some lo ∧
      ∀ q, t'.HasKey q ↔ t.HasKey q ∨ q ∈ calls.map Prod.fst := by
  induction calls generalizing t with
  | nil => exact ⟨t, rfl, wf, hhead, by simp⟩
  | cons call calls ih =>
    have hcover : t.Covers call.1 := covers_of_head hhead (hcalls _ List.mem_cons_self)
    obtain ⟨ret, t₁, hins, hspec⟩ := insert_spec wf call.1 call.2
    have hhead₁ : t₁.headKey = some lo := by
      rw [hspec.head hcover, hhead]
      rfl
    obtain ⟨t₂, hall, wf₂, hhead₂, hkeys⟩ :=
      ih hspec.wf hhead₁ fun c hc => hcalls c (List.mem_cons_of_mem _ hc)
    refine ⟨t₂, (insertAll_cons hins).trans hall, wf₂, hhead₂, fun q => ?_⟩
    rw [hkeys q, hspec.hasKey_iff hcover.not_low q, List.map_cons, List.mem_cons, or_assoc]

/-- Keys that come in ascending order fill a leaf in that order. -/
theorem insertAll_ascending (hs : Sorted (es ++ calls)) (hlen : (es ++ calls).length ≤ childNum) :
    (leaf es).insertAll calls = .ok (leaf (es ++ calls)) := by
  induction calls generalizing es with
  | nil => simp
  | cons call calls ih =>
    have hroom : es.length < childNum := by
      rw [List.length_append, List.length_cons] at hlen
      omega
    obtain ⟨hes, -, hcross⟩ := List.pairwise_append.mp hs
    have hins := insertLeaf_end (p := call.2) hes hroom
      fun e he => hcross e he call List.mem_cons_self
    have hstep : (leaf es).insert call.1 call.2 = .ok (true, leaf (es ++ [call])) := by
      simp only [insert, if_neg hroom.ne, hins, bind, Except.bind]
    rw [List.append_cons] at hs hlen ⊢
    rw [insertAll_cons hstep]
    exact ih hs hlen

end Sequences

/-- A tree whose first call inserts a sentinel starts with it and holds exactly the keys of
its calls. -/
theorem insertAll_sentinel (s : DTYPE) (p : StringPayload) (calls : List (DTYPE × StringPayload))
    (hcalls : ∀ c ∈ calls, s ≤ c.1) :
    ∃ t, empty.insertAll ((s, p) :: calls) = .ok t ∧ t.Wf ∧ t.headKey = some s ∧
      ∀ q, t.HasKey q ↔ q ∈ s :: calls.map Prod.fst := by
  have hins : empty.insert s p = .ok (true, .leaf [(s, p)]) := by
    simp only [empty, insert, insertLeaf, List.length_nil]
    rfl
  have wf₀ : (leaf [(s, p)]).Wf := by
    refine ⟨List.pairwise_singleton _ _, ?_⟩
    rw [List.length_singleton]
    decide
  obtain ⟨t, hall, wf, hhead, hkeys⟩ :=
    insertAll_spec wf₀ (rfl : headKey (.leaf [(s, p)]) = some s) hcalls
  refine ⟨t, (insertAll_cons hins).trans hall, wf, hhead, fun q => ?_⟩
  rw [hkeys q, hasKey_leaf, List.map_singleton, List.mem_singleton, List.mem_cons]

/-- After a sentinel and any later insertions at or above it, `lookup` answers whether the
key was inserted, and no call at or above the sentinel follows `smallnode`, uses a negative
index or trips the assertion. -/
theorem sentinel_set (s : DTYPE) (p : StringPayload) (calls : List (DTYPE × StringPayload))
    (hcalls : ∀ c ∈ calls, s ≤ c.1) :
    ∃ t, empty.insertAll ((s, p) :: calls) = .ok t ∧ ∀ k, s ≤ k →
      t.lookup k = .ok (decide (k ∈ s :: calls.map Prod.fst)) ∧
      (∀ v, ∃ r, t.insert k v = .ok r) ∧ ∀ v, ∃ r, t.update k v = .ok r := by
  obtain ⟨t, hall, wf, hhead, hkeys⟩ := insertAll_sentinel s p calls hcalls
  refine ⟨t, hall, fun k hk => ?_⟩
  have hcover : t.Covers k := covers_of_head hhead hk
  refine ⟨?_, ?_, fun v => update_ok wf hcover⟩
  · rw [lookup_spec wf hcover]
    congr 1
    rw [decide_eq_decide, hkeys k]
  · intro v
    obtain ⟨ret, t', hins', -⟩ := insert_spec wf k v
    exact ⟨_, hins'⟩

/-- Forty keys above the sentinel, enough to split the root. -/
theorem sentinel_set_forty :
    ∃ t, empty.insertAll ((1, .ofByte 97) :: (List.range' 2 40).map fun k => (k, .ofByte 99)) =
        .ok t ∧ ∀ k, 1 ≤ k →
      t.lookup k = .ok (decide (k ∈ 1 :: ((List.range' 2 40).map fun k =>
        (k, StringPayload.ofByte 99)).map Prod.fst)) ∧
      (∀ v, ∃ r, t.insert k v = .ok r) ∧ ∀ v, ∃ r, t.update k v = .ok r :=
  sentinel_set 1 (.ofByte 97) ((List.range' 2 40).map fun k => (k, .ofByte 99)) (by decide)

end PimLex.OptNode
