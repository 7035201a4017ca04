import PimLex.Tree.Placement
import PimLex.Tree.Snapshot
import Mathlib.Data.List.Flatten

/-!
# One entry for a key

In a tree without a second entry for any key the separators cut the keys exactly,
and the keys that `getAllInner` collects strictly increase. The child-range invariant
gives this as soon as the stored keys are distinct; and they are distinct as long as
no insertion finds its key in a full leaf, above the first key. Such an insertion
adds a second entry, and no later one takes it back.
-/

namespace PimLex.OptNode

/-- Every key below a child is from the child's separator on and below the next one. -/
def Parted : OptNode → Prop
  | .leaf _ => True
  | .inner keys pointers => ∀ i, Parted (pointers i) ∧ ∀ k, (pointers i).HasKey k →
      keys i ≤ k ∧ ∀ j : Fin childNum, j.val = i.val + 1 → k < keys j

/-- No key has two entries, the separators cut the keys, and the collected ones increase. -/
structure Distinct (t : OptNode) : Prop where
  nodup : (t.entries.map Prod.fst).Nodup
  parted : t.Parted
  collected : (t.getAllInner.map Prod.fst).Pairwise (· < ·)

variable {t t' : OptNode} {k : DTYPE} {p : StringPayload} {keys : Fin childNum → DTYPE}
  {pointers : Fin childNum → OptNode} {i j : Fin childNum}
  {calls : List (DTYPE × StringPayload)}

section Static

theorem map_fst_entries_inner :
    (inner keys pointers).entries.map Prod.fst =
      (List.finRange childNum).flatMap fun i => (pointers i).entries.map Prod.fst := by
  rw [entries, List.map_flatMap]

theorem nodup_child (h : ((inner keys pointers).entries.map Prod.fst).Nodup) (i : Fin childNum) :
    ((pointers i).entries.map Prod.fst).Nodup := by
  rw [map_fst_entries_inner, List.nodup_flatMap] at h
  exact h.1 i (List.mem_finRange i)

/-- With distinct keys no two children share one. -/
theorem not_hasKey_of_lt (h : ((inner keys pointers).entries.map Prod.fst).Nodup) (hij : i < j)
    (hi : (pointers i).HasKey k) : ¬ (pointers j).HasKey k := by
  rw [map_fst_entries_inner, List.nodup_flatMap] at h
  have hdisjoint := (List.pairwise_iff_getElem.mp h.2) i j (by simp) (by simp) hij
  simp only [List.getElem_finRange, Function.onFun] at hdisjoint
  exact fun hj => hdisjoint hi hj

/-- A key that stayed in a left neighbour of its child would have two entries. -/
theorem Wf.parted (wf : t.Wf) (h : (t.entries.map Prod.fst).Nodup) : t.Parted := by
  induction t with
  | leaf es => trivial
  | inner keys pointers ih =>
    refine fun i => ⟨ih i (wf.2.1 i).1 (nodup_child h i), fun k hk => ⟨?_, fun j hj => ?_⟩⟩
    · exact (wf.2.1 i).1.headKey_le (wf.2.1 i).2 hk
    · have hij : i < j := Fin.lt_def.mpr (by omega)
      refine lt_of_le_of_ne (wf.2.2 i j hij k hk) ?_
      rintro rfl
      exact not_hasKey_of_lt h hij hk ((wf.2.1 j).1.hasKey_head (wf.2.1 j).2)

/-- The collected keys are stored keys, in their order and with their multiplicity. -/
theorem Wf.sublist_collected (wf : t.Wf) :
    (t.helpGetAllInner.map Prod.fst).Sublist (t.entries.map Prod.fst) := by
  induction t with
  | leaf es => exact List.nil_sublist _
  | inner keys pointers ih =>
    rw [helpGetAllInner_inner, List.map_flatMap, map_fst_entries_inner]
    refine List.Sublist.flatMap_right _ fun i _ => ?_
    rw [collectedAt]
    split_ifs
    · rw [List.map_map]
      exact ih i (wf.2.1 i).1
    · exact List.singleton_sublist.mpr ((wf.2.1 i).1.hasKey_head (wf.2.1 i).2)

theorem Wf.distinct_iff (wf : t.Wf) : t.Distinct ↔ (t.entries.map Prod.fst).Nodup := by
  refine ⟨Distinct.nodup, fun h => ⟨h, wf.parted h, ?_⟩⟩
  rw [getAllInner]
  split_ifs
  · exact List.Pairwise.nil
  · have hle : (t.helpGetAllInner.map Prod.fst).Pairwise (· ≤ ·) :=
      List.pairwise_map.mpr wf.pairwise_collected
    exact (hle.and (h.sublist wf.sublist_collected)).imp fun h => lt_of_le_of_ne h.1 h.2

end Static

section Calls

/-- An insertion keeps the keys distinct unless it adds a second entry; what is double stays so. -/
theorem Inserted.nodup_iff (h : Inserted k p t t') (wf : t.Wf) :
    (t'.entries.map Prod.fst).Nodup ↔ (t.entries.map Prod.fst).Nodup ∧ ¬ t.Doubles k := by
  rw [doubles_iff wf]
  by_cases htakes : t.Takes k
  · rw [((h.perm_of_takes htakes).map Prod.fst).nodup_iff, List.map_cons, List.nodup_cons, and_comm]
    simp only [htakes, true_and]
    rfl
  · rw [((h.perm_of_not_takes htakes).map Prod.fst).nodup_iff]
    simp only [htakes, false_and, not_false_eq_true, and_true]

theorem insertAll_nodup_iff (wf : t.Wf) (h : t.insertAll calls = .ok t') :
    (t'.entries.map Prod.fst).Nodup ↔ (t.entries.map Prod.fst).Nodup ∧
      ∀ pre call post, calls = pre ++ call :: post →
        ∀ t₁, t.insertAll pre = .ok t₁ → ¬ t₁.Doubles call.1 := by
  induction calls generalizing t with
  | nil =>
    obtain rfl : t = t' := by simpa using h
    simp
  | cons call calls ih =>
    obtain ⟨ret, t₁, hins, hspec⟩ := insert_spec wf call.1 call.2
    rw [insertAll_cons hins] at h
    rw [ih hspec.wf h, (inserted_of_insert wf hins).nodup_iff wf, and_assoc]
    refine and_congr_right fun _ => ⟨?_, fun hall => ⟨?_, ?_⟩⟩
    · rintro ⟨hfirst, hrest⟩ pre call' post heq t₂ ht₂
      cases pre with
      | nil =>
        rw [List.nil_append, List.cons.injEq] at heq
        obtain ⟨rfl, -⟩ := heq
        obtain rfl : t = t₂ := by simpa using ht₂
        exact hfirst
      | cons c pre =>
        rw [List.cons_append, List.cons.injEq] at heq
        obtain ⟨rfl, rfl⟩ := heq
        rw [insertAll_cons hins] at ht₂
        exact hrest pre call' post rfl t₂ ht₂
    · exact hall [] call calls rfl t rfl
    · rintro pre call' post rfl t₂ ht₂
      exact hall (call :: pre) call' post rfl t₂ (by rw [insertAll_cons hins, ht₂])

/-- A tree built by insertions is free of second entries exactly if none of them found its key in
a full leaf and above the first key of it. -/
theorem insertAll_distinct_iff (calls : List (DTYPE × StringPayload)) :
    ∃ t, empty.insertAll calls = .ok t ∧
      (t.Distinct ↔ ∀ pre call post, calls = pre ++ call :: post →
        ∀ t', empty.insertAll pre = .ok t' → ¬ t'.Doubles call.1) := by
  obtain ⟨t, hall, wf, -⟩ := insertAll_ok wf_empty calls
  refine ⟨t, hall, ?_⟩
  rw [wf.distinct_iff, insertAll_nodup_iff wf_empty hall]
  exact and_iff_right List.nodup_nil

/-- The keys of a full leaf, from 100 to 3200, and then 200 again. -/
def hundredsTwice : List (DTYPE × StringPayload) := hundreds ++ [(200, .ofByte 1)]

/-- The split that 200 brings about puts it in front of its own leaf. -/
theorem hundreds_doubled :
    (∀ c ∈ hundredsTwice, 100 ≤ c.1) ∧
      ∃ t, empty.insertAll hundredsTwice = .ok t ∧ ¬ t.Distinct := by
  refine ⟨by decide, ?_⟩
  obtain ⟨t, hall, wf, -⟩ := insertAll_ok wf_empty hundredsTwice
  refine ⟨t, hall, fun h => ?_⟩
  have hs : Sorted ([] ++ hundreds) := by decide
  have hfill : empty.insertAll hundreds = .ok (leaf hundreds) :=
    insertAll_ascending hs (by decide)
  obtain ⟨-, hnot⟩ := (insertAll_nodup_iff wf_empty hall).mp h.nodup
  exact hnot hundreds (200, .ofByte 1) [] rfl (leaf hundreds) hfill (by unfold Doubles; decide)

end Calls

end PimLex.OptNode
