import PimLex.Tree.Lookup

/-!
# Collecting the trees before a merge

A merge gathers every tree with `getAllData` and then clears it. The walk
recurses only into children that are not leaves, and gives up on a root that is
a leaf, so it never reaches the loop that pushes a leaf's keys.
-/

namespace PimLex.OptNode

variable {t : OptNode}

/-- `getAllData` yields the stored keys, with their payloads, and nothing else. -/
def Collects (t : OptNode) : Prop :=
  (∀ e ∈ t.entries, e ∈ t.getAllData) ∧ ∀ e ∈ t.getAllData, e ∈ t.entries

/-- The overflow keys a merge holds after collecting, and the trees after `clear`. -/
def collectAndClear (trees : Fin nrPartition → OptNode) :
    List (DTYPE × StringPayload) × (Fin nrPartition → OptNode) :=
  ((List.finRange nrPartition).flatMap fun i => (trees i).getAllData, fun i => (trees i).clear)

theorem helpGetAllData_inner (h : t.isLeaf = false) : t.helpGetAllData = [] := by
  induction t with
  | leaf es => simp [isLeaf] at h
  | inner keys pointers ih =>
    rw [helpGetAllData, List.flatMap_eq_nil_iff]
    intro i _
    cases hi : (pointers i).isLeaf with
    -- children that are leaves are passed over, the others are empty-handed by induction
    | true => rw [if_pos rfl]
    | false =>
      rw [if_neg (by simp)]
      exact ih i hi

/-- The walk appends nothing, whatever the tree. -/
theorem getAllData_eq_nil (t : OptNode) : t.getAllData = [] := by
  cases h : t.isLeaf with
  | true => rw [getAllData, if_pos h]
  | false => rw [getAllData, if_neg (by simp [h]), helpGetAllData_inner h]

theorem collects_iff : t.Collects ↔ t.entries = [] := by
  rw [Collects, getAllData_eq_nil]
  simp [List.eq_nil_iff_forall_not_mem]

/-- A tree that some `insert` was called on stores an entry. -/
theorem entries_insertAll_eq_nil_iff {calls : List (DTYPE × StringPayload)}
    (h : empty.insertAll calls = .ok t) : t.entries = [] ↔ calls = [] := by
  cases calls with
  | nil =>
    obtain rfl : empty = t := by simpa using h
    simp [empty]
  | cons call calls =>
    obtain ⟨ret, t₁, hins, hspec⟩ := insert_spec wf_empty call.1 call.2
    obtain ⟨t₂, hall, -, hkeep, -⟩ := insertAll_ok hspec.wf calls
    rw [insertAll_cons hins, hall, Except.ok.injEq] at h
    have hstored := hspec.stored (not_low_of_le fun lo hlo => by simp [empty, headKey] at hlo)
    obtain ⟨e, he, -⟩ := List.mem_map.mp hstored
    exact iff_of_false (List.ne_nil_of_mem (h ▸ hkeep e he)) (List.cons_ne_nil _ _)

/-- For the trees that any calls of `insert` build: the walk of one is right exactly if no key
was inserted into it, and a merge holds every entry of the 128 trees before it clears them
exactly if no key was inserted into any. -/
theorem collect_iff_no_insert (calls : Fin nrPartition → List (DTYPE × StringPayload)) :
    ∃ trees, (∀ i, empty.insertAll (calls i) = .ok (trees i)) ∧
      (∀ i, (trees i).Collects ↔ calls i = []) ∧
      ((∀ i, ∀ e ∈ (trees i).entries, e ∈ (collectAndClear trees).1) ↔ ∀ i, calls i = []) := by
  choose trees hall _ using fun i => insertAll_ok wf_empty (calls i)
  have hnone : ∀ i, (trees i).entries = [] ↔ calls i = [] := fun i =>
    entries_insertAll_eq_nil_iff (hall i)
  have hnil : (collectAndClear trees).1 = [] := by
    simp [collectAndClear, getAllData_eq_nil]
  refine ⟨trees, hall, fun i => collects_iff.trans (hnone i), ?_⟩
  simp only [hnil, List.not_mem_nil, imp_false, ← List.eq_nil_iff_forall_not_mem, hnone]

/-- The sentinel and 39 further keys make an inner root, and none of the 40 is collected. -/
theorem collect_loses_forty_keys :
    ∃ t, empty.insertAll ((List.range' 1 40).map fun k => (k, .ofByte 97)) = .ok t ∧
      ¬ t.Collects := by
  obtain ⟨t, hall, -⟩ := insertAll_ok wf_empty ((List.range' 1 40).map fun k => (k, .ofByte 97))
  refine ⟨t, hall, fun hcollects => ?_⟩
  have hnil := (entries_insertAll_eq_nil_iff hall).mp (collects_iff.mp hcollects)
  exact absurd hnil (by simp)

end PimLex.OptNode
