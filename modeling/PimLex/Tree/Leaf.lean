import PimLex.Tree.Node
import Mathlib.Data.List.Pairwise

/-!
# Leaves

On a leaf with strictly increasing keys, `lowerBound` finds the first slot whose
key is not below the query. Search, update and insertion follow: a present key
is found at its slot, an absent one is inserted between the smaller and the
larger keys.
-/

namespace PimLex.OptNode

variable {es : List (DTYPE × StringPayload)} {k : DTYPE} {p : StringPayload} {i j : ℕ}

/-- The keys of a leaf strictly increase. -/
def Sorted (es : List (DTYPE × StringPayload)) : Prop := es.Pairwise fun a b => a.1 < b.1

instance : Decidable (Sorted es) := inferInstanceAs (Decidable (es.Pairwise _))

theorem keyAt_eq_getElem (h : i < es.length) : keyAt es i = es[i].1 := by
  simp [keyAt, List.getD_eq_getElem?_getD, h]

theorem Sorted.keyAt_lt (hs : Sorted es) (hij : i < j) (hj : j < es.length) :
    keyAt es i < keyAt es j := by
  rw [keyAt_eq_getElem (hij.trans hj), keyAt_eq_getElem hj]
  exact List.pairwise_iff_getElem.mp hs i j (hij.trans hj) hj hij

private theorem lowerBoundFuel_spec {key : ℕ → DTYPE} {n fuel lower upper : ℕ}
    (incr : ∀ i j, i < j → j < n → key i < key j) (hn : upper ≤ n) (hlu : lower ≤ upper)
    (hlow : ∀ i < lower, key i < k) (hhigh : ∀ i, upper ≤ i → i < n → k ≤ key i)
    (hfuel : upper - lower ≤ fuel) :
    let pos := lowerBoundFuel key k fuel lower upper
    pos ≤ n ∧ (∀ i < pos, key i < k) ∧ ∀ i, pos ≤ i → i < n → k ≤ key i := by
  induction fuel generalizing lower upper with
  | zero =>
    obtain rfl : lower = upper := by omega
    exact ⟨hn, hlow, hhigh⟩
  | succ fuel ih =>
    by_cases hlt : lower < upper
    · have hmid : (upper - lower) / 2 + lower < upper := by omega
      generalize hm : (upper - lower) / 2 + lower = mid at hmid
      have hlm : lower ≤ mid := by omega
      simp only [lowerBoundFuel, if_pos hlt, hm]
      -- the loop's three branches: left half, early return, right half
      rcases lt_trichotomy k (key mid) with hk | hk | hk
      · rw [if_pos hk]
        refine ih (by omega) hlm hlow (fun i hi hin => ?_) (by omega)
        rcases hi.lt_or_eq with hi | rfl
        · exact (hk.trans (incr _ _ hi hin)).le
        · exact hk.le
      · rw [if_neg hk.not_lt, if_neg hk.not_gt]
        refine ⟨by omega, fun i hi => hk ▸ incr i mid hi (by omega), fun i hi hin => ?_⟩
        rcases hi.lt_or_eq with hi | rfl
        · exact (hk.trans_lt (incr _ _ hi hin)).le
        · exact hk.le
      · rw [if_neg hk.not_gt, if_pos hk]
        refine ih hn (by omega) (fun i hi => ?_) hhigh (by omega)
        rcases (Nat.lt_succ_iff.mp hi).lt_or_eq with hi | rfl
        · exact (incr _ _ hi (by omega)).trans hk
        · exact hk
    · obtain rfl : lower = upper := by omega
      simp only [lowerBoundFuel, lt_irrefl, if_false]
      exact ⟨hn, hlow, hhigh⟩

/-- Without any order on the keys: the slot found is the end, or its key is not below. -/
theorem lowerBoundFuel_slot {key : ℕ → DTYPE} {fuel lower upper : ℕ}
    (hlu : lower ≤ upper) (hfuel : upper - lower ≤ fuel) :
    lowerBoundFuel key k fuel lower upper ≤ upper ∧
      (lowerBoundFuel key k fuel lower upper = upper ∨
        k ≤ key (lowerBoundFuel key k fuel lower upper)) := by
  induction fuel generalizing lower upper with
  | zero =>
    obtain rfl : lower = upper := by omega
    exact ⟨le_rfl, Or.inl rfl⟩
  | succ fuel ih =>
    by_cases hlt : lower < upper
    · have hmid : (upper - lower) / 2 + lower < upper := by omega
      generalize hm : (upper - lower) / 2 + lower = mid at hmid
      have hlm : lower ≤ mid := by omega
      simp only [lowerBoundFuel, if_pos hlt, hm]
      rcases lt_trichotomy k (key mid) with hk | hk | hk
      · rw [if_pos hk]
        obtain ⟨hle, hend⟩ := ih hlm (by omega)
        refine ⟨hle.trans hmid.le, Or.inr ?_⟩
        rcases hend with heq | hge
        · rw [heq]
          exact hk.le
        · exact hge
      · rw [if_neg hk.not_lt, if_neg hk.not_gt]
        exact ⟨hmid.le, Or.inr hk.le⟩
      · rw [if_neg hk.not_gt, if_pos hk]
        exact ih (by omega) (by omega)
    · obtain rfl : lower = upper := by omega
      rw [lowerBoundFuel, if_neg hlt]
      exact ⟨le_rfl, Or.inl rfl⟩

/-- The slot returned separates the keys below `k` from the others. -/
theorem lowerBound_spec (hs : Sorted es) (k : DTYPE) :
    lowerBound es k ≤ es.length ∧ (∀ i < lowerBound es k, keyAt es i < k) ∧
      ∀ i, lowerBound es k ≤ i → i < es.length → k ≤ keyAt es i :=
  lowerBoundFuel_spec (fun _ _ hij hj => hs.keyAt_lt hij hj) le_rfl (Nat.zero_le _)
    (fun i hi => absurd hi (Nat.not_lt_zero i)) (fun i hi hin => absurd hin (by omega)) (by omega)

/-- The test behind every leaf operation: the slot holds `k` exactly when some slot does. -/
theorem lowerBound_hit_iff (hs : Sorted es) :
    (lowerBound es k < es.length ∧ keyAt es (lowerBound es k) = k) ↔ k ∈ es.map Prod.fst := by
  obtain ⟨-, hbelow, habove⟩ := lowerBound_spec hs k
  constructor
  · rintro ⟨hlt, heq⟩
    rw [keyAt_eq_getElem hlt] at heq
    exact List.mem_map.mpr ⟨_, List.getElem_mem hlt, heq⟩
  · intro hmem
    obtain ⟨e, he, rfl⟩ := List.mem_map.mp hmem
    obtain ⟨i, hi, rfl⟩ := List.getElem_of_mem he
    rw [← keyAt_eq_getElem hi] at hbelow habove ⊢
    have hle : lowerBound es (keyAt es i) ≤ i := by
      by_contra hgt
      exact absurd (hbelow i (Nat.not_le.mp hgt)) (lt_irrefl _)
    -- with strictly increasing keys the slot found cannot lie before the key's own
    rcases hle.lt_or_eq with hlt | heq
    · have hge := habove _ le_rfl (hlt.trans hi)
      exact absurd (hs.keyAt_lt hlt hi) (Nat.not_lt.mpr hge)
    · rw [heq]
      exact ⟨hi, rfl⟩

theorem searchLeaf_iff (hs : Sorted es) : searchLeaf es k = true ↔ k ∈ es.map Prod.fst := by
  cases es with
  | nil => simp [searchLeaf]
  | cons e es => simp only [searchLeaf, List.length_cons, ne_eq, Nat.succ_ne_zero,
      not_false_eq_true, if_true, decide_eq_true_eq, ← lowerBound_hit_iff hs]

theorem insertLeaf_of_mem (hs : Sorted es) (hlen : es.length < childNum)
    (hmem : k ∈ es.map Prod.fst) : insertLeaf es k p = .ok (false, es) := by
  have hne : es.length ≠ 0 := by
    rintro h
    simp [List.length_eq_zero_iff.mp h] at hmem
  simp only [insertLeaf, if_pos hlen, if_pos hne, if_pos ((lowerBound_hit_iff hs).mpr hmem)]

/-- An absent key goes between the smaller and the larger ones. -/
theorem insertLeaf_of_notMem (hs : Sorted es) (hlen : es.length < childNum)
    (hmem : k ∉ es.map Prod.fst) :
    ∃ a b, es = a ++ b ∧ (∀ e ∈ a, e.1 < k) ∧ (∀ e ∈ b, k < e.1) ∧
      insertLeaf es k p = .ok (true, a ++ (k, p) :: b) := by
  by_cases hne : es.length ≠ 0
  · obtain ⟨hle, hbelow, habove⟩ := lowerBound_spec hs k
    refine ⟨es.take (lowerBound es k), es.drop (lowerBound es k),
      (List.take_append_drop _ _).symm, fun e he => ?_, fun e he => ?_, ?_⟩
    · obtain ⟨i, hi, rfl⟩ := List.getElem_of_mem he
      rw [List.length_take] at hi
      rw [List.getElem_take, ← keyAt_eq_getElem (by omega)]
      exact hbelow i (by omega)
    · obtain ⟨i, hi, rfl⟩ := List.getElem_of_mem he
      rw [List.length_drop] at hi
      rw [List.getElem_drop, ← keyAt_eq_getElem (by omega)]
      apply lt_of_le_of_ne (habove _ (Nat.le_add_right _ _) (by omega))
      intro heq
      apply hmem
      rw [heq, keyAt_eq_getElem (by omega)]
      exact List.mem_map_of_mem (List.getElem_mem _)
    · simp only [insertLeaf, if_pos hlen, if_pos hne,
        if_neg (mt (lowerBound_hit_iff hs).mp hmem)]
  · have hnil : es = [] := List.length_eq_zero_iff.mp (not_not.mp hne)
    subst hnil
    exact ⟨[], [], rfl, by simp, by simp, by simp [insertLeaf]⟩

/-- A key above all others goes to the end. -/
theorem insertLeaf_end (hs : Sorted es) (hlen : es.length < childNum)
    (hlt : ∀ e ∈ es, e.1 < k) : insertLeaf es k p = .ok (true, es ++ [(k, p)]) := by
  have hnot : k ∉ es.map Prod.fst := fun hmem => by
    obtain ⟨e, he, heq⟩ := List.mem_map.mp hmem
    exact absurd heq (hlt e he).ne
  obtain ⟨a, b, rfl, -, hb, hins⟩ := insertLeaf_of_notMem (p := p) hs hlen hnot
  obtain rfl : b = [] := List.eq_nil_iff_forall_not_mem.mpr fun e he => by
    have hlow := hlt e (List.mem_append_right _ he)
    exact absurd (hb e he) hlow.not_gt
  rw [hins, List.append_nil]

theorem sorted_insert {a b : List (DTYPE × StringPayload)} (hs : Sorted (a ++ b))
    (ha : ∀ e ∈ a, e.1 < k) (hb : ∀ e ∈ b, k < e.1) : Sorted (a ++ (k, p) :: b) := by
  obtain ⟨sa, sb, hab⟩ := List.pairwise_append.mp hs
  refine List.pairwise_append.mpr ⟨sa, List.pairwise_cons.mpr ⟨hb, sb⟩, fun x hx y hy => ?_⟩
  rcases List.mem_cons.mp hy with rfl | hy
  · exact ha x hx
  · exact hab x hx y hy

/-- Insertion into a leaf with room: sorted order is kept, nothing leaves, and only the
given entry may arrive. -/
theorem insertLeaf_spec (hs : Sorted es) (hlen : es.length < childNum) (k : DTYPE)
    (p : StringPayload) :
    ∃ ret es', insertLeaf es k p = .ok (ret, es') ∧ Sorted es' ∧ es'.length ≤ es.length + 1 ∧
      k ∈ es'.map Prod.fst ∧ (∀ e, e ∈ es → e ∈ es') ∧ ∀ e, e ∈ es' → e ∈ es ∨ e = (k, p) := by
  by_cases hmem : k ∈ es.map Prod.fst
  · exact ⟨_, _, insertLeaf_of_mem hs hlen hmem, hs, by omega, hmem, fun _ h => h,
      fun _ h => Or.inl h⟩
  · obtain ⟨a, b, rfl, ha, hb, hins⟩ := insertLeaf_of_notMem (p := p) hs hlen hmem
    refine ⟨_, _, hins, sorted_insert hs ha hb, ?_, by simp, fun e he => ?_, fun e he => ?_⟩
    · simp only [List.length_append, List.length_cons]
      omega
    · simp only [List.mem_append, List.mem_cons] at he ⊢
      tauto
    · simp only [List.mem_append, List.mem_cons] at he ⊢
      tauto

theorem updateLeaf_keys (es : List (DTYPE × StringPayload)) (k : DTYPE) (p : StringPayload) :
    (updateLeaf es k p).2.map Prod.fst = es.map Prod.fst := by
  simp only [updateLeaf]
  split_ifs with hne hhit
  · rw [List.map_set]
    apply List.ext_getElem (by simp)
    intro i hi hi'
    rw [List.getElem_set]
    split_ifs with heq
    · rw [keyAt_eq_getElem hhit.1] at hhit
      subst heq
      simpa using hhit.2.symm
    · rfl
  · rfl
  · rfl

end PimLex.OptNode
