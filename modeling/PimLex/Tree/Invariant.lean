import PimLex.Tree.Leaf
import Mathlib.Order.Fin.Basic

/-!
# The child-range invariant

Child `i` of an inner node starts with the separator `keys i` and holds nothing
above the separators after it. A key equal to the next separator may stay in the
left neighbour: the split compares strictly where the descent does not. Since the
right neighbour starts with that separator, the descent still finds the key.

Insertion keeps the invariant whatever the key is. It stores the key unless the
key lies below the smallest key of a root that has no room: such a call returns
without storing anything.
-/

namespace PimLex.OptNode

open Search

/-- The keys and payloads in the leaves, from left to right. -/
def entries : OptNode → List (DTYPE × StringPayload)
  | .leaf es => es
  | .inner _ pointers => (List.finRange childNum).flatMap fun i => entries (pointers i)

/-- Some leaf stores the key. -/
def HasKey (t : OptNode) (k : DTYPE) : Prop := k ∈ t.entries.map Prod.fst

/-- `keys[0]`, when the node has a key. -/
def headKey : OptNode → Option DTYPE
  | .leaf es => es.head?.map Prod.fst
  | .inner keys _ => some (keys 0)

/-- The child-range invariant. -/
def Wf : OptNode → Prop
  | .leaf es => Sorted es ∧ es.length ≤ childNum
  | .inner keys pointers => StrictMono keys ∧
      (∀ i, Wf (pointers i) ∧ (pointers i).headKey = some (keys i)) ∧
      ∀ i j, i < j → ∀ k, (pointers i).HasKey k → k ≤ keys j

/-- The key lies below every key of a root that has no room for it. -/
def Low (t : OptNode) (k : DTYPE) : Prop :=
  match t with
  | .leaf es => es.length = childNum ∧ k < keyAt es 0
  | .inner keys _ => k < keys 0

variable {t : OptNode} {k : DTYPE} {p : StringPayload} {es : List (DTYPE × StringPayload)}
  {keys : Fin childNum → DTYPE} {pointers : Fin childNum → OptNode}
  {e : DTYPE × StringPayload} {i j : Fin childNum}

section Entries

@[simp] theorem entries_leaf : (leaf es).entries = es := rfl

@[simp] theorem mem_entries_inner :
    e ∈ (inner keys pointers).entries ↔ ∃ i, e ∈ (pointers i).entries := by
  simp [entries]

@[simp] theorem hasKey_leaf : (leaf es).HasKey k ↔ k ∈ es.map Prod.fst := Iff.rfl

theorem hasKey_iff : t.HasKey k ↔ ∃ p, (k, p) ∈ t.entries := by
  simp [HasKey]

theorem HasKey.mono {t' : OptNode} (h : t.HasKey k) (hsub : ∀ e ∈ t.entries, e ∈ t'.entries) :
    t'.HasKey k :=
  List.map_subset _ hsub h

@[simp] theorem hasKey_inner :
    (inner keys pointers).HasKey k ↔ ∃ i, (pointers i).HasKey k := by
  simp only [hasKey_iff, mem_entries_inner]
  exact exists_comm

@[simp] theorem headKey_inner : (inner keys pointers).headKey = some (keys 0) := rfl

theorem headKey_leaf (h : es ≠ []) : (leaf es).headKey = some (keyAt es 0) := by
  cases es with
  | nil => exact absurd rfl h
  | cons e es => rfl

theorem headKey_of_full (hlen : es.length = childNum) : (leaf es).headKey = some (keyAt es 0) :=
  headKey_leaf (List.ne_nil_of_length_eq_add_one hlen)

theorem wf_empty : empty.Wf := ⟨List.Pairwise.nil, by simp⟩

/-- No stored key is below the first one. -/
theorem Wf.headKey_le (wf : t.Wf) {lo : DTYPE} (hlo : t.headKey = some lo)
    (hk : t.HasKey k) : lo ≤ k := by
  induction t generalizing lo with
  | leaf es =>
    cases es with
    | nil => simp [headKey] at hlo
    | cons e es =>
      obtain rfl : e.1 = lo := by simpa [headKey] using hlo
      rcases List.mem_cons.mp hk with rfl | hk
      · exact le_rfl
      · obtain ⟨x, hx, rfl⟩ := List.mem_map.mp hk
        exact (List.rel_of_pairwise_cons wf.1 hx).le
  | inner keys pointers ih =>
    obtain ⟨mono, child, -⟩ := wf
    obtain rfl : keys 0 = lo := by simpa using hlo
    obtain ⟨i, hi⟩ := hasKey_inner.mp hk
    exact (mono.monotone (Fin.zero_le i)).trans (ih i (child i).1 (child i).2 hi)

/-- The first key is stored. -/
theorem Wf.hasKey_head (wf : t.Wf) {lo : DTYPE} (hlo : t.headKey = some lo) : t.HasKey lo := by
  induction t generalizing lo with
  | leaf es =>
    cases es with
    | nil => simp [headKey] at hlo
    | cons e es =>
      obtain rfl : e.1 = lo := by simpa [headKey] using hlo
      exact List.mem_cons_self
  | inner keys pointers ih =>
    obtain rfl : keys 0 = lo := by simpa using hlo
    exact hasKey_inner.mpr ⟨0, ih 0 (wf.2.1 0).1 (wf.2.1 0).2⟩

end Entries

section Separators

theorem isCut_sepAt (mono : StrictMono keys) (k : DTYPE) :
    IsCut (fun i => sepAt keys i ≤ k) childNum (rank (sepAt keys) childNum k) := by
  refine StrictIncr.isCut_rank (fun i j hij hj => ?_) k
  simp only [sepAt, dif_pos hj, dif_pos (hij.trans hj)]
  exact mono (Fin.mk_lt_mk.mpr hij)

/-- Descent picks the last child whose separator is at most the key. -/
theorem childIndex_eq_some (mono : StrictMono keys) (hi : keys i ≤ k)
    (hj : ∀ j, i < j → k < keys j) : childIndex keys k = some i := by
  have hcut : IsCut (fun m => sepAt keys m ≤ k) childNum (i.val + 1) := by
    refine ⟨i.isLt, fun m hm => ?_⟩
    simp only [sepAt, dif_pos hm]
    constructor
    · intro hle
      by_contra hgt
      exact absurd (hj ⟨m, hm⟩ (Fin.lt_def.mpr (by simp; omega))) (not_lt.mpr hle)
    · intro hlt
      exact (mono.monotone (Fin.le_def.mpr (Nat.lt_succ_iff.mp hlt))).trans hi
  have hbound : lowerBoundInner keys k = i.val + 1 :=
    upperBound_eq_rank hcut (Nat.zero_le _) hcut.le le_rfl
  simp only [childIndex, hbound, dif_pos i.isLt, Fin.eta]

theorem exists_childIndex (mono : StrictMono keys) (h0 : keys 0 ≤ k) :
    ∃ i, childIndex keys k = some i ∧ keys i ≤ k ∧ ∀ j, i < j → k < keys j := by
  have hcut := isCut_sepAt mono k
  generalize rank (sepAt keys) childNum k = c at hcut
  have hpos : 0 < c := (hcut.iff 0 (by simp)).mp (by simpa [sepAt] using h0)
  have hc : c - 1 < childNum := by have := hcut.le; omega
  have hle : keys ⟨c - 1, hc⟩ ≤ k := by
    simpa only [sepAt, dif_pos hc] using (hcut.iff (c - 1) hc).mpr (by omega)
  have hgt : ∀ j, (⟨c - 1, hc⟩ : Fin childNum) < j → k < keys j := by
    intro j hj
    have hnot := mt (hcut.iff j j.isLt).mp (by have := Fin.lt_def.mp hj; simp at this; omega)
    simpa only [sepAt, dif_pos j.isLt, Fin.eta, not_le] using hnot
  exact ⟨_, childIndex_eq_some mono hle hgt, hle, hgt⟩

/-- The split's loop keeps the last index that satisfied its test. -/
private theorem foldl_last (P : Fin childNum → Prop) [DecidablePred P]
    (l : List (Fin childNum)) (d : Fin childNum) (hl : l.Pairwise (· < ·)) (hd : ∀ i ∈ l, d ≤ i) :
    let r := l.foldl (fun next i => if P i then i else next) d
    d ≤ r ∧ (r = d ∨ P r) ∧ ∀ i ∈ l, P i → i ≤ r := by
  induction l generalizing d with
  | nil => simp
  | cons a l ih =>
    obtain ⟨hal, hl⟩ := List.pairwise_cons.mp hl
    rw [List.foldl_cons]
    by_cases ha : P a
    · rw [if_pos ha]
      obtain ⟨hle, hor, hmax⟩ := ih a hl fun i hi => (hal i hi).le
      refine ⟨(hd a List.mem_cons_self).trans hle, Or.inr ?_, fun i hi hPi => ?_⟩
      · rcases hor with heq | hP
        · rwa [heq]
        · exact hP
      · rcases List.mem_cons.mp hi with rfl | hi
        · exact hle
        · exact hmax i hi hPi
    · rw [if_neg ha]
      obtain ⟨hle, hor, hmax⟩ := ih d hl fun i hi => hd i (List.mem_cons_of_mem a hi)
      refine ⟨hle, hor, fun i hi hPi => ?_⟩
      rcases List.mem_cons.mp hi with rfl | hi
      · exact absurd hPi ha
      · exact hmax i hi hPi

/-- The split inserts under the last separator strictly below the key. -/
theorem nextInsertChildId_spec (h0 : keys 0 < k) :
    keys (nextInsertChildId keys k) < k ∧
      ∀ j, nextInsertChildId keys k < j → k ≤ keys j := by
  obtain ⟨-, hor, hmax⟩ := foldl_last (fun i => keys i < k) (List.finRange childNum) 0
    (List.pairwise_lt_finRange childNum) fun i _ => Fin.zero_le i
  constructor
  · rcases hor with heq | hlt
    · rw [nextInsertChildId, heq]
      exact h0
    · exact hlt
  · intro j hj
    by_contra hlt
    exact absurd (hmax j (List.mem_finRange j) (not_le.mp hlt)) (not_le.mpr hj)

end Separators

section Update

/-- Replacing one child by a well-formed one with the same first key, within the later
separators, keeps the invariant. -/
theorem Wf.update_child (wf : (inner keys pointers).Wf) {child : OptNode} (hwf : child.Wf)
    (hhead : child.headKey = some (keys i))
    (hbound : ∀ j, i < j → ∀ k, child.HasKey k → k ≤ keys j) :
    (inner keys (Function.update pointers i child)).Wf := by
  obtain ⟨mono, hchild, hrange⟩ := wf
  refine ⟨mono, ?_, ?_⟩
  · intro j
    by_cases hji : j = i
    · subst hji
      rw [Function.update_self]
      exact ⟨hwf, hhead⟩
    · rw [Function.update_of_ne hji]
      exact hchild j
  · intro j j' hj k hk
    by_cases hji : j = i
    · subst hji
      rw [Function.update_self] at hk
      exact hbound j' hj k hk
    · rw [Function.update_of_ne hji] at hk
      exact hrange j j' hj k hk

theorem mem_entries_update {child : OptNode} :
    e ∈ (inner keys (Function.update pointers i child)).entries ↔
      e ∈ child.entries ∨ ∃ j, j ≠ i ∧ e ∈ (pointers j).entries := by
  rw [mem_entries_inner]
  constructor
  · rintro ⟨j, hj⟩
    by_cases hji : j = i
    · subst hji
      exact Or.inl (by simpa using hj)
    · exact Or.inr ⟨j, hji, by simpa [Function.update_of_ne hji] using hj⟩
  · rintro (h | ⟨j, hji, hj⟩)
    · exact ⟨i, by simpa using h⟩
    · exact ⟨j, by simpa [Function.update_of_ne hji] using hj⟩

/-- The inner node a full leaf becomes, before the pending key goes in. -/
def splitNode (es : List (DTYPE × StringPayload)) : OptNode :=
  .inner (splitKeys es) fun i => .leaf (splitLeaf es i)

theorem slot_lt (hlen : es.length = childNum) (i : Fin childNum) : i.val < es.length := by
  rw [hlen]
  exact i.isLt

theorem splitLeaf_eq (hlen : es.length = childNum) (i : Fin childNum) :
    splitLeaf es i = [es.get ⟨i, slot_lt hlen i⟩] := by
  simp [splitLeaf, slot_lt hlen i]

theorem splitKeys_eq (hlen : es.length = childNum) (i : Fin childNum) :
    splitKeys es i = (es.get ⟨i, slot_lt hlen i⟩).1 :=
  keyAt_eq_getElem (slot_lt hlen i)

theorem range_flatMap_getElem? {α : Type} (l : List α) (n : ℕ) :
    ((List.range n).flatMap fun i => (l[i]?).toList) = l.take n := by
  induction n with
  | zero => rfl
  | succ n ih => rw [List.range_succ, List.flatMap_append, ih, List.flatMap_singleton,
      List.take_add_one]

/-- A split keeps the entries in their order. -/
theorem entries_splitNode (hlen : es.length = childNum) : (splitNode es).entries = es := by
  have hrange : ((List.finRange childNum).map Fin.val).flatMap (fun i => (es[i]?).toList) = es := by
    rw [List.map_coe_finRange_eq_range, range_flatMap_getElem?, ← hlen, List.take_length]
  rwa [List.flatMap_map] at hrange

/-- Splitting a full leaf gives a well-formed inner node. -/
theorem wf_splitNode (hs : Sorted es) (hlen : es.length = childNum) : (splitNode es).Wf := by
  have mono : StrictMono (splitKeys es) := fun i j hij => hs.keyAt_lt hij (slot_lt hlen j)
  refine ⟨mono, fun i => ⟨?_, ?_⟩, ?_⟩
  · change Sorted (splitLeaf es i) ∧ (splitLeaf es i).length ≤ childNum
    rw [splitLeaf_eq hlen]
    exact ⟨List.pairwise_singleton _ _, by rw [List.length_singleton]; decide⟩
  · change (leaf (splitLeaf es i)).headKey = _
    rw [splitLeaf_eq hlen, splitKeys_eq hlen]
    rfl
  · intro i j hij k hk
    change k ∈ (splitLeaf es i).map Prod.fst at hk
    rw [splitLeaf_eq hlen, List.map_singleton, List.mem_singleton] at hk
    rw [hk, ← splitKeys_eq hlen]
    exact (mono hij).le

end Update

section Insert

/-- What one `insert` call does to a well-formed tree. -/
structure InsertSpec (t : OptNode) (k : DTYPE) (p : StringPayload) (t' : OptNode) : Prop where
  wf : t'.Wf
  keep : ∀ e ∈ t.entries, e ∈ t'.entries
  only : ∀ e ∈ t'.entries, e ∈ t.entries ∨ e = (k, p)
  stored : ¬ t.Low k → t'.HasKey k
  lost : t.Low k → ∀ e ∈ t'.entries, e ∈ t.entries
  head : (∀ lo, t.headKey = some lo → lo ≤ k) → t'.headKey = some (t.headKey.getD k)

theorem InsertSpec.hasKey_iff {t' : OptNode} (h : InsertSpec t k p t')
    (hlow : ¬ t.Low k) (q : DTYPE) : t'.HasKey q ↔ t.HasKey q ∨ q = k := by
  constructor
  · intro hq
    obtain ⟨e, he, rfl⟩ := List.mem_map.mp hq
    rcases h.only e he with he | rfl
    · exact Or.inl (List.mem_map_of_mem he)
    · exact Or.inr rfl
  · rintro (hq | rfl)
    · exact hq.mono h.keep
    · exact h.stored hlow

/-- A key at or above the first one is never lost. -/
theorem not_low_of_le (h : ∀ lo, t.headKey = some lo → lo ≤ k) : ¬ t.Low k := by
  cases t with
  | leaf es =>
    rintro ⟨hlen, hlt⟩
    exact absurd (h _ (headKey_of_full hlen)) (not_le.mpr hlt)
  | inner keys pointers => exact not_lt.mpr (h _ rfl)

private theorem insertSpec_leaf (hs : Sorted es) (hlen : es.length < childNum) (k : DTYPE)
    (p : StringPayload) :
    ∃ ret es', insertLeaf es k p = .ok (ret, es') ∧ InsertSpec (.leaf es) k p (.leaf es') := by
  obtain ⟨ret, es', hins, hs', hlen', hk, hkeep, honly⟩ := insertLeaf_spec hs hlen k p
  refine ⟨ret, es', hins, ⟨hs', by omega⟩, hkeep, honly, fun _ => hk, ?lost, ?head⟩
  case lost =>
    intro hlow
    exact absurd hlow.1 (by omega)
  case head =>
    intro hle
    cases es with
    | nil =>
      have hes' : es' = [(k, p)] := by
        have hok := hins.symm
        simp only [insertLeaf, List.length_nil, ne_eq, not_true_eq_false, if_false,
          if_pos (show 0 < childNum by decide), Except.ok.injEq, Prod.mk.injEq] at hok
        exact hok.2
      rw [hes']
      rfl
    | cons e es =>
      by_cases hmem : k ∈ (e :: es).map Prod.fst
      · rw [insertLeaf_of_mem hs hlen hmem, Except.ok.injEq, Prod.mk.injEq] at hins
        rw [← hins.2]
        rfl
      · obtain ⟨a, b, heq, ha, hb, hins'⟩ := insertLeaf_of_notMem (p := p) hs hlen hmem
        rw [hins', Except.ok.injEq, Prod.mk.injEq] at hins
        rw [← hins.2]
        cases a with
        | nil =>
          have hlt := hb e (by rw [← List.nil_append b, ← heq]; exact List.mem_cons_self)
          exact absurd (hle e.1 rfl) (not_le.mpr hlt)
        | cons x a =>
          rw [List.cons_append, List.cons.injEq] at heq
          rw [heq.1]
          rfl

/-- Inserting into the child that covers the key inserts into the node. -/
theorem InsertSpec.child (wf : (inner keys pointers).Wf) (hle : keys i ≤ k)
    (hge : ∀ j, i < j → k ≤ keys j) {child : OptNode} (h : InsertSpec (pointers i) k p child) :
    InsertSpec (inner keys pointers) k p (inner keys (Function.update pointers i child)) := by
  have hhead := (wf.2.1 i).2
  -- the child's first key is its separator
  have hcover : ∀ lo, (pointers i).headKey = some lo → lo ≤ k := by
    intro lo hlo
    rw [hhead, Option.some.injEq] at hlo
    exact hlo ▸ hle
  have hnot := not_low_of_le hcover
  constructor
  case wf =>
    apply wf.update_child h.wf
    · rw [h.head hcover, hhead]
      rfl
    · intro j hj q hq
      rcases (h.hasKey_iff hnot q).mp hq with hq | rfl
      · exact wf.2.2 i j hj q hq
      · exact hge j hj
  case keep =>
    intro e he
    rw [mem_entries_update]
    obtain ⟨j, hj⟩ := mem_entries_inner.mp he
    by_cases hji : j = i
    · exact Or.inl (h.keep e (hji ▸ hj))
    · exact Or.inr ⟨j, hji, hj⟩
  case only =>
    intro e he
    rcases mem_entries_update.mp he with he | ⟨j, -, hj⟩
    · rcases h.only e he with he | he
      · exact Or.inl (mem_entries_inner.mpr ⟨i, he⟩)
      · exact Or.inr he
    · exact Or.inl (mem_entries_inner.mpr ⟨j, hj⟩)
  case stored =>
    intro _
    exact hasKey_inner.mpr ⟨i, by rw [Function.update_self]; exact h.stored hnot⟩
  case lost =>
    intro hlow
    -- the node covers the key, so it is not below all
    have hlt := (wf.1.monotone (Fin.zero_le i)).trans hle
    exact absurd hlow (not_lt.mpr hlt)
  case head => exact fun _ => rfl

/-- A split by itself changes no entry, so what is inserted into the split node is
inserted into the leaf. -/
theorem InsertSpec.of_splitNode (hlen : es.length = childNum) {t' : OptNode}
    (h : InsertSpec (splitNode es) k p t') : InsertSpec (.leaf es) k p t' := by
  have hlow : (splitNode es).Low k ↔ (leaf es).Low k :=
    ⟨fun hlt => ⟨hlen, hlt⟩, fun hlt => hlt.2⟩
  refine ⟨h.wf, ?keep, ?only, fun hnot => h.stored (mt hlow.mp hnot), ?lost, ?head⟩
  case keep =>
    intro e he
    rw [← entries_splitNode hlen] at he
    exact h.keep e he
  case only =>
    intro e he
    rw [entries_leaf, ← entries_splitNode hlen]
    exact h.only e he
  case lost =>
    intro hl e he
    rw [entries_leaf, ← entries_splitNode hlen]
    exact h.lost (hlow.mpr hl) e he
  case head =>
    intro hle
    rw [headKey_of_full hlen] at hle ⊢
    exact h.head hle

/-- A call that leaves the tree alone is right for the first key and for those below it. -/
theorem InsertSpec.unchanged (wf : (inner keys pointers).Wf) (h0 : k ≤ keys 0) :
    InsertSpec (inner keys pointers) k p (inner keys pointers) := by
  refine ⟨wf, fun _ h => h, fun _ h => Or.inl h, fun hlow => ?_, fun _ _ h => h, fun _ => rfl⟩
  have heq : keys 0 = k := le_antisymm (not_lt.mp hlow) h0
  exact heq ▸ wf.hasKey_head rfl

/-- One `insert` call: it never faults, keeps the invariant, and loses its key only when
the key is below every key of a root without room. -/
theorem insert_spec (wf : t.Wf) (k : DTYPE) (p : StringPayload) :
    ∃ ret t', t.insert k p = .ok (ret, t') ∧ InsertSpec t k p t' := by
  induction t with
  | leaf es =>
    obtain ⟨hs, hle⟩ := wf
    by_cases hfull : es.length = childNum
    · -- a full leaf splits first, and what follows is an insertion into the split node
      have hwf := wf_splitNode hs hfull
      by_cases h0 : splitKeys es 0 < k
      · obtain ⟨hlt, hge⟩ := nextInsertChildId_spec h0
        generalize hn : nextInsertChildId (splitKeys es) k = next at hlt hge
        have hone := splitLeaf_eq hfull next
        have hsingle : Sorted (splitLeaf es next) := by
          rw [hone]
          exact List.pairwise_singleton _ _
        obtain ⟨_, es', hins, hspec⟩ := insertSpec_leaf hsingle
          (by rw [hone, List.length_singleton]; decide) k p
        refine ⟨true, _, ?_, (InsertSpec.child hwf hlt.le hge hspec).of_splitNode hfull⟩
        simp only [insert, if_pos hfull, if_pos h0, hn, hins]
        rfl
      · -- a key not above the first one of all is not stored
        refine ⟨true, splitNode es, ?_,
          (InsertSpec.unchanged hwf (not_lt.mp h0)).of_splitNode hfull⟩
        simp only [insert, if_pos hfull, if_neg h0]
        rfl
    · obtain ⟨_, es', hins, hspec⟩ := insertSpec_leaf hs (by omega) k p
      refine ⟨true, .leaf es', ?_, hspec⟩
      simp only [insert, if_neg hfull, hins]
      rfl
  | inner keys pointers ih =>
    by_cases h0 : k ≤ keys 0
    · exact ⟨false, inner keys pointers, by simp only [insert, if_pos h0],
        InsertSpec.unchanged wf h0⟩
    · -- the child the descent picks covers `k`
      obtain ⟨pos, hpos, hle, hgt⟩ := exists_childIndex wf.1 (not_le.mp h0).le
      obtain ⟨ret, child, hins, hspec⟩ := ih pos (wf.2.1 pos).1
      refine ⟨ret, _, ?_, InsertSpec.child wf hle (fun j hj => (hgt j hj).le) hspec⟩
      simp only [insert, if_neg h0, hpos, hins]
      rfl

end Insert

end PimLex.OptNode
