import PimLex.Tree.Lookup
import Mathlib.Order.Bounds.Basic

/-!
# Stale snapshots of a tree

A DPU holds the separators that point to the leaves of a tree, in a flat sorted
array, with the leaves they point to. The host goes on inserting. A leaf that
splits stays where it is and becomes an inner node, so a node is known by the
path that leads to it, and the path that a descent of the old tree took is a
prefix of the path it takes in the new one.

A search that starts at the old leaf finds what a search from the root finds. An
insertion does the same, except for the smallest separator of a parent: the
insertion from the root stops at the parent, while the one that starts at the
leaf splits it if it is full.
-/

namespace PimLex.OptNode

open Search

/-- A node of a tree, as the child numbers from the root down. -/
abbrev Path := List (Fin childNum)

section Model

/-- `helpGetAllInner`: the separators over leaves, each with the node it points to. -/
def helpGetAllInner : OptNode → List (DTYPE × Path)
  | .leaf _ => []
  | .inner keys pointers =>
    (List.finRange childNum).flatMap fun i =>
      if (pointers i).isLeaf = false then
        (helpGetAllInner (pointers i)).map fun e => (e.1, i :: e.2)
      else [(keys i, [i])]

/-- `OptBTree::getAllInner`, which gives up on a root that is a leaf. -/
def getAllInner (t : OptNode) : List (DTYPE × Path) :=
  if t.isLeaf then [] else t.helpGetAllInner

/-- The node a pointer stands for. -/
def nodeAt : Path → OptNode → Option OptNode
  | [], t => some t
  | _ :: _, .leaf _ => none
  | i :: path, .inner _ pointers => nodeAt path (pointers i)

/-- The tree after its node at the path was changed in place. -/
def setNode : Path → OptNode → OptNode → OptNode
  | [], _, node => node
  | _ :: _, .leaf es, _ => .leaf es
  | i :: path, .inner keys pointers, node =>
    .inner keys (Function.update pointers i (setNode path (pointers i) node))

/-- `OptBTree::lookupFromNode`, whose body is that of `lookup`. -/
def lookupFromNode (t : OptNode) (k : DTYPE) (path : Path) : Except Fault Bool :=
  match t.nodeAt path with
  | some node => node.lookup k
  | none => .error .pointerIndex

/-- `OptBTree::insertFromNode`, whose body is that of `insert`. -/
def insertFromNode (t : OptNode) (k : DTYPE) (v : StringPayload) (path : Path) :
    Except Fault (Bool × OptNode) :=
  match t.nodeAt path with
  | some node => (node.insert k v).map fun r => (r.1, t.setNode path r.2)
  | none => .error .pointerIndex

/-- The loop of `main_kernel1` for `op_type == 2`, on the closed interval from `l` to `r`. -/
def overflowSearchFuel (key : ℕ → DTYPE) (k : DTYPE) : ℕ → ℤ → ℤ → ℤ
  | 0, _, r => r
  | fuel + 1, l, r =>
    if l ≤ r then
      let mid := l + (r - l) / 2
      if key mid.toNat > k then overflowSearchFuel key k fuel l (mid - 1)
      else overflowSearchFuel key k fuel (mid + 1) r
    else r

/-- The binary search of `main_kernel1` for `op_type == 2` over the collected separators. -/
def overflowSearch (entries : List (DTYPE × Path)) (k : DTYPE) : ℤ :=
  overflowSearchFuel (fun i => (entries.map Prod.fst).getD i 0) k entries.length 0
    (entries.length - 1)

end Model

variable {t t' t'' node : OptNode} {k q lo : DTYPE} {v : StringPayload} {path : Path}
  {es : List (DTYPE × StringPayload)} {keys : Fin childNum → DTYPE}
  {pointers pointers' : Fin childNum → OptNode} {calls : List (DTYPE × StringPayload)}
  {ret : Bool} {i : Fin childNum}

section Search

/-- The loop ends one slot before the cut of the entries at or below the key. -/
theorem overflowSearchFuel_eq {key : ℕ → DTYPE} {n c fuel : ℕ} {l r : ℤ}
    (hcut : IsCut (fun i => key i ≤ k) n c) (hl : 0 ≤ l) (hlc : l ≤ c) (hcr : (c : ℤ) ≤ r + 1)
    (hr : r + 1 ≤ n) (hfuel : r + 1 - l ≤ fuel) : overflowSearchFuel key k fuel l r = c - 1 := by
  induction fuel generalizing l r with
  | zero =>
    simp only [overflowSearchFuel]
    omega
  | succ fuel ih =>
    by_cases hlr : l ≤ r
    · have hmid : l + (r - l) / 2 ≤ r := by omega
      generalize hm : l + (r - l) / 2 = mid at hmid
      have hlm : l ≤ mid := by omega
      have hiff := hcut.iff mid.toNat (by omega)
      simp only [overflowSearchFuel, if_pos hlr, hm]
      -- the cut stays between the ends of the interval
      by_cases hgt : key mid.toNat > k
      · rw [if_pos hgt]
        have hge : c ≤ mid.toNat := not_lt.mp (mt hiff.mpr (not_le.mpr hgt))
        exact ih hl hlc (by omega) (by omega) (by omega)
      · rw [if_neg hgt]
        have hlt := hiff.mp (not_lt.mp hgt)
        exact ih (by omega) (by omega) hcr hr (by omega)
    · simp only [overflowSearchFuel, if_neg hlr]
      omega

end Search

section Paths

/-- A descent for the key passes the separator `q` on its way to the node at the path. -/
inductive Leads (k : DTYPE) : OptNode → DTYPE → Path → Prop
  | last {keys : Fin childNum → DTYPE} {pointers : Fin childNum → OptNode} {i : Fin childNum}
      (hpos : childIndex keys k = some i) : Leads k (inner keys pointers) (keys i) [i]
  | step {keys : Fin childNum → DTYPE} {pointers : Fin childNum → OptNode} {i : Fin childNum}
      {q : DTYPE} {path : Path} (hpos : childIndex keys k = some i)
      (hrest : Leads k (pointers i) q path) : Leads k (inner keys pointers) q (i :: path)

/-- Inner nodes stay inner nodes with the same keys; a leaf may become anything. -/
inductive Grows : OptNode → OptNode → Prop
  | leaf {es : List (DTYPE × StringPayload)} {t' : OptNode} : Grows (leaf es) t'
  | inner {keys : Fin childNum → DTYPE} {pointers pointers' : Fin childNum → OptNode}
      (hchild : ∀ i, Grows (pointers i) (pointers' i)) :
      Grows (inner keys pointers) (inner keys pointers')

theorem Grows.refl (t : OptNode) : Grows t t := by
  induction t with
  | leaf es => exact .leaf
  | inner keys pointers ih => exact .inner ih

theorem Grows.trans (h : Grows t t') (h' : Grows t' t'') : Grows t t'' := by
  induction h generalizing t'' with
  | leaf => exact .leaf
  | inner _ ih =>
    cases h' with
    | inner hchild' => exact .inner fun i => ih i (hchild' i)

theorem grows_insert (h : t.insert k v = .ok (ret, t')) : Grows t t' := by
  induction t generalizing ret t' with
  | leaf es => exact .leaf
  | inner keys pointers ih =>
    -- the two early returns change nothing
    by_cases h0 : k ≤ keys 0
    · simp only [insert, if_pos h0, Except.ok.injEq, Prod.mk.injEq] at h
      exact h.2 ▸ .refl _
    · cases hpos : childIndex keys k with
      | none =>
        simp only [insert, if_neg h0, hpos, Except.ok.injEq, Prod.mk.injEq] at h
        exact h.2 ▸ .refl _
      | some pos =>
        cases hchild : (pointers pos).insert k v with
        | error f => simp [insert, h0, hpos, hchild, bind, Except.bind] at h
        | ok r =>
          simp only [insert, if_neg h0, hpos, hchild, bind, Except.bind, Except.ok.injEq,
            Prod.mk.injEq] at h
          rw [← h.2]
          refine .inner fun i => ?_
          rcases eq_or_ne i pos with rfl | hi
          · rw [Function.update_self]
            exact ih i hchild
          · rw [Function.update_of_ne hi]
            exact .refl _

theorem grows_insertAll (wf : t.Wf) (h : t.insertAll calls = .ok t') : Grows t t' := by
  induction calls generalizing t with
  | nil =>
    obtain rfl : t = t' := by simpa using h
    exact .refl t
  | cons call calls ih =>
    obtain ⟨ret, t₁, hins, hspec⟩ := insert_spec wf call.1 call.2
    rw [insertAll_cons hins] at h
    exact (grows_insert hins).trans (ih hspec.wf h)

/-- The way to an old leaf is the same in the grown tree. -/
theorem Leads.grow (h : Leads k t q path) (hg : Grows t t') : Leads k t' q path := by
  induction h generalizing t' with
  | last hpos =>
    cases hg with
    | inner _ => exact .last hpos
  | step hpos _ ih =>
    cases hg with
    | inner hchild => exact .step hpos (ih (hchild _))

/-- At the end of the way stands a node that starts with the last separator passed. -/
theorem Leads.exists_node (h : Leads k t q path) (wf : t.Wf) :
    ∃ node, t.nodeAt path = some node ∧ node.Wf ∧ node.headKey = some q := by
  induction h with
  | last _ => exact ⟨_, rfl, wf.2.1 _⟩
  | step _ _ ih => exact ih (wf.2.1 _).1

/-- A descent from the node is the rest of the descent from the root. -/
theorem Leads.lookup_eq (h : Leads k t q path) (wf : t.Wf) (hk : t.Covers k)
    (hnode : t.nodeAt path = some node) : t.lookup k = node.lookup k := by
  induction h with
  | last hpos =>
    have h0 := not_lt.mpr (hk _ rfl)
    obtain rfl := Option.some.inj hnode
    simp only [lookup, descend, if_neg h0, hpos]
  | @step keys pointers i q path hpos hrest ih =>
    have h0 := not_lt.mpr (hk _ rfl)
    -- the key is covered by the child on the way too
    obtain ⟨_, hpos', hle, -⟩ := exists_childIndex wf.1 (hk _ rfl)
    obtain rfl := Option.some.inj (hpos'.symm.trans hpos)
    have hchild := ih (wf.2.1 _).1 (covers_of_head (wf.2.1 _).2 hle) hnode
    rw [← hchild]
    simp only [lookup, descend, if_neg h0, hpos]

end Paths

section Collected

/-- What the walk collects at one child. -/
def collectedAt (keys : Fin childNum → DTYPE) (pointers : Fin childNum → OptNode)
    (i : Fin childNum) : List (DTYPE × Path) :=
  if (pointers i).isLeaf = false then
    (pointers i).helpGetAllInner.map fun e => (e.1, i :: e.2)
  else [(keys i, [i])]

theorem helpGetAllInner_inner :
    (inner keys pointers).helpGetAllInner =
      (List.finRange childNum).flatMap (collectedAt keys pointers) := rfl

/-- Every collected separator is stored in the tree. -/
theorem Wf.hasKey_collected (wf : t.Wf) {e : DTYPE × Path} (he : e ∈ t.helpGetAllInner) :
    t.HasKey e.1 := by
  induction t generalizing e with
  | leaf es => simp [helpGetAllInner] at he
  | inner keys pointers ih =>
    obtain ⟨i, -, hi⟩ := List.mem_flatMap.mp (helpGetAllInner_inner ▸ he)
    refine hasKey_inner.mpr ⟨i, ?_⟩
    rw [collectedAt] at hi
    split_ifs at hi
    · obtain ⟨e', he', rfl⟩ := List.mem_map.mp hi
      have hchild : (pointers i).HasKey e'.1 := ih i (wf.2.1 i).1 he'
      exact hchild
    · rw [List.mem_singleton.mp hi]
      exact (wf.2.1 i).1.hasKey_head (wf.2.1 i).2

theorem Wf.hasKey_collectedAt (wf : (inner keys pointers).Wf) {e : DTYPE × Path}
    (he : e ∈ collectedAt keys pointers i) : (pointers i).HasKey e.1 := by
  rw [collectedAt] at he
  split_ifs at he
  · obtain ⟨e', he', rfl⟩ := List.mem_map.mp he
    have hchild : (pointers i).HasKey e'.1 := Wf.hasKey_collected (wf.2.1 i).1 he'
    exact hchild
  · rw [List.mem_singleton.mp he]
    exact (wf.2.1 i).1.hasKey_head (wf.2.1 i).2

theorem Wf.le_collectedAt (wf : (inner keys pointers).Wf) {e : DTYPE × Path}
    (he : e ∈ collectedAt keys pointers i) : keys i ≤ e.1 :=
  (wf.2.1 i).1.headKey_le (wf.2.1 i).2 (wf.hasKey_collectedAt he)

/-- The collected separators do not decrease. A separator that stayed in its left neighbour
may come twice. -/
theorem Wf.pairwise_collected (wf : t.Wf) :
    t.helpGetAllInner.Pairwise fun e e' => e.1 ≤ e'.1 := by
  induction t with
  | leaf es => exact List.Pairwise.nil
  | inner keys pointers ih =>
    rw [helpGetAllInner_inner, List.pairwise_flatMap]
    constructor
    · intro i _
      rw [collectedAt]
      split_ifs
      · exact List.pairwise_map.mpr (ih i (wf.2.1 i).1)
      · exact List.pairwise_singleton _ _
    · -- a child holds nothing above the separators after it
      apply (List.pairwise_lt_finRange childNum).imp
      intro i j hij e he e' he'
      exact (wf.2.2 i j hij _ (wf.hasKey_collectedAt he)).trans (wf.le_collectedAt he')

/-- The last separator at or below the key is the one over the leaf that a descent reaches. -/
theorem Wf.exists_collected (wf : t.Wf) (hinner : t.isLeaf = false) (hk : t.Covers k) :
    ∃ a q path b, t.helpGetAllInner = a ++ (q, path) :: b ∧ q ≤ k ∧ (∀ e ∈ b, k < e.1) ∧
      Leads k t q path := by
  induction t with
  | leaf es => simp [isLeaf] at hinner
  | inner keys pointers ih =>
    obtain ⟨pos, hpos, hle, hgt⟩ := exists_childIndex wf.1 (hk _ rfl)
    obtain ⟨left, right, hsplit⟩ := List.append_of_mem (List.mem_finRange pos)
    -- the children behind the one on the way hold only larger separators
    have hright : ∀ e ∈ right.flatMap (collectedAt keys pointers), k < e.1 := by
      intro e he
      obtain ⟨j, hj, he⟩ := List.mem_flatMap.mp he
      have hsorted := List.pairwise_lt_finRange childNum
      rw [hsplit, List.pairwise_append] at hsorted
      have hlt := List.rel_of_pairwise_cons hsorted.2.1 hj
      exact (hgt j hlt).trans_le (wf.le_collectedAt he)
    have hall : (inner keys pointers).helpGetAllInner =
        left.flatMap (collectedAt keys pointers) ++
          (collectedAt keys pointers pos ++ right.flatMap (collectedAt keys pointers)) := by
      rw [helpGetAllInner_inner, hsplit, List.flatMap_append, List.flatMap_cons]
    by_cases hleaf : (pointers pos).isLeaf = false
    · -- the child's own list splits by induction
      obtain ⟨a, q, path, b, hlist, hq, hb, hleads⟩ :=
        ih pos (wf.2.1 pos).1 hleaf (covers_of_head (wf.2.1 pos).2 hle)
      refine ⟨left.flatMap (collectedAt keys pointers) ++ a.map fun e => (e.1, pos :: e.2), q,
        pos :: path, (b.map fun e => (e.1, pos :: e.2)) ++
          right.flatMap (collectedAt keys pointers), ?_, hq, ?_, .step hpos hleads⟩
      · rw [hall, collectedAt, if_pos hleaf, hlist]
        simp only [List.map_append, List.map_cons, List.append_assoc, List.cons_append]
      · intro e he
        rcases List.mem_append.mp he with he | he
        · obtain ⟨e', he', rfl⟩ := List.mem_map.mp he
          exact hb e' he'
        · exact hright e he
    · -- over a leaf the separator is collected itself
      exact ⟨left.flatMap (collectedAt keys pointers), keys pos, [pos], _,
        by rw [hall, collectedAt, if_neg hleaf]; rfl, hle, hright, .last hpos⟩

/-- The kernel's search names the last separator at or below the key. -/
theorem overflowSearch_eq {a b : List (DTYPE × Path)} {e : DTYPE × Path}
    (hs : (a ++ e :: b).Pairwise fun e e' => e.1 ≤ e'.1) (he : e.1 ≤ k)
    (hb : ∀ x ∈ b, k < x.1) :
    overflowSearch (a ++ e :: b) k = a.length ∧
      IsGreatest {i | ∃ x, (a ++ e :: b)[i]? = some x ∧ x.1 ≤ k} a.length := by
  have ha : ∀ x ∈ a, x.1 ≤ k := fun x hx =>
    ((List.pairwise_append.mp hs).2.2 x hx e List.mem_cons_self).trans he
  have hmem : ∀ i x, (a ++ e :: b)[i]? = some x → (x.1 ≤ k ↔ i < a.length + 1) := by
    intro i x hx
    -- in front of the entry, at it, and behind it
    rcases lt_trichotomy i a.length with hlt | rfl | hgt
    · rw [List.getElem?_append_left hlt] at hx
      exact iff_of_true (ha x (List.mem_of_getElem? hx)) (by omega)
    · rw [List.getElem?_append_right le_rfl, Nat.sub_self, List.getElem?_cons_zero,
        Option.some.injEq] at hx
      exact iff_of_true (hx ▸ he) (by omega)
    · obtain ⟨j, hj⟩ : ∃ j, i - a.length = j + 1 := ⟨i - a.length - 1, by omega⟩
      rw [List.getElem?_append_right hgt.le, hj, List.getElem?_cons_succ] at hx
      exact iff_of_false (not_le.mpr (hb x (List.mem_of_getElem? hx))) (by omega)
  constructor
  · -- the entries at or below the key end with this one
    have hcut : IsCut (fun i => ((a ++ e :: b).map Prod.fst).getD i 0 ≤ k)
        (a ++ e :: b).length (a.length + 1) := by
      refine ⟨by simp, fun i hi => ?_⟩
      have hget := List.getElem?_eq_getElem hi
      rw [List.getD_eq_getElem?_getD, List.getElem?_map, hget]
      exact hmem i _ hget
    have hlen := hcut.le
    rw [overflowSearch, overflowSearchFuel_eq hcut le_rfl (by omega) (by omega) (by omega)
      (by omega), Int.natCast_add, Int.natCast_one]
    omega
  · refine ⟨⟨e, by simp, he⟩, ?_⟩
    rintro i ⟨x, hx, hle⟩
    exact Nat.lt_succ_iff.mp ((hmem i x hx).mp hle)

end Collected

section Insert

/-- The leaf at the path is full, and the key is the smallest separator of its parent. -/
structure FullFirst (t : OptNode) (k q : DTYPE) (path : Path) : Prop where
  separator : q = k
  first : path.getLast? = some 0
  full : ∃ es, t.nodeAt path = some (.leaf es) ∧ es.length = childNum

/-- Inserting a node's own first key changes the node only if it is a full leaf, and never
the keys it holds. -/
theorem insert_headKey (wf : t.Wf) (hhead : t.headKey = some k) :
    ∃ ret t', t.insert k v = .ok (ret, t') ∧ (∀ x, t'.HasKey x ↔ t.HasKey x) ∧
      (t' = t ↔ ¬ ∃ es, t = .leaf es ∧ es.length = childNum) := by
  have hcover : t.Covers k := covers_of_head hhead le_rfl
  obtain ⟨ret, t', hins, hspec⟩ := insert_spec wf k v
  refine ⟨ret, t', hins, fun x => ?_, ?_⟩
  · rw [hspec.hasKey_iff hcover.not_low x, or_iff_left_of_imp]
    rintro rfl
    exact wf.hasKey_head hhead
  · cases t with
    | leaf es =>
      by_cases hfull : es.length = childNum
      · refine iff_of_false ?_ (not_not.mpr ⟨es, rfl, hfull⟩)
        rintro rfl
        -- a full leaf splits, so what comes out is no leaf
        by_cases h0 : splitKeys es 0 < k
        · cases hleaf : insertLeaf (splitLeaf es (nextInsertChildId (splitKeys es) k)) k v with
          | error f => simp [insert, hfull, h0, hleaf, bind, Except.bind] at hins
          | ok r => simp [insert, hfull, h0, hleaf, bind, Except.bind] at hins
        · simp [insert, hfull, h0] at hins
      · -- a leaf with room has its first key already
        have hmem : k ∈ es.map Prod.fst := wf.hasKey_head hhead
        have hlen : es.length < childNum := lt_of_le_of_ne wf.2 hfull
        simp only [insert, if_neg hfull, insertLeaf_of_mem wf.1 hlen hmem, bind, Except.bind,
          Except.ok.injEq, Prod.mk.injEq] at hins
        refine iff_of_true hins.2.symm ?_
        rintro ⟨_, heq, hfull'⟩
        rw [leaf.injEq] at heq
        exact hfull (heq ▸ hfull')
    | inner keys pointers =>
      obtain rfl : keys 0 = k := Option.some.inj hhead
      simp only [insert, le_refl, if_true, Except.ok.injEq, Prod.mk.injEq] at hins
      exact iff_of_true hins.2.symm (by simp)

/-- Above its root an insertion at the end of a path is one in the child. -/
theorem insertFromNode_cons :
    (inner keys pointers).insertFromNode k v (i :: path) =
      ((pointers i).insertFromNode k v path).map fun r =>
        (r.1, inner keys (Function.update pointers i r.2)) := by
  rw [insertFromNode, insertFromNode, nodeAt]
  cases (pointers i).nodeAt path with
  | none => rfl
  | some node =>
    dsimp only
    cases node.insert k v <;> rfl

theorem insertFromNode_nil : t.insertFromNode k v [] = t.insert k v := by
  rw [insertFromNode, nodeAt]
  dsimp only
  cases t.insert k v <;> rfl

/-- A descent for the smallest separator keeps to the first children. -/
theorem Leads.first (h : Leads k t q path) (wf : t.Wf) (hhead : t.headKey = some k) :
    q = k ∧ path.getLast? = some 0 := by
  have hzero : ∀ {keys : Fin childNum → DTYPE} {pointers : Fin childNum → OptNode}
      {i : Fin childNum}, (inner keys pointers).Wf → keys 0 = k → childIndex keys k = some i →
      i = 0 := by
    intro keys pointers i wf h0 hpos
    have hfirst := childIndex_eq_some wf.1 h0.le fun j hj => h0 ▸ wf.1 hj
    exact Option.some.inj (hpos.symm.trans hfirst)
  induction h with
  | last hpos =>
    obtain rfl := hzero wf (Option.some.inj hhead) hpos
    exact ⟨Option.some.inj hhead, rfl⟩
  | step hpos hrest ih =>
    -- the first child starts with the separator, so the descent goes on in the same way
    obtain rfl := hzero wf (Option.some.inj hhead) hpos
    obtain ⟨hq, hlast⟩ := ih (wf.2.1 0).1 ((wf.2.1 0).2.trans hhead)
    exact ⟨hq, by rw [List.getLast?_cons, hlast]; rfl⟩

/-- A node changed to one with the same keys leaves the keys of the tree as they were. -/
theorem hasKey_setNode {node' : OptNode} (hnode : t.nodeAt path = some node)
    (hkeys : ∀ x, node'.HasKey x ↔ node.HasKey x) (x : DTYPE) :
    (t.setNode path node').HasKey x ↔ t.HasKey x := by
  induction path generalizing t with
  | nil =>
    obtain rfl := Option.some.inj hnode
    exact hkeys x
  | cons i path ih =>
    cases t with
    | leaf es => simp [nodeAt] at hnode
    | inner keys pointers =>
      rw [setNode, hasKey_inner, hasKey_inner]
      apply exists_congr
      intro j
      rcases eq_or_ne j i with rfl | hj
      · rw [Function.update_self]
        exact ih hnode
      · rw [Function.update_of_ne hj]

theorem setNode_eq_self_iff {node' : OptNode} (hnode : t.nodeAt path = some node) :
    t.setNode path node' = t ↔ node' = node := by
  induction path generalizing t with
  | nil =>
    obtain rfl := Option.some.inj hnode
    exact Iff.rfl
  | cons i path ih =>
    cases t with
    | leaf es => simp [nodeAt] at hnode
    | inner keys pointers =>
      rw [setNode, inner.injEq, Function.update_eq_self_iff, ih hnode]
      simp

/-- For the smallest separator the insertion from the root stops there, and the one at the node
finds its first key. -/
theorem Leads.insertFromNode_first (h : Leads k t q path) (wf : t.Wf)
    (hhead : t.headKey = some k) (v : StringPayload) :
    ∃ ret ret' a b, t.insertFromNode k v path = .ok (ret, a) ∧ t.insert k v = .ok (ret', b) ∧
      (∀ x, a.HasKey x ↔ b.HasKey x) ∧ (a = b ↔ ¬ t.FullFirst k q path) := by
  obtain ⟨rfl, hfirst⟩ := h.first wf hhead
  obtain ⟨node, hnode, hwf, hnodeHead⟩ := h.exists_node wf
  obtain ⟨ret, node', hins, hkeys, hsame⟩ := insert_headKey (v := v) hwf hnodeHead
  have hroot : t.insert q v = .ok (false, t) := by
    cases t with
    | leaf es => cases h
    | inner keys pointers => simp only [insert, if_pos (Option.some.inj hhead).ge]
  refine ⟨ret, false, t.setNode path node', t, ?_, hroot, hasKey_setNode hnode hkeys, ?_⟩
  · rw [OptNode.insertFromNode, hnode]
    simp only [hins, Except.map]
  · rw [setNode_eq_self_iff hnode, hsame, not_iff_not]
    constructor
    · rintro ⟨es, rfl, hfull⟩
      exact ⟨rfl, hfirst, es, hnode, hfull⟩
    · rintro ⟨-, -, es, hes, hfull⟩
      exact ⟨es, Option.some.inj (hnode.symm.trans hes), hfull⟩

/-- Above the smallest separator an insertion is one in the child on the way. -/
theorem insert_inner {pos : Fin childNum} (h0 : keys 0 < k) (hpos : childIndex keys k = some pos)
    {child : OptNode} (hins : (pointers pos).insert k v = .ok (ret, child)) :
    (inner keys pointers).insert k v =
      .ok (ret, inner keys (Function.update pointers pos child)) := by
  simp only [insert, if_neg (not_le.mpr h0), hpos, hins, bind, Except.bind]

theorem Leads.path_ne_nil (h : Leads k t q path) : path ≠ [] := by
  cases h <;> exact List.cons_ne_nil _ _

/-- Inserting at the end of the way leaves the keys that inserting from the root leaves, and
the same tree unless the insertion from the root stops above a full leaf. -/
theorem Leads.insertFromNode (h : Leads k t q path) (wf : t.Wf) (hk : t.Covers k)
    (v : StringPayload) :
    ∃ ret ret' a b, t.insertFromNode k v path = .ok (ret, a) ∧ t.insert k v = .ok (ret', b) ∧
      (∀ x, a.HasKey x ↔ b.HasKey x) ∧ (a = b ↔ ¬ t.FullFirst k q path) := by
  induction h with
  | @last keys pointers i hpos =>
    rcases (hk _ rfl).eq_or_lt with h0 | h0
    · exact (Leads.last hpos).insertFromNode_first wf (congrArg some h0) v
    · -- the only child passed is the node itself
      obtain ⟨ret, child, hins, -⟩ := insert_spec (wf.2.1 i).1 k v
      refine ⟨ret, ret, inner keys (Function.update pointers i child), _, ?_,
        insert_inner h0 hpos hins, fun _ => Iff.rfl, iff_of_true rfl ?_⟩
      · rw [insertFromNode_cons, insertFromNode_nil, hins]
        rfl
      · rintro ⟨hq, hfirst, -⟩
        obtain rfl := Option.some.inj hfirst
        exact h0.ne hq
  | @step keys pointers i q path hpos hrest ih =>
    -- at the smallest separator both insertions are known; above it both go to the same child
    rcases (hk _ rfl).eq_or_lt with h0 | h0
    · exact (Leads.step hpos hrest).insertFromNode_first wf (congrArg some h0) v
    · obtain ⟨pos, hpos', hle, -⟩ := exists_childIndex wf.1 h0.le
      obtain rfl := Option.some.inj (hpos'.symm.trans hpos)
      obtain ⟨ret, ret', a, b, hnode, hroot, hkeys, hsame⟩ :=
        ih (wf.2.1 pos).1 (covers_of_head (wf.2.1 pos).2 hle)
      refine ⟨ret, ret', inner keys (Function.update pointers pos a), _, ?_,
        insert_inner h0 hpos hroot, fun x => ?_, ?_⟩
      · rw [insertFromNode_cons, hnode]
        rfl
      · rw [hasKey_inner, hasKey_inner]
        apply exists_congr
        intro j
        rcases eq_or_ne j pos with rfl | hj
        · rw [Function.update_self, Function.update_self]
          exact hkeys x
        · rw [Function.update_of_ne hj, Function.update_of_ne hj]
      · -- the trees agree when the changed children do
        have hlast : (pos :: path).getLast? = path.getLast? :=
          List.getLast?_cons_of_ne_nil hrest.path_ne_nil
        have hfull : (inner keys pointers).FullFirst k q (pos :: path) ↔
            (pointers pos).FullFirst k q path :=
          ⟨fun h => ⟨h.separator, hlast ▸ h.first, h.full⟩,
            fun h => ⟨h.separator, hlast ▸ h.first, h.full⟩⟩
        rw [inner.injEq, hfull, ← hsame]
        refine ⟨fun h => ?_, fun h => ⟨rfl, h ▸ rfl⟩⟩
        exact Function.update_injective pointers pos h.2

end Insert

theorem Grows.headKey_eq (h : Grows t t') (hinner : t.isLeaf = false) :
    t'.headKey = t.headKey := by
  cases h with
  | leaf => simp [isLeaf] at hinner
  | inner _ => rfl

/-- The collected separators of a tree over a sentinel do not decrease. After any later
insertions, a key from the sentinel on is looked up under the separator that the kernel's
search returns as from the root, and inserted there with the same keys as a result. The nodes
are the same too unless the key is the smallest separator of a parent and its leaf is full. -/
theorem snapshot_routes (s : DTYPE) (p : StringPayload) (calls : List (DTYPE × StringPayload))
    (hcalls : ∀ c ∈ calls, s ≤ c.1) (ht : empty.insertAll ((s, p) :: calls) = .ok t)
    (hinner : t.isLeaf = false) :
    (t.getAllInner.map Prod.fst).Pairwise (· ≤ ·) ∧
      ∀ later, ∃ t', t.insertAll later = .ok t' ∧ ∀ k, s ≤ k →
        ∃ (r : ℕ) (q : DTYPE) (path : Path), overflowSearch t.getAllInner k = r ∧
          IsGreatest {i | ∃ e, t.getAllInner[i]? = some e ∧ e.1 ≤ k} r ∧
          t.getAllInner[r]? = some (q, path) ∧
          t'.lookupFromNode k path = t'.lookup k ∧ (∃ found, t'.lookup k = .ok found) ∧
          ∀ v, ∃ ret ret' a b, t'.insertFromNode k v path = .ok (ret, a) ∧
            t'.insert k v = .ok (ret', b) ∧ (∀ x, a.HasKey x ↔ b.HasKey x) ∧
            (a = b ↔ ¬ t'.FullFirst k q path) := by
  obtain ⟨_, hall, wf, hhead, -⟩ := insertAll_sentinel s p calls hcalls
  obtain rfl := Except.ok.inj (ht.symm.trans hall)
  have hlist : t.getAllInner = t.helpGetAllInner := by
    rw [getAllInner, if_neg (by simp [hinner])]
  rw [hlist]
  have hsorted := wf.pairwise_collected
  refine ⟨List.pairwise_map.mpr hsorted, fun later => ?_⟩
  obtain ⟨t', hlater, wf', -⟩ := insertAll_ok wf later
  refine ⟨t', hlater, fun k hk => ?_⟩
  have hgrows := grows_insertAll wf hlater
  have hcover : t'.Covers k :=
    covers_of_head ((hgrows.headKey_eq hinner).trans hhead) hk
  -- the way to the leaf in the old tree is a way in the new one
  obtain ⟨a, q, path, b, hsplit, hq, hb, hold⟩ :=
    wf.exists_collected hinner (covers_of_head hhead hk)
  have hleads := hold.grow hgrows
  rw [hsplit] at hsorted ⊢
  obtain ⟨hsearch, hgreatest⟩ := overflowSearch_eq hsorted hq hb
  obtain ⟨node, hnode, -⟩ := hleads.exists_node wf'
  refine ⟨a.length, q, path, hsearch, hgreatest, by simp, ?_, ⟨_, lookup_spec wf' hcover⟩,
    hleads.insertFromNode wf' hcover⟩
  rw [lookupFromNode, hnode]
  exact (hleads.lookup_eq wf' hcover hnode).symm

section Hundreds

/-- The keys 100 to 3200 in steps of 100. -/
def hundreds : List (DTYPE × StringPayload) :=
  (List.range' 1 32).map fun i => (100 * i, .ofByte 97)

/-- The keys 200 to 3300, inserted after the sentinel 100. -/
def hundredCalls : List (DTYPE × StringPayload) := hundreds.tail ++ [(3300, .ofByte 97)]

/-- The tree over the sentinel, whose last leaf has taken the key that split the root. -/
def hundredTree : OptNode :=
  .inner (splitKeys hundreds) (Function.update (fun i => leaf (splitLeaf hundreds i)) 31
    (leaf [(3200, .ofByte 97), (3300, .ofByte 97)]))

/-- The keys 101 to 131. -/
def fillers : List (DTYPE × StringPayload) := (List.range' 101 31).map fun k => (k, .ofByte 97)

/-- Insertions that a node passes to one child are insertions into that child. -/
theorem insertAll_child {pos : Fin childNum} {child : OptNode}
    (hcalls : ∀ c ∈ calls, keys 0 < c.1 ∧ childIndex keys c.1 = some pos)
    (h : (pointers pos).insertAll calls = .ok child) :
    (inner keys pointers).insertAll calls =
      .ok (inner keys (Function.update pointers pos child)) := by
  induction calls generalizing pointers with
  | nil =>
    obtain rfl : pointers pos = child := by simpa using h
    rw [Function.update_eq_self]
    rfl
  | cons call calls ih =>
    obtain ⟨h0, hpos⟩ := hcalls call List.mem_cons_self
    cases hins : (pointers pos).insert call.1 call.2 with
    | error f => simp [insertAll, hins, Except.map, bind, Except.bind] at h
    | ok r =>
      obtain ⟨ret, child₁⟩ := r
      rw [insertAll_cons hins] at h
      rw [insertAll_cons (insert_inner h0 hpos hins),
        ih (fun c hc => hcalls c (List.mem_cons_of_mem _ hc)) (by rwa [Function.update_self]),
        Function.update_idem]

theorem insertAll_hundreds :
    empty.insertAll ((100, .ofByte 97) :: hundredCalls) = .ok hundredTree := by
  have hs : Sorted hundreds := by
    apply List.pairwise_map.mpr
    exact List.Pairwise.imp (fun h => Nat.mul_lt_mul_of_pos_left h (by decide))
      List.pairwise_lt_range'
  have hfill : (leaf []).insertAll hundreds = .ok (leaf ([] ++ hundreds)) :=
    insertAll_ascending hs (by decide)
  have hlast : (leaf hundreds).insert 3300 (.ofByte 97) = .ok (true, hundredTree) := by
    have hnext : nextInsertChildId (splitKeys hundreds) 3300 = 31 := by decide
    have hleaf : insertLeaf (splitLeaf hundreds 31) 3300 (.ofByte 97) =
        .ok (true, [(3200, .ofByte 97), (3300, .ofByte 97)]) := by rfl
    have hfull : hundreds.length = childNum := by decide
    have hfirst : splitKeys hundreds 0 < 3300 := by decide
    simp only [insert, if_pos hfull, if_pos hfirst, hnext, hleaf, bind, Except.bind]
    rfl
  exact (insertAll_append hfill).trans (insertAll_cons hlast)

/-- The snapshot of the hundreds. -/
theorem snapshot_routes_hundreds :
    (hundredTree.getAllInner.map Prod.fst).Pairwise (· ≤ ·) ∧
      ∀ later, ∃ t', hundredTree.insertAll later = .ok t' ∧ ∀ k, 100 ≤ k →
        ∃ (r : ℕ) (q : DTYPE) (path : Path), overflowSearch hundredTree.getAllInner k = r ∧
          IsGreatest {i | ∃ e, hundredTree.getAllInner[i]? = some e ∧ e.1 ≤ k} r ∧
          hundredTree.getAllInner[r]? = some (q, path) ∧
          t'.lookupFromNode k path = t'.lookup k ∧ (∃ found, t'.lookup k = .ok found) ∧
          ∀ v, ∃ ret ret' a b, t'.insertFromNode k v path = .ok (ret, a) ∧
            t'.insert k v = .ok (ret', b) ∧ (∀ x, a.HasKey x ↔ b.HasKey x) ∧
            (a = b ↔ ¬ t'.FullFirst k q path) :=
  snapshot_routes 100 (.ofByte 97) hundredCalls (by decide) insertAll_hundreds rfl

/-- Inserting the sentinel again from its snapshot splits the leaf that the fillers filled;
inserting it from the root changes nothing. -/
theorem snapshot_splits_hundred :
    empty.insertAll ((100, .ofByte 97) :: hundredCalls) = .ok hundredTree ∧
      hundredTree.isLeaf = false ∧ overflowSearch hundredTree.getAllInner 100 = 0 ∧
      hundredTree.getAllInner[0]? = some (100, [0]) ∧
      ∃ t', hundredTree.insertAll fillers = .ok t' ∧
        ∃ a, t'.insertFromNode 100 (.ofByte 99) [0] = .ok (true, a) ∧
          t'.insert 100 (.ofByte 99) = .ok (false, t') ∧
          (∃ es, t'.nodeAt [0] = some (leaf es)) ∧ ∃ ks ps, a.nodeAt [0] = some (inner ks ps) := by
  refine ⟨insertAll_hundreds, rfl, by decide, by decide, ?_⟩
  have hs : Sorted ([(100, .ofByte 97)] ++ fillers) := by decide
  have hfill : (leaf [(100, .ofByte 97)]).insertAll fillers =
      .ok (leaf ([(100, .ofByte 97)] ++ fillers)) := insertAll_ascending hs (by decide)
  have hfirst : ∀ c ∈ fillers,
      splitKeys hundreds 0 < c.1 ∧ childIndex (splitKeys hundreds) c.1 = some 0 := by decide
  refine ⟨_, insertAll_child hfirst hfill, ?_⟩
  refine ⟨_, rfl, rfl, ⟨_, rfl⟩, _, _, rfl⟩

end Hundreds

end PimLex.OptNode
