import PimLex.Tree.Owners

/-!
# The heap of a tree

The nodes of a tree lie at the addresses that spell the way to them. A well-formed
tree over a sentinel lies in a heap that satisfies what the concurrent calls start
from, and the keys in that heap are the keys of the tree.
-/

namespace PimLex

namespace OptNode

variable {t node : OptNode} {lo k : DTYPE} {n : NodeId} {path : Path} {i : Fin childNum}

/-- The fields of a node. -/
def cell : OptNode → Cell
  | .leaf es => ⟨0, false, es.length, keyAt es⟩
  | .inner keys _ => ⟨0, true, childNum, sepAt keys⟩

/-- The nodes of a tree in memory; elsewhere there is nothing yet. -/
def heap (t : OptNode) (n : NodeId) : Cell :=
  match t.nodeAt n.reverse with
  | some node => node.cell
  | none => .fresh 0

theorem heap_of_nodeAt (h : t.nodeAt n.reverse = some node) : t.heap n = node.cell := by
  rw [heap, h]

/-- One pointer further. -/
theorem nodeAt_concat : t.nodeAt (path ++ [i]) = some node ↔
    ∃ keys pointers, t.nodeAt path = some (.inner keys pointers) ∧ pointers i = node := by
  induction path generalizing t with
  | nil =>
    cases t with
    | leaf es => simp [nodeAt]
    | inner keys pointers => simp [nodeAt]
  | cons j path ih =>
    cases t with
    | leaf es => simp [nodeAt]
    | inner keys pointers => exact ih

/-- The pointers in memory lead where the pointers of the tree do. -/
theorem reach_heap : Reach t.heap n ↔ ∃ node, t.nodeAt n.reverse = some node := by
  induction n with
  | nil => exact ⟨fun _ => ⟨t, rfl⟩, fun _ => trivial⟩
  | cons i n ih =>
    rw [Reach, ih, List.reverse_cons]
    constructor
    · rintro ⟨hinner, node, hnode⟩
      rw [heap_of_nodeAt hnode] at hinner
      cases node with
      | leaf es => exact absurd hinner Bool.false_ne_true
      | inner keys pointers => exact ⟨_, nodeAt_concat.mpr ⟨keys, pointers, hnode, rfl⟩⟩
    · rintro ⟨node, hnode⟩
      obtain ⟨keys, pointers, hparent, -⟩ := nodeAt_concat.mp hnode
      rw [heap_of_nodeAt hparent]
      exact ⟨rfl, _, hparent⟩

/-- A key of the tree is in a leaf below the root, and only keys of the tree are. -/
theorem hasKey_iff_nodeAt : t.HasKey k ↔
    ∃ path es, t.nodeAt path = some (.leaf es) ∧ k ∈ es.map Prod.fst := by
  induction t with
  | leaf es =>
    constructor
    · exact fun hk => ⟨[], es, rfl, hk⟩
    · rintro ⟨path, es', hes, hk⟩
      cases path with
      | nil =>
        obtain rfl := OptNode.leaf.inj (Option.some.inj hes)
        exact hk
      | cons j path => exact absurd hes.symm (Option.some_ne_none _)
  | inner keys pointers ih =>
    rw [hasKey_inner]
    constructor
    · rintro ⟨j, hj⟩
      obtain ⟨path, es, hes, hk⟩ := (ih j).mp hj
      exact ⟨j :: path, es, hes, hk⟩
    · rintro ⟨path, es, hes, hk⟩
      cases path with
      | nil => exact absurd (Option.some.inj hes) nofun
      | cons j path => exact ⟨j, (ih j).mpr ⟨path, es, hes, hk⟩⟩

/-- The keys in memory are the keys of the tree. -/
theorem inTree_heap : InTree t.heap k ↔ t.HasKey k := by
  rw [hasKey_iff_nodeAt]
  constructor
  · rintro ⟨n, i, hreach, hleaf, hi, rfl⟩
    obtain ⟨node, hnode⟩ := reach_heap.mp hreach
    rw [heap_of_nodeAt hnode] at hleaf hi ⊢
    cases node with
    | leaf es =>
      refine ⟨_, es, hnode, ?_⟩
      have hkey : (cell (.leaf es)).keys i = es[i].1 := keyAt_eq_getElem hi
      rw [hkey]
      exact List.mem_map_of_mem (List.getElem_mem hi)
    | inner keys pointers => exact absurd hleaf.symm Bool.false_ne_true
  · rintro ⟨path, es, hes, hk⟩
    obtain ⟨e, he, rfl⟩ := List.mem_map.mp hk
    obtain ⟨i, hi, rfl⟩ := List.getElem_of_mem he
    have hnode : t.nodeAt path.reverse.reverse = some (.leaf es) := by
      rwa [List.reverse_reverse]
    refine ⟨path.reverse, i, reach_heap.mpr ⟨_, hnode⟩, ?_, ?_, ?_⟩
    all_goals rw [heap_of_nodeAt hnode]
    · rfl
    · exact hi
    · exact keyAt_eq_getElem hi

/-- Every node below the root starts with a key. -/
theorem Wf.headKey_nodeAt (wf : t.Wf) (hlo : t.headKey = some lo) (h : t.nodeAt path = some node) :
    node.Wf ∧ ∃ q, node.headKey = some q := by
  induction path generalizing t lo with
  | nil =>
    obtain rfl := Option.some.inj h
    exact ⟨wf, lo, hlo⟩
  | cons j path ih =>
    cases t with
    | leaf es => exact absurd h.symm (Option.some_ne_none node)
    | inner keys pointers => exact ih (wf.2.1 j).1 (wf.2.1 j).2 h

theorem cell_count_pos {q : DTYPE} (h : node.headKey = some q) : 1 ≤ node.cell.count := by
  cases node with
  | leaf es =>
    cases es with
    | nil => exact absurd h.symm (Option.some_ne_none q)
    | cons e es => exact Nat.succ_pos _
  | inner keys pointers => exact (by decide : 1 ≤ childNum)

theorem cell_keys_zero {q : DTYPE} (h : node.headKey = some q) : node.cell.keys 0 = q := by
  cases node with
  | leaf es =>
    cases es with
    | nil => exact absurd h.symm (Option.some_ne_none q)
    | cons e es => exact Option.some.inj h
  | inner keys pointers => exact Option.some.inj h

/-- The calls may start on every well-formed tree that starts with the sentinel. -/
theorem Wf.cellsOk (wf : t.Wf) (hlo : t.headKey = some lo) : CellsOk lo t.heap where
  root := (cell_keys_zero hlo).le
  count n hn := by
    obtain ⟨node, hnode⟩ := reach_heap.mp hn
    obtain ⟨-, q, hq⟩ := wf.headKey_nodeAt hlo hnode
    rw [heap_of_nodeAt hnode]
    exact cell_count_pos hq
  child n i hn hinner := by
    obtain ⟨node, hnode⟩ := reach_heap.mp hn
    obtain ⟨hwf, -⟩ := wf.headKey_nodeAt hlo hnode
    rw [heap_of_nodeAt hnode] at hinner ⊢
    cases node with
    | leaf es => exact absurd hinner Bool.false_ne_true
    | inner keys pointers =>
      have hchild : t.nodeAt (i :: n).reverse = some (pointers i) := by
        rw [List.reverse_cons]
        exact nodeAt_concat.mpr ⟨keys, pointers, hnode, rfl⟩
      have hsep : (cell (.inner keys pointers)).keys i = keys i := dif_pos i.isLt
      rw [heap_of_nodeAt hchild, cell_keys_zero (hwf.2.1 i).2, hsep]

end OptNode

end PimLex
