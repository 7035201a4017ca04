import PimLex.Lock.Protocol
import PimLex.Tree.Snapshot

/-!
# Inserting from several threads

A call descends without locks, locks the leaf it came to and looks again whether
it still is one. A full leaf gets its children while it is locked and is then
published as an inner node; only afterwards does the call insert its own key, into
one of the children, and of that child it does not hold the lock.

A node is created once, by the split of its parent, and its parent's pointer to it
never changes; so its place in the tree is its address.
-/

namespace PimLex

open Search Transition

/-- A node, as the child numbers from it up to the root. -/
abbrev NodeId := List (Fin childNum)

/-- `OptNodeBase`, without the payload pointers. -/
structure Cell where
  nodelock : ℕ
  inner : Bool
  count : ℕ
  keys : ℕ → DTYPE

/-- A child as a split makes it; slots past `count` are not read. -/
def Cell.fresh (key : DTYPE) : Cell := ⟨0, false, 1, fun _ => key⟩

/-- `lowerBound`. -/
def Cell.lowerBound (cell : Cell) (k : DTYPE) : ℕ :=
  OptNode.lowerBoundFuel cell.keys k cell.count 0 cell.count

/-- `memmove` by one slot from `pos`, then a store into the gap. -/
def Cell.shiftIn (cell : Cell) (pos : ℕ) (k : DTYPE) : Cell :=
  { cell with
    keys := fun i =>
      if i < pos then cell.keys i
      else if i = pos then k
      else if i ≤ cell.count then cell.keys (i - 1)
      else cell.keys i }

/-- The node itself, or one of its children. -/
def target (n : NodeId) : Option (Fin childNum) → NodeId
  | none => n
  | some i => i :: n

/-- Where a call is; each is one atomic step away from the next. The node named first is the
one it came to, and has locked from `recheck` on. -/
inductive CallPc where
  /-- `while (node->type == BTreeInner)`. -/
  | readType (n : NodeId)
  /-- The reads of `keys` and `pointers` on the way down. -/
  | route (n : NodeId)
  /-- The load of `get_lock`, repeated while the lock is set. -/
  | lockLoad (n : NodeId)
  /-- The compare-and-swap of `get_lock`. -/
  | lockCas (n : NodeId) (old : ℕ)
  | recheck (n : NodeId)
  /-- `node->count == ChildNum`. -/
  | readCount (n : NodeId)
  /-- The split's loop, before child `i`. -/
  | split (n : NodeId) (i : ℕ) (next : Fin childNum)
  /-- `node->type = BTreeInner`. -/
  | publish (n : NodeId) (next : Fin childNum)
  /-- `if(k > node->keys[0])` behind the split. -/
  | splitCompare (n : NodeId) (next : Fin childNum)
  /-- `insertLeaf` on the node itself or on a child: its checks and its search. -/
  | leafRead (n : NodeId) (child : Option (Fin childNum))
  /-- `insertLeaf`: the shift and the store. -/
  | leafWrite (n : NodeId) (child : Option (Fin childNum)) (pos : ℕ)
  /-- `insertLeaf`: `count++`. -/
  | leafCount (n : NodeId) (child : Option (Fin childNum))
  /-- The load of `release_lock`, and whether the descent goes on afterwards. -/
  | releaseLoad (n : NodeId) (retry : Bool)
  /-- The store of `release_lock`. -/
  | releaseStore (n : NodeId) (retry : Bool) (v : ℕ)
  | done (ret : Bool)
  /-- The assertion in `insertLeaf` has failed. -/
  | aborted
  deriving DecidableEq

/-- A call of `insert`. -/
structure InsertCall where
  key : DTYPE
  pc : CallPc

namespace CallPc

/-- The node whose lock is held here. -/
def holds : CallPc → Option NodeId
  | .recheck n | .readCount n | .split n _ _ | .publish n _ | .splitCompare n _ | .leafRead n _
  | .leafWrite n _ _ | .leafCount n _ | .releaseLoad n _ | .releaseStore n _ _ => some n
  | _ => none

/-- The node whose `insertLeaf` runs here. -/
def inLeaf : CallPc → Option NodeId
  | .leafRead n child | .leafWrite n child _ | .leafCount n child => some (target n child)
  | _ => none

/-- The child that a published split is still to insert into. -/
def aims : CallPc → Option NodeId
  | .splitCompare n next => some (next :: n)
  | .leafRead n child | .leafWrite n child _ | .leafCount n child => child.map (· :: n)
  | _ => none

end CallPc

section Act

variable {ι : Type*}

/-- The next step of a call; a step that waits changes nothing. -/
def callAct (_ : ι) (cells : NodeId → Cell) (th : InsertCall) : (NodeId → Cell) × InsertCall :=
  match th.pc with
  | .readType n =>
    if (cells n).inner then (cells, { th with pc := .route n })
    else (cells, { th with pc := .lockLoad n })
  | .route n =>
    if th.key ≤ (cells n).keys 0 then (cells, { th with pc := .done false })
    else
      match upperBound (cells n).keys th.key 0 (cells n).count with
      | 0 => (cells, { th with pc := .done false })
      | i + 1 =>
        if h : i < childNum then (cells, { th with pc := .readType (⟨i, h⟩ :: n) })
        else (cells, { th with pc := .done false })
  | .lockLoad n =>
    if IsSet (cells n).nodelock then (cells, th)
    else (cells, { th with pc := .lockCas n ((cells n).nodelock % lockSet) })
  | .lockCas n old =>
    if (cells n).nodelock = old then
      (Function.update cells n { cells n with nodelock := old + lockSet },
        { th with pc := .recheck n })
    else (cells, { th with pc := .lockLoad n })
  | .recheck n =>
    if (cells n).inner then (cells, { th with pc := .releaseLoad n true })
    else (cells, { th with pc := .readCount n })
  | .readCount n =>
    if (cells n).count = childNum then (cells, { th with pc := .split n 0 0 })
    else (cells, { th with pc := .leafRead n none })
  | .split n i next =>
    if h : i < childNum then
      (Function.update cells (⟨i, h⟩ :: n) (.fresh ((cells n).keys i)),
        { th with pc := .split n (i + 1) (if (cells n).keys i < th.key then ⟨i, h⟩ else next) })
    else (cells, { th with pc := .publish n next })
  | .publish n next =>
    (Function.update cells n { cells n with inner := true },
      { th with pc := .splitCompare n next })
  | .splitCompare n next =>
    if (cells n).keys 0 < th.key then (cells, { th with pc := .leafRead n (some next) })
    else (cells, { th with pc := .releaseLoad n false })
  | .leafRead n child =>
    let cell := cells (target n child)
    if cell.inner then (cells, { th with pc := .releaseLoad n false })
    else if cell.count ≥ childNum then (cells, { th with pc := .aborted })
    else if cell.count = 0 then (cells, { th with pc := .leafWrite n child 0 })
    else if cell.lowerBound th.key < cell.count ∧ cell.keys (cell.lowerBound th.key) = th.key then
      (cells, { th with pc := .releaseLoad n false })
    else (cells, { th with pc := .leafWrite n child (cell.lowerBound th.key) })
  | .leafWrite n child pos =>
    (Function.update cells (target n child) ((cells (target n child)).shiftIn pos th.key),
      { th with pc := .leafCount n child })
  | .leafCount n child =>
    (Function.update cells (target n child)
      { cells (target n child) with count := (cells (target n child)).count + 1 },
      { th with pc := .releaseLoad n false })
  | .releaseLoad n retry =>
    (cells, { th with pc := .releaseStore n retry (cells n).nodelock })
  | .releaseStore n retry v =>
    (Function.update cells n { cells n with nodelock := (v + 1 + 2 ^ 32 - lockSet) % 2 ^ 32 },
      { th with pc := if retry then .readType n else .done true })
  | .done _ | .aborted => (cells, th)

/-- Calls on one tree. -/
abbrev CallSystem (ι : Type*) : Type _ := System ι (NodeId → Cell) InsertCall

/-- The calls at their start, each with its key. -/
def callStart (cells : NodeId → Cell) (keys : ι → DTYPE) : CallSystem ι where
  shared := cells
  threads t := ⟨keys t, .readType []⟩

/-- One step, by the call the scheduler picks. -/
def callStep [DecidableEq ι] (s : CallSystem ι) (t : ι) : CallSystem ι := s.step callAct t

/-- No two calls are inside `insertLeaf` on the same node. -/
def Exclusive (s : CallSystem ι) : Prop :=
  ∀ t u n, (s.threads t).pc.inLeaf = some n → (s.threads u).pc.inLeaf = some n → t = u

/-- A call that takes the lock of a node finds no other call that made the node in a split it
has published, and has not finished `insertLeaf` on it. -/
def TakesUnaimed (s : CallSystem ι) (t : ι) : Prop :=
  match (s.threads t).pc with
  | .lockCas n old =>
    (s.shared n).nodelock = old → ∀ u, u ≠ t → (s.threads u).pc.aims ≠ some n
  | _ => True

instance [Fintype ι] [DecidableEq ι] (s : CallSystem ι) (t : ι) :
    Decidable (TakesUnaimed s t) := by
  unfold TakesUnaimed
  split
  · infer_instance
  · infer_instance

end Act

/-- The pointers lead from the root to the node. -/
def Reach (cells : NodeId → Cell) : NodeId → Prop
  | [] => True
  | _ :: n => (cells n).inner = true ∧ Reach cells n

/-- The key is in a leaf that the pointers lead to. -/
def InTree (cells : NodeId → Cell) (k : DTYPE) : Prop :=
  ∃ n i, Reach cells n ∧ (cells n).inner = false ∧ i < (cells n).count ∧ (cells n).keys i = k

end PimLex
