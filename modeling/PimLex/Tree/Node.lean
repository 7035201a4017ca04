import PimLex.Common
import PimLex.Search.Bisect

/-!
# The overflow tree

`OptBTree` grows by turning a full leaf, in place, into an inner node over
`childNum` leaves of one key each. A node's type therefore says how many keys
it has: a leaf any number up to `childNum`, an inner node exactly `childNum`.

Payloads travel as pointers the tree never dereferences; the model keeps the
value such a pointer was made from. `smallnode` is never assigned, so a descent
that follows it is a fault, as are a pointer index below zero and the failing
of the assertion in `insertLeaf`.
-/

namespace PimLex

open Search

/-- A tree node; `leaf` lists its keys with their payloads in slot order. -/
inductive OptNode where
  | leaf (entries : List (DTYPE × StringPayload))
  | inner (keys : Fin childNum → DTYPE) (pointers : Fin childNum → OptNode)

namespace OptNode

/-- What a tree operation must never do. -/
inductive Fault where
  | smallnode
  | pointerIndex
  | countAssert
  deriving DecidableEq, Repr

/-- The root of a fresh tree, also what `clear` installs. -/
def empty : OptNode := .leaf []

/-- `OptBTree::clear`. -/
def clear (_ : OptNode) : OptNode := empty

/-- `type == BTreeLeaf`. -/
def isLeaf : OptNode → Bool
  | .leaf _ => true
  | .inner _ _ => false

section Leaf

/-- `keys[i]` of a leaf; slots past `count` are not read. -/
def keyAt (es : List (DTYPE × StringPayload)) (i : ℕ) : DTYPE := (es.map Prod.fst).getD i 0

/-- The loop of `lowerBound`, which returns early on an equal key. -/
def lowerBoundFuel (key : ℕ → DTYPE) (k : DTYPE) : ℕ → ℕ → ℕ → ℕ
  | 0, lower, _ => lower
  | fuel + 1, lower, upper =>
    if lower < upper then
      let mid := (upper - lower) / 2 + lower
      if k < key mid then lowerBoundFuel key k fuel lower mid
      else if key mid < k then lowerBoundFuel key k fuel (mid + 1) upper
      else mid
    else lower

/-- `OptNodeBase::lowerBound`, called on nodes with at least one key. -/
def lowerBound (es : List (DTYPE × StringPayload)) (k : DTYPE) : ℕ :=
  lowerBoundFuel (keyAt es) k es.length 0 es.length

/-- `OptNodeBase::insertLeaf`: whether it inserted, and the leaf afterwards. -/
def insertLeaf (es : List (DTYPE × StringPayload)) (k : DTYPE) (p : StringPayload) :
    Except Fault (Bool × List (DTYPE × StringPayload)) :=
  if es.length < childNum then
    if es.length ≠ 0 then
      let pos := lowerBound es k
      if pos < es.length ∧ keyAt es pos = k then .ok (false, es)
      else .ok (true, es.take pos ++ (k, p) :: es.drop pos)
    else .ok (true, [(k, p)])
  else .error .countAssert

/-- `OptNodeBase::searchLeaf`. -/
def searchLeaf (es : List (DTYPE × StringPayload)) (k : DTYPE) : Bool :=
  if es.length ≠ 0 then
    let pos := lowerBound es k
    decide (pos < es.length ∧ keyAt es pos = k)
  else false

/-- `OptNodeBase::updateLeaf`. -/
def updateLeaf (es : List (DTYPE × StringPayload)) (k : DTYPE) (p : StringPayload) :
    Bool × List (DTYPE × StringPayload) :=
  if es.length ≠ 0 then
    let pos := lowerBound es k
    if pos < es.length ∧ keyAt es pos = k then (true, es.set pos (k, p)) else (false, es)
  else (false, es)

end Leaf

section Inner

/-- `keys[i]` of an inner node. -/
def sepAt (keys : Fin childNum → DTYPE) (i : ℕ) : DTYPE :=
  if h : i < childNum then keys ⟨i, h⟩ else 0

/-- `OptNodeBase::lowerBoundInner`, on the `childNum` keys of an inner node. -/
def lowerBoundInner (keys : Fin childNum → DTYPE) (k : DTYPE) : ℕ :=
  upperBound (sepAt keys) k 0 childNum

/-- The child `pointers[lowerBoundInner(k) - 1]`, when the index names one. -/
def childIndex (keys : Fin childNum → DTYPE) (k : DTYPE) : Option (Fin childNum) :=
  match lowerBoundInner keys k with
  | 0 => none
  | i + 1 => if h : i < childNum then some ⟨i, h⟩ else none

/-- The node a full leaf becomes: one leaf per entry, under that entry's key. -/
def splitKeys (es : List (DTYPE × StringPayload)) (i : Fin childNum) : DTYPE := keyAt es i

/-- The one-entry leaves a split creates. -/
def splitLeaf (es : List (DTYPE × StringPayload)) (i : Fin childNum) :
    List (DTYPE × StringPayload) := (es[i.val]?).toList

/-- The last `i` with `k > keys[i]`, or zero, as the split's loop leaves it. -/
def nextInsertChildId (keys : Fin childNum → DTYPE) (k : DTYPE) : Fin childNum :=
  (List.finRange childNum).foldl (fun next i => if keys i < k then i else next) 0

end Inner

/-- `OptBTree::insert`: its return value and the tree afterwards. -/
def insert : OptNode → DTYPE → StringPayload → Except Fault (Bool × OptNode)
  | .inner keys pointers, k, p =>
    -- the code descends only under `if(k > node->keys[0])`
    if k ≤ keys 0 then .ok (false, .inner keys pointers)
    else
      match childIndex keys k with
      | none => .ok (false, .inner keys pointers)
      | some pos => do
        let (ret, child) ← insert (pointers pos) k p
        .ok (ret, .inner keys (Function.update pointers pos child))
  | .leaf es, k, p =>
    if es.length = childNum then
      let keys := splitKeys es
      let pointers := fun i => leaf (splitLeaf es i)
      if keys 0 < k then do
        let next := nextInsertChildId keys k
        let (_, child) ← insertLeaf (splitLeaf es next) k p
        .ok (true, .inner keys (Function.update pointers next (.leaf child)))
      -- without a child for `k` the call returns true all the same
      else .ok (true, .inner keys pointers)
    else do
      let (_, es) ← insertLeaf es k p
      .ok (true, .leaf es)

/-- The descent of `lookup` and `update`: the leaf reached for `k`. -/
def descend : OptNode → DTYPE → Except Fault (List (DTYPE × StringPayload))
  | .leaf es, _ => .ok es
  | .inner keys pointers, k =>
    if k < keys 0 then .error .smallnode
    else
      match childIndex keys k with
      | none => .error .pointerIndex
      | some pos => descend (pointers pos) k

/-- `OptBTree::lookup`; `searchLeaf` leaves its result argument as it was. -/
def lookup (t : OptNode) (k : DTYPE) : Except Fault Bool :=
  (t.descend k).map fun es => searchLeaf es k

/-- `OptBTree::update`: its return value and the tree afterwards. -/
def update : OptNode → DTYPE → StringPayload → Except Fault (Bool × OptNode)
  | .leaf es, k, p =>
    let (ret, es) := updateLeaf es k p
    .ok (ret, .leaf es)
  | .inner keys pointers, k, p =>
    if k < keys 0 then .error .smallnode
    else
      match childIndex keys k with
      | none => .error .pointerIndex
      | some pos => do
        let (ret, child) ← update (pointers pos) k p
        .ok (ret, .inner keys (Function.update pointers pos child))

/-- `helpGetAllData`: a leaf pushes its keys with a zero payload, an inner node
recurses into the children that are not leaves. -/
def helpGetAllData : OptNode → List (DTYPE × StringPayload)
  | .leaf es => es.map fun e => (e.1, .ofByte 0)
  | .inner _ pointers =>
    (List.finRange childNum).flatMap fun i =>
      if (pointers i).isLeaf then [] else helpGetAllData (pointers i)

/-- `OptBTree::getAllData`, which gives up on a root that is a leaf. -/
def getAllData (t : OptNode) : List (DTYPE × StringPayload) :=
  if t.isLeaf then [] else t.helpGetAllData

/-- Successive `insert` calls; the return values are not used. -/
def insertAll (t : OptNode) (calls : List (DTYPE × StringPayload)) : Except Fault OptNode :=
  calls.foldlM (fun t call => (t.insert call.1 call.2).map Prod.snd) t

end OptNode

end PimLex
