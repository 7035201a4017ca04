import PimLex.InsertedRead

/-!
# Mixed operations

`mix_payload` serves reads, updates and insertions of one batch. An update can land
in the answered block, in a page, in a tree, or in the block the host's search
finds; page and tree are given whatever earlier requests left in `pret` and `ret`,
and the last branch indexes the payloads by the raw answer. The state therefore
carries both leftovers, and the payload slots used beside the ones matched.
-/

namespace PimLex

open Search

/-- The values of `type_array`. -/
inductive MixOp where
  | get
  | update
  | insert
  deriving DecidableEq, Repr

/-- How `mix_payload` uses pages and trees. -/
structure MixOps (Page Tree : Type) extends ReadOps Page Tree, InsertOps Page Tree where
  updateKeyPage : Page → DTYPE → StringPayload → Bool × Page
  update : Tree → DTYPE → StringPayload → Bool × Tree

/-- `mix_payload` between two requests. Each access pairs the position that was matched with
the payload index that was used. -/
structure MixState (Page Tree : Type) where
  idx : DramIndex Page Tree
  ret : StringPayload
  pret : StringPayload
  accesses : List (ℕ × ℕ)

namespace MixState

variable {Page Tree : Type}

/-- `new_val`. -/
def newVal : StringPayload := .ofByte 117

/-- A read or update of `payloads[used]` after the key at `pos` matched. -/
def access (st : MixState Page Tree) (op : MixOp) (pos used : ℕ) : MixState Page Tree :=
  match op with
  | .get => { st with ret := st.idx.payloads used, accesses := (pos, used) :: st.accesses }
  | .update => { st with
      idx := { st.idx with payloads := Function.update st.idx.payloads used newVal }
      accesses := (pos, used) :: st.accesses }
  | .insert => st

/-- Page first, then tree; the flag is the new `dram_check`. -/
def buffered (st : MixState Page Tree) (ops : MixOps Page Tree) (op : MixOp)
    (ipos partitionId : ℕ) (key : DTYPE) : Bool × MixState Page Tree :=
  match op with
  | .get =>
    match ops.findKeyPage (st.idx.bufferPages ipos) key with
    | some v => (false, { st with ret := v, pret := v })
    | none =>
      let (found, v) := ops.lookup (st.idx.optOverflowTrees partitionId) key
      (found, { st with ret := v.getD st.ret })
  | .update =>
    -- page and tree get the leftovers `pret` and `ret`, not the new value
    let (hit, page) := ops.updateKeyPage (st.idx.bufferPages ipos) key st.pret
    let pages := Function.update st.idx.bufferPages ipos page
    if hit then (false, { st with idx := { st.idx with bufferPages := pages } })
    else
      let (found, tree) := ops.update (st.idx.optOverflowTrees partitionId) key st.ret
      let trees := Function.update st.idx.optOverflowTrees partitionId tree
      (found, { st with idx := { st.idx with bufferPages := pages, optOverflowTrees := trees } })
  | .insert => (true, st)

/-- The `dram_check` block of `mix_payload`; its page index is a `uint32_t`. -/
def dramCheck (st : MixState Page Tree) (ops : MixOps Page Tree) (lvl : DramLevel)
    (pgm : ℕ → DTYPE → ℕ × ℕ) (op : MixOp) (dpu : ℕ) (key : DTYPE) (answer : ℕ) :
    MixState Page Tree :=
  let cur := DramIndex.curKeyOff (st.idx.fallbackBound lvl pgm key)
  match st.idx.scanBlock cur key with
  -- the key matched at `cur_key_off + k`, the payload is that of `rbuffer + k`
  | some k => st.access op (cur + k) (answer + k)
  | none =>
    if answer < st.idx.totalSize then
      (st.buffered ops op (cur / pageRatio % 2 ^ 32) (lvl.dpuIdToPartition dpu) key).2
    else st

/-- One request of `mix_payload`. The version locks around a payload access do nothing in a
sequential run. -/
def mixPayload (st : MixState Page Tree) (ops : MixOps Page Tree) (lvl : DramLevel)
    (pgm : ℕ → DTYPE → ℕ × ℕ) (op : MixOp) (dpu : ℕ) (key : DTYPE) (answer : ℕ) :
    MixState Page Tree :=
  -- an insertion with an open answer falls through and does nothing
  if answer ≠ invaildPos ∧ op = .insert then
    { st with
      idx := st.idx.guardedInsert ops.toInsertOps (answer / pageRatio)
        (lvl.dpuIdToPartition dpu) key }
  else
    match st.idx.directScan key answer with
    | some k => st.access op (answer + k) (answer + k)
    | none =>
      let first :=
        if answer < st.idx.totalSize then
          st.buffered ops op (answer / pageRatio) (lvl.dpuIdToPartition dpu) key
        else (true, st)
      if first.1 then first.2.dramCheck ops lvl pgm op dpu key answer else first.2

end MixState

/-- A page or a tree as an exact map. -/
abbrev ExactMap := DTYPE → Option StringPayload

/-- An exact update: the key's payload if it is present, and nothing otherwise. -/
def ExactMap.update (m : ExactMap) (key : DTYPE) (v : StringPayload) : Bool × ExactMap :=
  if (m key).isSome then (true, Function.update m key (some v)) else (false, m)

/-- Exact maps for pages and trees, over any insertions. -/
def MixOps.exact (ins : InsertOps ExactMap ExactMap) : MixOps ExactMap ExactMap where
  toInsertOps := ins
  findKeyPage page key := page key
  lookup t key := ((t key).isSome, t key)
  updateKeyPage := ExactMap.update
  update := ExactMap.update

end PimLex
