import PimLex.Buffered

/-!
# Skewed insertion

A thread of the skewed run sends its keys to the DPUs twice. After the first answer a key
goes to its page; a key whose page is full goes to the tree, unless the DPUs hold
a snapshot of that tree. Such a key is moved to the front of its own send buffer,
for a second round trip that returns where to go on in the tree.

Three things end a key's way on this path: the last slot of every buffer is
passed over, the guard of the insertion has no alternative, and the function after
the second trip inserts only when its count, read from the answer, is one; for
longer answers it looks keys up.
-/

namespace PimLex

open Search

/-- `send_buffer_t`, without `op_type`. -/
structure SendBuffer where
  nTasks : ℕ
  sbuffer : ℕ → DTYPE

namespace SendBuffer

/-- A store at the slot `n_tasks`, which moves on. -/
def push (send : SendBuffer) (key : DTYPE) : SendBuffer :=
  ⟨send.nTasks + 1, Function.update send.sbuffer send.nTasks key⟩

/-- The keys of the first `n` slots. -/
def slots (send : SendBuffer) (n : ℕ) : List DTYPE := (List.range n).map send.sbuffer

end SendBuffer

/-- `recv_buffer_t`. -/
structure RecvBuffer where
  nTasks : ℕ
  rbuffer : ℕ → ℕ

/-- The index and the send buffers of one thread. -/
structure SkewState where
  idx : DramIndex BufPage OptNode
  send : ℕ → SendBuffer

namespace SkewState

/-- An insertion of a key into the overflow tree of a partition. -/
def treeInsert (st : SkewState) (partitionId : ℕ) (key : DTYPE) : SkewState :=
  { st with idx := { st.idx with
      optOverflowTrees := Function.update st.idx.optOverflowTrees partitionId
        (InsertOps.standing.insert (st.idx.optOverflowTrees partitionId) key (.ofByte 99)) } }

def pushSend (st : SkewState) (dpu : ℕ) (key : DTYPE) : SkewState :=
  { st with send := Function.update st.send dpu ((st.send dpu).push key) }

/-- The branches of `insert_payload_skew` for one key and its answer. -/
def placeSkew (lvl : DramLevel) (pgm : ℕ → DTYPE → ℕ × ℕ) (enablePimOverflow : ℕ → Bool)
    (dpu : ℕ) (st : SkewState) (key : DTYPE) (answer : ℕ) : SkewState :=
  let ipos := st.idx.insertPos lvl pgm key answer
  if ipos < st.idx.partialTotalSize - 1 ∧ st.idx.partialKeys ipos ≤ key ∧
      st.idx.partialKeys (ipos + 1) > key then
    let (ret, page) := (st.idx.bufferPages ipos).insertPage key (.ofByte 99)
    let st := { st with idx := { st.idx with
      bufferPages := Function.update st.idx.bufferPages ipos page } }
    if ret then st
    else
      let partitionId := lvl.dpuIdToPartition dpu
      if !enablePimOverflow partitionId then st.treeInsert partitionId key
      else st.pushSend dpu key
  else st

/-- `insert_payload_skew` for one DPU. Its loop ends before the last task, and its rejected
keys overwrite slots that it has read. -/
def insertPayloadSkewDpu (lvl : DramLevel) (pgm : ℕ → DTYPE → ℕ × ℕ)
    (enablePimOverflow : ℕ → Bool) (recv : ℕ → RecvBuffer) (st : SkewState) (dpu : ℕ) :
    SkewState :=
  (List.range ((recv dpu).nTasks - 1)).foldl
    (fun st j => st.placeSkew lvl pgm enablePimOverflow dpu ((st.send dpu).sbuffer j)
      ((recv dpu).rbuffer j))
    { st with send := Function.update st.send dpu { st.send dpu with nTasks := 0 } }

/-- `insert_payload_skew`, over the DPUs in a shuffled order. -/
def insertPayloadSkew (lvl : DramLevel) (pgm : ℕ → DTYPE → ℕ × ℕ) (enablePimOverflow : ℕ → Bool)
    (recv : ℕ → RecvBuffer) (order : List ℕ) (st : SkewState) : SkewState :=
  order.foldl (insertPayloadSkewDpu lvl pgm enablePimOverflow recv) st

/-- The count `main_kernel1` answers with for `op_type == 2`. -/
def overflowTasks (overflowLen : ℕ) (send : SendBuffer) : ℕ :=
  if overflowLen ≠ 0 then send.nTasks else 0

/-- `insert_payload_skew_past`. Where its `task_num` is not zero it only looks keys up. -/
def insertPayloadSkewPast (lvl : DramLevel) (nrDpus : ℕ) (overflow : ℕ → ℕ) (st : SkewState) :
    SkewState :=
  (List.range nrDpus).foldl
    (fun st dpu =>
      if overflow dpu ≠ 1 then st
      else ((st.send dpu).slots (st.send dpu).nTasks).foldl
        (fun st key => st.treeInsert (lvl.dpuIdToPartition dpu) key) st)
    st

/-- A request of the thread, numbered `req`: keys up to the smallest one are not sent. -/
def dispatch (lvl : DramLevel) (st : SkewState) (query : ℕ × DTYPE) : SkewState :=
  if query.2 > st.idx.minKey then st.pushSend (lvl.searchUpperLevel query.2 query.1) query.2
  else st

end SkewState

/-- What one round of a thread depends on beside its state. -/
structure SkewRound where
  /-- The requests with their numbers. -/
  querys : List (ℕ × DTYPE)
  /-- `cur_mix_order`. -/
  order : List ℕ
  enablePimOverflow : ℕ → Bool
  overflowLen : ℕ → ℕ

namespace BulkInput

/-- One round: dispatch, the DPUs' search, `insert_payload_skew`, and the second trip unless
every buffer has become empty. -/
def skewRound (b : BulkInput) (nr : ℕ → ℕ) (prev : DramLevel) (mram : ℕ → ℤ → DTYPE)
    (window pgm : ℕ → DTYPE → ℕ × ℕ) (st : SkewState) (round : SkewRound) : SkewState :=
  let lvl := b.level nr prev
  let nrDpus := firstDpu nr nrPartition
  let st := round.querys.foldl (SkewState.dispatch lvl) st
  let recv dpu : RecvBuffer := ⟨(st.send dpu).nTasks, fun j =>
    b.kernelAnswer mram window (ReplicaCursor.loadedPartition nr dpu) ((st.send dpu).sbuffer j)⟩
  let st := st.insertPayloadSkew lvl pgm round.enablePimOverflow recv round.order
  if ∀ dpu < nrDpus, (st.send dpu).nTasks = 0 then st
  else st.insertPayloadSkewPast lvl nrDpus fun dpu =>
    SkewState.overflowTasks (round.overflowLen dpu) (st.send dpu)

end BulkInput

end PimLex
