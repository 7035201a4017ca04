import PimLex.Buffered
import PimLex.Search.Sorting

/-!
# Range scans

A scan starts at the block the DPU answered with. It takes the block's page, walks the
base keys as long as they lie in the range, takes the page of every block whose first
key it passes, asks the overflow tree, and sorts what it has. Its end key comes from
a buffer of 32-bit words, its results go to an array of 100 slots, and the last task
of every DPU is passed over.
-/

namespace PimLex

open Search

namespace OptNode

/-- `helpGetDataWithinRange`, by how much it moves `offset`; its vector is a copy. -/
def helpGetDataWithinRange : OptNode → DTYPE → DTYPE → ℕ
  | .leaf es, beginKey, endKey => es.countP fun e => beginKey ≤ e.1 ∧ e.1 ≤ endKey
  | .inner _ pointers, beginKey, endKey =>
    ((List.finRange childNum).map fun i =>
      if (pointers i).isLeaf then 0
      else helpGetDataWithinRange (pointers i) beginKey endKey).sum

/-- `OptBTree::getAllDataWithinRange`, by how much it moves `offset`. -/
def getAllDataWithinRange (t : OptNode) (beginKey endKey : DTYPE) : ℕ :=
  if t.isLeaf then 0 else t.helpGetDataWithinRange beginKey endKey

end OptNode

/-- `max_scan_length`. -/
abbrev maxScanLength : ℕ := 100

/-- A scan of `[min_key, max_key)` as a thread requests it, with the answer for its block. -/
structure ScanRequest where
  minKey : DTYPE
  maxKey : DTYPE
  answer : ℕ

/-- The value `scan_endkeys_buffer` keeps of the end key. -/
def ScanRequest.endKey (r : ScanRequest) : DTYPE := r.maxKey % 2 ^ 32

/-- The buffers of a thread: for every DPU its tasks, one in each slot. -/
structure ScanBatch where
  nTasks : ℕ → ℕ
  request : ℕ → ℕ → ScanRequest

/-- The locals of `scan_payload` that outlive a task. -/
structure ScanLocals where
  results : ℕ → DTYPE × StringPayload
  curResultOff : ℕ
  maxKey : DTYPE

namespace ScanLocals

/-- `results[0 .. cur_result_off)`. -/
def found (st : ScanLocals) : List (DTYPE × StringPayload) :=
  (List.range st.curResultOff).map st.results

/-- A store at `cur_result_off`, which moves on; past the array there is no telling. -/
def store (st : ScanLocals) (e : DTYPE × StringPayload) : Option ScanLocals :=
  if st.curResultOff < maxScanLength then
    some { st with
      results := Function.update st.results st.curResultOff e
      curResultOff := st.curResultOff + 1 }
  else none

/-- The scan of a page with a test on its keys. -/
def storePage (st : ScanLocals) (page : BufPage) (test : DTYPE → Bool) : Option ScanLocals :=
  (page.entries.filter fun e => test e.1).foldlM store st

/-- The walk over the base keys, for at most `fuel` of them. -/
def scanBase (idx : DramIndex BufPage OptNode) (minKey : DTYPE) :
    ℕ → ℕ → ScanLocals → Option ScanLocals
  | 0, _, st => some st
  | fuel + 1, curPos, st =>
    if curPos < idx.totalSize then
      if idx.keys curPos ≥ minKey ∧ idx.keys curPos < st.maxKey then do
        let st ← st.store (idx.keys curPos, idx.payloads curPos)
        let st ← if curPos % interleave = 0 then
            st.storePage (idx.bufferPages (curPos / pageRatio)) fun k => k > minKey
          else some st
        scanBase idx minKey fuel (curPos + 1) st
      else some st
    else some st

/-- One answered task. The sort is of the stored part only. -/
def scanAnswered (byKey : StdSort fun a b : DTYPE × StringPayload => decide (a.1 < b.1))
    (idx : DramIndex BufPage OptNode) (partitionId : ℕ) (st : ScanLocals) (r : ScanRequest) :
    Option ScanLocals := do
  let st := { st with curResultOff := 0, maxKey := r.endKey }
  let st ← st.storePage (idx.bufferPages (r.answer / pageRatio)) fun k =>
    k ≥ r.minKey ∧ k < r.endKey
  let st ← st.scanBase idx r.minKey (idx.totalSize - r.answer) r.answer
  let st := { st with
    curResultOff := st.curResultOff +
      (idx.optOverflowTrees partitionId).getAllDataWithinRange r.minKey r.endKey }
  let sorted := byKey.sort st.found
  some { st with results := fun i => sorted.getD i (st.results i) }

/-- One task; an open answer leaves everything as it is. -/
def scanTask (byKey : StdSort fun a b : DTYPE × StringPayload => decide (a.1 < b.1))
    (idx : DramIndex BufPage OptNode) (lvl : DramLevel) (batch : ScanBatch) (st : ScanLocals)
    (task : ℕ × ℕ) : Option ScanLocals :=
  let r := batch.request task.1 task.2
  if r.answer ≠ invaildPos then
    st.scanAnswered byKey idx (lvl.dpuIdToPartition task.1) r
  else some st

end ScanLocals

/-- The tasks that `scan_payload` comes to, in the order of its two loops. -/
def ScanBatch.tasks (batch : ScanBatch) (nrDpus : ℕ) : List (ℕ × ℕ) :=
  (List.range nrDpus).flatMap fun dpu =>
    (List.range (batch.nTasks dpu - 1)).map fun j => (dpu, j)

/-- `scan_payload` on some of its tasks. -/
def scanPayload (byKey : StdSort fun a b : DTYPE × StringPayload => decide (a.1 < b.1))
    (idx : DramIndex BufPage OptNode) (lvl : DramLevel) (batch : ScanBatch) (st : ScanLocals)
    (tasks : List (ℕ × ℕ)) : Option ScanLocals :=
  tasks.foldlM (ScanLocals.scanTask byKey idx lvl batch) st

end PimLex
