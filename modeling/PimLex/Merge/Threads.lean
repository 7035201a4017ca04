import PimLex.Merge.Loop
import PimLex.Transition.Fair
import PimLex.Transition.Threads
import PimLex.Transition.Trace

/-!
# The merge threads and their barriers

Each merge thread counts its pages, waits, and merges its slice at the offset
that thread 0 computed from all counts between two barriers. The threads are
named by the number they draw from `inc_id`. The new arrays hold what the
threads' events stored in them.
-/

namespace PimLex

open Transition

/-- Where a merge thread is; each is one step away from the next. -/
inductive MergePc where
  /-- The loop over the page counts. -/
  | count
  | arrive1
  | wait1
  /-- The prefix sums, by thread 0. -/
  | offsets
  | arrive2
  | wait2
  /-- The variables of the merge. -/
  | first
  /-- A pass of the merge loop. -/
  | merge
  | arrive3
  | wait3
  | done
  deriving DecidableEq

/-- A merge thread's own variables. -/
structure MergeThread where
  pc : MergePc
  bounds : MergeBounds
  vars : MergeLocals
  targets : ℕ

/-- What the merge threads share, with the arrivals at the three barriers. -/
structure MergeShared where
  keyCount : ℕ → ℕ
  mergeOffsetArray : ℕ → ℕ
  newTotalSize : ℕ
  bar1 : ℕ
  bar2 : ℕ
  bar3 : ℕ
  trace : List (Fin mergeThreadNum × MergeEvent)

/-- The merge. -/
abbrev MergeSystem := System (Fin mergeThreadNum) MergeShared MergeThread

namespace MergeShared

/-- The stores into the new arrays, in order. -/
def writes (sh : MergeShared) : List (ℕ × Entry) :=
  (sh.trace.map Prod.snd).filterMap MergeEvent.store

/-- `new_keys[slot]` and `new_payloads[slot]`, if they were written. -/
def newEntry (sh : MergeShared) (slot : ℕ) : Option Entry := contents sh.writes slot

/-- The written entries below `new_total_size`, in slot order. -/
def newEntries (sh : MergeShared) : List Entry :=
  (List.range sh.newTotalSize).filterMap sh.newEntry

/-- Thread 0's loop over `key_count`. -/
def sumCounts (sh : MergeShared) : MergeShared :=
  let (newTotalSize, _, mergeOffsetArray) :=
    (List.range mergeThreadNum).foldl
      (fun (newTotalSize, tempTotalSize, offsets) jj =>
        (newTotalSize + sh.keyCount jj, tempTotalSize + sh.keyCount jj,
          Function.update offsets jj tempTotalSize))
      (sh.newTotalSize, 0, sh.mergeOffsetArray)
  { sh with newTotalSize := newTotalSize, mergeOffsetArray := mergeOffsetArray }

end MergeShared

variable (idx : DramIndex BufPage OptNode)

/-- The next step of thread `t`; a step that waits changes nothing. -/
def mergeAct (t : Fin mergeThreadNum) (sh : MergeShared) (th : MergeThread) :
    MergeShared × MergeThread :=
  match th.pc with
  | .count =>
    ({ sh with keyCount := Function.update sh.keyCount t (idx.keyCount t) },
      { th with pc := .arrive1 })
  | .arrive1 => ({ sh with bar1 := sh.bar1 + 1 }, { th with pc := .wait1 })
  -- `pthread_barrier_wait` as an arrival and a wait for all to have arrived
  | .wait1 =>
    if sh.bar1 < mergeThreadNum then (sh, th)
    else (sh, { th with pc := if t = 0 then .offsets else .arrive2 })
  | .offsets =>
    let sh := sh.sumCounts
    ({ sh with newTotalSize := sh.newTotalSize + idx.totalSize }, { th with pc := .arrive2 })
  | .arrive2 => ({ sh with bar2 := sh.bar2 + 1 }, { th with pc := .wait2 })
  | .wait2 => if sh.bar2 < mergeThreadNum then (sh, th) else (sh, { th with pc := .first })
  | .first =>
    -- from here on the thread reads nothing that others write
    let bounds := idx.mergeBounds t (sh.keyCount t)
    (sh, { pc := .merge, bounds := bounds, targets := 0,
           vars := idx.firstLocals t (sh.mergeOffsetArray t) })
  | .merge =>
    if th.targets < th.bounds.totalOps then
      let (event, vars) := idx.mergePass th.bounds th.vars
      ({ sh with trace := sh.trace ++ [(t, event)] },
        { th with vars := vars, targets := th.targets + 1 })
    else (sh, { th with pc := .arrive3 })
  | .arrive3 => ({ sh with bar3 := sh.bar3 + 1 }, { th with pc := .wait3 })
  | .wait3 => if sh.bar3 < mergeThreadNum then (sh, th) else (sh, { th with pc := .done })
  | .done => (sh, th)

/-- The merge before its first step. -/
def mergeStart : MergeSystem where
  shared := ⟨fun _ => 0, fun _ => 0, 0, 0, 0, 0, []⟩
  threads _ := ⟨.count, ⟨0, 0, 0⟩, ⟨⟨0, .ofByte 0, 0, false⟩, ⟨0, .ofByte 0, 0, 0, false⟩, 0⟩, 0⟩

/-- One step of the merge, by the thread the scheduler picks. -/
def mergeStep (s : MergeSystem) (t : Fin mergeThreadNum) : MergeSystem := s.step (mergeAct idx) t

/-- The merge after a schedule. -/
def mergeRun (schedule : List (Fin mergeThreadNum)) : MergeSystem :=
  run (mergeStep idx) mergeStart schedule

/-- Every thread has passed the third barrier. -/
def MergeSystem.Finished (s : MergeSystem) : Prop := ∀ t, (s.threads t).pc = .done

end PimLex
