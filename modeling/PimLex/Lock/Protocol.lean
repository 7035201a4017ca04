import PimLex.Common
import PimLex.Transition.Threads

/-!
# The insert loop of the threads

Each thread waits for an open version, fills its buffers, checks the version
again, looks its keys up on the DPUs and then either merges or inserts. A merge
takes the version lock and the shard mutex and waits until no thread is counted
in `thread_in_write`; an inserting thread counts itself only after its lookup.
-/

namespace PimLex

open Transition

/-- `lockSet`, the top bit of the 32-bit lock word. -/
def lockSet : ℕ := 2 ^ 31

/-- `value & lockSet` is not zero. -/
def IsSet (word : ℕ) : Prop := word / lockSet % 2 = 1

instance (word : ℕ) : Decidable (IsSet word) := inferInstanceAs (Decidable (_ = _))

/-- Where a thread is in the insert loop; each is one atomic step away from the next. -/
inductive InsertPc where
  /-- `IRETRY: merge_shard_lock.lock()`. -/
  | lockShard
  | unlockShard
  /-- `test_lock_set(version)`, repeated while the lock is set. -/
  | waitVersion
  | fill
  /-- `test_lock_version_change(version)`. -/
  | recheck
  /-- The lookup on the DPUs. -/
  | lookup
  /-- `current_write_num.fetch_add`. -/
  | fetchAdd
  /-- The comparison with `0.45 * total_size`. -/
  | compare (fetched : ℕ)
  /-- The load of `try_get_lock`. -/
  | tryLoad
  /-- The compare-and-swap of `try_get_lock`. -/
  | tryCas (loaded : ℕ)
  | wantShard
  /-- `while (thread_in_write.load() != 0)`. -/
  | waitWriters
  /-- `merge_and_retrain` before it publishes. -/
  | merging
  /-- `merge_and_retrain` after it published. -/
  | published
  | storeZero
  | releaseShard
  | releaseLock
  /-- `thread_in_write++`. -/
  | incWrite
  /-- Inside `insert_payload`. -/
  | inserting
  /-- `thread_in_write--`. -/
  | decWrite
  | done
  deriving DecidableEq, Repr

/-- A thread's own variables. `posGen` is the generation of the index that its DPU positions
were computed against. -/
structure InsertThread where
  pc : InsertPc
  version : ℕ
  posGen : ℕ
  round : ℕ
  deriving DecidableEq, Repr

/-- What the threads share; `gen` counts the indexes that merges have published. -/
structure InsertShared where
  mergeLock : ℕ
  mergeShardLock : Option (Fin threadNum)
  threadInWrite : ℕ
  currentWriteNum : ℕ
  totalSize : ℕ
  gen : ℕ
  deriving DecidableEq, Repr

/-- What the loop leaves open: the operations of a round, the floating-point comparison that
asks for a merge, and the size each merge publishes. -/
structure InsertParams where
  perRoundOps : ℕ
  wantsMerge : ℕ → ℕ → Bool
  newTotalSize : ℕ → ℕ

/-- The next step of thread `t`; a step that waits changes nothing. -/
def insertAct (par : InsertParams) (t : Fin threadNum) (sh : InsertShared) (th : InsertThread) :
    InsertShared × InsertThread :=
  match th.pc with
  | .lockShard =>
    if sh.mergeShardLock = none then
      ({ sh with mergeShardLock := some t }, { th with pc := .unlockShard })
    else (sh, th)
  | .unlockShard => ({ sh with mergeShardLock := none }, { th with pc := .waitVersion })
  | .waitVersion =>
    -- every test stores the version it read, also one that finds the lock set
    let th := { th with version := sh.mergeLock }
    if IsSet sh.mergeLock then (sh, th) else (sh, { th with pc := .fill })
  | .fill => (sh, { th with pc := .recheck })
  | .recheck =>
    if sh.mergeLock ≠ th.version then (sh, { th with pc := .lockShard })
    else (sh, { th with pc := .lookup })
  | .lookup => (sh, { th with posGen := sh.gen, pc := .fetchAdd })
  -- `fetch_add` returns the number before the addition
  | .fetchAdd =>
    ({ sh with currentWriteNum := sh.currentWriteNum + par.perRoundOps },
      { th with pc := .compare sh.currentWriteNum })
  | .compare fetched =>
    if par.wantsMerge fetched sh.totalSize then (sh, { th with pc := .tryLoad })
    else (sh, { th with pc := .incWrite })
  -- `try_get_lock` gives up at once: on a set lock, and on a swap that fails
  | .tryLoad =>
    if IsSet sh.mergeLock then (sh, { th with pc := .lockShard })
    else (sh, { th with pc := .tryCas sh.mergeLock })
  | .tryCas loaded =>
    if sh.mergeLock = loaded then
      ({ sh with mergeLock := loaded + lockSet }, { th with pc := .wantShard })
    else (sh, { th with pc := .lockShard })
  | .wantShard =>
    if sh.mergeShardLock = none then
      ({ sh with mergeShardLock := some t }, { th with pc := .waitWriters })
    else (sh, th)
  | .waitWriters =>
    if sh.threadInWrite ≠ 0 then (sh, th) else (sh, { th with pc := .merging })
  | .merging =>
    ({ sh with gen := sh.gen + 1, totalSize := par.newTotalSize sh.gen },
      { th with pc := .published })
  | .published => (sh, { th with pc := .storeZero })
  | .storeZero => ({ sh with currentWriteNum := 0 }, { th with pc := .releaseShard })
  | .releaseShard => ({ sh with mergeShardLock := none }, { th with pc := .releaseLock })
  | .releaseLock =>
    -- `v + 1 - lockSet` as a `uint32_t`: the bit goes and the version rises
    ({ sh with mergeLock := (sh.mergeLock + 1 + 2 ^ 32 - lockSet) % 2 ^ 32 },
      { th with pc := .lockShard })
  | .incWrite =>
    ({ sh with threadInWrite := sh.threadInWrite + 1 }, { th with pc := .inserting })
  | .inserting => (sh, { th with pc := .decWrite })
  | .decWrite =>
    -- a thread has two rounds; only an insertion ends one, a merge retries it
    ({ sh with threadInWrite := sh.threadInWrite - 1 },
      { th with round := th.round + 1, pc := if th.round + 1 < 2 then .lockShard else .done })
  | .done => (sh, th)

/-- The insert run. -/
abbrev InsertSystem := System (Fin threadNum) InsertShared InsertThread

/-- The threads at their start, over a bulk-loaded index of `n` keys. -/
def insertStart (n : ℕ) : InsertSystem where
  shared := ⟨0, none, 0, 0, n, 0⟩
  threads _ := ⟨.lockShard, 0, 0, 0⟩

/-- One step of the insert run, by the thread the scheduler picks. -/
def insertStep (par : InsertParams) (s : InsertSystem) (t : Fin threadNum) : InsertSystem :=
  s.step (insertAct par) t

end PimLex
