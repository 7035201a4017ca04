import PimLex.Lock.Protocol

/-!
# Reads and updates of payloads in place

A GET of a mixed batch takes no lock. It waits until the lock of its stripe is
open, keeps the word it read as a version, copies the payload and takes the copy
if the word has not changed since. An UPDATE takes the lock, overwrites the
payload and releases. A payload is copied word by word, so another thread may
come in between.
-/

namespace PimLex

open Transition

/-- A payload as the words that are copied one at a time. -/
abbrev Words (w : ℕ) (W : Type) : Type := Fin w → W

/-- The index of a position's lock in `lock_arr`. -/
def stripe (pos : ℕ) : ℕ := pos / 2 ^ 16

/-- A task that found its key among the base keys. -/
inductive PayloadOp (w : ℕ) (W : Type) where
  | get (pos : ℕ)
  | update (pos : ℕ) (val : Words w W)

/-- Where a thread is; each is one atomic step away from the next. -/
inductive PayloadPc (w : ℕ) (W : Type) where
  | next
  /-- `REGET: test_lock_set(version)`, repeated while the lock is set. -/
  | testSet (pos : ℕ)
  /-- `ret = payloads[pos]`, from word `n` on. -/
  | copy (pos n : ℕ)
  /-- `test_lock_version_change(version)`. -/
  | testChange (pos : ℕ)
  /-- The load of `get_lock`, repeated while the lock is set. -/
  | lockLoad (pos : ℕ) (val : Words w W)
  /-- The compare-and-swap of `get_lock`. -/
  | lockCas (pos : ℕ) (val : Words w W) (old : ℕ)
  /-- `payloads[pos] = new_val`, from word `n` on. -/
  | write (pos : ℕ) (val : Words w W) (n : ℕ)
  /-- The load of `release_lock`. -/
  | releaseLoad (pos : ℕ) (val : Words w W)
  /-- The store of `release_lock`. -/
  | releaseStore (pos : ℕ) (val : Words w W) (v : ℕ)

/-- A thread's own variables: the tasks it has left, and what its finished GETs copied. -/
structure PayloadThread (w : ℕ) (W : Type) where
  pc : PayloadPc w W
  todo : List (PayloadOp w W)
  version : ℕ
  ret : Words w W
  results : List (ℕ × Words w W)

/-- What the threads share; `updates` are the UPDATEs that are complete. -/
structure PayloadShared (w : ℕ) (W : Type) where
  lockArr : ℕ → ℕ
  payloads : ℕ → Words w W
  updates : List (ℕ × Words w W)

section Act

variable {w : ℕ} {W : Type} {ι : Type*}

/-- The next step of a thread; a step that waits changes nothing that others see. -/
def payloadAct (_ : ι) (sh : PayloadShared w W) (th : PayloadThread w W) :
    PayloadShared w W × PayloadThread w W :=
  match th.pc with
  | .next =>
    match th.todo with
    | [] => (sh, th)
    | .get pos :: rest => (sh, { th with pc := .testSet pos, todo := rest })
    | .update pos val :: rest => (sh, { th with pc := .lockLoad pos val, todo := rest })
  | .testSet pos =>
    -- every test stores the version it read, also one that finds the lock set
    let th := { th with version := sh.lockArr (stripe pos) }
    if IsSet (sh.lockArr (stripe pos)) then (sh, th) else (sh, { th with pc := .copy pos 0 })
  | .copy pos n =>
    if h : n < w then
      (sh, { th with
        ret := Function.update th.ret ⟨n, h⟩ (sh.payloads pos ⟨n, h⟩)
        pc := .copy pos (n + 1) })
    else (sh, { th with pc := .testChange pos })
  | .testChange pos =>
    if th.version ≠ sh.lockArr (stripe pos) then (sh, { th with pc := .testSet pos })
    else (sh, { th with pc := .next, results := (pos, th.ret) :: th.results })
  | .lockLoad pos val =>
    if IsSet (sh.lockArr (stripe pos)) then (sh, th)
    else (sh, { th with pc := .lockCas pos val (sh.lockArr (stripe pos) % lockSet) })
  | .lockCas pos val old =>
    if sh.lockArr (stripe pos) = old then
      ({ sh with lockArr := Function.update sh.lockArr (stripe pos) (old + lockSet) },
        { th with pc := .write pos val 0 })
    else (sh, { th with pc := .lockLoad pos val })
  | .write pos val n =>
    if h : n < w then
      ({ sh with
        payloads := Function.update sh.payloads pos
          (Function.update (sh.payloads pos) ⟨n, h⟩ (val ⟨n, h⟩)) },
        { th with pc := .write pos val (n + 1) })
    else (sh, { th with pc := .releaseLoad pos val })
  | .releaseLoad pos val =>
    (sh, { th with pc := .releaseStore pos val (sh.lockArr (stripe pos)) })
  | .releaseStore pos val v =>
    -- `v + 1 - lockSet` as a `uint32_t`: the bit goes and the version rises
    ({ sh with
      lockArr := Function.update sh.lockArr (stripe pos) ((v + 1 + 2 ^ 32 - lockSet) % 2 ^ 32)
      updates := (pos, val) :: sh.updates },
      { th with pc := .next })

/-- Threads over payloads. -/
abbrev PayloadSystem (ι : Type*) (w : ℕ) (W : Type) : Type _ :=
  System ι (PayloadShared w W) (PayloadThread w W)

/-- The threads at their start, with open locks. -/
def payloadStart (payloads : ℕ → Words w W) (programs : ι → List (PayloadOp w W))
    (ret : ι → Words w W) : PayloadSystem ι w W where
  shared := ⟨fun _ => 0, payloads, []⟩
  threads t := ⟨.next, programs t, 0, ret t, []⟩

/-- One step of the batch, by the thread the scheduler picks. -/
def payloadStep [DecidableEq ι] (s : PayloadSystem ι w W) (t : ι) : PayloadSystem ι w W :=
  s.step payloadAct t

end Act

/-- The UPDATEs of a stripe. -/
def PayloadOp.hits {w : ℕ} {W : Type} (k : ℕ) : PayloadOp w W → ℕ
  | .get _ => 0
  | .update pos _ => if stripe pos = k then 1 else 0

end PimLex
