import PimLex.Lock.Exclusion

/-!
# The version in a lock word

A lock is one 32-bit word: the top bit is set while somebody holds it, the other 31
count the releases. `release_lock` drops the bit and counts in one sum, so the
release that ends the last version carries into the bit. It leaves a word that
says held, with nobody to release it. `buf_page` has the same two functions.
-/

namespace PimLex

open Transition

/-- `lockMask`. -/
def lockMask : ℕ := 2 ^ 31 - 1

/-- The ways to take the lock. -/
inductive Acquire where
  | getLock
  | tryGetLock
  deriving DecidableEq, Repr

/-- Where a thread is; each is one atomic access away from the next. A thread that holds the
lock knows the word it replaced, as `before`. -/
inductive LockPc where
  | next
  /-- The load of `get_lock`, repeated while the lock is set. -/
  | getLoad
  | getCas (old : ℕ)
  | tryLoad
  | tryCas (v : ℕ)
  | releaseLoad (before : ℕ)
  | releaseStore (before v : ℕ)
  deriving DecidableEq, Repr

/-- A thread and the locks it has yet to take; it releases each before the next. -/
structure LockThread where
  pc : LockPc
  todo : List Acquire

/-- The lock word, and for every finished `release_lock` the word before the matching acquire
and the word it left. -/
structure LockShared where
  word : ℕ
  released : List (ℕ × ℕ)

/-- The next step of a thread; a step that waits changes nothing. -/
def lockAct {ι : Type*} (_ : ι) (sh : LockShared) (th : LockThread) : LockShared × LockThread :=
  match th.pc with
  | .next =>
    match th.todo with
    | [] => (sh, th)
    | .getLock :: rest => (sh, ⟨.getLoad, rest⟩)
    | .tryGetLock :: rest => (sh, ⟨.tryLoad, rest⟩)
  | .getLoad =>
    if IsSet sh.word then (sh, th) else (sh, { th with pc := .getCas (sh.word &&& lockMask) })
  | .getCas old =>
    if sh.word = old then
      ({ sh with word := old ||| lockSet }, { th with pc := .releaseLoad sh.word })
    else (sh, { th with pc := .getLoad })
  -- `try_get_lock` gives up at once: on a set lock, and on a swap that fails
  | .tryLoad =>
    if IsSet sh.word then (sh, { th with pc := .next })
    else (sh, { th with pc := .tryCas sh.word })
  | .tryCas v =>
    if sh.word = v &&& lockMask then
      ({ sh with word := v ||| lockSet }, { th with pc := .releaseLoad sh.word })
    else (sh, { th with pc := .next })
  | .releaseLoad before => (sh, { th with pc := .releaseStore before sh.word })
  | .releaseStore before v =>
    -- `v + 1 - lockSet` as a `uint32_t`
    let word := (v + 1 + 2 ^ 32 - lockSet) % 2 ^ 32
    (⟨word, sh.released ++ [(before, word)]⟩, { th with pc := .next })

/-- `try_get_lock` without interference: whether it took the lock, and the word it leaves. -/
def tryGetLock (word : ℕ) : Bool × ℕ :=
  if IsSet word then (false, word)
  else if word = word &&& lockMask then (true, word ||| lockSet) else (false, word)

/-- Threads that use one lock. -/
abbrev LockSystem (ι : Type*) : Type _ := System ι LockShared LockThread

section Run

variable {ι : Type*} [DecidableEq ι]

/-- One step of the system, by the thread the scheduler picks. -/
def lockStep (s : LockSystem ι) (t : ι) : LockSystem ι := s.step lockAct t

/-- The threads at their start, with a fresh lock. -/
def lockStart (programs : ι → List Acquire) : LockSystem ι :=
  ⟨⟨0, []⟩, fun t => ⟨.next, programs t⟩⟩

/-- The threads after a schedule. -/
def lockRun (programs : ι → List Acquire) (schedule : List ι) : LockSystem ι :=
  run lockStep (lockStart programs) schedule

/-- What a release owes: an open lock, which the next `try_get_lock` takes, and a version that
tells the word from the one before the acquire. -/
structure ReleasedWell (r : ℕ × ℕ) : Prop where
  isOpen : ¬ IsSet r.2
  taken : (tryGetLock r.2).1 = true
  version : r.2 ≠ r.1

/-- The next step of thread `t` is not the store of a `release_lock` on the largest word. -/
def NotLastVersion (s : LockSystem ι) (t : ι) : Prop :=
  s.shared.word = 2 ^ 32 - 1 → ∀ before v, (s.threads t).pc ≠ .releaseStore before v

end Run

section Words

variable {v n : ℕ}

theorem isSet_of_lockSet_le (h : lockSet ≤ v) (hlt : v < 2 * lockSet) : IsSet v := by
  unfold IsSet lockSet at *
  omega

theorem not_isSet_of_lt (h : v < lockSet) : ¬ IsSet v := by
  unfold IsSet lockSet at *
  omega

theorem and_lockMask (h : v < lockSet) : v &&& lockMask = v := by
  rw [lockMask, Nat.and_two_pow_sub_one_eq_mod]
  exact Nat.mod_eq_of_lt h

theorem or_lockSet (h : v < lockSet) : v ||| lockSet = v + lockSet := by
  have hor := Nat.two_pow_add_eq_or_of_lt h 1
  rw [mul_one] at hor
  rw [Nat.or_comm, lockSet, ← hor, Nat.add_comm]

/-- A word without the bit is taken at once. -/
theorem tryGetLock_of_lt (h : v < lockSet) : tryGetLock v = (true, v + lockSet) := by
  rw [tryGetLock, if_neg (not_isSet_of_lt h), if_pos (and_lockMask h).symm, or_lockSet h]

theorem releasedWell_iff (h : n < lockSet) : ReleasedWell (n, n + 1) ↔ n + 1 < lockSet := by
  constructor
  · intro hwell
    by_contra hge
    have hlast : n + 1 = lockSet := by omega
    exact hwell.isOpen (isSet_of_lockSet_le hlast.ge (by unfold lockSet at *; omega))
  · intro hlt
    exact ⟨not_isSet_of_lt hlt, by rw [tryGetLock_of_lt hlt], Nat.succ_ne_self n⟩

end Words

/-- What the thread's place says, after `n` releases, on whether it holds the lock. -/
def LockPc.Fits (n : ℕ) (holds : Prop) : LockPc → Prop
  | .next | .getLoad | .tryLoad => ¬ holds
  | .getCas old | .tryCas old => ¬ holds ∧ old < lockSet
  | .releaseLoad before => holds ∧ before = n
  | .releaseStore before v => holds ∧ before = n ∧ v = n + lockSet

/-- Whether the next step of a thread is the store of `release_lock`. -/
def LockPc.stores : LockPc → ℕ
  | .releaseStore _ _ => 1
  | _ => 0

section Invariant

variable {ι : Type*} {s : LockSystem ι} {n : ℕ} {holder : Option ι} {t u : ι}

/-- After `n` releases: the version counts them, and the bit says whether somebody holds the
lock, until the version has run out. -/
structure LockInv (s : LockSystem ι) (n : ℕ) (holder : Option ι) : Prop where
  released : s.shared.released = (List.range n).map fun i => (i, i + 1)
  word : s.shared.word = n + holder.toList.length * lockSet
  bound : n + holder.toList.length ≤ lockSet
  fits : ∀ t, (s.threads t).pc.Fits n (holder = some t)

/-- The place of a thread that does not hold the lock does not depend on the releases. -/
theorem LockPc.Fits.of_not {pc : LockPc} {p q : Prop} {m : ℕ} (h : pc.Fits n p) (hp : ¬ p)
    (hq : ¬ q) : pc.Fits m q := by
  cases pc with
  | next | getLoad | tryLoad => exact hq
  | getCas | tryCas => exact ⟨hq, h.2⟩
  | releaseLoad | releaseStore => exact absurd h.1 hp

variable [DecidableEq ι]

omit [DecidableEq ι] in
theorem lockInv_start (programs : ι → List Acquire) : LockInv (lockStart programs) 0 none :=
  ⟨rfl, by simp [lockStart], by simp, fun _ h => nomatch h⟩

/-- A step that leaves the lock alone. -/
theorem LockInv.move (h : LockInv s n holder) (th : LockThread)
    (hact : lockAct t s.shared (s.threads t) = (s.shared, th))
    (hfits : th.pc.Fits n (holder = some t)) : LockInv (lockStep s t) n holder := by
  rw [lockStep, System.step_eq_put, hact]
  refine ⟨h.released, h.word, h.bound, fun u => ?_⟩
  by_cases hut : u = t
  · rw [hut, System.put_self]
    exact hfits
  · rw [System.put_of_ne hut]
    exact h.fits u

omit [DecidableEq ι] in
theorem LockInv.length_released (h : LockInv s n holder) : s.shared.released.length = n := by
  rw [h.released, List.length_map, List.length_range]

/-- A swap that succeeds finds the lock open. -/
theorem LockInv.acquire (h : LockInv s n holder) (hopen : s.shared.word < lockSet)
    (hact : lockAct t s.shared (s.threads t) =
      ({ s.shared with word := s.shared.word ||| lockSet },
        { s.threads t with pc := .releaseLoad s.shared.word })) :
    LockInv (lockStep s t) n (some t) := by
  have hnone : holder = none := by
    cases holder with
    | none => rfl
    | some u =>
      have hword := h.word
      simp only [Option.toList_some, List.length_singleton, one_mul] at hword
      omega
  subst hnone
  have hword : s.shared.word = n := by simpa using h.word
  rw [lockStep, System.step_eq_put, hact]
  refine ⟨h.released, ?word, ?bound, fun u => ?_⟩
  case word =>
    rw [System.put_shared, or_lockSet hopen, hword]
    simp
  case bound =>
    rw [hword] at hopen
    exact hopen
  by_cases hut : u = t
  · rw [hut, System.put_self]
    exact ⟨rfl, hword⟩
  · rw [System.put_of_ne hut]
    exact (h.fits u).of_not nofun fun heq => hut (Option.some.inj heq).symm

/-- A release counts itself, also where the count carries into the bit. -/
theorem LockInv.release (h : LockInv s n (some t)) {before v : ℕ}
    (hpc : (s.threads t).pc = .releaseStore before v) :
    LockInv (lockStep s t) (n + 1) none := by
  have hfits := h.fits t
  rw [hpc] at hfits
  obtain ⟨-, hbefore, hv⟩ := hfits
  have hbound : n + 1 ≤ lockSet := h.bound
  have hword : (n + lockSet + 1 + 2 ^ 32 - lockSet) % 2 ^ 32 = n + 1 := by
    unfold lockSet at *
    omega
  have hact : lockAct t s.shared (s.threads t) =
      (⟨n + 1, s.shared.released ++ [(n, n + 1)]⟩, { s.threads t with pc := .next }) := by
    simp only [lockAct, hpc, hbefore, hv, hword]
  rw [lockStep, System.step_eq_put, hact]
  refine ⟨?released, by simp, hbound, fun u => ?_⟩
  case released => simp only [System.put_shared, h.released, List.range_succ, List.map_append]; rfl
  by_cases hut : u = t
  · rw [hut, System.put_self]
    exact nofun
  · rw [System.put_of_ne hut]
    exact (h.fits u).of_not (fun heq => hut (Option.some.inj heq).symm) nofun

omit [DecidableEq ι] in
/-- An open word is a version. -/
theorem LockInv.lt_of_not_isSet (h : LockInv s n holder) (hopen : ¬ IsSet s.shared.word) :
    s.shared.word < lockSet := by
  by_contra hge
  refine hopen (isSet_of_lockSet_le (Nat.not_lt.mp hge) ?_)
  have hbound := h.bound
  rw [h.word]
  cases holder with
  | none =>
    simp only [Option.toList_none, List.length_nil] at hbound ⊢
    unfold lockSet at *
    omega
  | some u =>
    simp only [Option.toList_some, List.length_singleton] at hbound ⊢
    omega

/-- One step keeps the invariant; the number of releases grows with the store of
`release_lock`, by one, and with no other step. -/
theorem LockInv.step (h : LockInv s n holder) (t : ι) :
    ∃ holder', LockInv (lockStep s t)
      (n + (s.threads t).pc.stores) holder' := by
  have hfits := h.fits t
  cases hpc : (s.threads t).pc with
  | next =>
    rw [hpc] at hfits
    refine ⟨holder, ?_⟩
    rcases htodo : (s.threads t).todo with - | ⟨- | -, rest⟩
    · exact h.move (s.threads t) (by simp only [lockAct, hpc, htodo]) (hpc ▸ hfits)
    · exact h.move ⟨.getLoad, rest⟩ (by simp only [lockAct, hpc, htodo]) hfits
    · exact h.move ⟨.tryLoad, rest⟩ (by simp only [lockAct, hpc, htodo]) hfits
  | getLoad =>
    rw [hpc] at hfits
    refine ⟨holder, ?_⟩
    by_cases hset : IsSet s.shared.word
    · exact h.move (s.threads t) (by simp only [lockAct, hpc, if_pos hset]) (hpc ▸ hfits)
    · have hlt := h.lt_of_not_isSet hset
      refine h.move { s.threads t with pc := .getCas s.shared.word } ?_ ⟨hfits, hlt⟩
      simp only [lockAct, hpc, if_neg hset, and_lockMask hlt]
  | getCas old =>
    rw [hpc] at hfits
    by_cases heq : s.shared.word = old
    · refine ⟨some t, h.acquire (heq ▸ hfits.2) ?_⟩
      simp only [lockAct, hpc, ← heq, if_true]
    · refine ⟨holder, h.move { s.threads t with pc := .getLoad } ?_ hfits.1⟩
      simp only [lockAct, hpc, if_neg heq]
  | tryLoad =>
    rw [hpc] at hfits
    refine ⟨holder, ?_⟩
    by_cases hset : IsSet s.shared.word
    · refine h.move { s.threads t with pc := .next } ?_ hfits
      simp only [lockAct, hpc, if_pos hset]
    · refine h.move { s.threads t with pc := .tryCas s.shared.word } ?_
        ⟨hfits, h.lt_of_not_isSet hset⟩
      simp only [lockAct, hpc, if_neg hset]
  | tryCas v =>
    rw [hpc] at hfits
    have hmask := and_lockMask hfits.2
    by_cases heq : s.shared.word = v
    · subst heq
      refine ⟨some t, h.acquire hfits.2 ?_⟩
      simp only [lockAct, hpc, hmask, if_true]
    · refine ⟨holder, h.move { s.threads t with pc := .next } ?_ hfits.1⟩
      simp only [lockAct, hpc, hmask, if_neg heq]
  | releaseLoad before =>
    rw [hpc] at hfits
    obtain ⟨rfl, hbefore⟩ := hfits
    have hword : s.shared.word = n + lockSet := by simpa using h.word
    refine ⟨some t, h.move { s.threads t with pc := .releaseStore before s.shared.word } ?_
      ⟨rfl, hbefore, hword⟩⟩
    simp only [lockAct, hpc]
  | releaseStore before v =>
    rw [hpc] at hfits
    obtain ⟨rfl, -⟩ := hfits
    exact ⟨none, h.release hpc⟩

theorem LockInv.exists_step (h : ∃ n holder, LockInv s n holder) (t : ι) :
    ∃ n holder, LockInv (lockStep s t) n holder := by
  obtain ⟨n, holder, h⟩ := h
  exact ⟨_, h.step t⟩

theorem exists_lockInv (programs : ι → List Acquire) (schedule : List ι) :
    ∃ n holder, LockInv (lockRun programs schedule) n holder :=
  @run_invariant _ _ lockStep (fun s => ∃ n holder, LockInv s n holder) _
    ⟨0, none, lockInv_start programs⟩ (fun _ t h => LockInv.exists_step h t) schedule

/-- The releases have run through all versions after a step if they had before, or if the step
is a release of the largest word. -/
theorem LockInv.exhausted_step (h : LockInv s n holder) (t : ι) :
    (lockStep s t).shared.released.length = lockSet ↔
      s.shared.released.length = lockSet ∨ ¬ NotLastVersion s t := by
  obtain ⟨holder', hnext⟩ := h.step t
  rw [hnext.length_released, h.length_released]
  by_cases hstore : ∃ before v, (s.threads t).pc = .releaseStore before v
  · obtain ⟨before, v, hpc⟩ := hstore
    have hfits := h.fits t
    rw [hpc] at hfits
    obtain ⟨rfl, -⟩ := hfits
    have hbound : n + 1 ≤ lockSet := h.bound
    have hword : s.shared.word = n + lockSet := by simpa using h.word
    have hlast : ¬ NotLastVersion s t ↔ n + lockSet = 2 ^ 32 - 1 := by
      rw [NotLastVersion, hword, not_forall]
      exact ⟨fun ⟨heq, _⟩ => heq, fun heq => ⟨heq, fun hnone => hnone before v hpc⟩⟩
    rw [hlast, hpc, LockPc.stores]
    unfold lockSet at *
    omega
  · have hnot : NotLastVersion s t := fun _ before v hpc => hstore ⟨before, v, hpc⟩
    have hzero : (s.threads t).pc.stores = 0 := by
      cases hpc : (s.threads t).pc with
      | releaseStore before v => exact absurd ⟨before, v, hpc⟩ hstore
      | _ => rfl
    rw [hzero, Nat.add_zero, or_iff_left (not_not_intro hnot)]

/-- Along a run of any threads, every release leaves an open lock and a new version exactly if
no release is called on the largest word. -/
theorem releases_well_iff (programs : ι → List Acquire) (schedule : List ι) :
    (∀ r ∈ (lockRun programs schedule).shared.released, ReleasedWell r) ↔
      Guarded lockStep NotLastVersion (lockStart programs) schedule := by
  -- both sides say that the versions have not run out
  have hexhausted : (lockRun programs schedule).shared.released.length = lockSet ↔
      ¬ Guarded lockStep NotLastVersion (lockStart programs) schedule := by
    have hgain := @run_gains_iff _ _ lockStep (fun s => s.shared.released.length = lockSet)
      (lockStart programs) schedule (fun s => ∃ n holder, LockInv s n holder)
      (fun s t => ¬ NotLastVersion s t) ⟨0, none, lockInv_start programs⟩
      (fun _ t _ h => LockInv.exists_step h t)
      (fun _ t _ h => h.choose_spec.choose_spec.exhausted_step t)
    have hstart : (lockStart programs).shared.released.length ≠ lockSet := by
      simp [lockStart, lockSet]
    rw [lockRun, hgain, or_iff_right hstart, guarded_iff]
    push Not
    rfl
  obtain ⟨n, holder, h⟩ := exists_lockInv programs schedule
  rw [← not_iff_not, ← hexhausted, h.length_released, h.released]
  have hbound : n ≤ lockSet := (Nat.le_add_right _ _).trans h.bound
  constructor
  · intro hbad
    by_contra hne
    refine hbad fun r hr => ?_
    obtain ⟨i, hi, rfl⟩ := List.mem_map.mp hr
    rw [List.mem_range] at hi
    exact (releasedWell_iff (by omega)).mpr (by omega)
  · rintro rfl hwell
    have hlast : lockSet - 1 < lockSet := by decide
    have hmem := hwell _ (List.mem_map_of_mem (List.mem_range.mpr hlast))
    exact absurd ((releasedWell_iff hlast).mp hmem) (by decide)

end Invariant

section Solo

variable {sh : LockShared} {th : LockThread} {v : ℕ}

/-- A thread alone with the lock. -/
def solo (sh : LockShared) (th : LockThread) : LockSystem Unit := ⟨sh, fun _ => th⟩

theorem lockStep_solo :
    lockStep (solo sh th) () = solo (lockAct () sh th).1 (lockAct () sh th).2 := by
  rw [lockStep, System.step_eq_put, System.put, Function.update_eq_const_of_subsingleton]
  rfl

/-- A `get_lock` and its release take five steps. -/
theorem run_cycle (h : v < lockSet) (released : List (ℕ × ℕ)) (todo : List Acquire) :
    run lockStep (solo ⟨v, released⟩ ⟨.next, .getLock :: todo⟩) (List.replicate 5 ()) =
      solo ⟨v + 1, released ++ [(v, v + 1)]⟩ ⟨.next, todo⟩ := by
  have hword : (v + lockSet + 1 + 2 ^ 32 - lockSet) % 2 ^ 32 = v + 1 := by
    unfold lockSet at *
    omega
  simp only [List.replicate, run_cons, run_nil, lockStep_solo, lockAct, if_neg (not_isSet_of_lt h),
    and_lockMask h, or_lockSet h, hword, if_true]

theorem run_cycles (n : ℕ) (h : v + n ≤ lockSet) (released : List (ℕ × ℕ)) :
    ∃ more, run lockStep (solo ⟨v, released⟩ ⟨.next, List.replicate n .getLock⟩)
      (List.replicate (n * 5) ()) = solo ⟨v + n, released ++ more⟩ ⟨.next, []⟩ := by
  induction n generalizing v released with
  | zero => exact ⟨[], by simp⟩
  | succ n ih =>
    obtain ⟨more, hmore⟩ := ih (v := v + 1) (by omega) (released ++ [(v, v + 1)])
    refine ⟨(v, v + 1) :: more, ?_⟩
    have hsteps : List.replicate ((n + 1) * 5) () =
        List.replicate 5 () ++ List.replicate (n * 5) () := by
      rw [← List.replicate_add]
      congr 1
      omega
    rw [hsteps, run_append, List.replicate_succ, run_cycle (by omega), hmore, List.append_assoc,
      Nat.add_right_comm]
    rfl

end Solo

/-- `2 ^ 31` times `get_lock` and `release_lock`: the last release leaves the word `lockSet`, and
`try_get_lock` fails with nobody holding the lock. -/
theorem releases_well_exhausted :
    let s := lockRun (fun _ : Unit => List.replicate lockSet .getLock)
      (List.replicate (lockSet * 5) ())
    (lockSet - 1, lockSet) ∈ s.shared.released ∧ s.shared.word = lockSet ∧
      (s.threads ()).pc = .next ∧ tryGetLock lockSet = (false, lockSet) ∧
      ¬ ReleasedWell (lockSet - 1, lockSet) := by
  intro s
  obtain ⟨n, holder, h⟩ : ∃ n holder, LockInv s n holder := exists_lockInv _ _
  obtain ⟨more, hs⟩ : ∃ more, s = solo ⟨0 + lockSet, [] ++ more⟩ ⟨.next, []⟩ :=
    run_cycles lockSet (Nat.zero_add lockSet).le []
  clear_value s
  have hset : IsSet lockSet := by decide
  have hword : s.shared.word = lockSet := by rw [hs]; exact Nat.zero_add lockSet
  have hpc : ∀ t, (s.threads t).pc = .next := by rw [hs]; exact fun _ => rfl
  have hn : n = lockSet := by
    cases holder with
    | none =>
      rw [← hword, h.word]
      simp
    | some t =>
      have hfits := h.fits t
      rw [hpc] at hfits
      exact absurd rfl hfits
  refine ⟨?_, hword, hpc (), if_pos hset, fun hwell => hwell.isOpen hset⟩
  have hlast : lockSet - 1 < lockSet := by decide
  have hsucc : lockSet - 1 + 1 = lockSet := by decide
  rw [h.released, hn, List.mem_map]
  exact ⟨lockSet - 1, List.mem_range.mpr hlast, by rw [hsucc]⟩

end PimLex
