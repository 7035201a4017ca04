import PimLex.Lock.Protocol

/-!
# When inserting and merging exclude each other

A thread between its second version check and `thread_in_write++` is neither held
back by the version lock nor counted. If no merge starts while another thread is
there, no thread inserts during a merge, and every insertion uses positions of
the current index.
-/

namespace PimLex

open Transition

namespace InsertPc

/-- The thread holds the version lock. -/
def holds : InsertPc → Bool
  | .wantShard | .waitWriters | .merging | .published | .storeZero | .releaseShard
  | .releaseLock => true
  | _ => false

/-- Inside `merge_and_retrain`. -/
def merges : InsertPc → Bool
  | .merging | .published => true
  | _ => false

/-- Past the second version check and not yet counted. -/
def unguarded : InsertPc → Bool
  | .lookup | .fetchAdd | .compare _ | .incWrite => true
  | _ => false

/-- Counted in `thread_in_write`. -/
def counted : InsertPc → Bool
  | .inserting | .decWrite => true
  | _ => false

/-- Carries DPU positions that an insertion may still use. -/
def positioned : InsertPc → Bool
  | .fetchAdd | .compare _ | .incWrite | .inserting => true
  | _ => false

end InsertPc

/-- No thread inserts while another merges, and every insertion uses positions of the
current index. -/
structure InsertSafe (s : InsertSystem) : Prop where
  exclusive : ∀ t u, (s.threads t).pc = .inserting → (s.threads u).pc.merges = false
  fresh : ∀ t, (s.threads t).pc = .inserting → (s.threads t).posGen = s.shared.gen

/-- A step that starts a merge finds no other thread between its version check and its
count. -/
def StartsAlone (s : InsertSystem) (t : Fin threadNum) : Prop :=
  (s.threads t).pc = .waitWriters → s.shared.threadInWrite = 0 →
    ∀ u ≠ t, (s.threads u).pc.unguarded = false

instance (s : InsertSystem) (t : Fin threadNum) : Decidable (StartsAlone s t) :=
  inferInstanceAs (Decidable (_ → _ → _))

/-- What is true of each thread beside the shared state. -/
structure ThreadOk (sh : InsertShared) (th : InsertThread) : Prop where
  locked : th.pc.holds = true → IsSet sh.mergeLock
  version : th.pc = .fill ∨ th.pc = .recheck → ¬ IsSet th.version
  loaded : ∀ v, th.pc = .tryCas v → ¬ IsSet v
  fresh : th.pc.positioned = true → th.posGen = sh.gen

/-- The invariant of the runs in which merges start alone. -/
structure InsertInv (s : InsertSystem) : Prop where
  threads : ∀ t, ThreadOk s.shared (s.threads t)
  holder : ∀ t u, (s.threads t).pc.holds = true → (s.threads u).pc.holds = true → t = u
  merge : ∀ t u, (s.threads t).pc.merges = true →
    (s.threads u).pc.unguarded = false ∧ (s.threads u).pc.counted = false
  count : s.Counts (fun th => th.pc.counted) s.shared.threadInWrite

theorem isSet_add_lockSet {v : ℕ} (h : ¬ IsSet v) : IsSet (v + lockSet) := by
  unfold IsSet lockSet at *
  omega

section Act

variable (par : InsertParams) (t : Fin threadNum) (sh : InsertShared) (th : InsertThread)

theorem act_of_cas (h : th.pc = .tryCas sh.mergeLock) :
    insertAct par t sh th =
      ({ sh with mergeLock := sh.mergeLock + lockSet }, { th with pc := .wantShard }) := by
  simp only [insertAct, h, if_true]

/-- The lock word changes in two steps: its compare-and-swap and its release. -/
theorem act_mergeLock :
    (insertAct par t sh th).1.mergeLock = sh.mergeLock ∨
      (th.pc = .tryCas sh.mergeLock ∧
        (insertAct par t sh th).1.mergeLock = sh.mergeLock + lockSet) ∨
      th.pc = .releaseLock := by
  cases hpc : th.pc with
  | tryCas loaded =>
    by_cases h : sh.mergeLock = loaded
    · subst h
      exact Or.inr (Or.inl ⟨rfl, by rw [act_of_cas par t sh th hpc]⟩)
    · exact Or.inl (by simp only [insertAct, hpc, if_neg h])
  | releaseLock => exact Or.inr (Or.inr rfl)
  | _ =>
    left
    simp only [insertAct, hpc]
    try split_ifs <;> rfl

/-- Only publishing changes the generation. -/
theorem act_gen : (insertAct par t sh th).1.gen = sh.gen ∨ th.pc = .merging := by
  cases hpc : th.pc with
  | merging => exact Or.inr rfl
  | _ =>
    left
    simp only [insertAct, hpc]
    try split_ifs <;> rfl

/-- The lock is held from the successful compare-and-swap to the release. -/
theorem act_holds (h : (insertAct par t sh th).2.pc.holds = true) :
    (th.pc.holds = true ∧ th.pc ≠ .releaseLock) ∨ th.pc = .tryCas sh.mergeLock := by
  cases hpc : th.pc with
  | tryCas loaded =>
    -- a failed swap goes back to the start without the lock
    by_cases hl : sh.mergeLock = loaded
    · exact Or.inr (by rw [hl])
    · simp [insertAct, hpc, hl, InsertPc.holds] at h
  | wantShard | waitWriters | merging | published | storeZero | releaseShard =>
    exact Or.inl ⟨rfl, by simp⟩
  | _ =>
    simp only [insertAct, hpc] at h
    try split_ifs at h
    all_goals simp [InsertPc.holds, hpc] at h

/-- A merge starts with no thread counted. -/
theorem act_merges (h : (insertAct par t sh th).2.pc.merges = true) :
    th.pc.merges = true ∨ (th.pc = .waitWriters ∧ sh.threadInWrite = 0) := by
  cases hpc : th.pc with
  | waitWriters =>
    by_cases h0 : sh.threadInWrite = 0
    · exact Or.inr ⟨rfl, h0⟩
    · simp [insertAct, hpc, h0, InsertPc.merges] at h
  | merging | published => exact Or.inl rfl
  | _ =>
    simp only [insertAct, hpc] at h
    try split_ifs at h
    all_goals simp [InsertPc.merges, hpc] at h

/-- A thread becomes unguarded only by finding the version unchanged. -/
theorem act_enter
    (h : (insertAct par t sh th).2.pc.unguarded = true ∨
      (insertAct par t sh th).2.pc.counted = true) :
    th.pc.unguarded = true ∨ th.pc.counted = true ∨
      (th.pc = .recheck ∧ sh.mergeLock = th.version) := by
  cases hpc : th.pc with
  | recheck =>
    by_cases hv : sh.mergeLock = th.version
    · exact Or.inr (Or.inr ⟨rfl, hv⟩)
    · simp [insertAct, hpc, hv, InsertPc.unguarded, InsertPc.counted] at h
  | lookup | fetchAdd | compare | incWrite => exact Or.inl rfl
  | inserting | decWrite => exact Or.inr (Or.inl rfl)
  | _ =>
    simp only [insertAct, hpc] at h
    try split_ifs at h
    all_goals simp [InsertPc.unguarded, InsertPc.counted, hpc] at h

/-- The counter follows the acting thread. -/
theorem act_count (h : th.pc.counted.toNat ≤ sh.threadInWrite) :
    (insertAct par t sh th).1.threadInWrite + th.pc.counted.toNat =
      sh.threadInWrite + (insertAct par t sh th).2.pc.counted.toNat := by
  cases hpc : th.pc with
  | decWrite =>
    -- the subtraction does not truncate, for the thread itself is counted
    rw [hpc] at h
    simp only [insertAct, hpc, InsertPc.counted, Bool.toNat_true] at h ⊢
    split_ifs <;> simp only [Bool.toNat_false] <;> omega
  | _ =>
    simp only [insertAct, hpc]
    try split_ifs
    all_goals simp [InsertPc.counted, hpc]

/-- Positions are taken by the lookup and then kept. -/
theorem act_positioned (h : (insertAct par t sh th).2.pc.positioned = true) :
    (insertAct par t sh th).2.posGen = sh.gen ∨
      (th.pc.positioned = true ∧ (insertAct par t sh th).2.posGen = th.posGen) := by
  cases hpc : th.pc with
  | lookup => exact Or.inl (by simp only [insertAct, hpc])
  | fetchAdd | incWrite => exact Or.inr ⟨rfl, by simp only [insertAct, hpc]⟩
  | compare fetched =>
    refine Or.inr ⟨rfl, ?_⟩
    simp only [insertAct, hpc]
    split_ifs <;> rfl
  | _ =>
    simp only [insertAct, hpc] at h
    try split_ifs at h
    all_goals simp [InsertPc.positioned, hpc] at h

/-- A version is read from an open lock and then kept. -/
theorem act_version (h : (insertAct par t sh th).2.pc = .fill ∨
      (insertAct par t sh th).2.pc = .recheck) :
    ¬ IsSet (insertAct par t sh th).2.version ∨
      (th.pc = .fill ∧ (insertAct par t sh th).2.version = th.version) := by
  cases hpc : th.pc with
  | waitVersion =>
    by_cases hset : IsSet sh.mergeLock
    · simp [insertAct, hpc, hset] at h
    · exact Or.inl (by simpa only [insertAct, hpc, if_neg hset] using hset)
  | fill => exact Or.inr ⟨rfl, by simp only [insertAct, hpc]⟩
  | _ =>
    simp only [insertAct, hpc] at h
    try split_ifs at h
    all_goals simp [hpc] at h

/-- The compare-and-swap is tried with an open lock word. -/
theorem act_loaded {v : ℕ} (h : (insertAct par t sh th).2.pc = .tryCas v) : ¬ IsSet v := by
  cases hpc : th.pc with
  | tryLoad =>
    by_cases hset : IsSet sh.mergeLock
    · simp [insertAct, hpc, hset] at h
    · simp only [insertAct, hpc, if_neg hset, InsertPc.tryCas.injEq] at h
      rwa [← h]
  | _ =>
    simp only [insertAct, hpc] at h
    try split_ifs at h
    all_goals simp [hpc] at h

end Act

section Classes

variable {pc : InsertPc}

theorem InsertPc.holds_of_merges (h : pc.merges = true) : pc.holds = true := by
  cases pc <;> simp_all [merges, holds]

theorem InsertPc.not_unguarded_of_merges (h : pc.merges = true) :
    pc.unguarded = false ∧ pc.counted = false := by
  cases pc <;> simp_all [merges, unguarded, counted]

theorem InsertPc.of_positioned (h : pc.positioned = true) :
    pc.unguarded = true ∨ pc.counted = true := by
  cases pc <;> simp_all [positioned, unguarded, counted]

end Classes

section Invariant

variable {par : InsertParams} {s : InsertSystem} {t : Fin threadNum}

theorem InsertInv.not_isSet_of_cas (h : InsertInv s)
    (hpc : (s.threads t).pc = .tryCas s.shared.mergeLock) : ¬ IsSet s.shared.mergeLock :=
  (h.threads t).loaded _ hpc

/-- The acting thread stays in step with the shared state. -/
theorem InsertInv.act_ok (h : InsertInv s) :
    ThreadOk (insertAct par t s.shared (s.threads t)).1
      (insertAct par t s.shared (s.threads t)).2 := by
  have ht := h.threads t
  constructor
  case locked =>
    intro hholds
    rcases act_holds par t _ _ hholds with ⟨hheld, hne⟩ | hcas
    · rcases act_mergeLock par t s.shared (s.threads t) with hsame | ⟨hcas, -⟩ | hrel
      · rw [hsame]
        exact ht.locked hheld
      · rw [hcas] at hheld
        exact absurd hheld (by simp [InsertPc.holds])
      · exact absurd hrel hne
    · -- `value + lockSet` sets the bit because the loaded word did not have it
      rw [act_of_cas par t _ _ hcas]
      exact isSet_add_lockSet (h.not_isSet_of_cas hcas)
  case version =>
    intro hpc
    rcases act_version par t _ _ hpc with hopen | ⟨hfill, hsame⟩
    · exact hopen
    · rw [hsame]
      exact ht.version (Or.inl hfill)
  case loaded =>
    intro v hpc
    exact act_loaded par t _ _ hpc
  case fresh =>
    intro hpos
    have hgen : (insertAct par t s.shared (s.threads t)).1.gen = s.shared.gen := by
      apply (act_gen par t s.shared (s.threads t)).resolve_right
      intro hpc
      -- a thread that publishes carries no positions afterwards
      simp [insertAct, hpc, InsertPc.positioned] at hpos
    rw [hgen]
    rcases act_positioned par t _ _ hpos with hnow | ⟨hold, hkept⟩
    · exact hnow
    · exact hkept.trans (ht.fresh hold)

/-- The other threads stay in step with what the acting thread changed. -/
theorem InsertInv.other_ok (h : InsertInv s) {u : Fin threadNum} (hu : u ≠ t) :
    ThreadOk (insertAct par t s.shared (s.threads t)).1 (s.threads u) := by
  have hou := h.threads u
  refine ⟨?locked, hou.version, hou.loaded, ?fresh⟩
  case locked =>
    intro hholds
    rcases act_mergeLock par t s.shared (s.threads t) with hsame | ⟨hcas, -⟩ | hrel
    · rw [hsame]
      exact hou.locked hholds
    · exact absurd (hou.locked hholds) (h.not_isSet_of_cas hcas)
    · -- only the holder releases, and there is one holder
      exact absurd (h.holder u t hholds (by rw [hrel]; rfl)) hu
  case fresh =>
    intro hpos
    rcases act_gen par t s.shared (s.threads t) with hsame | hmerging
    · rw [hsame]
      exact hou.fresh hpos
    · -- while one thread merges no other carries positions
      obtain ⟨hung, hcount⟩ := h.merge t u (by rw [hmerging]; rfl)
      rcases InsertPc.of_positioned hpos with hc | hc
      · exact absurd hc (by rw [hung]; decide)
      · exact absurd hc (by rw [hcount]; decide)

/-- No thread is counted while the counter is zero. -/
theorem InsertInv.not_counted (h : InsertInv s) (h0 : s.shared.threadInWrite = 0)
    (u : Fin threadNum) : (s.threads u).pc.counted = false := by
  have hcount := h.count
  rw [h0] at hcount
  exact hcount.none u

/-- A step that does not start a merge beside an unguarded thread keeps the invariant. -/
theorem InsertInv.step (h : InsertInv s) (hg : StartsAlone s t) :
    InsertInv (insertStep par s t) := by
  have hself : ((insertStep par s t).threads t) =
      (insertAct par t s.shared (s.threads t)).2 := System.step_self
  have hother : ∀ u ≠ t, (insertStep par s t).threads u = s.threads u := fun u hu =>
    System.step_of_ne hu
  -- a new holder finds the lock word open, so no other thread holds the lock
  have hnew : ∀ u ≠ t, ((insertStep par s t).threads t).pc.holds = true →
      (s.threads u).pc.holds = true → False := by
    intro u hu hth hhu
    rw [hself] at hth
    rcases act_holds par t _ _ hth with ⟨hheld, -⟩ | hcas
    · exact hu (h.holder u t hhu hheld)
    · exact h.not_isSet_of_cas hcas ((h.threads u).locked hhu)
  constructor
  case threads => exact System.forall_step.mpr ⟨h.act_ok, fun u hu => h.other_ok hu⟩
  case holder =>
    intro a c ha hc
    rcases eq_or_ne a t with rfl | hat <;> rcases eq_or_ne c a with rfl | hca
    · rfl
    · rw [hother c hca] at hc
      exact (hnew c hca ha hc).elim
    · rfl
    · rcases eq_or_ne c t with rfl | hct
      · rw [hother a hat] at ha
        exact (hnew a hat hc ha).elim
      · rw [hother a hat] at ha
        rw [hother c hct] at hc
        exact h.holder a c ha hc
  case merge =>
    intro a c ha
    rcases eq_or_ne a t with rfl | hat
    · rw [hself] at ha
      rcases eq_or_ne c a with rfl | hca
      · rw [hself]
        exact InsertPc.not_unguarded_of_merges ha
      · rw [hother c hca]
        rcases act_merges par a _ _ ha with hin | ⟨hpc, h0⟩
        · exact h.merge a c hin
        · -- the merge starts here: the guard rules out the unguarded, the counter the counted
          exact ⟨hg hpc h0 c hca, h.not_counted h0 c⟩
    · rw [hother a hat] at ha
      rcases eq_or_ne c t with rfl | hct
      · -- the version check keeps a thread out while the merging thread holds the lock
        rw [hself]
        have hset := (h.threads a).locked (InsertPc.holds_of_merges ha)
        obtain ⟨hung, hcount⟩ := h.merge a c ha
        by_contra hin
        rw [not_and_or, Bool.not_eq_false, Bool.not_eq_false] at hin
        rcases act_enter par c _ _ hin with hold | hold | ⟨hpc, hsame⟩
        · exact absurd hold (by rw [hung]; decide)
        · exact absurd hold (by rw [hcount]; decide)
        · exact (h.threads c).version (Or.inr hpc) (hsame ▸ hset)
      · rw [hother c hct]
        exact h.merge a c ha
  case count => exact h.count.step (act_count par t _ _ (h.count.le t))

theorem insertInv_start (n : ℕ) : InsertInv (insertStart n) where
  threads _ := ⟨nofun, nofun, nofun, nofun⟩
  holder _ _ := nofun
  merge _ _ := nofun
  count := by simp [System.Counts, insertStart, InsertPc.counted]

theorem InsertInv.safe (h : InsertInv s) : InsertSafe s where
  exclusive t u ht := by
    by_contra hu
    have hcount := (h.merge u t (Bool.not_eq_false _ ▸ hu)).2
    rw [ht] at hcount
    exact absurd hcount (by decide)
  fresh t ht := (h.threads t).fresh (by rw [ht]; rfl)

end Invariant

/-- In every run whose merges start only while no other thread is between its second version
check and its `thread_in_write++`, no thread ever inserts while another merges or with
positions of a replaced index. -/
theorem insertSafe_throughout (par : InsertParams) (n : ℕ) (schedule : List (Fin threadNum))
    (halone : Guarded (insertStep par) StartsAlone (insertStart n) schedule) :
    Throughout (insertStep par) InsertSafe (insertStart n) schedule :=
  (halone.throughout (insertInv_start n) fun _ _ h hg => h.step hg).mono fun _ h => h.safe

/-- Rounds of 512 insertions over an index of 1024 keys: the second round to start asks for a
merge. -/
def kibiRounds : InsertParams where
  perRoundOps := 512
  wantsMerge fetched total := 100 * fetched > 45 * total
  newTotalSize _ := 1536

/-- Thread 0 inserts while thread 1 asks for a merge and waits for it; then thread 1 merges and
publishes, and thread 0 inserts again, into the new index. -/
theorem insertSafe_interleaved :
    let schedule : List (Fin threadNum) := List.replicate 9 0 ++ List.replicate 14 1 ++
      List.replicate 2 0 ++ List.replicate 8 1 ++ List.replicate 9 0
    let s := run (insertStep kibiRounds) (insertStart 1024) schedule
    Throughout (insertStep kibiRounds) InsertSafe (insertStart 1024) schedule ∧
      (s.threads 0).pc = .inserting ∧ s.shared.gen = 1 :=
  ⟨insertSafe_throughout kibiRounds 1024 _ (by decide +kernel), by decide +kernel,
    by decide +kernel⟩

/-- Thread 0 stops before its `thread_in_write++` while thread 1 starts a merge and publishes,
then enters the insertion with its old positions. -/
theorem insert_during_merge :
    let s := run (insertStep kibiRounds) (insertStart 1024)
      (List.replicate 8 0 ++ List.replicate 13 1 ++ [0])
    ¬ InsertSafe s ∧ (s.threads 0).pc = .inserting ∧ (s.threads 1).pc = .published ∧
      (s.threads 0).posGen ≠ s.shared.gen := by
  intro s
  have hreach : (s.threads 0).pc = .inserting ∧ (s.threads 1).pc = .published ∧
      (s.threads 0).posGen ≠ s.shared.gen := by decide +kernel
  exact ⟨fun h => hreach.2.2 (h.fresh 0 hreach.1), hreach⟩

end PimLex
