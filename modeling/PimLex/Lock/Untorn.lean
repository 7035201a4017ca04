import PimLex.Lock.Optimistic

/-!
# Optimistic reads are not torn

The lock word of a stripe counts the UPDATEs that completed on it, with the top
bit set while one is under way. So a reader that finds the word it kept has seen
no step of a writer since it started to copy, and what it copied is what the last
complete UPDATE left. The count stays below the top bit as long as there are
fewer than `2 ^ 31` UPDATEs on the stripe.
-/

namespace PimLex

open Transition

variable {w : ℕ} {W : Type} {ι : Type*} {k total : ℕ}

namespace PayloadPc

/-- The position whose lock is held here. -/
def holding : PayloadPc w W → Option ℕ
  | .write pos _ _ | .releaseLoad pos _ | .releaseStore pos _ _ => some pos
  | _ => none

/-- The stripe is locked from here. -/
def Holds (k : ℕ) (pc : PayloadPc w W) : Prop := ∃ pos, pc.holding = some pos ∧ stripe pos = k

/-- The UPDATE of a stripe that is under way. -/
def hits (k : ℕ) : PayloadPc w W → ℕ
  | .lockLoad pos _ | .lockCas pos _ _ | .write pos _ _ | .releaseLoad pos _
  | .releaseStore pos _ _ => if stripe pos = k then 1 else 0
  | _ => 0

end PayloadPc

/-- The UPDATEs of a stripe that the thread has not completed. -/
def PayloadThread.pending (k : ℕ) (th : PayloadThread w W) : ℕ :=
  th.pc.hits k + (th.todo.map (PayloadOp.hits k)).sum

namespace PayloadShared

/-- The UPDATEs completed on a stripe. -/
def completed (k : ℕ) (sh : PayloadShared w W) : ℕ :=
  sh.updates.countP fun e => decide (stripe e.1 = k)

/-- The payload is the first one or that of a complete UPDATE. -/
def Whole (init : ℕ → Words w W) (sh : PayloadShared w W) (pos : ℕ) (p : Words w W) : Prop :=
  p = init pos ∨ (pos, p) ∈ sh.updates

end PayloadShared

open PayloadShared

/-- What a thread relies on: a reader that its copy is good as long as the word stays, a writer
that nobody else writes. -/
def PayloadOk (k : ℕ) (sh : PayloadShared w W) (th : PayloadThread w W) : Prop :=
  match th.pc with
  | .copy pos n => stripe pos = k → th.version ≤ sh.completed k ∧
      (th.version = sh.lockArr k → ∀ i : Fin w, i.val < n → th.ret i = sh.payloads pos i)
  | .testChange pos => stripe pos = k → th.version ≤ sh.completed k ∧
      (th.version = sh.lockArr k → th.ret = sh.payloads pos)
  | .lockCas _ _ old => old < lockSet
  | .write pos val n => stripe pos = k → ∀ i : Fin w, i.val < n → sh.payloads pos i = val i
  | .releaseLoad pos val => stripe pos = k → sh.payloads pos = val
  | .releaseStore pos val v => stripe pos = k → v = sh.lockArr k ∧ sh.payloads pos = val
  | _ => True

/-- The invariant of a stripe. -/
structure StripeInv [Fintype ι] (k total : ℕ) (init : ℕ → Words w W)
    (s : PayloadSystem ι w W) : Prop where
  total : s.shared.completed k + ∑ t, (s.threads t).pending k = total
  threads : ∀ t, PayloadOk k s.shared (s.threads t)
  results : ∀ t, ∀ e ∈ (s.threads t).results, stripe e.1 = k → s.shared.Whole init e.1 e.2
  free : (∀ t, ¬ (s.threads t).pc.Holds k) → s.shared.lockArr k = s.shared.completed k
  held : ∀ t, (s.threads t).pc.Holds k → s.shared.lockArr k = s.shared.completed k + lockSet
  holder : ∀ t u, (s.threads t).pc.Holds k → (s.threads u).pc.Holds k → t = u
  settled : ∀ pos, stripe pos = k → (∀ t, (s.threads t).pc.holding ≠ some pos) →
    s.shared.Whole init pos (s.shared.payloads pos)

section Steps

variable {sh sh' : PayloadShared w W} {th th' : PayloadThread w W} {init : ℕ → Words w W}

theorem PayloadOk.congr (h : PayloadOk k sh th) (hlock : sh'.lockArr k = sh.lockArr k)
    (hpay : ∀ pos, stripe pos = k → sh'.payloads pos = sh.payloads pos)
    (hdone : sh'.completed k = sh.completed k) : PayloadOk k sh' th := by
  unfold PayloadOk at h ⊢
  cases hpc : th.pc with
  | copy pos n =>
    rw [hpc] at h
    intro hk
    rw [hlock, hpay pos hk, hdone]
    exact h hk
  | testChange pos =>
    rw [hpc] at h
    intro hk
    rw [hlock, hpay pos hk, hdone]
    exact h hk
  | lockCas pos val old =>
    rw [hpc] at h
    exact h
  | write pos val n =>
    rw [hpc] at h
    intro hk
    rw [hpay pos hk]
    exact h hk
  | releaseLoad pos val =>
    rw [hpc] at h
    intro hk
    rw [hpay pos hk]
    exact h hk
  | releaseStore pos val v =>
    rw [hpc] at h
    intro hk
    rw [hlock, hpay pos hk]
    exact h hk
  | next | testSet _ | lockLoad _ _ => trivial

/-- A holder's step does not touch what another thread relies on: the word is none that a
reader has kept. -/
theorem PayloadOk.changed (h : PayloadOk k sh th) (hfree : ¬ th.pc.Holds k)
    (hdone : sh.completed k ≤ sh'.completed k) (hlock : sh.completed k < sh'.lockArr k) :
    PayloadOk k sh' th := by
  unfold PayloadOk at h ⊢
  cases hpc : th.pc with
  | copy pos n =>
    rw [hpc] at h
    intro hk
    obtain ⟨hle, -⟩ := h hk
    -- the word is above the count that the reader has kept
    exact ⟨hle.trans hdone, fun heq => absurd (heq ▸ hlock) (not_lt.mpr hle)⟩
  | testChange pos =>
    rw [hpc] at h
    intro hk
    obtain ⟨hle, -⟩ := h hk
    exact ⟨hle.trans hdone, fun heq => absurd (heq ▸ hlock) (not_lt.mpr hle)⟩
  | lockCas pos val old =>
    rw [hpc] at h
    exact h
  | write pos val n | releaseLoad pos val | releaseStore pos val v =>
    exact fun hk => absurd ⟨pos, by rw [hpc]; rfl, hk⟩ hfree
  | next | testSet _ | lockLoad _ _ => trivial

/-- Nothing of the stripe has changed. -/
structure SameStripe (k : ℕ) (sh sh' : PayloadShared w W) : Prop where
  lock : sh'.lockArr k = sh.lockArr k
  payloads : ∀ pos, stripe pos = k → sh'.payloads pos = sh.payloads pos
  updates : ∀ e, stripe e.1 = k → (e ∈ sh'.updates ↔ e ∈ sh.updates)
  completed : sh'.completed k = sh.completed k

theorem SameStripe.refl (sh : PayloadShared w W) : SameStripe k sh sh :=
  ⟨rfl, fun _ _ => rfl, fun _ _ => Iff.rfl, rfl⟩

theorem SameStripe.whole (h : SameStripe k sh sh') {pos : ℕ} {p : Words w W}
    (hk : stripe pos = k) (hp : sh.Whole init pos p) : sh'.Whole init pos p :=
  hp.imp_right (h.updates (pos, p) hk).mpr

variable [Fintype ι] [DecidableEq ι] {s : PayloadSystem ι w W} {t : ι} {pos n old v : ℕ}
  {val : Words w W} {pc : PayloadPc w W}

omit [DecidableEq ι] in
theorem StripeInv.completed_le (h : StripeInv k total init s) : s.shared.completed k ≤ total := by
  rw [← h.total]
  exact Nat.le_add_right _ _

omit [DecidableEq ι] in
/-- Below the top bit the word is the count, and nobody holds the lock. -/
theorem StripeInv.not_holds (h : StripeInv k total init s) (hlow : s.shared.lockArr k < lockSet)
    (t : ι) : ¬ (s.threads t).pc.Holds k := by
  intro ht
  rw [h.held t ht] at hlow
  exact absurd hlow (by omega)

omit [DecidableEq ι] in
theorem StripeInv.lock_of_not_isSet (h : StripeInv k total init s) (htotal : total < lockSet)
    (hset : ¬ IsSet (s.shared.lockArr k)) : s.shared.lockArr k = s.shared.completed k := by
  apply h.free
  intro t ht
  have hle := h.completed_le
  rw [h.held t ht] at hset
  unfold IsSet lockSet at hset
  unfold lockSet at htotal
  omega

/-- A thread that keeps its task keeps what it has pending. -/
theorem pending_congr (hhits : th'.pc.hits k = th.pc.hits k) (htodo : th'.todo = th.todo) :
    th'.pending k = th.pending k := by
  rw [PayloadThread.pending, PayloadThread.pending, hhits, htodo]

/-- The pending UPDATEs follow the acting thread. -/
theorem StripeInv.total_update (h : StripeInv k total init s)
    (hth : sh'.completed k + th'.pending k = s.shared.completed k + (s.threads t).pending k) :
    sh'.completed k + ∑ u, (Function.update s.threads t th' u).pending k = total := by
  have hsum : ∑ u, (Function.update s.threads t th' u).pending k + (s.threads t).pending k =
      ∑ u, (s.threads u).pending k + th'.pending k :=
    System.sum_step (fun _ _ _ => (sh', th')) s t (PayloadThread.pending k)
  have htotal := h.total
  omega

omit [Fintype ι] in
/-- What the threads have read stays whole where nothing whole is lost. -/
theorem results_update
    (hwhole : ∀ u, u ≠ t → ∀ e ∈ (s.threads u).results, stripe e.1 = k → sh'.Whole init e.1 e.2)
    (hresults : ∀ e ∈ th'.results, stripe e.1 = k → sh'.Whole init e.1 e.2) (u : ι) :
    ∀ e ∈ (Function.update s.threads t th' u).results, stripe e.1 = k →
      sh'.Whole init e.1 e.2 :=
  (Function.forall_update_iff s.threads fun _ th =>
    ∀ e ∈ th.results, stripe e.1 = k → sh'.Whole init e.1 e.2).mpr ⟨hresults, hwhole⟩ u

/-- A step that leaves the stripe as it is. -/
theorem StripeInv.quiet (h : StripeInv k total init s) (hsame : SameStripe k s.shared sh')
    (hhold : ∀ pos, stripe pos = k →
      (th'.pc.holding = some pos ↔ (s.threads t).pc.holding = some pos))
    (hpending : th'.pending k = (s.threads t).pending k) (hok : PayloadOk k sh' th')
    (hresults : ∀ e ∈ th'.results, stripe e.1 = k → sh'.Whole init e.1 e.2) :
    StripeInv k total init ⟨sh', Function.update s.threads t th'⟩ := by
  have hholding : ∀ u pos, stripe pos = k →
      ((Function.update s.threads t th' u).pc.holding = some pos ↔
        (s.threads u).pc.holding = some pos) := by
    intro u pos hk
    rcases eq_or_ne u t with rfl | hne
    · rw [Function.update_self]
      exact hhold pos hk
    · rw [Function.update_of_ne hne]
  have hholds : ∀ u, (Function.update s.threads t th' u).pc.Holds k ↔
      (s.threads u).pc.Holds k :=
    fun u => exists_congr fun pos => and_congr_left fun hk => hholding u pos hk
  constructor
  case total => exact h.total_update (by rw [hsame.completed, hpending])
  case threads =>
    refine (Function.forall_update_iff s.threads fun _ th => PayloadOk k sh' th).mpr ⟨hok, ?_⟩
    exact fun u _ => (h.threads u).congr hsame.lock hsame.payloads hsame.completed
  case results =>
    apply results_update _ hresults
    exact fun u _ e he hk => hsame.whole hk (h.results u e he hk)
  case free =>
    intro hnone
    rw [hsame.lock, hsame.completed]
    exact h.free fun u hu => hnone u ((hholds u).mpr hu)
  case held =>
    intro u hu
    rw [hsame.lock, hsame.completed]
    exact h.held u ((hholds u).mp hu)
  case holder => exact fun u u' hu hu' => h.holder u u' ((hholds u).mp hu) ((hholds u').mp hu')
  case settled =>
    intro pos hk hnone
    rw [hsame.payloads pos hk]
    exact hsame.whole hk (h.settled pos hk fun u hu => hnone u ((hholding u pos hk).mpr hu))

/-- A holder's step: the others neither hold the lock nor have kept its word. -/
theorem StripeInv.threads_changed (h : StripeInv k total init s)
    (hfree : ∀ u ≠ t, ¬ (s.threads u).pc.Holds k)
    (hdone : s.shared.completed k ≤ sh'.completed k)
    (hlock : s.shared.completed k < sh'.lockArr k) (hok : PayloadOk k sh' th') (u : ι) :
    PayloadOk k sh' (Function.update s.threads t th' u) :=
  (Function.forall_update_iff s.threads fun _ th => PayloadOk k sh' th).mpr
    ⟨hok, fun u hne => (h.threads u).changed (hfree u hne) hdone hlock⟩ u

/-- A compare-and-swap that takes the lock. -/
theorem StripeInv.acquire (h : StripeInv k total init s)
    (hpc : (s.threads t).pc = .lockCas pos val old) (hk : stripe pos = k)
    (hold : s.shared.lockArr k = old) (hpc' : th'.pc = .write pos val 0)
    (htodo : th'.todo = (s.threads t).todo) (hresults : th'.results = (s.threads t).results) :
    StripeInv k total init
      ⟨{ s.shared with lockArr := Function.update s.shared.lockArr (stripe pos) (old + lockSet) },
        Function.update s.threads t th'⟩ := by
  have hlow : old < lockSet := by
    have hok := h.threads t
    rw [PayloadOk, hpc] at hok
    exact hok
  have hnone := h.not_holds (hold ▸ hlow)
  have hlock : Function.update s.shared.lockArr (stripe pos) (old + lockSet) k =
      s.shared.completed k + lockSet := by
    rw [hk, Function.update_self, ← hold, h.free hnone]
  have hholds : ∀ u, (Function.update s.threads t th' u).pc.Holds k → u = t := by
    intro u hu
    by_contra hne
    rw [Function.update_of_ne hne] at hu
    exact hnone u hu
  constructor
  case total =>
    have hpending : th'.pending k = (s.threads t).pending k :=
      pending_congr (by rw [hpc, hpc']; rfl) htodo
    exact h.total_update (congrArg _ hpending)
  case threads =>
    -- the word is now above every count that a reader can have kept
    apply h.threads_changed fun u _ => hnone u
    · exact le_rfl
    · change s.shared.completed k < Function.update s.shared.lockArr (stripe pos) (old + lockSet) k
      rw [hlock]
      exact Nat.lt_add_of_pos_right (by decide)
    · rw [PayloadOk, hpc']
      exact fun _ i hi => absurd hi (Nat.not_lt_zero _)
  case results =>
    apply results_update fun u _ => h.results u
    rw [hresults]
    exact h.results t
  case free =>
    intro hfree
    refine absurd ⟨pos, ?_, hk⟩ (hfree t)
    change (Function.update s.threads t th' t).pc.holding = some pos
    rw [Function.update_self, hpc']
    rfl
  case held => exact fun _ _ => hlock
  case holder => exact fun u u' hu hu' => (hholds u hu).trans (hholds u' hu').symm
  case settled =>
    -- nobody held the stripe before, so all its payloads were settled
    intro pos' hk' _
    exact h.settled pos' hk' fun u hu => hnone u ⟨pos', hu, hk'⟩

/-- A holder's write of a word. -/
theorem StripeInv.write (h : StripeInv k total init s)
    (hpc : (s.threads t).pc = .write pos val n) (hk : stripe pos = k) (hn : n < w)
    (hpc' : th'.pc = .write pos val (n + 1)) (htodo : th'.todo = (s.threads t).todo)
    (hresults : th'.results = (s.threads t).results) :
    StripeInv k total init
      ⟨{ s.shared with
          payloads := Function.update s.shared.payloads pos
            (Function.update (s.shared.payloads pos) ⟨n, hn⟩ (val ⟨n, hn⟩)) },
        Function.update s.threads t th'⟩ := by
  have ht : (s.threads t).pc.Holds k := ⟨pos, by rw [hpc]; rfl, hk⟩
  have hlock := h.held t ht
  have hholding : ∀ u, (Function.update s.threads t th' u).pc.holding =
      (s.threads u).pc.holding := by
    intro u
    rcases eq_or_ne u t with rfl | hne
    · rw [Function.update_self, hpc, hpc']
      rfl
    · rw [Function.update_of_ne hne]
  have hholds : ∀ u, (Function.update s.threads t th' u).pc.Holds k ↔
      (s.threads u).pc.Holds k :=
    fun u => exists_congr fun pos => by rw [hholding]
  constructor
  case total =>
    have hpending : th'.pending k = (s.threads t).pending k :=
      pending_congr (by rw [hpc, hpc']; rfl) htodo
    exact h.total_update (congrArg _ hpending)
  case threads =>
    apply h.threads_changed fun u hne hu => hne (h.holder u t hu ht)
    · exact le_rfl
    · change s.shared.completed k < s.shared.lockArr k
      rw [hlock]
      exact Nat.lt_add_of_pos_right (by decide)
    · have hok := h.threads t
      rw [PayloadOk, hpc] at hok
      rw [PayloadOk, hpc']
      intro _ i hi
      simp only [Function.update_self]
      -- the words written before, and the one written now
      rcases Nat.lt_succ_iff_lt_or_eq.mp hi with hlt | heq
      · rw [Function.update_of_ne fun he => hlt.ne (congrArg Fin.val he)]
        exact hok hk i hlt
      · obtain rfl : i = ⟨n, hn⟩ := Fin.ext heq
        rw [Function.update_self]
  case results =>
    apply results_update fun u _ => h.results u
    rw [hresults]
    exact h.results t
  case free => exact fun hfree => absurd ((hholds t).mpr ht) (hfree t)
  case held => exact fun _ _ => hlock
  case holder => exact fun u u' hu hu' => h.holder u u' ((hholds u).mp hu) ((hholds u').mp hu')
  case settled =>
    intro pos' hk' hnone
    -- the payload being written has a holder
    have hne : pos' ≠ pos := by
      rintro rfl
      exact hnone t (by rw [hholding, hpc]; rfl)
    change s.shared.Whole init pos' (Function.update s.shared.payloads pos _ pos')
    rw [Function.update_of_ne hne]
    exact h.settled pos' hk' fun u hu => hnone u ((hholding u).trans hu)

/-- The store that releases the lock. -/
theorem StripeInv.release (h : StripeInv k total init s) (htotal : total < lockSet)
    (hpc : (s.threads t).pc = .releaseStore pos val v) (hk : stripe pos = k)
    (hpc' : th'.pc = .next) (htodo : th'.todo = (s.threads t).todo)
    (hresults : th'.results = (s.threads t).results) :
    StripeInv k total init
      ⟨{ s.shared with
          lockArr := Function.update s.shared.lockArr (stripe pos)
            ((v + 1 + 2 ^ 32 - lockSet) % 2 ^ 32)
          updates := (pos, val) :: s.shared.updates },
        Function.update s.threads t th'⟩ := by
  have ht : (s.threads t).pc.Holds k := ⟨pos, by rw [hpc]; rfl, hk⟩
  have hothers : ∀ u ≠ t, ¬ (s.threads u).pc.Holds k := fun u hne hu => hne (h.holder u t hu ht)
  obtain ⟨hv, hval⟩ : v = s.shared.lockArr k ∧ s.shared.payloads pos = val := by
    have hok := h.threads t
    rw [PayloadOk, hpc] at hok
    exact hok hk
  set sh' : PayloadShared w W := { s.shared with
    lockArr := Function.update s.shared.lockArr (stripe pos) ((v + 1 + 2 ^ 32 - lockSet) % 2 ^ 32)
    updates := (pos, val) :: s.shared.updates } with hsh
  have hdone : sh'.completed k = s.shared.completed k + 1 :=
    List.countP_cons_of_pos (decide_eq_true hk)
  have hlock : sh'.lockArr k = sh'.completed k := by
    have hle := h.completed_le
    change Function.update s.shared.lockArr (stripe pos) _ k = _
    -- `v + 1 - lockSet`: the bit goes and the count rises, within the 32 bits
    rw [hk, Function.update_self, hdone, hv, h.held t ht]
    unfold lockSet at htotal ⊢
    omega
  have hwhole : ∀ pos p, s.shared.Whole init pos p → sh'.Whole init pos p :=
    fun pos p hp => hp.imp_right (List.mem_cons_of_mem _)
  have hnone : ∀ u, ¬ (Function.update s.threads t th' u).pc.Holds k := by
    refine (Function.forall_update_iff s.threads fun _ th => ¬ th.pc.Holds k).mpr ⟨?_, hothers⟩
    rintro ⟨pos', hholding, -⟩
    rw [hpc'] at hholding
    exact Option.some_ne_none _ hholding.symm
  constructor
  case total =>
    have hpending : th'.pending k + 1 = (s.threads t).pending k := by
      rw [PayloadThread.pending, PayloadThread.pending, hpc, hpc', htodo]
      simp only [PayloadPc.hits, if_pos hk]
      omega
    -- the UPDATE that was pending is now complete
    apply h.total_update
    rw [hdone]
    omega
  case threads =>
    apply h.threads_changed hothers
    · rw [hdone]
      exact Nat.le_succ _
    · rw [hlock, hdone]
      exact Nat.lt_succ_self _
    · rw [PayloadOk, hpc']
      trivial
  case results =>
    apply results_update fun u _ e he hk => hwhole _ _ (h.results u e he hk)
    rw [hresults]
    exact fun e he hk => hwhole _ _ (h.results t e he hk)
  case free => exact fun _ => hlock
  case held => exact fun u hu => absurd hu (hnone u)
  case holder => exact fun u _ hu _ => absurd hu (hnone u)
  case settled =>
    intro pos' hk' _
    -- the payload just written is the one of the new update; the others were settled
    rcases eq_or_ne pos' pos with rfl | hne
    · exact Or.inr (List.mem_cons.mpr (Or.inl (Prod.ext rfl hval)))
    · refine hwhole _ _ (h.settled pos' hk' fun u hu => ?_)
      obtain rfl := h.holder u t ⟨pos', hu, hk'⟩ ht
      rw [hpc] at hu
      exact hne (Option.some.inj hu).symm

/-- Writing to another stripe. -/
theorem SameStripe.of_lock {i : ℕ} (hne : k ≠ i) (word : ℕ) :
    SameStripe k sh { sh with lockArr := Function.update sh.lockArr i word } :=
  ⟨Function.update_of_ne hne _ _, fun _ _ => rfl, fun _ _ => Iff.rfl, rfl⟩

theorem SameStripe.of_payload (hne : stripe pos ≠ k) (p : Words w W) :
    SameStripe k sh { sh with payloads := Function.update sh.payloads pos p } :=
  ⟨rfl, fun _ hk => Function.update_of_ne (fun he => hne (by rwa [← he])) _ _,
    fun _ _ => Iff.rfl, rfl⟩

theorem SameStripe.of_update (hne : stripe pos ≠ k) (p : Words w W) :
    SameStripe k sh { sh with updates := (pos, p) :: sh.updates } := by
  refine ⟨rfl, fun _ _ => rfl, fun e hk => ⟨fun he => ?_, List.mem_cons_of_mem _⟩, ?_⟩
  · refine (List.mem_cons.mp he).resolve_left ?_
    rintro rfl
    exact hne hk
  · exact List.countP_cons_of_neg (by rwa [decide_eq_true_eq])

theorem SameStripe.trans {sh'' : PayloadShared w W} (h : SameStripe k sh sh')
    (h' : SameStripe k sh' sh'') : SameStripe k sh sh'' :=
  ⟨h'.lock.trans h.lock, fun pos hk => (h'.payloads pos hk).trans (h.payloads pos hk),
    fun e hk => (h'.updates e hk).trans (h.updates e hk), h'.completed.trans h.completed⟩

omit [Fintype ι] in
theorem payloadStep_eq (hact : payloadAct t s.shared (s.threads t) = (sh', th')) :
    payloadStep s t = ⟨sh', Function.update s.threads t th'⟩ := by
  rw [payloadStep, System.step, hact]

/-- A step that changes the thread alone. -/
theorem StripeInv.own (h : StripeInv k total init s)
    (hact : payloadAct t s.shared (s.threads t) = (s.shared, th'))
    (hhold : th'.pc.holding = (s.threads t).pc.holding)
    (hpending : th'.pending k = (s.threads t).pending k) (hok : PayloadOk k s.shared th')
    (hresults : ∀ e ∈ th'.results, stripe e.1 = k → s.shared.Whole init e.1 e.2) :
    StripeInv k total init (payloadStep s t) := by
  rw [payloadStep_eq hact]
  exact h.quiet (.refl _) (fun pos _ => by rw [hhold]) hpending hok hresults

theorem StripeInv.step_next (h : StripeInv k total init s) (hpc : (s.threads t).pc = .next) :
    StripeInv k total init (payloadStep s t) := by
  cases htodo : (s.threads t).todo with
  | nil =>
    have hact : payloadAct t s.shared (s.threads t) = (s.shared, s.threads t) := by
      simp only [payloadAct, hpc, htodo]
    rw [payloadStep, System.step_of_act_eq hact]
    exact h
  | cons op rest =>
    cases op with
    | get pos =>
      have hact : payloadAct t s.shared (s.threads t) =
          (s.shared, { s.threads t with pc := .testSet pos, todo := rest }) := by
        simp only [payloadAct, hpc, htodo]
      apply h.own hact (by rw [hpc]; rfl) ?_ trivial (h.results t)
      simp [PayloadThread.pending, hpc, htodo, PayloadPc.hits, PayloadOp.hits]
    | update pos val =>
      have hact : payloadAct t s.shared (s.threads t) =
          (s.shared, { s.threads t with pc := .lockLoad pos val, todo := rest }) := by
        simp only [payloadAct, hpc, htodo]
      apply h.own hact (by rw [hpc]; rfl) ?_ trivial (h.results t)
      simp [PayloadThread.pending, hpc, htodo, PayloadPc.hits, PayloadOp.hits]

/-- A step of a thread that goes on with its task and leaves what is shared. -/
theorem StripeInv.keep (h : StripeInv k total init s) (hpc : (s.threads t).pc = pc)
    (hact : payloadAct t s.shared (s.threads t) = (s.shared, th'))
    (hhold : th'.pc.holding = pc.holding) (hhits : th'.pc.hits k = pc.hits k)
    (htodo : th'.todo = (s.threads t).todo) (hok : PayloadOk k s.shared th')
    (hresults : ∀ e ∈ th'.results, stripe e.1 = k → s.shared.Whole init e.1 e.2) :
    StripeInv k total init (payloadStep s t) := by
  subst hpc
  exact h.own hact hhold (pending_congr hhits htodo) hok hresults

theorem StripeInv.step_testSet (h : StripeInv k total init s) (htotal : total < lockSet)
    (hpc : (s.threads t).pc = .testSet pos) : StripeInv k total init (payloadStep s t) := by
  by_cases hset : IsSet (s.shared.lockArr (stripe pos))
  · have hact : payloadAct t s.shared (s.threads t) =
        (s.shared, { s.threads t with version := s.shared.lockArr (stripe pos) }) := by
      simp only [payloadAct, hpc, if_pos hset]
    refine h.keep rfl hact rfl rfl rfl ?_ (h.results t)
    simp only [PayloadOk, hpc]
  · have hact : payloadAct t s.shared (s.threads t) =
        (s.shared, { s.threads t with
          version := s.shared.lockArr (stripe pos), pc := .copy pos 0 }) := by
      simp only [payloadAct, hpc, if_neg hset]
    refine h.keep hpc hact rfl rfl rfl ?_ (h.results t)
    -- an open word is the count of the updates so far
    rintro rfl
    exact ⟨(h.lock_of_not_isSet htotal hset).le, fun _ i hi => absurd hi (Nat.not_lt_zero _)⟩

theorem StripeInv.step_copy (h : StripeInv k total init s)
    (hpc : (s.threads t).pc = .copy pos n) : StripeInv k total init (payloadStep s t) := by
  have hok := h.threads t
  rw [PayloadOk, hpc] at hok
  by_cases hn : n < w
  · have hact : payloadAct t s.shared (s.threads t) =
        (s.shared, { s.threads t with
          ret := Function.update (s.threads t).ret ⟨n, hn⟩ (s.shared.payloads pos ⟨n, hn⟩)
          pc := .copy pos (n + 1) }) := by
      simp only [payloadAct, hpc, dif_pos hn]
    refine h.keep hpc hact rfl rfl rfl ?_ (h.results t)
    intro hk
    obtain ⟨hle, hcopied⟩ := hok hk
    refine ⟨hle, fun hword i hi => ?_⟩
    rcases Nat.lt_succ_iff_lt_or_eq.mp hi with hlt | heq
    · exact (Function.update_of_ne (fun he => hlt.ne (congrArg Fin.val he)) _ _).trans
        (hcopied hword i hlt)
    · obtain rfl : i = ⟨n, hn⟩ := Fin.ext heq
      exact Function.update_self _ _ _
  · have hact : payloadAct t s.shared (s.threads t) =
        (s.shared, { s.threads t with pc := .testChange pos }) := by
      simp only [payloadAct, hpc, dif_neg hn]
    refine h.keep hpc hact rfl rfl rfl ?_ (h.results t)
    intro hk
    obtain ⟨hle, hcopied⟩ := hok hk
    exact ⟨hle, fun hword => funext fun i =>
      hcopied hword i (i.isLt.trans_le (Nat.not_lt.mp hn))⟩

theorem StripeInv.step_testChange (h : StripeInv k total init s) (htotal : total < lockSet)
    (hpc : (s.threads t).pc = .testChange pos) : StripeInv k total init (payloadStep s t) := by
  have hok := h.threads t
  rw [PayloadOk, hpc] at hok
  by_cases hword : (s.threads t).version = s.shared.lockArr (stripe pos)
  · have hact : payloadAct t s.shared (s.threads t) =
        (s.shared, { s.threads t with
          pc := .next, results := (pos, (s.threads t).ret) :: (s.threads t).results }) := by
      simp only [payloadAct, hpc, ne_eq, hword, not_true_eq_false, if_false]
    refine h.keep hpc hact rfl rfl rfl trivial ?_
    intro e he hk
    rcases List.mem_cons.mp he with rfl | he
    · -- the word has not changed, so it is open and the payload is settled
      obtain ⟨hle, hcopy⟩ := hok hk
      have hword' : (s.threads t).version = s.shared.lockArr k := by
        rw [← hk]
        exact hword
      have hnone := h.not_holds (by
        rw [← hword']
        exact (hle.trans h.completed_le).trans_lt htotal)
      change s.shared.Whole init pos (s.threads t).ret
      rw [hcopy hword']
      exact h.settled pos hk fun u hu => hnone u ⟨pos, hu, hk⟩
    · exact h.results t e he hk
  · have hact : payloadAct t s.shared (s.threads t) =
        (s.shared, { s.threads t with pc := .testSet pos }) := by
      simp only [payloadAct, hpc, ne_eq, hword, not_false_eq_true, if_true]
    exact h.keep hpc hact rfl rfl rfl trivial (h.results t)

theorem StripeInv.step_lockLoad (h : StripeInv k total init s)
    (hpc : (s.threads t).pc = .lockLoad pos val) : StripeInv k total init (payloadStep s t) := by
  by_cases hset : IsSet (s.shared.lockArr (stripe pos))
  · have hact : payloadAct t s.shared (s.threads t) = (s.shared, s.threads t) := by
      simp only [payloadAct, hpc, if_pos hset]
    rw [payloadStep, System.step_of_act_eq hact]
    exact h
  · have hact : payloadAct t s.shared (s.threads t) =
        (s.shared, { s.threads t with
          pc := .lockCas pos val (s.shared.lockArr (stripe pos) % lockSet) }) := by
      simp only [payloadAct, hpc, if_neg hset]
    exact h.keep hpc hact rfl rfl rfl (Nat.mod_lt _ (by decide)) (h.results t)

theorem StripeInv.step_lockCas (h : StripeInv k total init s)
    (hpc : (s.threads t).pc = .lockCas pos val old) :
    StripeInv k total init (payloadStep s t) := by
  by_cases hold : s.shared.lockArr (stripe pos) = old
  · have hact : payloadAct t s.shared (s.threads t) =
        ({ s.shared with
          lockArr := Function.update s.shared.lockArr (stripe pos) (old + lockSet) },
          { s.threads t with pc := .write pos val 0 }) := by
      simp only [payloadAct, hpc, if_pos hold]
    rw [payloadStep_eq hact]
    by_cases hk : stripe pos = k
    · exact h.acquire hpc hk (hk ▸ hold) rfl rfl rfl
    · refine h.quiet (.of_lock (Ne.symm hk) _) (fun pos' hk' => ?_)
        (pending_congr (by rw [hpc]; rfl) rfl) (fun hk' => absurd hk' hk) (h.results t)
      -- the lock taken is that of another stripe
      rw [hpc]
      exact iff_of_false (fun he => hk (by rwa [Option.some.inj he]))
        fun he => Option.some_ne_none _ he.symm
  · have hact : payloadAct t s.shared (s.threads t) =
        (s.shared, { s.threads t with pc := .lockLoad pos val }) := by
      simp only [payloadAct, hpc, if_neg hold]
    exact h.keep hpc hact rfl rfl rfl trivial (h.results t)

theorem StripeInv.step_write (h : StripeInv k total init s)
    (hpc : (s.threads t).pc = .write pos val n) : StripeInv k total init (payloadStep s t) := by
  have hok := h.threads t
  rw [PayloadOk, hpc] at hok
  by_cases hn : n < w
  · have hact : payloadAct t s.shared (s.threads t) =
        ({ s.shared with
          payloads := Function.update s.shared.payloads pos
            (Function.update (s.shared.payloads pos) ⟨n, hn⟩ (val ⟨n, hn⟩)) },
          { s.threads t with pc := .write pos val (n + 1) }) := by
      simp only [payloadAct, hpc, dif_pos hn]
    rw [payloadStep_eq hact]
    by_cases hk : stripe pos = k
    · exact h.write hpc hk hn rfl rfl rfl
    · exact h.quiet (.of_payload hk _) (fun _ _ => by rw [hpc]; rfl)
        (pending_congr (by rw [hpc]; rfl) rfl) (fun hk' => absurd hk' hk) (h.results t)
  · have hact : payloadAct t s.shared (s.threads t) =
        (s.shared, { s.threads t with pc := .releaseLoad pos val }) := by
      simp only [payloadAct, hpc, dif_neg hn]
    refine h.keep hpc hact rfl rfl rfl ?_ (h.results t)
    exact fun hk => funext fun i => hok hk i (i.isLt.trans_le (Nat.not_lt.mp hn))

theorem StripeInv.step_releaseLoad (h : StripeInv k total init s)
    (hpc : (s.threads t).pc = .releaseLoad pos val) :
    StripeInv k total init (payloadStep s t) := by
  have hok := h.threads t
  rw [PayloadOk, hpc] at hok
  have hact : payloadAct t s.shared (s.threads t) =
      (s.shared, { s.threads t with
        pc := .releaseStore pos val (s.shared.lockArr (stripe pos)) }) := by
    simp only [payloadAct, hpc]
  refine h.keep hpc hact rfl rfl rfl ?_ (h.results t)
  exact fun hk => ⟨by rw [hk], hok hk⟩

theorem StripeInv.step_releaseStore (h : StripeInv k total init s) (htotal : total < lockSet)
    (hpc : (s.threads t).pc = .releaseStore pos val v) :
    StripeInv k total init (payloadStep s t) := by
  have hact : payloadAct t s.shared (s.threads t) =
      ({ s.shared with
        lockArr := Function.update s.shared.lockArr (stripe pos)
          ((v + 1 + 2 ^ 32 - lockSet) % 2 ^ 32)
        updates := (pos, val) :: s.shared.updates },
        { s.threads t with pc := .next }) := by
    simp only [payloadAct, hpc]
  rw [payloadStep_eq hact]
  by_cases hk : stripe pos = k
  · exact h.release htotal hpc hk rfl rfl rfl
  · have hsame : SameStripe k s.shared { s.shared with
        lockArr := Function.update s.shared.lockArr (stripe pos)
          ((v + 1 + 2 ^ 32 - lockSet) % 2 ^ 32)
        updates := (pos, val) :: s.shared.updates } :=
      (SameStripe.of_lock (Ne.symm hk) _).trans (.of_update hk val)
    refine h.quiet hsame (fun pos' hk' => ?_) ?_ trivial
      fun e he hk' => hsame.whole hk' (h.results t e he hk')
    · -- the lock given back is that of another stripe
      rw [hpc]
      exact iff_of_false (fun he => Option.some_ne_none _ he.symm)
        fun he => hk (by rwa [Option.some.inj he])
    · exact pending_congr (by rw [hpc]; exact (if_neg hk).symm) rfl

/-- Every step keeps the invariant of a stripe that has few enough UPDATEs. -/
theorem StripeInv.step (h : StripeInv k total init s) (htotal : total < lockSet) (t : ι) :
    StripeInv k total init (payloadStep s t) := by
  cases hpc : (s.threads t).pc with
  | next => exact h.step_next hpc
  | testSet pos => exact h.step_testSet htotal hpc
  | copy pos n => exact h.step_copy hpc
  | testChange pos => exact h.step_testChange htotal hpc
  | lockLoad pos val => exact h.step_lockLoad hpc
  | lockCas pos val old => exact h.step_lockCas hpc
  | write pos val n => exact h.step_write hpc
  | releaseLoad pos val => exact h.step_releaseLoad hpc
  | releaseStore pos val v => exact h.step_releaseStore htotal hpc

omit [DecidableEq ι] in
theorem stripeInv_start (k : ℕ) (init : ℕ → Words w W) (programs : ι → List (PayloadOp w W))
    (ret : ι → Words w W) :
    StripeInv k (∑ t, ((programs t).map (PayloadOp.hits k)).sum) init
      (payloadStart init programs ret) where
  total := by
    simp [payloadStart, PayloadShared.completed, PayloadThread.pending, PayloadPc.hits]
  threads _ := trivial
  results _ _ he := absurd he List.not_mem_nil
  free _ := rfl
  held t ht := by
    obtain ⟨pos, hpos, -⟩ := ht
    exact absurd hpos.symm (Option.some_ne_none pos)
  holder t _ ht _ := by
    obtain ⟨pos, hpos, -⟩ := ht
    exact absurd hpos.symm (Option.some_ne_none pos)
  settled _ _ _ := Or.inl rfl

end Steps

/-- However many threads run whatever tasks in whatever order of their steps: with fewer than
`2 ^ 31` UPDATEs on the stripe of a position, every GET of it that has left its loop copied the
payload it started with, or that of one complete UPDATE. -/
theorem get_untorn [Fintype ι] [DecidableEq ι] (init : ℕ → Words w W)
    (programs : ι → List (PayloadOp w W)) (ret : ι → Words w W) (sched : List ι) (t : ι)
    (pos : ℕ) (p : Words w W)
    (hfew : ∑ u, ((programs u).map (PayloadOp.hits (stripe pos))).sum < 2 ^ 31)
    (hgot : (pos, p) ∈
      ((run payloadStep (payloadStart init programs ret) sched).threads t).results) :
    p = init pos ∨ (pos, p) ∈
      (run payloadStep (payloadStart init programs ret) sched).shared.updates := by
  have hinv : StripeInv (stripe pos) _ init
      (run payloadStep (payloadStart init programs ret) sched) :=
    run_invariant (stripeInv_start (stripe pos) init programs ret)
      (fun s u hs => hs.step hfew u) sched
  exact hinv.results t _ hgot rfl

/-- A thread reads position 7 and another one overwrites it. -/
def readAndWrite (t : Fin 2) : List (PayloadOp 2 ℕ) :=
  if t = 0 then [.get 7] else [.update 7 fun _ => 1]

/-- The UPDATE comes between the two words of the GET, which starts again. -/
theorem get_untorn_interrupted :
    (fun _ => 1 : Words 2 ℕ) = (fun _ => 0) ∨ (7, fun _ => 1) ∈
      (run payloadStep (payloadStart (fun _ _ => 0) readAndWrite fun _ _ => 0)
        ([0, 0, 0] ++ List.replicate 8 1 ++ List.replicate 8 0)).shared.updates :=
  get_untorn (fun _ _ => 0) readAndWrite (fun _ _ => 0)
    ([0, 0, 0] ++ List.replicate 8 1 ++ List.replicate 8 0) 0 7 (fun _ => 1) (by decide)
    (by decide +kernel)

end PimLex
