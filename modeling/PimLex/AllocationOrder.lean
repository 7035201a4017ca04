import PimLex.AllocationTotal

/-!
# The order of the records while DPUs are handed out

The loops that take and give DPUs pick their partition by its place, so they rely
on the records being sorted by load. A record that loses a DPU moves in front of
the first lighter one, and the array stays sorted. For a record that gets one the
place of the first lighter record is counted before the record has left its own,
so it ends up behind that lighter one: the array stays sorted only where no
record behind is lighter.
-/

namespace PimLex

open Search

/-- Sorted as by `cmp_dpu_ratio`. -/
def ByLoad (recs : List (AccessRatio ℚ)) : Prop :=
  recs.Pairwise fun a b => b.perDpuRatio ≤ a.perDpuRatio

/-- A pass of the loop over `overflow_dpu_num`, on `min_available_off` and the records. -/
def shrinkPass (s : ℕ × List (AccessRatio ℚ)) : Except AllocFault (ℕ × List (AccessRatio ℚ)) := do
  let off ← lowerOff s.2 s.1
  let recs ← shrinkAt s.2 off
  .ok (off, recs)

/-- A pass of the loop over `less_dpu_num`, on `max_available_off` and the records. -/
def growPass (s : ℕ × List (AccessRatio ℚ)) : Except AllocFault (ℕ × List (AccessRatio ℚ)) := do
  let off ← raiseOff s.2 (nrPartition - s.1) s.1
  let recs ← growAt s.2 off
  .ok (off, recs)

/-- A loop after its first `n` passes. -/
def afterPasses {σ ε : Type} (pass : σ → Except ε σ) (s : σ) : ℕ → Except ε σ
  | 0 => .ok s
  | n + 1 => afterPasses pass s n >>= pass

/-- The first pass instead of the last taken off. -/
theorem afterPasses_succ {σ ε : Type} (pass : σ → Except ε σ) (s : σ) (n : ℕ) :
    afterPasses pass s (n + 1) = pass s >>= fun s => afterPasses pass s n := by
  induction n with
  | zero =>
    cases h : pass s <;> simp only [afterPasses] <;> exact h
  | succ n ih =>
    rw [afterPasses, ih]
    cases pass s <;> rfl

/-- The loop over `overflow_dpu_num` runs its passes. -/
theorem shrinkLoop_eq (n off : ℕ) (recs : List (AccessRatio ℚ)) :
    shrinkLoop n off recs = (afterPasses shrinkPass (off, recs) n).map Prod.snd := by
  induction n generalizing off recs with
  | zero => rfl
  | succ n ih =>
    rw [shrinkLoop, afterPasses_succ, shrinkPass]
    simp only
    cases lowerOff recs off with
    | error e => rfl
    | ok off' =>
      change (shrinkAt recs off' >>= _) = Except.map _ ((shrinkAt recs off' >>= _) >>= _)
      cases shrinkAt recs off' with
      | error e => rfl
      | ok recs' => exact ih off' recs'

/-- The loop over `less_dpu_num` runs its passes. -/
theorem growLoop_eq (n off : ℕ) (recs : List (AccessRatio ℚ)) :
    growLoop n off recs = (afterPasses growPass (off, recs) n).map Prod.snd := by
  induction n generalizing off recs with
  | zero => rfl
  | succ n ih =>
    rw [growLoop, afterPasses_succ, growPass]
    simp only
    cases raiseOff recs (nrPartition - off) off with
    | error e => rfl
    | ok off' =>
      change (growAt recs off' >>= _) = Except.map _ ((growAt recs off' >>= _) >>= _)
      cases growAt recs off' with
      | error e => rfl
      | ok recs' => exact ih off' recs'

/-- The record that a pass of the second loop gives a DPU. -/
def GivesTo (s : ℕ × List (AccessRatio ℚ)) (off : ℕ) (r : AccessRatio ℚ) : Prop :=
  raiseOff s.2 (nrPartition - s.1) s.1 = .ok off ∧ s.2[off]? = some r

/-- From `n` records given out the loops keep the records sorted in every pass, and every DPU
given goes to the largest load among the partitions with more than one DPU. -/
structure ServesHottest (nrDpus : ℕ) (recs : List (AccessRatio ℚ)) : Prop where
  shrink : ∀ n ≤ allocated recs - nrDpus,
    ∃ s, afterPasses shrinkPass (nrPartition - 1, recs) n = .ok s ∧ ByLoad s.2
  grow : ∀ n ≤ nrDpus - allocated recs,
    ∃ s, afterPasses growPass (0, recs) n = .ok s ∧ ByLoad s.2
  hottest : ∀ n < nrDpus - allocated recs,
    ∃ s off r, afterPasses growPass (0, recs) n = .ok s ∧ GivesTo s off r ∧
      ∀ q ∈ s.2, 1 < q.numDpuPerPartition → q.perDpuRatio ≤ r.perDpuRatio

/-- No record behind `off` is lighter than `r` with one DPU more. -/
def NoLighterBehind (recs : List (AccessRatio ℚ)) (off : ℕ) (r : AccessRatio ℚ) : Prop :=
  ∀ q ∈ recs.drop (off + 1), (r.setNum (r.numDpuPerPartition + 1)).perDpuRatio ≤ q.perDpuRatio

/-- Every pass that gives a DPU finds no lighter record behind. -/
def GrowsToEnd (nrDpus : ℕ) (recs : List (AccessRatio ℚ)) : Prop :=
  ∀ n < nrDpus - allocated recs, ∀ s off r, afterPasses growPass (0, recs) n = .ok s →
    GivesTo s off r → NoLighterBehind s.2 off r

section Decide

instance (recs : List (AccessRatio ℚ)) (off : ℕ) (r : AccessRatio ℚ) :
    Decidable (NoLighterBehind recs off r) :=
  inferInstanceAs (Decidable (∀ q ∈ recs.drop (off + 1), _))

/-- Whether the next `n` passes find no lighter record behind. -/
def endsPasses : ℕ → ℕ × List (AccessRatio ℚ) → Bool
  | 0, _ => true
  | n + 1, s =>
    (match raiseOff s.2 (nrPartition - s.1) s.1 with
      | .ok off => s.2[off]?.all fun r => decide (NoLighterBehind s.2 off r)
      | .error _ => true) &&
    match growPass s with
      | .ok s' => endsPasses n s'
      | .error _ => true

theorem endsPasses_iff (n : ℕ) (s : ℕ × List (AccessRatio ℚ)) :
    endsPasses n s = true ↔ ∀ m < n, ∀ s' off r, afterPasses growPass s m = .ok s' →
      GivesTo s' off r → NoLighterBehind s'.2 off r := by
  induction n generalizing s with
  | zero => exact iff_of_true rfl fun m hm => absurd hm (Nat.not_lt_zero m)
  | succ n ih =>
    -- the pass that comes now, and those behind it
    have hfirst : (match raiseOff s.2 (nrPartition - s.1) s.1 with
        | .ok off => s.2[off]?.all fun r => decide (NoLighterBehind s.2 off r)
        | .error _ => true) = true ↔
        ∀ off r, GivesTo s off r → NoLighterBehind s.2 off r := by
      simp only [GivesTo]
      cases raiseOff s.2 (nrPartition - s.1) s.1 with
      | error e => simp
      | ok off =>
        rw [Option.all_eq_true]
        constructor
        · rintro h off' r ⟨hoff, hr⟩
          obtain rfl := Except.ok.inj hoff
          exact of_decide_eq_true (h r hr)
        · exact fun h r hr => decide_eq_true (h off r ⟨rfl, hr⟩)
    have hrest : (match growPass s with
        | .ok s' => endsPasses n s'
        | .error _ => true) = true ↔
        ∀ m < n, ∀ s' off r, afterPasses growPass s (m + 1) = .ok s' →
          GivesTo s' off r → NoLighterBehind s'.2 off r := by
      simp only [afterPasses_succ]
      cases growPass s with
      | error e => exact iff_of_true rfl fun m _ s' off r hrun => by cases hrun
      | ok s₁ => exact ih s₁
    rw [endsPasses, Bool.and_eq_true, hfirst, hrest]
    constructor
    · rintro ⟨hnow, hlater⟩ m hm s' off r hrun hgives
      cases m with
      | zero =>
        obtain rfl := Except.ok.inj hrun
        exact hnow off r hgives
      | succ m => exact hlater m (Nat.lt_of_succ_lt_succ hm) s' off r hrun hgives
    · intro h
      exact ⟨fun off r => h 0 (Nat.succ_pos n) s off r rfl,
        fun m hm => h (m + 1) (Nat.succ_lt_succ hm)⟩

instance (nrDpus : ℕ) (recs : List (AccessRatio ℚ)) : Decidable (GrowsToEnd nrDpus recs) :=
  decidable_of_iff _ (endsPasses_iff (nrDpus - allocated recs) (0, recs))

end Decide

section Places

variable {R : Type} [LinearOrder R] {recs : List (AccessRatio R)} {r q : AccessRatio R} {off k : ℕ}

theorem lighterAt_eq (hq : recs[k]? = some q) :
    lighterAt recs r k = decide (q.perDpuRatio < r.perDpuRatio) := by
  rw [lighterAt, hq, Option.any_some]

theorem exists_of_lighterAt (h : lighterAt recs r k = true) :
    ∃ q, recs[k]? = some q ∧ q.perDpuRatio < r.perDpuRatio := by
  cases hq : recs[k]? with
  | none => rw [lighterAt, hq] at h; exact absurd h Bool.false_ne_true
  | some q => exact ⟨q, rfl, of_decide_eq_true (lighterAt_eq hq ▸ h)⟩

theorem le_of_not_lighterAt (h : lighterAt recs r k = false) (hq : recs[k]? = some q) :
    r.perDpuRatio ≤ q.perDpuRatio := by
  rw [lighterAt_eq hq] at h
  exact not_lt.mp (of_decide_eq_false h)

/-- Where the search in front of `off` ends. -/
theorem firstLighter_spec (recs : List (AccessRatio R)) (r : AccessRatio R) (off : ℕ) :
    ∃ k, ((List.range off).find? (lighterAt recs r)).getD off = k ∧ k ≤ off ∧
      (∀ i < k, lighterAt recs r i = false) ∧ (k < off → lighterAt recs r k = true) := by
  cases hfind : (List.range off).find? (lighterAt recs r) with
  | none =>
    rw [List.find?_range_eq_none] at hfind
    exact ⟨off, rfl, le_rfl, fun i hi => by simpa using hfind i hi, fun h => absurd h (lt_irrefl _)⟩
  | some k =>
    obtain ⟨hk, hmem, hbefore⟩ := List.find?_range_eq_some.mp hfind
    exact ⟨k, rfl, (List.mem_range.mp hmem).le, fun i hi => by simpa using hbefore i hi,
      fun _ => hk⟩

variable [Div R] [NatCast R]

theorem shrinkAt_eq (hr : recs[off]? = some r) (hlarge : 1 < r.numDpuPerPartition) :
    shrinkAt recs off = .ok (moveTo recs off (((List.range off).find?
      (lighterAt recs (r.setNum (r.numDpuPerPartition - 1)))).getD off)
      (r.setNum (r.numDpuPerPartition - 1))) := by
  rw [shrinkAt, record_eq_ok hr]
  exact if_neg (Nat.not_le.mpr hlarge)

theorem growAt_eq (hr : recs[off]? = some r) :
    growAt recs off = .ok (moveTo recs off (((List.range' off (nrPartition - off)).find?
      (lighterAt (recs.set off (r.setNum (r.numDpuPerPartition + 1)))
        (r.setNum (r.numDpuPerPartition + 1)))).getD (nrPartition - 1))
      (r.setNum (r.numDpuPerPartition + 1))) := by
  rw [growAt, record_eq_ok hr]
  rfl

end Places

variable {recs recs' : List (AccessRatio ℚ)} {r q : AccessRatio ℚ} {off k n : ℕ}

section Loads

/-- The load of a record is its share by its DPUs. -/
def Loaded (recs : List (AccessRatio ℚ)) : Prop :=
  ∀ r ∈ recs, 0 ≤ r.partitionRatio ∧ r.perDpuRatio = r.partitionRatio / r.numDpuPerPartition

theorem setNum_le_of_le {m : ℕ} (hr : 0 ≤ r.partitionRatio) (hm : 0 < m) (hmn : m ≤ n) :
    (r.setNum n).perDpuRatio ≤ (r.setNum m).perDpuRatio :=
  div_le_div_of_nonneg_left hr (by exact_mod_cast hm) (by exact_mod_cast hmn)

theorem Loaded.setNum (h : Loaded recs) (hr : r ∈ recs) :
    r.setNum r.numDpuPerPartition = r := by
  rw [AccessRatio.setNum, ← (h r hr).2]

theorem ByLoad.le (h : ByLoad recs) {i j : ℕ} (hij : i < j) (hr : recs[i]? = some r)
    (hq : recs[j]? = some q) : q.perDpuRatio ≤ r.perDpuRatio := by
  obtain ⟨hi, rfl⟩ := List.getElem?_eq_some_iff.mp hr
  obtain ⟨hj, rfl⟩ := List.getElem?_eq_some_iff.mp hq
  exact List.pairwise_iff_getElem.mp h i j hi hj hij

end Loads

section Move

/-- What is left from a place on, without the record at `off`. -/
theorem exists_of_mem_drop_eraseIdx (h : q ∈ (recs.eraseIdx off).drop k) :
    ∃ i, k ≤ i ∧ i ≠ off ∧ recs[i]? = some q := by
  obtain ⟨m, hm⟩ := List.mem_iff_getElem?.mp h
  rw [List.getElem?_drop, List.getElem?_eraseIdx] at hm
  split at hm
  · exact ⟨k + m, Nat.le_add_right k m, by omega, hm⟩
  · exact ⟨k + m + 1, by omega, by omega, hm⟩

theorem byLoad_moveTo_iff (h : ByLoad recs) (hoff : off < recs.length) (hk : k < recs.length) :
    ByLoad (moveTo recs off k r) ↔
      (∀ a ∈ (recs.eraseIdx off).take k, r.perDpuRatio ≤ a.perDpuRatio) ∧
        ∀ b ∈ (recs.eraseIdx off).drop k, b.perDpuRatio ≤ r.perDpuRatio :=
  Search.pairwise_insertIdx_iff (h.sublist (List.eraseIdx_sublist recs off))
    (by rw [List.length_eraseIdx_of_lt hoff]; omega)

end Move

section Shrink

/-- A record that loses a DPU is put back in order. -/
theorem ByLoad.shrinkAt (h : ByLoad recs) (hload : Loaded recs) (hr : recs[off]? = some r)
    (hlarge : 1 < r.numDpuPerPartition) (hshrink : shrinkAt recs off = .ok recs') :
    ByLoad recs' := by
  have hoff := (List.getElem?_eq_some_iff.mp hr).1
  have hmem := List.mem_of_getElem? hr
  rw [shrinkAt_eq hr hlarge, Except.ok.injEq] at hshrink
  set r' := r.setNum (r.numDpuPerPartition - 1)
  -- the record becomes heavier, so those behind it stay lighter
  have hheavier : r.perDpuRatio ≤ r'.perDpuRatio := by
    have hle := setNum_le_of_le (hload r hmem).1 (Nat.sub_pos_of_lt hlarge)
      (Nat.sub_le r.numDpuPerPartition 1)
    rwa [hload.setNum hmem] at hle
  obtain ⟨k, hfind, hk, hbefore, hlighter⟩ := firstLighter_spec recs r' off
  rw [hfind] at hshrink
  subst hshrink
  rw [byLoad_moveTo_iff h hoff (hk.trans_lt hoff), List.take_eraseIdx_eq_take_of_le _ _ _ hk]
  constructor
  · intro a ha
    obtain ⟨i, hi⟩ := List.mem_iff_getElem?.mp ha
    rw [List.getElem?_take] at hi
    split at hi
    · exact le_of_not_lighterAt (hbefore i ‹_›) hi
    · exact absurd hi.symm (Option.some_ne_none a)
  · intro b hb
    obtain ⟨i, hki, hne, hi⟩ := exists_of_mem_drop_eraseIdx hb
    rcases lt_or_gt_of_ne hne with hlt | hgt
    · obtain ⟨q, hq, hqr⟩ := exists_of_lighterAt (hlighter (hki.trans_lt hlt))
      rcases hki.eq_or_lt with rfl | hki
      · rw [hq, Option.some.injEq] at hi
        exact hi ▸ hqr.le
      · exact (h.le hki hq hi).trans hqr.le
    · exact (h.le hgt hr hi).trans hheavier

end Shrink

section Grow

theorem mem_drop_succ_iff : q ∈ recs.drop (off + 1) ↔ ∃ i, off < i ∧ recs[i]? = some q := by
  rw [List.mem_iff_getElem?]
  simp only [List.getElem?_drop]
  constructor
  · rintro ⟨m, hm⟩
    exact ⟨off + 1 + m, by omega, hm⟩
  · rintro ⟨i, hi, hq⟩
    exact ⟨i - (off + 1), by rwa [Nat.add_sub_cancel' hi]⟩

/-- At the end a lighter record is in order if those behind its place are no lighter. -/
theorem ByLoad.moveTo_last {r' : AccessRatio ℚ} (h : ByLoad recs) (hlen : recs.length = nrPartition)
    (hr : recs[off]? = some r) (hlighter : r'.perDpuRatio ≤ r.perDpuRatio)
    (hbehind : ∀ q ∈ recs.drop (off + 1), r'.perDpuRatio ≤ q.perDpuRatio) :
    ByLoad (moveTo recs off (nrPartition - 1) r') := by
  have hoff := (List.getElem?_eq_some_iff.mp hr).1
  rw [byLoad_moveTo_iff h hoff (by rw [hlen]; decide)]
  constructor
  · intro a ha
    obtain ⟨i, hne, hi⟩ := List.mem_eraseIdx_iff_getElem?.mp (List.mem_of_mem_take ha)
    rcases lt_or_gt_of_ne hne with hlt | hgt
    · exact hlighter.trans (h.le hlt hi hr)
    · exact hbehind a (mem_drop_succ_iff.mpr ⟨i, hgt, hi⟩)
  · intro b hb
    rw [List.drop_eq_nil_of_le (by rw [List.length_eraseIdx_of_lt hoff, hlen])] at hb
    exact absurd hb List.not_mem_nil

/-- Put where a lighter record was behind its place, a record is out of order. -/
theorem ByLoad.not_moveTo {r' : AccessRatio ℚ} (h : ByLoad recs) (hlt : off < k)
    (hq : recs[k]? = some q) (hqr : q.perDpuRatio < r'.perDpuRatio) :
    ¬ ByLoad (moveTo recs off k r') := by
  have hk := (List.getElem?_eq_some_iff.mp hq).1
  intro hsorted
  have hfront := ((byLoad_moveTo_iff h (hlt.trans hk) hk).mp hsorted).1
  have hqmem : q ∈ (recs.eraseIdx off).take k := by
    refine List.mem_iff_getElem?.mpr ⟨k - 1, ?_⟩
    rw [List.getElem?_take_of_lt (by omega), List.getElem?_eraseIdx_of_ge (by omega),
      Nat.sub_add_cancel (by omega), hq]
  exact absurd (hfront q hqmem) (not_le.mpr hqr)

/-- A record that gets a DPU is put back in order exactly if none behind is lighter. -/
theorem ByLoad.growAt_iff (h : ByLoad recs) (hload : Loaded recs) (hlen : recs.length = nrPartition)
    (hr : recs[off]? = some r) (hpos : 0 < r.numDpuPerPartition)
    (hgrow : growAt recs off = .ok recs') : ByLoad recs' ↔ NoLighterBehind recs off r := by
  have hoff := (List.getElem?_eq_some_iff.mp hr).1
  have hmem := List.mem_of_getElem? hr
  rw [growAt_eq hr, Except.ok.injEq] at hgrow
  rw [NoLighterBehind]
  set r' := r.setNum (r.numDpuPerPartition + 1)
  -- the record becomes lighter, so those in front stay heavier
  have hlighter : r'.perDpuRatio ≤ r.perDpuRatio := by
    have hle := setNum_le_of_le (hload r hmem).1 hpos r.numDpuPerPartition.le_succ
    rwa [hload.setNum hmem] at hle
  have hset : ∀ i, off < i → (recs.set off r')[i]? = recs[i]? :=
    fun i hi => List.getElem?_set_ne hi.ne
  cases hfind : (List.range' off (nrPartition - off)).find? (lighterAt (recs.set off r') r') with
  | none =>
    -- no record behind is lighter, and the record goes to the end
    rw [hfind, Option.getD_none] at hgrow
    subst hgrow
    rw [List.find?_range'_eq_none] at hfind
    have hbehind : ∀ q ∈ recs.drop (off + 1), r'.perDpuRatio ≤ q.perDpuRatio := by
      intro q hq
      obtain ⟨i, hi, hqi⟩ := mem_drop_succ_iff.mp hq
      have hilt := (List.getElem?_eq_some_iff.mp hqi).1
      have hnot := hfind i hi.le (by omega)
      exact le_of_not_lighterAt (by simpa using hnot) ((hset i hi).trans hqi)
    exact iff_of_true (h.moveTo_last hlen hr hlighter hbehind) hbehind
  | some k =>
    -- the record lands behind the first lighter one
    rw [hfind, Option.getD_some] at hgrow
    subst hgrow
    obtain ⟨hk, hkmem, -⟩ := List.find?_range'_eq_some.mp hfind
    obtain ⟨q, hq, hqr⟩ := exists_of_lighterAt hk
    have hlt : off < k := by
      refine (List.mem_range'_1.mp hkmem).1.lt_of_ne fun heq => ?_
      rw [← heq, List.getElem?_set_self hoff, Option.some.injEq] at hq
      exact absurd hqr (hq ▸ lt_irrefl _)
    rw [hset k hlt] at hq
    exact iff_of_false (h.not_moveTo hlt hq hqr) fun hnone =>
      absurd (hnone q (mem_drop_succ_iff.mpr ⟨k, hlt, hq⟩)) (not_le.mpr hqr)

end Grow

section Passes

variable {s s' : ℕ × List (AccessRatio ℚ)} {nrDpus : ℕ}

/-- A record with another count is put where it may. -/
theorem Loaded.moveTo (h : Loaded recs) (hr : recs[off]? = some r) (hk : k < recs.length) (m : ℕ) :
    Loaded (moveTo recs off k (r.setNum m)) := by
  intro q hq
  rcases List.mem_cons.mp ((perm_moveTo hr hk).subset hq) with rfl | hq
  · exact ⟨(h r (List.mem_of_getElem? hr)).1, rfl⟩
  · exact h q (List.mem_of_mem_eraseIdx hq)

theorem Loaded.shrinkAt (h : Loaded recs) (hr : recs[off]? = some r)
    (hlarge : 1 < r.numDpuPerPartition) (hshrink : shrinkAt recs off = .ok recs') :
    Loaded recs' := by
  obtain ⟨k, hfind, hk, -⟩ := firstLighter_spec recs (r.setNum (r.numDpuPerPartition - 1)) off
  rw [shrinkAt_eq hr hlarge, hfind, Except.ok.injEq] at hshrink
  exact hshrink ▸ h.moveTo hr (hk.trans_lt (List.getElem?_eq_some_iff.mp hr).1) _

theorem Loaded.growAt (h : Loaded recs) (hlen : recs.length = nrPartition)
    (hr : recs[off]? = some r) (hgrow : growAt recs off = .ok recs') : Loaded recs' := by
  rw [growAt_eq hr, Except.ok.injEq] at hgrow
  have hoff := (List.getElem?_eq_some_iff.mp hr).1
  refine hgrow ▸ h.moveTo hr ?_ _
  rw [hlen] at hoff ⊢
  exact (growPlace_mem _ hoff).2

/-- A loop that takes DPUs, with `n` given out. -/
structure ShrinkState (s : ℕ × List (AccessRatio ℚ)) (n : ℕ) : Prop where
  alloc : Allocated s.2 n
  lt : s.1 < nrPartition
  ones : OnesBehind s.2 s.1
  load : Loaded s.2
  sorted : ByLoad s.2

theorem ShrinkState.step (h : ShrinkState s (n + 1)) (hn : nrPartition ≤ n) :
    ∃ s', shrinkPass s = .ok s' ∧ ShrinkState s' n := by
  obtain ⟨off, r, recs, hlower, hoff, hr, hlarge, hshrink, halloc, hones⟩ :=
    h.alloc.shrinkPass hn h.lt h.ones
  refine ⟨(off, recs), ?_, halloc, hoff, hones, h.load.shrinkAt hr hlarge hshrink,
    h.sorted.shrinkAt h.load hr hlarge hshrink⟩
  rw [PimLex.shrinkPass, hlower]
  change (shrinkAt s.2 off >>= _) = _
  rw [hshrink]
  rfl

theorem ShrinkState.run (h : ShrinkState s n) (m : ℕ) (hm : nrPartition + m ≤ n) :
    ∃ s', afterPasses shrinkPass s m = .ok s' ∧ ShrinkState s' (n - m) := by
  induction m with
  | zero => exact ⟨s, rfl, h⟩
  | succ m ih =>
    obtain ⟨s₁, hrun, hs₁⟩ := ih (by omega)
    have hleft : n - m = n - (m + 1) + 1 := by omega
    rw [hleft] at hs₁
    obtain ⟨s₂, hpass, hs₂⟩ := hs₁.step (by omega)
    refine ⟨s₂, ?_, hs₂⟩
    rw [afterPasses, hrun]
    exact hpass

/-- A loop that gives DPUs, with `n` given out. -/
structure GrowState (s : ℕ × List (AccessRatio ℚ)) (n : ℕ) : Prop where
  alloc : Allocated s.2 n
  ones : OnesBefore s.2 s.1
  large : ∃ (i : ℕ) (r : AccessRatio ℚ), s.2[i]? = some r ∧ 1 < r.numDpuPerPartition
  load : Loaded s.2

/-- What a pass that gives a DPU does to the order. -/
structure GrowStep (s s' : ℕ × List (AccessRatio ℚ)) (off : ℕ) (r : AccessRatio ℚ) : Prop where
  grows : GivesTo s off r
  pass : growPass s = .ok s'
  large : 1 < r.numDpuPerPartition
  sorted : ByLoad s.2 → (ByLoad s'.2 ↔ NoLighterBehind s.2 off r)
  hottest : ByLoad s.2 → ∀ q ∈ s.2, 1 < q.numDpuPerPartition → q.perDpuRatio ≤ r.perDpuRatio

theorem GrowState.step (h : GrowState s n) :
    ∃ off r s', GrowStep s s' off r ∧ GrowState s' (n + 1) := by
  obtain ⟨off, r, recs, hraise, hr, hlarge, hbefore, hgrow, halloc, hones⟩ :=
    h.alloc.growPass h.ones h.large
  have hpass : growPass s = .ok (off, recs) := by
    rw [PimLex.growPass, hraise]
    change (growAt s.2 off >>= _) = _
    rw [hgrow]
    rfl
  have hlen := h.alloc.length
  refine ⟨off, r, (off, recs), ⟨⟨hraise, hr⟩, hpass, hlarge, fun hsorted => ?_,
    fun hsorted q hq hnum => ?_⟩,
    halloc, hones, halloc.exists_large (Nat.lt_succ_of_le h.alloc.le),
    h.load.growAt hlen hr hgrow⟩
  · exact hsorted.growAt_iff h.load hlen hr (Nat.zero_lt_of_lt hlarge) hgrow
  · -- in front of the place there are only counts of one
    obtain ⟨i, hi⟩ := List.mem_iff_getElem?.mp hq
    have hle : off ≤ i := by
      by_contra hlt
      rw [hbefore i q (not_le.mp hlt) hi] at hnum
      exact absurd hnum (lt_irrefl 1)
    rcases hle.eq_or_lt with rfl | hlt
    · rw [hr, Option.some.injEq] at hi
      exact hi ▸ le_rfl
    · exact hsorted.le hlt hr hi

theorem GrowState.run (h : GrowState s n) (m : ℕ) :
    ∃ s', afterPasses growPass s m = .ok s' ∧ GrowState s' (n + m) := by
  induction m with
  | zero => exact ⟨s, rfl, h⟩
  | succ m ih =>
    obtain ⟨s₁, hrun, hs₁⟩ := ih
    obtain ⟨off, r, s₂, hstep, hs₂⟩ := hs₁.step
    refine ⟨s₂, ?_, hs₂⟩
    rw [afterPasses, hrun]
    exact hstep.pass

theorem GrowStep.unique {s₁ s₂ : ℕ × List (AccessRatio ℚ)} {off₁ : ℕ} {r₁ : AccessRatio ℚ}
    (h : GrowStep s₁ s₂ off₁ r₁) (hgives : GivesTo s₁ off r) : off = off₁ ∧ r = r₁ := by
  have hoff : off = off₁ := Except.ok.inj (hgives.1.symm.trans h.grows.1)
  subst hoff
  exact ⟨rfl, Option.some.inj (hgives.2.symm.trans h.grows.2)⟩

/-- Every pass of the loop that gives DPUs runs. -/
theorem GrowState.exists_step (h : GrowState s n) (m : ℕ) :
    ∃ s₁ off r s₂, afterPasses growPass s m = .ok s₁ ∧ GrowStep s₁ s₂ off r ∧
      afterPasses growPass s (m + 1) = .ok s₂ := by
  obtain ⟨s₁, hrun, hs₁⟩ := h.run m
  obtain ⟨off, r, s₂, hstep, -⟩ := hs₁.step
  refine ⟨s₁, off, r, s₂, hrun, hstep, ?_⟩
  rw [afterPasses, hrun]
  exact hstep.pass

/-- The loop that takes DPUs keeps the records sorted. -/
theorem ByLoad.shrinkLoop (hsorted : ByLoad recs) (hload : Loaded recs) (h : Allocated recs n)
    (hle : nrPartition ≤ nrDpus) {m : ℕ} (hm : m ≤ n - nrDpus) :
    ∃ s, afterPasses shrinkPass (nrPartition - 1, recs) m = .ok s ∧ ByLoad s.2 := by
  have hstart : ShrinkState (nrPartition - 1, recs) n :=
    ⟨h, Nat.sub_lt (Nat.succ_pos _) Nat.one_pos, onesBehind_last h.length, hload, hsorted⟩
  rcases Nat.eq_zero_or_pos m with rfl | hpos
  · exact ⟨_, rfl, hsorted⟩
  · obtain ⟨s, hrun, hs⟩ := hstart.run m (by omega)
    exact ⟨s, hrun, hs.sorted⟩

/-- The loop that gives DPUs keeps the records sorted if it finds no lighter record behind. -/
theorem GrowState.sorted_of_ends (h : GrowState (0, recs) n) (hsorted : ByLoad recs)
    (hends : GrowsToEnd nrDpus recs) {m : ℕ} (hm : m ≤ nrDpus - allocated recs) :
    ∃ s, afterPasses growPass (0, recs) m = .ok s ∧ ByLoad s.2 := by
  induction m with
  | zero => exact ⟨_, rfl, hsorted⟩
  | succ m ih =>
    obtain ⟨s, hrun, hs⟩ := ih (Nat.le_of_succ_le hm)
    obtain ⟨s₁, off, r, s₂, hrun₁, hstep, hrun₂⟩ := h.exists_step m
    rw [hrun₁, Except.ok.injEq] at hrun
    subst hrun
    exact ⟨s₂, hrun₂, (hstep.sorted hs).mpr (hends m hm s₁ off r hrun₁ hstep.grows)⟩

/-- With sorted records the loops keep them sorted exactly if no DPU is given in front of a
lighter record. -/
theorem servesHottest_iff (h : Allocated recs n) (hload : Loaded recs) (hsorted : ByLoad recs)
    (hle : nrPartition ≤ nrDpus) (hlarge : n < nrDpus →
      ∃ (i : ℕ) (r : AccessRatio ℚ), recs[i]? = some r ∧ 1 < r.numDpuPerPartition) :
    ServesHottest nrDpus recs ↔ GrowsToEnd nrDpus recs := by
  obtain rfl := h.sum
  have hstart : ∀ m < nrDpus - allocated recs, GrowState (0, recs) (allocated recs) :=
    fun m hm => ⟨h, fun i r hi => absurd hi (Nat.not_lt_zero i), hlarge (by omega), hload⟩
  constructor
  · intro hserves m hm s off r hrun hgives
    obtain ⟨s₁, off₁, r₁, s₂, hrun₁, hstep, hrun₂⟩ := (hstart m hm).exists_step m
    obtain ⟨s₁', hrun₁', hsorted₁⟩ := hserves.grow m hm.le
    obtain ⟨s₂', hrun₂', hsorted₂⟩ := hserves.grow (m + 1) hm
    rw [hrun₁, Except.ok.injEq] at hrun hrun₁'
    rw [hrun₂, Except.ok.injEq] at hrun₂'
    subst hrun hrun₁' hrun₂'
    -- the pass is determined by the state before it
    obtain ⟨rfl, rfl⟩ := hstep.unique hgives
    exact (hstep.sorted hsorted₁).mp hsorted₂
  · intro hends
    have hgrow : ∀ m ≤ nrDpus - allocated recs,
        ∃ s, afterPasses growPass (0, recs) m = .ok s ∧ ByLoad s.2 := by
      intro m hm
      rcases Nat.eq_zero_or_pos m with rfl | hpos
      · exact ⟨_, rfl, hsorted⟩
      · exact (hstart 0 (hpos.trans_le hm)).sorted_of_ends hsorted hends hm
    refine ⟨fun m hm => hsorted.shrinkLoop hload h hle hm, hgrow, fun m hm => ?_⟩
    obtain ⟨s, hrun, hs⟩ := hgrow m hm.le
    obtain ⟨s₁, off, r, s₂, hrun₁, hstep, -⟩ := (hstart m hm).exists_step m
    rw [hrun₁, Except.ok.injEq] at hrun
    subst hrun
    exact ⟨s₁, off, r, hrun₁, hstep.grows, hstep.hottest hs⟩

end Passes

namespace PartitionAccess

variable {pa : PartitionAccess ℚ} {nrDpus total : ℕ}

/-- The records that the loops start from. -/
def sortedLoads (byRatio : AccessRatio.LoadSort ℚ) (pa : PartitionAccess ℚ)
    (nrDpus totalAccessNum : ℕ) : List (AccessRatio ℚ) :=
  byRatio.sort (pa.loaded (totalAccessNum / nrPartition) (nrDpus / nrPartition))

theorem loaded_loaded (pa : PartitionAccess ℚ) (avg ratioToDpu : ℕ) :
    Loaded (pa.loaded avg ratioToDpu) := by
  intro r hr
  obtain ⟨i, hi, rfl⟩ := List.mem_mapIdx.mp hr
  exact ⟨div_nonneg (Nat.cast_nonneg _) (Nat.cast_nonneg _), rfl⟩

theorem allocated_sortedLoads (byRatio : AccessRatio.LoadSort ℚ) (pa : PartitionAccess ℚ)
    (nrDpus total : ℕ) : Allocated (sortedLoads byRatio pa nrDpus total)
      (allocated (pa.loaded (total / nrPartition) (nrDpus / nrPartition))) :=
  (pa.allocated_loaded _ _).perm (byRatio.perm _)

theorem loaded_sortedLoads (byRatio : AccessRatio.LoadSort ℚ) (pa : PartitionAccess ℚ)
    (nrDpus total : ℕ) : Loaded (sortedLoads byRatio pa nrDpus total) :=
  fun r hr => pa.loaded_loaded _ _ r ((byRatio.perm _).subset hr)

theorem byLoad_sortedLoads (byRatio : AccessRatio.LoadSort ℚ) (pa : PartitionAccess ℚ)
    (nrDpus total : ℕ) : ByLoad (sortedLoads byRatio pa nrDpus total) :=
  (byRatio.sorted _).imp fun h => not_lt.mp (of_decide_eq_false h)

/-- The loops of `calculate_partition_skew` keep the records sorted, and so serve the hottest
partition, exactly if no pass gives a DPU to a record that it makes heavier than one behind. -/
theorem servesHottest_sortedLoads_iff (byRatio : AccessRatio.LoadSort ℚ)
    (pa : PartitionAccess ℚ) (nrDpus total : ℕ) (hpos : 0 < nrDpus) (hdvd : nrPartition ∣ nrDpus)
    (hsum : ∑ i ∈ Finset.range nrPartition, pa.accessNum i = total)
    (htotal : nrPartition ≤ total) :
    ServesHottest nrDpus (sortedLoads byRatio pa nrDpus total) ↔
      GrowsToEnd nrDpus (sortedLoads byRatio pa nrDpus total) := by
  have halloc := allocated_sortedLoads byRatio pa nrDpus total
  refine servesHottest_iff halloc (loaded_sortedLoads byRatio pa nrDpus total)
    (byLoad_sortedLoads byRatio pa nrDpus total) (Nat.le_of_dvd hpos hdvd) fun hfew => ?_
  exact pa.exists_large_sorted byRatio hdvd hsum htotal (halloc.le.trans_lt hfew)

/-- A partition with more than one DPU has accesses. -/
theorem ratio_pos_of_large (byRatio : AccessRatio.LoadSort ℚ) {r : AccessRatio ℚ}
    (hr : r ∈ sortedLoads byRatio pa nrDpus total) (hlarge : 1 < r.numDpuPerPartition) :
    0 < r.partitionRatio := by
  obtain ⟨j, hj, rfl⟩ := List.mem_mapIdx.mp ((byRatio.perm _).subset hr)
  have hfloor := (lt_max_iff.mp hlarge).resolve_right (lt_irrefl 1)
  have hmul := Nat.floor_pos.mp (Nat.zero_lt_of_lt hfloor)
  exact pos_of_mul_pos_left (zero_lt_one.trans_le hmul) (Nat.cast_nonneg _)

/-- A partition without accesses has a record without load. -/
theorem exists_zero_of_idle (byRatio : AccessRatio.LoadSort ℚ) {i : ℕ}
    (hi : i < nrPartition) (hidle : pa.accessNum i = 0) :
    ∃ q ∈ sortedLoads byRatio pa nrDpus total, q.perDpuRatio = 0 := by
  rw [← pa.length_recordRatio] at hi
  have hget : (pa.loaded (total / nrPartition) (nrDpus / nrPartition))[i]? =
      some (pa.recordRatio[i].load ((pa.accessNum i : ℚ) / (total / nrPartition : ℕ))
        (nrDpus / nrPartition)) := by
    rw [loaded, List.getElem?_mapIdx, List.getElem?_eq_getElem hi]
    rfl
  refine ⟨_, (byRatio.perm _).mem_iff.mpr (List.mem_of_getElem? hget), ?_⟩
  rw [hidle, Nat.cast_zero, zero_div]
  exact zero_div _

/-- One DPU is given while some partition has no accesses: the order is lost at once. -/
theorem not_growsToEnd_of_idle (byRatio : AccessRatio.LoadSort ℚ) {i : ℕ}
    (hdvd : nrPartition ∣ nrDpus)
    (hsum : ∑ i ∈ Finset.range nrPartition, pa.accessNum i = total)
    (htotal : nrPartition ≤ total)
    (hfew : allocated (pa.loaded (total / nrPartition) (nrDpus / nrPartition)) < nrDpus)
    (hi : i < nrPartition) (hidle : pa.accessNum i = 0) :
    ¬ GrowsToEnd nrDpus (sortedLoads byRatio pa nrDpus total) := by
  intro hends
  have halloc := allocated_sortedLoads byRatio pa nrDpus total
  have hload := loaded_sortedLoads byRatio pa nrDpus total
  have hstart : GrowState (0, sortedLoads byRatio pa nrDpus total) _ :=
    ⟨halloc, fun i r hi => absurd hi (Nat.not_lt_zero i),
      pa.exists_large_sorted byRatio hdvd hsum htotal (halloc.le.trans_lt hfew), hload⟩
  obtain ⟨off, r, s', hstep, -⟩ := hstart.step
  have hnone := hends 0 (Nat.sub_pos_of_lt (halloc.sum.trans_lt hfew)) _ off r rfl hstep.grows
  have hmem := List.mem_of_getElem? hstep.grows.2
  -- the record has a load, also with one DPU more
  have hratio := ratio_pos_of_large byRatio hmem hstep.large
  have hper : 0 < r.perDpuRatio := by
    rw [(hload r hmem).2]
    exact div_pos hratio (Nat.cast_pos.mpr (Nat.zero_lt_of_lt hstep.large))
  have hnext : 0 < (r.setNum (r.numDpuPerPartition + 1)).perDpuRatio :=
    div_pos hratio (Nat.cast_pos.mpr (Nat.succ_pos _))
  -- the record without load lies behind it
  obtain ⟨q, hq, hzero⟩ := exists_zero_of_idle byRatio hi hidle
  obtain ⟨j, hj⟩ := List.mem_iff_getElem?.mp hq
  have hbehind : off < j := by
    rcases lt_trichotomy off j with hlt | rfl | hgt
    · exact hlt
    · rw [hstep.grows.2, Option.some.injEq] at hj
      rw [hj, hzero] at hper
      exact absurd hper (lt_irrefl 0)
    · have hle := (byLoad_sortedLoads byRatio pa nrDpus total).le hgt hj hstep.grows.2
      rw [hzero] at hle
      exact absurd hper (not_lt.mpr hle)
  have hle := hnone q (mem_drop_succ_iff.mpr ⟨j, hbehind, hj⟩)
  rw [hzero] at hle
  exact absurd hnext (not_lt.mpr hle)

end PartitionAccess

/-- Eight partitions are due almost three DPUs, eight a little more than one and the others two. -/
def hotAccess : PartitionAccess ℚ :=
  { PartitionAccess.init with
    accessNum := fun i => if i < 8 then 149 - i else if i < 16 then 43 + i else 100 }

/-- Rounded down that leaves 8 of 256 DPUs to give, and each of the eight gets one. -/
theorem servesHottest_sortedLoads_hot :
    allocated (hotAccess.loaded (12800 / nrPartition) (256 / nrPartition)) = 248 ∧
    ServesHottest 256 (PartitionAccess.sortedLoads (.byInsertionDesc AccessRatio.perDpuRatio)
      hotAccess 256 12800) :=
  ⟨by decide +kernel, (PartitionAccess.servesHottest_sortedLoads_iff
    (.byInsertionDesc AccessRatio.perDpuRatio) hotAccess 256 12800 (by decide) (by decide)
    (by decide +kernel) (by decide)).mpr (by decide +kernel)⟩

/-- One partition in four has no accesses and the others four each; rounded down, that leaves 32
of 256 DPUs to give. -/
theorem servesHottest_sortedLoads_idle :
    ¬ ServesHottest 256 (PartitionAccess.sortedLoads (.byKeyDesc AccessRatio.perDpuRatio)
      { PartitionAccess.init with accessNum := fun i => if i % 4 = 0 then 0 else 4 } 256 384) := by
  set pa : PartitionAccess ℚ :=
    { PartitionAccess.init with accessNum := fun i => if i % 4 = 0 then 0 else 4 }
  have hdvd : nrPartition ∣ 256 := by decide
  have hsum : ∑ i ∈ Finset.range nrPartition, pa.accessNum i = 384 := by decide +kernel
  have htotal : nrPartition ≤ 384 := by decide
  have hfew : allocated (pa.loaded (384 / nrPartition) (256 / nrPartition)) < 256 := by
    decide +kernel
  have halloc := PartitionAccess.allocated_sortedLoads (.byKeyDesc AccessRatio.perDpuRatio) pa
    256 384
  rw [servesHottest_iff halloc (PartitionAccess.loaded_sortedLoads _ pa 256 384)
    (PartitionAccess.byLoad_sortedLoads _ pa 256 384) (by decide) fun hlt =>
      pa.exists_large_sorted _ hdvd hsum htotal (halloc.le.trans_lt hlt)]
  exact PartitionAccess.not_growsToEnd_of_idle _ hdvd hsum htotal hfew
    (show 0 < nrPartition by decide) rfl

end PimLex
