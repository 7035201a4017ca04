import PimLex.Merge.Sequential
import PimLex.Merge.Threads

/-!
# Every schedule of the merge

A thread past a barrier knows that all others have arrived there: the counts are
complete before thread 0 sums them, and the sums before any thread reads its
offset. So a thread's events are its own passes from its own start, whatever the
others do. A step that does not wait brings its thread closer to the end.
-/

namespace PimLex

open Transition

/-- How far a thread has come. -/
def MergePc.rank : MergePc → ℕ
  | .count => 0
  | .arrive1 => 1
  | .wait1 => 2
  | .offsets => 3
  | .arrive2 => 4
  | .wait2 => 5
  | .first => 6
  | .merge => 7
  | .arrive3 => 8
  | .wait3 => 9
  | .done => 10

/-- The thread has come at least so far. -/
def MergeThread.past (rank : ℕ) (th : MergeThread) : Bool := decide (rank ≤ th.pc.rank)

/-- The events of a thread at its place, from its own start. -/
def expectedEvents (idx : DramIndex BufPage OptNode) (t : ℕ) (th : MergeThread) :
    List MergeEvent :=
  match th.pc with
  | .merge => (idx.mergePasses (idx.boundsOf t) (idx.startOf t) th.targets).1
  | .arrive3 | .wait3 | .done =>
    (idx.mergePasses (idx.boundsOf t) (idx.startOf t) (idx.boundsOf t).totalOps).1
  | _ => []

/-- Thread 0's sums are those of all counts. -/
structure MergeShared.Summed (idx : DramIndex BufPage OptNode) (sh : MergeShared) : Prop where
  offset : ∀ u < mergeThreadNum, sh.mergeOffsetArray u = idx.mergeOffset u
  total : sh.newTotalSize = idx.totalSize + idx.bufferedEntries.length

/-- What is true of each thread beside the shared state. -/
structure MergeThreadOk (idx : DramIndex BufPage OptNode) (t : Fin mergeThreadNum)
    (sh : MergeShared) (th : MergeThread) : Prop where
  passed1 : 3 ≤ th.pc.rank → mergeThreadNum ≤ sh.bar1
  passed2 : 6 ≤ th.pc.rank → mergeThreadNum ≤ sh.bar2
  counted : th.pc ≠ .count → sh.keyCount t = idx.keyCount t
  unsummed : t = 0 → th.pc.rank ≤ 3 → sh.newTotalSize = 0
  summed : t = 0 → 4 ≤ th.pc.rank → sh.Summed idx
  first : th.pc = .offsets → t = 0
  vars : th.pc = .merge → th.bounds = idx.boundsOf t ∧
    th.vars = (idx.mergePasses (idx.boundsOf t) (idx.startOf t) th.targets).2 ∧
    th.targets ≤ (idx.boundsOf t).totalOps
  events : own t sh.trace = expectedEvents idx t th

/-- The invariant of every schedule. -/
structure MergeInv (idx : DramIndex BufPage OptNode) (s : MergeSystem) : Prop where
  bar1 : s.Counts (fun th => th.past 2) s.shared.bar1
  bar2 : s.Counts (fun th => th.past 5) s.shared.bar2
  bar3 : s.Counts (fun th => th.past 9) s.shared.bar3
  threads : ∀ t, MergeThreadOk idx t s.shared (s.threads t)

section Act

variable (idx : DramIndex BufPage OptNode) (t : Fin mergeThreadNum) (sh : MergeShared)
  (th : MergeThread)

/-- Each barrier counts the thread that arrives at it. -/
theorem act_bars :
    (mergeAct idx t sh th).1.bar1 + (th.past 2).toNat =
        sh.bar1 + ((mergeAct idx t sh th).2.past 2).toNat ∧
      (mergeAct idx t sh th).1.bar2 + (th.past 5).toNat =
        sh.bar2 + ((mergeAct idx t sh th).2.past 5).toNat ∧
      (mergeAct idx t sh th).1.bar3 + (th.past 9).toNat =
        sh.bar3 + ((mergeAct idx t sh th).2.past 9).toNat := by
  cases hpc : th.pc
  all_goals
    simp only [mergeAct, hpc]
    try split_ifs
    all_goals simp [MergeThread.past, MergePc.rank, MergeShared.sumCounts, hpc]

theorem act_bars_le :
    sh.bar1 ≤ (mergeAct idx t sh th).1.bar1 ∧ sh.bar2 ≤ (mergeAct idx t sh th).1.bar2 := by
  cases hpc : th.pc
  all_goals
    simp only [mergeAct, hpc]
    try split_ifs
    all_goals simp [MergeShared.sumCounts]

theorem act_keyCount {u : ℕ} (h : th.pc = .count → u ≠ t) :
    (mergeAct idx t sh th).1.keyCount u = sh.keyCount u := by
  cases hpc : th.pc with
  | count =>
    simp only [mergeAct, hpc]
    exact Function.update_of_ne (h hpc) _ _
  | _ =>
    simp only [mergeAct, hpc]
    try split_ifs
    all_goals rfl

theorem act_sums (h : th.pc ≠ .offsets) :
    (mergeAct idx t sh th).1.mergeOffsetArray = sh.mergeOffsetArray ∧
      (mergeAct idx t sh th).1.newTotalSize = sh.newTotalSize := by
  cases hpc : th.pc with
  | offsets => exact absurd hpc h
  | _ =>
    constructor
    all_goals
      simp only [mergeAct, hpc]
      try split_ifs
      all_goals rfl

theorem act_trace (h : th.pc ≠ .merge) : (mergeAct idx t sh th).1.trace = sh.trace := by
  cases hpc : th.pc with
  | merge => exact absurd hpc h
  | _ =>
    simp only [mergeAct, hpc]
    try split_ifs
    all_goals rfl

theorem act_own {u : Fin mergeThreadNum} (h : u ≠ t) :
    own u (mergeAct idx t sh th).1.trace = own u sh.trace := by
  by_cases hpc : th.pc = .merge
  · simp only [mergeAct, hpc]
    split_ifs
    · exact own_concat_of_ne h _
    · rfl
  · rw [act_trace idx t sh th hpc]

end Act

section Order

variable {idx : DramIndex BufPage OptNode} {t : Fin mergeThreadNum} {sh : MergeShared}
  {th : MergeThread}

theorem MergePc.eq_offsets {pc : MergePc} (h : pc.rank = 3) : pc = .offsets := by
  cases pc with
  | offsets => rfl
  | _ => exact absurd h (by decide)

/-- Only a full first barrier lets a thread past its wait. -/
theorem act_passed1 (h : 3 ≤ (mergeAct idx t sh th).2.pc.rank) :
    3 ≤ th.pc.rank ∨ mergeThreadNum ≤ sh.bar1 := by
  cases hpc : th.pc with
  | count | arrive1 => simp [mergeAct, hpc, MergePc.rank] at h
  | wait1 =>
    by_cases hwait : sh.bar1 < mergeThreadNum
    · simp [mergeAct, hpc, hwait, MergePc.rank] at h
    · exact Or.inr (Nat.le_of_not_lt hwait)
  | _ => exact Or.inl (by decide)

/-- Only a full second barrier lets a thread past its wait. -/
theorem act_passed2 (h : 6 ≤ (mergeAct idx t sh th).2.pc.rank) :
    6 ≤ th.pc.rank ∨ mergeThreadNum ≤ sh.bar2 := by
  cases hpc : th.pc with
  | count | arrive1 | offsets | arrive2 => simp [mergeAct, hpc, MergePc.rank] at h
  | wait1 =>
    simp only [mergeAct, hpc] at h
    split_ifs at h <;> simp [hpc, MergePc.rank] at h
  | wait2 =>
    by_cases hwait : sh.bar2 < mergeThreadNum
    · simp [mergeAct, hpc, hwait, MergePc.rank] at h
    · exact Or.inr (Nat.le_of_not_lt hwait)
  | _ => exact Or.inl (by decide)

/-- A thread that is not past the sums has not made them. -/
theorem act_unsummed (h : (mergeAct idx t sh th).2.pc.rank ≤ 3) : th.pc.rank ≤ 2 := by
  cases hpc : th.pc with
  | count | arrive1 | wait1 => decide
  | _ =>
    simp only [mergeAct, hpc] at h
    try split_ifs at h
    all_goals simp [hpc, MergePc.rank] at h

/-- Thread 0 gets past the sums by making them. -/
theorem act_summed (h0 : t = 0) (h : 4 ≤ (mergeAct idx t sh th).2.pc.rank) : 3 ≤ th.pc.rank := by
  cases hpc : th.pc with
  | count | arrive1 => simp [mergeAct, hpc, MergePc.rank] at h
  | wait1 =>
    simp only [mergeAct, hpc, if_pos h0] at h
    split_ifs at h <;> simp [hpc, MergePc.rank] at h
  | _ => decide

/-- Only thread 0 comes to the sums. -/
theorem act_to_offsets (h : (mergeAct idx t sh th).2.pc = .offsets) : t = 0 := by
  cases hpc : th.pc with
  | wait1 =>
    simp only [mergeAct, hpc] at h
    split_ifs at h with hwait h0
    · simp [hpc] at h
    · exact h0
  | _ =>
    simp only [mergeAct, hpc] at h
    try split_ifs at h
    all_goals simp [hpc] at h

/-- A thread comes to a pass from its own start, or from the pass before. -/
theorem act_to_merge (h : (mergeAct idx t sh th).2.pc = .merge) :
    th.pc = .first ∨ th.pc = .merge ∧ th.targets < th.bounds.totalOps := by
  cases hpc : th.pc with
  | first => exact Or.inl rfl
  | merge =>
    simp only [mergeAct, hpc] at h
    split_ifs at h with hlt
    exact Or.inr ⟨rfl, hlt⟩
  | _ =>
    simp only [mergeAct, hpc] at h
    try split_ifs at h
    all_goals simp [hpc] at h

end Order

section Sums

variable {idx : DramIndex BufPage OptNode} {sh : MergeShared}

/-- The loop over the counts, after the first `n` of them. -/
theorem foldl_sumCounts (count : ℕ → ℕ) (offsets : ℕ → ℕ) (c n : ℕ) :
    ((List.range n).foldl
      (fun (acc : ℕ × ℕ × (ℕ → ℕ)) jj =>
        (acc.1 + count jj, acc.2.1 + count jj, Function.update acc.2.2 jj acc.2.1))
      (c, 0, offsets)) =
    (c + ((List.range n).map count).sum, ((List.range n).map count).sum,
      fun u => if u < n then ((List.range u).map count).sum else offsets u) := by
  induction n with
  | zero => simp
  | succ n ih =>
    rw [List.range_succ, List.foldl_append, ih, List.map_append, List.sum_append]
    simp only [List.foldl_cons, List.foldl_nil, List.map_singleton, List.sum_singleton,
      Nat.add_assoc]
    congr 2
    funext u
    -- the loop has just written entry `n`; those before it stay
    rcases lt_trichotomy u n with hlt | rfl | hgt
    · rw [Function.update_of_ne hlt.ne, if_pos hlt, if_pos (Nat.lt_succ_of_lt hlt)]
    · rw [Function.update_self, if_pos (Nat.lt_succ_self u)]
    · rw [Function.update_of_ne hgt.ne', if_neg (by omega), if_neg (by omega)]

/-- With all counts in place the sums are right. -/
theorem summed_sumCounts (h0 : sh.newTotalSize = 0)
    (hcount : ∀ u < mergeThreadNum, sh.keyCount u = idx.keyCount u) :
    ({ sh.sumCounts with
      newTotalSize := sh.sumCounts.newTotalSize + idx.totalSize } : MergeShared).Summed idx := by
  have hfold := foldl_sumCounts sh.keyCount sh.mergeOffsetArray 0 mergeThreadNum
  have hsame : ∀ u ≤ mergeThreadNum, ((List.range u).map sh.keyCount).sum = idx.mergeOffset u := by
    intro u hu
    rw [DramIndex.mergeOffset, List.map_congr_left]
    exact fun v hv => hcount v ((List.mem_range.mp hv).trans_le hu)
  have hall : idx.mergeOffset mergeThreadNum = idx.bufferedEntries.length := by
    rw [DramIndex.mergeOffset_eq le_rfl, DramIndex.pageCut_last]
    rfl
  refine ⟨fun u hu => ?_, ?_⟩
  · simp only [MergeShared.sumCounts, h0, hfold, if_pos hu]
    exact hsame u hu.le
  · simp only [MergeShared.sumCounts, h0, hfold, hsame _ le_rfl, hall]
    omega

end Sums

section Invariant

variable {idx : DramIndex BufPage OptNode} {s : MergeSystem} {t : Fin mergeThreadNum}

/-- Past the first barrier all counts are in place. -/
theorem MergeInv.counted (h : MergeInv idx s) (hbar : mergeThreadNum ≤ s.shared.bar1) {u : ℕ}
    (hu : u < mergeThreadNum) : s.shared.keyCount u = idx.keyCount u := by
  have hpast := h.bar1.all (by rwa [Fintype.card_fin]) ⟨u, hu⟩
  refine (h.threads ⟨u, hu⟩).counted fun hpc => ?_
  simp [MergeThread.past, hpc, MergePc.rank] at hpast

/-- Past the second barrier the sums are in place. -/
theorem MergeInv.summed (h : MergeInv idx s) (hbar : mergeThreadNum ≤ s.shared.bar2) :
    s.shared.Summed idx := by
  have hpast := h.bar2.all (by rwa [Fintype.card_fin]) 0
  refine (h.threads 0).summed rfl (Nat.le_of_succ_le ?_)
  exact of_decide_eq_true hpast

/-- The acting thread stays in step with the shared state. -/
theorem MergeInv.act_ok (h : MergeInv idx s) :
    MergeThreadOk idx t (mergeAct idx t s.shared (s.threads t)).1
      (mergeAct idx t s.shared (s.threads t)).2 := by
  have ht := h.threads t
  obtain ⟨hbar1, hbar2⟩ := act_bars_le idx t s.shared (s.threads t)
  generalize hth : s.threads t = th at ht hbar1 hbar2 ⊢
  constructor
  case passed1 =>
    intro hrank
    rcases act_passed1 hrank with hpast | hfull
    · exact (ht.passed1 hpast).trans hbar1
    · exact hfull.trans hbar1
  case passed2 =>
    intro hrank
    rcases act_passed2 hrank with hpast | hfull
    · exact (ht.passed2 hpast).trans hbar2
    · exact hfull.trans hbar2
  case counted =>
    intro hpc'
    by_cases hpc : th.pc = .count
    · simp only [mergeAct, hpc]
      exact Function.update_self _ _ _
    · rw [act_keyCount idx t s.shared th fun hc => absurd hc hpc]
      exact ht.counted hpc
  case unsummed =>
    intro h0 hrank
    have hbefore := act_unsummed hrank
    rw [(act_sums idx t s.shared th fun hpc => by simp [hpc, MergePc.rank] at hbefore).2]
    exact ht.unsummed h0 (Nat.le_succ_of_le hbefore)
  case summed =>
    intro h0 hrank
    rcases (act_summed h0 hrank).eq_or_lt with heq | hpast
    · -- behind the first barrier all counts are in place, so this is the step that sums them
      have hpc := MergePc.eq_offsets heq.symm
      simp only [mergeAct, hpc]
      exact summed_sumCounts (ht.unsummed h0 heq.ge) fun u hu => h.counted (ht.passed1 heq.le) hu
    · have hsums := act_sums idx t s.shared th fun hpc => by simp [hpc, MergePc.rank] at hpast
      have hold := ht.summed h0 hpast
      exact ⟨hsums.1 ▸ hold.offset, hsums.2 ▸ hold.total⟩
  case first => exact act_to_offsets
  case vars =>
    intro hpc'
    rcases act_to_merge hpc' with hpc | ⟨hpc, hlt⟩
    · -- behind the second barrier the thread reads its own offset
      have hcount := ht.counted (by simp [hpc])
      have hoff := (h.summed (ht.passed2 (by rw [hpc]; decide))).offset t t.isLt
      simp only [mergeAct, hpc, hcount, hoff]
      exact ⟨rfl, rfl, Nat.zero_le _⟩
    · obtain ⟨hbounds, hvars, hle⟩ := ht.vars hpc
      simp only [mergeAct, hpc, if_pos hlt]
      rw [hbounds] at hlt ⊢
      refine ⟨rfl, ?_, hlt⟩
      simp only [DramIndex.mergePasses, hvars]
  case events =>
    have hevents := ht.events
    cases hpc : th.pc with
    | merge =>
      obtain ⟨hbounds, hvars, hle⟩ := ht.vars hpc
      rw [expectedEvents, hpc] at hevents
      simp only [mergeAct, hpc]
      split_ifs with hlt
      · rw [own_concat_self, hevents, expectedEvents, hbounds, hvars]
        simp only [DramIndex.mergePasses]
      · rw [hbounds] at hlt
        rw [hevents, expectedEvents, Nat.le_antisymm hle (Nat.le_of_not_lt hlt)]
    | _ =>
      rw [act_trace idx t s.shared th (by simp [hpc]), hevents]
      simp only [mergeAct, hpc]
      try split_ifs
      all_goals simp [expectedEvents, hpc, DramIndex.mergePasses]

/-- The other threads stay in step with what the acting thread changed. -/
theorem MergeInv.other_ok (h : MergeInv idx s) {u : Fin mergeThreadNum} (hu : u ≠ t) :
    MergeThreadOk idx u (mergeAct idx t s.shared (s.threads t)).1 (s.threads u) := by
  have hou := h.threads u
  obtain ⟨hbar1, hbar2⟩ := act_bars_le idx t s.shared (s.threads t)
  -- thread 0 alone sums, so beside it nobody else is at that step
  have hsums : u = 0 → (s.threads t).pc ≠ .offsets := fun h0 hpc =>
    hu (h0.trans ((h.threads t).first hpc).symm)
  refine ⟨?passed1, ?passed2, ?counted, ?unsummed, ?summed, hou.first, hou.vars, ?events⟩
  case passed1 =>
    intro hrank
    exact (hou.passed1 hrank).trans hbar1
  case passed2 =>
    intro hrank
    exact (hou.passed2 hrank).trans hbar2
  case counted =>
    intro hpc
    -- a thread writes its own entry of `key_count` only
    rw [act_keyCount idx t _ _ fun _ heq => hu (Fin.ext heq)]
    exact hou.counted hpc
  case unsummed =>
    intro h0 hrank
    rw [(act_sums idx t _ _ (hsums h0)).2]
    exact hou.unsummed h0 hrank
  case summed =>
    intro h0 hrank
    have hsame := act_sums idx t s.shared _ (hsums h0)
    have hold := hou.summed h0 hrank
    exact ⟨hsame.1 ▸ hold.offset, hsame.2 ▸ hold.total⟩
  case events =>
    rw [act_own idx t _ _ hu]
    exact hou.events

/-- Every step keeps the invariant. -/
theorem MergeInv.step (h : MergeInv idx s) (t : Fin mergeThreadNum) :
    MergeInv idx (mergeStep idx s t) := by
  obtain ⟨hbar1, hbar2, hbar3⟩ := act_bars idx t s.shared (s.threads t)
  exact ⟨h.bar1.step hbar1, h.bar2.step hbar2, h.bar3.step hbar3,
    System.forall_step.mpr ⟨h.act_ok, fun u hu => h.other_ok hu⟩⟩

theorem mergeInv_start (idx : DramIndex BufPage OptNode) : MergeInv idx mergeStart where
  bar1 := by simp [System.Counts, mergeStart, MergeThread.past, MergePc.rank]
  bar2 := by simp [System.Counts, mergeStart, MergeThread.past, MergePc.rank]
  bar3 := by simp [System.Counts, mergeStart, MergeThread.past, MergePc.rank]
  threads t :=
    ⟨fun h => absurd h (Nat.not_succ_le_zero _), fun h => absurd h (Nat.not_succ_le_zero _),
      fun h => absurd rfl h, fun _ _ => rfl, fun _ h => absurd h (Nat.not_succ_le_zero _), nofun,
      nofun, rfl⟩

theorem mergeInv_run (idx : DramIndex BufPage OptNode) (schedule : List (Fin mergeThreadNum)) :
    MergeInv idx (mergeRun idx schedule) :=
  run_invariant (mergeInv_start idx) (fun _ t h => h.step t) schedule

end Invariant

end PimLex
