import PimLex.Merge.Schedule

/-!
# The merge comes to an end

A step that does not wait brings its thread closer to the end, and threads that
all wait would have filled the barrier they wait at. So a schedule that keeps
giving every thread a turn finishes the merge.
-/

namespace PimLex

open Transition

/-- The steps a thread may still take, with at most `bound` passes of its loop. -/
def MergeThread.remaining (bound : ℕ) (th : MergeThread) : ℕ :=
  match th.pc with
  | .merge => th.bounds.totalOps - th.targets + 4
  | .arrive3 => 3
  | .wait3 => 2
  | .done => 1
  | pc => bound + 11 - pc.rank

section Stuck

variable (idx : DramIndex BufPage OptNode) {t : Fin mergeThreadNum} (sh : MergeShared)
  {th : MergeThread}

/-- A step changes its thread, unless it waits at a barrier that is not full. -/
theorem waits_of_act_eq (h : (mergeAct idx t sh th).2 = th) :
    (th.pc = .wait1 ∧ sh.bar1 < mergeThreadNum) ∨ (th.pc = .wait2 ∧ sh.bar2 < mergeThreadNum) ∨
      (th.pc = .wait3 ∧ sh.bar3 < mergeThreadNum) ∨ th.pc = .done := by
  have hpc' := congrArg MergeThread.pc h
  cases hpc : th.pc with
  | done => exact Or.inr (Or.inr (Or.inr rfl))
  | wait1 =>
    refine Or.inl ⟨rfl, ?_⟩
    by_contra hfull
    simp only [mergeAct, hpc, if_neg hfull] at hpc'
    split_ifs at hpc'
  | wait2 =>
    refine Or.inr (Or.inl ⟨rfl, ?_⟩)
    by_contra hfull
    simp [mergeAct, hpc, if_neg hfull] at hpc'
  | wait3 =>
    refine Or.inr (Or.inr (Or.inl ⟨rfl, ?_⟩))
    by_contra hfull
    simp [mergeAct, hpc, if_neg hfull] at hpc'
  | merge =>
    have htargets := congrArg MergeThread.targets h
    by_cases hlt : th.targets < th.bounds.totalOps
    · simp [mergeAct, hpc, hlt] at htargets
    · simp [mergeAct, hpc, hlt] at hpc'
  | _ => simp [mergeAct, hpc] at hpc'

end Stuck

section Progress

variable {idx : DramIndex BufPage OptNode} {s : MergeSystem} {t : Fin mergeThreadNum}

theorem totalOps_le (idx : DramIndex BufPage OptNode) {t : ℕ} (ht : t < mergeThreadNum) :
    (idx.boundsOf t).totalOps ≤ idx.totalSize + idx.bufferedEntries.length := by
  have hsucc := DramIndex.slotCut_succ idx ht
  have hend := DramIndex.slotCut_mono idx (show t + 1 ≤ mergeThreadNum from ht) le_rfl
  rw [DramIndex.slotCut_last] at hend
  omega

/-- A step waits, or brings its thread closer to the end. -/
theorem MergeInv.act_remaining (h : MergeInv idx s) :
    mergeAct idx t s.shared (s.threads t) = (s.shared, s.threads t) ∨
      (mergeAct idx t s.shared (s.threads t)).2.remaining
          (idx.totalSize + idx.bufferedEntries.length) <
        (s.threads t).remaining (idx.totalSize + idx.bufferedEntries.length) := by
  have ht := h.threads t
  generalize s.threads t = th at ht ⊢
  cases hpc : th.pc with
  | done => exact Or.inl (by simp only [mergeAct, hpc])
  | wait1 =>
    by_cases hwait : s.shared.bar1 < mergeThreadNum
    · exact Or.inl (by simp only [mergeAct, hpc, if_pos hwait])
    · right
      simp only [mergeAct, hpc, if_neg hwait]
      split_ifs <;> simp only [MergeThread.remaining, hpc, MergePc.rank] <;> omega
  | wait2 =>
    by_cases hwait : s.shared.bar2 < mergeThreadNum
    · exact Or.inl (by simp only [mergeAct, hpc, if_pos hwait])
    · right
      simp only [mergeAct, hpc, if_neg hwait, MergeThread.remaining, MergePc.rank]
      omega
  | wait3 =>
    by_cases hwait : s.shared.bar3 < mergeThreadNum
    · exact Or.inl (by simp only [mergeAct, hpc, if_pos hwait])
    · right
      simp only [mergeAct, hpc, if_neg hwait, MergeThread.remaining]
      omega
  | first =>
    -- the passes of one slice are no more than all entries
    right
    have hops := totalOps_le idx t.isLt
    rw [DramIndex.boundsOf, ← ht.counted (by simp [hpc])] at hops
    simp only [mergeAct, hpc, MergeThread.remaining, MergePc.rank]
    omega
  | merge =>
    right
    simp only [mergeAct, hpc]
    split_ifs with hlt
    all_goals
      simp only [MergeThread.remaining, hpc]
      omega
  | _ =>
    right
    simp only [mergeAct, hpc, MergeThread.remaining, MergePc.rank]
    omega

theorem lowers_merge (idx : DramIndex BufPage OptNode) :
    Lowers (mergeStep idx) (MergeInv idx) fun s =>
      ∑ t, (s.threads t).remaining (idx.totalSize + idx.bufferedEntries.length) := by
  have keep : ∀ (s : MergeSystem) t, MergeInv idx s → MergeInv idx (s.step (mergeAct idx) t) :=
    fun s t h => h.step t
  exact System.lowers keep fun s t h => MergeInv.act_remaining h

/-- When no thread can step, all are done: whoever waits waits for a thread behind. -/
theorem MergeInv.finished_of_stuck (h : MergeInv idx s) (hstuck : Stuck (mergeStep idx) s) :
    s.Finished := by
  have hwaits := fun t => waits_of_act_eq idx s.shared (hstuck.act_eq t)
  have hcard : Fintype.card (Fin mergeThreadNum) = mergeThreadNum := Fintype.card_fin _
  have hpast : ∀ (r : ℕ) (th : MergeThread), r ≤ th.pc.rank → th.past r = true := fun r th hle =>
    decide_eq_true hle
  -- each barrier in turn is full: whoever waits at it or later has arrived there
  have hfull1 := h.bar1.eq_card fun t => hpast _ _ (by
    rcases hwaits t with ⟨hpc, -⟩ | ⟨hpc, -⟩ | ⟨hpc, -⟩ | hpc <;> rw [hpc] <;> decide)
  have hfull2 := h.bar2.eq_card fun t => hpast _ _ (by
    rcases hwaits t with ⟨hpc, hlt⟩ | ⟨hpc, -⟩ | ⟨hpc, -⟩ | hpc
    · omega
    all_goals
      rw [hpc]
      decide)
  have hfull3 := h.bar3.eq_card fun t => hpast _ _ (by
    rcases hwaits t with ⟨hpc, hlt⟩ | ⟨hpc, hlt⟩ | ⟨hpc, -⟩ | hpc
    · omega
    · omega
    all_goals
      rw [hpc]
      decide)
  intro t
  rcases hwaits t with ⟨-, hlt⟩ | ⟨-, hlt⟩ | ⟨-, hlt⟩ | hpc
  · omega
  · omega
  · omega
  · exact hpc

/-- Enough rounds that give every thread a turn finish the merge. -/
theorem mergeRun_finished (idx : DramIndex BufPage OptNode) :
    ∃ enough, ∀ rounds : List (List (Fin mergeThreadNum)), Rounds rounds →
      enough ≤ rounds.length → (mergeRun idx rounds.flatten).Finished :=
  ⟨_, fun rounds hrounds hlen => (mergeInv_run idx rounds.flatten).finished_of_stuck
    ((lowers_merge idx).stuck (mergeInv_start idx) hrounds (Nat.lt_of_succ_le hlen))⟩

end Progress

end PimLex
