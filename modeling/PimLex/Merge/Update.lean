import PimLex.Merge.Union

/-!
# The merge of an update

A buffered key that is a base key is stored once for two entries, but the number
of slots counts both. Stores of other keys come from the buffers only, each entry
once, so there are too few of them to fill the new arrays without a base key
twice.
-/

namespace PimLex

open Transition

namespace DramIndex

variable (idx : DramIndex BufPage OptNode)

instance (k : DTYPE) : Decidable (idx.IsBaseKey k) :=
  inferInstanceAs (Decidable (∃ j < idx.totalSize, idx.keys j = k))

/-- The payload a key must have after the merge: the buffered one, if there is one. -/
def Wins (k : DTYPE) (v : StringPayload) : Prop :=
  (k, v) ∈ idx.bufferedEntries ∨
    (k, v) ∈ idx.baseEntries ∧ ∀ v', (k, v') ∉ idx.bufferedEntries

/-- The entries whose keys are not base keys. -/
def foreign (entries : List Entry) : List Entry := entries.filter fun e => ¬ idx.IsBaseKey e.1

end DramIndex

/-- What the new arrays must hold after a merge with updates. -/
structure UpdateSound (idx : DramIndex BufPage OptNode) (sh : MergeShared) : Prop where
  present : ∀ k, idx.IsBaseKey k ∨ (∃ v, (k, v) ∈ idx.bufferedEntries) →
    ∃ slot < sh.newTotalSize, ∃ v, sh.newEntry slot = some (k, v) ∧ idx.Wins k v
  written : ∀ slot < sh.newTotalSize, sh.newEntry slot ≠ none
  noError : ∀ t, (t, .error) ∉ sh.trace
  noStale : ∀ slot < sh.newTotalSize, ∀ k v, sh.newEntry slot = some (k, v) →
    idx.IsBaseKey k → idx.Wins k v
  noDuplicate : ∀ slot < sh.newTotalSize, ∀ slot' < sh.newTotalSize, ∀ e e',
    sh.newEntry slot = some e → sh.newEntry slot' = some e' → e.1 = e'.1 →
      idx.IsBaseKey e.1 → slot = slot'

/-- The entries that events store. -/
def storedEntries (events : List MergeEvent) : List Entry :=
  (events.filterMap MergeEvent.store).map Prod.snd

section Foreign

variable {idx : DramIndex BufPage OptNode} {bounds : MergeBounds} {l : MergeLocals}

theorem foreign_append (entries entries' : List Entry) :
    idx.foreign (entries ++ entries') = idx.foreign entries ++ idx.foreign entries' :=
  List.filter_append _ _

theorem storedEntries_append (events events' : List MergeEvent) :
    storedEntries (events ++ events') = storedEntries events ++ storedEntries events' := by
  rw [storedEntries, List.filterMap_append, List.map_append]
  rfl

/-- A loaded base cursor holds a base key. -/
def OldCursor.OnBase (idx : DramIndex BufPage OptNode) (old : OldCursor) : Prop :=
  old.oldEndFlag = false → idx.IsBaseKey old.oldKey

theorem onBase_fetchOld {old : OldCursor} {stop : ℕ} (hstop : stop ≤ idx.totalSize) :
    (idx.fetchOld stop old).OnBase idx := by
  rw [DramIndex.fetchOld]
  split_ifs with hlt
  · exact fun _ => ⟨old.curOldOff, hlt.trans_le hstop, rfl⟩
  · exact fun hend => absurd hend (by simp)

/-- A pass stores a base key, or the next buffered entry. -/
theorem foreign_pass (hin : bounds.Inside idx) (hold : l.old.OnBase idx)
    (hpages : l.buf.InPages idx) :
    ∃ event l', idx.mergePass bounds l = (event, l') ∧ l'.old.OnBase idx ∧
      l'.buf.InPages idx ∧
      idx.foreign (storedEntries [event]) ++ idx.foreign (l'.bufRest idx bounds) =
        idx.foreign (l.bufRest idx bounds) := by
  rcases mergePass_cases idx bounds l with
    ⟨stop, hend, -, hstop, heq⟩ | ⟨old', hend, -, hold', heq⟩ | ⟨-, hend, heq⟩
  · -- the stored base key is not foreign, and the buffer side stands still
    refine ⟨_, _, heq, onBase_fetchOld ?_, hpages, ?_⟩
    · rcases hstop with rfl | rfl
      · exact hin.old
      · exact le_rfl
    · have hnone : idx.foreign (storedEntries
          [.write l.curNewOff (l.old.oldKey, l.old.oldValue)]) = [] := by
        simp [DramIndex.foreign, storedEntries, MergeEvent.store, hold hend]
      rw [hnone]
      rfl
  · refine ⟨_, _, heq, ?_, inPages_fetchBuf hin.page hpages hend, ?_⟩
    · rcases hold' with rfl | ⟨-, -, rfl⟩
      · exact hold
      · exact onBase_fetchOld hin.old
    · -- the buffered entry moves from what is left to what is stored
      rw [MergeLocals.bufRest, MergeLocals.bufRest,
        rest_fetchBuf hend (hpages hend) hin.page, BufCursor.rest_live hend, ← foreign_append]
      rfl
  · exact ⟨_, _, heq, hold, hpages, rfl⟩

theorem foreign_passes (hin : bounds.Inside idx) (hold : l.old.OnBase idx)
    (hpages : l.buf.InPages idx) (m : ℕ) :
    ∃ events l', idx.mergePasses bounds l m = (events, l') ∧ l'.old.OnBase idx ∧
      l'.buf.InPages idx ∧
      idx.foreign (storedEntries events) ++ idx.foreign (l'.bufRest idx bounds) =
        idx.foreign (l.bufRest idx bounds) := by
  induction m with
  | zero => exact ⟨[], l, rfl, hold, hpages, rfl⟩
  | succ m ih =>
    obtain ⟨events, l', hrun, hold', hpages', hsame⟩ := ih
    obtain ⟨event, l'', hpass, hold'', hpages'', hnext⟩ := foreign_pass hin hold' hpages'
    refine ⟨events ++ [event], l'', ?_, hold'', hpages'', ?_⟩
    · rw [DramIndex.mergePasses, hrun]
      simp only [hpass]
    · rw [storedEntries_append, foreign_append, List.append_assoc, hnext, hsame]

end Foreign

section Threads

variable {idx : DramIndex BufPage OptNode} {s : MergeSystem} (h : PagesGuarded idx)
include h

/-- A thread stores no foreign entry but those of its slice. -/
theorem foreign_startOf {t : ℕ} (ht : t < mergeThreadNum) :
    (idx.foreign (storedEntries (idx.mergePasses (idx.boundsOf t) (idx.startOf t)
      (idx.boundsOf t).totalOps).1)).Sublist (idx.foreign (idx.bufSlice t)) := by
  have hend := DramIndex.cut_le_end idx (show t + 1 ≤ mergeThreadNum from ht)
  rcases Nat.lt_or_ge (idx.posCut t) idx.totalSize with hlt | hge
  · have hold : (idx.startOf t).old.OnBase idx := by
      rw [DramIndex.startOf_old ht]
      exact fun _ => ⟨idx.posCut t, hlt, rfl⟩
    obtain ⟨events, l', hrun, -, -, hsame⟩ := foreign_passes (DramIndex.inside_boundsOf idx ht)
      hold (DramIndex.sliceInv_startOf h ht).inPages (idx.boundsOf t).totalOps
    rw [DramIndex.bufRest_startOf ht] at hsame
    rw [hrun, ← hsame]
    exact List.sublist_append_left _ _
  · -- a slice without base entries has no buffered entries either, and no pass is made
    have hbuf : idx.bufSlice t = [] := by
      apply List.eq_nil_iff_forall_not_mem.mpr
      intro e he
      obtain ⟨i, hpi, -, hi, -⟩ := DramIndex.bounds_of_mem h he hend.1
      rw [DramIndex.posCut_of_lt ht] at hge
      omega
    have hops : (idx.boundsOf t).totalOps = 0 := by
      rw [DramIndex.totalOps_eq ht, hbuf, DramIndex.oldSlice, DramIndex.length_baseFrom,
        List.length_nil]
      omega
    rw [hops]
    exact List.nil_sublist _

/-- All threads together store no more foreign entries than the buffers hold. -/
theorem MergeInv.length_foreign_le (hs : MergeInv idx s) (hdone : s.Finished) :
    (idx.foreign (s.shared.writes.map Prod.snd)).length ≤
      (idx.foreign idx.bufferedEntries).length := by
  have hperm := (((perm_trace s).filterMap MergeEvent.store).map Prod.snd).filter
    fun e => ¬ idx.IsBaseKey e.1
  have hsub : ((List.finRange mergeThreadNum).flatMap fun t =>
      idx.foreign (storedEntries (own t s.shared.trace))).Sublist
        ((List.finRange mergeThreadNum).flatMap fun t : Fin mergeThreadNum =>
        idx.foreign (idx.bufSlice t)) := by
    apply List.Sublist.flatMap_right _
    intro t _
    rw [hs.events_finished hdone]
    exact foreign_startOf h t.isLt
  have hall : ((List.finRange mergeThreadNum).flatMap fun t : Fin mergeThreadNum =>
        idx.foreign (idx.bufSlice t)) =
      idx.foreign idx.bufferedEntries := by
    rw [← DramIndex.flatMap_bufSlice, ← List.map_coe_finRange_eq_range, List.flatMap_map,
      DramIndex.foreign, List.filter_flatMap]
    rfl
  have hstored : idx.foreign (storedEntries ((List.finRange mergeThreadNum).flatMap fun t =>
      own t s.shared.trace)) = (List.finRange mergeThreadNum).flatMap fun t =>
        idx.foreign (storedEntries (own t s.shared.trace)) := by
    simp only [DramIndex.foreign, storedEntries, List.filterMap_flatMap, List.map_flatMap,
      List.filter_flatMap]
  rw [← hall]
  refine le_trans (le_of_eq ?_) hsub.length_le
  rw [← hstored]
  exact hperm.length_eq

end Threads

section Unsound

variable {idx : DramIndex BufPage OptNode} {sh : MergeShared}

/-- Sound new arrays need a foreign store for every slot beyond the base keys. -/
theorem UpdateSound.le_foreign (h : UpdateSound idx sh) :
    sh.newTotalSize ≤ idx.totalSize + (idx.foreign (sh.writes.map Prod.snd)).length := by
  have hentry : ∀ slot < sh.newTotalSize, ∃ e, sh.newEntry slot = some e := fun slot hslot =>
    Option.ne_none_iff_exists'.mp (h.written slot hslot)
  have : Nonempty Entry := ⟨(0, .ofByte 0)⟩
  choose! entry hentry using hentry
  have hkey : ∀ k, idx.IsBaseKey k → ∃ j < idx.totalSize, idx.keys j = k := fun k hk => hk
  choose! pos hpos hkeys using hkey
  -- slots with a base key are told apart by its position
  have hbase : ((Finset.range sh.newTotalSize).filter fun slot =>
      idx.IsBaseKey (entry slot).1).card ≤ idx.totalSize := by
    rw [← Finset.card_range idx.totalSize]
    apply Finset.card_le_card_of_injOn (fun slot => pos (entry slot).1)
    · intro slot hslot
      rw [Finset.mem_coe, Finset.mem_filter] at hslot
      exact Finset.mem_coe.mpr (Finset.mem_range.mpr (hpos _ hslot.2))
    · intro slot hslot slot' hslot' heq
      rw [Finset.mem_coe, Finset.mem_filter, Finset.mem_range] at hslot hslot'
      refine h.noDuplicate slot hslot.1 slot' hslot'.1 _ _ (hentry slot hslot.1)
        (hentry slot' hslot'.1) ?_ hslot.2
      rw [← hkeys _ hslot.2, ← hkeys _ hslot'.2]
      exact congrArg idx.keys heq
  -- the others by the store that filled them
  have hforeign : ((Finset.range sh.newTotalSize).filter fun slot =>
      ¬ idx.IsBaseKey (entry slot).1).card ≤ (idx.foreign (sh.writes.map Prod.snd)).length := by
    have hlength : (idx.foreign (sh.writes.map Prod.snd)).length =
        (sh.writes.filter fun w => ¬ idx.IsBaseKey w.2.1).length := by
      rw [DramIndex.foreign, List.filter_map, List.length_map]
      rfl
    rw [hlength]
    refine le_trans (Finset.card_le_card_of_injOn (fun slot => (slot, entry slot)) ?_ ?_)
      (List.toFinset_card_le _)
    · intro slot hslot
      rw [Finset.mem_coe, Finset.mem_filter, Finset.mem_range] at hslot
      rw [Finset.mem_coe, List.mem_toFinset, List.mem_filter]
      exact ⟨mem_of_contents (hentry slot hslot.1), decide_eq_true hslot.2⟩
    · exact fun slot _ slot' _ heq => congrArg Prod.fst heq
  have hsplit := Finset.card_filter_add_card_filter_not (s := Finset.range sh.newTotalSize)
    fun slot => idx.IsBaseKey (entry slot).1
  rw [Finset.card_range] at hsplit
  omega

end Unsound

/-- Whenever a buffered key is a base key, no order of the threads merges soundly. -/
theorem merge_update_unsound (idx : DramIndex BufPage OptNode) (h : PagesGuarded idx)
    (hupdate : ∃ e ∈ idx.bufferedEntries, idx.IsBaseKey e.1)
    (schedule : List (Fin mergeThreadNum)) (hdone : (mergeRun idx schedule).Finished) :
    ¬ UpdateSound idx (mergeRun idx schedule).shared := by
  intro hsound
  have hs := mergeInv_run idx schedule
  have hneed := hsound.le_foreign
  have hhave := hs.length_foreign_le h hdone
  have htotal := hs.total_finished hdone
  obtain ⟨e, he, hbase⟩ := hupdate
  -- the buffered base key is one entry that no foreign store stands for
  have hfewer : (idx.foreign idx.bufferedEntries).length < idx.bufferedEntries.length :=
    List.length_filter_lt_length_iff_exists.mpr ⟨e, he, by simpa using hbase⟩
  omega

section Eighteen

theorem isBaseKey_eighteen : (evensWith 18).IsBaseKey 18 :=
  ⟨8, by simp [evensWith], rfl⟩

theorem guarded_eighteen : PagesGuarded (evensWith 18) :=
  (mergeable_evensWith (by decide) (by decide)).toPagesGuarded

/-- Some order of the threads finishes the merge of the key 18. -/
theorem finished_eighteen : ∃ schedule, (mergeRun (evensWith 18) schedule).Finished := by
  obtain ⟨enough, hfinish⟩ := mergeRun_finished (evensWith 18)
  refine ⟨_, hfinish (List.replicate enough (List.finRange mergeThreadNum)) ?_ ?_⟩
  · intro round hround t
    rw [List.eq_of_mem_replicate hround]
    exact List.mem_finRange t
  · rw [List.length_replicate]

/-- The key 18, the ninth base key. -/
theorem merge_eighteen_unsound :
    ∃ schedule, (mergeRun (evensWith 18) schedule).Finished ∧
      ¬ UpdateSound (evensWith 18) (mergeRun (evensWith 18) schedule).shared := by
  obtain ⟨schedule, hdone⟩ := finished_eighteen
  refine ⟨schedule, hdone, merge_update_unsound (evensWith 18) guarded_eighteen
    ⟨(18, .ofByte 98), ?_, isBaseKey_eighteen⟩ schedule hdone⟩
  rw [bufferedEntries_evensWith]
  exact List.mem_singleton_self _

/-- The last thread's 33 passes fill 32 slots and end in the branch of the message; the others
make no pass. -/
theorem passes_eighteen :
    (∀ t : Fin mergeThreadNum, t ≠ 31 → ((evensWith 18).boundsOf t).totalOps = 0) ∧
      let events := ((evensWith 18).mergePasses ((evensWith 18).boundsOf 31)
        ((evensWith 18).startOf 31) ((evensWith 18).boundsOf 31).totalOps).1
      (events.filterMap MergeEvent.store).map Prod.fst = List.range 32 ∧ .error ∈ events := by
  decide +kernel

/-- The merge of the key 18 publishes 33 slots, prints its message and leaves the last slot
unwritten. -/
theorem merge_eighteen_unwritten :
    ∃ schedule, let s := mergeRun (evensWith 18) schedule
      s.Finished ∧ s.shared.newTotalSize = 33 ∧ s.shared.newEntry 32 = none ∧
        (31, .error) ∈ s.shared.trace ∧ ¬ UpdateSound (evensWith 18) s.shared := by
  obtain ⟨schedule, hdone⟩ := finished_eighteen
  have hs := mergeInv_run (evensWith 18) schedule
  obtain ⟨hothers, hslots, herror⟩ := passes_eighteen
  have hmessage : (31, .error) ∈ (mergeRun (evensWith 18) schedule).shared.trace := by
    rw [← mem_own, hs.events_finished hdone]
    exact herror
  refine ⟨schedule, hdone, hs.total_finished hdone, ?_, hmessage, fun h => h.noError 31 hmessage⟩
  · rw [MergeShared.newEntry, contents_eq_none]
    intro hmem
    obtain ⟨w, hw, hslot⟩ := List.mem_map.mp hmem
    obtain ⟨event, hevent, hstore⟩ := List.mem_filterMap.mp hw
    obtain ⟨⟨t, _⟩, htrace, rfl⟩ := List.mem_map.mp hevent
    have hown := mem_own.mpr htrace
    rw [hs.events_finished hdone] at hown
    by_cases ht : t = 31
    · subst ht
      have h32 : 32 ∈ List.range 32 := by
        rw [← hslots, ← hslot]
        exact List.mem_map_of_mem (List.mem_filterMap.mpr ⟨_, hown, hstore⟩)
      exact absurd h32 (by decide)
    · rw [hothers t ht] at hown
      exact absurd hown (by simp [DramIndex.mergePasses])

end Eighteen

end PimLex
