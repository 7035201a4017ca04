import PimLex.Merge.Progress

/-!
# The parallel merge is the sequential merge

When the merge is done a thread's events are the stores of its slice's merge into
its own slots. Whatever the order in which the threads ran, all stores together
are those of the sequential merge, one into each slot.
-/

namespace PimLex

open Transition

/-- What the new arrays must hold when no buffered key is a base key. -/
structure MergedApart (idx : DramIndex BufPage OptNode) (sh : MergeShared) : Prop where
  total : sh.newTotalSize = idx.totalSize + idx.bufferedEntries.length
  once : (sh.writes.map Prod.fst).Perm (List.range sh.newTotalSize)
  own : ∀ t slot entry, (t, .write slot entry) ∈ sh.trace →
    idx.slotCut t ≤ slot ∧ slot < idx.slotCut (t + 1)
  noError : ∀ t, (t, .error) ∉ sh.trace
  sequential : sh.newEntries = idx.sequentialMerge
  sorted : sh.newEntries.Pairwise fun a b => a.1 ≤ b.1
  union : sh.newEntries.Perm (idx.baseEntries ++ idx.bufferedEntries)

section Writes

theorem writesFrom_append (off : ℕ) (l l' : List Entry) :
    writesFrom off (l ++ l') = writesFrom off l ++ writesFrom (off + l.length) l' := by
  rw [writesFrom, List.zipIdx_append, List.map_append]
  rfl

theorem mem_writesFrom {off slot : ℕ} {l : List Entry} {e : Entry}
    (h : .write slot e ∈ writesFrom off l) : off ≤ slot ∧ slot < off + l.length := by
  obtain ⟨x, hx, heq⟩ := List.mem_map.mp h
  rw [MergeEvent.write.injEq] at heq
  obtain ⟨rfl, -⟩ := heq
  exact ⟨List.le_snd_of_mem_zipIdx hx, List.snd_lt_add_of_mem_zipIdx hx⟩

theorem error_not_mem_writesFrom (off : ℕ) (l : List Entry) : .error ∉ writesFrom off l := by
  intro h
  obtain ⟨x, -, heq⟩ := List.mem_map.mp h
  exact absurd heq (by simp)

theorem filterMap_writesFrom (off : ℕ) (l : List Entry) :
    (writesFrom off l).filterMap MergeEvent.store = (l.zipIdx off).map fun x => (x.2, x.1) := by
  rw [writesFrom, List.filterMap_map]
  exact congrFun List.filterMap_eq_map _

/-- The slices' stores, put together, are the stores of the whole. -/
theorem flatMap_writesFrom (slot : ℕ → ℕ) (slice : ℕ → List Entry) (n : ℕ)
    (hslot : ∀ m < n, slot (m + 1) = slot m + (slice m).length) :
    ((List.range n).flatMap fun m => writesFrom (slot m) (slice m)) =
        writesFrom (slot 0) ((List.range n).flatMap slice) ∧
      slot n = slot 0 + ((List.range n).flatMap slice).length := by
  induction n with
  | zero => exact ⟨rfl, rfl⟩
  | succ n ih =>
    obtain ⟨hevents, hlast⟩ := ih fun m hm => hslot m (Nat.lt_succ_of_lt hm)
    rw [List.range_succ, List.flatMap_append, List.flatMap_append, hevents, List.flatMap_singleton,
      List.flatMap_singleton, hlast, writesFrom_append, List.length_append, hslot n n.lt_succ_self,
      hlast, Nat.add_assoc]
    exact ⟨rfl, rfl⟩

end Writes

section Finished

variable {idx : DramIndex BufPage OptNode} {s : MergeSystem}

/-- A finished thread has done all its passes. -/
theorem MergeInv.events_finished (h : MergeInv idx s) (hdone : s.Finished)
    (t : Fin mergeThreadNum) :
    own t s.shared.trace =
      (idx.mergePasses (idx.boundsOf t) (idx.startOf t) (idx.boundsOf t).totalOps).1 := by
  rw [(h.threads t).events, expectedEvents, hdone t]

theorem MergeInv.total_finished (h : MergeInv idx s) (hdone : s.Finished) :
    s.shared.newTotalSize = idx.totalSize + idx.bufferedEntries.length :=
  ((h.threads 0).summed rfl (by rw [hdone 0]; decide)).total

/-- The trace rearranges the threads' events. -/
theorem perm_trace (s : MergeSystem) :
    (s.shared.trace.map Prod.snd).Perm
      ((List.finRange mergeThreadNum).flatMap fun t => own t s.shared.trace) :=
  perm_own (List.nodup_finRange _) fun x _ => List.mem_finRange x.1

variable (h : Mergeable idx) (hapart : idx.Apart)
include h hapart

/-- All stores together are those of the sequential merge. -/
theorem MergeInv.perm_writes (hs : MergeInv idx s) (hdone : s.Finished) :
    s.shared.writes.Perm (idx.sequentialMerge.zipIdx.map fun x => (x.2, x.1)) := by
  have hown : ∀ t : Fin mergeThreadNum, own t s.shared.trace =
      writesFrom (idx.slotCut t) ((idx.oldSlice t).merge (idx.bufSlice t) keyLe) := fun t => by
    rw [hs.events_finished hdone, DramIndex.passes_startOf h hapart t.isLt]
  have hslices := (flatMap_writesFrom idx.slotCut
    (fun m => (idx.oldSlice m).merge (idx.bufSlice m) keyLe) mergeThreadNum fun m hm => by
      rw [DramIndex.slotCut_succ idx hm, DramIndex.totalOps_eq hm, List.length_merge]).1
  rw [DramIndex.slotCut_zero, DramIndex.flatMap_merge h.toPagesGuarded,
    ← List.map_coe_finRange_eq_range, List.flatMap_map] at hslices
  have htrace := (perm_trace s).filterMap MergeEvent.store
  rw [funext hown, hslices, filterMap_writesFrom] at htrace
  exact htrace

/-- The finished merge holds the sequential merge. -/
theorem MergeInv.mergedApart (hs : MergeInv idx s) (hdone : s.Finished) :
    MergedApart idx s.shared := by
  have hperm := hs.perm_writes h hapart hdone
  have htotal := hs.total_finished hdone
  have hlength : idx.sequentialMerge.length = s.shared.newTotalSize := by
    rw [htotal, DramIndex.sequentialMerge, List.length_merge, DramIndex.baseEntries,
      DramIndex.length_baseFrom, Nat.sub_zero]
  have hslots : (s.shared.writes.map Prod.fst).Perm (List.range s.shared.newTotalSize) := by
    have hmap := hperm.map Prod.fst
    rw [List.map_map] at hmap
    rw [← hlength, List.range_eq_range', ← List.zipIdx_map_snd]
    exact hmap
  have hentry : ∀ slot, s.shared.newEntry slot = idx.sequentialMerge[slot]? := by
    intro slot
    ext e
    have hnodup := hslots.nodup_iff.mpr List.nodup_range
    rw [MergeShared.newEntry, contents_iff hnodup, hperm.mem_iff, List.mem_map,
      ← List.mk_mem_zipIdx_iff_getElem?]
    constructor
    · rintro ⟨x, hx, heq⟩
      rw [Prod.mk.injEq] at heq
      rwa [← heq.1, ← heq.2]
    · exact fun hx => ⟨_, hx, rfl⟩
  have hentries : s.shared.newEntries = idx.sequentialMerge := by
    rw [MergeShared.newEntries, ← hlength, funext hentry]
    exact filterMap_getElem?_range _
  obtain ⟨hsorted, hunion⟩ := DramIndex.sequentialMerge_spec h
  -- the threads' own events decide the slots of each and that none is the message
  have hown : ∀ t event, (t, event) ∈ s.shared.trace →
      event ∈ writesFrom (idx.slotCut t) ((idx.oldSlice t).merge (idx.bufSlice t) keyLe) := by
    intro t event hmem
    rw [← DramIndex.passes_startOf h hapart t.isLt, ← hs.events_finished hdone]
    exact mem_own.mpr hmem
  refine ⟨htotal, hslots, ?own, ?noError, hentries, ?sorted, ?union⟩
  case own =>
    intro t slot e hmem
    have hslot := mem_writesFrom (hown t _ hmem)
    rwa [List.length_merge, ← DramIndex.totalOps_eq t.isLt,
      ← DramIndex.slotCut_succ idx t.isLt] at hslot
  case noError =>
    intro t hmem
    exact error_not_mem_writesFrom _ _ (hown t _ hmem)
  case sorted => rwa [hentries]
  case union => rwa [hentries]

end Finished

/-- Without a buffered base key the merge, run in any order that keeps giving every thread a
turn, comes to an end; and whenever it has ended, every slot below `new_total_size` was written
once, by the thread it belongs to, and the new arrays hold the sequential merge: sorted, and the
base entries and buffered entries together. -/
theorem parallel_merge_eq_sequential (idx : DramIndex BufPage OptNode) (h : Mergeable idx)
    (hapart : idx.Apart) :
    (∃ enough, ∀ rounds : List (List (Fin mergeThreadNum)), Rounds rounds →
      enough ≤ rounds.length → (mergeRun idx rounds.flatten).Finished) ∧
    ∀ schedule, (mergeRun idx schedule).Finished →
      MergedApart idx (mergeRun idx schedule).shared :=
  ⟨mergeRun_finished idx, fun schedule hdone =>
    (mergeInv_run idx schedule).mergedApart h hapart hdone⟩

section Witness

/-- The 32 even keys 2 to 64, with one key in the page of the second block. -/
def evensWith (k : DTYPE) : DramIndex BufPage OptNode where
  minKey := 2
  partialKeys i := 2 * (8 * i + 1)
  keys i := 2 * (i + 1)
  payloads _ := .ofByte 99
  totalSize := 32
  partialTotalSize := 4
  bufferPages i := if i = 1 then ⟨[k], [.ofByte 98], rfl, by simp [bufSize]⟩ else BufPage.init
  optOverflowTrees _ := OptNode.empty

theorem bufferedEntries_evensWith (k : DTYPE) :
    (evensWith k).bufferedEntries = [(k, .ofByte 98)] := by
  have hpages : (evensWith k).numBufPages = 5 := by
    simp [DramIndex.numBufPages, evensWith, pageRatio]
  rw [DramIndex.bufferedEntries, DramIndex.pagesFrom, hpages]
  simp [evensWith, BufPage.entries, BufPage.init, List.range']

theorem mergeable_evensWith {k : DTYPE} (hlow : 18 ≤ k) (hhigh : k < 34) :
    Mergeable (evensWith k) where
  strict _ _ hij _ := Nat.mul_lt_mul_of_pos_left (Nat.succ_lt_succ hij) (by decide)
  size_int := by simp [evensWith]
  guarded i _ x hx := by
    rcases eq_or_ne i 1 with rfl | hi
    · obtain rfl : x = k := by simpa [evensWith] using hx
      exact ⟨by simp [evensWith, pageRatio], hlow, hhigh⟩
    · simp [evensWith, hi, BufPage.init] at hx
  pos := by simp [evensWith]
  sorted i _ := by
    simp only [evensWith]
    split_ifs
    · exact List.pairwise_singleton _ _
    · exact List.Pairwise.nil
  total_int := by
    rw [bufferedEntries_evensWith]
    simp [evensWith]

/-- Two odd keys of block `i`. -/
def oddPage (i : ℕ) : BufPage :=
  ⟨[16 * i + 3, 16 * i + 5], [.ofByte 98, .ofByte 98], rfl, Nat.le_of_ble_eq_true rfl⟩

/-- The 1024 even keys 2 to 2048, with two odd keys in the page of every fourth block. -/
def evensWithOdds : DramIndex BufPage OptNode where
  minKey := 2
  partialKeys i := 2 * (8 * i + 1)
  keys i := 2 * (i + 1)
  payloads _ := .ofByte 99
  totalSize := 1024
  partialTotalSize := 128
  bufferPages i := if i % 4 = 1 then oddPage i else BufPage.init
  optOverflowTrees _ := OptNode.empty

theorem bufKey_evensWithOdds {i k : ℕ} (hk : k ∈ (evensWithOdds.bufferPages i).bufKey) :
    i % 4 = 1 ∧ (k = 16 * i + 3 ∨ k = 16 * i + 5) := by
  simp only [evensWithOdds] at hk
  split_ifs at hk with hi
  · exact ⟨hi, by simpa [oddPage] using hk⟩
  · exact absurd hk List.not_mem_nil

theorem mergeable_evensWithOdds : Mergeable evensWithOdds where
  strict _ _ hij _ := Nat.mul_lt_mul_of_pos_left (Nat.succ_lt_succ hij) (by decide)
  size_int := by decide
  guarded i hi (k : ℕ) hk := by
    obtain ⟨hfourth, hkey⟩ := bufKey_evensWithOdds hk
    have hpages : evensWithOdds.numBufPages = 129 := rfl
    rw [hpages] at hi
    change i + 1 < 128 ∧ 2 * (8 * i + 1) ≤ k ∧ k < 2 * (8 * (i + 1) + 1)
    omega
  pos := by decide
  sorted i _ := by
    simp only [evensWithOdds]
    split_ifs
    · exact List.pairwise_pair.mpr (Nat.add_le_add_left (by decide) _)
    · exact List.Pairwise.nil
  total_int := by decide +kernel

theorem apart_evensWithOdds : evensWithOdds.Apart := by
  rintro e he ⟨j, -, hj⟩
  obtain ⟨i, -, -, hmem⟩ := DramIndex.mem_pagesFrom.mp he
  obtain ⟨-, hkey⟩ := bufKey_evensWithOdds (DramIndex.mem_bufKey_of_mem hmem)
  change 2 * (j + 1) = e.1 at hj
  omega

/-- Each of the 32 threads merges two odd keys into its 32 even ones. -/
theorem parallel_merge_odds :
    (∀ t : Fin mergeThreadNum, (evensWithOdds.boundsOf t).totalOps = 34) ∧
    (∃ enough, ∀ rounds : List (List (Fin mergeThreadNum)), Rounds rounds →
      enough ≤ rounds.length → (mergeRun evensWithOdds rounds.flatten).Finished) ∧
    ∀ schedule, (mergeRun evensWithOdds schedule).Finished →
      MergedApart evensWithOdds (mergeRun evensWithOdds schedule).shared :=
  ⟨by decide +kernel,
    parallel_merge_eq_sequential evensWithOdds mergeable_evensWithOdds apart_evensWithOdds⟩

end Witness

end PimLex
