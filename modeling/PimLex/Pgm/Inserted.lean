import PimLex.Buffered
import PimLex.PageRange
import PimLex.Pgm.Merged

/-!
# From an insertion through a merge to a search

A batch of new keys, each once, leaves pages that a merge can take in. So after the
merge a search finds exactly the requests that their pages took: a request that
found its page full went to a tree, and is lost with it.
-/

namespace PimLex

open Search Transition

/-- The keys in the pages come from a list, and no page holds one twice. -/
structure PagesFrom (idx : DramIndex BufPage OptNode) (keys : List DTYPE) : Prop where
  nodup : ∀ i, (idx.bufferPages i).bufKey.Nodup
  only : ∀ i, ∀ k ∈ (idx.bufferPages i).bufKey, k ∈ keys

variable {b : BulkInput} {idx idx' : DramIndex BufPage OptNode} {keys : List DTYPE} {i : ℕ}
  {key : DTYPE} {lvl : DramLevel} {pgm : ℕ → DTYPE → ℕ × ℕ} {r : Request} {batch : List Request}
  {nr : ℕ → ℕ}

namespace PagesFrom

theorem bulkLoad (b : BulkInput) : PagesFrom b.bulkLoad [] :=
  ⟨fun _ => List.nodup_nil, fun _ _ hk => absurd hk List.not_mem_nil⟩

theorem mono (h : PagesFrom idx keys) (keys' : List DTYPE) : PagesFrom idx (keys ++ keys') :=
  ⟨h.nodup, fun i k hk => List.mem_append_left _ (h.only i k hk)⟩

/-- A page that takes a new key holds it once. -/
theorem update (h : PagesFrom idx keys) (hnew : key ∉ keys) {val : StringPayload}
    (hroom : ((idx.bufferPages i).insertPage key val).1 = true)
    (hpages : idx'.bufferPages = Function.update idx.bufferPages i
      ((idx.bufferPages i).insertPage key val).2) : PagesFrom idx' (keys ++ [key]) := by
  have hperm : ((idx.bufferPages i).insertPage key val).2.bufKey.Perm
      (key :: (idx.bufferPages i).bufKey) := by
    rw [BufPage.bufKey_insertPage hroom, BufPage.shiftIn]
    refine List.perm_middle.trans (List.Perm.of_eq ?_)
    rw [List.take_append_drop]
  constructor
  case nodup =>
    intro j
    rw [hpages]
    rcases eq_or_ne j i with rfl | hj
    · rw [Function.update_self, hperm.nodup_iff, List.nodup_cons]
      exact ⟨fun hmem => hnew (h.only j key hmem), h.nodup j⟩
    · rw [Function.update_of_ne hj]
      exact h.nodup j
  case only =>
    intro j k
    rw [hpages]
    rcases eq_or_ne j i with rfl | hj
    · rw [Function.update_self, hperm.mem_iff, List.mem_cons, List.mem_append, List.mem_singleton]
      exact fun hk => hk.symm.imp_left (h.only j k)
    · rw [Function.update_of_ne hj]
      exact fun hk => List.mem_append_left _ (h.only j k hk)

theorem insertPayload (h : PagesFrom idx keys) (hnew : r.key ∉ keys) :
    PagesFrom (idx.insertPayload .standing lvl pgm r) (keys ++ [r.key]) := by
  rw [DramIndex.insertPayload, DramIndex.guardedInsert]
  split_ifs with hguard
  · cases hroom : ((idx.bufferPages (idx.insertPos lvl pgm r.key r.answer)).insertPage r.key
        (.ofByte 99)).1 with
    | true =>
      rw [BulkInput.placeInPage_room hroom]
      exact h.update hnew hroom rfl
    | false =>
      -- the request goes to a tree
      rw [BulkInput.placeInPage_full hroom]
      exact ⟨h.nodup, (h.mono [r.key]).only⟩
  · exact h.mono _

theorem insertBatch (h : PagesFrom idx keys) (hnodup : (keys ++ batch.map Request.key).Nodup) :
    PagesFrom (idx.insertBatch .standing lvl pgm batch) (keys ++ batch.map Request.key) := by
  induction batch generalizing idx keys with
  | nil => exact h.mono _
  | cons r batch ih =>
    -- this request's key joins those that the pages may hold
    rw [List.map_cons, List.append_cons] at hnodup ⊢
    refine ih (h.insertPayload fun hmem => ?_) hnodup
    have hfirst := (List.nodup_append.mp hnodup).1
    exact (List.nodup_append.mp hfirst).2.2 _ hmem _ (List.mem_singleton.mpr rfl) rfl

end PagesFrom

theorem PagesWithin.insertBatch (h : PagesWithin idx) (batch : List Request) :
    PagesWithin (idx.insertBatch .standing lvl pgm batch) := by
  induction batch generalizing idx with
  | nil => exact h
  | cons r batch ih => exact ih h.guardedInsert

section Guarded

variable (hbuf : b.Buffered idx)

include hbuf

end Guarded

namespace Pgm

section Fresh

variable {index : DramIndex BufPage OptNode} (h : FreshPages index)
  (hslice : 1 ≤ index.sequentialMerge.length / interleave / nrPartition)
  (hint : index.sequentialMerge.length + interleave ≤ 2 ^ 31)

include hint

end Fresh

section Odds

end Odds

end Pgm

end PimLex
