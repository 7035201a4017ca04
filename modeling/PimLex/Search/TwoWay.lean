import Mathlib.Data.List.Basic
import Mathlib.Tactic.Common

/-!
# Merging in slices

A two-way merge takes one entry after the other from the front of either side.
When two lists are cut into slices and everything in a slice comes before
everything in the next one, merging slice by slice gives the merge of the whole
lists.
-/

namespace PimLex.Search

variable {ι α : Type*} {le : α → α → Bool} {a b : α} {l r : List α}

/-- A step of a two-way merge takes the front of one side; what is left is merged further. -/
inductive MergeStep (le : α → α → Bool) : List α → List α → α → List α → List α → Prop
  | left {a : α} {l r : List α} (h : ∀ b ∈ r.head?, le a b = true) : MergeStep le (a :: l) r a l r
  | right {b : α} {l r : List α} (h : ∀ a ∈ l.head?, le a b = false) :
    MergeStep le l (b :: r) b l r

namespace MergeStep

variable {x : α} {l' r' : List α}

theorem merge_eq (h : MergeStep le l r x l' r') : l.merge r le = x :: l'.merge r' le := by
  cases h with
  | left h =>
    cases r with
    | nil => rw [List.merge_right, List.merge_right]
    | cons b r => rw [List.cons_merge_cons_pos _ _ _ (h b rfl)]
  | right h =>
    cases l with
    | nil => rw [List.nil_merge, List.nil_merge]
    | cons a l => rw [List.cons_merge_cons_neg _ _ _ (by simp [h a rfl])]

theorem subset (h : MergeStep le l r x l' r') : l' ⊆ l ∧ r' ⊆ r := by
  cases h with
  | left h => exact ⟨List.subset_cons_self _ _, List.Subset.refl _⟩
  | right h => exact ⟨List.Subset.refl _, List.subset_cons_self _ _⟩

end MergeStep

/-- Everything in the first slice comes before everything in the second one. -/
structure Before (le : α → α → Bool) (l r l' r' : List α) : Prop where
  left : ∀ a ∈ l, ∀ b ∈ r', le a b = true
  right : ∀ a ∈ l', ∀ b ∈ r, le a b = false

theorem Before.merge_append {l' r' : List α} (h : Before le l r l' r') :
    (l ++ l').merge (r ++ r') le = l.merge r le ++ l'.merge r' le := by
  induction l generalizing r with
  | nil =>
    rw [List.nil_append, List.nil_merge]
    induction r with
    | nil => rfl
    | cons b r ih =>
      -- `b` comes before all that the left side has left, which is from the second slice
      have hnext : MergeStep le l' (b :: (r ++ r')) b l' (r ++ r') :=
        .right fun a ha => h.right a (List.mem_of_mem_head? ha) b List.mem_cons_self
      rw [List.cons_append, hnext.merge_eq,
        ih ⟨h.left, fun a ha b hb => h.right a ha b (List.mem_cons_of_mem _ hb)⟩]
      rfl
  | cons a l ihl =>
    have hleft : Before le l r l' r' :=
      ⟨fun x hx => h.left x (List.mem_cons_of_mem _ hx), h.right⟩
    induction r with
    | nil =>
      -- `a` comes before all that the right side has left, which is from the second slice
      have hnext : MergeStep le (a :: (l ++ l')) r' a (l ++ l') r' :=
        .left fun b hb => h.left a List.mem_cons_self b (List.mem_of_mem_head? hb)
      rw [List.nil_append, List.cons_append, List.merge_right, hnext.merge_eq]
      have hrest := ihl hleft
      rw [List.nil_append, List.merge_right] at hrest
      rw [hrest]
      rfl
    | cons b r ihr =>
      rw [List.cons_append, List.cons_append, List.cons_merge_cons, List.cons_merge_cons]
      split
      · rw [← List.cons_append, ihl hleft]
        rfl
      · have hright : Before le (a :: l) r l' r' :=
          ⟨h.left, fun x hx c hc => h.right x hx c (List.mem_cons_of_mem _ hc)⟩
        rw [← List.cons_append, ihr hright ⟨hleft.left, hright.right⟩]
        rfl

/-- Merging slice by slice merges the whole. -/
theorem merge_flatMap {slices : List ι} {left right : ι → List α}
    (h : slices.Pairwise fun i j => Before le (left i) (right i) (left j) (right j)) :
    (slices.flatMap left).merge (slices.flatMap right) le =
      slices.flatMap fun i => (left i).merge (right i) le := by
  induction slices with
  | nil => simp
  | cons i slices ih =>
    obtain ⟨hi, hrest⟩ := List.pairwise_cons.mp h
    have hbefore : Before le (left i) (right i) (slices.flatMap left) (slices.flatMap right) := by
      constructor
      · intro a ha b hb
        obtain ⟨j, hj, hb⟩ := List.mem_flatMap.mp hb
        exact (hi j hj).left a ha b hb
      · intro a ha b hb
        obtain ⟨j, hj, ha⟩ := List.mem_flatMap.mp ha
        exact (hi j hj).right a ha b hb
    rw [List.flatMap_cons, List.flatMap_cons, List.flatMap_cons, hbefore.merge_append, ih hrest]

/-- The segments between consecutive cuts make up the whole. -/
theorem flatMap_segments (segment : ℕ → ℕ → List α) (cut : ℕ → ℕ) (n : ℕ)
    (hnil : segment (cut 0) (cut 0) = [])
    (happend : ∀ m < n, segment (cut 0) (cut m) ++ segment (cut m) (cut (m + 1)) =
      segment (cut 0) (cut (m + 1))) :
    (List.range n).flatMap (fun m => segment (cut m) (cut (m + 1))) =
      segment (cut 0) (cut n) := by
  induction n with
  | zero => exact hnil.symm
  | succ n ih =>
    rw [List.range_succ, List.flatMap_append, ih fun m hm => happend m (Nat.lt_succ_of_lt hm),
      List.flatMap_singleton, happend n (Nat.lt_succ_self n)]

end PimLex.Search
