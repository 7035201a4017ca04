import Mathlib.Data.List.Pairwise
import Mathlib.Data.List.Sort
import Mathlib.Data.List.Nodup

/-!
# Sorting with a comparison

A library sort returns a permutation in which no entry comes before one that is
less. Nothing else is known of it: entries that the comparison does not tell
apart may come in any order. For a comparison by a key of a linear order such a
sort exists, and the keys come out in their order.
-/

namespace PimLex.Search

section Insert

variable {α : Type*} {R : α → α → Prop} {l : List α} {r : α} {k : ℕ}

theorem insertIdx_eq_append (h : k ≤ l.length) : l.insertIdx k r = l.take k ++ r :: l.drop k := by
  induction k generalizing l with
  | zero => rfl
  | succ k ih =>
    cases l with
    | nil => exact absurd h (Nat.not_succ_le_zero k)
    | cons a l => rw [List.insertIdx_succ_cons, ih (Nat.le_of_succ_le_succ h)]; rfl

/-- An entry put into a sorted list leaves it sorted exactly if it fits where it is put. -/
theorem pairwise_insertIdx_iff (hl : l.Pairwise R) (h : k ≤ l.length) :
    (l.insertIdx k r).Pairwise R ↔ (∀ a ∈ l.take k, R a r) ∧ ∀ b ∈ l.drop k, R r b := by
  rw [← List.take_append_drop k l, List.pairwise_append] at hl
  rw [insertIdx_eq_append h, List.pairwise_append, List.pairwise_cons]
  simp only [List.forall_mem_cons]
  constructor
  · rintro ⟨-, ⟨hbehind, -⟩, hfront⟩
    exact ⟨fun a ha => (hfront a ha).1, hbehind⟩
  · rintro ⟨hfront, hbehind⟩
    exact ⟨hl.1, ⟨hbehind, hl.2.1⟩, fun a ha => ⟨hfront a ha, hl.2.2 a ha⟩⟩

end Insert

/-- A sort by the comparison `less`. -/
structure StdSort {α : Type*} (less : α → α → Bool) where
  sort : List α → List α
  perm : ∀ l, (sort l).Perm l
  sorted : ∀ l, (sort l).Pairwise fun a b => less b a = false

namespace StdSort

variable {α β : Type*} [LinearOrder β] {f : α → β}

/-- The stable sort by a key. -/
def byKey (f : α → β) : StdSort fun a b => decide (f a < f b) where
  sort l := l.mergeSort fun a b => decide (f a ≤ f b)
  perm l := List.mergeSort_perm l _
  sorted l := by
    have htrans : ∀ a b c, decide (f a ≤ f b) = true → decide (f b ≤ f c) = true →
        decide (f a ≤ f c) = true := by
      intro a b c hab hbc
      exact decide_eq_true ((of_decide_eq_true hab).trans (of_decide_eq_true hbc))
    have htotal : ∀ a b, (decide (f a ≤ f b) || decide (f b ≤ f a)) = true := by
      intro a b
      simpa using le_total (f a) (f b)
    refine (List.pairwise_mergeSort htrans htotal l).imp fun h => ?_
    exact decide_eq_false (not_lt.mpr (of_decide_eq_true h))

/-- The stable sort by a key, the largest first. -/
def byKeyDesc (f : α → β) : StdSort fun a b => decide (f a > f b) where
  sort := (byKey fun a => OrderDual.toDual (f a)).sort
  perm := (byKey fun a => OrderDual.toDual (f a)).perm
  sorted l := ((byKey fun a => OrderDual.toDual (f a)).sorted l).imp fun h =>
    decide_eq_false (of_decide_eq_false h)

/-- Insertion by a key, a sort that the kernel evaluates. -/
def byInsertion (f : α → β) : StdSort fun a b => decide (f a < f b) where
  sort l := l.insertionSort fun a b => f a ≤ f b
  perm l := List.perm_insertionSort _ l
  sorted l := by
    have htrans : IsTrans α fun a b => f a ≤ f b := ⟨fun _ _ _ => le_trans⟩
    have htotal : Std.Total fun a b : α => f a ≤ f b := ⟨fun a b => le_total (f a) (f b)⟩
    refine (List.pairwise_insertionSort _ l).imp fun h => ?_
    exact decide_eq_false (not_lt.mpr h)

/-- Insertion by a key, the largest first. -/
def byInsertionDesc (f : α → β) : StdSort fun a b => decide (f a > f b) where
  sort := (byInsertion fun a => OrderDual.toDual (f a)).sort
  perm := (byInsertion fun a => OrderDual.toDual (f a)).perm
  sorted l := ((byInsertion fun a => OrderDual.toDual (f a)).sorted l).imp fun h =>
    decide_eq_false (of_decide_eq_false h)

/-- The keys come out strictly sorted exactly if they are distinct. -/
theorem pairwise_lt_iff (s : StdSort fun a b => decide (f a < f b)) (l : List α) :
    ((s.sort l).map f).Pairwise (· < ·) ↔ (l.map f).Nodup := by
  have hperm := (s.perm l).map f
  rw [← hperm.nodup_iff]
  constructor
  · exact fun h => h.imp fun hlt => hlt.ne
  · intro hnodup
    have hle : ((s.sort l).map f).Pairwise (· ≤ ·) :=
      List.pairwise_map.mpr ((s.sorted l).imp fun h => not_lt.mp (of_decide_eq_false h))
    exact hle.imp₂ (fun _ _ hab hne => lt_of_le_of_ne hab hne) hnodup

end StdSort

end PimLex.Search
