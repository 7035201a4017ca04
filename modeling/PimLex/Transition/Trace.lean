import Mathlib.Data.List.Nodup
import Mathlib.Data.List.Perm.Basic
import Mathlib.Tactic.Common

/-!
# Traces of threads and what they leave in memory

A trace lists events with the threads that caused them. It is a rearrangement of
the threads' own traces. Writes leave in a slot what the last of them stored;
when no slot is written twice, that is whatever was written there.
-/

namespace PimLex.Transition

variable {ι ε β : Type*}

section Own

variable [DecidableEq ι] {i j : ι} {e : ε}

/-- The events of thread `i`, in order. -/
def own (i : ι) (trace : List (ι × ε)) : List ε :=
  (trace.filter fun x => x.1 = i).map Prod.snd

@[simp] theorem own_nil : own i ([] : List (ι × ε)) = [] := rfl

theorem own_append (trace trace' : List (ι × ε)) :
    own i (trace ++ trace') = own i trace ++ own i trace' := by
  rw [own, List.filter_append, List.map_append]
  rfl

theorem own_concat_self (trace : List (ι × ε)) :
    own i (trace ++ [(i, e)]) = own i trace ++ [e] := by
  rw [own_append]
  simp [own]

theorem own_concat_of_ne (h : i ≠ j) (trace : List (ι × ε)) :
    own i (trace ++ [(j, e)]) = own i trace := by
  rw [own_append]
  simp [own, Ne.symm h]

theorem mem_own {trace : List (ι × ε)} : e ∈ own i trace ↔ (i, e) ∈ trace := by
  simp [own]

/-- A trace rearranges the traces of the threads it mentions. -/
theorem perm_own {threads : List ι} (hnodup : threads.Nodup) {trace : List (ι × ε)}
    (hall : ∀ x ∈ trace, x.1 ∈ threads) :
    (trace.map Prod.snd).Perm (threads.flatMap fun i => own i trace) := by
  induction trace with
  | nil => simp
  | cons x trace ih =>
    obtain ⟨hx, hrest⟩ := List.forall_mem_cons.mp hall
    obtain ⟨front, back, rfl⟩ := List.append_of_mem hx
    -- the first event belongs to one thread and leaves the others' traces alone
    have hnot : ∀ l : List ι, x.1 ∉ l →
        (l.flatMap fun i => own i (x :: trace)) = l.flatMap fun i => own i trace := by
      intro l hl
      apply List.flatMap_congr
      intro i hi
      have hne : x.1 ≠ i := fun heq => hl (heq ▸ hi)
      simp [own, hne]
    rw [List.nodup_append, List.nodup_cons] at hnodup
    have hfront : x.1 ∉ front := fun hmem =>
      hnodup.2.2 _ hmem _ List.mem_cons_self rfl
    have hself : own x.1 (x :: trace) = x.2 :: own x.1 trace := by simp [own]
    specialize ih hrest
    rw [List.flatMap_append, List.flatMap_cons] at ih ⊢
    rw [hnot front hfront, hnot back hnodup.2.1.1, hself, List.map_cons, List.cons_append]
    exact (ih.cons _).trans List.perm_middle.symm

end Own

section Memory

variable {writes : List (ℕ × β)} {s : ℕ} {x : β}

/-- What the last write to slot `s` stored there, if any write did. -/
def contents (writes : List (ℕ × β)) (s : ℕ) : Option β := writes.reverse.lookup s

theorem mem_of_contents (h : contents writes s = some x) : (s, x) ∈ writes := by
  obtain ⟨later, earlier, heq, -⟩ := List.lookup_eq_some_iff.mp h
  rw [← List.mem_reverse, heq]
  exact List.mem_append_right _ List.mem_cons_self

/-- A slot is empty exactly when no write went there. -/
theorem contents_eq_none : contents writes s = none ↔ s ∉ writes.map Prod.fst := by
  rw [contents, List.lookup_eq_none_iff]
  simp only [List.mem_reverse, List.mem_map, not_exists, not_and]
  exact ⟨fun h w hw hs => absurd hs.symm (by simpa using h w hw),
    fun h w hw => by simpa using fun hs : s = w.1 => h w hw hs.symm⟩

/-- With no slot written twice, every write stays. -/
theorem contents_iff (h : (writes.map Prod.fst).Nodup) :
    contents writes s = some x ↔ (s, x) ∈ writes := by
  refine ⟨mem_of_contents, ?_⟩
  intro hx
  cases hc : contents writes s with
  | none => exact absurd (List.mem_map_of_mem hx) (contents_eq_none.mp hc)
  | some y =>
    have hinj := List.inj_on_of_nodup_map h (mem_of_contents hc) hx rfl
    rw [Prod.mk.injEq] at hinj
    rw [hinj.2]

/-- A write to the first free slot appends to what the slots before it hold. -/
theorem map_range_update (mem : ℕ → β) (n : ℕ) (x : β) :
    (List.range (n + 1)).map (Function.update mem n x) = (List.range n).map mem ++ [x] := by
  rw [List.range_succ, List.map_append, List.map_singleton, Function.update_self]
  congr 1
  apply List.map_congr_left
  intro i hi
  exact Function.update_of_ne (Nat.ne_of_lt (List.mem_range.mp hi)) _ _

/-- Reading all positions of a list gives the list. -/
theorem filterMap_getElem?_range (l : List β) :
    (List.range l.length).filterMap (fun i => l[i]?) = l := by
  induction l with
  | nil => rfl
  | cons x l ih =>
    rw [List.length_cons, List.range_succ_eq_map, List.filterMap_cons, List.filterMap_map]
    exact congrArg (x :: ·) ih

end Memory

end PimLex.Transition
