import Mathlib.Data.List.Infix
import Mathlib.Data.List.Forall2
import Mathlib.Tactic.Common

/-!
# Cutting a list greedily

A list is cut into pieces that are good, where every part of a good piece is good.
Whoever makes each piece as long as possible needs the fewest pieces. Whoever first
divides the list into chunks, and then cuts every chunk that way, needs at most one
more for each place of division.
-/

namespace PimLex.Fitting

variable {α : Type*} {P Q : List α → Prop} {l r s piece : List α}
  {cuts cuts' chunks : List (List α)} {parts : List (List (List α))}

/-- Every contiguous part of a good list is good. -/
def Hereditary (P : List α → Prop) : Prop := ∀ ⦃l r⦄, l <:+: r → P r → P l

/-- The list is made up of good pieces. -/
structure Cuts (P : List α → Prop) (l : List α) (cuts : List (List α)) : Prop where
  flatten_eq : cuts.flatten = l
  good : ∀ piece ∈ cuts, P piece

/-- No piece could have had the first element of the next one too. -/
def Maximal (P : List α → Prop) : List (List α) → Prop
  | piece :: next :: rest => (∀ x ∈ next.head?, ¬P (piece ++ [x])) ∧ Maximal P (next :: rest)
  | _ => True

/-- The list is cut into pieces as long as possible. -/
structure Greedy (P : List α → Prop) (l : List α) (cuts : List (List α)) : Prop
    extends Cuts P l cuts where
  nonempty : ∀ piece ∈ cuts, piece ≠ []
  maximal : Maximal P cuts

namespace Cuts

theorem nil : Cuts P [] [] := ⟨rfl, nofun⟩

theorem mono (h : Cuts P l cuts) (hPQ : ∀ l, P l → Q l) : Cuts Q l cuts where
  flatten_eq := h.flatten_eq
  good piece hmem := hPQ piece (h.good piece hmem)

theorem cons (hpiece : P piece) (h : Cuts P l cuts) : Cuts P (piece ++ l) (piece :: cuts) where
  flatten_eq := by rw [List.flatten_cons, h.flatten_eq]
  good := List.forall_mem_cons.mpr ⟨hpiece, h.good⟩

theorem tail (h : Cuts P l (piece :: cuts)) : Cuts P cuts.flatten cuts where
  flatten_eq := rfl
  good p hp := h.good p (List.mem_cons_of_mem _ hp)

theorem append (h : Cuts P l cuts) (h' : Cuts P r cuts') : Cuts P (l ++ r) (cuts ++ cuts') where
  flatten_eq := by rw [List.flatten_append, h.flatten_eq, h'.flatten_eq]
  good := List.forall_mem_append.mpr ⟨h.good, h'.good⟩

/-- To divide a list costs at most one more piece. -/
theorem exists_split (hP : Hereditary P) (h : Cuts P (l ++ r) cuts) :
    ∃ cl cr, Cuts P l cl ∧ Cuts P r cr ∧ cl.length + cr.length ≤ cuts.length + 1 := by
  induction cuts generalizing l with
  | nil =>
    obtain ⟨rfl, rfl⟩ := List.append_eq_nil_iff.mp h.flatten_eq.symm
    exact ⟨[], [], nil, nil, Nat.zero_le _⟩
  | cons piece rest ih =>
    have hflat : piece ++ rest.flatten = l ++ r := h.flatten_eq
    have hpiece := h.good piece List.mem_cons_self
    rcases List.append_eq_append_iff.mp hflat with ⟨l', rfl, hrest⟩ | ⟨t, rfl, rfl⟩
    · have hl' : Cuts P (l' ++ r) rest := hrest ▸ h.tail
      obtain ⟨cl, cr, hcl, hcr, hlen⟩ := ih hl'
      refine ⟨piece :: cl, cr, hcl.cons hpiece, hcr, ?_⟩
      simp only [List.length_cons]
      omega
    · -- the piece itself is divided
      have hleft := hP (List.prefix_append l t).isInfix hpiece
      have hright := hP (List.suffix_append l t).isInfix hpiece
      refine ⟨[l], t :: rest, ?_, h.tail.cons hright, ?_⟩
      · simpa using nil.cons hleft
      · simp only [List.length_cons, List.length_nil]
        omega

end Cuts

namespace Greedy

theorem nil : Greedy P [] [] := ⟨Cuts.nil, nofun, trivial⟩

/-- A piece goes before others if it could not have had the first element too. -/
theorem cons (hpiece : P piece) (hne : piece ≠ []) (hmax : ∀ x ∈ l.head?, ¬P (piece ++ [x]))
    (h : Greedy P l cuts) : Greedy P (piece ++ l) (piece :: cuts) where
  toCuts := h.toCuts.cons hpiece
  nonempty := List.forall_mem_cons.mpr ⟨hne, h.nonempty⟩
  maximal := by
    cases cuts with
    | nil => trivial
    | cons next rest =>
      refine ⟨fun x hx => hmax x ?_, h.maximal⟩
      rw [← h.flatten_eq, List.flatten_cons,
        List.head?_append_of_ne_nil _ (h.nonempty next List.mem_cons_self)]
      exact hx

theorem tail (h : Greedy P l (piece :: cuts)) : Greedy P cuts.flatten cuts where
  toCuts := h.toCuts.tail
  nonempty p hp := h.nonempty p (List.mem_cons_of_mem _ hp)
  maximal := by
    cases cuts with
    | nil => trivial
    | cons next rest => exact h.maximal.2

/-- Who cuts greedily stays ahead of whoever starts further left. -/
theorem length_le_of_append (hP : Hereditary P) (h : Greedy P l cuts)
    (h' : Cuts P (s ++ l) cuts') : cuts.length ≤ cuts'.length := by
  induction cuts generalizing l s cuts' with
  | nil => exact Nat.zero_le _
  | cons piece rest ih =>
    obtain rfl : piece ++ rest.flatten = l := h.flatten_eq
    obtain ⟨x, xs, rfl⟩ := List.exists_cons_of_ne_nil (h.nonempty piece List.mem_cons_self)
    cases cuts' with
    | nil => exact absurd h'.flatten_eq (by simp)
    | cons piece' rest' =>
      simp only [List.length_cons, Nat.add_le_add_iff_right]
      cases rest with
      | nil => exact Nat.zero_le _
      | cons next rest =>
        obtain ⟨y, ys, rfl⟩ := List.exists_cons_of_ne_nil
          (h.nonempty next (List.mem_cons_of_mem _ List.mem_cons_self))
        have hflat : piece' ++ rest'.flatten =
            (s ++ (x :: xs)) ++ ((y :: ys) :: rest).flatten := by
          rw [List.append_assoc]
          exact h'.flatten_eq
        -- with `y` the greedy piece would not be good, so no piece goes over it
        rcases List.append_eq_append_iff.mp hflat with ⟨t, hs, hrest⟩ | ⟨t, hpiece', hrest⟩
        · refine ih h.tail (s := t) ?_
          rw [← hrest]
          exact h'.tail
        · cases t with
          | nil =>
            refine ih h.tail (s := []) ?_
            rw [List.nil_append] at hrest ⊢
            exact hrest ▸ h'.tail
          | cons z zs =>
            obtain rfl : y = z := (List.cons.inj hrest).1
            have hinfix : (x :: xs) ++ [y] <:+: piece' :=
              ⟨s, zs, by simp [hpiece']⟩
            exact absurd (hP hinfix (h'.good piece' List.mem_cons_self)) (h.maximal.1 y rfl)

theorem flatten (hparts : List.Forall₂ (Greedy P) chunks parts) :
    Cuts P chunks.flatten parts.flatten ∧ ∀ piece ∈ parts.flatten, piece ≠ [] := by
  induction hparts with
  | nil => exact ⟨Cuts.nil, nofun⟩
  | cons hpart _ ih =>
    exact ⟨hpart.toCuts.append ih.1, List.forall_mem_append.mpr ⟨hpart.nonempty, ih.2⟩⟩

/-- Cutting greedily takes the fewest pieces. -/
theorem length_le (hP : Hereditary P) (h : Greedy P l cuts) (h' : Cuts P l cuts') :
    cuts.length ≤ cuts'.length :=
  length_le_of_append hP h (s := []) h'

/-- Cut chunk by chunk, a list takes at most one more piece for each place of division. -/
theorem length_flatten_le (hP : Hereditary P) (hparts : List.Forall₂ (Greedy P) chunks parts)
    (h : Cuts P chunks.flatten cuts) :
    parts.flatten.length ≤ cuts.length + (chunks.length - 1) := by
  induction hparts generalizing cuts with
  | nil => exact Nat.zero_le _
  | @cons chunk part chunks parts hpart hparts ih =>
    obtain ⟨cl, cr, hcl, hcr, hlen⟩ := Cuts.exists_split hP h
    have hfirst := length_le hP hpart hcl
    have hrest := ih hcr
    rw [List.flatten_cons, List.length_append, List.length_cons]
    cases hparts with
    | nil =>
      have hchunk : Cuts P chunk cuts := by simpa using h
      have hwhole := length_le hP hpart hchunk
      simpa using hwhole
    | cons _ _ =>
      simp only [List.length_cons] at hrest ⊢
      omega

end Greedy

end PimLex.Fitting
