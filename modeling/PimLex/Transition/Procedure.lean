import Mathlib.Logic.Function.Basic
import Mathlib.Logic.Relation
import Mathlib.Order.Lattice.Nat
import Mathlib.Tactic.Common

/-!
# Procedures on shared data

A procedure works on data others use too, one access at a time, and keeps a local
state between its accesses until it has a result. Alone with the data it can end
in one way only. A serial history runs calls one after the other; it carries over
to any other meaning of the calls that a relation between the data preserves.
-/

namespace PimLex.Transition

open Relation

variable {ι δ ℓ γ ρ α κ : Type*}

/-- Calls in `γ`, run by accesses to the data `δ` with a local state `ℓ` in between, until the
local state has a result in `ρ`. -/
structure Procedure (δ ℓ γ ρ : Type*) where
  start : γ → ℓ
  act : δ → ℓ → δ × ℓ
  result : ℓ → Option ρ

namespace Procedure

variable {P : Procedure δ ℓ γ ρ} {x y z : δ × ℓ} {d d' d'' : δ} {c : γ} {r r' : ρ}

/-- One access by a call that has no result yet. -/
def Access (P : Procedure δ ℓ γ ρ) (x y : δ × ℓ) : Prop :=
  P.result x.2 = none ∧ y = P.act x.1 x.2

/-- The accesses of a call alone with the data. -/
def Exec (P : Procedure δ ℓ γ ρ) : δ × ℓ → δ × ℓ → Prop := ReflTransGen P.Access

/-- The call leads from the data `d` to the result and the data `d'`. -/
def Returns (P : Procedure δ ℓ γ ρ) (d : δ) (c : γ) (r : ρ) (d' : δ) : Prop :=
  ∃ l, P.Exec (d, P.start c) (d', l) ∧ P.result l = some r

theorem Exec.refl (P : Procedure δ ℓ γ ρ) (x : δ × ℓ) : P.Exec x x := ReflTransGen.refl

theorem Exec.trans (h : P.Exec x y) (h' : P.Exec y z) : P.Exec x z := ReflTransGen.trans h h'

/-- A further access. -/
theorem Exec.concat (h : P.Exec x y) (hy : P.result y.2 = none) :
    P.Exec x (P.act y.1 y.2) :=
  ReflTransGen.tail h ⟨hy, rfl⟩

/-- A first access. -/
theorem Exec.cons (hx : P.result x.2 = none) (h : P.Exec (P.act x.1 x.2) y) : P.Exec x y :=
  ReflTransGen.head ⟨hx, rfl⟩ h

theorem access_rightUnique (P : Procedure δ ℓ γ ρ) : Relator.RightUnique P.Access := by
  rintro x y z ⟨-, hy⟩ ⟨-, hz⟩
  exact hy.trans hz.symm

/-- A call that has its result makes no access. -/
theorem Exec.eq_of_result (h : P.Exec x y) (hx : P.result x.2 = some r) : y = x := by
  rcases ReflTransGen.cases_head h with rfl | ⟨z, ⟨hnone, -⟩, -⟩
  · rfl
  · rw [hx] at hnone
    exact absurd hnone (Option.some_ne_none r)

/-- A call alone ends in one way. -/
theorem Returns.unique (h : P.Returns d c r d') (h' : P.Returns d c r' d'') :
    r = r' ∧ d' = d'' := by
  obtain ⟨l, hexec, hr⟩ := h
  obtain ⟨l', hexec', hr'⟩ := h'
  have hend : (d', l) = (d'', l') := by
    rcases ReflTransGen.total_of_right_unique P.access_rightUnique hexec hexec' with hl | hl
    · exact (Exec.eq_of_result hl hr).symm
    · exact Exec.eq_of_result hl hr'
  rw [Prod.mk.injEq] at hend
  obtain ⟨rfl, rfl⟩ := hend
  rw [hr, Option.some.injEq] at hr'
  exact ⟨hr', rfl⟩

/-- A call that comes to an access that leaves everything as it is has no result. -/
theorem Returns.false_of_exec (h : P.Returns d c r d') (hexec : P.Exec (d, P.start c) x)
    (hx : P.result x.2 = none) (hact : P.act x.1 x.2 = x) : False := by
  obtain ⟨l, hexec', hr⟩ := h
  have hloop : ∀ y, P.Exec x y → y = x := by
    intro y hy
    induction hy with
    | refl => rfl
    | tail _ hstep ih =>
      rw [ih] at hstep
      exact hstep.2.trans hact
  rcases ReflTransGen.total_of_right_unique P.access_rightUnique hexec hexec' with hl | hl
  · rw [← hloop _ hl, hr] at hx
    exact Option.some_ne_none r hx
  · rw [Exec.eq_of_result hl hr, hr] at hx
    exact Option.some_ne_none r hx

/-- The call has its result after `n` more accesses. -/
inductive Takes (P : Procedure δ ℓ γ ρ) : ℕ → δ × ℓ → Prop
  | zero {x : δ × ℓ} {r : ρ} : P.result x.2 = some r → Takes P 0 x
  | succ {n : ℕ} {x : δ × ℓ} : P.result x.2 = none → Takes P n (P.act x.1 x.2) → Takes P (n + 1) x

theorem Takes.unique {m n : ℕ} (h : P.Takes m x) (h' : P.Takes n x) : m = n := by
  induction h generalizing n with
  | zero hr =>
    cases h' with
    | zero => rfl
    | succ hnone => exact absurd (hr.symm.trans hnone) (Option.some_ne_none _)
  | succ hnone _ ih =>
    cases h' with
    | zero hr => exact absurd (hr.symm.trans hnone) (Option.some_ne_none _)
    | succ _ h' => rw [ih h']

theorem Exec.exists_takes (h : P.Exec x y) (hy : P.result y.2 = some r) : ∃ n, P.Takes n x := by
  induction h using ReflTransGen.head_induction_on with
  | refl => exact ⟨0, .zero hy⟩
  | head hxz _ ih =>
    obtain ⟨hnone, rfl⟩ := hxz
    obtain ⟨n, hn⟩ := ih
    exact ⟨n + 1, .succ hnone hn⟩

/-- A call that ends, ends from wherever it is. -/
theorem Exec.takes (h : P.Exec x y) (hx : ∃ n, P.Takes n x) : ∃ n, P.Takes n y := by
  induction h with
  | refl => exact hx
  | tail _ hyz ih =>
    obtain ⟨hnone, rfl⟩ := hyz
    obtain ⟨n, hn⟩ := ih
    cases hn with
    | zero hr => exact absurd (hr.symm.trans hnone) (Option.some_ne_none _)
    | succ _ hn => exact ⟨_, hn⟩

/-- How many accesses the call has yet to make. -/
noncomputable def left (P : Procedure δ ℓ γ ρ) (x : δ × ℓ) : ℕ := sInf {n | P.Takes n x}

theorem Takes.left_eq {n : ℕ} (h : P.Takes n x) : P.left x = n := by
  have hset : {m | P.Takes m x} = {n} :=
    Set.eq_singleton_iff_unique_mem.mpr ⟨h, fun _ hm => Takes.unique hm h⟩
  rw [left, hset, csInf_singleton]

theorem left_act (h : ∃ n, P.Takes n x) (hnone : P.result x.2 = none) :
    P.left (P.act x.1 x.2) + 1 = P.left x := by
  obtain ⟨n, hn⟩ := h
  cases hn with
  | zero hr => exact absurd (hr.symm.trans hnone) (Option.some_ne_none _)
  | succ hx hn => rw [hn.left_eq, (Takes.succ hx hn).left_eq]

end Procedure

section Serial

variable {does : α → γ → ρ → α → Prop} {a a' : α} {log : List (γ × ρ)}

/-- A history of calls and results, run one after the other under a meaning of the calls. -/
inductive Serial (does : α → γ → ρ → α → Prop) (a : α) : List (γ × ρ) → α → Prop
  | nil : Serial does a [] a
  | concat {log a' c r a''} : Serial does a log a' → does a' c r a'' →
      Serial does a (log ++ [(c, r)]) a''

/-- A relation that every call preserves carries serial histories over. -/
theorem Serial.refine {β : Type*} {does' : β → γ → ρ → β → Prop} {R : α → β → Prop} {b : β}
    (h : Serial does a log a') (hab : R a b)
    (hstep : ∀ a b c r a', R a b → does a c r a' → ∃ b', does' b c r b' ∧ R a' b') :
    ∃ b', Serial does' b log b' ∧ R a' b' := by
  induction h with
  | nil => exact ⟨b, .nil, hab⟩
  | concat _ hdoes ih =>
    obtain ⟨b', hserial, hb'⟩ := ih
    obtain ⟨b'', hdoes', hb''⟩ := hstep _ _ _ _ _ hb' hdoes
    exact ⟨b'', hserial.concat hdoes', hb''⟩

/-- What every call preserves holds after a serial history. -/
theorem Serial.invariant {I : α → Prop} (h : Serial does a log a') (init : I a)
    (keep : ∀ a c r a', I a → does a c r a' → I a') : I a' := by
  induction h with
  | nil => exact init
  | concat _ hdoes ih => exact keep _ _ _ _ ih hdoes

/-- The meaning of calls by a function that gives the result and what the call leaves. -/
def Computes (f : α → γ → ρ × α) (a : α) (c : γ) (r : ρ) (a' : α) : Prop := f a c = (r, a')

/-- The same calls on one of many objects: the others stay as they are. -/
def AtObject [DecidableEq κ] (does : α → γ → ρ → α → Prop) (m : κ → α) (c : κ × γ) (r : ρ)
    (m' : κ → α) : Prop :=
  ∃ a', does (m c.1) c.2 r a' ∧ m' = Function.update m c.1 a'

/-- What calls leave on every object keeps related to what they leave in another meaning. -/
theorem AtObject.refine [DecidableEq κ] {β : Type*} {does' : β → γ → ρ → β → Prop}
    {R : α → β → Prop}
    (hstep : ∀ a b c r a', R a b → does a c r a' → ∃ b', does' b c r b' ∧ R a' b')
    (m : κ → α) (n : κ → β) (c : κ × γ) (r : ρ) (m' : κ → α) (hmn : ∀ k, R (m k) (n k))
    (h : AtObject does m c r m') : ∃ n', AtObject does' n c r n' ∧ ∀ k, R (m' k) (n' k) := by
  obtain ⟨a', hdoes, rfl⟩ := h
  obtain ⟨b', hdoes', hb'⟩ := hstep _ _ _ _ _ (hmn c.1) hdoes
  refine ⟨Function.update n c.1 b', ⟨b', hdoes', rfl⟩, fun k => ?_⟩
  rcases eq_or_ne k c.1 with rfl | hk
  · rwa [Function.update_self, Function.update_self]
  · rw [Function.update_of_ne hk, Function.update_of_ne hk]
    exact hmn k

end Serial

end PimLex.Transition
