import PimLex.Lock.Version
import PimLex.Transition.Procedure
import PimLex.Transition.Trace

/-!
# What the lock makes of the calls it guards

Each object has a version lock of its own, and a call does all its accesses to the
object between `get_lock` and `release_lock`. Then the calls of any threads on any
objects, however their accesses interleave, return and leave what they do one after
the other, in the order of their releases. Nothing has to be assumed about the
number of calls: a lock whose versions have run out keeps everybody out.
-/

namespace PimLex

open Transition

variable {ι κ δ ℓ γ ρ : Type*}

/-- Where a thread is with its call on an object; each is one atomic access away from the next. -/
inductive SectionPc (κ γ ℓ ρ : Type*) where
  | next
  /-- The load of `get_lock`, repeated while the lock is set. -/
  | getLoad (c : κ × γ)
  | getCas (c : κ × γ) (old : ℕ)
  /-- Between `get_lock` and `release_lock`. -/
  | body (c : κ × γ) (l : ℓ)
  | releaseStore (c : κ × γ) (r : ρ) (v : ℕ)

/-- A thread and the calls it has yet to make. -/
structure SectionThread (κ γ ℓ ρ : Type*) where
  pc : SectionPc κ γ ℓ ρ
  todo : List (κ × γ)

/-- The objects, each with its lock word, and the calls that have returned, with their threads
and results, in the order of their releases. -/
structure SectionShared (ι κ δ γ ρ : Type*) where
  word : κ → ℕ
  data : κ → δ
  returned : List (ι × ((κ × γ) × ρ))

section Act

variable [DecidableEq κ] (P : Procedure δ ℓ γ ρ)

/-- The next step of a thread; a step that waits changes nothing. -/
def sectionAct (t : ι) (sh : SectionShared ι κ δ γ ρ) (th : SectionThread κ γ ℓ ρ) :
    SectionShared ι κ δ γ ρ × SectionThread κ γ ℓ ρ :=
  match th.pc with
  | .next =>
    match th.todo with
    | [] => (sh, th)
    | c :: rest => (sh, ⟨.getLoad c, rest⟩)
  | .getLoad c =>
    if IsSet (sh.word c.1) then (sh, th)
    else (sh, { th with pc := .getCas c (sh.word c.1 &&& lockMask) })
  | .getCas c old =>
    if sh.word c.1 = old then
      ({ sh with word := Function.update sh.word c.1 (old ||| lockSet) },
        { th with pc := .body c (P.start c.2) })
    else (sh, { th with pc := .getLoad c })
  | .body c l =>
    match P.result l with
    | none =>
      let (d, l) := P.act (sh.data c.1) l
      ({ sh with data := Function.update sh.data c.1 d }, { th with pc := .body c l })
    -- the load of `release_lock`
    | some r => (sh, { th with pc := .releaseStore c r (sh.word c.1) })
  | .releaseStore c r v =>
    let word := (v + 1 + 2 ^ 32 - lockSet) % 2 ^ 32
    (⟨Function.update sh.word c.1 word, sh.data, sh.returned ++ [(t, c, r)]⟩,
      { th with pc := .next })

end Act

/-- Threads that make guarded calls. -/
abbrev SectionSystem (ι κ δ ℓ γ ρ : Type*) : Type _ :=
  System ι (SectionShared ι κ δ γ ρ) (SectionThread κ γ ℓ ρ)

/-- The threads before their first calls, with open locks. -/
def sectionStart (ℓ ρ : Type*) (programs : ι → List (κ × γ)) (data : κ → δ) :
    SectionSystem ι κ δ ℓ γ ρ :=
  ⟨⟨fun _ => 0, data, []⟩, fun t => ⟨.next, programs t⟩⟩

section Run

variable [DecidableEq ι] [DecidableEq κ] (P : Procedure δ ℓ γ ρ)

/-- One step of the system, by the thread the scheduler picks. -/
def sectionStep (s : SectionSystem ι κ δ ℓ γ ρ) (t : ι) : SectionSystem ι κ δ ℓ γ ρ :=
  s.step (sectionAct P) t

/-- The system after a schedule. -/
def sectionRun (programs : ι → List (κ × γ)) (data : κ → δ) (schedule : List ι) :
    SectionSystem ι κ δ ℓ γ ρ :=
  run (sectionStep P) (sectionStart ℓ ρ programs data) schedule

end Run

namespace SectionPc

/-- The object whose lock the thread holds. -/
def inside : SectionPc κ γ ℓ ρ → Option κ
  | .body c _ | .releaseStore c _ _ => some c.1
  | _ => none

/-- The call the thread has begun and not finished. -/
def pending : SectionPc κ γ ℓ ρ → List (κ × γ)
  | .next => []
  | .getLoad c | .getCas c _ | .body c _ | .releaseStore c _ _ => [c]

/-- How the thread's place fits the objects: `d` is what the calls that returned have left, and
the call inside has come from there to what the object holds now. -/
def Fits (P : Procedure δ ℓ γ ρ) (word : κ → ℕ) (data d : κ → δ) : SectionPc κ γ ℓ ρ → Prop
  | .next | .getLoad _ => True
  | .getCas _ old => old < lockSet
  | .body c l => P.Exec (d c.1, P.start c.2) (data c.1, l)
  | .releaseStore c r v => P.Returns (d c.1) c.2 r (data c.1) ∧ v = word c.1

/-- A place fits as before when the object inside has stayed as it was. -/
theorem Fits.congr {P : Procedure δ ℓ γ ρ} {word word' : κ → ℕ} {data data' d d' : κ → δ}
    {pc : SectionPc κ γ ℓ ρ} (h : pc.Fits P word data d)
    (hsame : ∀ k ∈ pc.inside, word' k = word k ∧ data' k = data k ∧ d' k = d k) :
    pc.Fits P word' data' d' := by
  cases pc with
  | next => trivial
  | getLoad c => trivial
  | getCas c old => exact h
  | body c l =>
    obtain ⟨-, hdata, hd⟩ := hsame c.1 rfl
    rw [Fits, hdata, hd]
    exact h
  | releaseStore c r v =>
    obtain ⟨hword, hdata, hd⟩ := hsame c.1 rfl
    rw [Fits, hdata, hd, hword]
    exact h

end SectionPc

section Invariant

variable [DecidableEq ι] [DecidableEq κ] {P : Procedure δ ℓ γ ρ} {programs : ι → List (κ × γ)}
  {d₀ d : κ → δ} {s : SectionSystem ι κ δ ℓ γ ρ} {n : κ → ℕ} {holder : κ → Option ι} {t : ι}

/-- The lock words count the releases and say who is inside; the calls that returned are a serial
history, which leaves `d`. -/
structure SectionInv (P : Procedure δ ℓ γ ρ) (programs : ι → List (κ × γ)) (d₀ : κ → δ)
    (s : SectionSystem ι κ δ ℓ γ ρ) (n : κ → ℕ) (holder : κ → Option ι) (d : κ → δ) : Prop where
  word : ∀ k, s.shared.word k = n k + (holder k).toList.length * lockSet
  bound : ∀ k, n k + (holder k).toList.length ≤ lockSet
  inside : ∀ t k, holder k = some t ↔ k ∈ (s.threads t).pc.inside
  fits : ∀ t, (s.threads t).pc.Fits P s.shared.word s.shared.data d
  free : ∀ k, holder k = none → s.shared.data k = d k
  count : ∀ k, n k = (s.shared.returned.map fun e => e.2.1.1).count k
  serial : Serial (AtObject P.Returns) d₀ (s.shared.returned.map Prod.snd) d
  program : ∀ t, (own t s.shared.returned).map Prod.fst ++ (s.threads t).pc.pending ++
    (s.threads t).todo = programs t

omit [DecidableEq ι] [DecidableEq κ] in
/-- The objects that others are inside differ from the one whose lock is free or held here. -/
theorem ne_of_mem_inside {k k' : κ} {u : ι} (hinside : ∀ t k, holder k = some t ↔
      k ∈ (s.threads t).pc.inside) (hk : holder k ≠ some u)
    (hk' : k' ∈ (s.threads u).pc.inside) : k' ≠ k := by
  rintro rfl
  exact hk ((hinside u k').mpr hk')

theorem sectionInv_start (P : Procedure δ ℓ γ ρ) (programs : ι → List (κ × γ)) (d₀ : κ → δ) :
    SectionInv P programs d₀ (sectionStart ℓ ρ programs d₀) (fun _ => 0) (fun _ => none) d₀ where
  word _ := by simp [sectionStart]
  bound _ := by simp
  inside t k := by simp [sectionStart, SectionPc.inside]
  fits _ := trivial
  free _ _ := rfl
  count _ := rfl
  serial := .nil
  program t := by simp [sectionStart, SectionPc.pending]

/-- A step that leaves the objects and their locks alone. -/
theorem SectionInv.move (h : SectionInv P programs d₀ s n holder d)
    (th : SectionThread κ γ ℓ ρ)
    (hact : sectionAct P t s.shared (s.threads t) = (s.shared, th))
    (hinside : th.pc.inside = (s.threads t).pc.inside)
    (hfits : th.pc.Fits P s.shared.word s.shared.data d)
    (hprogram : th.pc.pending ++ th.todo = (s.threads t).pc.pending ++ (s.threads t).todo) :
    SectionInv P programs d₀ (sectionStep P s t) n holder d := by
  rw [sectionStep, System.step_eq_put, hact]
  refine ⟨h.word, h.bound, fun u k => ?inside, fun u => ?fits, h.free, h.count, h.serial,
    fun u => ?program⟩
  case inside =>
    rcases eq_or_ne u t with rfl | hut
    · rw [System.put_self, hinside]
      exact h.inside u k
    · rw [System.put_of_ne hut]
      exact h.inside u k
  case fits =>
    rcases eq_or_ne u t with rfl | hut
    · rw [System.put_self]
      exact hfits
    · rw [System.put_of_ne hut]
      exact h.fits u
  case program =>
    rcases eq_or_ne u t with rfl | hut
    · rw [System.put_self, System.put_shared, List.append_assoc, hprogram, ← List.append_assoc]
      exact h.program u
    · rw [System.put_of_ne hut]
      exact h.program u

/-- A swap that succeeds finds nobody inside. -/
theorem SectionInv.acquire (h : SectionInv P programs d₀ s n holder d) {c : κ × γ}
    (hpc : (s.threads t).pc = .getCas c (s.shared.word c.1)) :
    SectionInv P programs d₀ (sectionStep P s t) n (Function.update holder c.1 (some t)) d := by
  have hfits := h.fits t
  rw [hpc] at hfits
  have hopen : s.shared.word c.1 < lockSet := hfits
  -- with a holder the word would have the bit
  have hnone : holder c.1 = none := by
    cases hholder : holder c.1 with
    | none => rfl
    | some u =>
      have hword := h.word c.1
      simp only [hholder, Option.toList_some, List.length_singleton, one_mul] at hword
      omega
  have hword : s.shared.word c.1 = n c.1 := by
    rw [h.word, hnone]
    simp
  have hact : sectionAct P t s.shared (s.threads t) =
      (⟨Function.update s.shared.word c.1 (n c.1 + lockSet), s.shared.data, s.shared.returned⟩,
        ⟨.body c (P.start c.2), (s.threads t).todo⟩) := by
    rw [← hword, ← or_lockSet hopen]
    simp only [sectionAct, hpc, if_true]
  -- so nobody is inside this object, and what the others rely on is untouched
  have hother : ∀ u k, k ∈ (s.threads u).pc.inside → k ≠ c.1 := fun u k =>
    ne_of_mem_inside h.inside (by rw [hnone]; exact (Option.some_ne_none u).symm)
  rw [sectionStep, System.step_eq_put, hact]
  refine ⟨fun k => ?word, fun k => ?bound, fun u k => ?inside, fun u => ?fits,
    fun k hk => ?free, h.count, h.serial, fun u => ?program⟩
  case word =>
    rcases eq_or_ne k c.1 with rfl | hk
    · simp
    · simp only [System.put_shared, Function.update_of_ne hk]
      exact h.word k
  case bound =>
    rcases eq_or_ne k c.1 with rfl | hk
    · rw [hword] at hopen
      simpa using Nat.succ_le_of_lt hopen
    · rw [Function.update_of_ne hk]
      exact h.bound k
  case inside =>
    rcases eq_or_ne u t with rfl | hut <;> rcases eq_or_ne k c.1 with rfl | hk
    · simp [SectionPc.inside]
    · rw [System.put_self, Function.update_of_ne hk, h.inside, hpc]
      simp [SectionPc.inside, hk.symm]
    · rw [System.put_of_ne hut, Function.update_self]
      refine iff_of_false (fun heq => hut (Option.some.inj heq).symm) fun hmem => ?_
      exact hother u _ hmem rfl
    · rw [System.put_of_ne hut, Function.update_of_ne hk]
      exact h.inside u k
  case fits =>
    rcases eq_or_ne u t with rfl | hut
    · rw [System.put_self]
      change P.Exec _ (s.shared.data c.1, _)
      rw [h.free c.1 hnone]
      exact .refl P _
    · rw [System.put_of_ne hut]
      exact (h.fits u).congr fun k hk => ⟨Function.update_of_ne (hother u k hk) _ _, rfl, rfl⟩
  case free =>
    rcases eq_or_ne k c.1 with rfl | hne
    · rw [Function.update_self] at hk
      exact absurd hk (Option.some_ne_none t)
    · rw [Function.update_of_ne hne] at hk
      exact h.free k hk
  case program =>
    rcases eq_or_ne u t with rfl | hut
    · have hprogram := h.program u
      rw [hpc] at hprogram
      rw [System.put_self]
      exact hprogram
    · rw [System.put_of_ne hut]
      exact h.program u

/-- An access is one of the call that is inside. -/
theorem SectionInv.access (h : SectionInv P programs d₀ s n holder d) {c : κ × γ} {l : ℓ}
    (hpc : (s.threads t).pc = .body c l) (hresult : P.result l = none) :
    SectionInv P programs d₀ (sectionStep P s t) n holder d := by
  have hfits := h.fits t
  rw [hpc] at hfits
  have hheld : holder c.1 = some t := (h.inside t c.1).mpr (by rw [hpc]; rfl)
  have hact : sectionAct P t s.shared (s.threads t) =
      (⟨s.shared.word, Function.update s.shared.data c.1 (P.act (s.shared.data c.1) l).1,
        s.shared.returned⟩,
        ⟨.body c (P.act (s.shared.data c.1) l).2, (s.threads t).todo⟩) := by
    simp only [sectionAct, hpc, hresult]
  rw [sectionStep, System.step_eq_put, hact]
  refine ⟨h.word, h.bound, fun u k => ?inside, fun u => ?fits, fun k hk => ?free, h.count,
    h.serial, fun u => ?program⟩
  case inside =>
    rcases eq_or_ne u t with rfl | hut
    · rw [System.put_self, h.inside, hpc]
      rfl
    · rw [System.put_of_ne hut]
      exact h.inside u k
  case fits =>
    rcases eq_or_ne u t with rfl | hut
    · rw [System.put_self]
      simp only [SectionPc.Fits, System.put_shared, Function.update_self]
      exact hfits.concat hresult
    · rw [System.put_of_ne hut]
      refine (h.fits u).congr fun k hk => ⟨rfl, Function.update_of_ne ?_ _ _, rfl⟩
      -- a thread inside the same object would hold its lock too
      refine ne_of_mem_inside h.inside (fun heq => hut ?_) hk
      exact (Option.some.inj (hheld.symm.trans heq)).symm
  case free =>
    have hne : k ≠ c.1 := by
      rintro rfl
      exact absurd (hheld.symm.trans hk) (Option.some_ne_none t)
    simp only [System.put_shared, Function.update_of_ne hne]
    exact h.free k hk
  case program =>
    rcases eq_or_ne u t with rfl | hut
    · have hprogram := h.program u
      rw [hpc] at hprogram
      rw [System.put_self]
      exact hprogram
    · rw [System.put_of_ne hut]
      exact h.program u

/-- A release puts the call behind those that have returned. -/
theorem SectionInv.release (h : SectionInv P programs d₀ s n holder d) {c : κ × γ} {r : ρ} {v : ℕ}
    (hpc : (s.threads t).pc = .releaseStore c r v) :
    SectionInv P programs d₀ (sectionStep P s t) (Function.update n c.1 (n c.1 + 1))
      (Function.update holder c.1 none) (Function.update d c.1 (s.shared.data c.1)) := by
  have hfits := h.fits t
  rw [hpc] at hfits
  obtain ⟨hreturns, hv⟩ := hfits
  have hheld : holder c.1 = some t := (h.inside t c.1).mpr (by rw [hpc]; rfl)
  have hbound : n c.1 + 1 ≤ lockSet := by simpa [hheld] using h.bound c.1
  -- the bit goes and the count of releases rises, without wrapping
  have hword : (v + 1 + 2 ^ 32 - lockSet) % 2 ^ 32 = n c.1 + 1 := by
    have hset : s.shared.word c.1 = n c.1 + lockSet := by simpa [hheld] using h.word c.1
    unfold lockSet at *
    omega
  have hact : sectionAct P t s.shared (s.threads t) =
      (⟨Function.update s.shared.word c.1 (n c.1 + 1), s.shared.data,
        s.shared.returned ++ [(t, c, r)]⟩, ⟨.next, (s.threads t).todo⟩) := by
    simp only [sectionAct, hpc, hword]
  -- only the holder is inside this object
  have hother : ∀ u ≠ t, ∀ k ∈ (s.threads u).pc.inside, k ≠ c.1 := fun u hut k =>
    ne_of_mem_inside h.inside fun heq => hut (Option.some.inj (hheld.symm.trans heq)).symm
  rw [sectionStep, System.step_eq_put, hact]
  refine ⟨fun k => ?word, fun k => ?bound, fun u k => ?inside, fun u => ?fits,
    fun k hk => ?free, fun k => ?count, ?serial, fun u => ?program⟩
  case word =>
    rcases eq_or_ne k c.1 with rfl | hk
    · simp
    · simp only [System.put_shared, Function.update_of_ne hk]
      exact h.word k
  case bound =>
    rcases eq_or_ne k c.1 with rfl | hk
    · simpa using hbound
    · rw [Function.update_of_ne hk, Function.update_of_ne hk]
      exact h.bound k
  case inside =>
    rcases eq_or_ne u t with rfl | hut <;> rcases eq_or_ne k c.1 with rfl | hk
    · simp [SectionPc.inside]
    · rw [System.put_self, Function.update_of_ne hk, h.inside, hpc]
      simp [SectionPc.inside, hk.symm]
    · rw [System.put_of_ne hut, Function.update_self]
      refine iff_of_false (Option.some_ne_none u).symm fun hmem => ?_
      exact hother u hut _ hmem rfl
    · rw [System.put_of_ne hut, Function.update_of_ne hk]
      exact h.inside u k
  case fits =>
    rcases eq_or_ne u t with rfl | hut
    · rw [System.put_self]
      trivial
    · rw [System.put_of_ne hut]
      exact (h.fits u).congr fun k hk => ⟨Function.update_of_ne (hother u hut k hk) _ _, rfl,
        Function.update_of_ne (hother u hut k hk) _ _⟩
  case free =>
    rcases eq_or_ne k c.1 with rfl | hne
    · rw [System.put_shared, Function.update_self]
    · rw [Function.update_of_ne hne] at hk ⊢
      exact h.free k hk
  case count =>
    rw [System.put_shared, List.map_append, List.count_append, List.map_singleton,
      List.count_singleton]
    rcases eq_or_ne k c.1 with rfl | hne
    · rw [Function.update_self, h.count, if_pos (beq_self_eq_true _)]
    · rw [Function.update_of_ne hne, h.count, if_neg (by simpa using hne.symm), Nat.add_zero]
  case serial =>
    rw [System.put_shared, List.map_append]
    -- the data it leaves is what its call gives from what the ones before it left
    exact h.serial.concat ⟨_, hreturns, rfl⟩
  case program =>
    rcases eq_or_ne u t with rfl | hut
    · have hprogram := h.program u
      rw [hpc] at hprogram
      rw [System.put_self, System.put_shared, own_concat_self, List.map_append]
      simpa [SectionPc.pending] using hprogram
    · rw [System.put_of_ne hut, System.put_shared, own_concat_of_ne hut]
      exact h.program u

/-- An open word is a version. -/
theorem SectionInv.lt_of_not_isSet (h : SectionInv P programs d₀ s n holder d) {k : κ}
    (hopen : ¬ IsSet (s.shared.word k)) : s.shared.word k < lockSet := by
  by_contra hge
  refine hopen (isSet_of_lockSet_le (Nat.not_lt.mp hge) ?_)
  have hbound := h.bound k
  rw [h.word]
  cases hholder : holder k with
  | none =>
    simp only [hholder, Option.toList_none, List.length_nil] at hbound ⊢
    unfold lockSet at *
    omega
  | some u =>
    simp only [hholder, Option.toList_some, List.length_singleton] at hbound ⊢
    omega

/-- One step keeps the invariant. -/
theorem SectionInv.step (h : SectionInv P programs d₀ s n holder d) (t : ι) :
    ∃ n holder d, SectionInv P programs d₀ (sectionStep P s t) n holder d := by
  have hfits := h.fits t
  cases hpc : (s.threads t).pc with
  | next =>
    rw [hpc] at hfits
    rcases htodo : (s.threads t).todo with - | ⟨c, rest⟩
    · exact ⟨n, holder, d, h.move (s.threads t) (by simp only [sectionAct, hpc, htodo]) rfl
        (hpc ▸ hfits) rfl⟩
    · refine ⟨n, holder, d, h.move ⟨.getLoad c, rest⟩ (by simp only [sectionAct, hpc, htodo])
        (by rw [hpc]; rfl) trivial ?_⟩
      rw [hpc, htodo]
      rfl
  | getLoad c =>
    refine ⟨n, holder, d, ?_⟩
    by_cases hset : IsSet (s.shared.word c.1)
    · exact h.move (s.threads t) (by simp only [sectionAct, hpc, if_pos hset]) rfl hfits rfl
    · have hlt := h.lt_of_not_isSet hset
      refine h.move { s.threads t with pc := .getCas c (s.shared.word c.1) } ?_
        (by rw [hpc]; rfl) hlt (by rw [hpc]; rfl)
      simp only [sectionAct, hpc, if_neg hset, and_lockMask hlt]
  | getCas c old =>
    by_cases heq : s.shared.word c.1 = old
    · subst heq
      exact ⟨_, _, _, h.acquire hpc⟩
    · exact ⟨n, holder, d, h.move { s.threads t with pc := .getLoad c }
        (by simp only [sectionAct, hpc, if_neg heq]) (by rw [hpc]; rfl) trivial
        (by rw [hpc]; rfl)⟩
  | body c l =>
    cases hresult : P.result l with
    | none => exact ⟨_, _, _, h.access hpc hresult⟩
    | some r =>
      rw [hpc] at hfits
      exact ⟨n, holder, d, h.move { s.threads t with pc := .releaseStore c r (s.shared.word c.1) }
        (by simp only [sectionAct, hpc, hresult]) (by rw [hpc]; rfl)
        ⟨⟨l, hfits, hresult⟩, rfl⟩ (by rw [hpc]; rfl)⟩
  | releaseStore c r v => exact ⟨_, _, _, h.release hpc⟩

theorem exists_sectionInv (P : Procedure δ ℓ γ ρ) (programs : ι → List (κ × γ)) (d₀ : κ → δ)
    (schedule : List ι) :
    ∃ n holder d, SectionInv P programs d₀ (sectionRun P programs d₀ schedule) n holder d :=
  @run_invariant _ _ (sectionStep P) (fun s => ∃ n holder d, SectionInv P programs d₀ s n holder d)
    _ ⟨_, _, _, sectionInv_start P programs d₀⟩ (fun _ t ⟨_, _, _, h⟩ => h.step t) schedule

/-- The calls that have returned stand before those that return later. -/
theorem returned_prefix (P : Procedure δ ℓ γ ρ) (programs : ι → List (κ × γ)) (d₀ : κ → δ)
    (pre post : List ι) :
    (sectionRun P programs d₀ pre).shared.returned <+:
      (sectionRun P programs d₀ (pre ++ post)).shared.returned := by
  rw [sectionRun, sectionRun, run_append]
  refine @run_invariant _ _ (sectionStep P) (fun s => _ <+: s.shared.returned) _
    (List.prefix_refl _) (fun s t h => h.trans ?_) post
  rw [sectionStep, System.step_eq_put, System.put_shared]
  cases hpc : (s.threads t).pc with
  | releaseStore c r v => simp only [sectionAct, hpc, List.prefix_append]
  | next | getLoad | getCas | body =>
    simp only [sectionAct, hpc]
    split <;> exact List.prefix_refl _

end Invariant

end PimLex
