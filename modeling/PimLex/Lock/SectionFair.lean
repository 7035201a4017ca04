import PimLex.Lock.Section
import PimLex.Transition.Fair

/-!
# All guarded calls return

A swap that fails repeats the loop of `get_lock`, but then another thread has changed
the word: it has taken the lock, which happens once for each call, or it has released
it. So each step that changes anything brings the threads closer to their ends, first
by the calls that have got inside and then by the steps in between. As long as the
versions last, and the calls that are made end alone, a run that gives all threads
their turns ends with all calls returned.
-/

namespace PimLex

open Transition

variable {ι κ δ ℓ γ ρ : Type*}

namespace SectionPc

/-- The call has yet to take its lock. -/
def outside : SectionPc κ γ ℓ ρ → ℕ
  | .getLoad _ | .getCas _ _ => 1
  | _ => 0

/-- How far a thread is from its next call while no lock changes hands. A word that is not the
one the thread has loaded sends it back to the load. -/
noncomputable def weight [DecidableEq κ] (P : Procedure δ ℓ γ ρ) (word : κ → ℕ) (data : κ → δ) :
    SectionPc κ γ ℓ ρ → ℕ
  | .next => 5
  | .getLoad _ => 3
  | .getCas c old => if word c.1 = old then 2 else 4
  | .body c l => P.left (data c.1, l) + 7
  | .releaseStore _ _ _ => 6

variable [DecidableEq κ] {P : Procedure δ ℓ γ ρ} {word : κ → ℕ} {data data' : κ → δ}
  {pc : SectionPc κ γ ℓ ρ} {k : κ}

/-- Accesses to other objects leave a thread's weight alone. -/
theorem weight_congr (h : ∀ k ∈ pc.inside, data' k = data k) :
    pc.weight P word data' = pc.weight P word data := by
  cases pc with
  | body c l => rw [weight, weight, h c.1 rfl]
  | next | getLoad | getCas | releaseStore => rfl

/-- A word that nobody has loaded makes way for another. -/
theorem weight_update_le {v : ℕ} (h : ∀ c old, pc = .getCas c old → c.1 = k → word k ≠ old) :
    pc.weight P (Function.update word k v) data ≤ pc.weight P word data := by
  cases pc with
  | getCas c old =>
    rcases eq_or_ne c.1 k with hk | hk
    · rw [weight, weight, hk, if_neg (h c old rfl hk)]
      split_ifs <;> omega
    · rw [weight, weight, Function.update_of_ne hk]
  | next | getLoad | body | releaseStore => exact le_rfl

end SectionPc

section Lower

variable [DecidableEq ι] [DecidableEq κ] [Fintype ι] {P : Procedure δ ℓ γ ρ}
  {programs : ι → List (κ × γ)} {d₀ d : κ → δ} {s : SectionSystem ι κ δ ℓ γ ρ} {n : κ → ℕ}
  {holder : κ → Option ι} {t : ι}

/-- The calls that have yet to take their locks. -/
def waiting (s : SectionSystem ι κ δ ℓ γ ρ) : ℕ :=
  ∑ t, ((s.threads t).todo.length + (s.threads t).pc.outside)

noncomputable def totalWeight (P : Procedure δ ℓ γ ρ) (s : SectionSystem ι κ δ ℓ γ ρ) : ℕ :=
  ∑ t, (s.threads t).pc.weight P s.shared.word s.shared.data

/-- First by the calls that wait, then by the weights. -/
def Descends (P : Procedure δ ℓ γ ρ) (s' s : SectionSystem ι κ δ ℓ γ ρ) : Prop :=
  Prod.Lex (· < ·) (· < ·) (waiting s', totalWeight P s') (waiting s, totalWeight P s)

omit [DecidableEq ι] in
theorem descends_wf (P : Procedure δ ℓ γ ρ) :
    WellFounded (Descends P : SectionSystem ι κ δ ℓ γ ρ → SectionSystem ι κ δ ℓ γ ρ → Prop) :=
  InvImage.wf (fun s => (waiting s, totalWeight P s)) (WellFounded.prod_lex wellFounded_lt
    wellFounded_lt)

variable {sh : SectionShared ι κ δ γ ρ} {th : SectionThread κ γ ℓ ρ}

/-- The thread has no call left, or waits for a lock. -/
def Waits (s : SectionSystem ι κ δ ℓ γ ρ) (t : ι) : Prop :=
  ((s.threads t).pc = .next ∧ (s.threads t).todo = []) ∨
    ∃ c, (s.threads t).pc = .getLoad c ∧ IsSet (s.shared.word c.1)

theorem waiting_step (hact : sectionAct P t s.shared (s.threads t) = (sh, th)) :
    waiting (sectionStep P s t) + ((s.threads t).todo.length + (s.threads t).pc.outside) =
      waiting s + (th.todo.length + th.pc.outside) := by
  have hsum := System.sum_step (sectionAct P) s t fun th => th.todo.length + th.pc.outside
  rw [hact] at hsum
  exact hsum

/-- A step descends when it lowers the thread's own weight and raises no other. -/
theorem descends_of_weight (hact : sectionAct P t s.shared (s.threads t) = (sh, th))
    (hwait : th.todo.length + th.pc.outside =
      (s.threads t).todo.length + (s.threads t).pc.outside)
    (hself : th.pc.weight P sh.word sh.data <
      (s.threads t).pc.weight P s.shared.word s.shared.data)
    (hother : ∀ u ≠ t, (s.threads u).pc.weight P sh.word sh.data ≤
      (s.threads u).pc.weight P s.shared.word s.shared.data) :
    Descends P (sectionStep P s t) s := by
  have hsum := waiting_step hact
  have hsame : waiting (sectionStep P s t) = waiting s := by omega
  rw [Descends, hsame]
  refine Prod.Lex.right _ (Finset.sum_lt_sum (fun u _ => ?_) ⟨t, Finset.mem_univ t, ?_⟩)
  · rcases eq_or_ne u t with rfl | hut
    · rw [sectionStep, System.step_eq_put, hact, System.put_self, System.put_shared]
      exact hself.le
    · rw [sectionStep, System.step_eq_put, hact, System.put_of_ne hut, System.put_shared]
      exact hother u hut
  · rw [sectionStep, System.step_eq_put, hact, System.put_self, System.put_shared]
    exact hself

omit [Fintype ι] in
/-- No two threads are inside one object. -/
theorem SectionInv.ne_of_inside (h : SectionInv P programs d₀ s n holder d) {u : ι} {k k' : κ}
    (hk : k ∈ (s.threads t).pc.inside) (hut : u ≠ t) (hk' : k' ∈ (s.threads u).pc.inside) :
    k' ≠ k := by
  refine ne_of_mem_inside h.inside (fun heq => hut ?_) hk'
  exact (Option.some.inj (((h.inside t k).mpr hk).symm.trans heq)).symm

omit [Fintype ι] in
theorem SectionInv.word_of_inside (h : SectionInv P programs d₀ s n holder d) {k : κ}
    (hk : k ∈ (s.threads t).pc.inside) : s.shared.word k = n k + lockSet := by
  rw [h.word, (h.inside t k).mpr hk]
  simp

omit [Fintype ι] in
theorem SectionInv.mem_programs (h : SectionInv P programs d₀ s n holder d) {c : κ × γ}
    (hc : c ∈ (s.threads t).pc.pending) : c ∈ programs t := by
  rw [← h.program t]
  exact List.mem_append_left _ (List.mem_append_right _ hc)

omit [Fintype ι] in
/-- The call inside has a last access. -/
theorem SectionInv.exists_takes (h : SectionInv P programs d₀ s n holder d)
    (htotal : ∀ t, ∀ c ∈ programs t, ∃ r d', P.Returns (d c.1) c.2 r d') {c : κ × γ} {l : ℓ}
    (hpc : (s.threads t).pc = .body c l) : ∃ m, P.Takes m (s.shared.data c.1, l) := by
  have hfits := h.fits t
  have hmem : c ∈ programs t := by
    refine h.mem_programs (t := t) ?_
    rw [hpc]
    exact List.mem_singleton_self c
  rw [hpc] at hfits
  obtain ⟨r, d', l', hexec, hresult⟩ := htotal t c hmem
  exact Procedure.Exec.takes hfits (hexec.exists_takes hresult)

/-- A thread between two calls takes up the next one, if it has one. -/
theorem lower_next (P : Procedure δ ℓ γ ρ) (hpc : (s.threads t).pc = .next) :
    (Waits s t ∧ sectionStep P s t = s) ∨ Descends P (sectionStep P s t) s := by
  rcases htodo : (s.threads t).todo with - | ⟨c, rest⟩
  · refine Or.inl ⟨Or.inl ⟨hpc, htodo⟩, System.step_of_act_eq ?_⟩
    simp only [sectionAct, hpc, htodo]
  · right
    have hact : sectionAct P t s.shared (s.threads t) = (s.shared, ⟨.getLoad c, rest⟩) := by
      simp only [sectionAct, hpc, htodo]
    refine descends_of_weight hact ?_ ?_ fun u _ => le_rfl
    · rw [hpc, htodo]
      rfl
    · rw [hpc]
      simp only [SectionPc.weight]
      omega

/-- The load of `get_lock` waits exactly while the lock is set. -/
theorem SectionInv.lower_getLoad (h : SectionInv P programs d₀ s n holder d) {c : κ × γ}
    (hpc : (s.threads t).pc = .getLoad c) :
    (Waits s t ∧ sectionStep P s t = s) ∨ Descends P (sectionStep P s t) s := by
  by_cases hset : IsSet (s.shared.word c.1)
  · refine Or.inl ⟨Or.inr ⟨c, hpc, hset⟩, System.step_of_act_eq ?_⟩
    simp only [sectionAct, hpc, if_pos hset]
  · right
    have hact : sectionAct P t s.shared (s.threads t) =
        (s.shared, ⟨.getCas c (s.shared.word c.1), (s.threads t).todo⟩) := by
      simp only [sectionAct, hpc, if_neg hset, and_lockMask (h.lt_of_not_isSet hset)]
    refine descends_of_weight hact (by rw [hpc]; rfl) ?_ fun u _ => le_rfl
    rw [hpc]
    simp only [SectionPc.weight, if_true]
    omega

/-- A swap that fails goes back to the load, one that succeeds leaves a call fewer waiting. -/
theorem descends_getCas (P : Procedure δ ℓ γ ρ) {c : κ × γ} {old : ℕ}
    (hpc : (s.threads t).pc = .getCas c old) : Descends P (sectionStep P s t) s := by
  by_cases heq : s.shared.word c.1 = old
  · have hact : ∃ sh, sectionAct P t s.shared (s.threads t) =
        (sh, ⟨.body c (P.start c.2), (s.threads t).todo⟩) :=
      ⟨_, by simp only [sectionAct, hpc, if_pos heq]; rfl⟩
    obtain ⟨sh, hact⟩ := hact
    refine Prod.Lex.left _ _ ?_
    have hsum := waiting_step hact
    rw [hpc] at hsum
    simp only [SectionPc.outside] at hsum
    omega
  · have hact : sectionAct P t s.shared (s.threads t) =
        (s.shared, ⟨.getLoad c, (s.threads t).todo⟩) := by
      simp only [sectionAct, hpc, if_neg heq]
    refine descends_of_weight hact (by rw [hpc]; rfl) ?_ fun u _ => le_rfl
    rw [hpc]
    simp only [SectionPc.weight, if_neg heq]
    omega

/-- An access inside an object brings the call closer to its last one. -/
theorem SectionInv.descends_body (h : SectionInv P programs d₀ s n holder d)
    (htotal : ∀ t, ∀ c ∈ programs t, ∃ r d', P.Returns (d c.1) c.2 r d') {c : κ × γ} {l : ℓ}
    (hpc : (s.threads t).pc = .body c l) : Descends P (sectionStep P s t) s := by
  cases hresult : P.result l with
  | none =>
    have hact : sectionAct P t s.shared (s.threads t) =
        (⟨s.shared.word, Function.update s.shared.data c.1 (P.act (s.shared.data c.1) l).1,
          s.shared.returned⟩,
          ⟨.body c (P.act (s.shared.data c.1) l).2, (s.threads t).todo⟩) := by
      simp only [sectionAct, hpc, hresult]
    refine descends_of_weight hact (by rw [hpc]; rfl) ?_ fun u hut => ?_
    · have hleft : P.left (P.act (s.shared.data c.1) l) + 1 = P.left (s.shared.data c.1, l) :=
        Procedure.left_act (h.exists_takes htotal hpc) hresult
      rw [hpc]
      simp only [SectionPc.weight, Function.update_self, Prod.mk.eta]
      omega
    · refine (SectionPc.weight_congr fun k hk => ?_).le
      exact Function.update_of_ne (h.ne_of_inside (by rw [hpc]; rfl) hut hk) _ _
  | some r =>
    have hact : sectionAct P t s.shared (s.threads t) =
        (s.shared, ⟨.releaseStore c r (s.shared.word c.1), (s.threads t).todo⟩) := by
      simp only [sectionAct, hpc, hresult]
    refine descends_of_weight hact (by rw [hpc]; rfl) ?_ fun u _ => le_rfl
    rw [hpc]
    simp only [SectionPc.weight]
    omega

/-- The store of `release_lock` changes a word that no other thread goes on with. -/
theorem SectionInv.descends_releaseStore (h : SectionInv P programs d₀ s n holder d)
    {c : κ × γ} {r : ρ} {v : ℕ} (hpc : (s.threads t).pc = .releaseStore c r v) :
    Descends P (sectionStep P s t) s := by
  have hact : ∃ word returned, sectionAct P t s.shared (s.threads t) =
      (⟨Function.update s.shared.word c.1 word, s.shared.data, returned⟩,
        ⟨.next, (s.threads t).todo⟩) :=
    ⟨_, _, by simp only [sectionAct, hpc]; rfl⟩
  obtain ⟨word, returned, hact⟩ := hact
  refine descends_of_weight hact (by rw [hpc]; rfl) ?_ fun u hut => ?_
  · rw [hpc]
    simp only [SectionPc.weight]
    omega
  · refine SectionPc.weight_update_le fun c' old hu hc' => ?_
    -- the word of a held lock is none that `get_lock` goes on with
    have hload := h.fits u
    rw [hu] at hload
    have hlt : old < lockSet := hload
    have hset := h.word_of_inside (k := c.1) (by rw [hpc]; rfl : c.1 ∈ (s.threads t).pc.inside)
    omega

/-- Only a thread at its end or in front of a lock that is set waits; every other step
descends. -/
theorem SectionInv.lower (h : SectionInv P programs d₀ s n holder d)
    (htotal : ∀ t, ∀ c ∈ programs t, ∃ r d', P.Returns (d c.1) c.2 r d') (t : ι) :
    (Waits s t ∧ sectionStep P s t = s) ∨ Descends P (sectionStep P s t) s := by
  cases hpc : (s.threads t).pc with
  | next => exact lower_next P hpc
  | getLoad c => exact h.lower_getLoad hpc
  | getCas c old => exact Or.inr (descends_getCas P hpc)
  | body c l => exact Or.inr (h.descends_body htotal hpc)
  | releaseStore c r v => exact Or.inr (h.descends_releaseStore hpc)

end Lower

section Finish

variable [DecidableEq ι] [DecidableEq κ] {P : Procedure δ ℓ γ ρ} {programs : ι → List (κ × γ)}
  {d₀ d : κ → δ} {s : SectionSystem ι κ δ ℓ γ ρ} {n : κ → ℕ} {holder : κ → Option ι} {t : ι}

/-- What every call on one object preserves holds of what the returned calls have left. -/
theorem SectionInv.preserved (h : SectionInv P programs d₀ s n holder d) {I : δ → Prop}
    (hinit : ∀ k, I (d₀ k)) (hkeep : ∀ d c r d', I d → P.Returns d c r d' → I d') (k : κ) :
    I (d k) := by
  refine h.serial.invariant (I := fun d => ∀ k, I (d k)) hinit (fun d c r d' hd hdoes k => ?_) k
  obtain ⟨x, hreturns, rfl⟩ := hdoes
  rcases eq_or_ne k c.1 with rfl | hne
  · rw [Function.update_self]
    exact hkeep _ _ _ _ (hd c.1) hreturns
  · rw [Function.update_of_ne hne]
    exact hd k

omit [DecidableEq κ] in
/-- What a trace says of an object is what the threads' own traces say. -/
theorem count_own [DecidableEq κ] {ε : Type*} [Fintype ι] (trace : List (ι × ε)) (f : ε → κ)
    (k : κ) : (trace.map fun x => f x.2).count k = ∑ t, ((own t trace).map f).count k := by
  have hall : ∀ x ∈ trace, x.1 ∈ Finset.univ.toList := fun x _ =>
    Finset.mem_toList.mpr (Finset.mem_univ x.1)
  have hcount := ((perm_own (Finset.nodup_toList Finset.univ) hall).map f).count_eq k
  rw [List.map_map, List.map_flatMap, List.count_flatMap, Finset.sum_map_toList] at hcount
  exact hcount

/-- An object has been released at most as often as the threads call it. -/
theorem SectionInv.released_le [Fintype ι] (h : SectionInv P programs d₀ s n holder d) (k : κ) :
    n k ≤ ∑ t, ((programs t).map Prod.fst).count k := by
  rw [h.count, count_own s.shared.returned fun e => e.1.1]
  refine Finset.sum_le_sum fun t _ => ?_
  rw [← h.program t, List.map_append, List.map_append, List.map_map, List.append_assoc]
  exact List.Sublist.count_le k (List.sublist_append_left _ _)

/-- As long as the versions last, threads that all wait have no call left. -/
theorem SectionInv.done_of_stuck [Fintype ι] (h : SectionInv P programs d₀ s n holder d)
    (htotal : ∀ t, ∀ c ∈ programs t, ∃ r d', P.Returns (d c.1) c.2 r d')
    (hfew : ∀ k, n k < lockSet)
    (hstuck : Stuck (sectionStep P) s) (t : ι) :
    (s.threads t).pc = .next ∧ (s.threads t).todo = [] := by
  have hwaits : ∀ u, Waits s u := by
    intro u
    rcases h.lower htotal u with ⟨hwaits, -⟩ | hdescends
    · exact hwaits
    · rw [hstuck u] at hdescends
      exact absurd hdescends ((descends_wf P).irrefl.irrefl s)
  refine (hwaits t).resolve_right ?_
  rintro ⟨c, -, hset⟩
  -- a thread that waits is not inside, so the lock is open
  have hnone : holder c.1 = none := by
    cases hholder : holder c.1 with
    | none => rfl
    | some u =>
      have hin := (h.inside u c.1).mp hholder
      rcases hwaits u with ⟨hpc, -⟩ | ⟨c', hpc, -⟩ <;>
      · rw [hpc] at hin
        exact absurd hin (Option.not_mem_none _)
  have hword : s.shared.word c.1 = n c.1 := by
    rw [h.word, hnone]
    simp
  exact not_isSet_of_lt (hfew c.1) (hword ▸ hset)

/-- Threads that get enough turns return from all their calls, if no object is called as often as
its lock has versions. -/
theorem sectionRun_done [Fintype ι] (P : Procedure δ ℓ γ ρ) (programs : ι → List (κ × γ))
    (d₀ : κ → δ) {I : δ → Prop} (hinit : ∀ k, I (d₀ k))
    (hkeep : ∀ d c r d', I d → P.Returns d c r d' → I d')
    (htotal : ∀ d, I d → ∀ t, ∀ c ∈ programs t, ∃ r d', P.Returns d c.2 r d')
    (hfew : ∀ k, ∑ t, ((programs t).map Prod.fst).count k < lockSet) :
    ∃ m, ∀ rounds, Rounds rounds → m ≤ rounds.length → ∀ t,
      ((sectionRun P programs d₀ rounds.flatten).threads t).pc = .next ∧
        ((sectionRun P programs d₀ rounds.flatten).threads t).todo = [] := by
  have hall : ∀ {s : SectionSystem ι κ δ ℓ γ ρ} {n holder d},
      SectionInv P programs d₀ s n holder d →
        ∀ t, ∀ c ∈ programs t, ∃ r d', P.Returns (d c.1) c.2 r d' :=
    fun h t c hc => htotal _ (h.preserved hinit hkeep c.1) t c hc
  obtain ⟨m, hm⟩ := exists_rounds_stuck (descends_wf P)
    (fun s t (h : ∃ n holder d, SectionInv P programs d₀ s n holder d) =>
      let ⟨_, _, _, h⟩ := h; h.step t)
    (fun s t ⟨_, _, _, h⟩ => (h.lower (hall h) t).imp_left And.right)
    ⟨_, _, _, sectionInv_start P programs d₀⟩
  refine ⟨m, fun rounds hrounds hlen t => ?_⟩
  obtain ⟨n, holder, d, h⟩ := exists_sectionInv P programs d₀ rounds.flatten
  exact h.done_of_stuck (hall h) (fun k => (h.released_le k).trans_lt (hfew k))
    (hm [] rounds hrounds hlen) t

end Finish

end PimLex
