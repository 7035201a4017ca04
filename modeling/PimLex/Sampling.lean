import PimLex.Common
import PimLex.Transition.Fair
import PimLex.Transition.Trace

/-!
# Sampling the partial keys

Every eighth key becomes a partial key, in a serial loop at bulk load and after a
merge in 32 loops that run side by side, each over its own chunk. The array is
allocated for `N / 8` keys. The loops step an `int` by eight up to the end of the
keys, so they write one slot more when `N` is not a multiple of eight, and leave
the range of an `int` when `N` is `2 ^ 31` or more.
-/

namespace PimLex

open Transition

/-- The variables of a sampling loop. -/
structure SampleLoop where
  /-- An `int`. -/
  p : ℤ
  partialOffset : ℕ
  stop : ℕ

/-- The writes into the array of partial keys, and whether an `int` has overflowed. -/
structure SampleArray where
  written : List (ℕ × DTYPE)
  overflow : Bool

/-- The test of the loops, which converts `p` to an unsigned word. -/
def SampleLoop.Runs (th : SampleLoop) : Prop := (th.p % 2 ^ 64).toNat < th.stop

instance (th : SampleLoop) : Decidable th.Runs := inferInstanceAs (Decidable (_ < _))

/-- One pass of a sampling loop. -/
def sampleAct {n : ℕ} (keys : ℕ → DTYPE) (_ : Fin n) (sh : SampleArray) (th : SampleLoop) :
    SampleArray × SampleLoop :=
  if th.Runs then
    ({ written := (th.partialOffset, keys th.p.toNat) :: sh.written
       overflow := sh.overflow || decide (2 ^ 31 ≤ th.p + interleave) },
      { th with p := toInt32 (th.p + interleave), partialOffset := th.partialOffset + 1 })
  else (sh, th)

/-- Sampling loops over one array. -/
abbrev SampleSystem (n : ℕ) := System (Fin n) SampleArray SampleLoop

/-- The loops after a schedule. -/
def sampleRun {n : ℕ} (keys : ℕ → DTYPE) (start : Fin n → SampleLoop) (schedule : List (Fin n)) :
    SampleSystem n :=
  run (System.step (sampleAct keys)) ⟨⟨[], false⟩, start⟩ schedule

/-- The loop of `bulk_load_for_dpu`. -/
def bulkSampling (totalInputSize : ℕ) (_ : Fin 1) : SampleLoop := ⟨0, 0, totalInputSize⟩

/-- The loop of merge thread `tid`. -/
def mergeSampling (newTotalSize : ℕ) (tid : Fin mergeThreadNum) : SampleLoop :=
  let processingNumKeys :=
    newTotalSize / mergeThreadNum - newTotalSize / mergeThreadNum % interleave
  { p := toInt32 (processingNumKeys * tid : ℕ)
    partialOffset := processingNumKeys * tid / interleave
    stop := if tid.val = mergeThreadNum - 1 then newTotalSize else processingNumKeys * (tid + 1) }

/-- Nothing has been written behind the array or twice, and no `int` has overflowed. -/
structure SampledOnce (N : ℕ) (sh : SampleArray) : Prop where
  defined : sh.overflow = false
  bounds : ∀ w ∈ sh.written, w.1 < N / interleave
  once : (sh.written.map Prod.fst).Nodup

/-- In every order of the loops' passes each slot of the array gets its key, and gets it once. -/
structure SamplesExactly {n : ℕ} (N : ℕ) (keys : ℕ → DTYPE) (start : Fin n → SampleLoop) :
    Prop where
  safe : ∀ schedule, SampledOnce N (sampleRun keys start schedule).shared
  complete : ∀ schedule, Stuck (System.step (sampleAct keys)) (sampleRun keys start schedule) →
    ∀ i < N / interleave,
      (i, keys (interleave * i)) ∈ (sampleRun keys start schedule).shared.written
  finish : ∀ rounds, Rounds rounds → N < rounds.length →
    Stuck (System.step (sampleAct keys)) (sampleRun keys start rounds.flatten)

section Cuts

/-- Where the chunks of the loops meet. -/
structure SampleCuts (n : ℕ) (cut : ℕ → ℕ) (N : ℕ) : Prop where
  zero : cut 0 = 0
  last : cut n = N
  mono : ∀ i j, i ≤ j → j ≤ n → cut i ≤ cut j
  aligned : ∀ t < n, interleave ∣ cut t

/-- The loops over the chunks. -/
def cutSampling (n : ℕ) (cut : ℕ → ℕ) (t : Fin n) : SampleLoop :=
  ⟨toInt32 (cut t), cut t / interleave, cut (t + 1)⟩

theorem sampleCuts_bulk (N : ℕ) : SampleCuts 1 (fun m => if m = 0 then 0 else N) N := by
  refine ⟨rfl, rfl, fun i j hij _ => ?_, fun t ht => ?_⟩
  · split_ifs <;> omega
  · rw [if_pos (by omega)]
    exact dvd_zero _

theorem bulkSampling_eq (N : ℕ) :
    bulkSampling N = cutSampling 1 (fun m => if m = 0 then 0 else N) := by
  funext t
  have hzero : toInt32 0 = 0 := toInt32_eq (by decide) (by decide)
  rw [Subsingleton.elim t 0]
  simp [bulkSampling, cutSampling, hzero]

/-- The chunks of a merge are multiples of eight, and the last one has the rest. -/
def mergeSampleCut (N m : ℕ) : ℕ :=
  if m = mergeThreadNum then N
  else (N / mergeThreadNum - N / mergeThreadNum % interleave) * m

theorem sampleCuts_merge (N : ℕ) : SampleCuts mergeThreadNum (mergeSampleCut N) N := by
  have hchunk : (N / 32 - N / 32 % 8) * 32 ≤ N := by omega
  refine ⟨by simp [mergeSampleCut], if_pos rfl, fun i j hij hj => ?_, fun t ht => ?_⟩
  · simp only [mergeSampleCut, mergeThreadNum, interleave] at hj ⊢
    have hmul : (N / 32 - N / 32 % 8) * i ≤ (N / 32 - N / 32 % 8) * j := Nat.mul_le_mul_left _ hij
    have hend : (N / 32 - N / 32 % 8) * j ≤ (N / 32 - N / 32 % 8) * 32 := Nat.mul_le_mul_left _ hj
    split_ifs <;> omega
  · rw [mergeSampleCut, if_neg ht.ne]
    have hslice : N / 32 / 8 * interleave =
        N / mergeThreadNum - N / mergeThreadNum % interleave := by
      simp only [mergeThreadNum, interleave]
      omega
    exact (Dvd.intro_left _ hslice).mul_right t

theorem mergeSampling_eq (N : ℕ) :
    mergeSampling N = cutSampling mergeThreadNum (mergeSampleCut N) := by
  funext t
  have ht : t.val ≠ mergeThreadNum := t.isLt.ne
  simp only [mergeSampling, cutSampling, mergeSampleCut, if_neg ht]
  by_cases hlast : t.val = mergeThreadNum - 1
  · have hnext : t.val + 1 = mergeThreadNum := by rw [hlast]; rfl
    rw [if_pos hlast, if_pos hnext]
  · have hnext : t.val + 1 ≠ mergeThreadNum := by
      simp only [mergeThreadNum] at hlast ⊢
      omega
    rw [if_neg hlast, if_neg hnext]

end Cuts

section Exact

variable {n N : ℕ} {cut : ℕ → ℕ} {keys : ℕ → DTYPE} {s : SampleSystem n} {t u : Fin n}
  {th : SampleLoop}

theorem SampleCuts.le (h : SampleCuts n cut N) {m : ℕ} (hm : m ≤ n) : cut m ≤ N :=
  (h.mono m n hm le_rfl).trans h.last.le

theorem SampleCuts.dvd (h : SampleCuts n cut N) (hN : interleave ∣ N) {m : ℕ} (hm : m ≤ n) :
    interleave ∣ cut m := by
  rcases hm.lt_or_eq with hlt | rfl
  · exact h.aligned m hlt
  · rwa [h.last]

/-- Where a loop stands in its chunk `[lo, hi)`. -/
structure InChunk (lo hi : ℕ) (th : SampleLoop) : Prop where
  index : th.p = (interleave * th.partialOffset : ℕ)
  low : lo / interleave ≤ th.partialOffset
  high : th.partialOffset ≤ hi / interleave
  stop : th.stop = hi

theorem InChunk.runs_iff {lo hi : ℕ} (h : InChunk lo hi th) (hdvd : interleave ∣ hi)
    (hhi : hi < 2 ^ 31) : th.Runs ↔ th.partialOffset < hi / interleave := by
  obtain ⟨c, rfl⟩ := hdvd
  have hhigh := h.high
  rw [SampleLoop.Runs, h.index, h.stop]
  simp only [interleave] at hhigh hhi ⊢
  omega

/-- A pass inside of the chunk leaves its index an `int`. -/
theorem InChunk.advance {lo hi : ℕ} (h : InChunk lo hi th) (hdvd : interleave ∣ hi)
    (hhi : hi < 2 ^ 31) (hslot : th.partialOffset < hi / interleave) :
    th.p + (interleave : ℕ) < 2 ^ 31 ∧
      InChunk lo hi { th with
        p := toInt32 (th.p + (interleave : ℕ)), partialOffset := th.partialOffset + 1 } := by
  obtain ⟨c, rfl⟩ := hdvd
  have hindex := h.index
  have hnext : th.p + (interleave : ℕ) < 2 ^ 31 := by
    rw [hindex]
    simp only [interleave] at hhi hslot ⊢
    omega
  refine ⟨hnext, ?_, Nat.le_succ_of_le h.low, hslot, h.stop⟩
  simp only
  rw [toInt32_eq (by omega) hnext, hindex]
  simp only [interleave]
  omega

/-- The loops over aligned chunks below `2 ^ 31`, and what they have written. -/
structure SampleInv (cut : ℕ → ℕ) (keys : ℕ → DTYPE) (s : SampleSystem n) : Prop where
  threads : ∀ t : Fin n, InChunk (cut t) (cut (t + 1)) (s.threads t)
  defined : s.shared.overflow = false
  sound : ∀ w ∈ s.shared.written, ∃ t : Fin n, cut t / interleave ≤ w.1 ∧
    w.1 < (s.threads t).partialOffset
  wrote : ∀ t : Fin n, ∀ i, cut t / interleave ≤ i → i < (s.threads t).partialOffset →
    (i, keys (interleave * i)) ∈ s.shared.written
  once : (s.shared.written.map Prod.fst).Nodup

theorem sampleInv_start (h : SampleCuts n cut N) (hlt : N < 2 ^ 31) :
    SampleInv cut keys (⟨⟨[], false⟩, cutSampling n cut⟩ : SampleSystem n) := by
  refine ⟨fun t => ?_, rfl, by simp, fun t i hlow hhigh => ?_, List.nodup_nil⟩
  · have hle := h.mono t (t + 1) (Nat.le_succ _) t.isLt
    have hend := h.le (m := t + 1) t.isLt
    refine ⟨?_, le_rfl, Nat.div_le_div_right hle, rfl⟩
    simp only [cutSampling]
    rw [toInt32_eq (by omega) (by omega), Nat.mul_div_cancel' (h.aligned t t.isLt)]
  · exact absurd hhigh (not_lt.mpr hlow)

/-- Two chunks share no slot. -/
theorem SampleInv.slot_ne (hinv : SampleInv cut keys s) (h : SampleCuts n cut N) (hut : u ≠ t)
    {i : ℕ} (hlow : cut u / interleave ≤ i) (hhigh : i < (s.threads u).partialOffset)
    (hend : (s.threads t).partialOffset < cut (t + 1) / interleave) :
    i ≠ (s.threads t).partialOffset := by
  have hi := hhigh.trans_le (hinv.threads u).high
  have hstart := (hinv.threads t).low
  rcases Nat.lt_or_gt_of_ne (fun heq => hut (Fin.ext heq)) with hlt | hgt
  · have hmono := Nat.div_le_div_right (c := interleave) (h.mono (u + 1) t hlt t.isLt.le)
    omega
  · have hmono := Nat.div_le_div_right (c := interleave) (h.mono (t + 1) u hgt u.isLt.le)
    omega

theorem SampleInv.step (hinv : SampleInv cut keys s) (h : SampleCuts n cut N)
    (hN : interleave ∣ N) (hlt : N < 2 ^ 31) (t : Fin n) :
    SampleInv cut keys (s.step (sampleAct keys) t) := by
  have hchunk := hinv.threads t
  have hend := (h.le (m := t + 1) t.isLt).trans_lt hlt
  have hdvd := h.dvd hN (m := t + 1) t.isLt
  by_cases hruns : (s.threads t).Runs
  -- a loop that has ended changes nothing
  case neg =>
    have hact : sampleAct keys t s.shared (s.threads t) = (s.shared, s.threads t) := if_neg hruns
    rw [System.step_of_act_eq hact]
    exact hinv
  have hslot := (hchunk.runs_iff hdvd hend).mp hruns
  obtain ⟨hnext, hchunk'⟩ := hchunk.advance hdvd hend hslot
  have hact : sampleAct keys t s.shared (s.threads t) = _ := if_pos hruns
  rw [System.step_eq_put, hact]
  constructor
  case threads =>
    intro u
    rcases eq_or_ne u t with rfl | hu
    · rw [System.put_self]
      exact hchunk'
    · rw [System.put_of_ne hu]
      exact hinv.threads u
  case defined =>
    have hno : ¬ (2 ^ 31 ≤ (s.threads t).p + (interleave : ℕ)) := not_le.mpr hnext
    simp only [System.put_shared, hinv.defined, Bool.false_or]
    exact decide_eq_false hno
  case sound =>
    intro w hw
    rcases List.mem_cons.mp hw with rfl | hw
    · refine ⟨t, hchunk.low, ?_⟩
      rw [System.put_self]
      exact Nat.lt_succ_self _
    · obtain ⟨u, hlow, hhigh⟩ := hinv.sound w hw
      refine ⟨u, hlow, ?_⟩
      rcases eq_or_ne u t with rfl | hu
      · rw [System.put_self]
        exact Nat.lt_succ_of_lt hhigh
      · rwa [System.put_of_ne hu]
  case wrote =>
    intro u i hlow hhigh
    refine List.mem_cons.mpr ?_
    rcases eq_or_ne u t with rfl | hu
    · rw [System.put_self] at hhigh
      rcases Nat.lt_succ_iff_lt_or_eq.mp hhigh with hi | rfl
      · exact Or.inr (hinv.wrote u i hlow hi)
      · left
        rw [hchunk.index, Int.toNat_natCast]
    · rw [System.put_of_ne hu] at hhigh
      exact Or.inr (hinv.wrote u i hlow hhigh)
  case once =>
    rw [System.put_shared, List.map_cons, List.nodup_cons]
    -- the slot is past those the loop has written, and in no other chunk
    refine ⟨fun hmem => ?_, hinv.once⟩
    obtain ⟨w, hw, heq⟩ := List.mem_map.mp hmem
    obtain ⟨u, hlow, hhigh⟩ := hinv.sound w hw
    rcases eq_or_ne u t with rfl | hu
    · exact absurd heq hhigh.ne
    · exact hinv.slot_ne h hu hlow hhigh hslot heq

theorem SampleInv.once_of (hinv : SampleInv cut keys s) (h : SampleCuts n cut N) :
    SampledOnce N s.shared := by
  refine ⟨hinv.defined, fun w hw => ?_, hinv.once⟩
  obtain ⟨t, -, hlt⟩ := hinv.sound w hw
  exact (hlt.trans_le (hinv.threads t).high).trans_le (Nat.div_le_div_right (h.le t.isLt))

/-- Every slot belongs to a chunk. -/
theorem SampleCuts.exists_chunk (h : SampleCuts n cut N) {i m : ℕ} (hm : m ≤ n)
    (hi : i < cut m / interleave) :
    ∃ t : Fin n, cut t / interleave ≤ i ∧ i < cut (t + 1) / interleave := by
  induction m with
  | zero =>
    rw [h.zero] at hi
    exact absurd hi (Nat.not_lt_zero i)
  | succ m ih =>
    rcases Nat.lt_or_ge i (cut m / interleave) with hlt | hge
    · exact ih (by omega) hlt
    · exact ⟨⟨m, hm⟩, hge, hi⟩

/-- Loops that have ended have written every slot. -/
theorem SampleInv.complete (hinv : SampleInv cut keys s) (h : SampleCuts n cut N)
    (hN : interleave ∣ N) (hlt : N < 2 ^ 31) (hstuck : Stuck (System.step (sampleAct keys)) s)
    {i : ℕ} (hi : i < N / interleave) : (i, keys (interleave * i)) ∈ s.shared.written := by
  rw [← h.last] at hi
  obtain ⟨t, hlow, hhigh⟩ := h.exists_chunk le_rfl hi
  have hend := h.le (m := t + 1) t.isLt
  have hruns : ¬ (s.threads t).Runs := by
    intro hruns
    have hact := hstuck.act_eq t
    rw [sampleAct, if_pos hruns] at hact
    exact absurd (congrArg SampleLoop.partialOffset hact) (Nat.succ_ne_self _)
  rw [(hinv.threads t).runs_iff (h.dvd hN t.isLt) (hend.trans_lt hlt)] at hruns
  exact hinv.wrote t i hlow (by omega)

theorem SampleCuts.sum_le (h : SampleCuts n cut N) {m : ℕ} (hm : m ≤ n) :
    ∑ t ∈ Finset.range m, (cut (t + 1) - cut t) ≤ cut m := by
  induction m with
  | zero => exact Nat.zero_le _
  | succ m ih =>
    have hmono := h.mono m (m + 1) (Nat.le_succ m) hm
    have hsum := ih (by omega)
    rw [Finset.sum_range_succ]
    omega

/-- A pass brings its loop closer to its end. -/
theorem sample_lowers (h : SampleCuts n cut N) (hN : interleave ∣ N) (hlt : N < 2 ^ 31) :
    Lowers (System.step (sampleAct keys)) (SampleInv (n := n) cut keys)
      fun s => ∑ t, ((s.threads t).stop - interleave * (s.threads t).partialOffset) := by
  refine System.lowers (w := fun th : SampleLoop => th.stop - interleave * th.partialOffset)
    (fun s t hinv => hinv.step h hN hlt t) fun s t hinv => ?_
  by_cases hruns : (s.threads t).Runs
  · right
    have hend := h.le (m := t + 1) t.isLt
    have hslot := ((hinv.threads t).runs_iff (h.dvd hN t.isLt) (hend.trans_lt hlt)).mp hruns
    rw [← (hinv.threads t).stop] at hslot
    simp only [sampleAct, if_pos hruns, interleave] at hslot ⊢
    omega
  · exact Or.inl (if_neg hruns)

/-- Over keys whose number is a multiple of eight below `2 ^ 31` the loops sample exactly. -/
theorem SampleCuts.exact (h : SampleCuts n cut N) (hN : interleave ∣ N) (hlt : N < 2 ^ 31)
    (keys : ℕ → DTYPE) : SamplesExactly N keys (cutSampling n cut) := by
  have hrun : ∀ schedule, SampleInv cut keys (sampleRun keys (cutSampling n cut) schedule) :=
    run_invariant (sampleInv_start h hlt) fun _ t hinv => hinv.step h hN hlt t
  refine ⟨fun schedule => (hrun schedule).once_of h, fun schedule hstuck i hi =>
    (hrun schedule).complete h hN hlt hstuck hi, fun rounds hrounds hlen => ?_⟩
  refine (sample_lowers h hN hlt).stuck (sampleInv_start h hlt) hrounds (lt_of_le_of_lt ?_ hlen)
  -- at the start the loops have the keys of their chunks before them
  have hstart : ∀ t : Fin n, (cutSampling n cut t).stop -
      interleave * (cutSampling n cut t).partialOffset = cut (t + 1) - cut t := by
    intro t
    rw [cutSampling, Nat.mul_div_cancel' (h.aligned t t.isLt)]
  simp only [hstart]
  rw [Fin.sum_univ_eq_sum_range (fun t => cut (t + 1) - cut t) n]
  exact (h.sum_le le_rfl).trans h.last.le

end Exact

section Violated

variable {n N j : ℕ} {cut : ℕ → ℕ} {keys : ℕ → DTYPE}

/-- The passes of one loop alone. -/
theorem sampleRun_replicate (keys : ℕ → DTYPE) (t : Fin n)
    (hstop : cut t + interleave * j < cut (t + 1)) (hint : cut t + interleave * j < 2 ^ 31) :
    (sampleRun keys (cutSampling n cut) (List.replicate j t)).threads t =
      ⟨(cut t + interleave * j : ℕ), cut t / interleave + j, cut (t + 1)⟩ := by
  induction j with
  | zero =>
    simp only [sampleRun, List.replicate_zero, run_nil, cutSampling]
    rw [toInt32_eq (by omega) (by omega)]
    rfl
  | succ j ih =>
    have hlt : cut t + interleave * j < cut t + interleave * (j + 1) := by
      simp only [interleave]
      omega
    specialize ih (hlt.trans hstop) (hlt.trans hint)
    rw [sampleRun] at ih ⊢
    rw [List.replicate_succ', run_concat, System.step_self, ih]
    have hruns : SampleLoop.Runs
        ⟨(cut t + interleave * j : ℕ), cut t / interleave + j, cut (t + 1)⟩ := by
      simp only [SampleLoop.Runs, interleave] at hlt hstop hint ⊢
      omega
    simp only [sampleAct, if_pos hruns]
    rw [toInt32_eq (by omega) (by simp only [interleave] at hint ⊢; omega)]
    simp only [interleave, SampleLoop.mk.injEq, and_true]
    omega

/-- The pass after that writes the next slot, and overflows at the end of the `int`s. -/
theorem sampleRun_next (keys : ℕ → DTYPE) (t : Fin n)
    (hstop : cut t + interleave * j < cut (t + 1)) (hint : cut t + interleave * j < 2 ^ 31) :
    let sh := (sampleRun keys (cutSampling n cut) (List.replicate (j + 1) t)).shared
    (∃ w ∈ sh.written, w.1 = cut t / interleave + j) ∧
      (2 ^ 31 ≤ cut t + interleave * (j + 1) → sh.overflow = true) := by
  intro sh
  have hthread := sampleRun_replicate keys t hstop hint
  have hruns : SampleLoop.Runs
      ⟨(cut t + interleave * j : ℕ), cut t / interleave + j, cut (t + 1)⟩ := by
    simp only [SampleLoop.Runs, interleave] at hstop hint ⊢
    omega
  rw [sampleRun] at hthread
  have hsh : sh = _ := congrArg System.shared
    ((congrArg (run _ _) (List.replicate_succ' ..)).trans (run_concat _ _ _ _))
  rw [System.step_eq_put, System.put_shared, hthread, sampleAct, if_pos hruns] at hsh
  rw [hsh]
  refine ⟨⟨_, List.mem_cons_self, rfl⟩, fun hge => ?_⟩
  have htrue : (2 : ℤ) ^ 31 ≤ (cut t + interleave * j : ℕ) + (interleave : ℕ) := by
    simp only [interleave] at hge ⊢
    omega
  simp only [decide_eq_true htrue, Bool.or_true]

/-- From `2 ^ 31` keys on a loop leaves the range of its index. -/
theorem SampleCuts.overflows (h : SampleCuts n cut N) (hN : 2 ^ 31 ≤ N) :
    ¬ SamplesExactly N keys (cutSampling n cut) := by
  -- the loop whose chunk has the last index of an `int`
  obtain ⟨t, hlow, hhigh⟩ := h.exists_chunk (i := 2 ^ 28 - 1) le_rfl
    (by rw [h.last]; simp only [interleave]; omega)
  obtain ⟨a, ha⟩ := h.aligned t t.isLt
  simp only [interleave] at hlow hhigh ha
  have hstop : cut t + interleave * (2 ^ 28 - 1 - a) < cut (t + 1) := by
    simp only [interleave]
    omega
  obtain ⟨-, hover⟩ := sampleRun_next keys t hstop (by simp only [interleave]; omega)
  intro hexact
  have hdefined := (hexact.safe (List.replicate (2 ^ 28 - 1 - a + 1) t)).defined
  rw [hover (by simp only [interleave]; omega)] at hdefined
  exact absurd hdefined (by decide)

/-- Keys beyond the last multiple of eight give a slot behind the array. -/
theorem SampleCuts.overruns (h : SampleCuts n cut N) (hlt : N < 2 ^ 31) (hN : ¬ interleave ∣ N) :
    ¬ SamplesExactly N keys (cutSampling n cut) := by
  have hn : n ≠ 0 := by
    rintro rfl
    have hzero : N = 0 := h.last.symm.trans h.zero
    exact hN (hzero ▸ dvd_zero _)
  obtain ⟨m, rfl⟩ := Nat.exists_eq_succ_of_ne_zero hn
  have hle := h.le (m := m) (Nat.le_succ m)
  have hlast : cut (m + 1) = N := h.last
  obtain ⟨a, ha⟩ := h.aligned m (Nat.lt_succ_self m)
  simp only [interleave] at hN ha
  have hstop : cut (Fin.last m) + interleave * (N / 8 - a) < cut (Fin.last m + 1) := by
    rw [Fin.val_last, hlast, ha]
    simp only [interleave]
    omega
  obtain ⟨⟨w, hw, hslot⟩, -⟩ := sampleRun_next keys (Fin.last m) hstop (by
    rw [Fin.val_last, ha]
    simp only [interleave]
    omega)
  intro hexact
  have hbound := (hexact.safe _).bounds w hw
  rw [hslot] at hbound
  simp only [interleave, Fin.val_last] at hbound
  omega

/-- Sampling is exact and in bounds for the numbers of keys that are a multiple of eight and an
`int`, at bulk load and after a merge. -/
theorem sampling_exact_iff (N : ℕ) (keys : ℕ → DTYPE) :
    (SamplesExactly N keys (bulkSampling N) ↔ interleave ∣ N ∧ N < 2 ^ 31) ∧
      (SamplesExactly N keys (mergeSampling N) ↔ interleave ∣ N ∧ N < 2 ^ 31) := by
  have hiff : ∀ {n : ℕ} {cut : ℕ → ℕ}, SampleCuts n cut N →
      (SamplesExactly N keys (cutSampling n cut) ↔ interleave ∣ N ∧ N < 2 ^ 31) := by
    refine fun h => ⟨fun hexact => ?_, fun ⟨hdvd, hlt⟩ => h.exact hdvd hlt keys⟩
    have hlt : N < 2 ^ 31 := not_le.mp fun hge => h.overflows hge hexact
    exact ⟨not_not.mp fun hdvd => h.overruns hlt hdvd hexact, hlt⟩
  rw [bulkSampling_eq, mergeSampling_eq]
  exact ⟨hiff (sampleCuts_bulk N), hiff (sampleCuts_merge N)⟩

/-- With 1025 keys the loop at bulk load, and the last loop of a merge, write slot 128 of an array
of 128. -/
theorem sampling_overruns_1025 :
    ¬ SamplesExactly 1025 (fun i => i) (bulkSampling 1025) ∧
      ¬ SamplesExactly 1025 (fun i => i) (mergeSampling 1025) := by
  rw [bulkSampling_eq, mergeSampling_eq]
  exact ⟨(sampleCuts_bulk 1025).overruns (by decide) (by decide),
    (sampleCuts_merge 1025).overruns (by decide) (by decide)⟩

end Violated

section Rounded

variable {keys : ℕ → DTYPE} {N : ℕ}

/-- The keys rounded up to whole blocks. -/
def roundedKeys (N : ℕ) : ℕ := interleave * ((N + (interleave - 1)) / interleave)

/-- The chunks of a merge, the last one rounded up. -/
def roundedSampleCut (N m : ℕ) : ℕ :=
  if m = mergeThreadNum then roundedKeys N else mergeSampleCut N m

theorem sampleCuts_rounded (N : ℕ) :
    SampleCuts mergeThreadNum (roundedSampleCut N) (roundedKeys N) := by
  have h := sampleCuts_merge N
  have hle : N ≤ roundedKeys N := by
    simp only [roundedKeys, interleave]
    omega
  have hne : (0 : ℕ) ≠ mergeThreadNum := by decide
  refine ⟨?_, if_pos rfl, fun i j hij hj => ?_, fun t ht => ?_⟩
  · rw [roundedSampleCut, if_neg hne, h.zero]
  · have hmono := h.mono i j hij hj
    have hlast := h.le hj
    simp only [roundedSampleCut]
    split_ifs <;> omega
  · rw [roundedSampleCut, if_neg ht.ne]
    exact h.aligned t ht

/-- The end of a loop's chunk, before it is rounded up. -/
def SampleLoop.restop (N : ℕ) (t : Fin mergeThreadNum) (th : SampleLoop) : SampleLoop :=
  { th with stop := mergeSampleCut N (t + 1) }

theorem restop_runs {t : Fin mergeThreadNum} {th : SampleLoop}
    (h : InChunk (roundedSampleCut N t) (roundedSampleCut N (t + 1)) th)
    (hN : roundedKeys N < 2 ^ 31) : (th.restop N t).Runs ↔ th.Runs := by
  have hend := (sampleCuts_rounded N).le (m := t + 1) t.isLt
  have hhigh := h.high
  rw [SampleLoop.Runs, SampleLoop.Runs, SampleLoop.restop, h.stop]
  simp only [h.index]
  rw [roundedSampleCut] at hend hhigh ⊢
  split_ifs at hend hhigh ⊢ with hlast
  · -- the last loop's index is a multiple of eight, so it meets both ends at once
    rw [hlast, (sampleCuts_merge N).last]
    have hword : roundedKeys N < 2 ^ 64 := hN.trans (by decide)
    simp only [roundedKeys, interleave] at hword hhigh ⊢
    omega
  · exact Iff.rfl

/-- The loops with the ends they have. -/
def restopped (N : ℕ) (s : SampleSystem mergeThreadNum) : SampleSystem mergeThreadNum :=
  ⟨s.shared, fun t => (s.threads t).restop N t⟩

theorem restopped_step {s : SampleSystem mergeThreadNum}
    (hinv : SampleInv (roundedSampleCut N) keys s) (hN : roundedKeys N < 2 ^ 31)
    (t : Fin mergeThreadNum) :
    (restopped N s).step (sampleAct keys) t = restopped N (s.step (sampleAct keys) t) := by
  have hruns := restop_runs (hinv.threads t) hN
  by_cases hth : (s.threads t).Runs
  · have hact : sampleAct keys t s.shared (s.threads t) = _ := if_pos hth
    have hact' : sampleAct keys t s.shared ((s.threads t).restop N t) = _ :=
      if_pos (hruns.mpr hth)
    rw [System.step_eq_put, System.step_eq_put]
    simp only [restopped]
    rw [hact, hact']
    refine congrArg (System.mk _) (funext fun u => ?_)
    rcases eq_or_ne u t with rfl | hu
    · simp only [System.put, Function.update_self]
      rfl
    · simp only [System.put, Function.update_of_ne hu]
  · rw [System.step_of_act_eq (if_neg (mt hruns.mp hth)), System.step_of_act_eq (if_neg hth)]

/-- A merge's loops run as over whole blocks. -/
theorem sampleRun_rounded (keys : ℕ → DTYPE) (hN : roundedKeys N < 2 ^ 31)
    (samples : List (Fin mergeThreadNum)) :
    let s := sampleRun keys (cutSampling mergeThreadNum (roundedSampleCut N)) samples
    SampleInv (roundedSampleCut N) keys s ∧
      sampleRun keys (mergeSampling N) samples = restopped N s := by
  intro s
  have hcuts := sampleCuts_rounded N
  have hdvd : interleave ∣ roundedKeys N := Nat.dvd_mul_right _ _
  let start : SampleSystem mergeThreadNum :=
    ⟨⟨[], false⟩, cutSampling mergeThreadNum (roundedSampleCut N)⟩
  have hstart : SampleInv (roundedSampleCut N) keys start := sampleInv_start hcuts hN
  have hkeep : ∀ (s : SampleSystem mergeThreadNum) (t : Fin mergeThreadNum),
      SampleInv (roundedSampleCut N) keys s →
        SampleInv (roundedSampleCut N) keys (s.step (sampleAct keys) t) :=
    fun _ t hinv => hinv.step hcuts hdvd hN t
  refine ⟨run_invariant hstart hkeep samples, ?_⟩
  have hrun : run (System.step (sampleAct keys)) (restopped N start) samples = restopped N s :=
    run_map hstart hkeep (fun _ t hinv => restopped_step hinv hN t) samples
  have hinit : mergeSampling N = fun t =>
      (cutSampling mergeThreadNum (roundedSampleCut N) t).restop N t := by
    rw [mergeSampling_eq]
    funext t
    have hne : t.val ≠ mergeThreadNum := t.isLt.ne
    simp only [cutSampling, SampleLoop.restop, roundedSampleCut, if_neg hne]
  rw [sampleRun, hinit]
  exact hrun

/-- A merge's loops come to an end, whatever the number of keys. -/
theorem sampleRun_stuck (keys : ℕ → DTYPE) (hN : roundedKeys N < 2 ^ 31)
    {rounds : List (List (Fin mergeThreadNum))} (hrounds : Rounds rounds)
    (hlen : roundedKeys N < rounds.length) :
    Stuck (System.step (sampleAct keys)) (sampleRun keys (mergeSampling N) rounds.flatten) := by
  obtain ⟨hinv, heq⟩ := sampleRun_rounded keys hN rounds.flatten
  have hfinish := ((sampleCuts_rounded N).exact (Nat.dvd_mul_right _ _) hN keys).finish
    rounds hrounds hlen
  intro t
  rw [heq, restopped_step hinv hN, hfinish t]

/-- Whatever the number of keys and the order of the loops, they write no slot twice and at most one
behind the array, and no `int` overflows. -/
theorem sampled_once (keys : ℕ → DTYPE) (hN : roundedKeys N < 2 ^ 31)
    (samples : List (Fin mergeThreadNum)) :
    SampledOnce (roundedKeys N) (sampleRun keys (mergeSampling N) samples).shared := by
  obtain ⟨hinv, heq⟩ := sampleRun_rounded keys hN samples
  rw [heq]
  exact hinv.once_of (sampleCuts_rounded N)

/-- What the array of partial keys holds; a slot that was not written reads 0. -/
def SampleArray.partialKeys (arr : SampleArray) (i : ℕ) : DTYPE :=
  (contents arr.written.reverse i).getD 0

/-- Whatever the number of keys and the order of the loops, in the end every slot that starts a
block of keys has its key. -/
theorem sampled_partialKeys (hN : roundedKeys N < 2 ^ 31) {samples : List (Fin mergeThreadNum)}
    (hstuck : Stuck (System.step (sampleAct keys)) (sampleRun keys (mergeSampling N) samples))
    (i : ℕ) :
    (sampleRun keys (mergeSampling N) samples).shared.partialKeys i =
      if interleave * i < N then keys (interleave * i) else 0 := by
  obtain ⟨hinv, heq⟩ := sampleRun_rounded keys hN samples
  have hcuts := sampleCuts_rounded N
  have hdvd : interleave ∣ roundedKeys N := Nat.dvd_mul_right _ _
  generalize sampleRun keys (cutSampling mergeThreadNum (roundedSampleCut N)) samples = s at *
  rw [heq, restopped] at hstuck ⊢
  have hnodup : (s.shared.written.reverse.map Prod.fst).Nodup := by
    rw [List.map_reverse]
    exact List.nodup_reverse.mpr hinv.once
  have hblocks : interleave * i < N ↔ i < roundedKeys N / interleave := by
    simp only [roundedKeys, interleave]
    omega
  rw [SampleArray.partialKeys]
  split_ifs with hi
  · obtain ⟨t, hlow, hhigh⟩ := hcuts.exists_chunk (i := i) le_rfl
      (by rw [hcuts.last]; exact hblocks.mp hi)
    have hend := hcuts.le (m := t + 1) t.isLt
    have hruns : ¬ (s.threads t).Runs := by
      intro hruns
      have hact := hstuck.act_eq t
      rw [sampleAct, if_pos ((restop_runs (hinv.threads t) hN).mpr hruns)] at hact
      exact absurd (congrArg SampleLoop.partialOffset hact) (Nat.succ_ne_self _)
    rw [(hinv.threads t).runs_iff (hcuts.dvd hdvd t.isLt) (hend.trans_lt hN)] at hruns
    rw [(contents_iff hnodup).mpr (List.mem_reverse.mpr (hinv.wrote t i hlow (by omega)))]
    rfl
  · rw [contents_eq_none.mpr]
    · rfl
    · rw [List.map_reverse, List.mem_reverse]
      intro hmem
      obtain ⟨w, hw, rfl⟩ := List.mem_map.mp hmem
      exact hi (hblocks.mpr ((hinv.once_of hcuts).bounds w hw))

end Rounded

end PimLex
