import PimLex.Skew
import PimLex.Transition.Run
import PimLex.Transition.Trace

/-!
# What a skewed round stores

Which page an insertion finds full follows from the state before the round: the
page's count, and how many requests for the page came earlier. A round therefore
sorts its requests into those with room, which go to their page, and those turned
away. Of the latter a DPU's are stored if its tree is not on the DPUs, or if there
is just one of them.
-/

namespace PimLex.BulkInput

open Search

section Fates

/-- The members of a history, latest first, that satisfy a condition on what came before. -/
def selectBy {α : Type} (P : List α → α → Prop) [∀ hist a, Decidable (P hist a)] :
    List α → List α
  | [] => []
  | a :: hist => if P hist a then a :: selectBy P hist else selectBy P hist

/-- The request, a DPU and a key, passes the guard with block `i`. -/
def AimsAt (b : BulkInput) (i : ℕ) (x : ℕ × DTYPE) : Prop :=
  x.2 < b.insertBound ∧ b.coveredRank x.2 - 1 = i

instance (b : BulkInput) (i : ℕ) (x : ℕ × DTYPE) : Decidable (b.AimsAt i x) :=
  inferInstanceAs (Decidable (_ ∧ _))

/-- With the requests for its page that came earlier, the key's page is full. -/
def FindsFull (b : BulkInput) (idx : DramIndex BufPage OptNode) (hist : List (ℕ × DTYPE))
    (k : DTYPE) : Prop :=
  bufSize ≤ (idx.bufferPages (b.coveredRank k - 1)).pageCount +
    hist.countP fun x => b.AimsAt (b.coveredRank k - 1) x

instance (b : BulkInput) (idx : DramIndex BufPage OptNode) (hist : List (ℕ × DTYPE))
    (k : DTYPE) : Decidable (b.FindsFull idx hist k) := inferInstanceAs (Decidable (_ ≤ _))

/-- The requests of a history that find room in their page, or a tree that only the host
holds. -/
def taken (b : BulkInput) (enabled : ℕ → Bool) (idx : DramIndex BufPage OptNode) :
    List (ℕ × DTYPE) → List (ℕ × DTYPE) :=
  selectBy fun hist x =>
    x.2 < b.insertBound ∧ (b.FindsFull idx hist x.2 → enabled x.1 = false)

/-- The requests of a history that find their page full and their tree on the DPUs. -/
def turnedAway (b : BulkInput) (enabled : ℕ → Bool) (idx : DramIndex BufPage OptNode) :
    List (ℕ × DTYPE) → List (ℕ × DTYPE) :=
  selectBy fun hist x => x.2 < b.insertBound ∧ b.FindsFull idx hist x.2 ∧ enabled x.1 = true

/-- The keys of one DPU among those turned away, in the order of their requests. -/
def turnedAwayFrom (b : BulkInput) (enabled : ℕ → Bool) (idx : DramIndex BufPage OptNode)
    (hist : List (ℕ × DTYPE)) (dpu : ℕ) : List DTYPE :=
  ((b.turnedAway enabled idx hist).filter fun x => x.1 = dpu).reverse.map Prod.snd

theorem mem_selectBy_cons {α : Type} {P : List α → α → Prop} [∀ hist a, Decidable (P hist a)]
    {a y : α} {hist : List α} :
    y ∈ selectBy P (a :: hist) ↔ (P hist a ∧ y = a) ∨ y ∈ selectBy P hist := by
  rw [selectBy]
  split_ifs with h <;> simp [h]

end Fates

variable {b : BulkInput} {nr : ℕ → ℕ} {prev : DramLevel} {mram : ℕ → ℤ → DTYPE}
  {window pgm : ℕ → DTYPE → ℕ × ℕ} {enable enabled : ℕ → Bool} {p d dpu answer : ℕ} {k x : DTYPE}
  {idx : DramIndex BufPage OptNode} {hist : List (ℕ × DTYPE)} {st : SkewState}

section Place

/-- The branches of `insert_payload_skew` for a key that is handed over rightly. -/
theorem Handed.placeSkew_eq (h : b.Handed nr ⟨dpu, k, answer⟩ p) (hover : b.Over st.idx)
    (hpgm : b.Brackets pgm) (prev : DramLevel) :
    st.placeSkew (b.level nr prev) pgm enable dpu k answer =
      if k < b.insertBound then
        if ((st.idx.bufferPages (b.coveredRank k - 1)).insertPage k (.ofByte 99)).1 = true then
          { st with idx := st.idx.placeInPage .standing (b.coveredRank k - 1) p k }
        else if enable p = false then st.treeInsert p k
        else st.pushSend dpu k
      else st := by
  have hguard := h.guard_iff hover hpgm prev
  simp only at hguard
  rw [SkewState.placeSkew]
  simp only
  by_cases hk : k < b.insertBound
  · rw [if_pos (hguard.mpr hk), if_pos hk]
    have hpos := h.insertPos_of_lt hover hpgm prev hk
    simp only at hpos
    rw [hpos, level_dpuIdToPartition h.owns.lt h.hosts]
    cases hins : ((st.idx.bufferPages (b.coveredRank k - 1)).insertPage k (.ofByte 99)).1 with
    | true =>
      rw [if_pos rfl, if_pos rfl, placeInPage_room hins]
    | false =>
      -- a refused page is written back as it was
      rw [if_neg Bool.false_ne_true, if_neg Bool.false_ne_true, BufPage.insertPage_refused hins,
        Function.update_eq_self]
      cases enable p <;> rfl
  · rw [if_neg (mt hguard.mp hk), if_neg hk]

/-- The state after some requests, compared with the index before them. -/
structure SkewInv (b : BulkInput) (enabled : ℕ → Bool) (idx : DramIndex BufPage OptNode)
    (hist : List (ℕ × DTYPE)) (st : SkewState) : Prop where
  buffered : b.Buffered st.idx
  ext : b.Extends idx st.idx
  stored : ∀ k, b.Stored st.idx k ↔
    b.Stored idx k ∨ ∃ dpu, (dpu, k) ∈ b.taken enabled idx hist
  count : ∀ i, (st.idx.bufferPages i).pageCount =
    min bufSize ((idx.bufferPages i).pageCount + hist.countP fun x => b.AimsAt i x)

theorem SkewInv.start (h : b.Buffered st.idx) (enabled : ℕ → Bool) :
    b.SkewInv enabled st.idx [] st where
  buffered := h
  ext := .refl b st.idx
  stored := by simp [taken, selectBy]
  count i := by
    have hle : (st.idx.bufferPages i).pageCount ≤ bufSize := (st.idx.bufferPages i).length_le
    rw [List.countP_nil, Nat.add_zero, Nat.min_eq_right hle]

theorem SkewInv.insertPage_fst (h : b.SkewInv enabled idx hist st) :
    ((st.idx.bufferPages (b.coveredRank k - 1)).insertPage k (.ofByte 99)).1 = true ↔
      ¬ b.FindsFull idx hist k := by
  rw [BufPage.insertPage_fst, h.count, FindsFull]
  omega

/-- The next state follows from what the request changed. -/
theorem SkewInv.cons (h : b.SkewInv enabled idx hist st) {st' : SkewState}
    (hbuf : b.Buffered st'.idx) (hext : b.Extends st.idx st'.idx)
    (hstored : ∀ x, b.Stored st'.idx x ↔ b.Stored st.idx x ∨
      (k < b.insertBound ∧ (b.FindsFull idx hist k → enabled dpu = false)) ∧ x = k)
    (hcount : ∀ i, (st'.idx.bufferPages i).pageCount = (st.idx.bufferPages i).pageCount +
      if b.AimsAt i (dpu, k) ∧ ¬ b.FindsFull idx hist k then 1 else 0) :
    b.SkewInv enabled idx ((dpu, k) :: hist) st' := by
  refine ⟨hbuf, h.ext.trans hext, fun x => ?_, fun i => ?_⟩
  · -- what is stored: the requests taken before, and this one if it is taken
    rw [hstored, h.stored, or_assoc]
    refine or_congr_right ?_
    simp only [taken, mem_selectBy_cons, Prod.mk.injEq, exists_or]
    rw [or_comm]
    refine or_congr_left ?_
    simp
  · rw [hcount, h.count, List.countP_cons]
    by_cases haim : b.AimsAt i (dpu, k)
    · -- the page is full exactly when the counted requests fill it
      have hfull : b.FindsFull idx hist k ↔
          bufSize ≤ (idx.bufferPages i).pageCount + hist.countP fun x => b.AimsAt i x := by
        rw [FindsFull, haim.2]
      simp only [haim, hfull, true_and, decide_true, if_true]
      split_ifs <;> omega
    · simp [haim]

/-- One request: it is stored, pushed to the send buffer, or dropped by the guard. -/
theorem SkewInv.place (h : b.SkewInv enabled idx hist st) (hpgm : b.Brackets pgm)
    (hr : b.Handed nr ⟨dpu, k, answer⟩ p) (henable : enabled dpu = enable p)
    (prev : DramLevel) :
    let st' := st.placeSkew (b.level nr prev) pgm enable dpu k answer
    b.SkewInv enabled idx ((dpu, k) :: hist) st' ∧
      st'.send = if k < b.insertBound ∧ b.FindsFull idx hist k ∧ enabled dpu = true then
        Function.update st.send dpu ((st.send dpu).push k) else st.send := by
  intro st'
  have heq : st' = _ := hr.placeSkew_eq h.buffered.onBase hpgm prev
  have hfst := h.insertPage_fst (k := k)
  by_cases hk : k < b.insertBound
  · rw [if_pos hk] at heq
    by_cases hfull : b.FindsFull idx hist k
    · -- the page has no room: the host's tree takes the key, or the DPU gets it back
      rw [if_neg fun htrue => hfst.mp htrue hfull, ← henable] at heq
      by_cases hp : enabled dpu = false
      · rw [if_pos hp] at heq
        rw [heq, if_neg (by simp [hp])]
        obtain ⟨hbuf, hext, hstored⟩ := h.buffered.treeInsert hr.owns hk hr.one_le
        exact ⟨h.cons hbuf hext (fun x => (hstored x).trans (by simp [hk, hp]))
          (by simp [SkewState.treeInsert, hfull]), rfl⟩
      · rw [if_neg hp] at heq
        rw [heq, if_pos ⟨hk, hfull, by simpa using hp⟩]
        exact ⟨h.cons h.buffered (.refl b _) (by simp [SkewState.pushSend, hfull, hp])
          (by simp [SkewState.pushSend, hfull]), rfl⟩
    · have hins := hfst.mpr hfull
      rw [if_pos hins] at heq
      rw [heq, if_neg fun hpush => hfull hpush.2.1]
      obtain ⟨hbuf, hext, hstored⟩ := h.buffered.place_room hr.owns hk hins
      refine ⟨h.cons hbuf hext (fun x => (hstored x).trans (by simp [hk, hfull])) fun i => ?_,
        rfl⟩
      simp only [placeInPage_room hins]
      -- only the page of the key grows
      by_cases hi : b.coveredRank k - 1 = i
      · subst hi
        rw [Function.update_self, BufPage.pageCount_insertPage hins,
          if_pos ⟨⟨hk, rfl⟩, hfull⟩]
      · rw [Function.update_of_ne (Ne.symm hi), if_neg fun haim => hi haim.1.2,
          Nat.add_zero]
  · -- the guard has no else branch
    rw [if_neg hk] at heq
    rw [heq, if_neg fun hpush => hk hpush.1]
    exact ⟨h.cons h.buffered (.refl b _) (by simp [hk])
      (by simp [AimsAt, hk]), rfl⟩

end Place

section Loop

variable {send : SendBuffer} {recv : ℕ → RecvBuffer} {n : ℕ} {order : List ℕ}

theorem slots_succ : send.slots (n + 1) = send.slots n ++ [send.sbuffer n] := by
  rw [SendBuffer.slots, List.range_succ, List.map_append]
  rfl

theorem slots_push (send : SendBuffer) (k : DTYPE) :
    (send.push k).slots (send.push k).nTasks = send.slots send.nTasks ++ [k] :=
  Transition.map_range_update _ _ _

theorem turnedAwayFrom_cons_self :
    b.turnedAwayFrom enabled idx ((dpu, k) :: hist) dpu =
      b.turnedAwayFrom enabled idx hist dpu ++
        if k < b.insertBound ∧ b.FindsFull idx hist k ∧ enabled dpu = true then [k] else [] := by
  rw [turnedAwayFrom, turnedAway, selectBy]
  split_ifs <;> simp [turnedAwayFrom, turnedAway]

theorem turnedAwayFrom_cons_of_ne (hd : d ≠ dpu) :
    b.turnedAwayFrom enabled idx ((dpu, k) :: hist) d = b.turnedAwayFrom enabled idx hist d := by
  rw [turnedAwayFrom, turnedAway, selectBy]
  split_ifs <;> simp [turnedAwayFrom, turnedAway, hd.symm]

/-- The requests of a DPU: the keys of all its tasks but the last one. -/
def skewTasks (send : SendBuffer) (dpu n : ℕ) : List (ℕ × DTYPE) :=
  (send.slots n).map fun k => (dpu, k)

/-- The loop over one DPU's tasks reads every slot before a rejected key overwrites it. -/
theorem SkewInv.dpuLoop (h : b.SkewInv enabled idx hist st) (hpgm : b.Brackets pgm)
    (henable : enabled dpu = enable p) (hnone : b.turnedAwayFrom enabled idx hist dpu = [])
    (hr : ∀ j < n, b.Handed nr ⟨dpu, (st.send dpu).sbuffer j, (recv dpu).rbuffer j⟩ p)
    (prev : DramLevel) :
    let st' := (List.range n).foldl
      (fun st j => st.placeSkew (b.level nr prev) pgm enable dpu ((st.send dpu).sbuffer j)
        ((recv dpu).rbuffer j))
      { st with send := Function.update st.send dpu { st.send dpu with nTasks := 0 } }
    let hist' := (skewTasks (st.send dpu) dpu n).reverse ++ hist
    b.SkewInv enabled idx hist' st' ∧
      (st'.send dpu).slots (st'.send dpu).nTasks = b.turnedAwayFrom enabled idx hist' dpu ∧
      (st'.send dpu).nTasks ≤ n ∧
      (∀ j, n ≤ j → (st'.send dpu).sbuffer j = (st.send dpu).sbuffer j) ∧
      ∀ d, d ≠ dpu → st'.send d = st.send d ∧
        b.turnedAwayFrom enabled idx hist' d = b.turnedAwayFrom enabled idx hist d := by
  induction n with
  | zero =>
    simp only [List.range_zero, List.foldl_nil, skewTasks, SendBuffer.slots, List.map_nil,
      List.reverse_nil, List.nil_append, Function.update_self]
    refine ⟨⟨h.buffered, h.ext, h.stored, h.count⟩, hnone.symm, le_rfl, fun _ _ => trivial,
      fun d hd => ⟨Function.update_of_ne hd _ _, trivial⟩⟩
  | succ n ih =>
    obtain ⟨hinv, hslots, hle, hrest, hother⟩ := ih fun j hj => hr j (Nat.lt_succ_of_lt hj)
    have hhist : (skewTasks (st.send dpu) dpu (n + 1)).reverse ++ hist =
        (dpu, (st.send dpu).sbuffer n) :: ((skewTasks (st.send dpu) dpu n).reverse ++ hist) := by
      simp [skewTasks, slots_succ]
    rw [List.range_succ, List.foldl_concat, hhist]
    generalize (List.range n).foldl _ _ = st₁ at *
    generalize (skewTasks (st.send dpu) dpu n).reverse ++ hist = hist₁ at *
    intro st' hist'
    -- the send buffer was overwritten in fewer slots than were read
    have hkey : (st₁.send dpu).sbuffer n = (st.send dpu).sbuffer n := hrest n le_rfl
    simp only [st', hkey]
    obtain ⟨hinv', hsend⟩ :=
      hinv.place hpgm (hr n n.lt_succ_self) henable prev
    refine ⟨hinv', ?_⟩
    rw [hsend, turnedAwayFrom_cons_self]
    have hframe : ∀ d, d ≠ dpu → b.turnedAwayFrom enabled idx hist' d =
        b.turnedAwayFrom enabled idx hist d :=
      fun d hd => (turnedAwayFrom_cons_of_ne hd).trans (hother d hd).2
    by_cases hpush : (st.send dpu).sbuffer n < b.insertBound ∧
        b.FindsFull idx hist₁ ((st.send dpu).sbuffer n) ∧ enabled dpu = true
    · rw [if_pos hpush, if_pos hpush, Function.update_self, slots_push, hslots]
      refine ⟨rfl, Nat.succ_le_succ hle, fun j hj => ?_, fun d hd => ⟨?_, hframe d hd⟩⟩
      · simp only [SendBuffer.push]
        rw [Function.update_of_ne (by omega), hrest j (by omega)]
      · rw [Function.update_of_ne hd]
        exact (hother d hd).1
    · rw [if_neg hpush, if_neg hpush, List.append_nil]
      exact ⟨hslots, by omega, fun j hj => hrest j (by omega),
        fun d hd => ⟨(hother d hd).1, hframe d hd⟩⟩

/-- The requests that `insert_payload_skew` processes, in its order. -/
def skewWork (send : ℕ → SendBuffer) (order : List ℕ) : List (ℕ × DTYPE) :=
  order.flatMap fun dpu => skewTasks (send dpu) dpu ((send dpu).nTasks - 1)

/-- `insert_payload_skew` leaves in every send buffer the keys it turned away. -/
theorem SkewInv.insertPayloadSkew (h : b.Buffered st.idx) (hpgm : b.Brackets pgm)
    (hnodup : order.Nodup) (htasks : ∀ dpu, (recv dpu).nTasks = (st.send dpu).nTasks)
    (hr : ∀ dpu ∈ order, ∃ p, enabled dpu = enable p ∧ ∀ j < (st.send dpu).nTasks,
      b.Handed nr ⟨dpu, (st.send dpu).sbuffer j, (recv dpu).rbuffer j⟩ p) (prev : DramLevel) :
    let st' := st.insertPayloadSkew (b.level nr prev) pgm enable recv order
    let hist := (skewWork st.send order).reverse
    b.SkewInv enabled st.idx hist st' ∧
      (∀ dpu ∈ order, (st'.send dpu).slots (st'.send dpu).nTasks =
        b.turnedAwayFrom enabled st.idx hist dpu) ∧
      ∀ dpu, dpu ∉ order → st'.send dpu = st.send dpu ∧
        b.turnedAwayFrom enabled st.idx hist dpu = [] := by
  induction order using List.reverseRecOn with
  | nil =>
    exact ⟨.start h enabled, by simp,
      fun dpu _ => ⟨rfl, by simp [skewWork, turnedAwayFrom, turnedAway, selectBy]⟩⟩
  | append_singleton order last ih =>
    have hnot : last ∉ order := by
      have hdisj := List.disjoint_of_nodup_append hnodup
      exact fun hmem => hdisj hmem (List.mem_singleton_self last)
    obtain ⟨hinv, hdone, htodo⟩ := ih (List.Nodup.of_append_left hnodup)
      fun dpu hmem => hr dpu (List.mem_append_left _ hmem)
    obtain ⟨hsend, hnone⟩ := htodo last hnot
    obtain ⟨p, henable, hlast⟩ := hr last (by simp)
    have hlast' : ∀ j < (recv last).nTasks - 1, b.Handed nr
        ⟨last, ((st.insertPayloadSkew (b.level nr prev) pgm enable recv order).send last).sbuffer j,
          (recv last).rbuffer j⟩ p := by
      rw [htasks, hsend]
      exact fun j hj => hlast j (by omega)
    -- the loop over the last DPU goes on from what the others left
    have hloop := hinv.dpuLoop hpgm henable hnone hlast' prev
    have hhist : (skewWork st.send (order ++ [last])).reverse =
        (skewTasks (st.send last) last ((st.send last).nTasks - 1)).reverse ++
          (skewWork st.send order).reverse := by
      simp [skewWork]
    have hstep : st.insertPayloadSkew (b.level nr prev) pgm enable recv (order ++ [last]) =
        (st.insertPayloadSkew (b.level nr prev) pgm enable recv order).insertPayloadSkewDpu
          (b.level nr prev) pgm enable recv last := List.foldl_concat _ _ _ _
    rw [hstep, SkewState.insertPayloadSkewDpu, hhist, ← htasks last, ← hsend]
    obtain ⟨hinv', hslots, -, -, hother⟩ := hloop
    refine ⟨hinv', fun dpu hmem => ?_, fun dpu hmem => ?_⟩
    · by_cases hd : dpu = last
      · rw [hd]
        exact hslots
      · -- the last DPU's loop leaves the buffers of the others
        have hmem' : dpu ∈ order := by simpa [hd] using hmem
        rw [(hother dpu hd).1, (hother dpu hd).2]
        exact hdone dpu hmem'
    · rw [List.mem_append, List.mem_singleton, not_or] at hmem
      rw [(hother dpu hmem.2).1, (hother dpu hmem.2).2]
      exact htodo dpu hmem.1

end Loop

section Past

/-- Insertions into one tree store their keys. -/
theorem treeInserts_spec {ks : List DTYPE} (h : b.Buffered st.idx)
    (hks : ∀ k ∈ ks, b.Owns p k ∧ k < b.insertBound ∧ 1 ≤ k) :
    let st' := ks.foldl (fun st key => st.treeInsert p key) st
    b.Buffered st'.idx ∧ b.Extends st.idx st'.idx ∧ st'.send = st.send ∧
      ∀ x, b.Stored st'.idx x ↔ b.Stored st.idx x ∨ x ∈ ks := by
  induction ks generalizing st with
  | nil => exact ⟨h, .refl b _, rfl, by simp⟩
  | cons k ks ih =>
    obtain ⟨hown, hk, hone⟩ := hks k List.mem_cons_self
    obtain ⟨hbuf, hext, hstored⟩ := h.treeInsert hown hk hone
    obtain ⟨hbuf', hext', hsend, hstored'⟩ :=
      @ih (st.treeInsert p k) hbuf fun k' hk' => hks k' (List.mem_cons_of_mem _ hk')
    refine ⟨hbuf', hext.trans hext', hsend, fun x => ?_⟩
    rw [List.foldl_cons, hstored' x, List.mem_cons, ← or_assoc]
    exact or_congr_left (hstored x)

/-- The second trip stores what is left in the buffers of count one. -/
theorem insertPayloadSkewPast_spec {overflow : ℕ → ℕ} {n : ℕ} (h : b.Buffered st.idx)
    (hsend : ∀ dpu < n, overflow dpu = 1 → ∀ k ∈ (st.send dpu).slots (st.send dpu).nTasks,
      ∃ p, Hosts nr dpu p ∧ b.Owns p k ∧ k < b.insertBound ∧ 1 ≤ k) (prev : DramLevel) :
    let st' := st.insertPayloadSkewPast (b.level nr prev) n overflow
    b.Buffered st'.idx ∧ b.Extends st.idx st'.idx ∧ st'.send = st.send ∧
      ∀ x, b.Stored st'.idx x ↔ b.Stored st.idx x ∨
        ∃ dpu < n, overflow dpu = 1 ∧ x ∈ (st.send dpu).slots (st.send dpu).nTasks := by
  induction n with
  | zero => exact ⟨h, .refl b _, rfl, by simp [SkewState.insertPayloadSkewPast]⟩
  | succ n ih =>
    obtain ⟨hbuf, hext, hkeep, hstored⟩ := ih fun dpu hd => hsend dpu (Nat.lt_succ_of_lt hd)
    rw [SkewState.insertPayloadSkewPast, List.range_succ, List.foldl_concat,
      ← SkewState.insertPayloadSkewPast]
    generalize st.insertPayloadSkewPast (b.level nr prev) n overflow = st₁ at *
    by_cases hone : overflow n ≠ 1
    · -- the branch that only looks the keys up
      rw [if_pos hone]
      refine ⟨hbuf, hext, hkeep, fun x => ?_⟩
      rw [hstored, Nat.exists_lt_succ_right]
      exact or_congr_right (or_iff_left fun hn => hone hn.1).symm
    · rw [if_neg hone]
      -- all keys of a DPU belong to its partition
      have hall := hsend n n.lt_succ_self (not_not.mp hone)
      have hpart : ∀ k ∈ (st₁.send n).slots (st₁.send n).nTasks,
          b.Owns ((b.level nr prev).dpuIdToPartition n) k ∧ k < b.insertBound ∧ 1 ≤ k := by
        rw [hkeep]
        intro k hk
        obtain ⟨p, hhost, hown, hrest⟩ := hall k hk
        rw [level_dpuIdToPartition hown.lt hhost]
        exact ⟨hown, hrest⟩
      obtain ⟨hbuf', hext', hkeep', hstored'⟩ := treeInserts_spec hbuf hpart
      refine ⟨hbuf', hext.trans hext', hkeep'.trans hkeep, fun x => ?_⟩
      rw [hstored', hstored, Nat.exists_lt_succ_right, hkeep, or_assoc,
        and_iff_right (not_not.mp hone)]

end Past

section Round

/-- Every key in a send buffer is one that a thread sends, in a DPU of its partition. -/
def Routed (b : BulkInput) (nr : ℕ → ℕ) (send : ℕ → SendBuffer) : Prop :=
  ∀ dpu, ∀ k ∈ (send dpu).slots (send dpu).nTasks, b.keys 0 < k ∧ ∃ p, b.Owns p k ∧ Hosts nr dpu p

theorem dispatch_spec (querys : List (ℕ × DTYPE)) (h : b.Buffered st.idx)
    (hnr : ∀ p < nrPartition, 1 ≤ nr p) (hsend : b.Routed nr st.send) (prev : DramLevel) :
    let st' := querys.foldl (SkewState.dispatch (b.level nr prev)) st
    st'.idx = st.idx ∧ b.Routed nr st'.send := by
  induction querys generalizing st with
  | nil => exact ⟨rfl, hsend⟩
  | cons query querys ih =>
    rw [List.foldl_cons, SkewState.dispatch, h.onBase.minKey]
    by_cases hmin : query.2 > b.keys 0
    · rw [if_pos hmin]
      obtain ⟨p, hown⟩ := b.exists_owns (k := query.2) hmin.le
      have hhost : Hosts nr ((b.level nr prev).searchUpperLevel query.2 query.1) p :=
        hown.hosts_searchUpperLevel (hnr p hown.lt) query.1
      refine @ih (st.pushSend ((b.level nr prev).searchUpperLevel query.2 query.1) query.2) h ?_
      intro dpu k hk
      simp only [SkewState.pushSend] at hk
      by_cases hd : dpu = (b.level nr prev).searchUpperLevel query.2 query.1
      · rw [hd, Function.update_self, slots_push] at hk
        -- a key that was there, or the key sent now
        rcases List.mem_append.mp hk with hk | hk
        · exact hd ▸ hsend _ k hk
        · rw [List.mem_singleton.mp hk, hd]
          exact ⟨hmin, p, hown, hhost⟩
      · rw [Function.update_of_ne hd] at hk
        exact hsend dpu k hk
    · -- the key is not sent
      rw [if_neg hmin]
      exact ih h hsend

theorem mem_selectBy {α : Type} {P : List α → α → Prop} [∀ hist a, Decidable (P hist a)] {y : α}
    {hist : List α} (h : y ∈ selectBy P hist) : y ∈ hist ∧ ∃ hist', P hist' y := by
  induction hist with
  | nil => exact absurd h List.not_mem_nil
  | cons a hist ih =>
    rcases mem_selectBy_cons.mp h with ⟨hP, rfl⟩ | h
    · exact ⟨List.mem_cons_self, hist, hP⟩
    · exact ⟨List.mem_cons_of_mem _ (ih h).1, (ih h).2⟩

theorem mem_turnedAwayFrom (h : k ∈ b.turnedAwayFrom enabled idx hist dpu) :
    (dpu, k) ∈ hist ∧ k < b.insertBound ∧ enabled dpu = true := by
  obtain ⟨y, hy, rfl⟩ := List.mem_map.mp h
  obtain ⟨haway, hd⟩ := List.mem_filter.mp (List.mem_reverse.mp hy)
  obtain rfl := of_decide_eq_true hd
  obtain ⟨hmem, _, hlt, -, henable⟩ := mem_selectBy haway
  exact ⟨hmem, hlt, henable⟩

theorem mem_slots_of_mem_skewWork {send : ℕ → SendBuffer} {order : List ℕ}
    (h : (dpu, k) ∈ skewWork send order) :
    dpu ∈ order ∧ k ∈ (send dpu).slots (send dpu).nTasks := by
  obtain ⟨d, hd, hmem⟩ := List.mem_flatMap.mp h
  obtain ⟨k', hk', heq⟩ := List.mem_map.mp hmem
  obtain ⟨rfl, rfl⟩ := Prod.mk.inj heq
  refine ⟨hd, ?_⟩
  obtain ⟨j, hj, rfl⟩ := List.mem_map.mp hk'
  rw [List.mem_range] at hj
  exact List.mem_map_of_mem (List.mem_range.mpr (by omega))

/-- The order is one of all DPUs, and the lengths on the DPUs are set exactly where the host
leaves a tree to them. -/
structure RoundOk (nr : ℕ → ℕ) (round : SkewRound) : Prop where
  order : round.order.Perm (List.range (firstDpu nr nrPartition))
  consistent : ∀ p < nrPartition, ∀ dpu, Hosts nr dpu p →
    (round.overflowLen dpu ≠ 0 ↔ round.enablePimOverflow p = true)

/-- The round's requests to the DPUs that are processed, latest first. -/
def roundHist (b : BulkInput) (nr : ℕ → ℕ) (prev : DramLevel) (st : SkewState)
    (round : SkewRound) : List (ℕ × DTYPE) :=
  (skewWork (round.querys.foldl (SkewState.dispatch (b.level nr prev)) st).send
    round.order).reverse

/-- The flag of a DPU's partition. -/
def roundEnabled (b : BulkInput) (nr : ℕ → ℕ) (prev : DramLevel) (round : SkewRound)
    (dpu : ℕ) : Bool :=
  round.enablePimOverflow ((b.level nr prev).dpuIdToPartition dpu)

/-- The key was stored before the round, a request for it is taken, or it is the only one
that its DPU's requests leave to the second trip. -/
def Survives (b : BulkInput) (nr : ℕ → ℕ) (prev : DramLevel) (st : SkewState)
    (round : SkewRound) (k : DTYPE) : Prop :=
  let enabled := b.roundEnabled nr prev round
  let hist := b.roundHist nr prev st round
  b.Stored st.idx k ∨ (∃ dpu, (dpu, k) ∈ b.taken enabled st.idx hist) ∨
    ∃ dpu, b.turnedAwayFrom enabled st.idx hist dpu = [k]

/-- The second trip stores the keys that are alone in their buffer. -/
theorem exists_overflow_iff {round : SkewRound} {n : ℕ} {send : ℕ → SendBuffer}
    (hslots : ∀ dpu < n, (send dpu).slots (send dpu).nTasks =
      b.turnedAwayFrom enabled idx hist dpu)
    (hbeyond : ∀ dpu, ¬ dpu < n → b.turnedAwayFrom enabled idx hist dpu = [])
    (hlen : ∀ dpu < n, enabled dpu = true → round.overflowLen dpu ≠ 0) :
    (∃ dpu < n, SkewState.overflowTasks (round.overflowLen dpu) (send dpu) = 1 ∧
        x ∈ (send dpu).slots (send dpu).nTasks) ↔
      ∃ dpu, b.turnedAwayFrom enabled idx hist dpu = [x] := by
  have hlength : ∀ dpu < n, (b.turnedAwayFrom enabled idx hist dpu).length =
      (send dpu).nTasks := by
    intro dpu hd
    rw [← hslots dpu hd, SendBuffer.slots, List.length_map, List.length_range]
  constructor
  · -- a count of one is the number of keys in the buffer
    rintro ⟨dpu, hd, hone, hx⟩
    rw [SkewState.overflowTasks] at hone
    have hcount : (send dpu).nTasks = 1 := by
      split_ifs at hone
      exact hone
    rw [hslots dpu hd] at hx
    obtain ⟨y, hy⟩ := List.length_eq_one_iff.mp ((hlength dpu hd).trans hcount)
    rw [hy, List.mem_singleton] at hx
    exact ⟨dpu, by rw [hy, hx]⟩
  · -- a key turned away comes from a DPU whose tree the host does not keep
    rintro ⟨dpu, hdpu⟩
    have hd : dpu < n := by
      by_contra hd
      exact absurd ((hbeyond dpu hd).symm.trans hdpu) (by simp)
    have hcount : (send dpu).nTasks = 1 := by rw [← hlength dpu hd, hdpu, List.length_singleton]
    have hx : x ∈ [x] := List.mem_singleton_self x
    have henable := (mem_turnedAwayFrom (k := x) (by rw [hdpu]; exact hx)).2.2
    refine ⟨dpu, hd, ?_, by rw [hslots dpu hd, hdpu]; exact hx⟩
    rw [SkewState.overflowTasks, if_pos (hlen dpu hd henable), hcount]

/-- The kernel answers a routed key rightly. -/
theorem Routed.handed {send : ℕ → SendBuffer} {j : ℕ} (h : b.Routed nr send)
    (hmram : b.Loaded mram) (hwin : b.Brackets window) (hp : p < nrPartition)
    (hhost : Hosts nr dpu p) (hj : j < (send dpu).nTasks) :
    b.Handed nr ⟨dpu, (send dpu).sbuffer j, b.kernelAnswer mram window
      (ReplicaCursor.loadedPartition nr dpu) ((send dpu).sbuffer j)⟩ p := by
  have hslot : (send dpu).sbuffer j ∈ (send dpu).slots (send dpu).nTasks :=
    List.mem_map_of_mem (List.mem_range.mpr hj)
  obtain ⟨hlow, q, hown, hq⟩ := h dpu _ hslot
  -- a DPU hosts one partition
  obtain rfl := hhost.unique hq
  refine ⟨hlow, hown, hhost, ?_⟩
  simp only [ReplicaCursor.loadedPartition_eq hp hhost]
  exact kernelAnswer_correct hmram hwin hown

theorem RoundOk.mem_order {round : SkewRound} (h : RoundOk nr round) :
    dpu ∈ round.order ↔ dpu < firstDpu nr nrPartition := by
  rw [h.order.mem_iff, List.mem_range]

theorem roundEnabled_of_hosts {round : SkewRound} (hp : p < nrPartition) (hhost : Hosts nr dpu p)
    (prev : DramLevel) : b.roundEnabled nr prev round dpu = round.enablePimOverflow p := by
  rw [roundEnabled, level_dpuIdToPartition hp hhost]

/-- All answers that a round hands to the host are right. -/
theorem Routed.handed_of_round {send : ℕ → SendBuffer} {round : SkewRound} (h : b.Routed nr send)
    (hmram : b.Loaded mram) (hwin : b.Brackets window) (hround : RoundOk nr round)
    (prev : DramLevel) (hd : dpu ∈ round.order) :
    ∃ p, b.roundEnabled nr prev round dpu = round.enablePimOverflow p ∧
      ∀ j < (send dpu).nTasks, b.Handed nr ⟨dpu, (send dpu).sbuffer j, b.kernelAnswer mram window
        (ReplicaCursor.loadedPartition nr dpu) ((send dpu).sbuffer j)⟩ p := by
  obtain ⟨p, hp, hhost⟩ := exists_hosts (hround.mem_order.mp hd)
  exact ⟨p, roundEnabled_of_hosts hp hhost prev, fun _ hj => h.handed hmram hwin hp hhost hj⟩

/-- What a DPU's requests leave to the second trip was sent to it. -/
theorem mem_turnedAwayFrom_skewWork {send : ℕ → SendBuffer} {order : List ℕ}
    (h : k ∈ b.turnedAwayFrom enabled idx (skewWork send order).reverse dpu) :
    dpu ∈ order ∧ k < b.insertBound ∧ k ∈ (send dpu).slots (send dpu).nTasks := by
  obtain ⟨hin, hlt, -⟩ := mem_turnedAwayFrom h
  obtain ⟨hd, hslot⟩ := mem_slots_of_mem_skewWork (List.mem_reverse.mp hin)
  exact ⟨hd, hlt, hslot⟩

/-- A round stores exactly the keys that survive it. -/
theorem skewRound_spec {round : SkewRound} (h : b.Buffered st.idx)
    (hsend : b.Routed nr st.send) (hnr : ∀ p < nrPartition, 1 ≤ nr p) (hmram : b.Loaded mram)
    (hwin : b.Brackets window) (hpgm : b.Brackets pgm) (hround : RoundOk nr round)
    (prev : DramLevel) :
    let st' := b.skewRound nr prev mram window pgm st round
    b.Buffered st'.idx ∧ b.Extends st.idx st'.idx ∧ b.Routed nr st'.send ∧
      ∀ x, b.Stored st'.idx x ↔ b.Survives nr prev st round x := by
  obtain ⟨hidx, hrouted⟩ := dispatch_spec round.querys h hnr hsend prev
  rw [skewRound]
  simp only [Survives, roundHist]
  generalize round.querys.foldl (SkewState.dispatch (b.level nr prev)) st = st₁ at *
  rw [← hidx] at h ⊢
  generalize hrecv : (fun dpu => (⟨(st₁.send dpu).nTasks, fun j =>
    b.kernelAnswer mram window (ReplicaCursor.loadedPartition nr dpu) ((st₁.send dpu).sbuffer j)⟩ :
      RecvBuffer)) = recv
  have hhanded : ∀ dpu ∈ round.order, ∃ p,
      b.roundEnabled nr prev round dpu = round.enablePimOverflow p ∧
        ∀ j < (st₁.send dpu).nTasks,
          b.Handed nr ⟨dpu, (st₁.send dpu).sbuffer j, (recv dpu).rbuffer j⟩ p := by
    intro dpu hd
    rw [← hrecv]
    exact hrouted.handed_of_round hmram hwin hround prev hd
  obtain ⟨hinv, hslots, hbeyond⟩ := SkewInv.insertPayloadSkew h hpgm
    (hround.order.nodup_iff.mpr List.nodup_range) (by simp [← hrecv]) hhanded prev
  generalize st₁.insertPayloadSkew _ _ _ _ _ = st₂ at hinv hslots hbeyond ⊢
  have hback : ∀ dpu, ∀ k ∈ b.turnedAwayFrom (b.roundEnabled nr prev round) st₁.idx
      (skewWork st₁.send round.order).reverse dpu,
      dpu < firstDpu nr nrPartition ∧ k < b.insertBound ∧
        k ∈ (st₁.send dpu).slots (st₁.send dpu).nTasks := by
    intro dpu k hk
    obtain ⟨hd, hlt, hslot⟩ := mem_turnedAwayFrom_skewWork hk
    exact ⟨hround.mem_order.mp hd, hlt, hslot⟩
  generalize (skewWork st₁.send round.order).reverse = hist at hinv hslots hbeyond hback ⊢
  have hrouted₂ : b.Routed nr st₂.send := by
    intro dpu k hk
    by_cases hd : dpu ∈ round.order
    · rw [hslots dpu hd] at hk
      exact hrouted dpu k (hback dpu k hk).2.2
    · rw [(hbeyond dpu hd).1] at hk
      exact hrouted dpu k hk
  by_cases hzero : ∀ dpu < firstDpu nr nrPartition, (st₂.send dpu).nTasks = 0
  · rw [if_pos hzero]
    refine ⟨hinv.buffered, hinv.ext, hrouted₂, fun x => (hinv.stored x).trans ?_⟩
    -- with every buffer empty nothing was turned away
    refine or_congr_right (or_iff_left ?_).symm
    rintro ⟨dpu, hx⟩
    have hd := (hback dpu x (by rw [hx]; exact List.mem_singleton_self x)).1
    have hnil := hslots dpu (hround.mem_order.mpr hd)
    rw [hzero dpu hd, hx] at hnil
    exact absurd hnil (by simp [SendBuffer.slots])
  · rw [if_neg hzero]
    have hleft : ∀ dpu < firstDpu nr nrPartition,
        SkewState.overflowTasks (round.overflowLen dpu) (st₂.send dpu) = 1 →
        ∀ k ∈ (st₂.send dpu).slots (st₂.send dpu).nTasks,
          ∃ p, Hosts nr dpu p ∧ b.Owns p k ∧ k < b.insertBound ∧ 1 ≤ k := by
      intro dpu hd _ k hk
      rw [hslots dpu (hround.mem_order.mpr hd)] at hk
      obtain ⟨-, hlt, hslot⟩ := hback dpu k hk
      obtain ⟨hlow, p, hown, hhost⟩ := hrouted dpu k hslot
      exact ⟨p, hhost, hown, hlt, Nat.one_le_iff_ne_zero.mpr (Nat.ne_zero_of_lt hlow)⟩
    obtain ⟨hbuf, hext, hkeep, hstored⟩ := insertPayloadSkewPast_spec hinv.buffered hleft prev
    refine ⟨hbuf, hinv.ext.trans hext, by rw [hkeep]; exact hrouted₂, fun x => ?_⟩
    rw [hstored x, hinv.stored x, or_assoc]
    refine or_congr_right (or_congr_right (exists_overflow_iff
      (fun dpu hd => hslots dpu (hround.mem_order.mpr hd))
      (fun dpu hd => (hbeyond dpu (mt hround.mem_order.mp hd)).2) fun dpu hd henable => ?_))
    obtain ⟨p, hp, hhost⟩ := exists_hosts hd
    rw [roundEnabled_of_hosts hp hhost] at henable
    exact (hround.consistent p hp dpu hhost).mpr henable

/-- The thread's state after some rounds. -/
theorem skewRounds_spec {rounds : List SkewRound} (h : b.Buffered st.idx)
    (hsend : b.Routed nr st.send) (hnr : ∀ p < nrPartition, 1 ≤ nr p) (hmram : b.Loaded mram)
    (hwin : b.Brackets window) (hpgm : b.Brackets pgm)
    (hrounds : ∀ round ∈ rounds, RoundOk nr round) (prev : DramLevel) :
    let st' := Transition.run (b.skewRound nr prev mram window pgm) st rounds
    b.Buffered st'.idx ∧ b.Extends st.idx st'.idx ∧ b.Routed nr st'.send := by
  induction rounds generalizing st with
  | nil => exact ⟨h, .refl b _, hsend⟩
  | cons round rounds ih =>
    obtain ⟨hbuf, hext, hrouted, -⟩ := skewRound_spec h hsend hnr hmram hwin hpgm
      (hrounds round List.mem_cons_self) prev
    obtain ⟨hbuf', hext', hrouted'⟩ :=
      ih hbuf hrouted fun r hr => hrounds r (List.mem_cons_of_mem _ hr)
    rw [Transition.run_cons]
    exact ⟨hbuf', hext.trans hext', hrouted'⟩

end Round

/-- The key has an interval of partial keys. -/
def HasInterval (b : BulkInput) (k : DTYPE) : Prop :=
  ∃ i, i + 1 < b.partialTotalSize ∧ b.partialKeys i ≤ k ∧ k < b.partialKeys (i + 1)

/-- After each of a thread's rounds the keys it has sent, as far as they have an interval, are
stored exactly if in each round every such key survives it. -/
theorem skew_stored_iff (b : BulkInput) (nr : ℕ → ℕ) (prev : DramLevel) (mram : ℕ → ℤ → DTYPE)
    (window pgm : ℕ → DTYPE → ℕ × ℕ) (st : SkewState) (rounds : List SkewRound)
    (hbuf : b.Buffered st.idx) (hsend : b.Routed nr st.send)
    (hnr : ∀ p < nrPartition, 1 ≤ nr p) (hmram : b.Loaded mram) (hwin : b.Brackets window)
    (hpgm : b.Brackets pgm) (hrounds : ∀ round ∈ rounds, RoundOk nr round) :
    let after := Transition.run (b.skewRound nr prev mram window pgm) st
    (∀ pre post, rounds = pre ++ post → ∀ round ∈ pre, ∀ query ∈ round.querys,
      b.keys 0 < query.2 → b.HasInterval query.2 → b.Stored (after pre).idx query.2) ↔
      ∀ pre round post, rounds = pre ++ round :: post → ∀ query ∈ round.querys,
        b.keys 0 < query.2 → b.HasInterval query.2 →
          b.Survives nr prev (after pre) round query.2 := by
  intro after
  have hround : ∀ pre round post, rounds = pre ++ round :: post →
      ∀ x, b.Stored (after (pre ++ [round])).idx x ↔ b.Survives nr prev (after pre) round x := by
    rintro pre round post rfl x
    obtain ⟨hbuf', -, hsend'⟩ := skewRounds_spec hbuf hsend hnr hmram hwin hpgm
      (fun r hr => hrounds r (List.mem_append_left _ hr)) prev
    have hstep := (skewRound_spec hbuf' hsend' hnr hmram hwin hpgm
      (hrounds round (by simp)) prev).2.2.2 x
    simp only [after, Transition.run_concat]
    exact hstep
  constructor
  · intro hall pre round post heq query hquery hmin hint
    rw [← hround pre round post heq]
    exact hall (pre ++ [round]) post (by simp [heq]) round (by simp) query hquery hmin hint
  · intro hall pre post heq round hmem query hquery hmin hint
    obtain ⟨a, c, rfl⟩ := List.append_of_mem hmem
    have hstored := (hround a round (c ++ post) (by simp [heq]) query.2).mpr
      (hall a round (c ++ post) (by simp [heq]) query hquery hmin hint)
    -- what the round stored, the later ones keep
    have hsplit : after (a ++ round :: c) =
        Transition.run (b.skewRound nr prev mram window pgm) (after (a ++ [round])) c := by
      simp only [after]
      rw [← Transition.run_append, List.append_assoc]
      rfl
    have hfirst : ∀ r ∈ a ++ [round], RoundOk nr r := by
      intro r hr
      apply hrounds r
      rw [heq]
      simp only [List.mem_append, List.mem_cons, List.not_mem_nil, or_false] at hr ⊢
      tauto
    have hrest : ∀ r ∈ c, RoundOk nr r := fun r hr => hrounds r (by rw [heq]; simp [hr])
    obtain ⟨hbuf', -, hsend'⟩ := skewRounds_spec hbuf hsend hnr hmram hwin hpgm hfirst prev
    rw [hsplit]
    exact hstored.mono (skewRounds_spec hbuf' hsend' hnr hmram hwin hpgm hrest prev).2.1

/-- A DPU with a single task has none processed. -/
theorem skewWork_eq_nil {send : ℕ → SendBuffer} {order : List ℕ}
    (h : ∀ dpu ∈ order, (send dpu).nTasks ≤ 1) : skewWork send order = [] := by
  apply List.flatMap_eq_nil_iff.mpr
  intro dpu hd
  rw [Nat.sub_eq_zero_of_le (h dpu hd)]
  rfl

/-- After bulk load nothing is stored but the samples in the trees. -/
theorem not_stored_bulkLoad (hone : k ≠ 1)
    (hsample : ∀ i < b.partialTotalSize, b.partialKeys i ≠ k) : ¬ b.Stored b.bulkLoad k := by
  rintro (⟨i, -, -, -, hkey⟩ | ⟨q, -, hkey⟩)
  · exact absurd hkey List.not_mem_nil
  · obtain ⟨v, hv⟩ := OptNode.hasKey_iff.mp hkey
    rcases List.mem_cons.mp ((b.tree_spec q).2.2 _ hv) with h1 | hmem
    · exact hone (congrArg Prod.fst h1)
    · obtain ⟨j, -, hj⟩ := List.mem_map.mp hmem
      have hpos := b.covered_pos.trans_le b.covered_le
      exact hsample _ (by omega) (congrArg Prod.fst hj)

/-- A thread of 1024 keys before its first round. -/
def kibiThread : SkewState := ⟨kibi.bulkLoad, fun _ => ⟨0, fun _ => 0⟩⟩

theorem routed_kibiThread : kibi.Routed (fun _ => 1) kibiThread.send :=
  fun _ _ hk => absurd hk List.not_mem_nil

/-- No tree is on the DPUs. -/
theorem roundOk_unflagged (querys : List (ℕ × DTYPE)) :
    RoundOk (fun _ => 1) ⟨querys, List.range 128, fun _ => false, fun _ => 0⟩ where
  order := by
    have htotal : firstDpu (fun _ => 1) nrPartition = 128 := by simp [firstDpu]
    rw [htotal]
  consistent := by simp

/-- Two DPUs get three requests each, the last of them for the same key as the first. -/
def twiceRound : SkewRound :=
  ⟨[(0, 3), (1, 12), (2, 5), (3, 14), (4, 3), (5, 12)], List.range 128, fun _ => false, fun _ => 0⟩

theorem taken_twiceRound : ∀ query ∈ twiceRound.querys, ∃ dpu ∈ [0, 1],
    (dpu, query.2) ∈ kibi.taken (kibi.roundEnabled (fun _ => 1) .init twiceRound) kibiThread.idx
      (kibi.roundHist (fun _ => 1) .init kibiThread twiceRound) := by decide +kernel

/-- What each DPU's last task asks for is stored already, so all keys are. -/
theorem skew_stored_twice :
    let after := Transition.run (kibi.skewRound (fun _ => 1) .init kibi.mram kibi.wholeSlice
      kibi.wholeSlice) kibiThread
    ∀ pre post, [twiceRound] = pre ++ post → ∀ round ∈ pre, ∀ query ∈ round.querys,
      kibi.keys 0 < query.2 → kibi.HasInterval query.2 →
        kibi.Stored (after pre).idx query.2 := by
  refine (skew_stored_iff kibi (fun _ => 1) .init kibi.mram kibi.wholeSlice kibi.wholeSlice
    kibiThread [twiceRound] (buffered_bulkLoad kibi) routed_kibiThread (fun _ _ => le_rfl)
    kibi.loaded_mram kibi.brackets_wholeSlice kibi.brackets_wholeSlice
    (List.forall_mem_singleton.mpr (roundOk_unflagged _))).mpr ?_
  intro pre round post heq query hquery _ _
  cases pre with
  | nil =>
    obtain rfl := (List.cons.inj heq).1
    obtain ⟨dpu, -, htaken⟩ := taken_twiceRound query hquery
    exact Or.inr (Or.inl ⟨dpu, htaken⟩)
  | cons first pre => exact absurd (List.cons.inj heq).2.symm (by simp)

/-- A round with the single key 5. -/
def loneRound : SkewRound := ⟨[(0, 5)], List.range 128, fun _ => false, fun _ => 0⟩

/-- The only task of a DPU is its last one, and key 5 is stored nowhere. -/
theorem skew_loses_five :
    RoundOk (fun _ => 1) loneRound ∧ kibi.Routed (fun _ => 1) kibiThread.send ∧
      kibi.keys 0 < 5 ∧ kibi.HasInterval 5 ∧
      ¬ kibi.Stored (kibi.skewRound (fun _ => 1) .init kibi.mram kibi.wholeSlice kibi.wholeSlice
        kibiThread loneRound).idx 5 := by
  have hround : RoundOk (fun _ => 1) loneRound := roundOk_unflagged _
  refine ⟨hround, routed_kibiThread, by decide, ⟨0, by decide, by decide, by decide⟩,
    fun hstored => ?_⟩
  have hbuf : kibi.Buffered kibiThread.idx := buffered_bulkLoad kibi
  have hspec := (skewRound_spec hbuf routed_kibiThread (fun _ _ => le_rfl) kibi.loaded_mram
    kibi.brackets_wholeSlice kibi.brackets_wholeSlice hround .init).2.2.2 5
  have hhist : kibi.roundHist (fun _ => 1) .init kibiThread loneRound = [] := by
    rw [roundHist, List.reverse_eq_nil_iff]
    apply skewWork_eq_nil
    intro dpu _
    rw [loneRound, List.foldl_cons, List.foldl_nil, SkewState.dispatch, if_pos (by decide)]
    simp only [SkewState.pushSend]
    by_cases hd : dpu = (kibi.level (fun _ => 1) .init).searchUpperLevel 5 0
    · rw [hd, Function.update_self]
      exact le_rfl
    · rw [Function.update_of_ne hd]
      exact Nat.zero_le 1
  rcases hspec.mp hstored with hbefore | ⟨dpu, htaken⟩ | ⟨dpu, haway⟩
  · refine not_stored_bulkLoad (by decide) ?_ hbefore
    intro i _ hi
    have heq : 1 * (interleave * i + 1) = 5 := hi
    simp only [interleave] at heq
    omega
  · rw [hhist] at htaken
    exact absurd htaken List.not_mem_nil
  · rw [hhist] at haway
    exact absurd haway (by simp [turnedAwayFrom, turnedAway, selectBy])

end PimLex.BulkInput
