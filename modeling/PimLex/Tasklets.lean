import PimLex.Kernel
import PimLex.Transition.Fair
import PimLex.Transition.Threads

/-!
# The tasklets of a DPU

Each tasklet searches a run of the send buffer. Answers leave in pairs, so a run
starts at an even index and has an even length, and where that had to be rounded
the runs of neighbours overlap. What a tasklet writes at an index depends on the
query there and on nothing else, so an overlap does no harm.
-/

namespace PimLex

open Transition Finset

/-- Queries that a tasklet fetches at once. -/
abbrev fetchQuery : ℕ := 32

/-- What the tasklets of a DPU read and never write: the send buffer with whatever lies past
its tasks, and the data the search uses. -/
structure KernelInput where
  nTasks : ℕ
  sbuffer : ℕ → DTYPE
  mram : ℤ → DTYPE
  inputSize : ℕ
  startPos : ℕ
  /-- The window the models predict for a query. -/
  window : DTYPE → ℕ × ℕ

/-- What the search answers for a query. -/
def KernelInput.answer (inp : KernelInput) (searchingFor : DTYPE) : ℕ :=
  kernelSearch inp.mram inp.inputSize inp.startPos (inp.window searchingFor) searchingFor

/-- Where a tasklet is in the kernel. -/
inductive TaskletPc where
  | split
  /-- `mram_read` of the next block of queries, if the last one is used up. -/
  | fetch
  | search
  /-- `mram_write` of a pair, if one is complete, and the end of the loop's body. -/
  | write
  | done
  deriving DecidableEq, Repr

/-- A tasklet's own variables. -/
structure Tasklet where
  pc : TaskletPc
  totalOps : ℕ
  targets : ℕ
  currentMramQuery : ℕ
  currentQueryInBlock : ℕ
  searchingBlock : ℕ → DTYPE
  tempPos : ℕ × ℕ
  currentTempOpPos : ℕ

/-- One write of eight bytes to the receive buffer. -/
structure PairWrite where
  pos : ℕ
  fst : ℕ
  snd : ℕ
  deriving DecidableEq, Repr

/-- The receive buffer, with the pair writes it has received. -/
structure ReceiveBuffer where
  nTasks : ℕ
  rbuffer : ℕ → ℕ
  written : List PairWrite

/-- `mram_write` of two answers at `pos`. -/
def ReceiveBuffer.writePair (sh : ReceiveBuffer) (pos : ℕ) (temp : ℕ × ℕ) : ReceiveBuffer :=
  { sh with
    rbuffer := Function.update (Function.update sh.rbuffer pos temp.1) (pos + 1) temp.2
    written := ⟨pos, temp.1, temp.2⟩ :: sh.written }

/-- The first query and the number of queries of a tasklet. -/
def taskletSplit (numTask nrTasklets taskletId : ℕ) : ℕ × ℕ :=
  let currentMramQuery := taskletId * (numTask / nrTasklets)
  let totalOps := numTask / nrTasklets
  let (currentMramQuery, totalOps) :=
    if currentMramQuery % 2 ≠ 0 then (currentMramQuery - 1, totalOps + 1)
    else (currentMramQuery, totalOps)
  let totalOps :=
    if taskletId = nrTasklets - 1 then numTask - currentMramQuery else totalOps
  (currentMramQuery, if totalOps % 2 ≠ 0 then totalOps + 1 else totalOps)

section Step

variable {nrTasklets : ℕ}

/-- The next step of tasklet `t` in the `op_type == 1` branch of `main_kernel1`. -/
def taskletAct (inp : KernelInput) (t : Fin nrTasklets) (sh : ReceiveBuffer) (th : Tasklet) :
    ReceiveBuffer × Tasklet :=
  match th.pc with
  | .split =>
    let (start, totalOps) := taskletSplit inp.nTasks nrTasklets t
    ({ sh with nTasks := inp.nTasks },
      { th with
        currentMramQuery := start
        totalOps := totalOps
        targets := 0
        currentQueryInBlock := 0
        currentTempOpPos := 0
        pc := if 0 < totalOps then .fetch else .done })
  | .fetch =>
    (sh, { th with
      searchingBlock :=
        if th.currentQueryInBlock = 0 then fun i => inp.sbuffer (th.currentMramQuery + i)
        else th.searchingBlock
      pc := .search })
  | .search =>
    let pos := inp.answer (th.searchingBlock th.currentQueryInBlock)
    (sh, { th with
      tempPos := if th.currentTempOpPos = 0 then (pos, th.tempPos.2) else (th.tempPos.1, pos)
      currentMramQuery := th.currentMramQuery + 1
      currentTempOpPos := th.currentTempOpPos + 1
      pc := .write })
  | .write =>
    let full := th.currentTempOpPos = 2
    let inBlock := th.currentQueryInBlock + 1
    (if full then sh.writePair (th.currentMramQuery - 2) th.tempPos else sh,
      { th with
        currentTempOpPos := if full then 0 else th.currentTempOpPos
        currentQueryInBlock := if inBlock = fetchQuery then 0 else inBlock
        targets := th.targets + 1
        pc := if th.targets + 1 < th.totalOps then .fetch else .done })
  | .done => (sh, th)

/-- The tasklets of a DPU with their receive buffer. -/
abbrev TaskletSystem (nrTasklets : ℕ) := System (Fin nrTasklets) ReceiveBuffer Tasklet

/-- One step of the kernel, by the tasklet whose turn it is. -/
def taskletStep (inp : KernelInput) (s : TaskletSystem nrTasklets) (t : Fin nrTasklets) :
    TaskletSystem nrTasklets :=
  s.step (taskletAct inp) t

/-- The tasklets behind the first barrier, over whatever the receive buffer holds. -/
def taskletStart (nTasks : ℕ) (rbuffer : ℕ → ℕ) (thread : Fin nrTasklets → Tasklet) :
    TaskletSystem nrTasklets where
  shared := ⟨nTasks, rbuffer, []⟩
  threads t := { thread t with pc := .split }

end Step

section Split

variable {numTask nrTasklets t : ℕ}

/-- A run starts at an even index, has an even length, and ends in the buffer. -/
structure SplitOk (numTask nrTasklets t start totalOps : ℕ) : Prop where
  start_even : start % 2 = 0
  ops_even : totalOps % 2 = 0
  low : start ≤ t * (numTask / nrTasklets)
  high : (t + 1) * (numTask / nrTasklets) ≤ start + totalOps
  last : t + 1 = nrTasklets → numTask ≤ start + totalOps
  bound : start + totalOps ≤ numTask + numTask % 2

theorem taskletSplit_fst : (taskletSplit numTask nrTasklets t).1 =
    t * (numTask / nrTasklets) - t * (numTask / nrTasklets) % 2 := by
  by_cases hodd : t * (numTask / nrTasklets) % 2 ≠ 0
  · simp only [taskletSplit, if_pos hodd]
    omega
  · simp only [taskletSplit, if_neg hodd]
    omega

/-- The length before it is rounded up. -/
theorem taskletSplit_snd (numTask nrTasklets t : ℕ) :
    ∃ ops, (taskletSplit numTask nrTasklets t).2 = ops + ops % 2 ∧
      ops = if t = nrTasklets - 1 then numTask - (taskletSplit numTask nrTasklets t).1
        else numTask / nrTasklets + t * (numTask / nrTasklets) % 2 := by
  refine ⟨_, ?_, rfl⟩
  rw [taskletSplit_fst]
  have hround : ∀ n : ℕ, (if n % 2 ≠ 0 then n + 1 else n) = n + n % 2 := by
    intro n
    split_ifs <;> omega
  -- an odd start is moved back by one, and its run is that much longer
  by_cases hodd : t * (numTask / nrTasklets) % 2 ≠ 0
  · have hone : t * (numTask / nrTasklets) % 2 = 1 := by omega
    simp only [taskletSplit, if_pos hodd, hround]
    rw [hone]
  · have hzero : t * (numTask / nrTasklets) % 2 = 0 := by omega
    simp only [taskletSplit, if_neg hodd, hround]
    rw [hzero, Nat.sub_zero, Nat.add_zero]

theorem taskletSplit_ok (numTask : ℕ) (ht : t < nrTasklets) :
    SplitOk numTask nrTasklets t (taskletSplit numTask nrTasklets t).1
      (taskletSplit numTask nrTasklets t).2 := by
  have hall : (t + 1) * (numTask / nrTasklets) ≤ numTask :=
    (Nat.mul_le_mul_right _ ht).trans (Nat.mul_div_le _ _)
  have hsucc : (t + 1) * (numTask / nrTasklets) =
      t * (numTask / nrTasklets) + numTask / nrTasklets := Nat.succ_mul _ _
  -- a start is odd only if the quotient is
  have hparity : t * (numTask / nrTasklets) % 2 ≠ 0 → numTask / nrTasklets % 2 ≠ 0 := by
    intro hodd heven
    rw [Nat.mul_mod, heven, Nat.mul_zero] at hodd
    exact hodd rfl
  obtain ⟨ops, hops, hlen⟩ := taskletSplit_snd numTask nrTasklets t
  rw [hops]
  rw [taskletSplit_fst] at hlen ⊢
  have hq := Nat.zero_le (numTask / nrTasklets)
  split_ifs at hlen with hlast
  all_goals constructor <;> omega

end Split

section Invariant

variable {inp : KernelInput} {nrTasklets : ℕ} {t : Fin nrTasklets} {sh : ReceiveBuffer}
  {th : Tasklet} {s : TaskletSystem nrTasklets} {w : PairWrite} {j : ℕ}

/-- Some pair write went to index `j`. -/
def ReceiveBuffer.Wrote (sh : ReceiveBuffer) (j : ℕ) : Prop :=
  ∃ w ∈ sh.written, w.pos = j ∨ w.pos + 1 = j

/-- Every pair holds the answers to the two queries at its indices, starts at an even index
and ends in the buffer. -/
structure ReceiveOk (inp : KernelInput) (sh : ReceiveBuffer) : Prop where
  pair : ∀ w ∈ sh.written, w.pos % 2 = 0 ∧ w.pos + 1 < inp.nTasks + inp.nTasks % 2 ∧
    w.fst = inp.answer (inp.sbuffer w.pos) ∧ w.snd = inp.answer (inp.sbuffer (w.pos + 1))
  answered : ∀ j, sh.Wrote j → sh.rbuffer j = inp.answer (inp.sbuffer j)

/-- Where a tasklet stands inside its run. -/
structure TaskletOk (inp : KernelInput) (t : Fin nrTasklets) (sh : ReceiveBuffer)
    (th : Tasklet) (start : ℕ) : Prop where
  totalOps : th.totalOps = (taskletSplit inp.nTasks nrTasklets t).2
  targets : th.targets ≤ th.totalOps
  running : th.pc ≠ .done → th.targets < th.totalOps
  finished : th.pc = .done → th.targets = th.totalOps
  query : th.currentMramQuery = start + th.targets + (if th.pc = .write then 1 else 0)
  inBlock : th.currentQueryInBlock = th.targets % fetchQuery
  inPair : th.currentTempOpPos = th.targets % 2 + (if th.pc = .write then 1 else 0)
  /-- Once fetched, the block holds the queries around the current one. -/
  block : th.pc = .search ∨ th.pc = .write ∨ 0 < th.currentQueryInBlock → ∀ i < fetchQuery,
    th.searchingBlock i = inp.sbuffer (start + th.targets - th.currentQueryInBlock + i)
  first : 0 < th.currentTempOpPos →
    th.tempPos.1 = inp.answer (inp.sbuffer (start + (th.targets - th.targets % 2)))
  second : th.currentTempOpPos = 2 →
    th.tempPos.2 = inp.answer (inp.sbuffer (start + th.targets))
  /-- The pairs before the current one have been written. -/
  wrote : ∀ j, start ≤ j → j < start + (th.targets - th.targets % 2) → sh.Wrote j

/-- The invariant of the kernel. -/
structure TaskletsInv (inp : KernelInput) (s : TaskletSystem nrTasklets) : Prop where
  receive : ReceiveOk inp s.shared
  threads : ∀ t, (s.threads t).pc = .split ∨
    TaskletOk inp t s.shared (s.threads t) (taskletSplit inp.nTasks nrTasklets t).1

theorem wrote_writePair {temp : ℕ × ℕ} {pos : ℕ} :
    (sh.writePair pos temp).Wrote j ↔ sh.Wrote j ∨ pos = j ∨ pos + 1 = j := by
  simp only [ReceiveBuffer.Wrote, ReceiveBuffer.writePair, List.mem_cons, exists_eq_or_imp]
  exact or_comm

/-- A pair of right answers keeps the buffer right. -/
theorem ReceiveOk.writePair (h : ReceiveOk inp sh) {temp : ℕ × ℕ} {pos : ℕ}
    (heven : pos % 2 = 0) (hbound : pos + 1 < inp.nTasks + inp.nTasks % 2)
    (hfst : temp.1 = inp.answer (inp.sbuffer pos))
    (hsnd : temp.2 = inp.answer (inp.sbuffer (pos + 1))) :
    ReceiveOk inp (sh.writePair pos temp) := by
  constructor
  case pair =>
    intro w hw
    rcases List.mem_cons.mp hw with rfl | hw
    · exact ⟨heven, hbound, hfst, hsnd⟩
    · exact h.pair w hw
  case answered =>
    intro j hj
    -- the two entries of the pair, and all others
    rcases eq_or_ne j (pos + 1) with rfl | hsecond
    · exact (Function.update_self _ _ _).trans hsnd
    · rcases eq_or_ne j pos with rfl | hfirst
      · exact (Function.update_of_ne hsecond _ _).trans ((Function.update_self _ _ _).trans hfst)
      · have hold := (wrote_writePair.mp hj).resolve_right (by omega)
        exact (Function.update_of_ne hsecond _ _).trans
          ((Function.update_of_ne hfirst _ _).trans (h.answered j hold))

/-- What another tasklet writes takes nothing away. -/
theorem TaskletOk.mono {sh' : ReceiveBuffer} {start : ℕ} (h : TaskletOk inp t sh th start)
    (hgrow : ∀ j, sh.Wrote j → sh'.Wrote j) : TaskletOk inp t sh' th start :=
  { h with wrote := fun j hlow hhigh => hgrow j (h.wrote j hlow hhigh) }

theorem tasklet_split (hpc : th.pc = .split) :
    TaskletOk inp t (taskletAct inp t sh th).1 (taskletAct inp t sh th).2
      (taskletSplit inp.nTasks nrTasklets t).1 := by
  simp only [taskletAct, hpc]
  generalize hops : (taskletSplit inp.nTasks nrTasklets t).2 = ops
  -- a run without tasks is done at once
  rcases Nat.eq_zero_or_pos ops with rfl | hpos
  · constructor <;> simp [hops]
    omega
  · constructor <;> simp [hops, hpos]
    omega

theorem TaskletOk.fetch {start : ℕ} (h : TaskletOk inp t sh th start) (hpc : th.pc = .fetch) :
    TaskletOk inp t (taskletAct inp t sh th).1 (taskletAct inp t sh th).2 start := by
  have hquery := h.query
  have hinPair := h.inPair
  simp only [hpc, reduceCtorEq, if_false, Nat.add_zero] at hquery hinPair
  simp only [taskletAct, hpc]
  refine ⟨h.totalOps, h.targets, fun _ => h.running (by simp [hpc]), nofun, by simpa using hquery,
    h.inBlock, by simpa using hinPair, ?block, h.first, h.second, h.wrote⟩
  case block =>
    intro _ i hi
    -- a block is fetched when the one before is used up
    by_cases hzero : th.currentQueryInBlock = 0
    · simp only [hquery, hzero, if_true, Nat.sub_zero]
    · simp only [if_neg hzero]
      exact h.block (Or.inr (Or.inr (Nat.pos_of_ne_zero hzero))) i hi

/-- The query searched is the one at the tasklet's index. -/
theorem TaskletOk.current {start : ℕ} (h : TaskletOk inp t sh th start) (hpc : th.pc = .search) :
    th.searchingBlock th.currentQueryInBlock = inp.sbuffer (start + th.targets) := by
  have hin := h.inBlock
  have hlt : th.currentQueryInBlock < fetchQuery := by
    rw [hin]
    exact Nat.mod_lt _ (by decide)
  have hle := Nat.mod_le th.targets fetchQuery
  rw [h.block (Or.inl hpc) _ hlt]
  congr 1
  omega

theorem TaskletOk.search {start : ℕ} (h : TaskletOk inp t sh th start) (hpc : th.pc = .search) :
    TaskletOk inp t (taskletAct inp t sh th).1 (taskletAct inp t sh th).2 start := by
  have hquery := h.query
  have hinPair := h.inPair
  have hcurrent := h.current hpc
  simp only [hpc, reduceCtorEq, if_false, Nat.add_zero] at hquery hinPair
  simp only [taskletAct, hpc, hcurrent]
  refine ⟨h.totalOps, h.targets, fun _ => h.running (by simp [hpc]), nofun, by simp [hquery],
    h.inBlock, by simp [hinPair], fun _ => h.block (Or.inl hpc), ?first, ?second, h.wrote⟩
  case first =>
    intro _
    -- the first answer of a pair goes to its first half
    by_cases hzero : th.currentTempOpPos = 0
    · simp only [if_pos hzero]
      congr 2
      omega
    · simp only [if_neg hzero]
      exact h.first (Nat.pos_of_ne_zero hzero)
  case second =>
    intro htwo
    simp only at htwo
    simp only [if_neg (show th.currentTempOpPos ≠ 0 by omega)]

/-- The last step of the loop's body, which writes on every second pass. -/
theorem TaskletOk.write {start : ℕ} (h : TaskletOk inp t sh th start) (hpc : th.pc = .write) :
    TaskletOk inp t (taskletAct inp t sh th).1 (taskletAct inp t sh th).2 start := by
  have hquery := h.query
  have hinPair := h.inPair
  have hinBlock := h.inBlock
  have hrun := h.running (by simp [hpc])
  simp only [hpc, if_true] at hquery hinPair
  simp only [fetchQuery] at hinBlock
  have hpc' : ∀ n, (if n < th.totalOps then TaskletPc.fetch else .done) ≠ .write := by
    intro n
    split_ifs <;> nofun
  simp only [taskletAct, hpc]
  constructor
  case totalOps => exact h.totalOps
  case targets => exact hrun
  case running =>
    intro hne
    by_contra hlt
    simp [hlt] at hne
  case finished =>
    intro hdone
    by_contra hne
    have hlt : th.targets + 1 < th.totalOps := lt_of_le_of_ne hrun hne
    simp [hlt] at hdone
  case query =>
    simp only [if_neg (hpc' _), hquery]
    omega
  case inBlock =>
    simp only [fetchQuery]
    split_ifs <;> omega
  -- a pair is complete behind every second query
  case inPair =>
    simp only [if_neg (hpc' _)]
    split_ifs <;> omega
  case block =>
    -- the block stays until its last query is done
    intro hblock i hi
    have hpos : ¬ th.currentQueryInBlock + 1 = fetchQuery := by
      intro hfull
      rcases hblock with hsearch | hwrite | hlt
      · simp only at hsearch
        split_ifs at hsearch
      · exact hpc' _ hwrite
      · simp [hfull] at hlt
    simp only [if_neg hpos]
    rw [← Nat.add_assoc, Nat.add_sub_add_right]
    exact h.block (Or.inr (Or.inl hpc)) i hi
  case first =>
    -- after a pass that completes no pair the first half is in place
    intro hlt
    have hone : ¬ th.currentTempOpPos = 2 := by
      intro hfull
      simp [hfull] at hlt
    rw [show th.targets + 1 - (th.targets + 1) % 2 = th.targets - th.targets % 2 by omega]
    exact h.first (by omega)
  case second =>
    intro htwo
    by_cases hfull : th.currentTempOpPos = 2
    · simp [hfull] at htwo
    · simp [hfull] at htwo
  case wrote =>
    intro j hlow hhigh
    by_cases hfull : th.currentTempOpPos = 2
    · simp only [if_pos hfull]
      rw [wrote_writePair]
      simp only at hhigh
      -- the pairs before, or the one written now
      by_cases hold : j < start + (th.targets - th.targets % 2)
      · exact Or.inl (h.wrote j hlow hold)
      · right
        omega
    · simp only [if_neg hfull]
      simp only at hhigh
      exact h.wrote j hlow (by omega)

/-- Only a write of a pair touches the receive buffer's entries. -/
theorem taskletAct_receive (inp : KernelInput) (t : Fin nrTasklets) (sh : ReceiveBuffer)
    (th : Tasklet) :
    ((taskletAct inp t sh th).1.rbuffer = sh.rbuffer ∧
      (taskletAct inp t sh th).1.written = sh.written) ∨
    (th.pc = .write ∧ th.currentTempOpPos = 2 ∧
      (taskletAct inp t sh th).1 = sh.writePair (th.currentMramQuery - 2) th.tempPos) := by
  cases hpc : th.pc with
  | write =>
    by_cases hfull : th.currentTempOpPos = 2
    · exact Or.inr ⟨rfl, hfull, by simp only [taskletAct, hpc, if_pos hfull]⟩
    · exact Or.inl (by simp only [taskletAct, hpc, if_neg hfull, and_self])
  | _ => exact Or.inl (by simp only [taskletAct, hpc, and_self])

theorem wrote_taskletAct (h : sh.Wrote j) : (taskletAct inp t sh th).1.Wrote j := by
  rcases taskletAct_receive inp t sh th with ⟨-, hsame⟩ | ⟨-, -, hwrite⟩
  · simpa only [ReceiveBuffer.Wrote, hsame] using h
  · rw [hwrite, wrote_writePair]
    exact Or.inl h

/-- A complete pair is written at an even index inside the tasklet's run. -/
theorem TaskletsInv.act_receive (h : TaskletsInv inp s) :
    ReceiveOk inp (taskletAct inp t s.shared (s.threads t)).1 := by
  rcases taskletAct_receive inp t s.shared (s.threads t) with
    ⟨hrbuffer, hwritten⟩ | ⟨hpc, hfull, hwrite⟩
  · refine ⟨?_, fun j hj => ?_⟩
    · rw [hwritten]
      exact h.receive.pair
    · rw [hrbuffer]
      exact h.receive.answered j (by simpa only [ReceiveBuffer.Wrote, hwritten] using hj)
  · -- a full pair starts two queries back, at an even index of the run
    have ht := (h.threads t).resolve_left (by simp [hpc])
    have hsplit := taskletSplit_ok inp.nTasks t.isLt
    have heven := hsplit.start_even
    have hbound := hsplit.bound
    have hquery := ht.query
    have hinPair := ht.inPair
    have hrun := ht.running (by simp [hpc])
    have hops := ht.totalOps
    simp only [hpc, if_true] at hquery hinPair
    rw [hwrite]
    apply h.receive.writePair
    · omega
    · omega
    · rw [ht.first (by omega)]
      congr 2
      omega
    · rw [ht.second hfull]
      congr 2
      omega

/-- Every step keeps the invariant. -/
theorem TaskletsInv.step (h : TaskletsInv inp s) (t : Fin nrTasklets) :
    TaskletsInv inp (taskletStep inp s t) := by
  let standing (u : Fin nrTasklets) (th : Tasklet) := th.pc = .split ∨
    TaskletOk inp u (taskletAct inp t s.shared (s.threads t)).1 th
      (taskletSplit inp.nTasks nrTasklets u).1
  refine ⟨h.act_receive, (System.forall_step (P := standing)).mpr ⟨?_, fun u _ => ?_⟩⟩
  · -- the acting tasklet by the step it takes, the others by what they have written
    rcases h.threads t with hpc | ht
    · exact Or.inr (tasklet_split hpc)
    · cases hpc : (s.threads t).pc with
      | split => exact Or.inr (tasklet_split hpc)
      | fetch => exact Or.inr (ht.fetch hpc)
      | search => exact Or.inr (ht.search hpc)
      | write => exact Or.inr (ht.write hpc)
      | done =>
        right
        simpa only [taskletAct, hpc] using ht
  · exact (h.threads u).imp_right fun hu => hu.mono fun _ => wrote_taskletAct

theorem taskletsInv_start (inp : KernelInput) (nTasks : ℕ) (rbuffer : ℕ → ℕ)
    (thread : Fin nrTasklets → Tasklet) :
    TaskletsInv inp (taskletStart nTasks rbuffer thread) where
  receive := ⟨nofun, fun _ ⟨_, hw, _⟩ => absurd hw List.not_mem_nil⟩
  threads _ := Or.inl rfl

/-- When all tasklets are done every index below the number of tasks has been written. -/
theorem TaskletsInv.wrote_of_done (h : TaskletsInv inp s) (hpos : 1 ≤ nrTasklets)
    (hdone : ∀ t, (s.threads t).pc = .done) (hj : j < inp.nTasks) : s.shared.Wrote j := by
  have hcovers : ∀ t : Fin nrTasklets, ∀ i,
      (taskletSplit inp.nTasks nrTasklets t).1 ≤ i →
      i < (taskletSplit inp.nTasks nrTasklets t).1 +
        (taskletSplit inp.nTasks nrTasklets t).2 → s.shared.Wrote i := by
    intro t i hlow hhigh
    have ht := (h.threads t).resolve_left (by simp [hdone t])
    have heven := (taskletSplit_ok inp.nTasks t.isLt).ops_even
    rw [← ht.totalOps, ← ht.finished (hdone t)] at heven hhigh
    exact ht.wrote i hlow (by omega)
  -- the first `nrTasklets - 1` runs go on where the one before ends at the latest
  have hprefix : ∀ t ≤ nrTasklets, j < t * (inp.nTasks / nrTasklets) → s.shared.Wrote j := by
    intro t ht hlt
    induction t with
    | zero => simp at hlt
    | succ t ih =>
      by_cases hbefore : j < t * (inp.nTasks / nrTasklets)
      · exact ih (by omega) hbefore
      · have hsplit := taskletSplit_ok inp.nTasks ht
        exact hcovers ⟨t, ht⟩ j (hsplit.low.trans (Nat.not_lt.mp hbefore))
          (hlt.trans_le hsplit.high)
  -- the last run goes to the end, whatever the quotient leaves over
  by_cases hbefore : j < (nrTasklets - 1) * (inp.nTasks / nrTasklets)
  · exact hprefix _ (Nat.sub_le _ _) hbefore
  · have hlt : nrTasklets - 1 < nrTasklets := by omega
    have hsplit := taskletSplit_ok inp.nTasks hlt
    exact hcovers ⟨nrTasklets - 1, hlt⟩ j (hsplit.low.trans (Nat.not_lt.mp hbefore))
      (hj.trans_le (hsplit.last (by omega)))

end Invariant

section Progress

variable {inp : KernelInput} {nrTasklets : ℕ} {t : Fin nrTasklets} {s : TaskletSystem nrTasklets}

/-- The steps a tasklet still takes, at most. -/
def Tasklet.remaining (bound : ℕ) (th : Tasklet) : ℕ :=
  match th.pc with
  | .split => 3 * bound + 4
  | .fetch => 3 * (th.totalOps - th.targets)
  | .search => 3 * (th.totalOps - th.targets) - 1
  | .write => 3 * (th.totalOps - th.targets) - 2
  | .done => 0

/-- A tasklet that is not done comes closer to its end with every step. -/
theorem TaskletsInv.act_remaining (h : TaskletsInv inp s) (t : Fin nrTasklets) :
    taskletAct inp t s.shared (s.threads t) = (s.shared, s.threads t) ∨
      (taskletAct inp t s.shared (s.threads t)).2.remaining inp.nTasks <
        (s.threads t).remaining inp.nTasks := by
  have hthread := h.threads t
  generalize s.threads t = th at hthread ⊢
  have hrun : th.pc ≠ .split → th.pc ≠ .done → th.targets < th.totalOps := fun hsplit =>
    (hthread.resolve_left hsplit).running
  cases hpc : th.pc with
  | done => exact Or.inl (by simp only [taskletAct, hpc])
  | split =>
    right
    have hbound := (taskletSplit_ok inp.nTasks t.isLt).bound
    simp only [taskletAct, hpc, Tasklet.remaining]
    split_ifs <;> simp only <;> omega
  | fetch =>
    right
    have hlt := hrun (by simp [hpc]) (by simp [hpc])
    simp only [taskletAct, hpc, Tasklet.remaining]
    omega
  | search =>
    right
    have hlt := hrun (by simp [hpc]) (by simp [hpc])
    simp only [taskletAct, hpc, Tasklet.remaining]
    omega
  | write =>
    right
    have hlt := hrun (by simp [hpc]) (by simp [hpc])
    simp only [taskletAct, hpc, Tasklet.remaining]
    split_ifs <;> simp only <;> omega

/-- A tasklet that a turn does not change is done. -/
theorem done_of_act_eq {sh : ReceiveBuffer} {th : Tasklet}
    (h : (taskletAct inp t sh th).2 = th) : th.pc = .done := by
  have hpc' := congrArg Tasklet.pc h
  cases hpc : th.pc with
  | done => rfl
  | split =>
    simp only [taskletAct, hpc] at hpc'
    split_ifs at hpc'
  | write =>
    simp only [taskletAct, hpc] at hpc'
    split_ifs at hpc'
  | _ => simp [taskletAct, hpc] at hpc'

theorem taskletRun_done (start : TaskletSystem nrTasklets) (h : TaskletsInv inp start) :
    ∃ enough, ∀ rounds : List (List (Fin nrTasklets)), Rounds rounds → enough ≤ rounds.length →
      ∀ t, ((run (taskletStep inp) start rounds.flatten).threads t).pc = .done := by
  have keep : ∀ (s : TaskletSystem nrTasklets) t, TaskletsInv inp s →
      TaskletsInv inp (s.step (taskletAct inp) t) := fun s t h => h.step t
  have hlowers := System.lowers keep fun s t h => TaskletsInv.act_remaining h t
  refine ⟨∑ t, (start.threads t).remaining inp.nTasks + 1, fun rounds hrounds hlen t => ?_⟩
  exact done_of_act_eq ((hlowers.stuck h hrounds (Nat.lt_of_succ_le hlen)).act_eq t)

end Progress

/-- For any number of tasks and tasklets, whatever the buffers hold before and however the
tasklets' steps are ordered: when all are done every task has its answer, every pair is written
at an even index inside the buffer, and pairs written twice agree on the tasks. A schedule that
keeps giving every tasklet a turn ends with all of them done. -/
theorem tasklets_answer (inp : KernelInput) (nrTasklets nTasks : ℕ) (rbuffer : ℕ → ℕ)
    (thread : Fin nrTasklets → Tasklet) (hpos : 1 ≤ nrTasklets)
    (htasks : inp.nTasks ≤ maxBufferSize) :
    (∀ schedule, let s := run (taskletStep inp) (taskletStart nTasks rbuffer thread) schedule
      ((∀ t, (s.threads t).pc = .done) →
        ∀ j < inp.nTasks, s.shared.rbuffer j = inp.answer (inp.sbuffer j)) ∧
      (∀ w ∈ s.shared.written, w.pos % 2 = 0 ∧ w.pos + 1 ≤ maxBufferSize - 1) ∧
      ∀ w ∈ s.shared.written, ∀ w' ∈ s.shared.written, w.pos = w'.pos →
        (w.pos < inp.nTasks → w.fst = w'.fst) ∧ (w.pos + 1 < inp.nTasks → w.snd = w'.snd)) ∧
    ∃ enough, ∀ rounds : List (List (Fin nrTasklets)), Rounds rounds → enough ≤ rounds.length →
      ∀ t, ((run (taskletStep inp) (taskletStart nTasks rbuffer thread)
        rounds.flatten).threads t).pc = .done := by
  have hstart := taskletsInv_start inp nTasks rbuffer thread
  refine ⟨?_, taskletRun_done _ hstart⟩
  intro schedule s
  have hinv : TaskletsInv inp s := run_invariant hstart (fun s t h => h.step t) schedule
  refine ⟨fun hdone j hj => ?_, fun w hw => ?_, fun w hw w' hw' heq => ?_⟩
  · exact hinv.receive.answered j (hinv.wrote_of_done hpos hdone hj)
  · obtain ⟨heven, hbound, -⟩ := hinv.receive.pair w hw
    simp only [maxBufferSize] at htasks ⊢
    exact ⟨heven, by omega⟩
  · obtain ⟨-, -, hfst, hsnd⟩ := hinv.receive.pair w hw
    obtain ⟨-, -, hfst', hsnd'⟩ := hinv.receive.pair w' hw'
    rw [hfst, hfst', hsnd, hsnd', heq]
    exact ⟨fun _ => rfl, fun _ => rfl⟩

/-- Five tasks for two tasklets: the second one starts at 2 and writes one index past the
tasks. -/
theorem tasklets_answer_five :
    let inp : KernelInput := ⟨5, fun j => j, fun i => i.toNat, 8, 0, fun _ => (0, 8)⟩
    let thread : Fin 2 → Tasklet := fun _ => ⟨.split, 0, 0, 0, 0, fun _ => 0, (0, 0), 0⟩
    (∀ schedule, let s := run (taskletStep inp) (taskletStart 0 (fun _ => 0) thread) schedule
      ((∀ t, (s.threads t).pc = .done) →
        ∀ j < inp.nTasks, s.shared.rbuffer j = inp.answer (inp.sbuffer j)) ∧
      (∀ w ∈ s.shared.written, w.pos % 2 = 0 ∧ w.pos + 1 ≤ maxBufferSize - 1) ∧
      ∀ w ∈ s.shared.written, ∀ w' ∈ s.shared.written, w.pos = w'.pos →
        (w.pos < inp.nTasks → w.fst = w'.fst) ∧ (w.pos + 1 < inp.nTasks → w.snd = w'.snd)) ∧
    ∃ enough, ∀ rounds : List (List (Fin 2)), Rounds rounds → enough ≤ rounds.length →
      ∀ t, ((run (taskletStep inp) (taskletStart 0 (fun _ => 0) thread)
        rounds.flatten).threads t).pc = .done :=
  tasklets_answer ⟨5, fun j => j, fun i => i.toNat, 8, 0, fun _ => (0, 8)⟩ 2 0 (fun _ => 0)
    (fun _ => ⟨.split, 0, 0, 0, 0, fun _ => 0, (0, 0), 0⟩) (by decide) (by decide)

end PimLex
