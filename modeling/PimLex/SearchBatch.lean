import PimLex.Dispatch
import PimLex.PointRead
import PimLex.Tasklets
import PimLex.Transition.Trace

/-!
# A batch of searches

A thread sorts its requests into one buffer for each DPU and pushes all buffers with
the length of the longest. The tasklets of every DPU answer what its buffer holds,
and the thread pulls the answers, again with one length for all, and reads a payload
for every task. So whatever the DPUs hold from other batches, the thread reads for
each of its requests what a search of its own would read.
-/

namespace PimLex

open Search Transition

/-- The largest number of tasks that `max_buffer_size_search` finds. -/
def maxTasks (nrDpus : ℕ) (nTasks : ℕ → ℕ) : ℕ :=
  (List.range nrDpus).foldl (fun max i => if nTasks i > max then nTasks i else max) 0

/-- `max_buffer_size_search`: the bytes to push and to pull, with a header of eight bytes each. -/
def maxBufferSizeSearch (nrDpus : ℕ) (nTasks : ℕ → ℕ) : ℕ × ℕ :=
  let max := maxTasks nrDpus nTasks
  let sbufferSize := max * 8 + 2 * 4
  let rbufferSize := max * 4 + 2 * 4
  (sbufferSize, if rbufferSize % 8 ≠ 0 then rbufferSize + 4 else rbufferSize)

/-- `dpu_sbuffer.sbuffer` after a push of `size` bytes over what the DPU holds. -/
def pushed (size : ℕ) (host dpu : ℕ → DTYPE) (j : ℕ) : DTYPE :=
  if 2 * 4 + 8 * (j + 1) ≤ size then host j else dpu j

/-- `host_recv_buffer` after a pull of `size` bytes over what the host holds. -/
def pulled (size : ℕ) (dpu host : ℕ → ℕ) (j : ℕ) : ℕ :=
  if 2 * 4 + 4 * (j + 1) ≤ size then dpu j else host j

/-- How a DPU runs a batch: what its receive buffer and its tasklets hold from before, and the
order in which the tasklets take turns. -/
structure Launch (nrTasklets : ℕ) where
  nTasks : ℕ
  rbuffer : ℕ → ℕ
  thread : Fin nrTasklets → Tasklet
  schedule : List (Fin nrTasklets)

namespace Launch

variable {nrTasklets : ℕ}

/-- The tasklets and the receive buffer after the schedule. -/
def after (l : Launch nrTasklets) (inp : KernelInput) : TaskletSystem nrTasklets :=
  run (taskletStep inp) (taskletStart l.nTasks l.rbuffer l.thread) l.schedule

/-- All tasklets are done; `dpu_launch` waits for that. -/
def Complete (l : Launch nrTasklets) (inp : KernelInput) : Prop :=
  ∀ t, ((l.after inp).threads t).pc = .done

end Launch

namespace BulkInput

/-- What the tasklets of DPU `d` work on after the push of a thread's buffers, over what its send
buffer holds from before. -/
def kernelInput (b : BulkInput) (nr : ℕ → ℕ) (mram : ℕ → ℤ → DTYPE)
    (window : ℕ → DTYPE → ℕ × ℕ) (buf : ThreadBuffers) (nrDpus : ℕ) (held : ℕ → ℕ → DTYPE)
    (d : ℕ) : KernelInput where
  nTasks := buf.nTasks d
  sbuffer := pushed (maxBufferSizeSearch nrDpus buf.nTasks).1 (buf.sbuffer d) (held d)
  mram := mram (ReplicaCursor.loadedPartition nr d)
  inputSize := b.sliceSize
  startPos := b.sliceSize * ReplicaCursor.loadedPartition nr d
  window := window (ReplicaCursor.loadedPartition nr d)

/-- `host_recv_buffer` after a pull, over what it holds from before. -/
def recvBuffer (buf : ThreadBuffers) (nrDpus : ℕ) (dpu : ReceiveBuffer) (held : ℕ → ℕ) :
    ReceiveBuffer :=
  { dpu with rbuffer := pulled (maxBufferSizeSearch nrDpus buf.nTasks).2 dpu.rbuffer held }

/-- What a read-only `get_real_payload` reads for the key of a task. -/
def readTask (b : BulkInput) (lvl : DramLevel) (pgm : ℕ → DTYPE → ℕ × ℕ)
    (payloads : ℕ → StringPayload) (d : ℕ) (key : DTYPE) (answer : ℕ) : Option StringPayload :=
  { b.bulkLoad with payloads := payloads }.getRealPayload .standing lvl pgm true d key answer

/-- `get_real_payload` over the buffers of all DPUs: every task with its key and what is read. -/
def readBatch (b : BulkInput) (lvl : DramLevel) (pgm : ℕ → DTYPE → ℕ × ℕ)
    (payloads : ℕ → StringPayload) (buf : ThreadBuffers) (nrDpus : ℕ) (recv : ℕ → ReceiveBuffer) :
    List (DTYPE × Option StringPayload) :=
  (List.range nrDpus).flatMap fun d => (List.range (recv d).nTasks).map fun j =>
    (buf.sbuffer d j, b.readTask lvl pgm payloads d (buf.sbuffer d j) ((recv d).rbuffer j))

/-- A batch from its dispatched buffers on: push, launch, pull and read. -/
def searchBatch {nrTasklets : ℕ} (b : BulkInput) (nr : ℕ → ℕ) (prev : DramLevel)
    (mram : ℕ → ℤ → DTYPE) (window pgm : ℕ → DTYPE → ℕ × ℕ) (payloads : ℕ → StringPayload)
    (buf : ThreadBuffers) (nrDpus : ℕ) (sheld : ℕ → ℕ → DTYPE) (rheld : ℕ → ℕ → ℕ)
    (launch : ℕ → Launch nrTasklets) : List (DTYPE × Option StringPayload) :=
  b.readBatch (b.level nr prev) pgm payloads buf nrDpus fun d =>
    recvBuffer buf nrDpus
      ((launch d).after (b.kernelInput nr mram window buf nrDpus sheld d)).shared (rheld d)

end BulkInput

section Transfer

variable {nrDpus : ℕ} {nTasks : ℕ → ℕ} {d j : ℕ}

theorem le_maxTasks (hd : d < nrDpus) : nTasks d ≤ maxTasks nrDpus nTasks := by
  have hmono : ∀ (l : List ℕ) (m : ℕ),
      m ≤ l.foldl (fun max i => if nTasks i > max then nTasks i else max) m ∧
        ∀ i ∈ l, nTasks i ≤ l.foldl (fun max i => if nTasks i > max then nTasks i else max) m := by
    intro l
    induction l with
    | nil => exact fun m => ⟨le_rfl, fun i hi => absurd hi List.not_mem_nil⟩
    | cons i l ih =>
      intro m
      obtain ⟨hle, hall⟩ := ih (if nTasks i > m then nTasks i else m)
      rw [List.foldl_cons]
      refine ⟨le_trans ?_ hle, List.forall_mem_cons.mpr ⟨le_trans ?_ hle, hall⟩⟩ <;>
        split_ifs <;> omega
  exact (hmono _ 0).2 d (List.mem_range.mpr hd)

/-- A push covers the tasks of every DPU. -/
theorem pushed_eq (hd : d < nrDpus) (hj : j < nTasks d) (host dpu : ℕ → DTYPE) :
    pushed (maxBufferSizeSearch nrDpus nTasks).1 host dpu j = host j := by
  have hle : nTasks d ≤ maxTasks nrDpus nTasks := le_maxTasks hd
  exact if_pos (by simp only [maxBufferSizeSearch]; omega)

/-- A pull covers the answers of every DPU. -/
theorem pulled_eq (hd : d < nrDpus) (hj : j < nTasks d) (dpu host : ℕ → ℕ) :
    pulled (maxBufferSizeSearch nrDpus nTasks).2 dpu host j = dpu j := by
  have hle : nTasks d ≤ maxTasks nrDpus nTasks := le_maxTasks hd
  refine if_pos ?_
  simp only [maxBufferSizeSearch]
  split_ifs <;> omega

end Transfer

/-- The keys of the tasks in the buffer of a DPU. -/
def ThreadBuffers.tasks (buf : ThreadBuffers) (dpu : ℕ) : List DTYPE :=
  (List.range (buf.nTasks dpu)).map (buf.sbuffer dpu)

namespace Workload

variable {w : Workload} {inp : DispatchInput} {lvl : DramLevel} {nrDpus dpu req : ℕ}
  {buf buf' : ThreadBuffers} {reqs : List ℕ}

theorem tasks_writes (dpu d req : ℕ) :
    (w.writes inp buf dpu (buf.nTasks dpu) req).tasks d =
      if d = dpu then buf.tasks d ++ [inp.querys req] else buf.tasks d := by
  have hput : (w.writes inp buf dpu (buf.nTasks dpu) req).tasks d =
      (buf.put dpu (buf.nTasks dpu) (inp.querys req)).tasks d := by
    cases w <;> rfl
  rw [hput, ThreadBuffers.tasks, ThreadBuffers.put]
  rcases eq_or_ne d dpu with rfl | hne
  · simp only [Function.update_self, if_true]
    exact map_range_update _ _ _
  · simp only [Function.update_of_ne hne, if_neg hne]
    rfl

theorem dispatchReq_tasks (h : w.dispatchReq inp lvl nrDpus buf req = some buf') (d : ℕ) :
    buf'.tasks d =
      buf.tasks d ++ ([req].filter fun req => w.SentTo inp lvl d req).map inp.querys := by
  rw [dispatchReq] at h
  by_cases hsend : w.sends inp req = true
  · rw [if_pos hsend] at h
    cases hroute : lvl.routed (inp.querys req) req with
    | none => simp [hroute] at h
    | some dpu =>
      simp only [hroute] at h
      obtain ⟨-, hwrites⟩ := Option.ite_none_right_eq_some.mp h
      obtain rfl := Option.some.inj hwrites
      rw [tasks_writes]
      rcases eq_or_ne d dpu with rfl | hne
      · have hsent : w.SentTo inp lvl d req := ⟨hsend, hroute⟩
        simp [hsent]
      · have hsent : ¬ w.SentTo inp lvl d req := by
          rintro ⟨-, heq⟩
          rw [hroute] at heq
          exact hne (Option.some.inj heq).symm
        simp [hsent, hne]
  · rw [if_neg hsend] at h
    obtain rfl := Option.some.inj h
    have hsent : ¬ w.SentTo inp lvl d req := fun hs => hsend hs.1
    simp [hsent]

/-- The buffer of a DPU has the requests that are sent to it, in order. -/
theorem foldlM_tasks (h : reqs.foldlM (w.dispatchReq inp lvl nrDpus) buf = some buf') (d : ℕ) :
    buf'.tasks d =
      buf.tasks d ++ (reqs.filter fun req => w.SentTo inp lvl d req).map inp.querys := by
  induction reqs generalizing buf with
  | nil =>
    obtain rfl := Option.some.inj h
    simp
  | cons req reqs ih =>
    rw [List.foldlM_cons, Option.bind_eq_bind, Option.bind_eq_some_iff] at h
    obtain ⟨next, hnext, hrest⟩ := h
    rw [ih hrest, dispatchReq_tasks hnext, List.append_assoc, ← List.map_append,
      ← List.filter_append]
    rfl

theorem dispatch_tasks {startOps endOps : ℕ}
    (h : w.dispatch inp lvl nrDpus buf startOps endOps = some buf') (d : ℕ) :
    buf'.tasks d = ((List.Ico startOps endOps).filter fun req => w.SentTo inp lvl d req).map
      inp.querys := by
  rw [foldlM_tasks h]
  rfl

/-- Every request of a dispatched loop that sends all has its DPU. -/
theorem dispatch_routed {startOps endOps : ℕ} (hsends : ∀ req, w.sends inp req = true)
    (h : w.dispatch inp lvl nrDpus buf startOps endOps = some buf')
    (hreq : req ∈ List.Ico startOps endOps) :
    ∃ dpu < nrDpus, lvl.routed (inp.querys req) req = some dpu :=
  ((exists_foldlM_iff fun _ => Nat.zero_le _).mp ⟨buf', h⟩).1 req hreq (hsends req)

end Workload

namespace Launch

variable {inp : KernelInput} {nrTasklets : ℕ} {l : Launch nrTasklets}

/-- Turns for all tasklets in rounds complete a launch. -/
theorem exists_complete (inp : KernelInput) (nTasks : ℕ) (rbuffer : ℕ → ℕ)
    (thread : Fin nrTasklets → Tasklet) :
    ∃ schedule, (Launch.mk nTasks rbuffer thread schedule).Complete inp := by
  obtain ⟨enough, hrounds⟩ := taskletRun_done _ (taskletsInv_start inp nTasks rbuffer thread)
  refine ⟨(List.replicate enough (List.finRange nrTasklets)).flatten,
    hrounds _ (fun round hround t => ?_) List.length_replicate.ge⟩
  rw [List.eq_of_mem_replicate hround]
  exact List.mem_finRange t

theorem Complete.nTasks_eq (h : l.Complete inp) (hpos : 1 ≤ nrTasklets) :
    (l.after inp).shared.nTasks = inp.nTasks := by
  have hrun : (∀ t, ((l.after inp).threads t).pc = .split) ∨
      (l.after inp).shared.nTasks = inp.nTasks := by
    refine @run_invariant _ _ (taskletStep inp)
      (fun s => (∀ t, (s.threads t).pc = .split) ∨ s.shared.nTasks = inp.nTasks) _
      (Or.inl fun _ => rfl) (fun s t h => Or.inr ?_) l.schedule
    rw [taskletStep, System.step_eq_put, System.put_shared]
    -- the first step of any tasklet stores the number of tasks
    cases hpc : (s.threads t).pc with
    | split => simp only [taskletAct, hpc]
    | fetch | search | write | done =>
      have hset := h.resolve_left fun hall => by simp [hall t] at hpc
      simp only [taskletAct, hpc]
      try split_ifs
      all_goals exact hset
  refine hrun.resolve_left fun hall => ?_
  have hsplit := hall ⟨0, hpos⟩
  rw [h] at hsplit
  exact TaskletPc.noConfusion hsplit

theorem Complete.rbuffer_eq (h : l.Complete inp) (hpos : 1 ≤ nrTasklets) {j : ℕ}
    (hj : j < inp.nTasks) : (l.after inp).shared.rbuffer j = inp.answer (inp.sbuffer j) := by
  have hinv : TaskletsInv inp (l.after inp) :=
    run_invariant (taskletsInv_start inp l.nTasks l.rbuffer l.thread) (fun s t h => h.step t)
      l.schedule
  exact hinv.receive.answered j (hinv.wrote_of_done hpos h hj)

end Launch

namespace BulkInput

variable {b : BulkInput} {nr : ℕ → ℕ} {prev : DramLevel} {mram : ℕ → ℤ → DTYPE}
  {window pgm : ℕ → DTYPE → ℕ × ℕ} {payloads : ℕ → StringPayload} {inp : DispatchInput}
  {buf buf' : ThreadBuffers} {nrDpus startOps endOps nrTasklets d req : ℕ}

/-- What is read for a request on the DPU it was sent to is what a search of its own reads. -/
theorem readTask_of_routed (h : (b.level nr prev).routed (inp.querys req) req = some d) :
    b.readTask (b.level nr prev) pgm payloads d (inp.querys req)
        (b.kernelAnswer mram window (ReplicaCursor.loadedPartition nr d) (inp.querys req)) =
      b.pureSearch nr prev mram window pgm payloads req (inp.querys req) := by
  obtain ⟨-, hd⟩ := Option.ite_none_left_eq_some.mp h
  obtain rfl := Option.some.inj hd
  rfl

/-- The tasks of one DPU, read with its answers. -/
theorem readBatch_dpu {recv : ReceiveBuffer}
    (hdispatch : Workload.search.dispatch inp (b.level nr prev) nrDpus buf startOps endOps =
      some buf')
    (hcount : recv.nTasks = buf'.nTasks d)
    (hanswer : ∀ j < buf'.nTasks d, recv.rbuffer j =
      b.kernelAnswer mram window (ReplicaCursor.loadedPartition nr d) (buf'.sbuffer d j)) :
    ((List.range recv.nTasks).map fun j => (buf'.sbuffer d j,
        b.readTask (b.level nr prev) pgm payloads d (buf'.sbuffer d j) (recv.rbuffer j))) =
      ((List.Ico startOps endOps).filter fun req =>
        Workload.search.SentTo inp (b.level nr prev) d req).map fun req =>
          (inp.querys req, b.pureSearch nr prev mram window pgm payloads req (inp.querys req)) := by
  have htasks := Workload.dispatch_tasks hdispatch d
  have hread := congrArg (List.map fun key => (key, b.readTask (b.level nr prev) pgm payloads d key
    (b.kernelAnswer mram window (ReplicaCursor.loadedPartition nr d) key))) htasks
  rw [ThreadBuffers.tasks, List.map_map, List.map_map] at hread
  rw [hcount]
  refine Eq.trans (List.map_congr_left fun j hj => ?_) (hread.trans (List.map_congr_left ?_))
  · rw [hanswer j (List.mem_range.mp hj)]
    rfl
  · intro req hreq
    have hsent := of_decide_eq_true (List.mem_filter.mp hreq).2
    exact Prod.ext rfl (readTask_of_routed hsent.2)

/-- The requests of a loop, sorted by the DPUs they are sent to. -/
theorem perm_sentTo {w : Workload} {lvl : DramLevel} (hsends : ∀ req, w.sends inp req = true)
    (hdispatch : w.dispatch inp lvl nrDpus buf startOps endOps = some buf') :
    (List.Ico startOps endOps).Perm ((List.range nrDpus).flatMap fun d =>
      (List.Ico startOps endOps).filter fun req => w.SentTo inp lvl d req) := by
  let trace := (List.Ico startOps endOps).map fun req =>
    ((lvl.routed (inp.querys req) req).getD 0, req)
  have hall : ∀ x ∈ trace, x.1 ∈ List.range nrDpus := by
    intro x hx
    obtain ⟨req, hreq, rfl⟩ := List.mem_map.mp hx
    obtain ⟨d, hd, hroute⟩ := Workload.dispatch_routed hsends hdispatch hreq
    rw [List.mem_range, hroute]
    exact hd
  have hperm := perm_own List.nodup_range hall
  have hown : ∀ d ∈ List.range nrDpus, own d trace =
      (List.Ico startOps endOps).filter fun req => w.SentTo inp lvl d req := by
    intro d _
    rw [own, List.filter_map, List.map_map]
    refine (List.map_id _).trans (List.filter_congr fun req hreq => decide_eq_decide.mpr ?_)
    obtain ⟨d', -, hroute⟩ := Workload.dispatch_routed hsends hdispatch hreq
    simp only [Workload.SentTo, hsends, hroute, Option.getD_some, true_and, Option.some.injEq]
  have hsnd : trace.map Prod.snd = List.Ico startOps endOps := by
    rw [List.map_map]
    exact List.map_id _
  rwa [List.flatMap_congr hown, hsnd] at hperm

/-- A batch reads for each request what a search of its own would read: whatever the buffers of the
host and of the DPUs hold before, and however the tasklets take turns. -/
theorem searchBatch_perm (hpos : 1 ≤ nrTasklets)
    (hdispatch : Workload.search.dispatch inp (b.level nr prev) nrDpus buf startOps endOps =
      some buf')
    {sheld : ℕ → ℕ → DTYPE} {rheld : ℕ → ℕ → ℕ} {launch : ℕ → Launch nrTasklets}
    (hdone : ∀ d < nrDpus,
      (launch d).Complete (b.kernelInput nr mram window buf' nrDpus sheld d)) :
    (b.searchBatch nr prev mram window pgm payloads buf' nrDpus sheld rheld launch).Perm
      ((List.Ico startOps endOps).map fun req =>
        (inp.querys req, b.pureSearch nr prev mram window pgm payloads req (inp.querys req))) := by
  have hbatch : b.searchBatch nr prev mram window pgm payloads buf' nrDpus sheld rheld launch =
      (List.range nrDpus).flatMap fun d => ((List.Ico startOps endOps).filter fun req =>
        Workload.search.SentTo inp (b.level nr prev) d req).map fun req =>
          (inp.querys req, b.pureSearch nr prev mram window pgm payloads req (inp.querys req)) := by
    refine List.flatMap_congr fun d hd => ?_
    have hlt := List.mem_range.mp hd
    refine readBatch_dpu hdispatch ((hdone d hlt).nTasks_eq hpos) fun j hj => ?_
    refine (pulled_eq hlt hj _ _).trans (((hdone d hlt).rbuffer_eq hpos hj).trans ?_)
    have hkey : (b.kernelInput nr mram window buf' nrDpus sheld d).sbuffer j = buf'.sbuffer d j :=
      pushed_eq hlt hj _ _
    rw [hkey]
    rfl
  rw [hbatch, ← List.map_flatMap]
  exact ((perm_sentTo (fun _ => rfl) hdispatch).map _).symm

end BulkInput

end PimLex
