import GpuScheduler.Api.Rules
import GpuScheduler.Concurrent.OperationSpec
import GpuScheduler.Lib.Machine
import GpuScheduler.Scheduler.PassSpec

/-!
# The retry budget

A job is submitted with a number of retries.  `Requeue` counts them, and has two callers:
`reconcileDeadNodes` looks at the count before it takes a job off a lost node, and
`applyPreemption` does not.  A job becomes *failed* in two ways: `reconcileDeadNodes` gives a job up
when its retries are used, and an agent's report does so at any time.

`budgeted_of_reach` says that the budget is respected in every run in which no job is evicted
without a retry left and no job with a retry left is reported failed, however many passes, lost
nodes, failures of the store and reports it is made of.
-/

namespace GpuScheduler

open Lib Models Scheduler

/-! ## Runs of whole operations -/

/-- What the operations of a run are: submissions come with a positive default for the retries, and
reports are about active jobs. -/
def Ordinary (s : Store) : Operation → Prop
  | .submit _ _ _ defaultRetries => 0 < defaultRetries
  | .report req => ∃ j ∈ s.jobs.rows, j.jobID = req.jobID ∧ j.status.isActive = true
  | _ => True

instance (s : Store) : (op : Operation) → Decidable (Ordinary s op)
  | .submit _ _ _ defaultRetries => inferInstanceAs (Decidable (0 < defaultRetries))
  | .report req => inferInstanceAs (Decidable (∃ j ∈ s.jobs.rows, j.jobID = req.jobID ∧
      j.status.isActive = true))
  | .tick _ _ | .cancel _ | .register _ | .heartbeat _ | .assignments _ | .cordon _ | .drain _
  | .uncordon _ | .markStaleDown _ => .isTrue trivial

/-- The control plane carries out whole operations, one after the other, each with its own choices
of the environment. -/
def wholeOperations : Machine Store (Operation × (Nat → Env)) where
  Enabled s ev := Ordinary s ev.1
  next s ev := ev.1.run ev.2 s

instance (s : Store) (ev : Operation × (Nat → Env)) : Decidable (wholeOperations.Enabled s ev) :=
  inferInstanceAs (Decidable (Ordinary s ev.1))

/-- Only a job with a retry left is evicted. -/
def EvictsWithinBudget : Admits := fun _ c env s ↦ ∀ j ∈ s.jobs.rows,
  c = .jobsRequeue j.jobID .preempted → env.fails = false → j.retryCount < j.maxRetries

instance : ∀ m c env s, Decidable (EvictsWithinBudget m c env s) := fun _ c env s ↦
  inferInstanceAs (Decidable (∀ j ∈ s.jobs.rows, c = .jobsRequeue j.jobID .preempted →
    env.fails = false → j.retryCount < j.maxRetries))

/-- Only a job without a retry left is reported failed. -/
def FailsWithoutRetry (s : Store) : Operation → Prop
  | .report req => req.status = .failed →
      ∀ j ∈ s.jobs.rows, j.jobID = req.jobID → j.retryCount = j.maxRetries
  | _ => True

instance (s : Store) : (op : Operation) → Decidable (FailsWithoutRetry s op)
  | .report req => inferInstanceAs (Decidable (req.status = .failed →
      ∀ j ∈ s.jobs.rows, j.jobID = req.jobID → j.retryCount = j.maxRetries))
  | .tick _ _ | .cancel _ | .submit _ _ _ _ | .register _ | .heartbeat _ | .assignments _
  | .cordon _ | .drain _ | .uncordon _ | .markStaleDown _ => .isTrue trivial

/-- The operations that respect the budget. -/
def WithinBudget (s : Store) (ev : Operation × (Nat → Env)) : Prop :=
  ev.1.thread.Admits Store.exec EvictsWithinBudget ev.2 s ∧ FailsWithoutRetry s ev.1

instance (s : Store) (ev : Operation × (Nat → Env)) : Decidable (WithinBudget s ev) :=
  inferInstanceAs (Decidable (_ ∧ _))

/-! ## The invariant -/

/-- The budget of a job is respected. -/
def Models.Job.Budgeted (j : Job) : Prop :=
  j.retryCount ≤ j.maxRetries ∧ (j.status = .failed → j.retryCount = j.maxRetries)

/-- The budget of every job is respected. -/
def Store.Budgeted (s : Store) : Prop := ∀ j ∈ s.jobs.rows, j.Budgeted

namespace Store.Budgeted

variable {s t : Store} {m : Mem} {job : Job} {e : Engine}

/-- A statement on one job. -/
theorem modify (h : s.Budgeted) {id : String} {f : Job → Job}
    {hf : ∀ r : Job, (f r).jobID = r.jobID} (hjobs : t.jobs = s.jobs.modify id f hf)
    (hrow : ∀ r ∈ s.jobs.rows, r.jobID = id → (f r).Budgeted) : t.Budgeted := by
  intro j hj
  rw [hjobs] at hj
  rcases Table.mem_modify.mp hj with ⟨r, hr, hid, rfl⟩ | ⟨hj, -⟩
  · exact hrow r hr hid
  · exact h j hj

/-- A status other than *failed* is recorded. -/
theorem updateStatus (h : s.Budgeted) {id : String} {st : JobStatus} (hst : st ≠ .failed)
    (now : Time) : (s.updateStatus id st now).Budgeted :=
  h.modify (jobs_updateStatus st now) fun r hr _ ↦ ⟨(h r hr).1, fun hf ↦ absurd hf hst⟩

/-- A job without a retry left is declared failed. -/
theorem giveUp (h : s.Budgeted) {id : String}
    (hlast : ∀ j ∈ s.jobs.rows, j.jobID = id → j.retryCount = j.maxRetries) (now : Time) :
    (s.updateStatus id .failed now).Budgeted :=
  h.modify (jobs_updateStatus .failed now) fun r hr hid ↦ ⟨(h r hr).1, fun _ ↦ hlast r hr hid⟩

/-- A job with a retry left is requeued. -/
theorem requeue (h : s.Budgeted) {id : String} {st : JobStatus} (hst : st ≠ .failed)
    (hleft : ∀ j ∈ s.jobs.rows, j.jobID = id → j.retryCount < j.maxRetries) :
    (s.requeue id st).Budgeted := by
  refine h.modify (jobs_requeue st) fun r hr hid ↦ ⟨?_, fun hf ↦ absurd hf hst⟩
  have hlt := hleft r hr hid
  change r.retryCount + 1 ≤ r.maxRetries
  omega

/-! ## A pass -/

/-- Recovery looks at the count of a row that is still as listed. -/
theorem wp_recoverJob {admits : Admits} {dead : List String} {js : List Job}
    (h : s.Budgeted ∧ Listed (job :: js) s) :
    Wp admits (Engine.recoverJob dead job) (fun _ _ t ↦ t.Budgeted ∧ Listed js t) m s := by
  obtain ⟨hb, hl⟩ := h
  obtain ⟨hrow, -⟩ := hl.rows job List.mem_cons_self
  have hself : ∀ j ∈ s.jobs.rows, j.jobID = job.jobID → j = job := fun j hj hid ↦
    s.jobs.eq_of_key_eq hj hrow hid
  refine Scheduler.wp_recoverJob (fun _ ↦ ⟨hb, hl.tail⟩)
    (fun _ hused ↦ ⟨fun now ↦ ⟨hb.giveUp (fun j hj hid ↦ ?_) now, ?_⟩, fun _ ↦ ⟨hb, hl.tail⟩⟩)
    fun _ hleft ↦ ⟨⟨hb.requeue (by decide) fun j hj hid ↦ ?_, ?_⟩, fun _ ↦ ⟨hb, hl.tail⟩⟩
  · rw [hself j hj hid]
    exact le_antisymm (hb job hrow).1 hused
  · exact hl.modify (jobs_updateStatus .failed now)
  · rw [hself j hj hid]
    exact hleft
  · exact hl.modify (jobs_requeue .queued)

theorem wp_reconcileDeadNodes {admits : Admits} (h : s.Budgeted) :
    Wp admits e.reconcileDeadNodes (fun _ _ t ↦ t.Budgeted) m s := by
  refine Engine.wp_reconcileDeadNodes (fun _ ↦ h) (fun _ _ _ ↦ h) (fun _ _ ↦ h) fun env _ ↦ ?_
  refine (Act.wp_forM_alone (I := fun js _ t ↦ t.Budgeted ∧ Listed js t)
    ⟨h, .listByStatuses _⟩ fun job js m t ht ↦ wp_recoverJob ht).mono ?_
  exact fun _ _ _ _ ht ↦ ht.1

/-- The calls that place jobs, given that no eviction exceeds the budget. -/
theorem exec (h : s.Budgeted) {c : Call} (hc : OfScheduling c) {env : Env}
    (hadm : EvictsWithinBudget m c env s) : (Store.exec c env s).2.Budgeted := by
  cases hf : env.fails with
  | true =>
      rw [Store.exec_of_fails hf]
      exact h
  | false =>
      rw [Store.exec_of_ok hf]
      cases c with
      | jobsUpdateStatus id st =>
          obtain rfl : st = .queued := hc
          exact h.updateStatus (by decide) env.now
      | jobsRequeue id st =>
          obtain rfl : st = .preempted := hc
          exact h.requeue (by decide) fun j hj hid ↦ hadm j hj (by rw [hid]) hf
      | jobsSchedule id nodeID =>
          exact h.modify (jobs_schedule nodeID) fun r hr _ ↦ ⟨(h r hr).1, fun hst ↦ by cases hst⟩
      | nodesList | jobsListByStatuses _ | jobsTeamGPUUsage | nodesUpdateAvailability _ _ _ _
      | eventsRecord _ => exact h
      | _ => exact absurd hc id

theorem wp_tick (h : s.Budgeted) {clock : Clock} :
    Wp EvictsWithinBudget (e.tick clock) (fun _ _ t ↦ t.Budgeted) m s :=
  Act.wp_bind.mpr (h.wp_reconcileDeadNodes.mono fun _ _ _ _ h ↦
    Act.wp_alone_of_issues (e.issues_schedulePass clock)
      (fun _ _ _ _ hc hadm hs ↦ hs.exec hc hadm) h)

/-! ## Reports and requests -/

/-- Returning a job's request to its node changes no job. -/
theorem release (h : s.Budgeted) (job : Job) : (s.release job).Budgeted := by
  intro j hj
  rw [Store.jobs_release] at hj
  exact h j hj

theorem wp_updateJobStatus {admits : Admits} (h : s.Budgeted) {req : Grpc.JobStatusUpdate}
    (hlast : req.status = .failed →
      ∀ j ∈ s.jobs.rows, j.jobID = req.jobID → j.retryCount = j.maxRetries) :
    Wp admits (Grpc.updateJobStatus req) (fun _ _ t ↦ t.Budgeted) m s := by
  refine Grpc.wp_updateJobStatus (fun _ _ ↦ h) (fun _ _ _ now _ ↦ h.updateStatus (by decide) now)
    fun job _ hend s' _ hs' ↦ ?_
  have hjobs : s'.jobs = s.jobs := by
    rcases hs' with rfl | ⟨-, rfl⟩
    · exact Store.jobs_release
    · rfl
  have hs : s'.Budgeted := fun j hj ↦ h j (hjobs ▸ hj)
  refine ⟨fun now _ ↦ ?_, fun _ _ ↦ hs⟩
  rcases hend with hst | hst <;> rw [hst]
  · exact hs.updateStatus (by decide) now
  · exact hs.giveUp (fun j hj ↦ hlast hst j (hjobs ▸ hj)) now

theorem wp_handleCancelJob {admits : Admits} (h : s.Budgeted) {id : String} :
    Wp admits (Api.handleCancelJob id) (fun _ _ t ↦ t.Budgeted) m s := by
  refine Api.wp_handleCancelJob (fun _ _ ↦ h) fun job _ _ s' _ hs' ↦ ?_
  have hs : s'.Budgeted := by
    rcases hs' with rfl | ⟨-, rfl⟩
    · split
      · exact h.release job
      · exact h
    · exact h
  exact ⟨fun now ↦ hs.updateStatus (by decide) now, fun _ _ ↦ hs⟩

/-- The other operations change no row, and a new job has its whole budget. -/
theorem wp_thread_of_issues {admits : Admits} (h : s.Budgeted) {op : Operation}
    (hord : Ordinary s op) (hop : op.thread.Issues fun m c ↦ m = default ∧ op.MayIssue c) :
    op.thread.wp (.alone Store.exec admits) (fun _ t ↦ t.Budgeted) s := by
  refine Prog.wp_alone_of_issues hop (fun m c env t hc _ ht ↦ ?_) h
  refine Store.forall_jobs_exec ht (fun j hj ↦ ?_) fun j hcreate ↦ ?_
  · rw [hc.2.onJob_eq]
    exact ht j hj
  · obtain ⟨req, newID, now, retries, rfl, rfl⟩ := (hcreate ▸ hc.2).eq_submit
    have hpos : 0 < retries := hord
    refine ⟨?_, fun hst ↦ by cases hst⟩
    change 0 ≤ if req.maxRetries ≤ 0 then retries else req.maxRetries
    split <;> omega

/-- One operation. -/
theorem run {op : Operation} {ω : Nat → Env} (h : s.Budgeted) (hord : Ordinary s op)
    (hbudget : WithinBudget s (op, ω)) : (op.run ω s).Budgeted := by
  have hr : op.Runs EvictsWithinBudget s (op.run ω s) := Operation.runs_run hbudget.1
  rcases op.issues with hop | ⟨e, clock, rfl⟩ | ⟨req, rfl⟩ | ⟨id, rfl⟩
  · exact hr.final (h.wp_thread_of_issues hord hop)
  · exact hr.final (wp_thread_alone h.wp_tick)
  · exact hr.final (wp_thread_alone (h.wp_updateJobStatus hbudget.2))
  · exact hr.final (wp_thread_alone h.wp_handleCancelJob)

end Store.Budgeted

/-- **The retry budget.**  In every run of ordinary operations that evict no job without a retry
left and report no job failed that has one, in every state reached: no job was requeued more often
than its budget allows, and a job that is failed has used its budget up. -/
theorem budgeted_of_reach {s : Store} (h : wholeOperations.Reach WithinBudget Store.empty s) :
    ∀ j ∈ s.jobs.rows, j.retryCount ≤ j.maxRetries ∧
      (j.status = .failed → j.retryCount = j.maxRetries) :=
  h.induct (I := Store.Budgeted) (fun _ hj ↦ absurd hj List.not_mem_nil)
    fun _ _ hs hord hbudget ↦ hs.run hord hbudget

namespace Small

/-- A submission for two GPUs, with one retry. -/
def submitted (id : String) (priority : Int) : Operation × (Nat → Env) :=
  (.submit { userID := "user", priority := priority, gpuCount := 2, cpuCount := 0, memoryGB := 0 }
    id 1 1, calm)

/-- A pass that may preempt. -/
def pass (now : Time) : Operation × (Nat → Env) :=
  (.tick (engine .priority true) ⟨now, now⟩, steady now)

/-- A node with the given GPUs, and a job placed on it. -/
def placed (gpus : Int) : List (Operation × (Nat → Env)) :=
  [(.register ⟨"n", "n", ⟨gpus, 0, 0⟩⟩, calm), submitted "v" 1, pass 2]

/-- The node is lost, is heard of again and gets the job back, and is lost again. -/
def lostTwice : List (Operation × (Nat → Env)) :=
  placed 4 ++ [pass 200, (.heartbeat "n", steady 300), pass 301, pass 500]

end Small

/-- The job is given up after its one retry. -/
theorem budgeted_of_reach_lostTwice :
    wholeOperations.Reach WithinBudget Store.empty
        (wholeOperations.play Store.empty Small.lostTwice) ∧
      ∃ j ∈ (wholeOperations.play Store.empty Small.lostTwice).jobs.rows,
        j.status = .failed ∧ j.maxRetries = 1 ∧ j.retryCount = 1 := by
  have hreach : wholeOperations.Reach WithinBudget Store.empty
      (wholeOperations.play Store.empty Small.lostTwice) :=
    Machine.reach_play (by decide +kernel)
  have hlast : ∃ j ∈ (wholeOperations.play Store.empty Small.lostTwice).jobs.rows,
      j.status = .failed ∧ j.maxRetries = 1 := by decide +kernel
  obtain ⟨j, hj, hst, hmax⟩ := hlast
  exact ⟨hreach, j, hj, hst, hmax, ((budgeted_of_reach hreach j hj).2 hst).trans hmax⟩

/-- **The budget is exceeded, and is not used.**  In one pass the job `v` is evicted for `a` and
again for `b`, and its one retry has become two.  Without that pass, the first failure that the
agent reports ends `v`, with its retry left. -/
theorem budget_exceeded_and_unused :
    (∃ s, wholeOperations.Reach (fun _ _ ↦ True) Store.empty s ∧
      ∃ j ∈ s.jobs.rows, j.maxRetries < j.retryCount) ∧
    ∃ s, wholeOperations.Reach (fun _ _ ↦ True) Store.empty s ∧
      ∃ j ∈ s.jobs.rows, j.status = .failed ∧ j.retryCount < j.maxRetries :=
  ⟨⟨wholeOperations.play Store.empty
        (Small.placed 2 ++ [Small.submitted "a" 8, Small.submitted "b" 8, Small.pass 3]),
      Machine.reach_play (by decide +kernel), by decide +kernel⟩,
    ⟨wholeOperations.play Store.empty
        (Small.placed 2 ++ [(.report ⟨"v", "n", .failed⟩, calm)]),
      Machine.reach_play (by decide +kernel), by decide +kernel⟩⟩

end GpuScheduler
