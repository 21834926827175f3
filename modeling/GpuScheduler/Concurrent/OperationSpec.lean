import GpuScheduler.Concurrent.Operations

/-!
# Operations under a specification of their calls

A report and a cancel request do much the same: read the job's row, perhaps return its request to
its node, and write its status.  `RequestSpec` collects what has to be shown of these calls, in
any setting, alone or under interference; `wp_updateJobStatus` and `wp_handleCancelJob` go through
the two operations once and for all.

The other operations, a scheduling pass apart, do nothing with the answers they get.  What they do
is therefore said by the calls they may issue (`Operation.MayIssue`).
-/

namespace GpuScheduler

open Lib Models Scheduler

/-- What makes the calls of a report or of a cancel request allowed: `readOK` is what is known of a
job's row that was read, `jobOK` what is known once the operation has decided to go on, and
`nodeOK` what is known of the node it holds. -/
structure RequestSpec {σ χ : Type} (L : Logic Call Call.Ret Mem σ χ) where
  nodeOK : Node → σ → Prop
  readOK : Job → σ → Prop
  jobOK : Job → σ → Prop
  node_stable : ∀ {n s t}, nodeOK n s → L.rely s t → L.inv t → nodeOK n t
  read_stable : ∀ {j s t}, readOK j s → L.rely s t → L.inv t → readOK j t
  job_stable : ∀ {j s t}, jobOK j s → L.rely s t → L.inv t → jobOK j t
  held : ∀ {m s}, (∀ n ∈ m.nodes, nodeOK n s) → L.inv s → L.held m s
  getJob : ∀ {m id e s}, L.inv s → L.admits m (.jobsGet id) e s →
    L.inv (L.exec (.jobsGet id) e s).2 ∧ L.guar s (L.exec (.jobsGet id) e s).2 ∧
      ∀ j, (L.exec (.jobsGet id) e s).1 = .ok j → readOK j (L.exec (.jobsGet id) e s).2
  /-- A cancel request goes on only when the job is not over. -/
  unfinished : ∀ {j s}, readOK j s → j.status.isTerminal = false → jobOK j s
  getNode : ∀ {m j e s}, L.inv s → jobOK j s → L.admits m (.nodesGet j.nodeID) e s →
    L.inv (L.exec (.nodesGet j.nodeID) e s).2 ∧ L.guar s (L.exec (.nodesGet j.nodeID) e s).2 ∧
      jobOK j (L.exec (.nodesGet j.nodeID) e s).2 ∧
      ∀ n, (L.exec (.nodesGet j.nodeID) e s).1 = .ok n →
        nodeOK n (L.exec (.nodesGet j.nodeID) e s).2
  release : ∀ {n j s}, nodeOK n s → jobOK j s → nodeOK (n.release j.resourceRequest) s
  updateAvailability : ∀ {m n j e s} (c : Call), c = .nodesUpdateAvailability n.nodeID
      n.gpuAvailable n.cpuAvailable n.memoryAvailable → L.inv s → jobOK j s → nodeOK n s →
    L.admits m c e s → L.inv (L.exec c e s).2 ∧ L.guar s (L.exec c e s).2 ∧
      jobOK j (L.exec c e s).2 ∧ nodeOK n (L.exec c e s).2
  updateStatus : ∀ {m j st e s}, L.inv s → jobOK j s →
    st ∈ [JobStatus.running, .completed, .failed, .cancelled] →
    L.admits m (.jobsUpdateStatus j.jobID st) e s →
    L.inv (L.exec (.jobsUpdateStatus j.jobID st) e s).2 ∧
      L.guar s (L.exec (.jobsUpdateStatus j.jobID st) e s).2

namespace RequestSpec

variable {σ χ : Type} {L : Logic Call Call.Ret Mem σ χ} (R : RequestSpec L) {job : Job}
  {st : JobStatus} {m : Mem} {s : σ}

theorem wp_return {α : Type} {a : α} : (pure a : StoreM α).wp L (fun _ _ _ ↦ True) m s :=
  Act.wp_pure.mpr fun _ _ _ ↦ trivial

/-- The last call. -/
theorem wp_updateStatus (hm : ∀ n ∈ m.nodes, R.nodeOK n s) (hj : R.jobOK job s)
    (hst : st ∈ [JobStatus.running, .completed, .failed, .cancelled]) :
    (Jobs.updateStatus job.jobID st).wp L (fun _ _ _ ↦ True) m s := by
  refine Act.wp_call fun t hst' ht ↦ ⟨R.held (fun n hn ↦ R.node_stable (hm n hn) hst' ht) ht,
    fun e he ↦ ?_⟩
  obtain ⟨hinv, hguar⟩ := R.updateStatus ht (R.job_stable hj hst' ht) hst he
  exact ⟨hinv, hguar, fun _ _ _ ↦ trivial⟩

/-- Reading the job's row. -/
theorem wp_jobsGet {id : String} {Q : Except StoreError Job → Mem → σ → Prop}
    (herr : ∀ err t, Q (.error err) default t) (hok : ∀ j t, R.readOK j t → Q (.ok j) default t) :
    (Jobs.get id).wp L Q default s := by
  refine Act.wp_call fun t _ ht ↦
    ⟨R.held (fun _ hn ↦ absurd hn List.not_mem_nil) ht, fun e he ↦ ?_⟩
  obtain ⟨hinv, hguar, hread⟩ := R.getJob ht he
  refine ⟨hinv, hguar, fun u hu hui ↦ ?_⟩
  cases hr : (L.exec (.jobsGet id) e t).1 with
  | error err => exact herr err u
  | ok j => exact hok j u (R.read_stable (hread j hr) hu hui)

/-- Returning the job's request to its node before going on with `fin`. -/
theorem wp_releaseThen {α : Type} {fin : StoreM α} (hj : R.jobOK job s)
    (hfin : ∀ m t, (∀ n ∈ m.nodes, R.nodeOK n t) → R.jobOK job t →
      fin.wp L (fun _ _ _ ↦ True) m t) :
    (do
      match ← Nodes.get job.nodeID with
      | .error _ => fin
      | .ok node => do
        let node := node.release job.resourceRequest
        Act.modify fun m ↦ { m with nodes := [node] }
        let _ ← Nodes.updateAvailability node
        fin : StoreM α).wp L (fun _ _ _ ↦ True) default s := by
  refine Act.wp_bind.mpr (Act.wp_call fun t hst ht ↦
    ⟨R.held (fun _ hn ↦ absurd hn List.not_mem_nil) ht, fun e he ↦ ?_⟩)
  obtain ⟨hinv, hguar, hjob, hnode⟩ := R.getNode ht (R.job_stable hj hst ht) he
  refine ⟨hinv, hguar, fun u hu hui ↦ ?_⟩
  have hjob := R.job_stable hjob hu hui
  cases hr : (L.exec (.nodesGet job.nodeID) e t).1 with
  | error err => exact hfin _ u (fun _ hn ↦ absurd hn List.not_mem_nil) hjob
  | ok n =>
      have hn := R.release (R.node_stable (hnode n hr) hu hui) hjob
      refine Act.wp_bind.mpr (Act.wp_modify.mpr fun v huv hv ↦ Act.wp_bind.mpr ?_)
      have hjob := R.job_stable hjob huv hv
      have hn := R.node_stable hn huv hv
      refine Act.wp_call fun w hvw hw ↦ ?_
      have hjob := R.job_stable hjob hvw hw
      have hn := R.node_stable hn hvw hw
      have hone : ∀ {t}, R.nodeOK (n.release job.resourceRequest) t →
          ∀ x ∈ [n.release job.resourceRequest], R.nodeOK x t := fun h x hx ↦
        List.mem_singleton.mp hx ▸ h
      refine ⟨R.held (hone hn) hw, fun e he ↦ ?_⟩
      obtain ⟨hinv, hguar, hjob, hn⟩ := R.updateAvailability _ rfl hw hjob hn he
      exact ⟨hinv, hguar, fun x hx hxi ↦ hfin _ x (hone (R.node_stable hn hx hxi))
        (R.job_stable hjob hx hxi)⟩

theorem wp_releaseAndFinalize (hj : R.jobOK job s)
    (hst : st ∈ [JobStatus.running, .completed, .failed, .cancelled]) :
    (Grpc.releaseAndFinalize job st).wp L (fun _ _ _ ↦ True) default s := by
  rw [Grpc.releaseAndFinalize]
  split
  · exact R.wp_releaseThen hj fun m t hm hj ↦ R.wp_updateStatus hm hj hst
  · exact R.wp_updateStatus (fun _ hn ↦ absurd hn List.not_mem_nil) hj hst

/-- A report, which goes on with whatever row it reads. -/
theorem wp_updateJobStatus (hread : ∀ {j s}, R.readOK j s → R.jobOK j s)
    {req : Grpc.JobStatusUpdate} :
    (Grpc.updateJobStatus req).wp L (fun _ _ _ ↦ True) default s := by
  refine Act.wp_bind.mpr (R.wp_jobsGet (fun _ _ ↦ wp_return) fun job t hjob ↦ ?_)
  cases hst : req.status with
  | running =>
      refine Act.wp_bind.mpr ((R.wp_updateStatus (fun _ hn ↦ absurd hn List.not_mem_nil)
        (hread hjob) (by decide)).mono fun r _ _ _ _ ↦ ?_)
      cases r <;> exact wp_return
  | completed | failed =>
      refine Act.wp_bind.mpr ((R.wp_releaseAndFinalize (hread hjob) (by decide)).mono
        fun r _ _ _ _ ↦ ?_)
      cases r <;> exact wp_return
  | queued | scheduled | cancelled | preempted => exact wp_return

/-- A cancel request, which goes on when the job is not over. -/
theorem wp_handleCancelJob (R : RequestSpec L) {id : String} :
    (Api.handleCancelJob id).wp L (fun _ _ _ ↦ True) default s := by
  refine Act.wp_bind.mpr (R.wp_jobsGet (fun err _ ↦ by cases err <;> exact wp_return)
    fun job t hjob ↦ ?_)
  have hfin : ∀ m t, (∀ n ∈ m.nodes, R.nodeOK n t) → R.jobOK job t →
      (Api.finishCancel job).wp L (fun _ _ _ ↦ True) m t := fun m t hm hj ↦
    Act.wp_bind.mpr ((R.wp_updateStatus hm hj (by decide)).mono fun r _ _ _ _ ↦ by
      cases r <;> exact wp_return)
  simp only
  split
  · exact wp_return
  · rename_i hterm
    have hjob := R.unfinished hjob (Bool.eq_false_iff.mpr hterm)
    split
    · exact R.wp_releaseThen hjob hfin
    · exact hfin _ t (fun _ hn ↦ absurd hn List.not_mem_nil) hjob

end RequestSpec

/-! ## The calls of reports and cancel requests -/

/-- The calls of a report and of a cancel request. -/
def OfRequest : Call → Prop
  | .jobsGet _ | .nodesGet _ | .nodesUpdateAvailability _ _ _ _ => True
  | .jobsUpdateStatus _ st => st ∈ [JobStatus.running, .completed, .failed, .cancelled]
  | _ => False

theorem issues_updateStatus {id : String} {st : JobStatus}
    (hst : st ∈ [JobStatus.running, .completed, .failed, .cancelled]) :
    (Jobs.updateStatus id st).Issues OfRequest := Act.issues_call hst

theorem issues_releaseThen {α : Type} {job : Job} {fin : StoreM α} (hfin : fin.Issues OfRequest) :
    (do
      match ← Nodes.get job.nodeID with
      | .error _ => fin
      | .ok node => do
        let node := node.release job.resourceRequest
        Act.modify fun m ↦ { m with nodes := [node] }
        let _ ← Nodes.updateAvailability node
        fin : StoreM α).Issues OfRequest := by
  refine Act.issues_bind (Act.issues_call trivial) fun r ↦ ?_
  cases r with
  | error err => exact hfin
  | ok node =>
      exact Act.issues_bind Act.issues_modify fun _ ↦
        Act.issues_bind (Act.issues_call trivial) fun _ ↦ hfin

theorem Grpc.issues_releaseAndFinalize {job : Job} {st : JobStatus}
    (hst : st ∈ [JobStatus.running, .completed, .failed, .cancelled]) :
    (Grpc.releaseAndFinalize job st).Issues OfRequest := by
  rw [Grpc.releaseAndFinalize]
  split
  · exact issues_releaseThen (issues_updateStatus hst)
  · exact issues_updateStatus hst

theorem Grpc.issues_updateJobStatus (req : Grpc.JobStatusUpdate) :
    (Grpc.updateJobStatus req).Issues OfRequest := by
  refine Act.issues_bind (Act.issues_call trivial) fun r ↦ ?_
  cases r with
  | error err => exact Act.issues_pure
  | ok job =>
      cases hst : req.status with
      | running =>
          refine Act.issues_bind (issues_updateStatus (by decide)) fun r ↦ ?_
          cases r <;> exact Act.issues_pure
      | completed | failed =>
          refine Act.issues_bind (Grpc.issues_releaseAndFinalize (by decide)) fun r ↦ ?_
          cases r <;> exact Act.issues_pure
      | queued | scheduled | cancelled | preempted => exact Act.issues_pure

theorem Api.issues_handleCancelJob (id : String) :
    (Api.handleCancelJob id).Issues OfRequest := by
  refine Act.issues_bind (Act.issues_call trivial) fun r ↦ ?_
  cases r with
  | error err => cases err <;> exact Act.issues_pure
  | ok job =>
      have hfin : (Api.finishCancel job).Issues OfRequest :=
        Act.issues_bind (issues_updateStatus (by decide)) fun r ↦ by
          cases r <;> exact Act.issues_pure
      simp only
      split
      · exact Act.issues_pure
      · split
        · exact issues_releaseThen hfin
        · exact hfin

/-! ## Operations whose calls do not depend on answers -/

/-- The calls that an operation may issue, when these can be told in advance. -/
def Operation.MayIssue : Operation → Call → Prop
  | tick _ _, _ | report _, _ | cancel _, _ => False
  | submit req newID now retries, c =>
      Api.validateSubmit req = .ok () ∧ c = .jobsCreate (req.job newID now retries)
  | register req, c => c = .nodesUpsert req.node
  | heartbeat id, c => c = .nodesHeartbeat id ∨ c = .nodesGet id
  | assignments nodeID, c => c = .jobsListScheduledForNode nodeID
  | cordon id, c => c = .nodesGet id ∨ c = .nodesSetStatus id .cordoned
  | drain id, c => c = .nodesGet id ∨ c = .nodesSetStatus id .draining
  | uncordon id, c => c = .nodesGet id ∨ c = .nodesSetStatus id .ready
  | markStaleDown ttl, c => c = .nodesMarkStaleDown ttl

namespace Operation.MayIssue

variable {op : Operation} {c : Call}

/-- These calls change no job's row. -/
theorem onJob_eq (h : op.MayIssue c) (now : Time) (j : Job) : c.onJob now j = j := by
  cases op with
  | tick _ _ | report _ | cancel _ => exact h.elim
  | submit _ _ _ _ =>
      rw [h.2]
      rfl
  | register _ | assignments _ | markStaleDown _ =>
      obtain rfl := h
      rfl
  | heartbeat _ | cordon _ | drain _ | uncordon _ =>
      rcases h with rfl | rfl <;> rfl

/-- Only a submission creates a job. -/
theorem eq_submit {j : Job} (h : op.MayIssue (.jobsCreate j)) :
    ∃ req newID now retries, op = submit req newID now retries ∧ j = req.job newID now retries := by
  cases op with
  | submit req newID now retries => exact ⟨req, newID, now, retries, rfl, by simpa using h.2⟩
  | tick _ _ | report _ | cancel _ => exact h.elim
  | register _ | assignments _ | markStaleDown _ => cases h
  | heartbeat _ | cordon _ | drain _ | uncordon _ => rcases h with h | h <;> cases h

end Operation.MayIssue

/-- An operator's request to set a node's status. -/
theorem issues_setNodeStatus (id : String) (st : NodeStatus) :
    ((Api.setNodeStatus id st).thread default).Issues fun m c ↦
      m = default ∧ (c = .nodesGet id ∨ c = .nodesSetStatus id st) := by
  refine ⟨⟨rfl, .inl rfl⟩, fun r ↦ ?_⟩
  cases r with
  | error err => cases err with
    | notFound => trivial
    | failure => exact ⟨⟨rfl, .inr rfl⟩, fun r ↦ by cases r <;> trivial⟩
  | ok n => exact ⟨⟨rfl, .inr rfl⟩, fun r ↦ by cases r <;> trivial⟩

/-- Apart from passes, reports and cancel requests, operations issue the calls they may issue. -/
theorem Operation.issues (op : Operation) :
    op.thread.Issues (fun m c ↦ m = default ∧ op.MayIssue c) ∨
      (∃ e clock, op = tick e clock) ∨ (∃ req, op = report req) ∨ ∃ id, op = cancel id := by
  cases op with
  | tick e clock => exact .inr (.inl ⟨e, clock, rfl⟩)
  | report req => exact .inr (.inr (.inl ⟨req, rfl⟩))
  | cancel id => exact .inr (.inr (.inr ⟨id, rfl⟩))
  | submit req newID now retries =>
      refine .inl ?_
      simp only [thread, Act.thread, Api.handleSubmitJob]
      cases hv : Api.validateSubmit req with
      | error err => trivial
      | ok u => exact ⟨⟨rfl, hv, rfl⟩, fun r ↦ by cases r <;> trivial⟩
  | register req => exact .inl ⟨⟨rfl, rfl⟩, fun r ↦ by cases r <;> trivial⟩
  | heartbeat id =>
      refine .inl ⟨⟨rfl, .inl rfl⟩, fun r ↦ ?_⟩
      cases r with
      | error err => cases err <;> trivial
      | ok u => exact ⟨⟨rfl, .inr rfl⟩, fun r ↦ by cases r <;> trivial⟩
  | assignments nodeID => exact .inl ⟨⟨rfl, rfl⟩, fun r ↦ by cases r <;> trivial⟩
  | cordon id | drain id | uncordon id => exact .inl (issues_setNodeStatus id _)
  | markStaleDown ttl => exact .inl ⟨⟨rfl, rfl⟩, fun _ ↦ trivial⟩

/-- **All operations at once.**  An operation meets its obligations when a pass has a
specification, a report and a cancel request have one, and the calls of the others do no harm. -/
theorem Operation.wp_thread {σ χ : Type} {L : Logic Call Call.Ret Mem σ χ} {s : σ}
    (op : Operation)
    (htick : ∀ e clock, op = tick e clock →
      (e.tick clock).wp L (fun _ _ _ ↦ True) default s)
    (hreport : ∀ req, op = report req →
      (Grpc.updateJobStatus req).wp L (fun _ _ _ ↦ True) default s)
    (hcancel : ∀ id, op = cancel id →
      (Api.handleCancelJob id).wp L (fun _ _ _ ↦ True) default s)
    (hcall : ∀ c s, op.MayIssue c → L.inv s → L.held default s ∧ ∀ e, L.admits default c e s →
      L.inv (L.exec c e s).2 ∧ L.guar s (L.exec c e s).2) :
    op.thread.wp L (fun _ _ ↦ True) s := by
  rcases op.issues with h | ⟨e, clock, rfl⟩ | ⟨req, rfl⟩ | ⟨id, rfl⟩
  · refine Prog.wp_of_issues h ?_
    rintro m c s ⟨rfl, hc⟩ hs
    exact hcall c s hc hs
  · exact Act.wp_thread (fun _ _ _ _ _ ↦ trivial) (htick e clock rfl)
  · exact Act.wp_thread (fun _ _ _ _ _ ↦ trivial) (hreport req rfl)
  · exact Act.wp_thread (fun _ _ _ _ _ ↦ trivial) (hcancel id rfl)

end GpuScheduler
