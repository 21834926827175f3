import GpuScheduler.Accounting.Release
import GpuScheduler.Store.Rules
import GpuScheduler.Grpc.Server
import GpuScheduler.Api.Handlers

/-!
# Rules for remote calls and requests

What the operations of the gRPC server and of the REST handlers do to the store when they run
alone, one rule each.  `CanFail admits` marks what happens only when a call may fail.
-/

namespace GpuScheduler

open Lib Models

section Rules

variable {admits : Admits} {m : Mem} {s : Store}

/-- The end of a job: its resources are returned and its status recorded. -/
theorem Grpc.wp_releaseAndFinalize {job : Job} {st : JobStatus}
    {Q : Except StoreError Unit → Mem → Store → Prop}
    (h : ∀ s' m', (s' = s.release job ∨ (CanFail admits ∧ s' = s)) →
      (∀ now, ClockShows admits now → Q (.ok ()) m' (s'.updateStatus job.jobID st now)) ∧
        (CanFail admits → Q (.error .failure) m' s')) :
    Wp admits (Grpc.releaseAndFinalize job st) Q m s := by
  have hfin : ∀ s' m', (s' = s.release job ∨ (CanFail admits ∧ s' = s)) →
      Wp admits (Jobs.updateStatus job.jobID st) Q m' s' := fun s' m' hs' ↦
    wp_jobs_updateStatus (h s' m' hs').1 fun hf ↦ (h s' m' hs').2 hf.canFail
  rw [Grpc.releaseAndFinalize]
  split
  · rename_i hne
    refine Act.wp_bind.mpr (wp_nodes_get (fun n hn ↦ ?_) (fun hn ↦ ?_) fun hf ↦ ?_)
    · refine Act.wp_bind.mpr (Act.wp_modify_alone.mpr (Act.wp_bind.mpr ?_))
      refine wp_nodes_updateAvailability ?_ fun hf ↦ hfin _ _ (.inr ⟨hf.canFail, rfl⟩)
      exact hfin _ _ (.inl (Store.release_of_find? hne hn).symm)
    · exact hfin _ _ (.inl (Store.release_of_missing hn).symm)
    · exact hfin _ _ (.inr ⟨hf.canFail, rfl⟩)
  · rename_i hne
    exact hfin _ _ (.inl (Store.release_of_unassigned (not_not.mp hne)).symm)

/-- A report by an agent: whatever the state of the job's row, and whichever node reports. -/
theorem Grpc.wp_updateJobStatus {req : Grpc.JobStatusUpdate}
    {Q : Except Grpc.RpcError Unit → Mem → Store → Prop}
    (hrefused : (s.jobs.find? req.jobID = none ∨ CanFail admits ∨
      req.status ∉ [.running, .completed, .failed]) → ∀ err, Q (.error err) m s)
    (hrunning : ∀ job, s.jobs.find? req.jobID = some job → req.status = .running →
      ∀ now, ClockShows admits now → Q (.ok ()) m (s.updateStatus req.jobID .running now))
    (hfinal : ∀ job, s.jobs.find? req.jobID = some job →
      req.status = .completed ∨ req.status = .failed →
      ∀ s' m', (s' = s.release job ∨ (CanFail admits ∧ s' = s)) →
        (∀ now, ClockShows admits now →
          Q (.ok ()) m' (s'.updateStatus req.jobID req.status now)) ∧
          (CanFail admits → ∀ err, Q (.error err) m' s')) :
    Wp admits (Grpc.updateJobStatus req) Q m s := by
  refine Act.wp_bind.mpr (wp_jobs_get (fun job hjob ↦ ?_)
    (fun hnone ↦ Act.wp_pure_alone.mpr (hrefused (.inl hnone) _))
    fun hf ↦ Act.wp_pure_alone.mpr (hrefused (.inr (.inl hf.canFail)) _))
  have hid : job.jobID = req.jobID := Table.key_of_find? hjob
  cases hst : req.status with
  | running =>
      simp only [hid]
      refine Act.wp_bind.mpr (wp_jobs_updateStatus (fun now hnow ↦ ?_) fun hf ↦ ?_)
      · exact Act.wp_pure_alone.mpr (hrunning job hjob hst now hnow)
      · exact Act.wp_pure_alone.mpr (hrefused (.inr (.inl hf.canFail)) _)
  | completed | failed =>
      rw [hst] at hfinal
      refine Act.wp_bind.mpr (Grpc.wp_releaseAndFinalize fun s' m' hs' ↦
        ⟨fun now hnow ↦ ?_, fun hf ↦ ?_⟩)
      · rw [hid]
        exact Act.wp_pure_alone.mpr ((hfinal job hjob (by decide) s' m' hs').1 now hnow)
      · exact Act.wp_pure_alone.mpr ((hfinal job hjob (by decide) s' m' hs').2 hf _)
  | queued | scheduled | cancelled | preempted =>
      exact Act.wp_pure_alone.mpr (hrefused (.inr (.inr (by rw [hst]; decide))) _)

/-- A report that an agent may send, when no call fails. -/
theorem Grpc.wp_updateJobStatus_ok {req : Grpc.JobStatusUpdate} {job : Job}
    (hok : ¬ CanFail admits) (hj : s.jobs.find? req.jobID = some job)
    (hst : req.status ∈ [JobStatus.running, .completed, .failed]) :
    Wp admits (Grpc.updateJobStatus req) (fun _ _ t ↦ ∃ now, ClockShows admits now ∧
      t = (if req.status = .running then s else s.release job).updateStatus
        req.jobID req.status now) m s := by
  refine Grpc.wp_updateJobStatus ?_ (fun _ _ hrun now hnow ↦ ?_) ?_
  · rintro (hnone | hf | hno) err
    · rw [hj] at hnone
      cases hnone
    · exact absurd hf hok
    · exact absurd hst hno
  · exact ⟨now, hnow, by rw [if_pos hrun, hrun]⟩
  · intro job' hj' hend s' _ hs'
    obtain rfl : job = job' := Option.some.inj (hj.symm.trans hj')
    obtain rfl : s' = s.release job := hs'.resolve_right fun hf ↦ hok hf.1
    have hne : req.status ≠ .running := by rcases hend with h | h <;> rw [h] <;> decide
    exact ⟨fun now hnow ↦ ⟨now, hnow, by rw [if_neg hne]⟩, fun hf ↦ absurd hf hok⟩

/-- A cancel request: refused for a job that is over, and a release for an active one. -/
theorem Api.wp_handleCancelJob {id : String} {Q : Api.Response → Mem → Store → Prop}
    (hrefused : (s.jobs.find? id = none ∨ CanFail admits ∨
      ∃ job, s.jobs.find? id = some job ∧ job.status.isTerminal = true) → ∀ resp, Q resp m s)
    (hcancel : ∀ job, s.jobs.find? id = some job → job.status.isTerminal = false →
      ∀ s' m', (s' = (if job.status.isActive then s.release job else s) ∨
        (CanFail admits ∧ s' = s)) →
      (∀ now, Q .ok m' (s'.updateStatus id .cancelled now)) ∧
        (CanFail admits → ∀ resp, Q resp m' s')) :
    Wp admits (Api.handleCancelJob id) Q m s := by
  refine Act.wp_bind.mpr (wp_jobs_get (fun job hjob ↦ ?_)
    (fun hnone ↦ Act.wp_pure_alone.mpr (hrefused (.inl hnone) _))
    fun hf ↦ Act.wp_pure_alone.mpr (hrefused (.inr (.inl hf.canFail)) _))
  have hid : job.jobID = id := Table.key_of_find? hjob
  simp only
  split
  · rename_i hterm
    exact Act.wp_pure_alone.mpr (hrefused (.inr (.inr ⟨job, hjob, hterm⟩)) _)
  · rename_i hterm
    have hfin : ∀ s' m', (s' = (if job.status.isActive then s.release job else s) ∨
        (CanFail admits ∧ s' = s)) → Wp admits (Api.finishCancel job) Q m' s' :=
      fun s' m' hs' ↦ by
        have h := hcancel job hjob (Bool.eq_false_iff.mpr hterm) s' m' hs'
        refine Act.wp_bind.mpr (wp_jobs_updateStatus (fun now _ ↦ ?_) fun hf ↦ ?_)
        · rw [hid]
          exact Act.wp_pure_alone.mpr (h.1 now)
        · exact Act.wp_pure_alone.mpr (h.2 hf.canFail _)
    split
    · rename_i hact
      simp only [Bool.and_eq_true, decide_eq_true_eq] at hact
      rw [if_pos hact.1] at hfin
      refine Act.wp_bind.mpr (wp_nodes_get (fun n hn ↦ ?_) (fun hn ↦ ?_) fun hf ↦ ?_)
      · refine Act.wp_bind.mpr (Act.wp_modify_alone.mpr (Act.wp_bind.mpr ?_))
        refine wp_nodes_updateAvailability ?_ fun hf ↦ hfin _ _ (.inr ⟨hf.canFail, rfl⟩)
        exact hfin _ _ (.inl (Store.release_of_find? hact.2 hn).symm)
      · exact hfin _ _ (.inl (Store.release_of_missing hn).symm)
      · exact hfin _ _ (.inr ⟨hf.canFail, rfl⟩)
    · rename_i hact
      refine hfin _ _ (.inl ?_)
      split
      · rename_i ha
        simp only [ha, Bool.true_and, decide_eq_true_eq, not_not] at hact
        exact (Store.release_of_unassigned hact).symm
      · rfl

/-- A registration. -/
theorem Grpc.wp_register {req : Grpc.RegisterRequest}
    {Q : Except Grpc.RpcError Unit → Mem → Store → Prop}
    (hrefused : CanFail admits → ∀ err, Q (.error err) m s)
    (hok : ∀ now, Q (.ok ()) m (s.upsertNode req.node now)) :
    Wp admits (Grpc.register req) Q m s :=
  Act.wp_bind.mpr (wp_nodes_upsert (fun now ↦ Act.wp_pure_alone.mpr (hok now))
    fun hf ↦ Act.wp_pure_alone.mpr (hrefused hf.canFail _))

/-- A heartbeat. -/
theorem Grpc.wp_heartbeat {id : String}
    {Q : Except Grpc.RpcError Grpc.DesiredStatus → Mem → Store → Prop} (hno : ∀ r, Q r m s)
    (hok : ∀ n now r, s.nodes.find? id = some n → Q r m (s.heartbeat id now)) :
    Wp admits (Grpc.heartbeat id) Q m s := by
  refine Act.wp_bind.mpr (wp_nodes_heartbeat (fun n now hn ↦ ?_)
    (fun _ ↦ Act.wp_pure_alone.mpr (hno _)) fun _ ↦ Act.wp_pure_alone.mpr (hno _))
  refine Act.wp_bind.mpr (wp_nodes_get (fun n' _ ↦ ?_) (fun _ ↦ ?_) fun _ ↦ ?_) <;>
    exact Act.wp_pure_alone.mpr (hok n now _ hn)

/-- A submission. -/
theorem Api.wp_handleSubmitJob {req : Api.SubmitJobRequest} {newID : String} {now : Time}
    {defaultRetries : Int} {Q : Api.Response → Mem → Store → Prop} (hrefused : ∀ resp, Q resp m s)
    (hok : ∀ s', Api.validateSubmit req = .ok () →
      s.createJob (req.job newID now defaultRetries) = some s' →
      Q (.created (req.job newID now defaultRetries)) m s') :
    Wp admits (Api.handleSubmitJob req newID now defaultRetries) Q m s := by
  rw [Api.handleSubmitJob]
  cases hv : Api.validateSubmit req with
  | error err => exact Act.wp_pure_alone.mpr (hrefused _)
  | ok u =>
      exact Act.wp_bind.mpr (wp_jobs_create (fun s' hs' ↦ Act.wp_pure_alone.mpr (hok s' hv hs'))
        (Act.wp_pure_alone.mpr (hrefused _)))

/-- An operator sets the status of a node. -/
theorem Api.wp_setNodeStatus {id : String} {st : NodeStatus} {Q : Api.Response → Mem → Store → Prop}
    (hno : ∀ resp, Q resp m s) (hok : Q .ok m (s.setStatus id st)) :
    Wp admits (Api.setNodeStatus id st) Q m s := by
  refine Act.wp_bind.mpr (wp_nodes_get (fun _ _ ↦ ?_)
    (fun _ ↦ Act.wp_pure_alone.mpr (hno _)) fun _ ↦ ?_)
  all_goals
    exact Act.wp_bind.mpr (wp_nodes_setStatus (Act.wp_pure_alone.mpr hok)
      fun _ ↦ Act.wp_pure_alone.mpr (hno _))

end Rules

end GpuScheduler
