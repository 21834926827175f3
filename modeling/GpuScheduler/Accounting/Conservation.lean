import GpuScheduler.Accounting.Pass
import GpuScheduler.Api.Rules
import Mathlib.Logic.Relation

/-!
# Conservation of resources

A well-behaved run consists of whole operations, one after the other: nodes register with a fixed
capacity, jobs are submitted, placed without preemption, reported running, reported finished while
they are active, cancelled at any time, and operators cordon, drain and uncordon nodes.  In every
state of such a run the books are right and no availability is negative (`WellBehaved.conserved`).

A placement that cannot be persisted is rolled back, which is why `Jobs.Schedule` may fail.  What
the equation does depend on is that no node registers under the empty ID: `releaseAndFinalize` and
`handleCancelJob` take that ID to mean that the job is on no node, and return nothing.
-/

namespace GpuScheduler

open Lib Models Scheduler

/-- Whether the call is one of `Jobs.Schedule`. -/
def Call.isSchedule : Call → Bool
  | .jobsSchedule _ _ => true
  | _ => false

/-- Of the calls of an operation only `Jobs.Schedule` may fail. -/
def OnlyScheduleFails : Admits := fun _ c env _ ↦ env.fails = true → c.isSchedule = true

instance : ∀ m c env s, Decidable (OnlyScheduleFails m c env s) := fun _ c env _ ↦
  inferInstanceAs (Decidable (env.fails = true → c.isSchedule = true))

/-- One operation of a well-behaved run, in which nodes register under the given IDs. -/
inductive WellBehaved (ids : String → Prop) : Store → Store → Prop
  /-- A node registers, or registers again with the same capacity. -/
  | register {s t : Store} {req : Grpc.RegisterRequest} {r : Except Grpc.RpcError Unit} :
      ids req.nodeID → (∀ d, 0 ≤ req.capacity.amount d) →
      (∀ n, s.nodes.find? req.nodeID = some n → ∀ d, n.cap d = req.capacity.amount d) →
      Runs NoError (Grpc.register req) s r t → WellBehaved ids s t
  /-- A job is submitted. -/
  | submit {s t : Store} {req : Api.SubmitJobRequest} {newID : String} {now : Time}
      {defaultRetries : Int} {r : Api.Response} :
      Api.validateSubmit req = .ok () →
      Runs NoError (Api.handleSubmitJob req newID now defaultRetries) s r t → WellBehaved ids s t
  /-- A scheduling pass without preemption and without a stale node. -/
  | tick {s t : Store} {e : Engine} {clock : Clock} {r : Except StoreError Unit} :
      e.cfg.enablePreemption = false →
      Runs (fun m c env s ↦ OnlyScheduleFails m c env s ∧ NoStale m c env s) (e.tick clock) s r t →
      WellBehaved ids s t
  /-- A scheduled job is reported running. -/
  | running {s t : Store} {req : Grpc.JobStatusUpdate} {job : Job}
      {r : Except Grpc.RpcError Unit} :
      req.status = .running → s.jobs.find? req.jobID = some job → job.status = .scheduled →
      Runs NoError (Grpc.updateJobStatus req) s r t → WellBehaved ids s t
  /-- An active job is reported completed or failed. -/
  | finished {s t : Store} {req : Grpc.JobStatusUpdate} {job : Job}
      {r : Except Grpc.RpcError Unit} :
      req.status = .completed ∨ req.status = .failed → s.jobs.find? req.jobID = some job →
      job.status.isActive = true →
      Runs NoError (Grpc.updateJobStatus req) s r t → WellBehaved ids s t
  /-- A job is cancelled. -/
  | cancel {s t : Store} {id : String} {r : Api.Response} :
      Runs NoError (Api.handleCancelJob id) s r t → WellBehaved ids s t
  | cordon {s t : Store} {id : String} {r : Api.Response} :
      Runs NoError (Api.handleCordonNode id) s r t → WellBehaved ids s t
  | drain {s t : Store} {id : String} {r : Api.Response} :
      Runs NoError (Api.handleDrainNode id) s r t → WellBehaved ids s t
  | uncordon {s t : Store} {id : String} {r : Api.Response} :
      Runs NoError (Api.handleUncordonNode id) s r t → WellBehaved ids s t
  | heartbeat {s t : Store} {id : String} {r : Except Grpc.RpcError Grpc.DesiredStatus} :
      Runs NoError (Grpc.heartbeat id) s r t → WellBehaved ids s t

/-! ## The invariant -/

/-- The books are right, and the rows are such that every operation can keep them right. -/
structure Conserved (s : Store) : Prop where
  accounted : s.Accounted
  avail : s.NonnegAvail
  requests : s.NonnegRequests
  named : ∀ n ∈ s.nodes.rows, n.nodeID ≠ ""
  /-- An active job is on a registered node. -/
  placed : ∀ j ∈ s.jobs.rows, j.status.isActive = true → ∃ n, s.nodes.find? j.nodeID = some n

namespace Conserved

variable {s t : Store}

theorem empty : Conserved Store.empty where
  accounted _ hn := absurd hn List.not_mem_nil
  avail _ hn := absurd hn List.not_mem_nil
  requests _ hj := absurd hj List.not_mem_nil
  named _ hn := absurd hn List.not_mem_nil
  placed _ hj := absurd hj List.not_mem_nil

theorem cap_nonneg (h : Conserved s) {n : Node} (hn : n ∈ s.nodes.rows) (d : Resource) :
    0 ≤ n.cap d := (Store.load_nonneg h.requests n.nodeID d).trans
  (Store.load_le_cap h.accounted h.avail hn d)

theorem events (h : Conserved s) (evs : List SchedulingEvent) :
    Conserved { s with events := evs } := ⟨h.accounted, h.avail, h.requests, h.named, h.placed⟩

/-- A statement that leaves IDs, capacities and availabilities alone. -/
theorem modifyNode (h : Conserved s) {id : String} {f : Node → Node}
    {hf : ∀ n : Node, (f n).nodeID = n.nodeID} (ht : t = { s with nodes := s.nodes.modify id f hf })
    (hc : ∀ n ∈ s.nodes.rows, n.nodeID = id → ∀ d, (f n).cap d = n.cap d)
    (ha : ∀ n d, (f n).avail d = n.avail d) : Conserved t := by
  subst ht
  have hrows : ∀ x ∈ (s.nodes.modify id f hf).rows, ∃ n ∈ s.nodes.rows, x.nodeID = n.nodeID ∧
      ∀ d, x.cap d = n.cap d ∧ x.avail d = n.avail d := fun x hx ↦ by
    rcases Table.mem_modify.mp hx with ⟨n, hn, hid, rfl⟩ | ⟨hx, -⟩
    · exact ⟨n, hn, hf n, fun d ↦ ⟨hc n hn hid d, ha n d⟩⟩
    · exact ⟨x, hx, rfl, fun _ ↦ ⟨rfl, rfl⟩⟩
  refine ⟨fun x hx d ↦ ?_, fun x hx d ↦ ?_, h.requests, fun x hx ↦ ?_, fun j hj hact ↦ ?_⟩
  · obtain ⟨n, hn, hid, hd⟩ := hrows x hx
    rw [(hd d).1, (hd d).2, hid]
    exact h.accounted n hn d
  · obtain ⟨n, hn, -, hd⟩ := hrows x hx
    rw [(hd d).2]
    exact h.avail n hn d
  · obtain ⟨n, hn, hid, -⟩ := hrows x hx
    rw [hid]
    exact h.named n hn
  · obtain ⟨n, hn⟩ := h.placed j hj hact
    change ∃ n, (s.nodes.modify id f hf).find? j.nodeID = some n
    rw [Table.find?_modify, hn]
    split
    · exact ⟨f n, rfl⟩
    · exact ⟨n, rfl⟩

/-- A registration. -/
theorem register (h : Conserved s) {req : Grpc.RegisterRequest} (hid : req.nodeID ≠ "")
    (hcap : ∀ d, 0 ≤ req.capacity.amount d)
    (hsame : ∀ n, s.nodes.find? req.nodeID = some n → ∀ d, n.cap d = req.capacity.amount d)
    (now : Time) : Conserved (s.upsertNode req.node now) := by
  have hreq : ∀ d, req.node.cap d = req.capacity.amount d := fun d ↦ by cases d <;> rfl
  rw [Store.upsertNode]
  split
  · rename_i hnew
    have hnew' : s.nodes.find? req.nodeID = none := hnew
    -- nothing is active on a node that is not registered yet
    have hload : ∀ d, s.load req.nodeID d = 0 := fun d ↦ Store.load_eq_zero (fun j hj hact hjn ↦ by
      obtain ⟨n, hn⟩ := h.placed j hj hact
      rw [hjn, hnew'] at hn
      cases hn) d
    have hfull : ∀ d, (req.node.registered now).avail d = (req.node.registered now).cap d :=
      fun d ↦ by cases d <;> rfl
    refine ⟨fun x hx d ↦ ?_, fun x hx d ↦ ?_, h.requests, fun x hx ↦ ?_, fun j hj hact ↦ ?_⟩
    · rcases (Table.mem_insert hnew).mp hx with hx | rfl
      · exact h.accounted x hx d
      · rw [hfull]
        have := hload d
        change _ = _ - s.load req.nodeID d
        omega
    · rcases (Table.mem_insert hnew).mp hx with hx | rfl
      · exact h.avail x hx d
      · rw [hfull]
        exact (hcap d).trans_eq (hreq d).symm
    · rcases (Table.mem_insert hnew).mp hx with hx | rfl
      · exact h.named x hx
      · exact hid
    · obtain ⟨n, hn⟩ := h.placed j hj hact
      refine ⟨n, Table.find?_eq_some.mpr ⟨?_, Table.key_of_find? hn⟩⟩
      rw [Table.mem_insert hnew]
      exact .inl (Table.mem_of_find? hn)
  · refine h.modifyNode rfl (fun n hn hnid d ↦ ?_) fun n d ↦ ?_
    · have hfind : s.nodes.find? req.nodeID = some n := Table.find?_eq_some.mpr ⟨hn, hnid⟩
      rw [hsame n hfind d, ← hreq]
      cases d <;> rfl
    · cases d <;> rfl

/-- A submission. -/
theorem submit (h : Conserved s) {req : Api.SubmitJobRequest}
    (hv : Api.validateSubmit req = .ok ()) {newID : String} {now : Time} {retries : Int}
    (hs : s.createJob (req.job newID now retries) = some t) : Conserved t := by
  rw [Store.createJob] at hs
  split at hs
  · rename_i hnew
    simp only [Option.some.injEq] at hs
    subst hs
    have hload : ∀ id d, (s.jobs.insert (req.job newID now retries).created hnew).sum
        (fun j ↦ j.usage id d) = s.load id d := fun id d ↦ by
      rw [Table.sum_insert, Job.usage_of_not_active rfl, add_zero]
      rfl
    refine ⟨fun n hn d ↦ ?_, h.avail, fun j hj d ↦ ?_, h.named, fun j hj hact ↦ ?_⟩
    · change _ = _ - Table.sum _ _
      rw [hload]
      exact h.accounted n hn d
    · rcases (Table.mem_insert hnew).mp hj with hj | rfl
      · exact h.requests j hj d
      · exact Api.request_nonneg_of_validateSubmit hv d
    · rcases (Table.mem_insert hnew).mp hj with hj | rfl
      · exact h.placed j hj hact
      · cases hact
  · cases hs

/-- A change of a job's status that moves no load. -/
theorem updateStatus (h : Conserved s) {job : Job} {st : JobStatus} {now : Time}
    (hj : s.jobs.find? job.jobID = some job) (hst : job.status.isActive = st.isActive) :
    Conserved (s.updateStatus job.jobID st now) := by
  have hload : ∀ id d, (s.updateStatus job.jobID st now).load id d = s.load id d := fun id d ↦ by
    rw [Store.load_updateStatus hj]
    cases ha : st.isActive with
    | false =>
        rw [Job.usage_of_not_active (hst.trans ha), Job.usage_withStatus_of_not_active _ ha]
        omega
    | true =>
        rw [Job.usage_withStatus_of_active (hst.trans ha) ha]
        omega
  refine ⟨fun n hn d ↦ ?_, h.avail, h.requests.updateStatus st now, h.named, fun j hj' hact ↦ ?_⟩
  · rw [hload]
    exact h.accounted n hn d
  · rw [Store.jobs_updateStatus] at hj'
    rcases Table.mem_modify.mp hj' with ⟨r, hr, hk, rfl⟩ | ⟨hj', -⟩
    · have hr' := s.jobs.eq_of_key_eq hr (Table.mem_of_find? hj) hk
      exact h.placed r hr (hr' ▸ hst.trans hact)
    · exact h.placed j hj' hact

/-- The end of an active job. -/
theorem release (h : Conserved s) {job : Job} {st : JobStatus} {now : Time}
    (hj : s.jobs.find? job.jobID = some job) (ha : job.status.isActive = true)
    (hst : st.isActive = false) : Conserved ((s.release job).updateStatus job.jobID st now) := by
  have hnodes : ∀ x ∈ (s.release job).nodes.rows, ∃ n ∈ s.nodes.rows, x.nodeID = n.nodeID := by
    intro x hx
    by_cases hid : x.nodeID = job.nodeID
    · obtain ⟨n, hn⟩ := h.placed job (Table.mem_of_find? hj) ha
      exact ⟨n, Table.mem_of_find? hn, hid.trans (Table.key_of_find? hn).symm⟩
    · have := Store.find?_release_of_ne (s := s) hid
      rw [Table.find?_key hx] at this
      exact ⟨x, Table.mem_of_find? this.symm, rfl⟩
  refine ⟨h.accounted.release h.requests h.named hj ha hst now, ?_,
    Store.NonnegRequests.updateStatus (by
      intro j hj'
      rw [Store.jobs_release] at hj'
      exact h.requests j hj') st now, fun x hx ↦ ?_, fun j hj' hact ↦ ?_⟩
  · exact h.avail.release (fun n hn d ↦ h.cap_nonneg hn d) (h.requests job (Table.mem_of_find? hj))
  · obtain ⟨n, hn, hid⟩ := hnodes x hx
    rw [hid]
    exact h.named n hn
  · rw [Store.jobs_updateStatus, Store.jobs_release] at hj'
    rw [Store.nodes_updateStatus]
    rcases Table.mem_modify.mp hj' with ⟨r, -, -, rfl⟩ | ⟨hj', -⟩
    · exact absurd hact (by change ¬ st.isActive = true; simp [hst])
    · obtain ⟨n, hn⟩ := h.placed j hj' hact
      by_cases hid : j.nodeID = job.nodeID
      · have hne : job.nodeID ≠ "" := by
          rw [← hid, ← Table.key_of_find? hn]
          exact h.named n (Table.mem_of_find? hn)
        rw [hid] at hn ⊢
        rw [Store.find?_release_self hne, hn]
        exact ⟨_, rfl⟩
      · rw [Store.find?_release_of_ne hid]
        exact ⟨n, hn⟩

/-! ## A pass without preemption -/

/-- A placement. -/
theorem place (h : Conserved s) {m : Mem} {job : Job} {queue : List Job} {node : Node}
    (hstep : InStep m s (job :: queue)) (hn : node ∈ m.nodes)
    (hf : node.fits job.resourceRequest = true) : Conserved (s.place job node) := by
  have hrow := hstep.synced node hn
  have hafter := hstep.commit hn hf []
  have hfind : ∀ id n, s.nodes.find? id = some n →
      ∃ n', (s.place job node).nodes.find? id = some n' ∧ n'.nodeID = n.nodeID := fun id n hid ↦ by
    by_cases heq : id = node.nodeID
    · subst heq
      rw [hrow, Option.some.injEq] at hid
      subst hid
      exact ⟨_, Store.find?_writeBack_self hrow rfl, rfl⟩
    · refine ⟨n, ?_, rfl⟩
      exact (Store.find?_writeBack_of_ne (n := node.reserve job.resourceRequest) heq).trans hid
  refine ⟨Store.accounted_iff.mpr fun id d ↦ ?_, hafter.avail, hafter.requests, fun x hx ↦ ?_,
    fun j hj hact ↦ ?_⟩
  · rw [hstep.drift_place hn]
    exact Store.accounted_iff.mp h.accounted id d
  · rcases Store.mem_writeBack hx with ⟨hx, -⟩ | ⟨r, hr, -, rfl⟩
    · exact h.named x hx
    · exact h.named r hr
  · change j ∈ (s.schedule job.jobID node.nodeID).jobs.rows at hj
    rw [Store.jobs_schedule] at hj
    rcases Table.mem_modify.mp hj with ⟨r, -, -, rfl⟩ | ⟨hj, -⟩
    · obtain ⟨n', hn', -⟩ := hfind node.nodeID node hrow
      exact ⟨n', hn'⟩
    · obtain ⟨n, hjn⟩ := h.placed j hj hact
      obtain ⟨n', hn', -⟩ := hfind j.nodeID n hjn
      exact ⟨n', hn'⟩

/-- What every placement of a pass keeps, beside the invariant. -/
structure Kept (R : Store → Prop) : Prop where
  events : ∀ s evs, R s → R { s with events := evs }
  place : ∀ {m : Mem} {s : Store} {job : Job} {queue : List Job} {node : Node}, Conserved s →
    InStep m s (job :: queue) → node ∈ m.nodes → node.fits job.resourceRequest = true → R s →
    R (s.place job node)

/-- The loop over the queue, when only `Jobs.Schedule` may fail. -/
theorem wp_loop {R : Store → Prop} (hR : Kept R) {admits : Admits}
    (hadm : ∀ m c env s, admits m c env s → OnlyScheduleFails m c env s)
    {e : Engine} (hpre : e.cfg.enablePreemption = false) {now : Time} {queue : List Job} {m : Mem}
    (h : Conserved s) (hs : R s) (hstep : InStep m s queue) :
    Wp admits (queue.forM (e.placeOne now)) (fun _ _ t ↦ Conserved t ∧ R t) m s := by
  refine (Act.wp_forM_alone (I := fun queue m s ↦ (Conserved s ∧ R s) ∧ InStep m s queue)
    ⟨⟨h, hs⟩, hstep⟩ ?_).mono fun _ _ _ _ h ↦ h.1
  rintro job queue m s ⟨h, hstep⟩
  refine Engine.wp_placeOne (I := fun m s ↦ (Conserved s ∧ R s) ∧ InStep m s (job :: queue))
    (fun _ _ _ h hst _ ↦ hst ▸ h) ?_ (fun hen ↦ absurd hen (by simp [hpre])) ?_ ⟨h, hstep⟩
  · rintro node why reason m s ⟨⟨h, hs⟩, hstep⟩ hp
    obtain ⟨hn, hf⟩ := Algorithm.place_ok hp
    refine Engine.wp_commitPlacement (fun _ ↦ ⟨⟨h, hs⟩, ?_⟩) ?_ fun evs ↦
      ⟨⟨(h.place hstep hn hf).events evs, hR.events _ evs (hR.place h hstep hn hf hs)⟩,
        hstep.commit hn hf evs⟩
    · have hrow := Table.mem_of_find? (hstep.synced node hn)
      exact hstep.rollback hn fun d ↦ Store.avail_le_cap h.accounted h.requests hrow d
    · rintro ⟨_, _, _, env, henv, hfails⟩
      cases hadm _ _ _ _ henv hfails
  · rintro reason m s ⟨⟨h, hs⟩, hstep⟩
    exact Engine.wp_giveUp fun evs ↦ ⟨⟨h.events evs, hR.events _ evs hs⟩, hstep.tail.events evs⟩

/-- A pass without preemption. -/
theorem wp_tick_keeping {R : Store → Prop} (hR : Kept R) {admits : Admits}
    (hadm : ∀ m c env s, admits m c env s → OnlyScheduleFails m c env s ∧ NoStale m c env s)
    {e : Engine} {clock : Clock} {m : Mem} (hpre : e.cfg.enablePreemption = false)
    (h : Conserved s) (hs : R s) :
    Wp admits (e.tick clock) (fun _ _ t ↦ Conserved t ∧ R t) m s := by
  refine Act.wp_bind.mpr (Engine.wp_reconcileDeadNodes_of_noStale
    (fun m c env s h ↦ (hadm m c env s h).2) ?_)
  exact Engine.wp_schedulePass (fun _ _ _ ↦ ⟨h, hs⟩) (fun _ _ ↦ ⟨h, hs⟩) fun shares _ ↦
    wp_loop hR (fun m c env s h ↦ (hadm m c env s h).1) hpre h hs
      (.passMem h.requests h.avail e clock shares _)

theorem wp_tick {e : Engine} {clock : Clock} {m : Mem} (hpre : e.cfg.enablePreemption = false)
    (h : Conserved s) :
    Wp (fun m c env s ↦ OnlyScheduleFails m c env s ∧ NoStale m c env s) (e.tick clock)
      (fun _ _ t ↦ Conserved t) m s := by
  have hR : Kept fun _ ↦ True := ⟨fun _ _ h ↦ h, fun _ _ _ _ h ↦ h⟩
  exact (wp_tick_keeping hR (fun _ _ _ _ h ↦ h) hpre h trivial).mono fun _ _ _ _ h ↦ h.1

end Conserved

/-! ## Whole runs -/

/-- Every operation of a well-behaved run keeps the invariant. -/
theorem WellBehaved.conserved_step {ids : String → Prop} (hids : ¬ ids "") {s t : Store}
    (hs : WellBehaved ids s t) (h : Conserved s) : Conserved t := by
  have hok : ¬ CanFail NoError := not_canFail fun _ _ _ _ h ↦ h
  -- a report or a cancel request leaves nothing half done
  have hdone : ∀ {s s' s'' : Store}, (s' = s'' ∨ (CanFail NoError ∧ s' = s)) → s' = s'' :=
    fun h ↦ h.resolve_right fun hf ↦ hok hf.1
  have hstatus : ∀ {id : String} {st : NodeStatus} {r : Api.Response} {s t : Store},
      Conserved s → Runs NoError (Api.setNodeStatus id st) s r t → Conserved t := fun h hr ↦
    hr.final (Api.wp_setNodeStatus (fun _ ↦ h)
      (h.modifyNode rfl (fun _ _ _ _ ↦ rfl) fun _ _ ↦ rfl))
  cases hs with
  | @register req r hid hcap hsame hr =>
      have hne : req.nodeID ≠ "" := fun heq ↦ hids (heq ▸ hid)
      exact hr.final (Grpc.wp_register (fun _ _ ↦ h) fun now ↦ h.register hne hcap hsame now)
  | submit _ hr => exact hr.final (Api.wp_handleSubmitJob (fun _ ↦ h) fun _ hv hs ↦ h.submit hv hs)
  | tick hpre hr => exact hr.final (h.wp_tick hpre)
  | @running req job r hst hjob hsched hr =>
      have hid : job.jobID = req.jobID := Table.key_of_find? hjob
      refine hr.final (Grpc.wp_updateJobStatus (fun _ _ ↦ h) (fun _ _ _ now _ ↦ ?_)
        fun _ _ hst' ↦ ?_)
      · rw [← hid] at hjob ⊢
        exact h.updateStatus hjob (by rw [hsched]; rfl)
      · rw [hst] at hst'
        rcases hst' with h | h <;> cases h
  | @finished req job r hst hjob hact hr =>
      have hid : job.jobID = req.jobID := Table.key_of_find? hjob
      have hend : req.status.isActive = false := by rcases hst with hst | hst <;> rw [hst] <;> rfl
      refine hr.final (Grpc.wp_updateJobStatus (fun _ _ ↦ h) (fun _ _ hst' ↦ ?_)
        fun job' hjob' _ s' _ hs' ↦ ⟨fun now _ ↦ ?_, fun hf ↦ absurd hf hok⟩)
      · rw [hst'] at hend
        cases hend
      · rw [hjob, Option.some.injEq] at hjob'
        subst hjob'
        rw [hdone hs', ← hid]
        exact h.release (hid ▸ hjob) hact hend
  | @cancel id r hr =>
      refine hr.final (Api.wp_handleCancelJob (fun _ _ ↦ h) fun job hjob hterm s' _ hs' ↦
        ⟨fun now ↦ ?_, fun hf ↦ absurd hf hok⟩)
      have hid : job.jobID = id := Table.key_of_find? hjob
      rw [hdone hs', ← hid]
      rw [← hid] at hjob
      cases hact : job.status.isActive with
      | false =>
          rw [if_neg (by simp)]
          exact h.updateStatus hjob hact
      | true =>
          rw [if_pos rfl]
          exact h.release hjob hact rfl
  | cordon hr => exact hstatus h hr
  | drain hr => exact hstatus h hr
  | uncordon hr => exact hstatus h hr
  | heartbeat hr =>
      exact hr.final (Grpc.wp_heartbeat (fun _ ↦ h) fun _ now _ _ ↦
        h.modifyNode rfl (fun _ _ _ _ ↦ rfl) fun _ _ ↦ rfl)

/-- **Conservation of resources.**  In every state of a well-behaved run in which no node
registers under the empty ID, no availability is negative, and it is the capacity minus the
requests of the jobs scheduled or running on the node. -/
theorem WellBehaved.conserved {ids : String → Prop} (hids : ¬ ids "") {s : Store}
    (h : Relation.ReflTransGen (WellBehaved ids) Store.empty s) :
    ∀ n ∈ s.nodes.rows, ∀ d, 0 ≤ n.avail d ∧ n.avail d = n.cap d - s.load n.nodeID d := by
  have hc : Conserved s := by
    induction h with
    | refl => exact .empty
    | tail _ hs ih => exact hs.conserved_step hids ih
  exact fun n hn d ↦ ⟨hc.avail n hn d, hc.accounted n hn d⟩

/-! ## The life of one job

A node registers under a given ID, and a job that asks for one GPU is submitted, placed and
reported completed. -/

section OneJob

/-- First fit without preemption. -/
def plain : Engine := ⟨.firstFit, ⟨1, 100, false, 100⟩⟩

/-- A submission that asks for one GPU. -/
def oneGPU : Api.SubmitJobRequest :=
  { userID := "user", priority := 1, gpuCount := 1, cpuCount := 0, memoryGB := 0 }

def OneJob.registered (id : String) : Store :=
  (runOp (Grpc.register ⟨id, "host", ⟨2, 0, 0⟩⟩) calm Store.empty).2

def OneJob.submitted (id : String) : Store :=
  (runOp (Api.handleSubmitJob oneGPU "job" 1 3) calm (registered id)).2

def OneJob.placed (id : String) : Store := (runOp (plain.tick ⟨2, 2⟩) calm (submitted id)).2

def OneJob.completed (id : String) : Store :=
  (runOp (Grpc.updateJobStatus ⟨"job", id, .completed⟩) calm (placed id)).2

/-- The four operations are operations of a well-behaved run. -/
theorem OneJob.reach {ids : String → Prop} {id : String} (hid : ids id)
    (hreg : (Grpc.register ⟨id, "host", ⟨2, 0, 0⟩⟩ default).Admits Store.exec NoError calm
      Store.empty)
    (hsub : (Api.handleSubmitJob oneGPU "job" 1 3 default).Admits Store.exec NoError calm
      (registered id))
    (htick : (plain.tick ⟨2, 2⟩ default).Admits Store.exec
      (fun m c env s ↦ OnlyScheduleFails m c env s ∧ NoStale m c env s) calm (submitted id))
    (hdone : (Grpc.updateJobStatus ⟨"job", id, .completed⟩ default).Admits Store.exec NoError calm
      (placed id))
    (hact : ∃ job, (placed id).jobs.find? "job" = some job ∧ job.status.isActive = true) :
    Relation.ReflTransGen (WellBehaved ids) Store.empty (completed id) := by
  obtain ⟨job, hjob, hact⟩ := hact
  have h₁ : WellBehaved ids Store.empty (registered id) :=
    .register hid (show ∀ d, 0 ≤ (⟨2, 0, 0⟩ : ResourceRequest).amount d by decide)
      (fun n hn ↦ by cases hn) (runs_runOp hreg)
  have h₂ : WellBehaved ids (registered id) (submitted id) := .submit rfl (runs_runOp hsub)
  have h₃ : WellBehaved ids (submitted id) (placed id) := .tick rfl (runs_runOp htick)
  have hr : Runs NoError (Grpc.updateJobStatus ⟨"job", id, .completed⟩) (placed id) _
      (completed id) := runs_runOp hdone
  have h₄ : WellBehaved ids (placed id) (completed id) := by
    refine .finished ?_ ?_ hact hr
    · exact .inl rfl
    · exact hjob
  exact (((Relation.ReflTransGen.single h₁).tail h₂).tail h₃).tail h₄

/-- Under a proper ID the GPU comes back. -/
theorem WellBehaved.conserved_named :
    Relation.ReflTransGen (WellBehaved (· ≠ "")) Store.empty (OneJob.completed "n") ∧
      ∀ n ∈ (OneJob.completed "n").nodes.rows, ∀ d, 0 ≤ n.avail d ∧
        n.avail d = n.cap d - (OneJob.completed "n").load n.nodeID d := by
  have h : Relation.ReflTransGen (WellBehaved (· ≠ "")) Store.empty (OneJob.completed "n") :=
    OneJob.reach (by decide) (by decide +kernel) (by decide +kernel) (by decide +kernel)
      (by decide +kernel) ⟨_, rfl, by decide +kernel⟩
  exact ⟨h, WellBehaved.conserved (fun h ↦ h rfl) h⟩

/-- Under the empty ID the GPU is lost: the job is over, and one of two GPUs is available. -/
theorem WellBehaved.not_conserved_unnamed :
    Relation.ReflTransGen (WellBehaved fun _ ↦ True) Store.empty (OneJob.completed "") ∧
      ∃ n ∈ (OneJob.completed "").nodes.rows,
        n.avail .gpu ≠ n.cap .gpu - (OneJob.completed "").load n.nodeID .gpu :=
  ⟨OneJob.reach trivial (by decide +kernel) (by decide +kernel) (by decide +kernel)
    (by decide +kernel) ⟨_, rfl, by decide +kernel⟩, by decide +kernel⟩

end OneJob

end GpuScheduler
