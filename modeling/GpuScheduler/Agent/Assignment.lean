import GpuScheduler.Agent.Protocol
import GpuScheduler.Api.Rules
import GpuScheduler.Concurrent.OperationSpec
import GpuScheduler.Scheduler.PassSpec

/-!
# Status and assignment

Two columns of a job's row belong together: an active job is on a node, a queued one is not.
`Schedule` and `Requeue` write both; `UpdateStatus` writes the status only, and the report of an
agent that lost the job in the meantime makes the job *running* on no node.  Such a job is not in
the `running` map of any pass and not on any node that could be lost.

`assigned_of_inPlace` says what keeps the two columns together: no job is reported running while
it is on no node, and no node has the empty ID.
-/

namespace GpuScheduler

open Lib Models Scheduler

/-- Status and assignment of the row agree. -/
structure Models.Job.Assigned (j : Job) : Prop where
  active : j.status.isActive = true → j.nodeID ≠ ""
  queued : j.status = .queued → j.nodeID = ""

/-- They agree in every row, and every node has a proper ID. -/
structure Store.Assigned (s : Store) : Prop where
  jobs : ∀ j ∈ s.jobs.rows, j.Assigned
  nodes : ∀ n ∈ s.nodes.rows, n.nodeID ≠ ""

namespace Assignment

variable {s : Store} {c : Call} {env : Env}

/-! ## The calls -/

/-- What a call needs to keep status and assignment together. -/
def Allowed : Call → Store → Prop
  | .jobsCreate j, _ => j.status.isActive = false
  | .jobsUpdateStatus id st, s => ∀ j, s.jobs.find? id = some j →
      (st.isActive = true → j.nodeID ≠ "") ∧ (st = .queued → j.nodeID = "")
  | .jobsSchedule _ nodeID, _ => nodeID ≠ ""
  | .jobsRequeue _ st, _ => st.isActive = false
  | .nodesUpsert n, _ => n.nodeID ≠ ""
  | _, _ => True

theorem call (h : s.Assigned) (c : Call) (env : Env) (ha : Allowed c s) :
    (Store.exec c env s).2.Assigned := by
  constructor
  · refine Store.forall_jobs_exec h.jobs (fun j hj ↦ ?_) fun j hc ↦ ?_
    · cases c with
      | jobsUpdateStatus id st =>
          simp only [Call.onJob]
          split
          · rename_i hid
            obtain ⟨hactive, hqueued⟩ := ha j (hid ▸ Table.find?_key hj)
            exact ⟨hactive, hqueued⟩
          · exact h.jobs j hj
      | jobsSchedule id nodeID =>
          simp only [Call.onJob]
          split
          · exact ⟨fun _ ↦ ha, fun hq ↦ by cases hq⟩
          · exact h.jobs j hj
      | jobsRequeue id st =>
          simp only [Call.onJob]
          split
          · refine ⟨fun hact ↦ ?_, fun _ ↦ rfl⟩
            rw [show (j.requeued st).status = st from rfl, show st.isActive = false from ha] at hact
            cases hact
          · exact h.jobs j hj
      | _ => exact h.jobs j hj
    · subst hc
      refine ⟨fun hact ↦ ?_, fun _ ↦ rfl⟩
      rw [show j.created.status = j.status from rfl, show j.status.isActive = false from ha] at hact
      cases hact
  · refine Store.forall_nodes_exec h.nodes (fun n hn ↦ ?_) fun n hc ↦ ?_
    · rw [Call.nodeID_onNode]
      exact h.nodes n hn
    · subst hc
      exact ha

/-- A final status does not touch the assignment. -/
theorem allowed_final {id : String} {st : JobStatus} (hst : st.isTerminal = true) :
    Allowed (.jobsUpdateStatus id st) s := by
  refine fun j _ ↦ ⟨fun hact ↦ ?_, fun hq ↦ ?_⟩
  · rw [JobStatus.isActive_of_isTerminal hst] at hact
    cases hact
  · rw [hq] at hst
    cases hst

/-! ## A pass -/

/-- What a pass learns from an answer. -/
def Answer : (c : Call) → c.Ret → Store → Prop
  | .nodesList, .ok ns, _ => ∀ n ∈ ns, n.nodeID ≠ ""
  | .jobsListByStatuses _, .ok js, _ => (js.map Job.jobID).Nodup
  | .jobsRequeue id _, .ok _, s => ∀ j, s.jobs.find? id = some j → j.nodeID = ""
  | _, _, _ => True

theorem answer_exec (h : s.Assigned) :
    Answer c (Store.exec c env s).1 (Store.exec c env s).2 := by
  refine Store.exec_elim (P := Answer c) (by cases c <;> trivial) ?_
  cases c with
  | nodesList => exact fun n hn ↦ h.nodes n (mem_sliceStable.mp hn)
  | jobsListByStatuses ss => exact s.nodup_listByStatuses ss
  | jobsRequeue id st =>
      intro j hj
      simp only [Store.perform, Store.requeue, Table.find?_modify_self] at hj
      obtain ⟨j₀, -, rfl⟩ := Option.map_eq_some_iff.mp hj
      rfl
  | _ => trivial

/-- Every call of a pass is allowed: it places jobs on nodes it has read, and a victim returns to
the queue only after its assignment was cleared. -/
def passSpec : PassSpec (.solo Store.exec Anything Store.Assigned) where
  nodeOK n _ := n.nodeID ≠ ""
  jobOK _ _ := True
  allowed := Allowed
  answer := Answer
  node_stable h _ _ := h
  job_stable h _ _ := h
  answer_stable {c r s t} h hst _ := by
    obtain rfl : s = t := hst
    exact h
  held _ _ := trivial
  call h ha _ := ⟨Assignment.call h _ _ ha, trivial, answer_exec h⟩
  node_call h _ _ _ := h
  job_call h _ _ _ _ := h
  reserve h _ _ := h
  release h _ := h
  nodes h := h
  queued _ _ _ := trivial
  active h := ⟨h, fun _ _ ↦ trivial⟩
  read {c s} hc := by
    simp only [List.mem_cons, List.not_mem_nil, or_false] at hc
    rcases hc with rfl | rfl | rfl | rfl <;> trivial
  markStaleDown _ _ := trivial
  record _ _ := trivial
  schedule hn _ _ := hn
  updateAvailability _ := trivial
  requeue _ st hst := by rcases hst with rfl | rfl <;> rfl
  requeued _ h j hj := ⟨fun hact ↦ absurd hact (by decide), fun _ ↦ h j hj⟩
  failed _ := allowed_final rfl

/-! ## Whole operations -/

/-- What the operation needs to keep status and assignment together. -/
def Proper : Operation → Store → Prop
  | .register req, _ => req.nodeID ≠ ""
  | .report req, s => req.status = .running → ∀ j, s.jobs.find? req.jobID = some j → j.nodeID ≠ ""
  | _, _ => True

variable {t : Store} {op : Operation}

theorem release (h : s.Assigned) (job : Job) : (s.release job).Assigned := by
  rw [Store.release]
  split
  · split
    · exact h
    · exact call h (.nodesUpdateAvailability _ _ _ _) ⟨false, 0⟩ trivial
  · exact h

theorem updateStatus_final (h : s.Assigned) (id : String) {st : JobStatus}
    (hst : st.isTerminal = true) (now : Time) : (s.updateStatus id st now).Assigned :=
  call h (.jobsUpdateStatus id st) ⟨false, now⟩ (allowed_final hst)

/-- The calls that can be told in advance. -/
theorem allowed_of_mayIssue (hop : Proper op s) {c : Call} (hc : op.MayIssue c) :
    Allowed c t := by
  cases op with
  | tick _ _ | report _ | cancel _ => exact absurd hc id
  | submit req newID now retries =>
      obtain ⟨-, rfl⟩ := hc
      rfl
  | register req =>
      obtain rfl := hc
      exact hop
  | assignments _ | markStaleDown _ =>
      obtain rfl := hc
      trivial
  | heartbeat _ | cordon _ | drain _ | uncordon _ => rcases hc with rfl | rfl <;> trivial

/-- A whole operation keeps status and assignment together. -/
theorem runs (h : s.Assigned) (hop : Proper op s) (hr : op.Runs Anything s t) : t.Assigned := by
  rcases op.issues with hissues | ⟨e, clock, rfl⟩ | ⟨req, rfl⟩ | ⟨id, rfl⟩
  · have hwp : op.thread.wp (.solo Store.exec Anything Store.Assigned) (fun _ _ ↦ True) s :=
      Prog.wp_of_issues hissues fun m c s' hc hs' ↦ ⟨trivial, fun env _ ↦
        ⟨call hs' c env (allowed_of_mayIssue hop hc.2), trivial⟩⟩
    exact hr.inv hwp h
  · have hwp : (Operation.tick e clock).thread.wp (.solo Store.exec Anything Store.Assigned)
        (fun _ _ ↦ True) s := Act.wp_thread (fun _ _ _ _ _ ↦ trivial) passSpec.wp_tick
    exact hr.inv hwp h
  · refine hr.final (wp_thread_alone (Grpc.wp_updateJobStatus (fun _ _ ↦ h) ?_ ?_))
    · intro job _ hst now _
      refine call h (.jobsUpdateStatus req.jobID .running) ⟨false, now⟩ fun j hj ↦ ?_
      exact ⟨fun _ ↦ hop hst j hj, fun hq ↦ by cases hq⟩
    · intro job _ hst s' _ hs'
      have hs' : s'.Assigned := by
        rcases hs' with rfl | ⟨-, rfl⟩
        · exact release h job
        · exact h
      refine ⟨fun now _ ↦ updateStatus_final hs' req.jobID ?_ now, fun _ _ ↦ hs'⟩
      rcases hst with hst | hst <;> rw [hst] <;> rfl
  · refine hr.final (wp_thread_alone (Api.wp_handleCancelJob (fun _ _ ↦ h) ?_))
    intro job _ _ s' _ hs'
    have hs' : s'.Assigned := by
      rcases hs' with rfl | ⟨-, rfl⟩
      · split
        · exact release h job
        · exact h
      · exact h
    exact ⟨fun now ↦ updateStatus_final hs' id rfl now, fun _ _ ↦ hs'⟩

end Assignment

/-! ## Runs of the protocol -/

/-- Nodes register with a proper ID, and a report that a job runs is served only while the job is
on a node. -/
def InPlace : World → Event → Prop
  | _, .operate (.register req) _ => req.nodeID ≠ ""
  | w, .deliver req _ => req.status = .running →
      ∀ j ∈ w.store.jobs.rows, j.jobID = req.jobID → j.nodeID ≠ ""
  | _, _ => True

instance (w : World) : (ev : Event) → Decidable (InPlace w ev)
  | .operate (.register req) _ => inferInstanceAs (Decidable (req.nodeID ≠ ""))
  | .deliver req _ => inferInstanceAs (Decidable (req.status = .running →
      ∀ j ∈ w.store.jobs.rows, j.jobID = req.jobID → j.nodeID ≠ ""))
  | .operate (.tick _ _) _ | .operate (.report _) _ | .operate (.cancel _) _
  | .operate (.submit _ _ _ _) _ | .operate (.heartbeat _) _ | .operate (.assignments _) _
  | .operate (.cordon _) _ | .operate (.drain _) _ | .operate (.uncordon _) _
  | .operate (.markStaleDown _) _ | .poll _ _ | .claim _ _ | .start _ | .finish _ _ | .stop _ =>
      .isTrue trivial

/-- The condition on an operation, read off the event. -/
theorem InPlace.proper {w : World} {op : Operation} {ω : Nat → Env}
    (h : InPlace w (.operate op ω)) (hop : op.isReport = false) :
    Assignment.Proper op w.store := by
  cases op with
  | register req => exact h
  | report req => cases hop
  | _ => trivial

/-- Polling does not change the store. -/
theorem store_poll (w : World) (nodeID : String) (ω : Nat → Env) :
    (w.next (.poll nodeID ω)).store = w.store := by
  rcases w.next_poll nodeID ω with heq | heq <;> rw [heq]

/-- One step of the protocol. -/
theorem Store.Assigned.next {w : World} {ev : Event} (h : w.store.Assigned) (he : w.Enabled ev)
    (hk : InPlace w ev) : (w.next ev).store.Assigned := by
  cases ev with
  | operate op ω => exact Assignment.runs h (hk.proper he) (op.runs_anything ω w.store)
  | poll nodeID ω =>
      rw [store_poll]
      exact h
  | claim _ _ | start _ | finish _ _ | stop _ => exact h
  | deliver req ω =>
      have hop : Assignment.Proper (.report req) w.store := fun hst j hj ↦
        hk hst j (Table.mem_of_find? hj) (Table.key_of_find? hj)
      exact Assignment.runs h hop ((Operation.report req).runs_anything ω w.store)

/-- **Status and assignment stay together.**  Any operations are carried out in any order, any of
their calls fail, and reports are served at any time after they were sent.  If nodes register with
proper IDs and no job is reported running while it is on no node, then at any time every active
job is on a node and every queued one is not. -/
theorem assigned_of_inPlace {w : World} (h : protocol.Reach InPlace World.initial w) :
    ∀ j ∈ w.store.jobs.rows,
      (j.status.isActive = true → j.nodeID ≠ "") ∧ (j.status = .queued → j.nodeID = "") := by
  have hw : w.store.Assigned := by
    refine h.induct (I := fun w ↦ w.store.Assigned) ⟨?_, ?_⟩ fun w ev hw he hk ↦ hw.next he hk
    · exact fun _ hj ↦ absurd hj List.not_mem_nil
    · exact fun _ hn ↦ absurd hn List.not_mem_nil
  exact fun j hj ↦ ⟨(hw.jobs j hj).active, (hw.jobs j hj).queued⟩

namespace Assignment

/-- A job is placed on a node, and the agent sends its report that the job runs. -/
def started : List Event :=
  [Small.register "a" 1, Small.submit, Small.tick 1, .poll "a" (steady 1), .claim "a" "job",
    .start ⟨"a", "job", false⟩]

/-- The report is served at once. -/
def reported : World :=
  protocol.play World.initial (started ++ [.deliver ⟨"job", "a", .running⟩ (steady 2)])

end Assignment

/-- The report arrives while the job is on the node. -/
theorem assigned_of_inPlace_started :
    protocol.Reach InPlace World.initial Assignment.reported ∧
      ∀ j ∈ Assignment.reported.store.jobs.rows,
        (j.status.isActive = true → j.nodeID ≠ "") ∧ (j.status = .queued → j.nodeID = "") := by
  have h : protocol.Reach InPlace World.initial Assignment.reported :=
    Machine.reach_play (by decide +kernel)
  exact ⟨h, assigned_of_inPlace h⟩

/-- **A late report makes a job run nowhere.**  The node is taken for lost and the job goes back to
the queue; then the report arrives. -/
theorem late_report_runs_nowhere :
    ∃ w : World, protocol.Reach World.Free World.initial w ∧
      ∃ j ∈ w.store.jobs.rows, j.status = .running ∧ j.nodeID = "" :=
  ⟨protocol.play World.initial (Assignment.started ++
      [Small.tick 60, .deliver ⟨"job", "a", .running⟩ (steady 61)]),
    Machine.reach_play (by decide +kernel), by decide +kernel⟩

end GpuScheduler
