import GpuScheduler.Agent.Protocol
import GpuScheduler.Api.Rules

/-!
# Reports from a node that lost the job

A job that is preempted, or whose node is lost, goes back to the queue and perhaps to another node,
while the agent that had it goes on executing and reporting.  `UpdateJobStatus` does not compare
the node of the report with the node of the job, so such a report is served like any other.

`untouched_iff` says when it makes no difference: hardly ever.
-/

namespace GpuScheduler

open Lib Models

/-- The report is in flight, and the job is not on the node that sent it. -/
structure World.Outdated (w : World) (req : Grpc.JobStatusUpdate) (job : Job) : Prop where
  inFlight : req ∈ w.inFlight
  row : w.store.jobs.find? req.jobID = some job
  elsewhere : job.nodeID ≠ req.nodeID

/-- The row of the job and the availability of every node are as before. -/
structure Untouched (id : String) (s t : Store) : Prop where
  row : t.jobs.find? id = s.jobs.find? id
  avail : ∀ nodeID, (t.nodes.find? nodeID).map Node.avail = (s.nodes.find? nodeID).map Node.avail

/-! ## What serving a report changes -/

variable {s : Store} {job : Job}

/-- What a report does when its calls succeed at the time `now`. -/
theorem run_report {req : Grpc.JobStatusUpdate} (hj : s.jobs.find? req.jobID = some job)
    (hst : req.status ∈ [JobStatus.running, .completed, .failed]) (now : Time) :
    (Operation.report req).run (steady now) s =
      (if req.status = .running then s else s.release job).updateStatus
        req.jobID req.status now := by
  have hadm : (Operation.report req).thread.Admits Store.exec
      (fun _ _ e _ ↦ e = ⟨false, now⟩) (steady now) s := Prog.admits_of_forall fun _ _ _ _ ↦ rfl
  have hok : ¬ CanFail (fun _ _ e _ ↦ e = ⟨false, now⟩) := not_canFail fun _ _ e _ h ↦ by
    subst h
    rfl
  obtain ⟨now', ⟨_, _, _, hnow⟩, ht⟩ := (Operation.runs_run hadm).final
    (wp_thread_alone (Grpc.wp_updateJobStatus_ok hok hj hst))
  obtain rfl : now' = now := congrArg Env.now hnow
  exact ht

/-- The row after a status is written. -/
theorem find?_updateStatus_self {id : String} (hj : s.jobs.find? id = some job) (st : JobStatus)
    (now : Time) : (s.updateStatus id st now).jobs.find? id = some (job.withStatus st now) := by
  rw [Store.jobs_updateStatus, Table.find?_modify_self, hj, Option.map_some]

/-- A job is not changed by being reported running if and only if that is recorded already. -/
theorem withStatus_running_eq_iff (now : Time) :
    job.withStatus .running now = job ↔ job.status = .running ∧ job.startedAt ≠ none := by
  constructor
  · intro h
    refine ⟨(congrArg Job.status h).symm, fun hnone ↦ ?_⟩
    have hstarted := congrArg Job.startedAt h
    simp [Job.withStatus, hnone] at hstarted
  · rintro ⟨hst, hsome⟩
    cases job
    simp_all [Job.withStatus, JobStatus.isTerminal]

/-- A job is not changed by a final status if and only if it got that status at this very time. -/
theorem withStatus_final_eq_iff {st : JobStatus} (hst : st.isTerminal = true) (now : Time) :
    job.withStatus st now = job ↔ job.status = st ∧ job.completedAt = some now := by
  have hne : st ≠ .running := by
    rintro rfl
    cases hst
  constructor
  · intro h
    refine ⟨(congrArg Job.status h).symm, ?_⟩
    have hcompleted := congrArg Job.completedAt h
    simp only [Job.withStatus, hst, if_true] at hcompleted
    exact hcompleted.symm
  · rintro ⟨rfl, hsome⟩
    cases job
    simp_all [Job.withStatus]

/-- There is nothing to return to the node of the job: of each resource, the job asks for none or
the node has all of it available. -/
def Store.ReleaseIdle (s : Store) (job : Job) : Prop :=
  job.nodeID ≠ "" → ∀ n, s.nodes.find? job.nodeID = some n → ∀ d,
    (job.request d = 0 ∧ n.avail d ≤ n.cap d) ∨ (0 ≤ job.request d ∧ n.avail d = n.cap d)

theorem avail_release_eq_iff {n : Node} : (n.release job.resourceRequest).avail = n.avail ↔
    ∀ d, (job.request d = 0 ∧ n.avail d ≤ n.cap d) ∨
      (0 ≤ job.request d ∧ n.avail d = n.cap d) := by
  rw [funext_iff]
  refine forall_congr' fun d ↦ ?_
  rw [Node.avail_release, Job.request]
  omega

/-- Then, and only then, no availability changes. -/
theorem releaseIdle_iff : s.ReleaseIdle job ↔ ∀ nodeID,
    ((s.release job).nodes.find? nodeID).map Node.avail =
      (s.nodes.find? nodeID).map Node.avail := by
  constructor
  · intro h nodeID
    by_cases hid : nodeID = job.nodeID
    · by_cases hne : job.nodeID = ""
      · rw [Store.release_of_unassigned hne]
      · subst hid
        rw [Store.find?_release_self hne]
        cases hn : s.nodes.find? job.nodeID with
        | none => rfl
        | some n => simp only [Option.map_some, avail_release_eq_iff.mpr (h hne n hn)]
    · rw [Store.find?_release_of_ne hid]
  · intro h hne n hn
    have hnode := h job.nodeID
    rw [Store.find?_release_self hne, hn] at hnode
    exact avail_release_eq_iff.mp (Option.some.inj hnode)

/-- **When an outdated report has no effect.**  In any world that the protocol reaches, a report is
in flight from a node that the job is not on.  Serving it changes neither the row of the job nor
any availability if and only if

* it reports the job running, and the job runs (elsewhere) and has a recorded start, or
* it reports the status with which the job ended, at the very time at which that is recorded, and
  there is nothing to return to the node that the job was on. -/
theorem untouched_iff {w : World} (hw : protocol.Reach World.Free World.initial w)
    {req : Grpc.JobStatusUpdate} {job : Job} (h : w.Outdated req job) (now : Time) :
    Untouched req.jobID w.store (w.next (.deliver req (steady now))).store ↔
      (req.status = .running ∧ job.status = .running ∧ job.startedAt ≠ none) ∨
        (req.status ≠ .running ∧ job.status = req.status ∧ job.completedAt = some now ∧
          w.store.ReleaseIdle job) := by
  have hst := World.status_of_inFlight hw h.inFlight
  have hrun : (w.next (.deliver req (steady now))).store = _ := run_report h.row hst now
  rw [hrun]
  by_cases hrunning : req.status = .running
  · simp only [hrunning, if_true, ne_eq, not_true_eq_false, false_and, or_false, true_and]
    rw [← withStatus_running_eq_iff now]
    constructor
    · intro hu
      have hrow := hu.row
      rw [find?_updateStatus_self h.row, h.row] at hrow
      exact Option.some.inj hrow
    · intro heq
      exact ⟨by rw [find?_updateStatus_self h.row, h.row, heq], fun _ ↦ rfl⟩
  · have hfinal : req.status.isTerminal = true := by
      simp only [List.mem_cons, List.not_mem_nil, or_false, hrunning, false_or] at hst
      rcases hst with hst | hst <;> rw [hst] <;> rfl
    have hrow : (w.store.release job).jobs.find? req.jobID = some job := by
      rw [Store.jobs_release, h.row]
    simp only [hrunning, if_false, ne_eq, not_false_eq_true, true_and, false_and, false_or]
    rw [← and_assoc, ← withStatus_final_eq_iff hfinal now, releaseIdle_iff]
    constructor
    · intro hu
      have heq := hu.row
      rw [find?_updateStatus_self hrow, h.row] at heq
      exact ⟨Option.some.inj heq, hu.avail⟩
    · rintro ⟨heq, hidle⟩
      exact ⟨by rw [find?_updateStatus_self hrow, h.row, heq], hidle⟩

namespace StaleReport

/-- The agent of node `a` executes the job, `a` is taken for lost, the job is placed on node `b`,
and then the agent of `a` is done with it. -/
def moved : List Event :=
  [Small.register "a" 1, Small.submit, Small.tick 1, .poll "a" (steady 1), .claim "a" "job",
    .start ⟨"a", "job", false⟩, Small.register "b" 50, Small.tick 60,
    .finish ⟨"a", "job", true⟩ false]

/-- The agent of node `b` has begun as well, and its report that the job runs was served. -/
def restarted : List Event :=
  moved ++ [.poll "b" (steady 61), .claim "b" "job", .start ⟨"b", "job", false⟩,
    .deliver ⟨"job", "b", .running⟩ (steady 62)]

/-- The row of the job once it is on node `b`. -/
def row (status : JobStatus) (startedAt : Option Time) : Job where
  jobID := "job"
  userID := "user"
  status := status
  priority := 5
  gpuCount := 1
  cpuCount := 0
  memoryGB := 0
  nodeID := "b"
  retryCount := 1
  maxRetries := 3
  createdAt := 1
  startedAt := startedAt

end StaleReport

/-- That the job runs is recorded already, if of another node. -/
theorem untouched_restarted :
    Untouched "job" (protocol.play World.initial StaleReport.restarted).store
      ((protocol.play World.initial StaleReport.restarted).next
        (.deliver ⟨"job", "a", .running⟩ (steady 63))).store :=
  (@untouched_iff _ (Machine.reach_play (by decide +kernel)) ⟨"job", "a", .running⟩
    (StaleReport.row .running (some 62)) ⟨by decide +kernel, by decide +kernel, by decide⟩ 63).mpr
    (.inl ⟨rfl, rfl, by decide⟩)

/-- **An outdated report ends the job on its new node.**  Node `b` has not even begun to execute
the job when node `a` reports it completed; the report is believed, and the GPU that is held for
the job on `b` is returned. -/
theorem outdated_report_ends_job :
    ∃ w : World, protocol.Reach World.Free World.initial w ∧
      w.Outdated ⟨"job", "a", .completed⟩ (StaleReport.row .scheduled none) ∧
      (w.store.nodes.find? "b").map Node.gpuAvailable = some 1 ∧
      ¬ Untouched "job" w.store
        (w.next (.deliver ⟨"job", "a", .completed⟩ (steady 61))).store ∧
      ((w.next (.deliver ⟨"job", "a", .completed⟩ (steady 61))).store.jobs.find? "job").map
        Job.status = some .completed ∧
      ((w.next (.deliver ⟨"job", "a", .completed⟩ (steady 61))).store.nodes.find? "b").map
        Node.gpuAvailable = some 2 := by
  refine ⟨protocol.play World.initial StaleReport.moved, Machine.reach_play (by decide +kernel),
    ⟨by decide +kernel, by decide +kernel, by decide⟩, by decide +kernel, fun h ↦ ?_,
    by decide +kernel, by decide +kernel⟩
  have hrow := h.row
  revert hrow
  decide +kernel

end GpuScheduler
