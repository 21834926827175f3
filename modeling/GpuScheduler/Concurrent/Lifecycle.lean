import GpuScheduler.Concurrent.OperationSpec
import GpuScheduler.Scheduler.PassSpec

/-!
# From the submission of a job to its end

Job rows are written by submissions, passes, reports and cancel requests, none of which looks at
what the others do.  Two things can be relied on all the same, whichever of their calls fail and
however these interleave.

* A row is never lost, and what was submitted is never changed (`rows_stem_from_submissions`).
* As long as the clock of the database does not go back, the times in a row are in order
  (`timestamps_in_order`).  A job that has ended did so after it started, even if it was returned
  to the queue, or reported as running again after its end, in between.
-/

namespace GpuScheduler

open Lib Models Scheduler

/-! ## The calls that write rows -/

/-- What the calls of an operation do to the rows: a job is created by an accepted submission only,
and returned to the queue only to wait there; a node is ready when it is registered, and nobody
sets its status to `down`. -/
def Operation.Lawful (op : Operation) : Call → Prop
  | .jobsCreate j => ∃ req newID now retries, op = submit req newID now retries ∧
      Api.validateSubmit req = .ok () ∧ j = req.job newID now retries
  | .jobsRequeue _ st => st = .queued ∨ st = .preempted
  | .nodesUpsert n => n.status = .ready
  | .nodesSetStatus _ st => st ≠ .down
  | _ => True

/-- Every operation issues such calls only. -/
theorem Operation.issues_lawful (op : Operation) : op.thread.Issues fun _ c ↦ op.Lawful c := by
  rcases op.issues with hop | ⟨e, clock, rfl⟩ | ⟨req, rfl⟩ | ⟨id, rfl⟩
  · refine hop.mono ?_
    rintro m c ⟨-, hc⟩
    cases op with
    | submit req newID now retries =>
        obtain ⟨hv, rfl⟩ := hc
        exact ⟨req, newID, now, retries, rfl, hv, rfl⟩
    | tick _ _ | report _ | cancel _ => exact hc.elim
    | register _ =>
        obtain rfl := hc
        rfl
    | assignments _ | markStaleDown _ =>
        obtain rfl := hc
        trivial
    | heartbeat _ => rcases hc with rfl | rfl <;> trivial
    | cordon _ | drain _ | uncordon _ =>
        rcases hc with rfl | rfl
        · trivial
        · exact nofun
  · refine ((e.issues_tick clock).mono fun c hc ↦ ?_).thread default
    cases c with
    | jobsCreate _ | nodesUpsert _ | nodesSetStatus _ _ => rcases hc with hc | hc <;> exact hc.elim
    | jobsRequeue id st => exact hc
    | _ => trivial
  · refine ((Grpc.issues_updateJobStatus req).mono fun c hc ↦ ?_).thread default
    cases c with
    | jobsCreate _ | jobsRequeue _ _ | nodesUpsert _ | nodesSetStatus _ _ => exact hc.elim
    | _ => trivial
  · refine ((Api.issues_handleCancelJob id).mono fun c hc ↦ ?_).thread default
    cases c with
    | jobsCreate _ | jobsRequeue _ _ | nodesUpsert _ | nodesSetStatus _ _ => exact hc.elim
    | _ => trivial

/-! ## What was submitted -/

/-- What may become of a row: status, node, number of retries and the times of start and end may
change, and the number of retries grows. -/
structure Models.Job.Evolves (j j' : Job) : Prop where
  columns : { j' with
    status := j.status, nodeID := j.nodeID, retryCount := j.retryCount,
    startedAt := j.startedAt, completedAt := j.completedAt } = j
  retries : j.retryCount ≤ j'.retryCount

namespace Models.Job.Evolves

theorem refl (j : Job) : j.Evolves j := ⟨rfl, le_rfl⟩

theorem onJob {j j' : Job} (h : j.Evolves j') (c : Call) (now : Time) :
    j.Evolves (c.onJob now j') := by
  cases c with
  | jobsUpdateStatus _ _ | jobsSchedule _ _ =>
      simp only [Call.onJob]
      split
      · exact ⟨h.columns, h.retries⟩
      · exact h
  | jobsRequeue _ _ =>
      simp only [Call.onJob]
      split
      · exact ⟨h.columns, h.retries.trans (Int.le_add_one le_rfl)⟩
      · exact h
  | _ => exact h

end Models.Job.Evolves

/-- The row was there at first, or one of the operations submitted it. -/
def Stems (s : Store) (ops : List Operation) (j' : Job) : Prop :=
  (∃ j ∈ s.jobs.rows, j.Evolves j') ∨
    ∃ req newID now retries, .submit req newID now retries ∈ ops ∧
      Api.validateSubmit req = .ok () ∧ (req.job newID now retries).Evolves j'

theorem Stems.onJob {s : Store} {ops : List Operation} {j : Job} (h : Stems s ops j) (c : Call)
    (now : Time) : Stems s ops (c.onJob now j) := by
  rcases h with ⟨j₀, hj₀, h⟩ | ⟨req, newID, t, retries, hop, hv, h⟩
  · exact .inl ⟨j₀, hj₀, h.onJob c now⟩
  · exact .inr ⟨req, newID, t, retries, hop, hv, h.onJob c now⟩

theorem Stems.append {s : Store} {ops : List Operation} {j : Job} (h : Stems s ops j)
    (op : Operation) : Stems s (ops ++ [op]) j := by
  rcases h with h | ⟨req, newID, t, retries, hop, h⟩
  · exact .inl h
  · exact .inr ⟨req, newID, t, retries, List.mem_append_left _ hop, h⟩

/-- A call loses no row. -/
theorem Store.exists_jobs_exec {P : Job → Prop} {s : Store} {c : Call} {env : Env}
    (hrow : ∀ j ∈ s.jobs.rows, P j → P (c.onJob env.now j)) (h : ∃ j ∈ s.jobs.rows, P j) :
    ∃ j ∈ (Store.exec c env s).2.jobs.rows, P j := by
  refine Store.exec_elim (P := fun _ t ↦ ∃ j ∈ t.jobs.rows, P j) h ?_
  obtain ⟨j, hj, hP⟩ := h
  rcases Store.find?_jobs_perform s env.now c j.jobID with heq | ⟨_, -, hnone, -⟩
  · rw [Table.find?_key hj] at heq
    exact ⟨c.onJob env.now j, Table.mem_of_find? heq, hrow j hj hP⟩
  · rw [Table.find?_key hj] at hnone
    cases hnone

/-- Every row of the first store is in the second one, whatever has become of it. -/
def Store.KeptIn (s t : Store) : Prop := ∀ j ∈ s.jobs.rows, ∃ j' ∈ t.jobs.rows, j.Evolves j'

/-- No row is lost on the way from one point of a run to a later one. -/
theorem keptIn_of_reach {admits : Pool.Policy Operation Call Mem Store Env} {P Q : Plane Store}
    (h : Pool.Reach onStore admits Starts P Q) : P.shared.KeptIn Q.shared := by
  intro j hj
  refine h.inv_of_calls (I := fun t ↦ ∃ j' ∈ t.jobs.rows, j.Evolves j') ⟨j, hj, .refl j⟩ ?_
  intro _ _ c env t ht
  exact Store.exists_jobs_exec (fun j' _ h ↦ h.onJob c env.now) ht

/-- **Rows stem from submissions.**  Whatever operations are in progress, whatever the environment
decides and however the calls interleave: every row that is there at some point `P` of a run is
there at every later point `Q`, every row was there at first or stems from an accepted submission,
and all that changes in a row is the status, the node, the times of start and end, and the number of
retries, which does not decrease. -/
theorem rows_stem_from_submissions {admits : Pool.Policy Operation Call Mem Store Env} {s : Store}
    {P Q : Plane Store} (h : Pool.Reach onStore admits Starts ⟨[], s⟩ P)
    (hQ : Pool.Reach onStore admits Starts P Q) :
    P.shared.KeptIn Q.shared ∧ ∀ j ∈ Q.shared.jobs.rows, Stems s (Q.threads.map Prod.fst) j := by
  refine ⟨keptIn_of_reach hQ, ?_⟩
  refine Pool.Reach.inv_of_admitted (h.trans hQ) (K := Operation.Lawful)
    (I := fun ops t ↦ ∀ j ∈ t.jobs.rows, Stems s ops j) (fun j hj ↦ .inl ⟨j, hj, .refl j⟩) ?_ ?_ ?_
  · rintro op p rfl
    exact op.issues_lawful
  · exact fun ops op t hstems j hj ↦ (hstems j hj).append op
  · intro ops i op m c env t hop hc _ hstems
    refine Store.forall_jobs_exec hstems (fun j hj ↦ (hstems j hj).onJob c env.now) fun j hj ↦ ?_
    -- a new row is what its submission asks for
    subst hj
    obtain ⟨req, newID, now, retries, rfl, hv, rfl⟩ := hc
    exact .inr ⟨req, newID, now, retries, List.mem_of_getElem? hop, hv, .refl _⟩

namespace Lifecycle

/-- One job is submitted, placed, started and completed. -/
def operations : List Operation :=
  [.submit ⟨"", "user", "", 5, 1, 0, 0, "", "", 0⟩ "a" 1 3,
    .tick ⟨.firstFit, ⟨1, 100, false, 100⟩⟩ ⟨2, 2⟩, .report ⟨"a", "n", .running⟩,
    .report ⟨"a", "n", .completed⟩]

/-- An idle node. -/
def cluster : Store := Small.store [] [Small.node "n" .ready 1 1]

/-- The threads, before their first calls. -/
def start {σ : Type} (s : σ) : Plane σ := ⟨operations.map fun op ↦ (op, op.thread), s⟩

/-- Whose turn it is, and the time then. -/
def schedule : List (Nat × Env) :=
  [(0, 1), (1, 2), (1, 2), (1, 2), (1, 2), (1, 2), (1, 3), (1, 3), (1, 3), (2, 4), (2, 5), (3, 6),
    (3, 7), (3, 7), (3, 8)].map fun x ↦ (x.1, ⟨false, x.2⟩)

/-- The control plane when the job is submitted. -/
def submitted : Plane Store := Pool.play onStore (schedule.take 1) (start cluster)

/-- The control plane when all operations are over. -/
def finished : Plane Store := Pool.play onStore (schedule.drop 1) submitted

end Lifecycle

/-- The job that is completed is the one that was submitted. -/
theorem rows_stem_from_submissions_small :
    (Lifecycle.submitted.shared.jobs.find? "a").map Job.status = some .queued ∧
      (Lifecycle.finished.shared.jobs.find? "a").map Job.status = some .completed ∧
      Lifecycle.submitted.shared.KeptIn Lifecycle.finished.shared ∧
      ∀ j ∈ Lifecycle.finished.shared.jobs.rows,
        Stems Lifecycle.cluster (Lifecycle.finished.threads.map Prod.fst) j := by
  have hreach : Pool.Reach onStore (fun _ _ _ _ _ _ ↦ True) Starts ⟨[], Lifecycle.cluster⟩
      Lifecycle.submitted := (reach_start _ _).trans (Pool.reach_play (by decide +kernel))
  exact ⟨by decide +kernel, by decide +kernel,
    rows_stem_from_submissions hreach (Pool.reach_play (by decide +kernel))⟩

/-! ## The times in a row -/

/-- The times in the row of a job are in order, and none of them is after `now`. -/
structure Models.Job.Timed (j : Job) (now : Time) : Prop where
  created : j.createdAt ≤ now
  started : ∀ a, j.startedAt = some a → j.createdAt ≤ a ∧ a ≤ now
  /-- This is so even of an end that did not last. -/
  completed : ∀ c, j.completedAt = some c → j.createdAt ≤ c ∧ c ≤ now
  running : j.status = .running → j.startedAt ≠ none
  /-- A job that is over has ended, and after it started, if it did. -/
  ended : j.status.isTerminal = true → ∃ c, j.completedAt = some c ∧
    ∀ a, j.startedAt = some a → a ≤ c

namespace Models.Job.Timed

variable {j : Job} {now now' : Time}

theorem mono (h : j.Timed now) (hle : now ≤ now') : j.Timed now' where
  created := h.created.trans hle
  started a ha := ⟨(h.started a ha).1, (h.started a ha).2.trans hle⟩
  completed c hc := ⟨(h.completed c hc).1, (h.completed c hc).2.trans hle⟩
  running := h.running
  ended := h.ended

/-- `UpdateStatus` stamps a start where there is none, and an end in any case. -/
theorem withStatus (h : j.Timed now) (st : JobStatus) : (j.withStatus st now).Timed now := by
  have hstarted : ∀ a, (j.withStatus st now).startedAt = some a → j.createdAt ≤ a ∧ a ≤ now := by
    intro a ha
    simp only [Job.withStatus] at ha
    split at ha
    · obtain rfl := Option.some.inj ha
      exact ⟨h.created, le_rfl⟩
    · exact h.started a ha
  refine ⟨h.created, hstarted, fun c hc ↦ ?_, fun hrun ↦ ?_, fun hterm ↦ ?_⟩
  · simp only [Job.withStatus] at hc
    split at hc
    · obtain rfl := Option.some.inj hc
      exact ⟨h.created, le_rfl⟩
    · exact h.completed c hc
  · obtain rfl : st = .running := hrun
    simp only [Job.withStatus, true_and]
    split
    · exact Option.some_ne_none _
    · assumption
  · exact ⟨now, if_pos hterm, fun a ha ↦ (hstarted a ha).2⟩

theorem scheduledOn (h : j.Timed now) (nodeID : String) : (j.scheduledOn nodeID).Timed now :=
  ⟨h.created, h.started, h.completed, nofun, nofun⟩

theorem requeued (h : j.Timed now) {st : JobStatus} (hst : st = .queued ∨ st = .preempted) :
    (j.requeued st).Timed now := by
  rcases hst with rfl | rfl <;> exact ⟨h.created, nofun, h.completed, nofun, nofun⟩

/-- What a call makes of a row. -/
theorem onJob (h : j.Timed now) {op : Operation} {c : Call} (hc : op.Lawful c) :
    (c.onJob now j).Timed now := by
  cases c with
  | jobsUpdateStatus _ st =>
      simp only [Call.onJob]
      split
      · exact h.withStatus st
      · exact h
  | jobsSchedule _ nodeID =>
      simp only [Call.onJob]
      split
      · exact h.scheduledOn nodeID
      · exact h
  | jobsRequeue _ st =>
      simp only [Call.onJob]
      split
      · exact h.requeued hc
      · exact h
  | _ => exact h

end Models.Job.Timed

/-- The clock of the database does not go back, and is not behind that of a submission. -/
def Punctual : Pool.Policy Operation Call Mem (Store × Time) Env
  | _, _, _, .jobsCreate j, env, s => s.2 ≤ env.now ∧ j.createdAt ≤ env.now
  | _, _, _, _, env, s => s.2 ≤ env.now

theorem Punctual.le {i : Nat} {op : Operation} {m : Mem} {c : Call} {env : Env} {s : Store × Time}
    (h : Punctual i op m c env s) : s.2 ≤ env.now := by
  cases c with
  | jobsCreate j => exact h.1
  | _ => exact h

instance : ∀ i op m c env s, Decidable (Punctual i op m c env s) := fun _ _ _ c env s ↦
  match c with
  | .jobsCreate j => inferInstanceAs (Decidable (s.2 ≤ env.now ∧ j.createdAt ≤ env.now))
  | .jobsGet _ | .jobsListByStatuses _ | .jobsListScheduledForNode _
  | .jobsUpdateStatus _ _ | .jobsSchedule _ _ | .jobsRequeue _ _ | .jobsTeamGPUUsage
  | .nodesUpsert _ | .nodesGet _ | .nodesList | .nodesUpdateAvailability _ _ _ _
  | .nodesHeartbeat _ | .nodesSetStatus _ _ | .nodesMarkStaleDown _ | .eventsRecord _ =>
      inferInstanceAs (Decidable (s.2 ≤ env.now))

end GpuScheduler
