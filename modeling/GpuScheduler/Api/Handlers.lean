import GpuScheduler.Store.Program

/-!
# The REST handlers

`internal/api/handlers.go`: submitting and cancelling jobs, and an operator's control of nodes.
Parsing and rendering of JSON is left out; a response is its status code with what the body says.
-/

namespace GpuScheduler.Api

open Lib Models

/-- The responses of the handlers modelled here. -/
inductive Response
  /-- `400` with an error text. -/
  | badRequest (error : String)
  /-- `404` with an error text. -/
  | notFound (error : String)
  /-- `409` with an error text and the job's status. -/
  | conflict (error : String) (status : JobStatus)
  /-- `500` with an error text. -/
  | internalServerError (error : String)
  /-- `201` with the job. -/
  | created (job : Job)
  /-- `200`. -/
  | ok
deriving DecidableEq, Repr

/-- `SubmitJobRequest`. -/
structure SubmitJobRequest where
  name : String := ""
  userID : String
  teamID : String := ""
  priority : Int
  gpuCount : Int
  cpuCount : Int
  memoryGB : Int
  image : String := ""
  command : String := ""
  maxRetries : Int := 0
deriving DecidableEq, Repr

/-- Confine a value to an interval. -/
def clamp (v lo hi : Int) : Int := if v < lo then lo else if v > hi then hi else v

/-- The checks on a submission. -/
def validateSubmit (r : SubmitJobRequest) : Except String Unit :=
  if r.userID = "" then .error "user_id is required"
  else if r.gpuCount < 0 || r.cpuCount < 0 || r.memoryGB < 0 then
    .error "resource requests must be non-negative"
  else if r.gpuCount = 0 && r.cpuCount = 0 then
    .error "job must request at least one GPU or CPU"
  else if r.gpuCount > 64 then .error "gpu_count exceeds maximum of 64"
  else .ok ()

/-- An accepted submission asks for nothing negative. -/
theorem nonneg_of_validateSubmit {r : SubmitJobRequest} (h : validateSubmit r = .ok ()) :
    0 ≤ r.gpuCount ∧ 0 ≤ r.cpuCount ∧ 0 ≤ r.memoryGB := by
  rw [validateSubmit] at h
  split at h
  · cases h
  · split at h
    · cases h
    · rename_i hneg
      simp only [Bool.or_eq_true, decide_eq_true_eq] at hneg
      omega

/-- The job a submission creates; `newID` is the generated UUID, `now` the time of submission and
`defaultRetries` the configured retry budget. -/
def SubmitJobRequest.job (r : SubmitJobRequest) (newID : String) (now : Time)
    (defaultRetries : Int) : Job where
  jobID := newID
  name := r.name
  userID := r.userID
  teamID := r.teamID
  status := .queued
  priority := clamp r.priority 0 10
  gpuCount := r.gpuCount
  cpuCount := r.cpuCount
  memoryGB := r.memoryGB
  image := r.image
  command := r.command
  nodeID := ""
  retryCount := 0
  maxRetries := if r.maxRetries ≤ 0 then defaultRetries else r.maxRetries
  createdAt := now

/-- The job of an accepted submission asks for nothing negative. -/
theorem request_nonneg_of_validateSubmit {r : SubmitJobRequest} (h : validateSubmit r = .ok ())
    {newID : String} {now : Time} {defaultRetries : Int} (d : Resource) :
    0 ≤ (r.job newID now defaultRetries).request d := by
  obtain ⟨hg, hc, hm⟩ := nonneg_of_validateSubmit h
  cases d with
  | gpu => exact hg
  | cpu => exact hc
  | memory => exact hm

/-- Validate and enqueue a new job. -/
def handleSubmitJob (r : SubmitJobRequest) (newID : String) (now : Time) (defaultRetries : Int) :
    StoreM Response := do
  match validateSubmit r with
  | .error err => pure (.badRequest err)
  | .ok _ => do
    let job := r.job newID now defaultRetries
    match ← Jobs.create job with
    | .error _ => pure (.internalServerError "failed to create job")
    | .ok _ => pure (.created job)

/-- The end of `handleCancelJob`. -/
def finishCancel (job : Job) : StoreM Response := do
  match ← Jobs.updateStatus job.jobID .cancelled with
  | .error _ => pure (.internalServerError "failed to cancel job")
  | .ok _ => pure .ok

/-- Cancel a job, releasing its resources if it was placed. -/
def handleCancelJob (id : String) : StoreM Response := do
  match ← Jobs.get id with
  | .error .notFound => pure (.notFound "job not found")
  | .error .failure => pure (.internalServerError "failed to fetch job")
  | .ok job =>
    if job.status.isTerminal then pure (.conflict "job already in terminal state" job.status)
    else if job.status.isActive && job.nodeID ≠ "" then do
      match ← Nodes.get job.nodeID with
      | .error _ => finishCancel job
      | .ok node => do
        let node := node.release job.resourceRequest
        Act.modify fun m ↦ { m with nodes := [node] }
        let _ ← Nodes.updateAvailability node
        finishCancel job
    else finishCancel job

/-- Set a node's status on behalf of an operator. -/
def setNodeStatus (id : String) (status : NodeStatus) : StoreM Response := do
  match ← Nodes.get id with
  | .error .notFound => pure (.notFound "node not found")
  | _ => do
    match ← Nodes.setStatus id status with
    | .error _ => pure (.internalServerError "failed to update node")
    | .ok _ => pure .ok

def handleCordonNode (id : String) : StoreM Response := setNodeStatus id .cordoned

def handleDrainNode (id : String) : StoreM Response := setNodeStatus id .draining

def handleUncordonNode (id : String) : StoreM Response := setNodeStatus id .ready

end GpuScheduler.Api
