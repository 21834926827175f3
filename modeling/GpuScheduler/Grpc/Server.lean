import GpuScheduler.Store.Program

/-!
# The control-plane gRPC server

`internal/grpc/server.go`: what node agents call to register, heartbeat, fetch assignments and
report status.  `StreamLogs`, which touches Redis only, is in `GpuScheduler.Grpc.Logs`.

A status report carries the status as a string; one that is none of the seven known statuses is
refused like the four that `UpdateJobStatus` does not list.
-/

namespace GpuScheduler.Grpc

open Lib Models

/-- What a remote call returns when it does not succeed. -/
inductive RpcError
  /-- An error of the store, passed on. -/
  | store (err : StoreError)
  /-- `unsupported status transition`. -/
  | unsupportedStatus (status : JobStatus)
deriving DecidableEq, Repr

/-- `RegisterRequest`. -/
structure RegisterRequest where
  nodeID : String
  hostname : String
  capacity : ResourceRequest

/-- `JobStatusUpdate`.  `nodeID` is the reporting agent's own node; the server only logs it. -/
structure JobStatusUpdate where
  jobID : String
  nodeID : String
  status : JobStatus
deriving DecidableEq, Repr

/-- The row a registration asks for: a ready node, all of whose capacity is available. -/
def RegisterRequest.node (req : RegisterRequest) : Node where
  nodeID := req.nodeID
  hostname := req.hostname
  status := .ready
  gpuCapacity := req.capacity.gpu
  gpuAvailable := req.capacity.gpu
  cpuCapacity := req.capacity.cpu
  cpuAvailable := req.capacity.cpu
  memoryCapacity := req.capacity.memoryGB
  memoryAvailable := req.capacity.memoryGB
  lastHeartbeat := 0

/-- Register or re-register a node with its capacity. -/
def register (req : RegisterRequest) : StoreM (Except RpcError Unit) := do
  match ← Nodes.upsert req.node with
  | .error err => pure (.error (.store err))
  | .ok _ => pure (.ok ())

/-- `HeartbeatResponse.desired_status`. -/
inductive DesiredStatus
  /-- The text `unregistered`. -/
  | unregistered
  /-- The node's status, or the empty text when it could not be read. -/
  | status (s : Option NodeStatus)
deriving DecidableEq, Repr

/-- Refresh node liveness and return any desired status change. -/
def heartbeat (nodeID : String) : StoreM (Except RpcError DesiredStatus) := do
  match ← Nodes.heartbeat nodeID with
  | .error .notFound => pure (.ok .unregistered)
  | .error err => pure (.error (.store err))
  | .ok _ => do
    match ← Nodes.get nodeID with
    | .error _ => pure (.ok (.status none))
    | .ok n => pure (.ok (.status (some n.status)))

/-- The jobs placed on the node awaiting execution. -/
def getAssignments (nodeID : String) : StoreM (Except RpcError (List Job)) := do
  match ← Jobs.listScheduledForNode nodeID with
  | .error err => pure (.error (.store err))
  | .ok jobs => pure (.ok jobs)

/-- Return a finished job's resources to its node and record the terminal status. -/
def releaseAndFinalize (job : Job) (status : JobStatus) : StoreM (Except StoreError Unit) := do
  if job.nodeID ≠ "" then do
    match ← Nodes.get job.nodeID with
    | .error _ => Jobs.updateStatus job.jobID status
    | .ok node => do
      let node := node.release job.resourceRequest
      Act.modify fun m ↦ { m with nodes := [node] }
      let _ ← Nodes.updateAvailability node
      Jobs.updateStatus job.jobID status
  else Jobs.updateStatus job.jobID status

/-- Apply a lifecycle transition reported by the agent. -/
def updateJobStatus (req : JobStatusUpdate) : StoreM (Except RpcError Unit) := do
  match ← Jobs.get req.jobID with
  | .error err => pure (.error (.store err))
  | .ok job =>
    match req.status with
    | .running => do
      match ← Jobs.updateStatus job.jobID .running with
      | .error err => pure (.error (.store err))
      | .ok _ => pure (.ok ())
    | .completed | .failed => do
      match ← releaseAndFinalize job req.status with
      | .error err => pure (.error (.store err))
      | .ok _ => pure (.ok ())
    | .queued | .scheduled | .cancelled | .preempted =>
      pure (.error (.unsupportedStatus req.status))

end GpuScheduler.Grpc
