import GpuScheduler.Lib.Table
import GpuScheduler.Lib.StableSort
import GpuScheduler.Models.Node

/-!
# The persisted state and the statements that act on it

`internal/store` keeps three PostgreSQL tables and gives each access to them a method.  A method
is one SQL statement, so it is atomic; it is one `Call` here, and `Store.perform` is what the
statement does when it succeeds, at the database's time `now`.

Any call may fail instead, in which case it writes nothing: `Store.exec` adds that choice, which
together with the clock is the environment of a call.

Rows whose order a statement leaves open (equal `created_at`, equal `hostname`) are returned in
the order of the table.  A result for every store thus covers every order PostgreSQL may give one
listing; but an `UPDATE` does not move a row here, as it may in PostgreSQL, so a result about
several listings is about databases that break a tie the same way each time.
-/

namespace GpuScheduler

open Lib Models

/-- A scheduling decision, as recorded for auditing.  The generated `EventID`, the measured
`LatencyMS` and the `Timestamp` are left out. -/
structure SchedulingEvent where
  jobID : String
  selectedNode : String
  schedulingReason : String
  algorithm : String
  success : Bool
deriving DecidableEq, Repr

/-- The persisted state of the control plane. -/
structure Store where
  jobs : Table Job.jobID
  nodes : Table Node.nodeID
  /-- The recorded decisions, oldest first. -/
  events : List SchedulingEvent

/-- What a repository method reports when it does not succeed. -/
inductive StoreError
  /-- `ErrNotFound`: the requested row does not exist. -/
  | notFound
  /-- Any other failure. -/
  | failure
deriving DecidableEq, Repr

/-! ## Row updates -/

/-- The `SET` list of `JobRepository.UpdateStatus`. -/
def Models.Job.withStatus (j : Job) (status : JobStatus) (now : Time) : Job :=
  { j with
    status := status
    startedAt := if status = .running ∧ j.startedAt = none then some now else j.startedAt
    completedAt := if status.isTerminal then some now else j.completedAt }

/-- The `SET` list of `JobRepository.Schedule`. -/
def Models.Job.scheduledOn (j : Job) (nodeID : String) : Job :=
  { j with status := .scheduled, nodeID := nodeID }

/-- The `SET` list of `JobRepository.Requeue`. -/
def Models.Job.requeued (j : Job) (status : JobStatus) : Job :=
  { j with status := status, nodeID := "", retryCount := j.retryCount + 1, startedAt := none }

theorem Models.Job.jobID_withStatus (j : Job) (status : JobStatus) (now : Time) :
    (j.withStatus status now).jobID = j.jobID := rfl

theorem Models.Job.jobID_scheduledOn (j : Job) (nodeID : String) :
    (j.scheduledOn nodeID).jobID = j.jobID := rfl

theorem Models.Job.jobID_requeued (j : Job) (status : JobStatus) :
    (j.requeued status).jobID = j.jobID := rfl

/-- The row `JobRepository.Create` inserts: the columns it does not list are `NULL`. -/
def Models.Job.created (j : Job) : Job :=
  { j with nodeID := "", startedAt := none, completedAt := none }

/-- The `SET` list of `NodeRepository.Heartbeat`. -/
def Models.Node.alive (n : Node) (now : Time) : Node :=
  { n with lastHeartbeat := now, status := if n.status = .down then .ready else n.status }

theorem Models.Node.nodeID_alive (n : Node) (now : Time) : (n.alive now).nodeID = n.nodeID := rfl

/-- The `SET` list of `NodeRepository.SetStatus`. -/
def Models.Node.withStatus (n : Node) (status : NodeStatus) : Node := { n with status := status }

theorem Models.Node.nodeID_withStatus (n : Node) (status : NodeStatus) :
    (n.withStatus status).nodeID = n.nodeID := rfl

/-- The `WHERE` clause of `NodeRepository.MarkStaleDown`. -/
def Models.Node.stale (n : Node) (ttl : Duration) (now : Time) : Bool :=
  (n.status = .ready || n.status = .draining || n.status = .cordoned) &&
    n.lastHeartbeat < now - ttl

/-- What `NodeRepository.MarkStaleDown` makes of a row. -/
def Models.Node.reaped (n : Node) (ttl : Duration) (now : Time) : Node :=
  if n.stale ttl now then { n with status := .down } else n

theorem Models.Node.nodeID_reaped (n : Node) (ttl : Duration) (now : Time) :
    (n.reaped ttl now).nodeID = n.nodeID := by
  rw [reaped]; split <;> rfl

theorem Models.Node.cap_reaped (n : Node) (ttl : Duration) (now : Time) :
    (n.reaped ttl now).cap = n.cap := by
  rw [reaped]; split <;> rfl

theorem Models.Node.avail_reaped (n : Node) (ttl : Duration) (now : Time) :
    (n.reaped ttl now).avail = n.avail := by
  rw [reaped]; split <;> rfl

/-- The row `NodeRepository.Upsert` inserts for a new node. -/
def Models.Node.registered (n : Node) (now : Time) : Node := { n with lastHeartbeat := now }

/-- The conflict branch of `NodeRepository.Upsert`: capacity and hostname are replaced, status and
availability are kept. -/
def Models.Node.reregistered (old new : Node) (now : Time) : Node :=
  { old with
    hostname := new.hostname
    gpuCapacity := new.gpuCapacity
    cpuCapacity := new.cpuCapacity
    memoryCapacity := new.memoryCapacity
    lastHeartbeat := now }

theorem Models.Node.nodeID_reregistered (old new : Node) (now : Time) :
    (old.reregistered new now).nodeID = old.nodeID := rfl

namespace Store

/-! ## Statements -/

/-- The empty database. -/
def empty : Store := ⟨.empty, .empty, []⟩

/-- `JobRepository.Create`; the primary key refuses a known ID. -/
def createJob (s : Store) (j : Job) : Option Store :=
  if h : s.jobs.find? j.created.jobID = none then
    some { s with jobs := s.jobs.insert j.created h }
  else none

/-- `JobRepository.UpdateStatus`. -/
def updateStatus (s : Store) (id : String) (status : JobStatus) (now : Time) : Store :=
  { s with jobs := s.jobs.modify id (·.withStatus status now) (·.jobID_withStatus status now) }

/-- `JobRepository.Schedule`. -/
def schedule (s : Store) (id nodeID : String) : Store :=
  { s with jobs := s.jobs.modify id (·.scheduledOn nodeID) (·.jobID_scheduledOn nodeID) }

/-- `JobRepository.Requeue`. -/
def requeue (s : Store) (id : String) (status : JobStatus) : Store :=
  { s with jobs := s.jobs.modify id (·.requeued status) (·.jobID_requeued status) }

/-- `JobRepository.ListByStatuses`: newest first, jobs created together in the table's order. -/
def listByStatuses (s : Store) (statuses : List JobStatus) : List Job :=
  sliceStable (fun a b ↦ a.createdAt > b.createdAt)
    (s.jobs.rows.filter fun j ↦ j.status ∈ statuses)

/-- A listing names each job once. -/
theorem nodup_listByStatuses (s : Store) (ss : List JobStatus) :
    ((s.listByStatuses ss).map Job.jobID).Nodup :=
  ((perm_sliceStable _ _).map Job.jobID).nodup_iff.mpr
    (s.jobs.nodup.sublist (List.filter_sublist.map Job.jobID))

/-- `JobRepository.ListScheduledForNode`: oldest first. -/
def listScheduledForNode (s : Store) (nodeID : String) : List Job :=
  sliceStable (fun a b ↦ a.createdAt < b.createdAt)
    (s.jobs.rows.filter fun j ↦ j.nodeID = nodeID && j.status = .scheduled)

/-- `JobRepository.TeamGPUUsage`: the GPUs of the active jobs, grouped by team. -/
def teamGPUUsage (s : Store) : List (String × Int) :=
  let active := s.jobs.rows.filter fun j ↦ j.status.isActive
  (active.map Job.teamID).dedup.map fun team ↦
    (team, ((active.filter fun j ↦ j.teamID = team).map Job.gpuCount).sum)

/-- `NodeRepository.Upsert`. -/
def upsertNode (s : Store) (n : Node) (now : Time) : Store :=
  if h : s.nodes.find? (n.registered now).nodeID = none then
    { s with nodes := s.nodes.insert (n.registered now) h }
  else
    { s with
      nodes := s.nodes.modify n.nodeID (·.reregistered n now) (·.nodeID_reregistered n now) }

/-- `NodeRepository.List`: by hostname. -/
def listNodes (s : Store) : List Node :=
  sliceStable (fun a b ↦ a.hostname < b.hostname) s.nodes.rows

/-- `NodeRepository.UpdateAvailability`: absolute values. -/
def updateAvailability (s : Store) (id : String) (gpu cpu mem : Int) : Store :=
  { s with
    nodes := s.nodes.modify id (·.setAvailable gpu cpu mem) (·.nodeID_setAvailable gpu cpu mem) }

/-- `NodeRepository.Heartbeat`, on a known node. -/
def heartbeat (s : Store) (id : String) (now : Time) : Store :=
  { s with nodes := s.nodes.modify id (·.alive now) (·.nodeID_alive now) }

/-- `NodeRepository.SetStatus`. -/
def setStatus (s : Store) (id : String) (status : NodeStatus) : Store :=
  { s with nodes := s.nodes.modify id (·.withStatus status) (·.nodeID_withStatus status) }

/-- `NodeRepository.MarkStaleDown`. -/
def markStaleDown (s : Store) (ttl : Duration) (now : Time) : Store :=
  { s with nodes := s.nodes.mapRows (·.reaped ttl now) (·.nodeID_reaped ttl now) }

/-- The `RETURNING` list of `NodeRepository.MarkStaleDown`. -/
def staleNodes (s : Store) (ttl : Duration) (now : Time) : List String :=
  (s.nodes.rows.filter fun n ↦ n.stale ttl now).map Node.nodeID

/-- Without a stale node `MarkStaleDown` changes nothing ... -/
theorem markStaleDown_of_noStale (s : Store) {ttl : Duration} {now : Time}
    (h : ∀ n ∈ s.nodes.rows, n.stale ttl now = false) : s.markStaleDown ttl now = s := by
  have hrows : s.nodes.mapRows (·.reaped ttl now) (·.nodeID_reaped ttl now) = s.nodes := by
    refine Table.ext ((List.map_congr_left fun n hn ↦ ?_).trans (List.map_id _))
    rw [Node.reaped, h n hn]
    rfl
  rw [markStaleDown, hrows]

/-- ... and returns nothing. -/
theorem staleNodes_of_noStale (s : Store) {ttl : Duration} {now : Time}
    (h : ∀ n ∈ s.nodes.rows, n.stale ttl now = false) : s.staleNodes ttl now = [] := by
  rw [staleNodes, List.filter_eq_nil_iff.mpr fun n hn ↦ by simp [h n hn], List.map_nil]

/-- `EventRepository.Record`. -/
def record (s : Store) (e : SchedulingEvent) : Store := { s with events := s.events ++ [e] }

end Store

/-! ## Calls -/

/-- The repository methods. -/
inductive Call
  | jobsCreate (j : Job)
  | jobsGet (id : String)
  | jobsListByStatuses (statuses : List JobStatus)
  | jobsListScheduledForNode (nodeID : String)
  | jobsUpdateStatus (id : String) (status : JobStatus)
  | jobsSchedule (id nodeID : String)
  | jobsRequeue (id : String) (status : JobStatus)
  | jobsTeamGPUUsage
  | nodesUpsert (n : Node)
  | nodesGet (id : String)
  | nodesList
  | nodesUpdateAvailability (id : String) (gpu cpu mem : Int)
  | nodesHeartbeat (id : String)
  | nodesSetStatus (id : String) (status : NodeStatus)
  | nodesMarkStaleDown (ttl : Duration)
  | eventsRecord (e : SchedulingEvent)
deriving DecidableEq

/-- What a method returns when it succeeds. -/
abbrev Call.Val : Call → Type
  | .jobsGet _ => Job
  | .jobsListByStatuses _ => List Job
  | .jobsListScheduledForNode _ => List Job
  | .jobsTeamGPUUsage => List (String × Int)
  | .nodesGet _ => Node
  | .nodesList => List Node
  | .nodesMarkStaleDown _ => List String
  | _ => Unit

/-- What a method returns. -/
abbrev Call.Ret (c : Call) : Type := Except StoreError c.Val

/-- What the environment decides about a call. -/
structure Env where
  /-- Whether the call fails. -/
  fails : Bool
  /-- The database's clock. -/
  now : Time
deriving DecidableEq, Repr

/-- The successful execution of a method, at the database's time `now`. -/
def Store.perform (s : Store) (now : Time) : (c : Call) → c.Ret × Store
  | .jobsCreate j => match s.createJob j with
    | some s' => (.ok (), s')
    | none => (.error .failure, s)
  | .jobsGet id => match s.jobs.find? id with
    | some j => (.ok j, s)
    | none => (.error .notFound, s)
  | .jobsListByStatuses statuses => (.ok (s.listByStatuses statuses), s)
  | .jobsListScheduledForNode nodeID => (.ok (s.listScheduledForNode nodeID), s)
  | .jobsUpdateStatus id status => (.ok (), s.updateStatus id status now)
  | .jobsSchedule id nodeID => (.ok (), s.schedule id nodeID)
  | .jobsRequeue id status => (.ok (), s.requeue id status)
  | .jobsTeamGPUUsage => (.ok s.teamGPUUsage, s)
  | .nodesUpsert n => (.ok (), s.upsertNode n now)
  | .nodesGet id => match s.nodes.find? id with
    | some n => (.ok n, s)
    | none => (.error .notFound, s)
  | .nodesList => (.ok s.listNodes, s)
  | .nodesUpdateAvailability id gpu cpu mem => (.ok (), s.updateAvailability id gpu cpu mem)
  | .nodesHeartbeat id => match s.nodes.find? id with
    | some _ => (.ok (), s.heartbeat id now)
    | none => (.error .notFound, s)
  | .nodesSetStatus id status => (.ok (), s.setStatus id status)
  | .nodesMarkStaleDown ttl => (.ok (s.staleNodes ttl now), s.markStaleDown ttl now)
  | .eventsRecord e => (.ok (), s.record e)

/-- The execution of a method: a failing call writes nothing. -/
def Store.exec (c : Call) (e : Env) (s : Store) : c.Ret × Store :=
  if e.fails then (.error .failure, s) else s.perform e.now c

theorem Store.exec_of_fails {c : Call} {e : Env} {s : Store} (h : e.fails = true) :
    Store.exec c e s = (.error .failure, s) := if_pos h

theorem Store.exec_of_ok {c : Call} {e : Env} {s : Store} (h : e.fails = false) :
    Store.exec c e s = s.perform e.now c := by
  rw [exec, h, if_neg Bool.false_ne_true]

/-! ## Small clusters

Rows that differ from one another only in what an example is about. -/

namespace Small

/-- A job that asks for GPUs only. -/
def job (id : String) (status : JobStatus) (priority gpus : Int) (nodeID : String)
    (createdAt : Time) : Job where
  jobID := id
  userID := "user"
  status := status
  priority := priority
  gpuCount := gpus
  cpuCount := 0
  memoryGB := 0
  nodeID := nodeID
  createdAt := createdAt

/-- A node that offers GPUs only. -/
def node (id : String) (status : NodeStatus) (gpus available : Int) : Node where
  nodeID := id
  hostname := id
  status := status
  gpuCapacity := gpus
  gpuAvailable := available
  cpuCapacity := 0
  cpuAvailable := 0
  memoryCapacity := 0
  memoryAvailable := 0
  lastHeartbeat := 0

/-- A store with these rows. -/
def store (jobs : List Job) (nodes : List Node) : Store := ⟨.ofRows jobs, .ofRows nodes, []⟩

end Small

end GpuScheduler
