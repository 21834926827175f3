import GpuScheduler.Store.Program
import GpuScheduler.Scheduler.Strategies
import GpuScheduler.Scheduler.Preemption

/-!
# The scheduling engine

`internal/scheduler/engine.go`.  `Engine.tick` is one pass: recover the jobs of lost nodes, read
nodes, queue and active jobs, and attempt the queued jobs one after the other.  Metrics and log
lines have no effect on the store and are left out, `publishGauges` among them.

The two readings of the clock that a pass makes, one for the ordering and one for the starvation
test, are the parameter `Clock`.
-/

namespace GpuScheduler.Scheduler

open Lib Models

/-- The part of `SchedulerConfig` that a pass reads. -/
structure SchedulerConfig where
  agingFactor : ℚ
  starvationThreshold : Duration
  enablePreemption : Bool
  heartbeatTTL : Duration

/-- The scheduling control loop. -/
structure Engine where
  alg : Algorithm
  cfg : SchedulerConfig

/-- What `time.Now()` returns during a pass. -/
structure Clock where
  /-- In `Algorithm.Order`. -/
  ordering : Time
  /-- In `Tick`, in front of the loop over the queue. -/
  pass : Time

/-- `running` maps a node ID to the jobs occupying it. -/
def runningMap (active : List Job) : String → List Job := fun id ↦
  active.filter fun j ↦ j.nodeID ≠ "" && j.nodeID = id

namespace Engine

/-- Persist a scheduling decision; a failure is only logged. -/
def recordEvent (e : Engine) (job : Job) (nodeID reason : String) (success : Bool) :
    StoreM Unit := do
  let _ ← Events.record ⟨job.jobID, nodeID, reason, e.alg.name, success⟩

/-- A job earns the right to preempt by waiting past the starvation threshold or by its
priority. -/
def shouldPreempt (e : Engine) (job : Job) (now : Time) : Bool :=
  job.age now ≥ e.cfg.starvationThreshold || job.priority ≥ 8

/-- Reserve resources in memory and persist the placement. -/
def commitPlacement (e : Engine) (job : Job) (node : Node) (reason : String) : StoreM Unit := do
  let req := job.resourceRequest
  let node := node.reserve req
  Act.modify (·.putNode node)
  Act.modify (·.addRunning node.nodeID job)
  match ← Jobs.schedule job.jobID node.nodeID with
  | .error _ => Act.modify (·.putNode (node.release req))
  | .ok _ => do
    let _ ← Nodes.updateAvailability node
    e.recordEvent job node.nodeID reason true

/-- The eviction loop of `applyPreemption`, on the plan's node. -/
def evictVictims : Node → List Job → StoreM Node
  | node, [] => pure node
  | node, v :: vs => do
    let node := node.release v.resourceRequest
    Act.modify (·.putNode node)
    match ← Jobs.requeue v.jobID .preempted with
    | .error _ => evictVictims node vs
    | .ok _ => do
      let _ ← Jobs.updateStatus v.jobID .queued
      evictVictims node vs

/-- Evict the plan's victims, returning their resources. -/
def applyPreemption (plan : PreemptionPlan) : StoreM Unit := do
  let node ← evictVictims plan.node plan.victims
  let _ ← Nodes.updateAvailability node

/-- Leave the job in the queue for the next pass. -/
def giveUp (e : Engine) (job : Job) (reason : String) : StoreM Unit :=
  e.recordEvent job "" ("no capacity: " ++ reason) false

/-- Attempt to schedule a single job, falling back to preemption when enabled and warranted. -/
def placeOne (e : Engine) (now : Time) (job : Job) : StoreM Unit := do
  let m ← Act.get
  match e.alg.place job m.nodes with
  | .ok (node, reason) => e.commitPlacement job node reason
  | .error reason =>
    if e.cfg.enablePreemption && e.shouldPreempt job now then
      match findPreemption job m.nodes m.running with
      | none => e.giveUp job reason
      | some plan => do
        applyPreemption plan
        let m ← Act.get
        match e.alg.place job m.nodes with
        | .ok (node, reason) => e.commitPlacement job node ("preemption: " ++ reason)
        | .error reason => e.giveUp job reason
    else e.giveUp job reason

/-- What happens to one active job after its node may have been lost. -/
def recoverJob (dead : List String) (job : Job) : StoreM Unit :=
  if !dead.contains job.nodeID then pure ()
  else if job.retryCount ≥ job.maxRetries then do
    let _ ← Jobs.updateStatus job.jobID .failed
  else do
    let _ ← Jobs.requeue job.jobID .queued

/-- Mark nodes that stopped heartbeating as down and requeue the jobs that were on them. -/
def reconcileDeadNodes (e : Engine) : StoreM Unit := do
  match ← Nodes.markStaleDown e.cfg.heartbeatTTL with
  | .error _ => pure ()
  | .ok dead =>
    if dead.isEmpty then pure ()
    else do
      Act.modify fun m ↦ { m with dead := dead }
      match ← Jobs.listByStatuses [.scheduled, .running] with
      | .error _ => Act.modify fun m ↦ { m with dead := [] }
      | .ok active => do
        active.forM (recoverJob dead)
        Act.modify fun m ↦ { m with dead := [] }

/-- The shares that a usage map amounts to, given the nodes. -/
def sharesOf (nodes : List Node) (usage : List (String × Int)) : List (String × ℚ) :=
  let total := (nodes.map Node.gpuCapacity).sum
  if total = 0 then [] else usage.map fun u ↦ (u.1, (u.2 : ℚ) / (total : ℚ))

/-- Each team's GPU consumption as a fraction of total cluster GPU capacity. -/
def teamShares (nodes : List Node) : StoreM (List (String × ℚ)) := do
  match ← Jobs.teamGPUUsage with
  | .error _ => pure []
  | .ok usage => pure (sharesOf nodes usage)

/-- The scheduling half of a pass: read nodes, queue and active jobs, and place as many queued
jobs as possible. -/
def schedulePass (e : Engine) (clock : Clock) : StoreM (Except StoreError Unit) := do
  match ← Nodes.list with
  | .error err => pure (.error err)
  | .ok nodes => do
    Act.modify fun m ↦ { m with nodes := nodes }
    match ← Jobs.listByStatuses [.queued] with
    | .error err => pure (.error err)
    | .ok queued => do
      match ← Jobs.listByStatuses [.scheduled, .running] with
      | .error err => pure (.error err)
      | .ok active =>
        if queued.isEmpty then pure (.ok ())
        else do
          let shares ← teamShares nodes
          let ordered := e.alg.order clock.ordering queued ⟨shares, e.cfg.agingFactor⟩
          Act.modify fun m ↦ { m with running := runningMap active }
          ordered.forM (e.placeOne clock.pass)
          pure (.ok ())

/-- One full scheduling pass. -/
def tick (e : Engine) (clock : Clock) : StoreM (Except StoreError Unit) := do
  e.reconcileDeadNodes
  e.schedulePass clock

end Engine

end GpuScheduler.Scheduler

/-- An engine for small examples: jobs age by one point a minute, and starve or lose their node
after 100 units of time. -/
def GpuScheduler.Small.engine (alg : Scheduler.Algorithm) (preemption : Bool) : Scheduler.Engine :=
  ⟨alg, ⟨1, 100, preemption, 100⟩⟩
