import GpuScheduler.Lib.Pool
import GpuScheduler.Store.Effects
import GpuScheduler.Scheduler.Engine
import GpuScheduler.Grpc.Server
import GpuScheduler.Api.Handlers

/-!
# The control plane as a pool of threads

The scheduler, the gRPC server and the REST server act on one database at the same time.  Each
operation in progress is a thread of a `Pool` over the store, and the calls of different
operations interleave in any way.  Any number of operations of any kind may be in progress, two
scheduling passes of two leaders among them.
-/

namespace GpuScheduler

open Lib Models Scheduler

/-- The operations of the control plane. -/
inductive Operation
  | tick (e : Engine) (clock : Clock)
  | report (req : Grpc.JobStatusUpdate)
  | cancel (id : String)
  | submit (req : Api.SubmitJobRequest) (newID : String) (now : Time) (defaultRetries : Int)
  | register (req : Grpc.RegisterRequest)
  | heartbeat (id : String)
  | assignments (nodeID : String)
  | cordon (id : String)
  | drain (id : String)
  | uncordon (id : String)
  | markStaleDown (ttl : Duration)

/-- The thread that carries an operation out. -/
def Operation.thread : Operation → Prog Call Call.Ret Mem Unit
  | tick e clock => (e.tick clock).thread default
  | report req => (Grpc.updateJobStatus req).thread default
  | cancel id => (Api.handleCancelJob id).thread default
  | submit req newID now retries => (Api.handleSubmitJob req newID now retries).thread default
  | register req => (Grpc.register req).thread default
  | heartbeat id => (Grpc.heartbeat id).thread default
  | assignments nodeID => (Grpc.getAssignments nodeID).thread default
  | cordon id => (Api.handleCordonNode id).thread default
  | drain id => (Api.handleDrainNode id).thread default
  | uncordon id => (Api.handleUncordonNode id).thread default
  | markStaleDown ttl => (Nodes.markStaleDown ttl).thread default

/-! ## Requests that end a job -/

/-- A request that ends a job. -/
inductive Ending
  | completed (jobID nodeID : String)
  | failed (jobID nodeID : String)
  | cancelled (jobID : String)
deriving DecidableEq, Repr

namespace Ending

/-- The job that is over then. -/
def jobID : Ending → String
  | completed id _ | failed id _ | cancelled id => id

/-- The operation that serves the request. -/
def operation : Ending → Operation
  | completed id nodeID => .report ⟨id, nodeID, .completed⟩
  | failed id nodeID => .report ⟨id, nodeID, .failed⟩
  | cancelled id => .cancel id

end Ending

/-! ## Whole operations -/

/-- The operation, run alone and as a whole, may take the store `s` to `t`. -/
def Operation.Runs (admits : Admits) (op : Operation) (s t : Store) : Prop :=
  op.thread.Exec Store.exec admits s () t

/-- The store after the operation, under given choices of the environment. -/
def Operation.run (op : Operation) (ω : Nat → Env) (s : Store) : Store :=
  (op.thread.run Store.exec ω s).2

theorem Operation.runs_run {admits : Admits} {op : Operation} {ω : Nat → Env} {s : Store}
    (h : op.thread.Admits Store.exec admits ω s) : op.Runs admits s (op.run ω s) :=
  Prog.exec_run h

/-- Whatever the environment decides, the operation runs. -/
theorem Operation.runs_anything (op : Operation) (ω : Nat → Env) (s : Store) :
    op.Runs Anything s (op.run ω s) := runs_run (Prog.admits_of_forall fun _ _ _ _ ↦ trivial)

theorem Operation.Runs.final {admits : Admits} {op : Operation} {s t : Store} {P : Store → Prop}
    (hr : op.Runs admits s t) (h : op.thread.wp (.alone Store.exec admits) (fun _ t ↦ P t) s) :
    P t := Prog.wp_alone_iff.mp h () t hr

/-- What the thread of an operation does alone is what the operation does. -/
theorem wp_thread_alone {α : Type} {admits : Admits} {x : StoreM α} {s : Store}
    {P : Store → Prop} (h : Wp admits x (fun _ _ t ↦ P t) default s) :
    (x.thread default).wp (.alone Store.exec admits) (fun _ t ↦ P t) s :=
  Act.wp_thread (fun _ _ hs hst _ ↦ hst ▸ hs) h

/-! ## Operations in progress -/

/-- The state of the control plane: a shared state and the operations in progress. -/
abbrev Plane (σ : Type) : Type := Pool Operation Call Call.Ret Mem σ Unit

/-- A thread starts as the thread of its operation. -/
def Starts (op : Operation) (p : Prog Call Call.Ret Mem Unit) : Prop := p = op.thread

/-- Calls are executed on the store. -/
def onStore : Pool.Handler Operation Call Call.Ret Store Env := fun _ _ c env s ↦
  Store.exec c env s

/-- No call fails and no node is stale. -/
def Quiet : Pool.Policy Operation Call Mem Store Env := fun _ _ m c env s ↦
  Smooth m c env s

instance : ∀ i op m c env s, Decidable (Quiet i op m c env s) := fun _ _ m c env s ↦
  inferInstanceAs (Decidable (Smooth m c env s))

/-- The threads take turns as given; every call succeeds, at time 1. -/
def turns (l : List Nat) : List (Nat × Env) := l.map fun i ↦ (i, ⟨false, 1⟩)

/-- One job runs on a node with two GPUs and another one waits. -/
def Small.halfUsed : Store :=
  Small.store [Small.job "v" .running 1 1 "n" 0, Small.job "a" .queued 1 1 "" 1]
    [Small.node "n" .ready 2 1]

/-- Any operations may start one after the other. -/
theorem reach_start {σ : Type} {exec : Pool.Handler Operation Call Call.Ret σ Env}
    {admits : Pool.Policy Operation Call Mem σ Env} (ops : List Operation) (s : σ) :
    Pool.Reach exec admits Starts ⟨[], s⟩ ⟨ops.map fun op ↦ (op, op.thread), s⟩ := by
  refine Pool.reach_of_starts (fun x hx ↦ ?_) s
  obtain ⟨op, -, rfl⟩ := List.mem_map.mp hx
  exact rfl

/-- Two operations may start one after the other. -/
theorem reach_two {σ : Type} {exec : Pool.Handler Operation Call Call.Ret σ Env}
    {admits : Pool.Policy Operation Call Mem σ Env} (op op' : Operation) (s : σ) :
    Pool.Reach exec admits Starts ⟨[], s⟩ ⟨[(op, op.thread), (op', op'.thread)], s⟩ := by
  have h : Starts op op.thread := rfl
  have h' : Starts op' op'.thread := rfl
  exact (Relation.ReflTransGen.single (Pool.Step.spawn h)).tail (Pool.Step.spawn h')

end GpuScheduler
