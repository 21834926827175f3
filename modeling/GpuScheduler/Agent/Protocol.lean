import GpuScheduler.Concurrent.Operations
import GpuScheduler.Lib.Machine

/-!
# Agents and their reports

`internal/agent`.  An agent polls for the jobs that are placed on its node, claims those that it is
not executing already, and executes each in a goroutine of its own: it reports the job running, and
later completed or failed.  A report is a message: it carries the agent's node ID, it is in flight
until the server gets round to serving it, and by then the job may be elsewhere.

A `World` is the store together with what the agents are doing and the reports in flight.  The
operations of the control plane are whole ones here; whatever their calls meet, failures and
readings of the clock, is part of the event.
-/

namespace GpuScheduler

open Lib Models

/-- An execution of a job by the agent of a node, one goroutine of `execute`. -/
structure Execution where
  nodeID : String
  jobID : String
  /-- Whether the job has been reported running. -/
  started : Bool
deriving DecidableEq, Repr

/-- The store, the agents and the messages between them. -/
structure World where
  store : Store
  /-- Answers to `GetAssignments` that an agent has not gone through yet: its node and the job. -/
  assigned : List (String × String)
  executing : List Execution
  /-- Status reports that were sent and not served yet. -/
  inFlight : List Grpc.JobStatusUpdate

/-- Whether the operation serves a report, which only an agent can ask for. -/
def Operation.isReport : Operation → Bool
  | report _ => true
  | _ => false

/-- What may happen next. -/
inductive Event
  /-- The control plane carries out an operation other than a report. -/
  | operate (op : Operation) (ω : Nat → Env)
  /-- `GetAssignments` in `pollLoop`. -/
  | poll (nodeID : String) (ω : Nat → Env)
  /-- One round of the loop over the answer in `pollLoop`. -/
  | claim (nodeID jobID : String)
  /-- The first report of `execute`. -/
  | start (x : Execution)
  /-- The last report of `execute`. -/
  | finish (x : Execution) (failed : Bool)
  /-- `execute` returns because its context is done. -/
  | stop (x : Execution)
  /-- The server serves a report. -/
  | deliver (req : Grpc.JobStatusUpdate) (ω : Nat → Env)

/-- `GetAssignments` fails, or returns the jobs that are placed on the node. -/
theorem runOp_getAssignments (nodeID : String) (ω : Nat → Env) (s : Store) :
    runOp (Grpc.getAssignments nodeID) ω s = (.error (.store .failure), s) ∨
      runOp (Grpc.getAssignments nodeID) ω s = (.ok (s.listScheduledForNode nodeID), s) := by
  simp only [runOp, Grpc.getAssignments, Jobs.listScheduledForNode, issue, Act.call, bind,
    Prog.bind, Prog.run, Store.exec]
  cases (ω 0).fails with
  | true => exact .inl rfl
  | false => exact .inr rfl

/-- `Agent.report`: the message that is sent. -/
def Execution.report (x : Execution) (status : JobStatus) : Grpc.JobStatusUpdate :=
  ⟨x.jobID, x.nodeID, status⟩

namespace World

/-- A database without rows, and no agent. -/
def initial : World := ⟨.empty, [], [], []⟩

/-- `Agent.claim`: whether the agent is not executing the job already. -/
def claimable (w : World) (nodeID jobID : String) : Bool :=
  w.executing.all fun x ↦ !(x.nodeID = nodeID && x.jobID = jobID)

/-- Whether the event can happen. -/
def Enabled (w : World) : Event → Prop
  | .operate op _ => op.isReport = false
  | .poll _ _ => True
  | .claim nodeID jobID => (nodeID, jobID) ∈ w.assigned
  | .start x => x ∈ w.executing ∧ x.started = false
  | .finish x _ => x ∈ w.executing ∧ x.started = true
  | .stop x => x ∈ w.executing
  | .deliver req _ => req ∈ w.inFlight

instance (w : World) : (ev : Event) → Decidable (w.Enabled ev)
  | .operate op _ => inferInstanceAs (Decidable (op.isReport = false))
  | .poll _ _ => inferInstanceAs (Decidable True)
  | .claim nodeID jobID => inferInstanceAs (Decidable ((nodeID, jobID) ∈ w.assigned))
  | .start x => inferInstanceAs (Decidable (x ∈ w.executing ∧ x.started = false))
  | .finish x _ => inferInstanceAs (Decidable (x ∈ w.executing ∧ x.started = true))
  | .stop x => inferInstanceAs (Decidable (x ∈ w.executing))
  | .deliver req _ => inferInstanceAs (Decidable (req ∈ w.inFlight))

/-- What the event does. -/
def next (w : World) : Event → World
  | .operate op ω => { w with store := op.run ω w.store }
  | .poll nodeID ω =>
      let r := runOp (Grpc.getAssignments nodeID) ω w.store
      match r.1 with
      | .error _ => { w with store := r.2 }
      | .ok jobs =>
          { w with store := r.2, assigned := w.assigned ++ jobs.map fun j ↦ (nodeID, j.jobID) }
  | .claim nodeID jobID =>
      { w with
        assigned := w.assigned.erase (nodeID, jobID)
        executing := if w.claimable nodeID jobID then w.executing ++ [⟨nodeID, jobID, false⟩]
          else w.executing }
  | .start x =>
      { w with
        executing := w.executing.erase x ++ [{ x with started := true }]
        inFlight := w.inFlight ++ [x.report .running] }
  | .finish x failed =>
      { w with
        executing := w.executing.erase x
        inFlight := w.inFlight ++ [x.report (if failed then .failed else .completed)] }
  | .stop x => { w with executing := w.executing.erase x }
  | .deliver req ω =>
      { w with
        store := (Operation.report req).run ω w.store
        inFlight := w.inFlight.erase req }

/-- A poll fails, or brings the agent the jobs that are placed on its node; the store stays as it
is. -/
theorem next_poll (w : World) (nodeID : String) (ω : Nat → Env) :
    w.next (.poll nodeID ω) = w ∨ w.next (.poll nodeID ω) = { w with
      assigned := w.assigned ++ (w.store.listScheduledForNode nodeID).map fun j ↦
        (nodeID, j.jobID) } := by
  rcases runOp_getAssignments nodeID ω w.store with hrun | hrun
  · exact .inl (by simp only [next, hrun])
  · exact .inr (by simp only [next, hrun])

end World

/-- The protocol between agents and control plane. -/
def protocol : Machine World Event := ⟨World.Enabled, World.next⟩

instance (w : World) (ev : Event) : Decidable (protocol.Enabled w ev) :=
  inferInstanceAs (Decidable (w.Enabled ev))

namespace World

/-- Whatever can happen may happen. -/
def Free (_ : World) (_ : Event) : Prop := True

instance (w : World) (ev : Event) : Decidable (Free w ev) := inferInstanceAs (Decidable True)

/-! ## What the agents may send -/

/-- Agents report nothing but these three statuses. -/
theorem status_of_inFlight {K : World → Event → Prop} {w : World}
    (h : protocol.Reach K initial w) {req : Grpc.JobStatusUpdate} (hreq : req ∈ w.inFlight) :
    req.status ∈ [JobStatus.running, .completed, .failed] := by
  refine h.induct (I := fun w ↦ ∀ req ∈ w.inFlight, req.status ∈ [.running, .completed, .failed])
    (fun _ h ↦ absurd h List.not_mem_nil) (fun w ev ih _ _ req hreq ↦ ?_) req hreq
  cases ev with
  | operate _ _ | claim _ _ | stop _ => exact ih req hreq
  | poll nodeID ω =>
      have hsame : (w.next (.poll nodeID ω)).inFlight = w.inFlight := by
        rcases w.next_poll nodeID ω with heq | heq <;> rw [heq]
      exact ih req (hsame ▸ hreq)
  | start x =>
      rcases List.mem_append.mp hreq with hreq | hreq
      · exact ih req hreq
      · simp [List.mem_singleton.mp hreq, Execution.report]
  | finish x failed =>
      rcases List.mem_append.mp hreq with hreq | hreq
      · exact ih req hreq
      · cases failed <;> simp [List.mem_singleton.mp hreq, Execution.report]
  | deliver _ _ => exact ih req (List.mem_of_mem_erase hreq)

end World

/-! ## Small runs -/

namespace Small

/-- A node with two GPUs registers. -/
def register (id : String) (now : Time) : Event :=
  .operate (.register ⟨id, id, ⟨2, 0, 0⟩⟩) (steady now)

/-- A job for one GPU is submitted. -/
def submit : Event :=
  .operate (.submit { userID := "user", priority := 5, gpuCount := 1, cpuCount := 0, memoryGB := 0 }
    "job" 1 3) (steady 1)

/-- A pass, which takes for lost a node not heard of for 20 units of time. -/
def tick (now : Time) : Event :=
  .operate (.tick ⟨.firstFit, ⟨1, 100, true, 20⟩⟩ ⟨now, now⟩) (steady now)

end Small

end GpuScheduler
