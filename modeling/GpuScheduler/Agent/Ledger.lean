import GpuScheduler.Agent.Protocol

/-!
# The protocol of an agent, call by call

The protocol of `Agent.Protocol` with finer steps, for what depends on their order.  The operations
of the control plane are interleaved call by call, and an execution goes through its stages one by
one: `execute` sends its first report, its last report, and clears its claim.  A report is served
while the agent waits for the answer, later, or not at all.

Beside the protocol, a `Ledger` keeps an account that no step consults: how often `Schedule` has put
a job on a node, and which of these placements each start of `execute` was for.
-/

namespace GpuScheduler

open Lib Models

/-- A placement of a job on a node: the `number`-th time that `Schedule` put it there. -/
@[ext]
structure Placement where
  nodeID : String
  jobID : String
  number : Nat
deriving DecidableEq, Repr

/-- How often each job was placed on each node. -/
abbrev Tally : Type := String → String → Nat

/-- Count a call that succeeds. -/
def Tally.count (c : Call) (env : Env) (g : Tally) : Tally := fun n j ↦
  match c with
  | .jobsSchedule id nodeID =>
      if env.fails = false ∧ n = nodeID ∧ j = id then g n j + 1 else g n j
  | _ => g n j

/-- How far a call of `execute` is. -/
inductive Stage
  | claimed
  /-- The first report was sent. -/
  | running
  /-- The last report was sent. -/
  | reported
deriving DecidableEq, Repr

/-- A goroutine of `execute`, whose job is in the claim set `running` of the agent. -/
structure Claim where
  nodeID : String
  jobID : String
  stage : Stage
deriving DecidableEq, Repr

/-- `Agent.report`: the message that is sent. -/
def Claim.report (x : Claim) (status : JobStatus) : Grpc.JobStatusUpdate :=
  ⟨x.jobID, x.nodeID, status⟩

/-- The store, the operations in progress, the agents and the messages between them, with an account
of the placements. -/
structure Ledger where
  store : Store
  threads : List (Operation × Prog Call Call.Ret Mem Unit)
  /-- Answers to `GetAssignments` that an agent has not gone through yet: its node and the job. -/
  assigned : List (String × String)
  claims : List Claim
  /-- Status reports that were sent and not served yet. -/
  inFlight : List Grpc.JobStatusUpdate
  /-- By node and job: how often `Schedule` was executed. -/
  placements : Tally
  /-- By node and job: how often it had been when the agent of the node last polled. -/
  polled : Tally
  /-- The starts of `execute`. -/
  starts : List Placement

/-- What may happen next. -/
inductive Move
  /-- The control plane begins an operation other than a report. -/
  | begin (op : Operation)
  /-- The server begins to serve a report. -/
  | serve (req : Grpc.JobStatusUpdate)
  /-- The call that an operation in progress has in flight is executed. -/
  | turn (i : Nat) (env : Env)
  /-- `GetAssignments` in `pollLoop`. -/
  | poll (nodeID : String) (ω : Nat → Env)
  /-- One round of the loop over the answer in `pollLoop`. -/
  | claim (nodeID jobID : String)
  /-- The first report of `execute`. -/
  | start (x : Claim)
  /-- The last report of `execute`. -/
  | finish (x : Claim) (failed : Bool)
  /-- `execute` returns, and `done` clears its claim. -/
  | done (x : Claim)

namespace Ledger

/-- A database without rows, and nothing going on. -/
def initial : Ledger := ⟨.empty, [], [], [], [], fun _ _ ↦ 0, fun _ _ ↦ 0, []⟩

/-- `Agent.claim`: whether the agent is not executing the job already. -/
def claimable (l : Ledger) (nodeID jobID : String) : Bool :=
  l.claims.all fun x ↦ !(x.nodeID = nodeID && x.jobID = jobID)

/-- Whether it can happen.  `pollLoop` goes through an answer before it polls again, and `execute`
returns after its last report, or when its context is done. -/
def Enabled (l : Ledger) : Move → Prop
  | .begin op => op.isReport = false
  | .serve req => req ∈ l.inFlight
  | .turn _ _ => True
  | .poll nodeID _ => ∀ x ∈ l.assigned, x.1 ≠ nodeID
  | .claim nodeID jobID => (nodeID, jobID) ∈ l.assigned
  | .start x => x ∈ l.claims ∧ x.stage = .claimed
  | .finish x _ => x ∈ l.claims ∧ x.stage = .running
  | .done x => x ∈ l.claims ∧ x.stage ≠ .claimed

instance (l : Ledger) : (mv : Move) → Decidable (l.Enabled mv)
  | .begin op => inferInstanceAs (Decidable (op.isReport = false))
  | .serve req => inferInstanceAs (Decidable (req ∈ l.inFlight))
  | .turn _ _ => .isTrue trivial
  | .poll nodeID _ => inferInstanceAs (Decidable (∀ x ∈ l.assigned, x.1 ≠ nodeID))
  | .claim nodeID jobID => inferInstanceAs (Decidable ((nodeID, jobID) ∈ l.assigned))
  | .start x => inferInstanceAs (Decidable (x ∈ l.claims ∧ x.stage = .claimed))
  | .finish x _ => inferInstanceAs (Decidable (x ∈ l.claims ∧ x.stage = .running))
  | .done x => inferInstanceAs (Decidable (x ∈ l.claims ∧ x.stage ≠ .claimed))

/-- The control plane, with the account of the placements. -/
def plane (l : Ledger) : Plane (Store × Tally) := ⟨l.threads, (l.store, l.placements)⟩

/-- Calls are executed on the store, and counted. -/
def counted : Pool.Handler Operation Call Call.Ret (Store × Tally) Env :=
  Pool.withAux onStore fun _ _ c env _ g ↦ g.count c env

/-- The ledger when the control plane has become `P`. -/
def withPlane (l : Ledger) (P : Plane (Store × Tally)) : Ledger :=
  { l with store := P.shared.1, threads := P.threads, placements := P.shared.2 }

/-- The goroutine reaches the stage and sends a report. -/
def send (l : Ledger) (x : Claim) (stage : Stage) (status : JobStatus) : Ledger :=
  { l with
    claims := l.claims.erase x ++ [{ x with stage := stage }]
    inFlight := l.inFlight ++ [x.report status] }

/-- What happens.  In the account, a poll looks at the placements, and a claim that succeeds starts
`execute` for the placement that was polled. -/
def next (l : Ledger) : Move → Ledger
  | .begin op => { l with threads := l.threads ++ [(op, op.thread)] }
  | .serve req =>
      { l with
        threads := l.threads ++ [(.report req, (Operation.report req).thread)]
        inFlight := l.inFlight.erase req }
  | .turn i env => l.withPlane (l.plane.stepAt counted i env)
  | .poll nodeID ω =>
      let r := runOp (Grpc.getAssignments nodeID) ω l.store
      { l with
        store := r.2
        assigned := match r.1 with
          | .error _ => l.assigned
          | .ok jobs => l.assigned ++ jobs.map fun j ↦ (nodeID, j.jobID)
        polled := fun n j ↦ if n = nodeID then l.placements n j else l.polled n j }
  | .claim nodeID jobID =>
      if l.claimable nodeID jobID then
        { l with
          assigned := l.assigned.erase (nodeID, jobID)
          claims := l.claims ++ [⟨nodeID, jobID, .claimed⟩]
          starts := l.starts ++ [⟨nodeID, jobID, l.polled nodeID jobID⟩] }
      else { l with assigned := l.assigned.erase (nodeID, jobID) }
  | .start x => l.send x .running .running
  | .finish x failed => l.send x .reported (if failed then .failed else .completed)
  | .done x => { l with claims := l.claims.erase x }

end Ledger

/-- The protocol between agents and control plane. -/
def ledger : Machine Ledger Move := ⟨Ledger.Enabled, Ledger.next⟩

instance (l : Ledger) (mv : Move) : Decidable (ledger.Enabled l mv) :=
  inferInstanceAs (Decidable (l.Enabled mv))

namespace Ledger

variable {l : Ledger} {n id : String}

/-- The control plane lists the job for the node. -/
def Lists (s : Store) (nodeID jobID : String) : Prop :=
  ∃ j ∈ s.jobs.rows, j.jobID = jobID ∧ j.nodeID = nodeID ∧ j.status = .scheduled

instance (s : Store) (nodeID jobID : String) : Decidable (Lists s nodeID jobID) :=
  inferInstanceAs (Decidable (∃ j ∈ s.jobs.rows, _))

/-! ## What the steps do -/

/-- The account never shrinks. -/
theorem le_count {c : Call} {env : Env} {g : Tally} : g n id ≤ g.count c env n id := by
  cases c with
  | jobsSchedule id nodeID =>
      simp only [Tally.count]
      split <;> omega
  | _ => exact le_rfl

/-- A placement is counted. -/
theorem lt_count {c : Call} {env : Env} {g : Tally} (hc : c = .jobsSchedule id n)
    (hok : env.fails = false) : g n id < g.count c env n id := by
  subst hc
  simp [Tally.count, hok]

/-- A poll changes nothing but the answer, which lists what the control plane lists. -/
theorem poll_spec (l : Ledger) (nodeID : String) (ω : Nat → Env) :
    (l.next (.poll nodeID ω)).store = l.store ∧
      ∀ x ∈ (l.next (.poll nodeID ω)).assigned,
        x ∈ l.assigned ∨ (x.1 = nodeID ∧ Lists l.store x.1 x.2) := by
  rcases runOp_getAssignments nodeID ω l.store with hrun | hrun
  · simp only [next, hrun]
    exact ⟨trivial, fun x hx ↦ .inl hx⟩
  · simp only [next, hrun]
    refine ⟨trivial, fun x hx ↦ ?_⟩
    rcases List.mem_append.mp hx with hx | hx
    · exact .inl hx
    · obtain ⟨j, hj, rfl⟩ := List.mem_map.mp hx
      rw [Store.listScheduledForNode, mem_sliceStable, List.mem_filter] at hj
      obtain ⟨hrow, hcond⟩ := hj
      simp only [Bool.and_eq_true, decide_eq_true_eq] at hcond
      exact .inr ⟨rfl, j, hrow, rfl, hcond.1, hcond.2⟩

theorem claimable_iff :
    l.claimable n id = true ↔ ∀ x ∈ l.claims, ¬ (x.nodeID = n ∧ x.jobID = id) := by
  simp [claimable, imp_iff_not_or]

/-- A job that is executed stays claimed when the execution reaches another stage. -/
theorem claimable_of_send {x : Claim} {stage : Stage} {status : JobStatus}
    (h : (l.send x stage status).claimable n id = true) : l.claimable n id = true := by
  rw [claimable_iff] at h ⊢
  intro y hy hkey
  by_cases hyx : y = x
  · subst hyx
    exact h { y with stage := stage } (List.mem_append_right _ List.mem_cons_self) hkey
  · exact h y (List.mem_append_left _ ((List.mem_erase_of_ne hyx).mpr hy)) hkey

/-- A claim that is cleared makes no other job claimable. -/
theorem claimable_of_done {x : Claim} (h : (l.next (.done x)).claimable n id = true)
    (hkey : ¬ (x.nodeID = n ∧ x.jobID = id)) : l.claimable n id = true := by
  rw [claimable_iff] at h ⊢
  intro y hy hykey
  by_cases hyx : y = x
  · exact hkey (hyx ▸ hykey)
  · exact h y ((List.mem_erase_of_ne hyx).mpr hy) hykey

end Ledger

end GpuScheduler
