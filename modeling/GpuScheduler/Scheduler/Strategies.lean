import GpuScheduler.Scheduler.Placement
import Mathlib.Algebra.Order.Field.Rat

/-!
# The four algorithms

`internal/scheduler/strategies.go` and `algorithm.go`.  An algorithm decides the order in which
queued jobs are attempted and the node each is placed on.  Shares and the aging factor are exact
rationals, and the reading of the clock that an ordering makes is its parameter `now`.
-/

namespace GpuScheduler.Scheduler

open Lib Models

/-- The pluggable scheduling policies. -/
inductive Algorithm
  | firstFit
  | bestFit
  | priority
  | fairShare
deriving DecidableEq, Repr

/-- The cluster-wide signals an ordering may need. -/
structure OrderContext where
  /-- Each team's share of the cluster; a team that is not listed has share 0. -/
  teamUsage : List (String × ℚ)
  /-- Priority points added per minute of wait time. -/
  agingFactor : ℚ

/-- The share of a team, as a Go map lookup returns it. -/
def OrderContext.share (ctx : OrderContext) (teamID : String) : ℚ :=
  (ctx.teamUsage.lookup teamID).getD 0

/-- Go's conversion of a floating-point number to an integer drops the fraction. -/
def truncate (q : ℚ) : Int := if 0 ≤ q then q.floor else q.ceil

/-- A job's priority accounting for queue aging. -/
def effectivePriority (j : Job) (now : Time) (agingFactor : ℚ) : Int :=
  let waitMinutes : ℚ := (now - j.createdAt : Int) / 60000000000
  let waitMinutes := if waitMinutes < 0 then 0 else waitMinutes
  j.priority + truncate (waitMinutes * agingFactor)

/-- The comparison of `Priority.Order`. -/
def priorityLess (now : Time) (ctx : OrderContext) (a b : Job) : Bool :=
  let pa := effectivePriority a now ctx.agingFactor
  let pb := effectivePriority b now ctx.agingFactor
  if pa ≠ pb then pa > pb else a.createdAt < b.createdAt

/-- The comparison of `FairShare.Order`. -/
def fairShareLess (now : Time) (ctx : OrderContext) (a b : Job) : Bool :=
  let sa := ctx.share a.teamID
  let sb := ctx.share b.teamID
  if sa ≠ sb then sa < sb else priorityLess now ctx a b

namespace Algorithm

/-- The stable identifier used in configuration and event logs. -/
def name : Algorithm → String
  | firstFit => "first-fit"
  | bestFit => "best-fit"
  | priority => "priority"
  | fairShare => "fair-share"

/-- The sequence in which queued jobs are attempted. -/
def order (alg : Algorithm) (now : Time) (jobs : List Job) (ctx : OrderContext) : List Job :=
  match alg with
  | firstFit => byCreatedAt jobs
  | bestFit => byCreatedAt jobs
  | priority => sliceStable (priorityLess now ctx) jobs
  | fairShare => sliceStable (fairShareLess now ctx) jobs

/-- The node a job is placed on. -/
def place (alg : Algorithm) (job : Job) (nodes : List Node) : Except String (Node × String) :=
  match alg with
  | firstFit => firstFitNode job nodes
  | bestFit => bestFitNode job nodes
  | priority => bestFitNode job nodes
  | fairShare => bestFitNode job nodes

/-- Ordering loses and invents no job. -/
theorem order_perm (alg : Algorithm) (now : Time) (jobs : List Job) (ctx : OrderContext) :
    (alg.order now jobs ctx).Perm jobs := by
  cases alg <;> exact perm_sliceStable _ jobs

/-- A chosen node is one of the given nodes, and it fits. -/
theorem place_ok {alg : Algorithm} {job : Job} {nodes : List Node} {n : Node} {reason : String}
    (h : alg.place job nodes = .ok (n, reason)) :
    n ∈ nodes ∧ n.fits job.resourceRequest = true := by
  cases alg with
  | firstFit => exact firstFitNode_ok h
  | bestFit => exact bestFitNode_ok h
  | priority => exact bestFitNode_ok h
  | fairShare => exact bestFitNode_ok h

/-- When no node is chosen, none fits. -/
theorem place_error {alg : Algorithm} {job : Job} {nodes : List Node} {why : String}
    (h : alg.place job nodes = .error why) : ∀ n ∈ nodes, n.fits job.resourceRequest = false := by
  cases alg with
  | firstFit => exact firstFitNode_error h
  | bestFit => exact bestFitNode_error h
  | priority => exact bestFitNode_error h
  | fairShare => exact bestFitNode_error h

end Algorithm

end GpuScheduler.Scheduler
