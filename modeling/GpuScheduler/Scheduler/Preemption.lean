import GpuScheduler.Lib.Search
import GpuScheduler.Models.Node
import Mathlib.Algebra.Ring.Int.Defs

/-!
# Planning a preemption

`internal/scheduler/preemption.go`: the search for a node on which evicting lower-priority jobs
makes room for a pending one.  `running` maps a node ID to the jobs that the pass believes to be
on that node.
-/

namespace GpuScheduler.Scheduler

open Lib Models

/-- Which running jobs to evict from a node so that a pending job can be placed there. -/
structure PreemptionPlan where
  node : Node
  victims : List Job
deriving DecidableEq, Repr

/-- The candidate victims on a node: strictly lower priority than the pending job. -/
def eligible (job : Job) (onNode : List Job) : List Job :=
  onNode.filter fun r ↦ r.priority < job.priority && r.userID ≠ ""

/-- The eviction order: lowest priority first, then newest first. -/
def cheaper (a b : Job) : Bool :=
  if a.priority ≠ b.priority then a.priority < b.priority else a.createdAt > b.createdAt

/-- Whether the free resources cover the request. -/
def covers (free req : ResourceRequest) : Bool :=
  free.gpu ≥ req.gpu && free.cpu ≥ req.cpu && free.memoryGB ≥ req.memoryGB

/-- The eviction loop on one node: victims are taken until the free resources cover the request.
Returns the victims taken and what is then free. -/
def chooseVictims (req : ResourceRequest) : ResourceRequest → List Job →
    List Job × ResourceRequest
  | free, [] => ([], free)
  | free, v :: vs =>
      if covers free req then ([], free)
      else
        let rest := chooseVictims req
          ⟨free.gpu + v.gpuCount, free.cpu + v.cpuCount, free.memoryGB + v.memoryGB⟩ vs
        (v :: rest.1, rest.2)

/-- The plan for one node, when the node is schedulable and evicting frees enough of it. -/
def planOn (job : Job) (running : String → List Job) (n : Node) : Option PreemptionPlan :=
  if !n.status.schedulable then none
  else
    let victims := sliceStable cheaper (eligible job (running n.nodeID))
    let chosen := chooseVictims job.resourceRequest
      ⟨n.gpuAvailable, n.cpuAvailable, n.memoryAvailable⟩ victims
    if covers chosen.2 job.resourceRequest then some ⟨n, chosen.1⟩ else none

/-- The summed priority of a plan's victims. -/
def victimPriority (p : PreemptionPlan) : Int := (p.victims.map Job.priority).sum

/-- Whether plan `a` disrupts less than plan `b`. -/
def betterPlan (a b : PreemptionPlan) : Bool :=
  if a.victims.length ≠ b.victims.length then a.victims.length < b.victims.length
  else victimPriority a < victimPriority b

/-- One turn of the loop over the nodes: `best` is the best plan so far. -/
def findPreemptionStep (job : Job) (running : String → List Job) (best : Option PreemptionPlan)
    (n : Node) : Option PreemptionPlan :=
  match planOn job running n with
  | none => best
  | some plan => match best with
    | none => some plan
    | some b => if betterPlan plan b then some plan else best

/-- The least disruptive plan, if there is one. -/
def findPreemption (job : Job) (nodes : List Node) (running : String → List Job) :
    Option PreemptionPlan := nodes.foldl (findPreemptionStep job running) none

/-! ## What a plan consists of -/

variable {job : Job} {nodes : List Node} {running : String → List Job}

/-- The victims chosen are a prefix of the candidates. -/
theorem chooseVictims_prefix (req free : ResourceRequest) (vs : List Job) :
    (chooseVictims req free vs).1 <+: vs := by
  induction vs generalizing free with
  | nil => exact List.prefix_rfl
  | cons v vs ih =>
      rw [chooseVictims]
      split
      · exact List.nil_prefix
      · exact List.prefix_cons_inj v |>.mpr (ih _)

/-- Every victim of a plan for a node is a candidate there, and no job is named twice when none
occurs twice on the node. -/
theorem planOn_some {n : Node} {p : PreemptionPlan}
    (h : planOn job running n = some p) :
    p.node = n ∧ n.status = .ready ∧
      p.victims <+: sliceStable cheaper (eligible job (running n.nodeID)) := by
  simp only [planOn] at h
  split at h
  · cases h
  · rename_i hs
    split at h
    · simp only [Option.some.injEq] at h
      subst h
      exact ⟨rfl, by simpa [NodeStatus.schedulable] using hs, chooseVictims_prefix _ _ _⟩
    · cases h

/-- What an eviction costs: the number of victims, and then their total priority. -/
def cost (vs : List Job) : ℕ ×ₗ ℤ := toLex (vs.length, (vs.map Job.priority).sum)

theorem cost_lt_cost_iff {vs ws : List Job} : cost vs < cost ws ↔ vs.length < ws.length ∨
    vs.length = ws.length ∧ (vs.map Job.priority).sum < (ws.map Job.priority).sum :=
  Prod.Lex.toLex_lt_toLex

/-- A better plan is a cheaper one. -/
theorem rankedBy_betterPlan : RankedBy betterPlan fun p ↦ cost p.victims := by
  have hprio : RankedBy (fun a b ↦ decide (victimPriority a < victimPriority b))
      fun p : PreemptionPlan ↦ (p.victims.map Job.priority).sum := fun _ _ ↦ decide_eq_true_iff
  refine hprio.lex fun a b ↦ ?_
  rw [betterPlan, ite_ne_eq_true_iff ne_of_lt]

/-- The loop over the nodes is a search for the first best plan. -/
theorem findPreemption_eq_foldl : findPreemption job nodes running =
    nodes.foldl (keepBest (planOn job running) betterPlan) none := by
  have hstep : findPreemptionStep job running = keepBest (planOn job running) betterPlan := by
    funext best n
    rw [findPreemptionStep, keepBest]
    cases planOn job running n with
    | none => rfl
    | some plan => cases best <;> rfl
  rw [findPreemption, hstep]

/-- The plan that is found is the first of the cheapest ones. -/
theorem firstBest_findPreemption {p : PreemptionPlan}
    (h : findPreemption job nodes running = some p) :
    FirstBest (planOn job running) (fun p ↦ cost p.victims) nodes p :=
  .of_foldl rankedBy_betterPlan (findPreemption_eq_foldl.symm.trans h)

/-- A plan is for one of the given nodes, which is ready, and its victims run there. -/
theorem findPreemption_some {p : PreemptionPlan}
    (h : findPreemption job nodes running = some p) :
    p.node ∈ nodes ∧ p.node.status = .ready ∧
      p.victims <+: sliceStable cheaper (eligible job (running p.node.nodeID)) := by
  obtain ⟨before, n, behind, rfl, hp, -, -⟩ := firstBest_findPreemption h
  obtain ⟨rfl, hs, hv⟩ := planOn_some hp
  exact ⟨List.mem_append_right before List.mem_cons_self, hs, hv⟩

/-- The victims of a plan are jobs believed to be on its node. -/
theorem mem_running_of_victim {p : PreemptionPlan}
    (h : findPreemption job nodes running = some p) {v : Job}
    (hv : v ∈ p.victims) : v ∈ running p.node.nodeID := by
  have hmem := (findPreemption_some h).2.2.subset hv
  rw [mem_sliceStable] at hmem
  exact (List.mem_filter.mp hmem).1

/-- The victims of a plan are eligible: the pending job outranks them. -/
theorem priority_of_victim {p : PreemptionPlan}
    (h : findPreemption job nodes running = some p) {v : Job}
    (hv : v ∈ p.victims) : v.priority < job.priority ∧ v.userID ≠ "" := by
  have hmem := (findPreemption_some h).2.2.subset hv
  rw [mem_sliceStable] at hmem
  simpa using (List.mem_filter.mp hmem).2

end GpuScheduler.Scheduler
