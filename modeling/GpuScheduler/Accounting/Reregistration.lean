import GpuScheduler.Accounting.Oversubscription
import GpuScheduler.Api.Rules
import GpuScheduler.Scheduler.PassSpec
import GpuScheduler.Store.Effects

/-!
# The books after a node registers again

`Upsert` replaces the capacity of a node it knows, and keeps the availability.  Unless the
capacity is the old one, availability and load then no longer add up to it.
`reregistered_accounted_iff` says so for capacities that grow, shrink or do both, and what a node
that keeps its capacity can rely on.
-/

namespace GpuScheduler

open Lib Models Scheduler

section Upsert

variable {s : Store} {req : Grpc.RegisterRequest} {old : Node}

/-- A known node's row is rewritten. -/
theorem Store.nodes_upsertNode (h : s.nodes.find? req.nodeID = some old) (now : Time) :
    (s.upsertNode req.node now).nodes = s.nodes.modify req.nodeID
      (·.reregistered req.node now) (·.nodeID_reregistered req.node now) := by
  have hknown : ¬ s.nodes.find? (req.node.registered now).nodeID = none := by
    change ¬ s.nodes.find? req.nodeID = none
    rw [h]
    exact Option.some_ne_none old
  rw [upsertNode, dif_neg hknown]
  rfl

theorem Store.find?_upsertNode (h : s.nodes.find? req.nodeID = some old) (now : Time) :
    (s.upsertNode req.node now).nodes.find? req.nodeID =
      some (old.reregistered req.node now) := by
  rw [nodes_upsertNode h, Table.find?_modify_self, h, Option.map_some]

theorem Store.find?_upsertNode_of_ne {id : String} (h : s.nodes.find? req.nodeID = some old)
    (hid : id ≠ req.nodeID) (now : Time) :
    (s.upsertNode req.node now).nodes.find? id = s.nodes.find? id := by
  rw [nodes_upsertNode h, Table.find?_modify_of_ne _ hid]

theorem Store.jobs_upsertNode (n : Node) (now : Time) : (s.upsertNode n now).jobs = s.jobs := by
  rw [upsertNode]
  split <;> rfl

theorem cap_reregistered (old : Node) (now : Time) (d : Resource) :
    (old.reregistered req.node now).cap d = req.capacity.amount d := by
  cases d <;> rfl

theorem avail_reregistered (old : Node) (now : Time) (d : Resource) :
    (old.reregistered req.node now).avail d = old.avail d := by
  cases d <;> rfl

/-- A registration that leaves the capacity alone leaves the books alone. -/
theorem Store.Accounted.upsertNode (hacc : s.Accounted) (h : s.nodes.find? req.nodeID = some old)
    (hsame : ∀ d, old.cap d = req.capacity.amount d) (now : Time) :
    (s.upsertNode req.node now).Accounted := by
  rw [accounted_iff]
  intro id d
  have hload : (s.upsertNode req.node now).load id d = s.load id d := by
    rw [load, jobs_upsertNode]
    rfl
  have hzero := accounted_iff.mp hacc id d
  by_cases hid : id = req.nodeID
  · subst hid
    rw [drift_of_find? h] at hzero
    rw [drift_of_find? (find?_upsertNode h now), avail_reregistered, cap_reregistered, hload,
      ← hsame]
    exact hzero
  · rw [drift_congr (find?_upsertNode_of_ne h hid now) hload]
    exact hzero

end Upsert

/-- A pass changes no capacity. -/
theorem find?_cap_tick {admits : Admits} {e : Engine} {clock : Clock} {s t : Store}
    {r : Except StoreError Unit} (hrun : Runs admits (e.tick clock) s r t) {id : String} {n : Node}
    (h : s.nodes.find? id = some n) : ∃ x, t.nodes.find? id = some x ∧ x.cap = n.cap := by
  refine hrun.final (P := fun t ↦ ∃ x, t.nodes.find? id = some x ∧ x.cap = n.cap)
    (Act.wp_alone_of_issues (e.issues_tick clock) ?_ ⟨n, h, rfl⟩)
  rintro m c env u hc - ⟨x, hx, hcap⟩
  have hup : ∀ n, c ≠ .nodesUpsert n := by
    rintro n rfl
    rcases hc with hc | hc <;> exact hc
  have hrow : (Store.exec c env u).2.nodes.find? id = some x ∨
      (Store.exec c env u).2.nodes.find? id = some (c.onNode env.now x) := Store.find?_nodes_exec hx
  rcases hrow with hy | hy
  · exact ⟨x, hy, hcap⟩
  · exact ⟨_, hy, (Call.cap_onNode hup env.now x).trans hcap⟩

/-- **The books after a node registers again.**  From right books, let a known node register again
with a capacity that is not negative and covers its load.  Its row then has the new capacity.  Its
availability is capacity minus load, and within bounds, if and only if the capacity is the old one
(and the load not negative).  In that case, the next pass gives no more of the node away than it
has, as long as it makes up for what it returns twice. -/
theorem reregistered_accounted_iff {req : Grpc.RegisterRequest} {old : Node} {s t : Store}
    {r : Except Grpc.RpcError Unit} (hacc : s.Accounted)
    (hold : s.nodes.find? req.nodeID = some old)
    (hcap : ∀ d, 0 ≤ req.capacity.amount d ∧ s.load req.nodeID d ≤ req.capacity.amount d)
    (hrun : Runs NoError (Grpc.register req) s r t) :
    ∃ n, t.nodes.find? req.nodeID = some n ∧ (∀ d, n.cap d = req.capacity.amount d) ∧
      ((∀ d, n.avail d = n.cap d - t.load n.nodeID d ∧ 0 ≤ n.avail d ∧ n.avail d ≤ n.cap d) ↔
        ∀ d, old.cap d = req.capacity.amount d ∧ 0 ≤ s.load req.nodeID d) ∧
      ((∀ d, old.cap d = req.capacity.amount d) → t.NonnegRequests → t.NonnegAvail →
        ∀ (e : Engine) (clock : Clock) (r : Except StoreError Unit) (u : Store),
          Runs Smooth (e.tick clock) t r u →
          (∀ d, Harmless req.nodeID d (evictionRounds e clock t)) →
          ∃ x, u.nodes.find? req.nodeID = some x ∧ x.cap = n.cap ∧
            ∀ d, u.load req.nodeID d ≤ x.cap d) := by
  obtain ⟨now, rfl⟩ : ∃ now, t = s.upsertNode req.node now :=
    hrun.final (P := fun t ↦ ∃ now, t = s.upsertNode req.node now)
      (Grpc.wp_register (fun hc ↦ absurd hc (not_canFail fun _ _ _ _ h ↦ h)) fun now ↦ ⟨now, rfl⟩)
  have hid : (old.reregistered req.node now).nodeID = req.nodeID :=
    Table.key_of_find? (Store.find?_upsertNode hold now)
  have hload : (s.upsertNode req.node now).load = s.load := by
    funext id d
    rw [Store.load, Store.jobs_upsertNode]
    rfl
  have havail : ∀ d, old.avail d = old.cap d - s.load req.nodeID d := by
    intro d
    have := hacc old (Table.mem_of_find? hold) d
    rwa [Table.key_of_find? hold] at this
  refine ⟨_, Store.find?_upsertNode hold now, cap_reregistered old now, ?_, ?_⟩
  · rw [hid, hload]
    refine forall_congr' fun d ↦ ?_
    rw [cap_reregistered, avail_reregistered, havail d]
    have := hcap d
    omega
  · intro hsame hreq hnonneg e clock r u hu hharmless
    obtain ⟨x, hx, hxcap⟩ := find?_cap_tick hu (Store.find?_upsertNode hold now)
    obtain ⟨hpos, hdrift⟩ := drift_tick_iff (hacc.upsertNode hold hsame now) hnonneg hreq hu
    refine ⟨x, hx, hxcap, fun d ↦ ?_⟩
    have hzero := (hdrift req.nodeID d).mpr (hharmless d)
    rw [Store.drift_of_find? hx] at hzero
    have := hpos x (Table.mem_of_find? hx) d
    omega

namespace Reregistration

/-- The node `n` registers with the given number of GPUs. -/
def request (gpus : Int) : Grpc.RegisterRequest := ⟨"n", "n", ⟨gpus, 0, 0⟩⟩

/-- A node with four GPUs, one of which is taken. -/
def cluster : Store :=
  Small.store [Small.job "v" .running 1 1 "n" 0, Small.job "a" .queued 1 3 "" 1]
    [Small.node "n" .ready 4 3]

/-- The store after the node registered again. -/
def registered (gpus : Int) : Store := (runOp (Grpc.register (request gpus)) calm cluster).2

/-- The store after the next pass. -/
def placed (gpus : Int) : Store :=
  (runOp (preempting.tick ⟨5, 5⟩) (steady 3) (registered gpus)).2

theorem runs_registered (gpus : Int) : Runs NoError (Grpc.register (request gpus)) cluster
    (runOp (Grpc.register (request gpus)) calm cluster).1 (registered gpus) :=
  runs_runOp (Prog.admits_of_forall fun _ _ _ _ ↦ rfl)

end Reregistration

/-- With the old capacity, the node can be filled up. -/
theorem reregistered_accounted_same :
    ∃ x, (Reregistration.placed 4).nodes.find? "n" = some x ∧
      (Reregistration.placed 4).load "n" .gpu = 4 ∧
      ∀ d, (Reregistration.placed 4).load "n" d ≤ x.cap d := by
  have hold : Reregistration.cluster.nodes.find? (Reregistration.request 4).nodeID =
      some (Small.node "n" .ready 4 3) := by decide
  obtain ⟨n, -, -, -, htick⟩ := reregistered_accounted_iff (by decide) hold (by decide)
    (Reregistration.runs_registered 4)
  obtain ⟨x, hx, -, hle⟩ := htick (by decide) (by decide +kernel) (by decide +kernel) preempting
    ⟨5, 5⟩ _ _ (runs_runOp (ω := steady 3) (by decide +kernel)) (by
      have hnone : evictionRounds preempting ⟨5, 5⟩ (Reregistration.registered 4) = [] := by
        decide +kernel
      rw [hnone]
      exact fun _ ↦ trivial)
  exact ⟨x, hx, by decide +kernel, hle⟩

/-- **Capacity that a node does not have.**  A node with four GPUs, one of them taken, comes back
with two.  Three are still available, and the next pass gives them away. -/
theorem reregistered_oversubscribed :
    Reregistration.cluster.Accounted ∧
      (∀ d, 0 ≤ (Reregistration.request 2).capacity.amount d ∧
        Reregistration.cluster.load "n" d ≤ (Reregistration.request 2).capacity.amount d) ∧
      Runs NoError (Grpc.register (Reregistration.request 2)) Reregistration.cluster (.ok ())
        (Reregistration.registered 2) ∧
      (∃ n, (Reregistration.registered 2).nodes.find? "n" = some n ∧
        n.cap .gpu < n.avail .gpu ∧
        n.avail .gpu ≠ n.cap .gpu - (Reregistration.registered 2).load "n" .gpu) ∧
      ∃ x, (Reregistration.placed 2).nodes.find? "n" = some x ∧
        x.cap .gpu < (Reregistration.placed 2).load "n" .gpu := by
  refine ⟨by decide, by decide, Reregistration.runs_registered 2, ?_, ?_⟩
  · exact ⟨_, rfl, by decide +kernel, by decide +kernel⟩
  · exact ⟨_, rfl, by decide +kernel⟩

end GpuScheduler
