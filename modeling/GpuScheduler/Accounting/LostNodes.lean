import GpuScheduler.Api.Rules
import GpuScheduler.Scheduler.DeadNodes
import Mathlib.Logic.Relation

/-!
# The books after recovery from lost nodes

`reconcileDeadNodes` takes the active jobs off the nodes that were lost, but does not return what
they had reserved.  Once such a node is heard of again it is ready, with nothing on it and less
than its capacity available.  `recovered_accounted_iff` says that the books are right after a
recovery, and after any heartbeats that follow it, exactly when nothing was reserved on the nodes
that were lost.
-/

namespace GpuScheduler

open Lib Models Scheduler

namespace LostNodes

variable {s t : Store} {m : Mem}

/-- A node is among the lost ones exactly when it is stale. -/
theorem mem_staleNodes_iff {n : Node} (hn : n ∈ s.nodes.rows) {ttl : Duration} {now : Time} :
    n.nodeID ∈ s.staleNodes ttl now ↔ n.stale ttl now = true := by
  constructor
  · intro h
    obtain ⟨x, hx, hid⟩ := List.mem_map.mp h
    obtain ⟨hx, hstale⟩ := List.mem_filter.mp hx
    rwa [s.nodes.eq_of_key_eq hx hn hid] at hstale
  · intro h
    exact List.mem_map.mpr ⟨n, List.mem_filter.mpr ⟨hn, h⟩, rfl⟩

/-- What a recovery leaves of the jobs: the lost nodes carry no load, and the other loads are as
before.  Of the nodes, it changes no more than the status. -/
structure Recovered (ttl : Duration) (now : Time) (s t : Store) : Prop where
  nodes : t.nodes = (s.markStaleDown ttl now).nodes
  lost : ∀ n ∈ s.nodes.rows, n.stale ttl now = true → ∀ d, t.load n.nodeID d = 0
  others : ∀ n ∈ s.nodes.rows, n.stale ttl now = false → ∀ d,
    t.load n.nodeID d = s.load n.nodeID d

/-- A recovery in which no call fails. -/
theorem wp_reconcileDeadNodes {e : Engine} {now : Time} : Wp (ReapsAt now) e.reconcileDeadNodes
    (fun _ _ t ↦ Recovered e.cfg.heartbeatTTL now s t) m s := by
  refine wp_reconcileDeadNodes_recoveredTo.mono fun _ _ t _ ht ↦ ⟨ht.nodes, ?_, ?_⟩
  · intro n hn hstale
    refine Store.load_eq_zero fun j hj hact heq ↦ ht.not_mem_dead hj hact ?_
    rw [heq]
    exact (mem_staleNodes_iff hn).mpr hstale
  · intro n hn hstale d
    refine ht.jobs.sum_eq fun j j' hjj ↦ hjj.usage_eq (fun hmem ↦ ?_) d
    rw [(mem_staleNodes_iff hn).mp hmem] at hstale
    cases hstale

/-- From right books, the books are right afterwards when no load was lost. -/
theorem Recovered.accounted_iff {ttl : Duration} {now : Time} (h : Recovered ttl now s t)
    (hacc : s.Accounted) :
    t.Accounted ↔ ∀ n ∈ s.nodes.rows, n.stale ttl now = true → ∀ d, s.load n.nodeID d = 0 := by
  rw [Store.accounted_map (congrArg Table.rows h.nodes) (Node.nodeID_reaped · ttl now)
    (Node.cap_reaped · ttl now) (Node.avail_reaped · ttl now)]
  refine forall₂_congr fun n hn ↦ ?_
  cases hstale : n.stale ttl now with
  | true =>
      refine ⟨fun ht _ d ↦ ?_, fun hz d ↦ ?_⟩
      · have := hacc n hn d
        rw [ht d, h.lost n hn hstale] at this
        omega
      · rw [hacc n hn d, h.lost n hn hstale, hz rfl]
  | false =>
      refine ⟨fun _ hs ↦ ?_, fun _ d ↦ ?_⟩
      · cases hs
      · rw [hacc n hn d, h.others n hn hstale]

end LostNodes

/-- Agents send heartbeats. -/
def Heartbeats : Store → Store → Prop :=
  Relation.ReflTransGen fun s t ↦ ∃ id r, Runs NoError (Grpc.heartbeat id) s r t

/-- A heartbeat touches neither availability nor load. -/
theorem Heartbeats.accounted_iff {s t : Store} (h : Heartbeats s t) :
    t.Accounted ↔ s.Accounted := by
  induction h with
  | refl => exact Iff.rfl
  | @tail t u _ hs ih =>
      obtain ⟨id, r, hr⟩ := hs
      refine Iff.trans ?_ ih
      refine hr.of_wp (Q := fun _ u ↦ u.Accounted ↔ t.Accounted) (Grpc.wp_heartbeat ?_ ?_)
      · exact fun _ ↦ Iff.rfl
      · intro n now _ _
        refine Store.accounted_map (s := t) (t := t.heartbeat id now) rfl ?_ ?_ ?_
        all_goals
          intro n
          split <;> rfl

/-- **The books after a recovery.**  From right books, after `reconcileDeadNodes` without a failing
call and any heartbeats, the books are right if and only if nothing was reserved on the nodes that
were stale when `MarkStaleDown` looked. -/
theorem recovered_accounted_iff {e : Engine} {now : Time} {s t u : Store} (hacc : s.Accounted)
    (hrun : Runs (ReapsAt now) e.reconcileDeadNodes s () t) (hbeat : Heartbeats t u) :
    (∀ n ∈ u.nodes.rows, ∀ d, n.avail d = n.cap d - u.load n.nodeID d) ↔
      ∀ n ∈ s.nodes.rows, n.stale e.cfg.heartbeatTTL now = true → ∀ d, s.load n.nodeID d = 0 := by
  have ht : LostNodes.Recovered e.cfg.heartbeatTTL now s t :=
    hrun.final LostNodes.wp_reconcileDeadNodes
  exact hbeat.accounted_iff.trans (ht.accounted_iff hacc)

namespace LostNodes

/-- Recovers nodes that were not heard of for 100 units of time. -/
def recovering : Engine := ⟨.firstFit, ⟨1, 100, true, 100⟩⟩

/-- A node with two GPUs that was last heard of at time 0, and a job on it that asks for some. -/
def cluster (gpus : Int) : Store :=
  Small.store [Small.job "v" .running 1 gpus "n" 0] [Small.node "n" .ready 2 (2 - gpus)]

/-- The store after a recovery at time 200. -/
def recovered (gpus : Int) : Store :=
  (runOp recovering.reconcileDeadNodes (steady 200) (cluster gpus)).2

/-- The store after the node was heard of again. -/
def revived (gpus : Int) : Store := (runOp (Grpc.heartbeat "n") (steady 201) (recovered gpus)).2

theorem runs_recovered (gpus : Int) :
    Runs (ReapsAt 200) recovering.reconcileDeadNodes (cluster gpus) () (recovered gpus) :=
  runs_runOp (Prog.admits_of_forall fun _ _ _ _ ↦ ⟨rfl, fun _ _ ↦ rfl⟩)

theorem heartbeats_revived (gpus : Int) : Heartbeats (recovered gpus) (revived gpus) :=
  .single ⟨"n", _, runs_runOp (Prog.admits_of_forall fun _ _ _ _ ↦ rfl)⟩

end LostNodes

/-- A job that asks for nothing leaves nothing behind. -/
theorem recovered_accounted_idle :
    ((LostNodes.recovered 0).nodes.find? "n").map Node.status = some .down ∧
      ∀ n ∈ (LostNodes.revived 0).nodes.rows, ∀ d,
        n.avail d = n.cap d - (LostNodes.revived 0).load n.nodeID d :=
  ⟨by decide +kernel, (recovered_accounted_iff (by decide +kernel) (LostNodes.runs_recovered 0)
    (LostNodes.heartbeats_revived 0)).mpr (by decide +kernel)⟩

/-- **What was reserved is lost.**  The job is back in the queue, the node is ready again and has
nothing on it, and one of its two GPUs is available. -/
theorem recovery_loses_reservation :
    (LostNodes.cluster 1).Accounted ∧
      Runs (ReapsAt 200) LostNodes.recovering.reconcileDeadNodes (LostNodes.cluster 1) ()
        (LostNodes.recovered 1) ∧
      Heartbeats (LostNodes.recovered 1) (LostNodes.revived 1) ∧
      ∃ n ∈ (LostNodes.revived 1).nodes.rows, n.status = .ready ∧
        n.avail .gpu ≠ n.cap .gpu - (LostNodes.revived 1).load n.nodeID .gpu :=
  ⟨by decide +kernel, LostNodes.runs_recovered 1, LostNodes.heartbeats_revived 1,
    by decide +kernel⟩

end GpuScheduler
