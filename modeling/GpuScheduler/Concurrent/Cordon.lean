import GpuScheduler.Concurrent.OperationSpec
import GpuScheduler.Scheduler.PassSpec

/-!
# Cordoned and draining nodes

Four statements write a node's status.  `SetStatus` writes what an operator asks for; `Upsert`
keeps the status of a known node; `MarkStaleDown` makes a silent node *down*, whatever it was
before; and `Heartbeat` makes a node that is down *ready*.  One after the other, the last two make
a cordoned node ready without anyone having uncordoned it.

`held_of_noRevival` says that this is the only way: as long as the node is not heard of while it is
down, no interleaving of any operations makes it ready or gives it a new job.
-/

namespace GpuScheduler

open Lib Models Scheduler

/-- Any operation but the request to uncordon the node. -/
def StartsBut (nodeID : String) (op : Operation) (p : Prog Call Call.Ret Mem Unit) : Prop :=
  Starts op p ∧ op ≠ .uncordon nodeID

/-- No heartbeat of the node is served while the node is down. -/
def NoRevival (nodeID : String) : Pool.Policy Operation Call Mem Store Env := fun _ _ _ c _ s ↦
  c = .nodesHeartbeat nodeID → ∀ n ∈ s.nodes.rows, n.nodeID = nodeID → n.status ≠ .down

instance (nodeID : String) : ∀ i op m c env s, Decidable (NoRevival nodeID i op m c env s) :=
  fun _ _ _ c _ s ↦ inferInstanceAs (Decidable (c = .nodesHeartbeat nodeID →
    ∀ n ∈ s.nodes.rows, n.nodeID = nodeID → n.status ≠ .down))

namespace Cordon

/-- The node is known and not ready, and the jobs on it were there at the beginning. -/
structure Inv (nodeID : String) (s₀ s : Store) : Prop where
  status : ∃ n, s.nodes.find? nodeID = some n ∧ n.status ≠ .ready
  placed : nodeID ≠ "" → ∀ j ∈ s.jobs.rows, j.nodeID = nodeID →
    ∃ j₀ ∈ s₀.jobs.rows, j₀.jobID = j.jobID ∧ j₀.nodeID = nodeID

/-- The calls that would undo what the operator did. -/
def Allowed (nodeID : String) (c : Call) : Prop :=
  c ≠ .nodesSetStatus nodeID .ready ∧ ∀ id, c ≠ .jobsSchedule id nodeID

variable {nodeID : String} {s₀ s : Store} {i : Nat} {op : Operation} {c : Call} {env : Env}

/-! ## The calls -/

/-- No other call makes the row ready. -/
theorem status_onNode {n : Node} {now : Time} (hid : n.nodeID = nodeID) (hn : n.status ≠ .ready)
    (ha : Allowed nodeID c) (hrevive : c = .nodesHeartbeat nodeID → n.status ≠ .down) :
    (c.onNode now n).status ≠ .ready := by
  cases c with
  | nodesUpsert new =>
      simp only [Call.onNode]
      split <;> exact hn
  | nodesUpdateAvailability _ _ _ _ =>
      simp only [Call.onNode]
      split <;> exact hn
  | nodesHeartbeat id =>
      simp only [Call.onNode]
      split
      · rename_i heq
        have hdown : n.status ≠ .down := hrevive (by rw [← hid, heq])
        rw [Node.alive, if_neg hdown]
        exact hn
      · exact hn
  | nodesSetStatus id st =>
      simp only [Call.onNode]
      split
      · rename_i heq
        rintro rfl
        exact ha.1 (by rw [← hid, heq])
      · exact hn
  | nodesMarkStaleDown ttl =>
      simp only [Call.onNode, Node.reaped]
      split
      · simp
      · exact hn
  | _ => exact hn

/-- No other call puts a job on the node. -/
theorem nodeID_onJob {j : Job} {now : Time} (hne : nodeID ≠ "") (ha : Allowed nodeID c)
    (h : (c.onJob now j).nodeID = nodeID) : j.nodeID = nodeID := by
  cases c with
  | jobsUpdateStatus _ _ =>
      simp only [Call.onJob] at h
      split at h <;> exact h
  | jobsSchedule id nodeID' =>
      simp only [Call.onJob] at h
      split at h
      · obtain rfl : nodeID' = nodeID := h
        exact absurd rfl (ha.2 id)
      · exact h
  | jobsRequeue _ _ =>
      simp only [Call.onJob] at h
      split at h
      · exact absurd h.symm hne
      · exact h
  | _ => exact h

/-- **One call.** -/
theorem call (h : Inv nodeID s₀ s) (ha : Allowed nodeID c) (hp : c = .nodesHeartbeat nodeID →
      ∀ n ∈ s.nodes.rows, n.nodeID = nodeID → n.status ≠ .down) :
    Inv nodeID s₀ (Store.exec c env s).2 where
  status := by
    refine Store.exec_elim (P := fun _ t ↦ ∃ n, t.nodes.find? nodeID = some n ∧ n.status ≠ .ready)
      h.status ?_
    obtain ⟨n, hn, hst⟩ := h.status
    rcases Store.find?_nodes_perform s env.now c nodeID with heq | ⟨_, -, hnone, -⟩
    · refine ⟨c.onNode env.now n, by rw [heq, hn, Option.map_some], ?_⟩
      exact status_onNode (Table.key_of_find? hn) hst ha fun hc ↦
        hp hc n (Table.mem_of_find? hn) (Table.key_of_find? hn)
    · rw [hn] at hnone
      cases hnone
  placed hne := by
    refine Store.forall_jobs_exec (h.placed hne) (fun j hj hon ↦ ?_) fun j _ hon ↦ ?_
    · rw [Call.jobID_onJob]
      exact h.placed hne j hj (nodeID_onJob hne ha hon)
    · exact absurd hon.symm hne

/-! ## The operations -/

/-- The setting of every operation: all that the others do is to keep the invariant. -/
def logic (nodeID : String) (s₀ : Store) (i : Nat) (op : Operation) :
    Logic Call Call.Ret Mem Store Env where
  exec := onStore i op
  admits := NoRevival nodeID i op
  inv := Inv nodeID s₀
  rely _ _ := True
  guar _ _ := True
  held _ _ := True
  rely_refl _ := trivial
  rely_trans _ _ := trivial

/-- What a pass learns from an answer. -/
def Answer (nodeID : String) : (c : Call) → c.Ret → Prop
  | .nodesList, .ok ns => ∀ n ∈ ns, n.nodeID = nodeID → n.status ≠ .ready
  | .jobsListByStatuses _, .ok js => (js.map Job.jobID).Nodup
  | _, _ => True

theorem answer_exec (h : Inv nodeID s₀ s) : Answer nodeID c (Store.exec c env s).1 := by
  refine Store.exec_elim (P := fun r _ ↦ Answer nodeID c r) (by cases c <;> trivial) ?_
  cases c with
  | nodesList =>
      rintro n hn rfl
      obtain ⟨n', hn', hst⟩ := h.status
      rw [Table.find?_key (mem_sliceStable.mp hn)] at hn'
      rw [Option.some.inj hn']
      exact hst
  | jobsListByStatuses ss => exact s.nodup_listByStatuses ss
  | _ => trivial

/-- A pass that begins now reads the node as not ready, and places jobs on ready nodes only. -/
def passSpec (nodeID : String) (s₀ : Store) (i : Nat) (op : Operation) :
    PassSpec (logic nodeID s₀ i op) where
  nodeOK n _ := n.nodeID = nodeID → n.status ≠ .ready
  jobOK _ _ := True
  allowed c _ := Allowed nodeID c
  answer c r _ := Answer nodeID c r
  node_stable h _ _ := h
  job_stable h _ _ := h
  answer_stable h _ _ := h
  held _ _ := trivial
  call h ha hp := ⟨Cordon.call h ha hp, trivial, answer_exec h⟩
  node_call h _ _ _ := h
  job_call h _ _ _ _ := h
  reserve h _ _ := h
  release h _ := h
  nodes h := h
  queued _ _ _ := trivial
  active h := ⟨h, fun _ _ ↦ trivial⟩
  read {c s} hc := by
    simp only [List.mem_cons, List.not_mem_nil, or_false] at hc
    rcases hc with rfl | rfl | rfl | rfl <;> exact ⟨nofun, fun _ ↦ nofun⟩
  markStaleDown _ _ := ⟨nofun, fun _ ↦ nofun⟩
  record _ _ := ⟨nofun, fun _ ↦ nofun⟩
  schedule {n j s} hn _ hready := by
    refine ⟨nofun, fun id heq ↦ ?_⟩
    cases heq
    exact hn rfl hready
  updateAvailability _ := ⟨nofun, fun _ ↦ nofun⟩
  requeue _ _ _ := ⟨nofun, fun _ ↦ nofun⟩
  requeued _ _ := ⟨nofun, fun _ ↦ nofun⟩
  failed _ := ⟨nofun, fun _ ↦ nofun⟩

/-- Reports and cancel requests write neither a node's status nor an assignment. -/
def requestSpec (nodeID : String) (s₀ : Store) (i : Nat) (op : Operation) :
    RequestSpec (logic nodeID s₀ i op) where
  nodeOK _ _ := True
  readOK _ _ := True
  jobOK _ _ := True
  node_stable h _ _ := h
  read_stable h _ _ := h
  job_stable h _ _ := h
  held _ _ := trivial
  getJob h hp := ⟨call h ⟨nofun, fun _ ↦ nofun⟩ hp, trivial, fun _ _ ↦ trivial⟩
  unfinished _ _ := trivial
  getNode h _ hp := ⟨call h ⟨nofun, fun _ ↦ nofun⟩ hp, trivial, trivial, fun _ _ ↦ trivial⟩
  release _ _ := trivial
  updateAvailability c hc h _ _ hp := by
    subst hc
    exact ⟨call h ⟨nofun, fun _ ↦ nofun⟩ hp, trivial, trivial, trivial⟩
  updateStatus h _ _ hp := ⟨call h ⟨nofun, fun _ ↦ nofun⟩ hp, trivial⟩

/-- Of the calls that can be told in advance, only one is not allowed. -/
theorem allowed_of_mayIssue (hop : op ≠ .uncordon nodeID) (hc : op.MayIssue c) :
    Allowed nodeID c := by
  cases op with
  | tick _ _ | report _ | cancel _ => exact absurd hc id
  | submit req newID now retries =>
      obtain ⟨-, rfl⟩ := hc
      exact ⟨nofun, fun _ ↦ nofun⟩
  | register _ | assignments _ | markStaleDown _ =>
      obtain rfl := hc
      exact ⟨nofun, fun _ ↦ nofun⟩
  | heartbeat _ | cordon _ | drain _ => rcases hc with rfl | rfl <;> exact ⟨nofun, fun _ ↦ nofun⟩
  | uncordon id =>
      rcases hc with rfl | rfl
      · exact ⟨nofun, fun _ ↦ nofun⟩
      · refine ⟨fun heq ↦ hop ?_, fun _ ↦ nofun⟩
        cases heq
        rfl

/-- Every operation but one meets its obligations. -/
theorem wp_thread (hop : op ≠ .uncordon nodeID) :
    op.thread.wp (logic nodeID s₀ i op) (fun _ _ ↦ True) s :=
  op.wp_thread (fun _ _ _ ↦ (passSpec nodeID s₀ i op).wp_tick)
    (fun _ _ ↦ (requestSpec nodeID s₀ i op).wp_updateJobStatus id)
    (fun _ _ ↦ (requestSpec nodeID s₀ i op).wp_handleCancelJob)
    fun _ _ hc h ↦ ⟨trivial, fun _ hp ↦ ⟨call h (allowed_of_mayIssue hop hc) hp, trivial⟩⟩

def outline (nodeID : String) (s₀ : Store) : Pool.Outline onStore (NoRevival nodeID) Unit where
  logic := logic nodeID s₀
  post _ _ _ _ := True
  inv := Inv nodeID s₀
  exec_eq _ _ := rfl
  admits_eq _ _ := rfl
  inv_eq _ _ := rfl
  guar_rely _ _ _ _ _ _ _ _ _ h := h

end Cordon

/-- **A cordon holds while the node is not revived.**  From a state in which the node is cordoned or
draining, any operations but an uncordon request for it are carried out, their calls interleave in
any way, and any of them fail.  If no heartbeat of the node is served while the node is down, then
the node is never ready, and no job is on it that was not on it before. -/
theorem held_of_noRevival {nodeID : String} {s : Store} {n : Node}
    (hn : s.nodes.find? nodeID = some n) (hst : n.status = .cordoned ∨ n.status = .draining)
    {P : Plane Store} (h : Pool.Reach onStore (NoRevival nodeID) (StartsBut nodeID) ⟨[], s⟩ P) :
    (∃ n', P.shared.nodes.find? nodeID = some n' ∧ n'.status ≠ .ready) ∧
      (nodeID ≠ "" → ∀ j ∈ P.shared.jobs.rows, j.nodeID = nodeID →
        ∃ j₀ ∈ s.jobs.rows, j₀.jobID = j.jobID ∧ j₀.nodeID = nodeID) := by
  have hstart : ∀ i op p (t : Store), StartsBut nodeID op p → Cordon.Inv nodeID s t →
      p.wp ((Cordon.outline nodeID s).logic i op) ((Cordon.outline nodeID s).post i op) t :=
    fun i op p t hp _ ↦ hp.1 ▸ Cordon.wp_thread hp.2
  have hready : n.status ≠ .ready := by rcases hst with hst | hst <;> rw [hst] <;> decide
  have hinit : (Cordon.outline nodeID s).Holds ⟨[], s⟩ :=
    ⟨⟨⟨n, hn, hready⟩, fun _ j hj hon ↦ ⟨j, hj, rfl, hon⟩⟩, fun i op p hi ↦ by simp at hi⟩
  have hP := (hinit.reach hstart h).1
  exact ⟨hP.status, hP.placed⟩

namespace Cordon

/-- A cordoned node and a job in the queue. -/
def cluster : Store :=
  Small.store [Small.job "job" .queued 1 1 "" 0] [Small.node "n" .cordoned 2 2]

/-- A pass. -/
def tick : Operation := .tick ⟨.firstFit, ⟨1, 100, true, 100⟩⟩ ⟨1, 1⟩

/-- The threads of a heartbeat and of a pass that have not begun. -/
def both : Plane Store :=
  ⟨[(.heartbeat "n", (Operation.heartbeat "n").thread), (tick, tick.thread)], cluster⟩

theorem reach_both : Pool.Reach onStore (NoRevival "n") (StartsBut "n") ⟨[], cluster⟩ both := by
  have h : StartsBut "n" (.heartbeat "n") (Operation.heartbeat "n").thread := ⟨rfl, nofun⟩
  have h' : StartsBut "n" tick tick.thread := ⟨rfl, nofun⟩
  exact (Relation.ReflTransGen.single (Pool.Step.spawn h)).tail (Pool.Step.spawn h')

end Cordon

/-- A heartbeat and a pass at the same time leave the node cordoned. -/
theorem held_of_noRevival_heartbeat :
    ∃ n', (Pool.play onStore (turns [0, 1, 1, 1, 0, 1, 1, 1]) Cordon.both).shared.nodes.find? "n" =
      some n' ∧ n'.status ≠ .ready :=
  (held_of_noRevival (s := Cordon.cluster) rfl (.inl rfl)
    (Cordon.reach_both.trans (Pool.reach_play (by decide +kernel)))).1

/-- **A lost and found node is no longer cordoned.**  The node is silent for long enough to be
marked down, then it is heard of again; the next pass places a job on it. -/
theorem cordoned_node_becomes_ready :
    ∃ t u v : Store, (Operation.markStaleDown 100).Runs NoError Cordon.cluster t ∧
      (Operation.heartbeat "n").Runs NoError t u ∧ Cordon.tick.Runs NoError u v ∧
      (Cordon.cluster.nodes.find? "n").map Node.status = some .cordoned ∧
      (u.nodes.find? "n").map Node.status = some .ready ∧
      (v.jobs.find? "job").map Job.nodeID = some "n" := by
  have hall : ∀ (op : Operation) (now : Time) (s : Store),
      op.Runs NoError s (op.run (steady now) s) := fun op now s ↦
    Operation.runs_run (Prog.admits_of_forall fun _ _ _ _ ↦ rfl)
  exact ⟨_, _, _, hall _ 200 _, hall _ 201 _, hall _ 202 _, by decide +kernel, by decide +kernel,
    by decide +kernel⟩

end GpuScheduler
