import GpuScheduler.Store.Basic
import Mathlib.Algebra.Order.Ring.Int
import Mathlib.Tactic.Abel

/-!
# The books: what is reserved on each node

A node row says how much of each resource is available.  The job rows say how much of it the jobs
that are scheduled or running there have asked for, their `load`.  The books are right
(`Store.Accounted`) when availability is capacity minus load on every node; `Store.drift` is by
how much the availability of one node is too high.

The second half says what each statement of the store does to loads and to node rows.  A change
of availability and a change of load that belong together leave the drift alone, which is the
form in which the operations of the control plane use it.
-/

namespace GpuScheduler

open Lib Models

/-! ## Usage of a row after an update -/

namespace Models.Job

variable (j : Job)

@[simp] theorem request_withStatus (st : JobStatus) (now : Time) :
    (j.withStatus st now).request = j.request := rfl

theorem usage_scheduledOn_self (n : String) (d : Resource) :
    (j.scheduledOn n).usage n d = j.request d := usage_of_active rfl rfl d

theorem usage_scheduledOn_of_ne {n id : String} (h : n ≠ id) (d : Resource) :
    (j.scheduledOn n).usage id d = 0 := usage_of_ne h d

/-- A row whose new status is not an active one takes nothing. -/
theorem usage_withStatus_of_not_active {st : JobStatus} (h : st.isActive = false) (now : Time)
    (n : String) (d : Resource) : (j.withStatus st now).usage n d = 0 := usage_of_not_active h n d

theorem usage_requeued_of_not_active {st : JobStatus} (h : st.isActive = false) (n : String)
    (d : Resource) : (j.requeued st).usage n d = 0 := usage_of_not_active h n d

variable {j}

/-- Going from one active status to another changes no usage. -/
theorem usage_withStatus_of_active {st : JobStatus} (hj : j.status.isActive = true)
    (h : st.isActive = true) (now : Time) (n : String) (d : Resource) :
    (j.withStatus st now).usage n d = j.usage n d := by
  have hst : (j.withStatus st now).status.isActive = true := h
  have hid : (j.withStatus st now).nodeID = j.nodeID := rfl
  simp [usage, hj, hst, hid]

end Models.Job

namespace Store

/-! ## Load and drift -/

/-- The sum of the requests of the jobs scheduled or running on a node. -/
def load (s : Store) (id : String) (d : Resource) : Int := s.jobs.sum fun j ↦ j.usage id d

/-- Every node's availability is its capacity minus its load. -/
def Accounted (s : Store) : Prop :=
  ∀ n ∈ s.nodes.rows, ∀ d, n.avail d = n.cap d - s.load n.nodeID d

/-- No job asks for a negative amount. -/
def NonnegRequests (s : Store) : Prop := ∀ j ∈ s.jobs.rows, ∀ d, 0 ≤ j.request d

/-- No node's availability is negative. -/
def NonnegAvail (s : Store) : Prop := ∀ n ∈ s.nodes.rows, ∀ d, 0 ≤ n.avail d

instance (s : Store) : Decidable s.Accounted :=
  inferInstanceAs (Decidable (∀ n ∈ s.nodes.rows, ∀ d, n.avail d = n.cap d - s.load n.nodeID d))

instance (s : Store) : Decidable s.NonnegRequests :=
  inferInstanceAs (Decidable (∀ j ∈ s.jobs.rows, ∀ d, 0 ≤ j.request d))

instance (s : Store) : Decidable s.NonnegAvail :=
  inferInstanceAs (Decidable (∀ n ∈ s.nodes.rows, ∀ d, 0 ≤ n.avail d))

/-- By how much the availability of a node exceeds what it should be. -/
def drift (s : Store) (id : String) (d : Resource) : Int :=
  match s.nodes.find? id with
  | none => 0
  | some n => n.avail d - n.cap d + s.load id d

theorem drift_of_find? {s : Store} {id : String} {n : Node} (h : s.nodes.find? id = some n)
    (d : Resource) : s.drift id d = n.avail d - n.cap d + s.load id d := by
  rw [drift, h]

theorem accounted_iff {s : Store} : s.Accounted ↔ ∀ id d, s.drift id d = 0 := by
  constructor
  · intro h id d
    cases hf : s.nodes.find? id with
    | none => rw [drift, hf]
    | some n =>
        rw [drift_of_find? hf, h n (Table.mem_of_find? hf) d, Table.key_of_find? hf]
        abel
  · intro h n hn d
    have := h n.nodeID d
    rw [drift_of_find? (Table.find?_key hn)] at this
    omega

theorem drift_congr {s t : Store} {id : String} {d : Resource}
    (hn : t.nodes.find? id = s.nodes.find? id) (hl : t.load id d = s.load id d) :
    t.drift id d = s.drift id d := by
  rw [drift, drift, hn, hl]

theorem load_nonneg {s : Store} (h : s.NonnegRequests) (id : String) (d : Resource) :
    0 ≤ s.load id d := Table.sum_nonneg fun j hj ↦ Job.usage_nonneg (h j hj) id d

/-- A node without active jobs has no load. -/
theorem load_eq_zero {s : Store} {id : String}
    (h : ∀ j ∈ s.jobs.rows, j.status.isActive = true → j.nodeID ≠ id) (d : Resource) :
    s.load id d = 0 := by
  have hzero : ∀ j ∈ s.jobs.rows, j.usage id d = 0 := by
    intro j hj
    rw [Job.usage, if_neg]
    rintro ⟨hact, hid⟩
    exact h j hj hact hid
  rw [load, Table.sum_congr hzero]
  simp [Table.sum]

/-- Rewriting the node rows without touching capacities and availabilities: the books are right
afterwards when the old rows go with the new loads. -/
theorem accounted_map {s t : Store} {f : Node → Node} (hrows : t.nodes.rows = s.nodes.rows.map f)
    (hid : ∀ n, (f n).nodeID = n.nodeID) (hcap : ∀ n, (f n).cap = n.cap)
    (havail : ∀ n, (f n).avail = n.avail) :
    t.Accounted ↔ ∀ n ∈ s.nodes.rows, ∀ d, n.avail d = n.cap d - t.load n.nodeID d := by
  rw [Accounted, hrows, List.forall_mem_map]
  refine forall₂_congr fun n _ ↦ ?_
  rw [hcap, havail, hid]

/-- On an accounted node nobody is oversubscribed. -/
theorem load_le_cap {s : Store} (ha : s.Accounted) (hp : s.NonnegAvail) {n : Node}
    (hn : n ∈ s.nodes.rows) (d : Resource) : s.load n.nodeID d ≤ n.cap d := by
  have h1 := ha n hn d
  have h2 := hp n hn d
  omega

/-- On an accounted node no more is available than there is. -/
theorem avail_le_cap {s : Store} (ha : s.Accounted) (hq : s.NonnegRequests) {n : Node}
    (hn : n ∈ s.nodes.rows) (d : Resource) : n.avail d ≤ n.cap d := by
  have h1 := ha n hn d
  have h2 := load_nonneg hq n.nodeID d
  omega

/-- A drift that the load bounds keeps the availability within the capacity. -/
theorem avail_le_cap_of_drift {s : Store} {id : String} {n : Node} {d : Resource}
    (h : s.nodes.find? id = some n) (hd : s.drift id d ≤ s.load id d) : n.avail d ≤ n.cap d := by
  rw [drift_of_find? h] at hd
  omega

/-! ## What the statements on jobs do -/

section Jobs

variable {s : Store} {id : String} {j : Job}

theorem load_updateStatus (h : s.jobs.find? id = some j) (st : JobStatus) (now : Time)
    (n : String) (d : Resource) : (s.updateStatus id st now).load n d =
      s.load n d - j.usage n d + (j.withStatus st now).usage n d :=
  Table.sum_modify h (·.withStatus st now) (·.jobID_withStatus st now) (·.usage n d)

theorem load_schedule (h : s.jobs.find? id = some j) (nodeID : String) (n : String)
    (d : Resource) : (s.schedule id nodeID).load n d =
      s.load n d - j.usage n d + (j.scheduledOn nodeID).usage n d :=
  Table.sum_modify h (·.scheduledOn nodeID) (·.jobID_scheduledOn nodeID) (·.usage n d)

theorem load_requeue (h : s.jobs.find? id = some j) (st : JobStatus) (n : String)
    (d : Resource) : (s.requeue id st).load n d =
      s.load n d - j.usage n d + (j.requeued st).usage n d :=
  Table.sum_modify h (·.requeued st) (·.jobID_requeued st) (·.usage n d)

/-- A job that is not active leaves for an inactive status: no load changes. -/
theorem load_updateStatus_of_not_active (h : s.jobs.find? id = some j)
    (hj : j.status.isActive = false) {st : JobStatus} (hst : st.isActive = false) (now : Time)
    (n : String) (d : Resource) : (s.updateStatus id st now).load n d = s.load n d := by
  rw [load_updateStatus h, Job.usage_of_not_active hj, Job.usage_withStatus_of_not_active _ hst]
  omega

theorem jobs_updateStatus (st : JobStatus) (now : Time) : (s.updateStatus id st now).jobs =
    s.jobs.modify id (·.withStatus st now) (·.jobID_withStatus st now) := rfl

theorem jobs_schedule (nodeID : String) : (s.schedule id nodeID).jobs =
    s.jobs.modify id (·.scheduledOn nodeID) (·.jobID_scheduledOn nodeID) := rfl

theorem jobs_requeue (st : JobStatus) : (s.requeue id st).jobs =
    s.jobs.modify id (·.requeued st) (·.jobID_requeued st) := rfl

@[simp] theorem nodes_updateStatus (st : JobStatus) (now : Time) :
    (s.updateStatus id st now).nodes = s.nodes := rfl

/-- Evicting a job and returning it to the queue at once is to requeue it. -/
theorem updateStatus_requeue (s : Store) (id : String) (now : Time) :
    (s.requeue id .preempted).updateStatus id .queued now = s.requeue id .queued := by
  rw [updateStatus, requeue, requeue, Table.modify_modify]
  intro j
  simp [Job.requeued, Job.withStatus, JobStatus.isTerminal]

/-- A statement that keeps every request keeps the requests nonnegative. -/
theorem NonnegRequests.modify {t : Store} (h : s.NonnegRequests) {f : Job → Job}
    {hf : ∀ r : Job, (f r).jobID = r.jobID} (ht : t.jobs = s.jobs.modify id f hf)
    (hr : ∀ r, (f r).request = r.request) : t.NonnegRequests := by
  intro j hj d
  rw [ht] at hj
  rcases Table.mem_modify.mp hj with ⟨r, hr₀, -, rfl⟩ | ⟨hj, -⟩
  · rw [hr]
    exact h r hr₀ d
  · exact h j hj d

theorem NonnegRequests.schedule (h : s.NonnegRequests) (nodeID : String) :
    (s.schedule id nodeID).NonnegRequests := h.modify (jobs_schedule nodeID) fun _ ↦ rfl

theorem NonnegRequests.updateStatus (h : s.NonnegRequests) (st : JobStatus) (now : Time) :
    (s.updateStatus id st now).NonnegRequests := h.modify (jobs_updateStatus st now) fun _ ↦ rfl

theorem NonnegRequests.requeue (h : s.NonnegRequests) (st : JobStatus) :
    (s.requeue id st).NonnegRequests := h.modify (jobs_requeue st) fun _ ↦ rfl

end Jobs

/-! ## What the statements on nodes do -/

section Nodes

variable {s : Store}

/-- Write the availabilities of a node held in memory to its row. -/
def writeBack (s : Store) (n : Node) : Store :=
  s.updateAvailability n.nodeID n.gpuAvailable n.cpuAvailable n.memoryAvailable

theorem nodes_writeBack (n : Node) : (s.writeBack n).nodes = s.nodes.modify n.nodeID
    (·.setAvailable n.gpuAvailable n.cpuAvailable n.memoryAvailable)
    (·.nodeID_setAvailable n.gpuAvailable n.cpuAvailable n.memoryAvailable) := rfl

/-- Writing back a row as it is changes nothing. -/
theorem nodes_writeBack_self {n : Node} (h : n ∈ s.nodes.rows) :
    (s.writeBack n).nodes = s.nodes := by
  refine Table.ext ((List.map_congr_left fun r hr ↦ ?_).trans (List.map_id _))
  split
  · rename_i hid
    rw [s.nodes.eq_of_key_eq hr h hid]
    exact Node.setAvailable_eq_iff.mpr rfl
  · rfl

/-- Of two copies of a row written back, the second counts. -/
theorem nodes_writeBack_writeBack {a b : Node} (h : a.nodeID = b.nodeID) :
    ((s.writeBack a).writeBack b).nodes = (s.writeBack b).nodes := by
  simp only [nodes_writeBack, h]
  exact Table.modify_modify _ _ fun _ ↦ rfl

@[simp] theorem load_writeBack (n : Node) : (s.writeBack n).load = s.load := rfl

theorem find?_writeBack_of_ne {n : Node} {id : String} (h : id ≠ n.nodeID) :
    (s.writeBack n).nodes.find? id = s.nodes.find? id := by
  rw [nodes_writeBack, Table.find?_modify_of_ne _ h]

/-- Writing back a copy that differs from the row in its availabilities only makes the row equal
to the copy. -/
theorem find?_writeBack_self {r n : Node} (h : s.nodes.find? n.nodeID = some r)
    (hr : r.setAvailable 0 0 0 = n.setAvailable 0 0 0) :
    (s.writeBack n).nodes.find? n.nodeID = some n := by
  rw [nodes_writeBack, Table.find?_modify_self, h, Option.map_some,
    Node.setAvailable_eq_iff.mpr hr]

/-- A row written back is as before, or has the availabilities of the copy. -/
theorem mem_writeBack {n x : Node} (h : x ∈ (s.writeBack n).nodes.rows) :
    (x ∈ s.nodes.rows ∧ x.nodeID ≠ n.nodeID) ∨ ∃ r ∈ s.nodes.rows, r.nodeID = n.nodeID ∧
      x = r.setAvailable n.gpuAvailable n.cpuAvailable n.memoryAvailable := by
  rw [nodes_writeBack] at h
  rcases Table.mem_modify.mp h with ⟨r, hr, hk, rfl⟩ | h
  · exact .inr ⟨r, hr, hk, rfl⟩
  · exact .inl h

theorem NonnegAvail.writeBack (h : s.NonnegAvail) {n : Node} (hn : ∀ d, 0 ≤ n.avail d) :
    (s.writeBack n).NonnegAvail := by
  intro x hx d
  rcases mem_writeBack hx with ⟨hx, -⟩ | ⟨r, -, -, rfl⟩
  · exact h x hx d
  · rw [Node.avail_setAvailable]
    exact hn d

end Nodes

end Store

end GpuScheduler
