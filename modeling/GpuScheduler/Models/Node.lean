import GpuScheduler.Models.Job

/-!
# Nodes

The data types of `internal/models/node.go`.  The three capacities and the three availabilities
are separate fields, as in the source; `Node.cap` and `Node.avail` read them off by resource, so
that what holds of every resource is stated once.

`GPUModel`, `CostPerHour`, `Spot`, `Labels` and `RegisteredAt` are stored and displayed but read
by nothing in the scheduler, and are left out.
-/

namespace GpuScheduler.Models

/-- The operational state of a cluster node. -/
inductive NodeStatus
  /-- Healthy and accepting new workloads. -/
  | ready
  /-- Existing jobs run to completion but no new jobs are placed. -/
  | draining
  /-- Marked unschedulable, running jobs are left untouched. -/
  | cordoned
  /-- Missed heartbeats, considered lost. -/
  | down
deriving DecidableEq, Repr

/-- Whether new jobs may be placed on the node. -/
def NodeStatus.schedulable (s : NodeStatus) : Bool := s = ready

/-- A GPU machine in the cluster. -/
structure Node where
  nodeID : String
  hostname : String
  status : NodeStatus
  gpuCapacity : Int
  gpuAvailable : Int
  cpuCapacity : Int
  cpuAvailable : Int
  memoryCapacity : Int
  memoryAvailable : Int
  lastHeartbeat : Time
deriving DecidableEq, Repr

namespace Node

/-- The node's capacity in one resource. -/
def cap (n : Node) : Resource → Int
  | .gpu => n.gpuCapacity
  | .cpu => n.cpuCapacity
  | .memory => n.memoryCapacity

/-- What is currently available of one resource. -/
def avail (n : Node) : Resource → Int
  | .gpu => n.gpuAvailable
  | .cpu => n.cpuAvailable
  | .memory => n.memoryAvailable

/-- Whether the node currently has room for the given request. -/
def fits (n : Node) (r : ResourceRequest) : Bool :=
  n.status.schedulable && n.gpuAvailable ≥ r.gpu && n.cpuAvailable ≥ r.cpu &&
    n.memoryAvailable ≥ r.memoryGB

/-- Deduct the request from the node's available resources. -/
def reserve (n : Node) (r : ResourceRequest) : Node :=
  { n with
    gpuAvailable := n.gpuAvailable - r.gpu
    cpuAvailable := n.cpuAvailable - r.cpu
    memoryAvailable := n.memoryAvailable - r.memoryGB }

/-- Return the request's resources to the node, never beyond its capacity. -/
def release (n : Node) (r : ResourceRequest) : Node :=
  { n with
    gpuAvailable :=
      if n.gpuAvailable + r.gpu > n.gpuCapacity then n.gpuCapacity else n.gpuAvailable + r.gpu
    cpuAvailable :=
      if n.cpuAvailable + r.cpu > n.cpuCapacity then n.cpuCapacity else n.cpuAvailable + r.cpu
    memoryAvailable :=
      if n.memoryAvailable + r.memoryGB > n.memoryCapacity then n.memoryCapacity
      else n.memoryAvailable + r.memoryGB }

/-- Overwrite the three availabilities. -/
def setAvailable (n : Node) (gpu cpu mem : Int) : Node :=
  { n with gpuAvailable := gpu, cpuAvailable := cpu, memoryAvailable := mem }

/-! ## The operations, resource by resource -/

theorem fits_iff {n : Node} {r : ResourceRequest} :
    n.fits r = true ↔ n.status = .ready ∧ ∀ d, r.amount d ≤ n.avail d := by
  simp only [fits, NodeStatus.schedulable, Bool.and_eq_true, decide_eq_true_eq, ge_iff_le]
  constructor
  · rintro ⟨⟨⟨hs, hg⟩, hc⟩, hm⟩
    refine ⟨hs, fun d ↦ ?_⟩
    cases d with
    | gpu => exact hg
    | cpu => exact hc
    | memory => exact hm
  · rintro ⟨hs, h⟩
    exact ⟨⟨⟨hs, h .gpu⟩, h .cpu⟩, h .memory⟩

@[simp] theorem avail_reserve (n : Node) (r : ResourceRequest) (d : Resource) :
    (n.reserve r).avail d = n.avail d - r.amount d := by cases d <;> rfl

@[simp] theorem avail_release (n : Node) (r : ResourceRequest) (d : Resource) :
    (n.release r).avail d = min (n.cap d) (n.avail d + r.amount d) := by
  have key : ∀ a c : Int, (if a > c then c else a) = min c a := by
    intro a c
    split
    · exact (min_eq_left (le_of_lt ‹_›)).symm
    · exact (min_eq_right (not_lt.mp ‹_›)).symm
  cases d with
  | gpu => exact key _ _
  | cpu => exact key _ _
  | memory => exact key _ _

@[simp] theorem avail_setAvailable (n m : Node) (d : Resource) :
    (n.setAvailable m.gpuAvailable m.cpuAvailable m.memoryAvailable).avail d = m.avail d := by
  cases d <;> rfl

/-- Where a request fits, a smaller one does. -/
theorem fits_mono {n : Node} {r r' : ResourceRequest} (h : ∀ d, r.amount d ≤ r'.amount d)
    (hf : n.fits r' = true) : n.fits r = true := by
  obtain ⟨hs, hle⟩ := fits_iff.mp hf
  exact fits_iff.mpr ⟨hs, fun d ↦ (h d).trans (hle d)⟩

/-- What fits after a reservation would have fitted before. -/
theorem fits_of_reserve {n : Node} {r r' : ResourceRequest} (h : ∀ d, 0 ≤ r.amount d)
    (hf : (n.reserve r).fits r' = true) : n.fits r' = true := by
  obtain ⟨hs, hle⟩ := fits_iff.mp hf
  refine fits_iff.mpr ⟨hs, fun d ↦ ?_⟩
  have hd := hle d
  rw [avail_reserve] at hd
  have := h d
  omega

@[simp] theorem cap_reserve (n : Node) (r : ResourceRequest) : (n.reserve r).cap = n.cap := by
  funext d; cases d <;> rfl

@[simp] theorem cap_release (n : Node) (r : ResourceRequest) : (n.release r).cap = n.cap := by
  funext d; cases d <;> rfl

@[simp] theorem cap_setAvailable (n : Node) (g c m : Int) : (n.setAvailable g c m).cap = n.cap := by
  funext d; cases d <;> rfl

@[simp] theorem nodeID_reserve (n : Node) (r : ResourceRequest) :
    (n.reserve r).nodeID = n.nodeID := rfl

@[simp] theorem nodeID_release (n : Node) (r : ResourceRequest) :
    (n.release r).nodeID = n.nodeID := rfl

@[simp] theorem nodeID_setAvailable (n : Node) (g c m : Int) :
    (n.setAvailable g c m).nodeID = n.nodeID := rfl

/-- Two copies of a node that differ in their availabilities only are equal when they do not differ
in these. -/
theorem eq_of_avail_eq {n m : Node} (h : n.setAvailable 0 0 0 = m.setAvailable 0 0 0)
    (ha : ∀ d, n.avail d = m.avail d) : n = m := by
  have hg := ha .gpu
  have hc := ha .cpu
  have hm := ha .memory
  cases n
  cases m
  simp_all [setAvailable, avail]

/-- Two copies of a node that agree on everything but the availabilities, and then on these. -/
theorem setAvailable_eq_iff {n m : Node} :
    n.setAvailable m.gpuAvailable m.cpuAvailable m.memoryAvailable = m ↔
      n.setAvailable 0 0 0 = m.setAvailable 0 0 0 := by
  cases n; cases m; simp [setAvailable]

end Node

end GpuScheduler.Models
