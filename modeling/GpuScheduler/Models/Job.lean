import Mathlib.Data.Fintype.Basic
import Mathlib.Order.Lattice

/-!
# Jobs

The data types of `internal/models/job.go`.  Times and durations are integer nanoseconds.  A job
that is not assigned to a node has the empty string as its `nodeID`, which is how the repository
reads the `NULL` of the database column (`COALESCE(node_id, '')`).

`cost_per_hour`, which nothing reads, and `EffectivePriority`, which is derived whenever it is
needed and never persisted, are not fields here.
-/

namespace GpuScheduler.Models

/-- `time.Time`, in nanoseconds. -/
abbrev Time : Type := Int

/-- `time.Duration`, in nanoseconds. -/
abbrev Duration : Type := Int

/-- The lifecycle state of a job. -/
inductive JobStatus
  | queued
  | scheduled
  | running
  | completed
  | failed
  | cancelled
  | preempted
deriving DecidableEq, Repr

namespace JobStatus

/-- Whether the status is a final state that will not change. -/
def isTerminal : JobStatus → Bool
  | completed | failed | cancelled => true
  | _ => false

/-- Whether the job currently occupies cluster resources. -/
def isActive (s : JobStatus) : Bool := s = scheduled || s = running

theorem isActive_iff {s : JobStatus} : s.isActive = true ↔ s = scheduled ∨ s = running := by
  simp [isActive]

/-- A job that occupies resources is not over. -/
theorem isTerminal_of_isActive {s : JobStatus} (h : s.isActive = true) : s.isTerminal = false := by
  cases s <;> first | rfl | cases h

/-- A job that is over does not occupy resources. -/
theorem isActive_of_isTerminal {s : JobStatus} (h : s.isTerminal = true) : s.isActive = false := by
  cases s <;> first | rfl | cases h

end JobStatus

/-! ## Resources -/

/-- The three resources a job asks for and a node offers. -/
inductive Resource
  | gpu
  | cpu
  | memory
deriving DecidableEq, Repr

instance : Fintype Resource where
  elems := {.gpu, .cpu, .memory}
  complete d := by cases d <;> decide

/-- The resource footprint a job needs to be placed. -/
structure ResourceRequest where
  gpu : Int
  cpu : Int
  memoryGB : Int
deriving DecidableEq, Repr

/-- How much of one resource is requested. -/
def ResourceRequest.amount (r : ResourceRequest) : Resource → Int
  | .gpu => r.gpu
  | .cpu => r.cpu
  | .memory => r.memoryGB

/-! ## Jobs -/

/-- A unit of GPU work submitted by a user. -/
structure Job where
  jobID : String
  name : String := ""
  userID : String
  teamID : String := ""
  status : JobStatus
  priority : Int
  gpuCount : Int
  cpuCount : Int
  memoryGB : Int
  image : String := ""
  command : String := ""
  nodeID : String
  retryCount : Int := 0
  maxRetries : Int := 3
  createdAt : Time
  startedAt : Option Time := none
  completedAt : Option Time := none
deriving DecidableEq, Repr

namespace Job

/-- The job's resource footprint. -/
def resourceRequest (j : Job) : ResourceRequest := ⟨j.gpuCount, j.cpuCount, j.memoryGB⟩

/-- How much of one resource the job asks for. -/
def request (j : Job) (d : Resource) : Int := j.resourceRequest.amount d

/-- How long the job has been waiting since submission. -/
def age (j : Job) (now : Time) : Duration := now - j.createdAt

/-- What the job takes of resource `d` on node `n`: its request while it is scheduled or running
there, and nothing otherwise. -/
def usage (j : Job) (n : String) (d : Resource) : Int :=
  if j.status.isActive = true ∧ j.nodeID = n then j.request d else 0

theorem usage_of_active {j : Job} {n : String} (ha : j.status.isActive = true) (hn : j.nodeID = n)
    (d : Resource) : j.usage n d = j.request d := if_pos ⟨ha, hn⟩

theorem usage_of_not_active {j : Job} (ha : j.status.isActive = false) (n : String)
    (d : Resource) : j.usage n d = 0 := if_neg fun h ↦ by simp [ha] at h

theorem usage_of_ne {j : Job} {n : String} (hn : j.nodeID ≠ n) (d : Resource) :
    j.usage n d = 0 := if_neg fun h ↦ hn h.2

theorem usage_nonneg {j : Job} (h : ∀ d, 0 ≤ j.request d) (n : String) (d : Resource) :
    0 ≤ j.usage n d := by
  rw [usage]; split
  · exact h d
  · exact le_rfl

end Job

end GpuScheduler.Models
