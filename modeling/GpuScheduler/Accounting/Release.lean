import GpuScheduler.Accounting.Load

/-!
# Returning a job's resources

A job gives its resources back when its agent reports it completed or failed, and when a user
cancels it.  Both paths do the same to the store, `Store.release` followed by a status; they
differ in what they check first.
-/

namespace GpuScheduler

open Lib Models

namespace Store

/-- Return the job's request to the node its row names, if there is one. -/
def release (s : Store) (job : Job) : Store :=
  if job.nodeID ≠ "" then
    match s.nodes.find? job.nodeID with
    | none => s
    | some n => s.writeBack (n.release job.resourceRequest)
  else s

variable {s : Store} {job : Job}

@[simp] theorem jobs_release : (s.release job).jobs = s.jobs := by
  rw [release]
  split
  · split <;> rfl
  · rfl

@[simp] theorem load_release : (s.release job).load = s.load := by
  funext id d
  rw [load, load, jobs_release]

theorem release_of_unassigned (h : job.nodeID = "") : s.release job = s := if_neg fun hne ↦ hne h

theorem release_of_missing (h : s.nodes.find? job.nodeID = none) : s.release job = s := by
  rw [release, h]
  exact ite_id _

theorem release_of_find? {n : Node} (hne : job.nodeID ≠ "")
    (h : s.nodes.find? job.nodeID = some n) :
    s.release job = s.writeBack (n.release job.resourceRequest) := by
  rw [release, if_pos hne, h]

/-- A release touches the row of the job's node and no other. -/
theorem find?_release_of_ne {id : String} (h : id ≠ job.nodeID) :
    (s.release job).nodes.find? id = s.nodes.find? id := by
  rw [release]
  split
  · split
    · rfl
    · rename_i n hn
      refine find?_writeBack_of_ne ?_
      rw [Node.nodeID_release, Table.key_of_find? hn]
      exact h
  · rfl

/-- The row of the job's node has the request returned to it. -/
theorem find?_release_self (hne : job.nodeID ≠ "") :
    (s.release job).nodes.find? job.nodeID =
      (s.nodes.find? job.nodeID).map (·.release job.resourceRequest) := by
  cases h : s.nodes.find? job.nodeID with
  | none => rw [release_of_missing h, h, Option.map_none]
  | some n =>
      have hid : n.nodeID = job.nodeID := Table.key_of_find? h
      have hfind : s.nodes.find? (n.release job.resourceRequest).nodeID = some n := by
        rw [Node.nodeID_release, hid, h]
      rw [release_of_find? hne h, Option.map_some, ← hid]
      exact find?_writeBack_self hfind rfl

theorem NonnegAvail.release (h : s.NonnegAvail) (hcap : ∀ n ∈ s.nodes.rows, ∀ d, 0 ≤ n.cap d)
    (hr : ∀ d, 0 ≤ job.request d) : (s.release job).NonnegAvail := by
  rw [Store.release]
  split
  · split
    · exact h
    · rename_i n hn
      refine h.writeBack fun d ↦ ?_
      have hrow := Table.mem_of_find? hn
      have h1 := hcap n hrow d
      have h2 := h n hrow d
      have h3 : 0 ≤ job.resourceRequest.amount d := hr d
      rw [Node.avail_release]
      omega
  · exact h

/-! ## Releasing an active job -/

/-- Once the job is over, its usage is no longer part of the load. -/
theorem load_release_updateStatus (hj : s.jobs.find? job.jobID = some job) {st : JobStatus}
    (hst : st.isActive = false) (now : Time) (id : String) (d : Resource) :
    ((s.release job).updateStatus job.jobID st now).load id d = s.load id d - job.usage id d := by
  have hj' : (s.release job).jobs.find? job.jobID = some job := by rw [jobs_release, hj]
  rw [load_updateStatus hj', load_release, Job.usage_withStatus_of_not_active _ hst, add_zero]

/-- What an active job asks for is part of its node's load. -/
theorem request_le_load (hr : s.NonnegRequests) (hj : s.jobs.find? job.jobID = some job)
    (ha : job.status.isActive = true) (d : Resource) : job.request d ≤ s.load job.nodeID d := by
  rw [← Job.usage_of_active ha rfl]
  exact Table.le_sum (w := fun j ↦ j.usage job.nodeID d) hj fun j hj ↦
    Job.usage_nonneg (hr j hj) _ _

/-- The end of an active job keeps the books right: the release is never cut off. -/
theorem Accounted.release (h : s.Accounted) (hr : s.NonnegRequests)
    (hnamed : ∀ n ∈ s.nodes.rows, n.nodeID ≠ "") (hj : s.jobs.find? job.jobID = some job)
    (ha : job.status.isActive = true) {st : JobStatus} (hst : st.isActive = false) (now : Time) :
    ((s.release job).updateStatus job.jobID st now).Accounted := by
  refine accounted_iff.mpr fun id d ↦ ?_
  have hz := accounted_iff.mp h id d
  have hload := load_release_updateStatus hj hst now id d
  by_cases hid : id = job.nodeID
  · subst hid
    cases hn : s.nodes.find? job.nodeID with
    | none => rw [drift, nodes_updateStatus, release_of_missing hn, hn]
    | some n =>
        have hne : job.nodeID ≠ "" := Table.key_of_find? hn ▸ hnamed n (Table.mem_of_find? hn)
        have hn' : ((s.release job).updateStatus job.jobID st now).nodes.find? job.nodeID =
            some (n.release job.resourceRequest) := by
          rw [nodes_updateStatus, find?_release_self hne, hn, Option.map_some]
        have hle := request_le_load hr hj ha d
        rw [drift_of_find? hn] at hz
        rw [drift_of_find? hn', hload, Job.usage_of_active ha rfl, Node.avail_release,
          Node.cap_release]
        rw [Job.request] at *
        omega
  · rw [← hz]
    refine drift_congr (find?_release_of_ne hid) ?_
    rw [hload, Job.usage_of_ne (Ne.symm hid), sub_zero]

end Store

end GpuScheduler
