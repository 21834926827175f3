import GpuScheduler.Scheduler.Rules

/-!
# A pass in step with the store

While a scheduling pass runs alone and its writes succeed, the nodes it holds in memory are the
node rows, and the jobs it still has to attempt are queued rows: `InStep`.  A placement keeps the
two in step and moves availability and load together, so that the books are as right after it as
they were before.
-/

namespace GpuScheduler

open Lib Models Scheduler

/-- The memory of a pass agrees with the store; `queue` is what is left to attempt. -/
structure InStep (m : Mem) (s : Store) (queue : List Job) : Prop where
  synced : ∀ n ∈ m.nodes, s.nodes.find? n.nodeID = some n
  queued : ∀ j ∈ queue, s.jobs.find? j.jobID = some j ∧ j.status = .queued
  nodup : (queue.map Job.jobID).Nodup
  requests : s.NonnegRequests
  avail : s.NonnegAvail

/-- What a committed placement leaves in the store. -/
def Store.place (s : Store) (job : Job) (node : Node) : Store :=
  (s.schedule job.jobID node.nodeID).writeBack (node.reserve job.resourceRequest)

/-- Returning what was just reserved restores the node. -/
theorem Models.Node.release_reserve {n : Node} (h : ∀ d, n.avail d ≤ n.cap d)
    (r : ResourceRequest) : (n.reserve r).release r = n := by
  have hg : n.gpuAvailable ≤ n.gpuCapacity := h .gpu
  have hc : n.cpuAvailable ≤ n.cpuCapacity := h .cpu
  have hm : n.memoryAvailable ≤ n.memoryCapacity := h .memory
  simp only [Node.release, Node.reserve, sub_add_cancel, if_neg (not_lt.mpr hg),
    if_neg (not_lt.mpr hc), if_neg (not_lt.mpr hm), gt_iff_lt]

namespace InStep

variable {m : Mem} {s : Store} {job : Job} {queue : List Job} {node : Node}

/-- A pass enters the loop over its queue in step with the store. -/
theorem passMem (hr : s.NonnegRequests) (ha : s.NonnegAvail) (e : Engine) (clock : Clock)
    (shares : List (String × ℚ)) (dead : List String) :
    InStep (passMem dead s) s (e.queueOrder clock shares s) := by
  have hperm : (e.queueOrder clock shares s).Perm (s.jobs.rows.filter (·.status ∈ [.queued])) :=
    (Algorithm.order_perm _ _ _ _).trans (perm_sliceStable _ _)
  refine ⟨fun n hn ↦ Table.find?_key (mem_sliceStable.mp hn), fun j hj ↦ ?_, ?_, hr, ha⟩
  · obtain ⟨hj, hq⟩ := List.mem_filter.mp (hperm.mem_iff.mp hj)
    exact ⟨Table.find?_key hj, by simpa using hq⟩
  · exact (hperm.map Job.jobID).nodup_iff.mpr
      (s.jobs.nodup.sublist (List.filter_sublist.map Job.jobID))

theorem events (h : InStep m s queue) (evs : List SchedulingEvent) :
    InStep m { s with events := evs } queue := ⟨h.synced, h.queued, h.nodup, h.requests, h.avail⟩

/-- A job that is given up on is not looked at again. -/
theorem tail (h : InStep m s (job :: queue)) : InStep m s queue :=
  ⟨h.synced, fun j hj ↦ h.queued j (List.mem_cons_of_mem job hj),
    (List.nodup_cons.mp h.nodup).2, h.requests, h.avail⟩

/-- The job at the head of the queue does not occur in the rest of it. -/
theorem ne_head (h : InStep m s (job :: queue)) {j : Job} (hj : j ∈ queue) :
    j.jobID ≠ job.jobID := fun heq ↦
  (List.nodup_cons.mp h.nodup).1 (heq ▸ List.mem_map_of_mem hj)

/-- A committed placement keeps memory and store in step. -/
theorem commit (h : InStep m s (job :: queue)) (hn : node ∈ m.nodes)
    (hf : node.fits job.resourceRequest = true) (evs : List SchedulingEvent) :
    InStep (m.commit job node) { s.place job node with events := evs } queue where
  synced := Mem.synced_putNode (s := s.schedule job.jobID node.nodeID) h.synced hn rfl
  queued j hj := by
    obtain ⟨hfind, hq⟩ := h.queued j (List.mem_cons_of_mem job hj)
    refine ⟨?_, hq⟩
    change (s.schedule job.jobID node.nodeID).jobs.find? j.jobID = some j
    rw [Store.jobs_schedule, Table.find?_modify_of_ne _ (h.ne_head hj), hfind]
  nodup := (List.nodup_cons.mp h.nodup).2
  requests := h.requests.schedule node.nodeID
  avail := by
    refine Store.NonnegAvail.writeBack (s := s.schedule job.jobID node.nodeID) h.avail fun d ↦ ?_
    have := (Node.fits_iff.mp hf).2 d
    rw [Node.avail_reserve]
    omega

/-- A committed placement keeps the drift of every node. -/
theorem drift_place (h : InStep m s (job :: queue)) (hn : node ∈ m.nodes) (id : String)
    (d : Resource) : (s.place job node).drift id d = s.drift id d := by
  obtain ⟨hjob, hq⟩ := h.queued job List.mem_cons_self
  have hrow := h.synced node hn
  have hinactive : job.status.isActive = false := by rw [hq]; rfl
  have hload : ∀ id, (s.place job node).load id d =
      s.load id d + (job.scheduledOn node.nodeID).usage id d := fun id ↦ by
    rw [Store.place, Store.load_writeBack, Store.load_schedule hjob,
      Job.usage_of_not_active hinactive, sub_zero]
  by_cases hid : id = node.nodeID
  · subst hid
    have hrow' : (s.place job node).nodes.find? node.nodeID =
        some (node.reserve job.resourceRequest) := Store.find?_writeBack_self hrow rfl
    rw [Store.drift_of_find? hrow', Store.drift_of_find? hrow, hload, Job.usage_scheduledOn_self,
      Node.avail_reserve, Node.cap_reserve, Job.request]
    omega
  · refine Store.drift_congr (Store.find?_writeBack_of_ne hid) ?_
    rw [hload, Job.usage_scheduledOn_of_ne _ (Ne.symm hid), add_zero]

/-- A reservation that could not be persisted is rolled back. -/
theorem rollback (h : InStep m s (job :: queue)) (hn : node ∈ m.nodes)
    (hcap : ∀ d, node.avail d ≤ node.cap d) :
    InStep ((m.commit job node).putNode
      ((node.reserve job.resourceRequest).release job.resourceRequest)) s queue := by
  refine ⟨fun x hx ↦ ?_, h.tail.queued, h.tail.nodup, h.requests, h.avail⟩
  rw [Node.release_reserve hcap] at hx
  rcases Mem.mem_nodes_putNode hx with rfl | ⟨hx, hne⟩
  · exact h.synced x hn
  · rcases Mem.mem_nodes_putNode hx with rfl | ⟨hx, -⟩
    · exact absurd rfl hne
    · exact h.synced x hx

end InStep

end GpuScheduler
