import GpuScheduler.Lib.Trade
import GpuScheduler.Scheduler.Audit
import GpuScheduler.Scheduler.Preempting

/-!
# What passes trade

A job that a pass evicts goes back to the queue, may be placed again in the next pass, and may evict
others in turn.  While nothing happens outside, this comes to an end: every placement trades the
jobs it evicts for one of higher priority, so that the jobs that are scheduled or running are worth
more after each placement than before (`Trading`), whichever engines make the passes.

This needs that an eviction is always followed by a placement, and that is so when no job asks for
more than a ready node has at all.  `placements_bounded` counts the placements of any sequence of
passes.
-/

namespace GpuScheduler

open Lib Models

/-- The job is one that a pass may place or evict. -/
def Models.Job.contends (j : Job) : Bool := j.status = .queued || j.status.isActive

namespace Store

variable {s t : Store} {id : String}

/-- The jobs that are scheduled or running. -/
def activeIDs (s : Store) : Finset String := s.jobs.keysWhere fun j ↦ j.status.isActive

/-- The jobs that are queued, scheduled or running. -/
def contenders (s : Store) : Finset String := s.jobs.keysWhere Job.contends

theorem activeIDs_subset_contenders : s.activeIDs ⊆ s.contenders := by
  intro id hid
  obtain ⟨j, hj, hact⟩ := Table.mem_keysWhere.mp hid
  exact Table.mem_keysWhere.mpr ⟨j, hj, by simp [Job.contends, hact]⟩

/-- The priority of a job. -/
def priorityOf (s : Store) (id : String) : Int := ((s.jobs.find? id).map Job.priority).getD 0

theorem priorityOf_of_mem {j : Job} (h : j ∈ s.jobs.rows) :
    s.priorityOf j.jobID = j.priority := by
  rw [priorityOf, Table.find?_key h]
  rfl

/-- A job that is scheduled is active from then on. -/
theorem mem_activeIDs_schedule {job : Job} (hjob : job ∈ s.jobs.rows) (nodeID : String) :
    id ∈ (s.schedule job.jobID nodeID).activeIDs ↔ id = job.jobID ∨ id ∈ s.activeIDs := by
  simp only [activeIDs, Table.mem_keysWhere, jobs_schedule]
  by_cases hid : id = job.jobID
  · subst hid
    refine ⟨fun _ ↦ .inl rfl, fun _ ↦ ⟨job.scheduledOn nodeID, ?_, rfl⟩⟩
    rw [Table.find?_modify_self, Table.find?_key hjob]
    rfl
  · rw [Table.find?_modify_of_ne _ hid]
    exact ⟨.inr, fun h ↦ h.resolve_left hid⟩

/-- A job that is requeued is not. -/
theorem mem_activeIDs_requeue {v : String} :
    id ∈ (s.requeue v .queued).activeIDs ↔ id ≠ v ∧ id ∈ s.activeIDs := by
  simp only [activeIDs, Table.mem_keysWhere, jobs_requeue]
  by_cases hid : id = v
  · subst hid
    refine ⟨?_, fun h ↦ absurd rfl h.1⟩
    rintro ⟨j, hj, hact⟩
    rw [Table.find?_modify_self] at hj
    obtain ⟨r, -, rfl⟩ := Option.map_eq_some_iff.mp hj
    cases hact
  · rw [Table.find?_modify_of_ne _ hid]
    exact ⟨fun h ↦ ⟨hid, h⟩, And.right⟩

/-! ## What stays as it is -/

/-- What passes leave of the rows: a job keeps its priority and its request, and does not begin to
contend; a node keeps everything but its availabilities. -/
structure Later (s t : Store) : Prop where
  jobs : Table.Related (fun j j' ↦ j'.priority = j.priority ∧ j'.request = j.request ∧
    (j'.contends = true → j.contends = true)) s.jobs t.jobs
  nodes : Table.Related (fun n n' ↦ n.setAvailable 0 0 0 = n'.setAvailable 0 0 0) s.nodes t.nodes

namespace Later

theorem refl (s : Store) : Later s s :=
  ⟨.refl fun _ _ ↦ ⟨rfl, rfl, id⟩, .refl fun _ _ ↦ rfl⟩

theorem trans {u : Store} (h : Later s t) (h' : Later t u) : Later s u where
  jobs := h.jobs.trans h'.jobs fun _ _ _ h h' ↦
    ⟨h'.1.trans h.1, h'.2.1.trans h.2.1, fun hc ↦ h.2.2 (h'.2.2 hc)⟩
  nodes := h.nodes.trans h'.nodes fun _ _ _ h h' ↦ h.trans h'

theorem contenders_subset (h : Later s t) : t.contenders ⊆ s.contenders := by
  intro id hid
  obtain ⟨j, hj, hc⟩ := Table.mem_keysWhere.mp hid
  obtain ⟨r, hr, hk, -, -, hcont⟩ := h.jobs.left j (Table.mem_of_find? hj)
  refine Table.mem_keysWhere.mpr ⟨r, ?_, hcont hc⟩
  rw [← Table.key_of_find? hj, ← hk]
  exact Table.find?_key hr

theorem nonnegRequests (h : Later s t) (hs : s.NonnegRequests) : t.NonnegRequests := by
  intro j hj d
  obtain ⟨r, hr, -, -, hreq, -⟩ := h.jobs.left j hj
  rw [hreq]
  exact hs r hr d

/-- A statement on the row of a contender. -/
theorem modifyJob (h : Later s t) {u : Store} {id : String} {f : Job → Job}
    {hf : ∀ r : Job, (f r).jobID = r.jobID} (hjobs : u.jobs = t.jobs.modify id f hf)
    (hnodes : u.nodes = t.nodes) (hprio : ∀ r, (f r).priority = r.priority)
    (hreq : ∀ r, (f r).request = r.request)
    (hid : ∀ r ∈ s.jobs.rows, r.jobID = id → r.contends = true) : Later s u where
  jobs := by
    rw [hjobs]
    refine h.jobs.modify hf fun r hr hk r' hrr ↦ ?_
    exact ⟨(hprio r').trans hrr.1, (hreq r').trans hrr.2.1, fun _ ↦ hid r hr hk⟩
  nodes := by
    rw [hnodes]
    exact h.nodes

/-- Writing back availabilities. -/
theorem writeBack (h : Later s t) (n : Node) : Later s (t.writeBack n) :=
  ⟨h.jobs, h.nodes.modify (f := (·.setAvailable n.gpuAvailable n.cpuAvailable n.memoryAvailable))
    (fun _ ↦ rfl) fun _ _ _ _ hrr ↦ hrr⟩

end Later

/-- No job that may be placed asks for more than a ready node has at all. -/
def NoneOversized (s : Store) : Prop := ∀ j ∈ s.jobs.rows, j.contends = true →
  ∀ n ∈ s.nodes.rows, n.status = .ready → ∀ d, j.request d ≤ n.cap d

instance (s : Store) : Decidable s.NoneOversized :=
  inferInstanceAs (Decidable (∀ j ∈ s.jobs.rows, j.contends = true →
    ∀ n ∈ s.nodes.rows, n.status = .ready → ∀ d, j.request d ≤ n.cap d))

end Store

/-- Copies of a node that differ in their availabilities only. -/
theorem Models.Node.status_eq_of_setAvailable {n n' : Node}
    (h : n.setAvailable 0 0 0 = n'.setAvailable 0 0 0) : n.status = n'.status := by
  have hstatus := congrArg Node.status h
  exact hstatus

theorem Models.Node.cap_eq_of_setAvailable {n n' : Node}
    (h : n.setAvailable 0 0 0 = n'.setAvailable 0 0 0) : n.cap = n'.cap := by
  have hcap := congrArg Node.cap h
  rwa [cap_setAvailable, cap_setAvailable] at hcap

theorem Store.Later.noneOversized {s t : Store} (h : Store.Later s t) (hs : s.NoneOversized) :
    t.NoneOversized := by
  intro j hj hc n hn hready d
  obtain ⟨r, hr, -, -, hreq, hcont⟩ := h.jobs.left j hj
  obtain ⟨n₀, hn₀, -, hrow⟩ := h.nodes.left n hn
  rw [hreq, ← Node.cap_eq_of_setAvailable hrow]
  exact hs r hr (hcont hc) n₀ hn₀ ((Node.status_eq_of_setAvailable hrow).trans hready) d

namespace Scheduler

/-! ## What a pass trades -/

/-- What holds of every pass over `s` that has still to attempt the jobs `queue`. -/
structure Regular (s : Store) (queue : List Job) (p : Pass) : Prop where
  later : Store.Later s p.store
  distinct : (p.mem.nodes.map Node.nodeID).Nodup
  /-- The nodes held in memory differ from their rows in their availabilities only. -/
  held : ∀ n ∈ p.mem.nodes, ∃ n₀ ∈ s.nodes.rows, n₀.setAvailable 0 0 0 = n.setAvailable 0 0 0
  running : ∀ id, ∀ v ∈ p.mem.running id, v ∈ s.jobs.rows ∧ v.contends = true ∧
    ∀ j ∈ queue, j.jobID ≠ v.jobID
  queued : ∀ j ∈ queue, j ∈ p.store.jobs.rows ∧ j ∈ s.jobs.rows ∧ j.status = .queued
  nodup : (queue.map Job.jobID).Nodup

namespace Regular

variable {e : Engine} {now : Time} {s : Store} {queue : List Job} {p : Pass} {job : Job}
  {node : Node} {plan : PreemptionPlan}

theorem tail (h : Regular s (job :: queue) p) : Regular s queue p where
  later := h.later
  distinct := h.distinct
  held := h.held
  running id v hv := by
    obtain ⟨hrow, hc, hne⟩ := h.running id v hv
    exact ⟨hrow, hc, fun j hj ↦ hne j (List.mem_cons_of_mem job hj)⟩
  queued j hj := h.queued j (List.mem_cons_of_mem job hj)
  nodup := (List.nodup_cons.mp h.nodup).2

/-- The job whose turn it is does not come again. -/
theorem ne_head (h : Regular s (job :: queue) p) {j : Job} (hj : j ∈ queue) :
    j.jobID ≠ job.jobID := fun heq ↦
  (List.nodup_cons.mp h.nodup).1 (heq ▸ List.mem_map_of_mem hj)

theorem giveUp (h : Regular s (job :: queue) p) (why : String) :
    Regular s queue (p.giveUp e job why) where
  later := ⟨h.later.jobs, h.later.nodes⟩
  distinct := h.distinct
  held := h.held
  running := h.tail.running
  queued := h.tail.queued
  nodup := h.tail.nodup

theorem contends_of_queued (h : Regular s queue p) {j : Job} (hj : j ∈ queue) :
    j.contends = true := by
  simp [Job.contends, (h.queued j hj).2.2]

/-- What is written to a node in memory leaves the IDs as they are. -/
theorem map_nodeID_putNode (m : Mem) (n : Node) :
    (m.putNode n).nodes.map Node.nodeID = m.nodes.map Node.nodeID := by
  simp only [Mem.putNode, List.map_map]
  refine List.map_congr_left fun x _ ↦ ?_
  simp only [Function.comp_apply]
  split
  · rename_i hid
    exact hid.symm
  · rfl

theorem held_putNode {m : Mem} {n : Node}
    (h : ∀ x ∈ m.nodes, ∃ n₀ ∈ s.nodes.rows, n₀.setAvailable 0 0 0 = x.setAvailable 0 0 0)
    (hn : ∃ n₀ ∈ s.nodes.rows, n₀.setAvailable 0 0 0 = n.setAvailable 0 0 0) :
    ∀ x ∈ (m.putNode n).nodes, ∃ n₀ ∈ s.nodes.rows,
      n₀.setAvailable 0 0 0 = x.setAvailable 0 0 0 := by
  intro x hx
  rcases Mem.mem_nodes_putNode hx with rfl | ⟨hx, -⟩
  · exact hn
  · exact h x hx

/-- The planned node has been given back what its victims had. -/
theorem mem_evict (h : Regular s queue p) (hn : plan.node ∈ p.mem.nodes) :
    (p.evict plan).mem = p.mem.putNode (releaseAll plan.node plan.victims) := by
  refine Pass.mem_evictAll (Mem.putNode_self _ fun x hx hid ↦ ?_)
  exact List.inj_on_of_nodup_map h.distinct hx hn hid

/-- Evicting a job of the map of running jobs. -/
theorem later_evictOne (h : Store.Later s p.store) {v : Job} (hv : v ∈ s.jobs.rows)
    (hc : v.contends = true) (n : Node) : Store.Later s (p.evictOne n v).store := by
  refine h.modifyJob (Store.jobs_requeue _) rfl (fun _ ↦ rfl) (fun _ ↦ rfl) fun r hr hid ↦ ?_
  rw [s.jobs.eq_of_key_eq hr hv hid]
  exact hc

/-- The victims' rows are the only job rows that an eviction changes. -/
theorem mem_jobs_evict {j : Job} (hj : j ∈ p.store.jobs.rows)
    (hne : ∀ v ∈ plan.victims, j.jobID ≠ v.jobID) : j ∈ (p.evict plan).store.jobs.rows := by
  have hall : j ∈ (p.evictAll plan.node plan.victims).store.jobs.rows := by
    refine Pass.evictAll_induct (I := fun q ↦ j ∈ q.store.jobs.rows) hj ?_
    intro q n v hq _ _ _ hv
    have hkept : j ∈ (q.store.requeue v.jobID .queued).jobs.rows := by
      rw [Store.jobs_requeue]
      exact Table.mem_modify.mpr (.inr ⟨hq, hne v hv⟩)
    exact hkept
  exact hall

theorem evict (h : Regular s queue p)
    (hplan : findPreemption job p.mem.nodes p.mem.running = some plan) :
    Regular s queue (p.evict plan) := by
  obtain ⟨hn, -, -⟩ := findPreemption_some hplan
  have hvictims : ∀ v ∈ plan.victims, v ∈ s.jobs.rows ∧ v.contends = true ∧
      ∀ j ∈ queue, j.jobID ≠ v.jobID := fun v hv ↦
    h.running _ v (mem_running_of_victim hplan hv)
  have hlater : Store.Later s (p.evictAll plan.node plan.victims).store := by
    refine Pass.evictAll_induct (I := fun q ↦ Store.Later s q.store) h.later ?_
    intro q n v hq _ _ _ hv
    exact later_evictOne hq (hvictims v hv).1 (hvictims v hv).2.1 n
  refine ⟨hlater.writeBack _, ?_, ?_, fun id v hv ↦ ?_, fun j hj ↦ ?_, h.nodup⟩
  · rw [h.mem_evict hn, map_nodeID_putNode]
    exact h.distinct
  · rw [h.mem_evict hn]
    obtain ⟨n₀, hn₀, heq⟩ := h.held plan.node hn
    exact held_putNode h.held ⟨n₀, hn₀, heq.trans (setAvailable_releaseAll _ _)⟩
  · rw [h.mem_evict hn] at hv
    exact h.running id v hv
  · obtain ⟨hrow, hrest⟩ := h.queued j hj
    exact ⟨mem_jobs_evict hrow fun v hv ↦ (hvictims v hv).2.2 j hj, hrest⟩

theorem commit (h : Regular s (job :: queue) p) {reason : String} (hnode : node ∈ p.mem.nodes) :
    Regular s queue (p.commit e job node reason) := by
  obtain ⟨-, hrow₀, -⟩ := h.queued job List.mem_cons_self
  refine ⟨?_, ?_, ?_, fun id v hv ↦ ?_, fun j hj ↦ ?_, h.tail.nodup⟩
  · -- the rows
    have hsched : Store.Later s (p.schedule job node).store := by
      refine h.later.modifyJob (Store.jobs_schedule _) rfl (fun _ ↦ rfl) (fun _ ↦ rfl)
        fun r hr hid ↦ ?_
      rw [s.jobs.eq_of_key_eq hr hrow₀ hid]
      exact h.contends_of_queued List.mem_cons_self
    have hwrite := hsched.writeBack (node.reserve job.resourceRequest)
    exact ⟨hwrite.jobs, hwrite.nodes⟩
  · -- the nodes in memory
    have hput : (p.commit e job node reason).mem.nodes.map Node.nodeID =
        p.mem.nodes.map Node.nodeID := map_nodeID_putNode p.mem _
    rw [hput]
    exact h.distinct
  · obtain ⟨n₀, hn₀, heq⟩ := h.held node hnode
    exact held_putNode h.held ⟨n₀, hn₀, heq⟩
  · rcases Mem.mem_running_commit hv with hv | ⟨rfl, -⟩
    · exact h.tail.running id v hv
    · exact ⟨hrow₀, h.contends_of_queued List.mem_cons_self, fun j hj ↦ h.ne_head hj⟩
  · obtain ⟨hj, hj₀, hjst⟩ := h.queued j (List.mem_cons_of_mem job hj)
    refine ⟨?_, hj₀, hjst⟩
    rw [Pass.jobs_commit]
    exact Table.mem_modify.mpr (.inr ⟨hj, h.ne_head ‹_›⟩)

theorem start {clock : Clock} (dead : List String) (l : List Call) :
    Regular s (e.queue clock s) ⟨passMem dead s, s, l⟩ where
  later := .refl s
  distinct :=
    ((perm_sliceStable _ s.nodes.rows).map Node.nodeID).nodup_iff.mpr s.nodes.nodup
  held n hn := ⟨n, mem_sliceStable.mp hn, rfl⟩
  running id v hv := by
    obtain ⟨hv, -⟩ := List.mem_filter.mp hv
    obtain ⟨hrow, hact⟩ := (Listed.listByStatuses s).rows v hv
    refine ⟨hrow, by simp [Job.contends, hact], fun j hj heq ↦ ?_⟩
    obtain ⟨hjrow, hjst⟩ := Engine.mem_queueOrder.mp hj
    rw [← s.jobs.eq_of_key_eq hjrow hrow heq, hjst] at hact
    cases hact
  queued j hj := by
    obtain ⟨hrow, hst⟩ := Engine.mem_queueOrder.mp hj
    exact ⟨hrow, hrow, hst⟩
  nodup := ((Algorithm.order_perm _ _ _ _).map Job.jobID).nodup_iff.mpr (s.nodup_listByStatuses _)

/-- **An eviction is followed by a placement** when the job asks for no more than any ready node
has. -/
theorem not_wasted (h : Regular s (job :: queue) p) (hreq : s.NonnegRequests)
    (hcap : ∀ n ∈ s.nodes.rows, n.status = .ready → ∀ d, job.request d ≤ n.cap d)
    (hplan : findPreemption job p.mem.nodes p.mem.running = some plan) {why : String} :
    e.alg.place job (p.evict plan).mem.nodes ≠ .error why := by
  obtain ⟨hn, hready, -⟩ := findPreemption_some hplan
  have hfits : (releaseAll plan.node plan.victims).fits job.resourceRequest = true := by
    obtain ⟨n₀, hn₀, heq⟩ := h.held plan.node hn
    refine fits_releaseAll_of_plan (m := p.mem)
      (fun j hj ↦ hreq j (h.running _ j hj).1) (fun d ↦ ?_) hplan
    rw [← Node.cap_eq_of_setAvailable heq]
    exact hcap n₀ hn₀ ((Node.status_eq_of_setAvailable heq).trans hready) d
  intro herr
  rw [h.mem_evict hn] at herr
  have hmem : releaseAll plan.node plan.victims ∈
      (p.mem.putNode (releaseAll plan.node plan.victims)).nodes :=
    List.mem_map.mpr ⟨plan.node, hn, if_pos (nodeID_releaseAll _ _).symm⟩
  rw [Algorithm.place_error herr _ hmem] at hfits
  cases hfits

end Regular

/-! ## Every placement is a gain -/

/-- Besides, each placement has made the jobs that are active worth more. -/
structure Trading (rank : String → Int) (U : Finset String) (s : Store) (queue : List Job)
    (p : Pass) : Prop extends Regular s queue p where
  gain : worth rank U s.activeIDs + (placements p.calls).length ≤
    worth rank U p.store.activeIDs

namespace Trading

variable {rank : String → Int} {U : Finset String} {e : Engine} {now : Time} {s : Store}
  {queue : List Job} {p : Pass} {job : Job} {node : Node} {plan : PreemptionPlan}

theorem giveUp (h : Trading rank U s (job :: queue) p) (why : String) :
    Trading rank U s queue (p.giveUp e job why) where
  toRegular := h.toRegular.giveUp why
  gain := by
    have hcalls : placements (p.giveUp e job why).calls = placements p.calls := by
      rw [Pass.giveUp, Pass.record, placements_append]
      exact List.append_nil _
    rw [hcalls]
    exact h.gain

/-- The jobs that a plan evicts are those of lower priority, and nothing else is lost. -/
theorem mem_activeIDs_evict {id : String} : id ∈ (p.evict plan).store.activeIDs ↔
    (∀ v ∈ plan.victims, id ≠ v.jobID) ∧ id ∈ p.store.activeIDs := by
  have hgo : ∀ (vs : List Job) (p : Pass) (node : Node),
      id ∈ (p.evictAll node vs).store.activeIDs ↔
        (∀ v ∈ vs, id ≠ v.jobID) ∧ id ∈ p.store.activeIDs := by
    intro vs
    induction vs with
    | nil => simp [Pass.evictAll]
    | cons v vs ih =>
        intro p node
        have hone : id ∈ (p.evictOne (node.release v.resourceRequest) v).store.activeIDs ↔
            id ≠ v.jobID ∧ id ∈ p.store.activeIDs := Store.mem_activeIDs_requeue
        rw [Pass.evictAll, ih, hone, List.forall_mem_cons]
        tauto
  exact hgo plan.victims p plan.node

/-- A placement, after jobs of lower priority were evicted. -/
theorem commit (h : Trading rank U s (job :: queue) p)
    (hrank : ∀ j ∈ s.jobs.rows, rank j.jobID = j.priority) (hU : s.contenders ⊆ U) {q : Pass}
    (hq : Regular s (job :: queue) q) (hcalls : placements q.calls = placements p.calls)
    (hlost : ∀ id ∈ p.store.activeIDs, id ∉ q.store.activeIDs → rank id < job.priority)
    {reason : String} (hnode : node ∈ q.mem.nodes) :
    Trading rank U s queue (q.commit e job node reason) where
  toRegular := hq.commit hnode
  gain := by
    obtain ⟨hrow, hrow₀, hst⟩ := h.queued job List.mem_cons_self
    have hactive : ∀ id, id ∈ (q.commit e job node reason).store.activeIDs ↔
        id = job.jobID ∨ id ∈ q.store.activeIDs := fun id ↦
      Store.mem_activeIDs_schedule (hq.queued job List.mem_cons_self).1 node.nodeID
    have hinside : p.store.activeIDs ⊆ U :=
      (Store.activeIDs_subset_contenders.trans h.later.contenders_subset).trans hU
    have hfresh : job.jobID ∉ p.store.activeIDs := by
      intro hid
      obtain ⟨j, hj, hact⟩ := Table.mem_keysWhere.mp hid
      rw [Table.find?_key hrow, Option.some.injEq] at hj
      rw [← hj, hst] at hact
      cases hact
    have hgain : worth rank U p.store.activeIDs <
        worth rank U (q.commit e job node reason).store.activeIDs := by
      refine worth_lt_worth hinside hfresh ((hactive _).mpr (.inl rfl)) fun id hid hnot ↦ ?_
      rw [hrank job hrow₀]
      refine hlost id hid fun hq ↦ hnot ((hactive id).mpr (.inr hq))
    have hcount : placements (q.commit e job node reason).calls =
        placements p.calls ++ [(job.jobID, node.nodeID)] := by
      rw [(q.adds_commit e job node reason).calls, placements_append, hcalls]
      rfl
    have hbefore := h.gain
    rw [hcount, List.length_append, List.length_singleton]
    omega

/-- No job asks for more than a ready node has, so no eviction is in vain. -/
theorem not_wasted (h : Trading rank U s (job :: queue) p) (hreq : s.NonnegRequests)
    (hsize : s.NoneOversized)
    (hplan : findPreemption job p.mem.nodes p.mem.running = some plan) {why : String} :
    e.alg.place job (p.evict plan).mem.nodes ≠ .error why := by
  obtain ⟨-, hrow₀, -⟩ := h.queued job List.mem_cons_self
  exact h.toRegular.not_wasted hreq
    (hsize job hrow₀ (h.contends_of_queued List.mem_cons_self)) hplan

/-- One attempt. -/
theorem tried (hreq : s.NonnegRequests) (hsize : s.NoneOversized)
    (hrank : ∀ j ∈ s.jobs.rows, rank j.jobID = j.priority) (hU : s.contenders ⊆ U)
    (h : Trading rank U s (job :: queue) p) {q : Pass} (hq : Pass.Tried e now job p q) :
    Trading rank U s queue q := by
  cases hq with
  | placed hp =>
      exact h.commit hrank hU h.toRegular rfl (fun id hid hnot ↦ absurd hid hnot)
        (Algorithm.place_ok hp).1
  | refused _ => exact h.giveUp _
  | @replaced plan node reason _ _ hplan hp =>
      refine h.commit hrank hU (h.toRegular.evict hplan) ?_ (fun id hid hnot ↦ ?_)
        (Algorithm.place_ok hp).1
      · obtain ⟨l, hl, hadds⟩ := p.adds_evict plan
        rw [hadds.calls, placements_append, placements_of_aside hl, List.append_nil]
      · rw [mem_activeIDs_evict, not_and_or] at hnot
        have hvictim := hnot.resolve_right (not_not.mpr hid)
        push Not at hvictim
        obtain ⟨v, hv, rfl⟩ := hvictim
        rw [hrank v (h.running _ v (mem_running_of_victim hplan hv)).1]
        exact (priority_of_victim hplan hv).1
  | wasted _ _ hplan hp => exact absurd hp (h.not_wasted hreq hsize hplan)

/-- A pass begins without a gain. -/
theorem start {clock : Clock} (dead : List String) {l : List Call} (hl : placements l = []) :
    Trading rank U s (e.queue clock s) ⟨passMem dead s, s, l ++ reads s⟩ where
  toRegular := .start dead _
  gain := by
    rw [placements_append, hl, placements_of_aside fun c hc ↦ aside_of_mem_reads hc]
    exact le_rfl

/-- A whole pass. -/
theorem undisturbed (hreq : s.NonnegRequests) (hsize : s.NoneOversized)
    (hrank : ∀ j ∈ s.jobs.rows, rank j.jobID = j.priority) (hU : s.contenders ⊆ U) {clock : Clock}
    (dead : List String) {l : List Call} (hl : placements l = []) :
    Trading rank U s [] (e.undisturbed clock dead l s) :=
  Pass.run_induct (I := fun _ queue p ↦ Trading rank U s queue p) (start dead hl)
    fun _ _ _ _ _ h hq ↦ h.tried hreq hsize hrank hU hq

end Trading

/-! ## One pass after the other -/

/-- `n` passes of engines in `E`, one after the other, in which no call fails and no node is stale,
while nothing else happens. -/
inductive Ticks (E : Engine → Prop) : ℕ → Store → List Call → Store → Prop
  | nil (s : Store) : Ticks E 0 s [] s
  | cons {e : Engine} {clock : Clock} {n : ℕ} {s t u : Store} {r : Except StoreError Unit}
      {l l' : List Call} : E e → Logs Smooth (e.tick clock) s r l t →
      Ticks E n t l' u → Ticks E (n + 1) s (l ++ l') u

section Gain

variable {e : Engine} {clock : Clock} {s t : Store} {r : Except StoreError Unit} {l : List Call}
  {rank : String → Int} {U : Finset String}

/-- One pass. -/
theorem gain_tick (hreq : s.NonnegRequests) (hsize : s.NoneOversized)
    (hrank : ∀ j ∈ s.jobs.rows, rank j.jobID = j.priority) (hU : s.contenders ⊆ U)
    (hlog : Logs Smooth (e.tick clock) s r l t) :
    Store.Later s t ∧ worth rank U s.activeIDs + (placements l).length ≤
      worth rank U t.activeIDs := by
  obtain ⟨-, hend⟩ := tick_undisturbed hlog
  obtain ⟨rfl, rfl⟩ := Prod.mk.inj hend
  have h : Trading rank U s [] (e.undisturbed clock [] _ s) :=
    .undisturbed hreq hsize hrank hU [] (l := [.nodesMarkStaleDown e.cfg.heartbeatTTL]) rfl
  exact ⟨h.later, h.gain⟩

/-- Any number of passes. -/
theorem gain_ticks {E : Engine → Prop} {n : ℕ} (h : Ticks E n s l t) (hreq : s.NonnegRequests)
    (hsize : s.NoneOversized) (hrank : ∀ j ∈ s.jobs.rows, rank j.jobID = j.priority)
    (hU : s.contenders ⊆ U) : Store.Later s t ∧
      worth rank U s.activeIDs + (placements l).length ≤ worth rank U t.activeIDs := by
  induction h with
  | nil s => exact ⟨.refl s, le_rfl⟩
  | @cons e clock n s t u r l l' _ hlog _ ih =>
      obtain ⟨hlater, hgain⟩ := gain_tick hreq hsize hrank hU hlog
      have hrank' : ∀ j ∈ t.jobs.rows, rank j.jobID = j.priority := by
        intro j hj
        obtain ⟨r, hr, hk, hprio, -, -⟩ := hlater.jobs.left j hj
        rw [← hk, hprio]
        exact hrank r hr
      obtain ⟨hlater', hgain'⟩ := ih (hlater.nonnegRequests hreq) (hlater.noneOversized hsize)
        hrank' (hlater.contenders_subset.trans hU)
      refine ⟨hlater.trans hlater', ?_⟩
      rw [placements_append, List.length_append]
      omega

/-- The jobs that are active are worth less than all sets of contenders together. -/
theorem few_placements {E : Engine → Prop} {n : ℕ} (h : Ticks E n s l t)
    (hreq : s.NonnegRequests) (hsize : s.NoneOversized) :
    Store.Later s t ∧ (placements l).length < 2 ^ s.contenders.card := by
  have hrank : ∀ j ∈ s.jobs.rows, s.priorityOf j.jobID = j.priority := fun j hj ↦
    s.priorityOf_of_mem hj
  obtain ⟨hlater, hgain⟩ := gain_ticks h hreq hsize hrank (Finset.Subset.refl _)
  have hlt : worth s.priorityOf s.contenders t.activeIDs < 2 ^ s.contenders.card :=
    worth_lt (Store.activeIDs_subset_contenders.trans hlater.contenders_subset)
  exact ⟨hlater, by omega⟩

end Gain

/-- **Preemption does not go round in circles.**  However many passes follow each other, made by
whichever engines, while no call fails, no node is stale and nothing else happens: when no job asks
for a negative amount, or for more than a ready node has at all, there are fewer placements than
there are sets of jobs that are queued, scheduled or running. -/
theorem placements_bounded {E : Engine → Prop} {n : ℕ} {s t : Store} {l : List Call}
    (hreq : s.NonnegRequests) (hsize : s.NoneOversized) (h : Ticks E n s l t) :
    (placements l).length < 2 ^ s.contenders.card := by
  exact (few_placements h hreq hsize).2

namespace Trading

/-- A full node with a job of low priority, and two waiting jobs that may evict. -/
def cluster : Store :=
  Small.store [Small.job "a" .running 1 2 "n" 1, Small.job "b" .queued 8 2 "" 2,
    Small.job "c" .queued 9 2 "" 3] [Small.node "n" .ready 2 0]

/-- A pass that attempts the jobs in the order of their submission. -/
def engine : Engine := Small.engine .firstFit true

/-- A pass over the cluster. -/
def after : Except StoreError Unit × Store × List Call :=
  logOp (engine.tick ⟨5, 5⟩) (steady 3) cluster

theorem logs_after : Logs Smooth (engine.tick ⟨5, 5⟩) cluster after.1 after.2.2 after.2.1 :=
  logs_logOp (by decide +kernel)

theorem ticks_after : Ticks (fun e ↦ e = engine) 1 cluster (after.2.2 ++ []) after.2.1 :=
  .cons rfl logs_after (.nil _)

end Trading

/-- The second job evicts the first, and the third the second. -/
theorem placements_bounded_small :
    placements Trading.after.2.2 = [("b", "n"), ("c", "n")] ∧
      (placements (Trading.after.2.2 ++ [])).length < 2 ^ Trading.cluster.contenders.card :=
  ⟨by decide +kernel, placements_bounded (by decide) (by decide) Trading.ticks_after⟩

end Scheduler

end GpuScheduler
