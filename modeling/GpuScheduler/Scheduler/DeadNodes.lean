import GpuScheduler.Scheduler.Recovery
import GpuScheduler.Scheduler.Undisturbed

/-!
# Recovery from lost nodes is complete

When no call fails, `reconcileDeadNodes` looks at every active job once, and takes those off their
nodes that were on a lost one: back to the queue while they have retries left, and to the failed
jobs otherwise.  The rest of the pass reads nodes and queue afresh.  The lost nodes are down by
then, so nothing is placed on them, and every job that went back to the queue is attempted.
-/

namespace GpuScheduler.Scheduler

open Lib Models

/-! ## The jobs after the recovery -/

/-- What becomes of the job `j` when the nodes `dead` are lost. -/
structure Rescued (dead : List String) (j j' : Job) : Prop where
  requeued : j.status.isActive = true → j.nodeID ∈ dead → j.retryCount < j.maxRetries →
    j'.status = .queued ∧ j'.nodeID = "" ∧ j'.retryCount = j.retryCount + 1
  failed : j.status.isActive = true → j.nodeID ∈ dead → j.maxRetries ≤ j.retryCount →
    j'.status = .failed ∧ j'.retryCount = j.retryCount
  other : ¬ (j.status.isActive = true ∧ j.nodeID ∈ dead) → j' = j

namespace Rescued

variable {dead : List String} {j j' : Job}

theorem refl (h : ¬ (j.status.isActive = true ∧ j.nodeID ∈ dead)) : Rescued dead j j :=
  ⟨fun ha hd ↦ absurd ⟨ha, hd⟩ h, fun ha hd ↦ absurd ⟨ha, hd⟩ h, fun _ ↦ rfl⟩

/-- A job that was active on a lost node is so no more. -/
theorem not_active (h : Rescued dead j j') (hact : j.status.isActive = true)
    (hdead : j.nodeID ∈ dead) : j'.status.isActive = false := by
  rcases lt_or_ge j.retryCount j.maxRetries with hlt | hge
  · rw [(h.requeued hact hdead hlt).1]
    rfl
  · rw [(h.failed hact hdead hge).1]
    rfl

/-- No job is left on a lost node. -/
theorem not_mem_dead (h : Rescued dead j j') (hact : j'.status.isActive = true) :
    j'.nodeID ∉ dead := by
  intro hdead
  by_cases hlost : j.status.isActive = true ∧ j.nodeID ∈ dead
  · rw [h.not_active hlost.1 hlost.2] at hact
    cases hact
  · obtain rfl := h.other hlost
    exact hlost ⟨hact, hdead⟩

/-- What the other nodes carry is the same. -/
theorem usage_eq (h : Rescued dead j j') {id : String} (hid : id ∉ dead) (d : Resource) :
    j'.usage id d = j.usage id d := by
  by_cases hlost : j.status.isActive = true ∧ j.nodeID ∈ dead
  · have hne : j.nodeID ≠ id := fun heq ↦ hid (heq ▸ hlost.2)
    rw [Job.usage_of_ne hne, Job.usage_of_not_active (h.not_active hlost.1 hlost.2)]
  · rw [h.other hlost]

end Rescued

/-- What holds while the jobs `js` are still to be looked at: they are as in `s₀`, and the others
were taken care of. -/
structure Rescuing (dead : List String) (s₀ : Store) (js : List Job) (s : Store) : Prop where
  listed : Listed js s₀
  jobs : Table.Related (fun j j' ↦ (j ∈ js → j' = j) ∧ (j ∉ js → Rescued dead j j')) s₀.jobs s.jobs
  nodes : s.nodes = s₀.nodes

namespace Rescuing

variable {dead : List String} {s₀ s t : Store} {js : List Job} {job : Job} {m : Mem}

theorem listByStatuses (s : Store) (dead : List String) :
    Rescuing dead s (s.listByStatuses [.scheduled, .running]) s where
  listed := .listByStatuses s
  jobs := by
    refine .refl fun j hj ↦ ⟨fun _ ↦ rfl, fun hno ↦ .refl ?_⟩
    rintro ⟨hact, -⟩
    refine hno (mem_sliceStable.mpr (List.mem_filter.mpr ⟨hj, ?_⟩))
    simpa using JobStatus.isActive_iff.mp hact
  nodes := rfl

/-- A job that is not on a lost node is left alone. -/
theorem skip (h : Rescuing dead s₀ (job :: js) s) (hdead : job.nodeID ∉ dead) :
    Rescuing dead s₀ js s where
  listed := h.listed.tail
  jobs := by
    refine h.jobs.mono fun j _ j' hjj ↦ ⟨fun hj ↦ hjj.1 (List.mem_cons_of_mem job hj), fun hj ↦ ?_⟩
    by_cases heq : j = job
    · subst heq
      rw [hjj.1 List.mem_cons_self]
      exact .refl fun hlost ↦ hdead hlost.2
    · exact hjj.2 fun hmem ↦ (List.mem_cons.mp hmem).elim heq hj
  nodes := h.nodes

/-- A statement on the job that does what is to be done. -/
theorem take (h : Rescuing dead s₀ (job :: js) s) {f : Job → Job}
    {hf : ∀ r : Job, (f r).jobID = r.jobID} (hjobs : t.jobs = s.jobs.modify job.jobID f hf)
    (hnodes : t.nodes = s.nodes) (hdone : Rescued dead job (f job)) : Rescuing dead s₀ js t where
  listed := h.listed.tail
  jobs := by
    rw [hjobs]
    have hrow := (h.listed.rows job List.mem_cons_self).1
    have hjs : job ∉ js := fun hmem ↦
      (List.nodup_cons.mp h.listed.nodup).1 (List.mem_map_of_mem hmem)
    refine h.jobs.modify_mono hf (fun j hj hk j' hjj ↦ ?_) fun j _ hk j' hjj ↦ ?_
    · obtain rfl := s₀.jobs.eq_of_key_eq hj hrow hk
      rw [hjj.1 List.mem_cons_self]
      exact ⟨fun hmem ↦ absurd hmem hjs, fun _ ↦ hdone⟩
    · have hne : j ≠ job := fun heq ↦ hk (congrArg Job.jobID heq)
      exact ⟨fun hmem ↦ hjj.1 (List.mem_cons_of_mem job hmem),
        fun hmem ↦ hjj.2 fun hcons ↦ (List.mem_cons.mp hcons).elim hne hmem⟩
  nodes := hnodes.trans h.nodes

/-- One job. -/
theorem wp_recoverJob {admits : Admits} (hok : ¬ CanFail admits)
    (h : Rescuing dead s₀ (job :: js) s) :
    Wp admits (Engine.recoverJob dead job) (fun _ _ t ↦ Rescuing dead s₀ js t) m s := by
  refine Scheduler.wp_recoverJob h.skip
    (fun hdead hge ↦ ⟨fun now ↦ ?_, fun hf ↦ absurd hf.canFail hok⟩)
    fun hdead hlt ↦ ⟨?_, fun hf ↦ absurd hf.canFail hok⟩
  · refine h.take (Store.jobs_updateStatus .failed now) rfl ?_
    exact ⟨fun _ _ hlt ↦ absurd hge (not_le.mpr hlt), fun _ _ _ ↦ ⟨rfl, rfl⟩,
      fun hno ↦ absurd ⟨(h.listed.rows job List.mem_cons_self).2, hdead⟩ hno⟩
  · refine h.take (Store.jobs_requeue .queued) rfl ?_
    exact ⟨fun _ _ _ ↦ ⟨rfl, rfl, rfl⟩, fun _ _ hge ↦ absurd hlt (not_lt.mpr hge),
      fun hno ↦ absurd ⟨(h.listed.rows job List.mem_cons_self).2, hdead⟩ hno⟩

end Rescuing

/-- The store after a recovery in which no call fails. -/
structure RecoveredTo (ttl : Duration) (now : Time) (s u : Store) : Prop where
  jobs : Table.Related (Rescued (s.staleNodes ttl now)) s.jobs u.jobs
  nodes : u.nodes = (s.markStaleDown ttl now).nodes

theorem wp_reconcileDeadNodes_recoveredTo {e : Engine} {now : Time} {m : Mem} {s : Store} :
    Wp (ReapsAt now) e.reconcileDeadNodes
      (fun _ _ u ↦ RecoveredTo e.cfg.heartbeatTTL now s u) m s := by
  have hok : ¬ CanFail (ReapsAt now) := not_canFail fun _ _ _ _ h ↦ h.1
  have hend : ∀ {u}, Rescuing (s.staleNodes e.cfg.heartbeatTTL now)
      (s.markStaleDown e.cfg.heartbeatTTL now) [] u →
      RecoveredTo e.cfg.heartbeatTTL now s u :=
    fun hu ↦ ⟨hu.jobs.mono fun j _ j' hjj ↦ hjj.2 List.not_mem_nil, hu.nodes⟩
  refine Engine.wp_reconcileDeadNodes (fun hf ↦ absurd hf hok) (fun env henv hnone ↦ ?_)
    (fun _ hf ↦ absurd hf.canFail hok) fun env henv ↦ ?_
  · obtain rfl := henv.2 _ rfl
    refine ⟨.refl fun j _ ↦ .refl fun hlost ↦ ?_, rfl⟩
    rw [hnone] at hlost
    exact absurd hlost.2 List.not_mem_nil
  · obtain rfl := henv.2 _ rfl
    exact (Act.wp_forM_alone (I := fun js _ t ↦ Rescuing _ _ js t) (.listByStatuses _ _)
      fun job js m t ht ↦ ht.wp_recoverJob hok).mono fun _ _ _ _ ht ↦ hend ht

namespace RecoveredTo

variable {ttl : Duration} {now : Time} {s u : Store}

/-- The lost nodes are down. -/
theorem down (h : RecoveredTo ttl now s u) {n : Node} (hn : n ∈ u.nodes.rows)
    (hdead : n.nodeID ∈ s.staleNodes ttl now) : n.status = .down := by
  rw [h.nodes] at hn
  by_contra hst
  exact Recovery.not_up_of_mem_staleNodes hdead ⟨n, hn, rfl, hst⟩

/-- Nothing is left on the lost nodes. -/
theorem not_mem_dead (h : RecoveredTo ttl now s u) {j' : Job} (hj' : j' ∈ u.jobs.rows)
    (hact : j'.status.isActive = true) : j'.nodeID ∉ s.staleNodes ttl now := by
  obtain ⟨j, -, -, hjj⟩ := h.jobs.left j' hj'
  exact hjj.not_mem_dead hact

end RecoveredTo

/-! ## The rest of the pass -/

/-- What holds of a pass that has attempted the jobs `done`, when the nodes `dead` are down. -/
structure Avoids (dead : List String) (done : List Job) (p : Pass) : Prop where
  jobs : ∀ j ∈ p.store.jobs.rows, j.status.isActive = true → j.nodeID ∉ dead
  nodes : ∀ n ∈ p.mem.nodes, n.status = .ready → n.nodeID ∉ dead
  attempted : ∀ j ∈ done, ∃ ev, .eventsRecord ev ∈ p.calls ∧ ev.jobID = j.jobID

namespace Avoids

variable {dead : List String} {done : List Job} {p : Pass} {job v : Job} {node : Node}
  {e : Engine} {now : Time}

theorem append {cs : List Call}
    (h : ∀ j ∈ done, ∃ ev, .eventsRecord ev ∈ p.calls ∧ ev.jobID = j.jobID) :
    ∀ j ∈ done, ∃ ev, .eventsRecord ev ∈ p.calls ++ cs ∧ ev.jobID = j.jobID := by
  intro j hj
  obtain ⟨ev, hev, hid⟩ := h j hj
  exact ⟨ev, List.mem_append_left cs hev, hid⟩

/-- The record of the decision on a job. -/
theorem record (h : Avoids dead done p) {ev : SchedulingEvent} (hev : ev.jobID = job.jobID) :
    Avoids dead (done ++ [job]) (p.record ev) := by
  refine ⟨h.jobs, h.nodes, fun j hj ↦ ?_⟩
  rcases List.mem_append.mp hj with hj | hj
  · exact append h.attempted j hj
  · obtain rfl := List.mem_singleton.mp hj
    exact ⟨ev, List.mem_append_right p.calls (List.mem_singleton_self _), hev⟩

theorem writeBack (h : Avoids dead done p) : Avoids dead done (p.writeBack node) :=
  ⟨h.jobs, h.nodes, append h.attempted⟩

theorem nodes_putNode {m : Mem} (h : ∀ n ∈ m.nodes, n.status = .ready → n.nodeID ∉ dead)
    (hnode : node.nodeID ∉ dead) :
    ∀ n ∈ (m.putNode node).nodes, n.status = .ready → n.nodeID ∉ dead := by
  intro n hn hst
  rcases Mem.mem_nodes_putNode hn with rfl | ⟨hn, -⟩
  · exact hnode
  · exact h n hn hst

theorem schedule (h : Avoids dead done p) (hnode : node.nodeID ∉ dead) :
    Avoids dead done (p.schedule job node) := by
  refine ⟨fun j hj hact ↦ ?_, nodes_putNode h.nodes hnode, append h.attempted⟩
  change j ∈ (p.store.schedule job.jobID node.nodeID).jobs.rows at hj
  rw [Store.jobs_schedule, Table.mem_modify] at hj
  rcases hj with ⟨j₀, -, -, rfl⟩ | ⟨hj, -⟩
  · exact hnode
  · exact h.jobs j hj hact

theorem evictOne (h : Avoids dead done p) (hnode : node.nodeID ∉ dead) :
    Avoids dead done (p.evictOne node v) := by
  refine ⟨fun j hj hact ↦ ?_, nodes_putNode h.nodes hnode, append h.attempted⟩
  change j ∈ (p.store.requeue v.jobID .queued).jobs.rows at hj
  rw [Store.jobs_requeue, Table.mem_modify] at hj
  rcases hj with ⟨j₀, -, -, rfl⟩ | ⟨hj, -⟩
  · cases hact
  · exact h.jobs j hj hact

theorem evict (h : Avoids dead done p) {plan : PreemptionPlan}
    (hplan : findPreemption job p.mem.nodes p.mem.running = some plan) :
    Avoids dead done (p.evict plan) := by
  obtain ⟨hn, hst, -⟩ := findPreemption_some hplan
  refine writeBack (Pass.evictAll_induct h fun q n v hq _ hid _ _ ↦ hq.evictOne ?_)
  rw [hid]
  exact h.nodes plan.node hn hst

theorem commit (h : Avoids dead done p) {reason why : String}
    (hp : e.alg.place job p.mem.nodes = .ok (node, why)) :
    Avoids dead (done ++ [job]) (p.commit e job node reason) := by
  obtain ⟨hn, hf⟩ := Algorithm.place_ok hp
  exact (h.schedule (h.nodes node hn (Node.fits_iff.mp hf).1)).writeBack.record rfl

/-- One attempt. -/
theorem tried {q : Pass} (h : Avoids dead done p) (hq : Pass.Tried e now job p q) :
    Avoids dead (done ++ [job]) q := by
  cases hq with
  | placed hp => exact h.commit hp
  | refused _ => exact h.record rfl
  | replaced _ _ hplan hp => exact (h.evict hplan).commit hp
  | wasted _ _ hplan _ => exact (h.evict hplan).record rfl

/-- The loop, from a store in which the recovery is done. -/
theorem undisturbed {ttl : Duration} {reaped : Time} {s u : Store} (h : RecoveredTo ttl reaped s u)
    (clock : Clock) (lost : List String) (l : List Call) :
    Avoids (s.staleNodes ttl reaped) (e.queue clock u) (e.undisturbed clock lost l u) := by
  refine Pass.run_induct (I := fun done _ p ↦ Avoids _ done p) ⟨?_, ?_, ?_⟩
    fun _ _ _ _ _ ht hq ↦ ht.tried hq
  · exact fun j hj hact ↦ h.not_mem_dead hj hact
  · intro n hn hst hdead
    rw [h.down (mem_sliceStable.mp hn) hdead] at hst
    cases hst
  · exact fun j hj ↦ absurd hj List.not_mem_nil

end Avoids

/-- **Recovery from lost nodes is complete.**  In a pass in which no call fails and which reports
the nodes lost at the time `now`: right after `reconcileDeadNodes` every job that was active on one
of them is queued with one retry more, or failed when it had none left, and every other job is
unchanged; at the end of the pass no active job is on one of them, and a decision on every job that
went back to the queue has been recorded. -/
theorem recovery_complete (e : Engine) (clock : Clock) (now : Time) (s : Store) :
    (∀ u, Runs (ReapsAt now) e.reconcileDeadNodes s () u →
      Table.Related (Rescued (s.staleNodes e.cfg.heartbeatTTL now)) s.jobs u.jobs) ∧
    ∀ r l t, Logs (ReapsAt now) (e.tick clock) s r l t →
      (∀ j ∈ t.jobs.rows, j.status.isActive = true →
        j.nodeID ∉ s.staleNodes e.cfg.heartbeatTTL now) ∧
      ∀ j ∈ s.jobs.rows, j.status.isActive = true →
        j.nodeID ∈ s.staleNodes e.cfg.heartbeatTTL now → j.retryCount < j.maxRetries →
        ∃ ev, .eventsRecord ev ∈ l ∧ ev.jobID = j.jobID := by
  have hrecovered : ∀ u, Runs (ReapsAt now) e.reconcileDeadNodes s () u →
      RecoveredTo e.cfg.heartbeatTTL now s u :=
    fun u hu ↦ hu.of_wp wp_reconcileDeadNodes_recoveredTo
  refine ⟨fun u hu ↦ (hrecovered u hu).jobs, fun r l t hlog ↦ ?_⟩
  obtain ⟨u, l₁, l₂, hrec, hpass, rfl⟩ := logs_tick hlog
  have hu := hrecovered u hrec.runs
  have havoids := Avoids.undisturbed (e := e) hu clock [] []
  have hstate := logs_schedulePass (fun _ _ _ _ h ↦ h.1) hpass
  rw [Pass.state, Prod.mk.injEq] at hstate
  refine ⟨?_, fun j hj hact hdead hlt ↦ ?_⟩
  · rw [hstate.1]
    exact havoids.jobs
  · obtain ⟨j', hj', hk, hjj⟩ := hu.jobs.right j hj
    have hqueued := (hjj.requeued hact hdead hlt).1
    obtain ⟨ev, hev, hid⟩ := havoids.attempted j' (Engine.mem_queueOrder.mpr ⟨hj', hqueued⟩)
    rw [hstate.2]
    exact ⟨ev, List.mem_append_right l₁ hev, hid.trans hk⟩

namespace DeadNodes

/-- A node that was last heard of at time 0, with two jobs of which one has no retries left, and
one that was just heard of. -/
def cluster : Store :=
  Small.store [{ Small.job "a" .running 1 1 "n" 0 with maxRetries := 2 },
    { Small.job "b" .running 1 1 "n" 1 with maxRetries := 2, retryCount := 2 }]
    [Small.node "n" .ready 2 0, { Small.node "m" .ready 2 2 with lastHeartbeat := 200 }]

/-- A pass at time 200, for which nodes are lost after 100 units of time. -/
def ticked : Except StoreError Unit × Store × List Call :=
  logOp ((Small.engine .firstFit true).tick ⟨200, 200⟩) (steady 200) cluster

end DeadNodes

/-- One job is failed, and the other goes to the node that is left. -/
theorem recovery_complete_small :
    DeadNodes.ticked.2.1.jobs.rows.map (fun j ↦ (j.jobID, j.status, j.nodeID, j.retryCount)) =
        [("a", .scheduled, "m", 1), ("b", .failed, "n", 2)] ∧
      DeadNodes.cluster.staleNodes 100 200 = ["n"] ∧
      (∀ j ∈ DeadNodes.ticked.2.1.jobs.rows, j.status.isActive = true →
        j.nodeID ∉ DeadNodes.cluster.staleNodes 100 200) := by
  have hlog : Logs (ReapsAt 200) ((Small.engine .firstFit true).tick ⟨200, 200⟩) DeadNodes.cluster
      DeadNodes.ticked.1 DeadNodes.ticked.2.2 DeadNodes.ticked.2.1 :=
    logs_logOp (Prog.admits_of_forall fun _ _ _ _ ↦ ⟨rfl, fun _ _ ↦ rfl⟩)
  obtain ⟨-, htick⟩ :=
    recovery_complete (Small.engine .firstFit true) ⟨200, 200⟩ 200 DeadNodes.cluster
  exact ⟨by decide +kernel, by decide +kernel, (htick _ _ _ hlog).1⟩

end GpuScheduler.Scheduler
