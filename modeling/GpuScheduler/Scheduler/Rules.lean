import GpuScheduler.Store.Rules
import GpuScheduler.Accounting.Load
import GpuScheduler.Scheduler.Engine

/-!
# Rules for the scheduling engine

The control flow of `Engine.tick`, once and for all: what has to be shown of each placement, each
eviction and each recovered job for a property to hold after the whole pass.

The rule for `placeOne` holds in any setting, alone or under interference.  The others are for a
pass that runs alone, and spell out which calls may fail.
-/

namespace GpuScheduler

open Lib Models

/-- The memory of a pass after it has reserved a node for a job. -/
def Mem.commit (m : Mem) (job : Job) (node : Node) : Mem :=
  (m.putNode (node.reserve job.resourceRequest)).addRunning node.nodeID job

/-- The map of running jobs then has one job more. -/
theorem Mem.mem_running_commit {m : Mem} {job v : Job} {node : Node} {id : String}
    (h : v ∈ (m.commit job node).running id) :
    v ∈ m.running id ∨ (v = job ∧ id = node.nodeID) := by
  by_cases hid : id = node.nodeID
  · subst hid
    have h : v ∈ m.running node.nodeID ++ [job] := by
      rw [← Mem.running_addRunning_self]
      exact h
    rcases List.mem_append.mp h with h | h
    · exact .inl h
    · exact .inr ⟨List.mem_singleton.mp h, rfl⟩
  · rw [← Mem.running_addRunning_of_ne m hid]
    exact .inl h

/-- What a pass holds in memory after an eviction. -/
theorem Mem.putNode_putNode (m : Mem) {a b : Node} (h : a.nodeID = b.nodeID) :
    (m.putNode a).putNode b = m.putNode b := by
  simp only [Mem.putNode, List.map_map]
  congr 1
  refine List.map_congr_left fun x _ ↦ ?_
  simp only [Function.comp_apply]
  by_cases hx : x.nodeID = b.nodeID
  · rw [if_pos (hx.trans h.symm), if_pos h, if_pos hx]
  · have ha : x.nodeID ≠ a.nodeID := fun hx' ↦ hx (hx'.trans h)
    rw [if_neg ha, if_neg hx]

theorem Mem.putNode_self (m : Mem) {n : Node} (h : ∀ x ∈ m.nodes, x.nodeID = n.nodeID → x = n) :
    m.putNode n = m := by
  have hmap : (m.nodes.map fun x ↦ if x.nodeID = n.nodeID then n else x) = m.nodes := by
    refine (List.map_congr_left fun x hx ↦ ?_).trans (List.map_id _)
    by_cases hid : x.nodeID = n.nodeID
    · rw [if_pos hid, h x hx hid]; rfl
    · rw [if_neg hid]; rfl
  rw [Mem.putNode, hmap]

/-- Nodes held in memory that agree with their rows do so after one of them was changed and
written back. -/
theorem Mem.synced_putNode {m : Mem} {s : Store} {n n' : Node}
    (h : ∀ x ∈ m.nodes, s.nodes.find? x.nodeID = some x) (hn : n ∈ m.nodes)
    (hrow : n.setAvailable 0 0 0 = n'.setAvailable 0 0 0) :
    ∀ x ∈ (m.putNode n').nodes, (s.writeBack n').nodes.find? x.nodeID = some x := by
  have hid : (n.setAvailable 0 0 0).nodeID = (n'.setAvailable 0 0 0).nodeID := by rw [hrow]
  rw [Node.nodeID_setAvailable, Node.nodeID_setAvailable] at hid
  intro x hx
  rcases Mem.mem_nodes_putNode hx with rfl | ⟨hx, hne⟩
  · exact Store.find?_writeBack_self (hid ▸ h n hn) hrow
  · exact (Store.find?_writeBack_of_ne hne).trans (h x hx)

/-- The node after every victim's request has been returned to it. -/
def releaseAll (node : Node) (vs : List Job) : Node :=
  vs.foldl (fun n v ↦ n.release v.resourceRequest) node

@[simp] theorem releaseAll_cons (node : Node) (v : Job) (vs : List Job) :
    releaseAll node (v :: vs) = releaseAll (node.release v.resourceRequest) vs := rfl

@[simp] theorem nodeID_releaseAll (node : Node) (vs : List Job) :
    (releaseAll node vs).nodeID = node.nodeID := by
  induction vs generalizing node with
  | nil => rfl
  | cons v vs ih => exact (ih _).trans rfl

@[simp] theorem cap_releaseAll (node : Node) (vs : List Job) :
    (releaseAll node vs).cap = node.cap := by
  induction vs generalizing node with
  | nil => rfl
  | cons v vs ih => exact (ih _).trans (Node.cap_release node _)

theorem setAvailable_releaseAll (node : Node) (vs : List Job) :
    node.setAvailable 0 0 0 = (releaseAll node vs).setAvailable 0 0 0 := by
  induction vs generalizing node with
  | nil => rfl
  | cons v vs ih => exact (ih (node.release v.resourceRequest))

namespace Scheduler

/-! ## One job -/

section PlaceOne

variable {σ χ : Type} {L : Logic Call Call.Ret Mem σ χ} {e : Engine} {now : Time} {job : Job}
  {I Q : Mem → σ → Prop} {m : Mem} {s : σ}

/-- `placeOne` commits the job to a node that `place` returned, gives up, or first evicts the
victims of a plan and then does one of the two. -/
theorem Engine.wp_placeOne (hI : ∀ m s t, I m s → L.rely s t → L.inv t → I m t)
    (hcommit : ∀ node why reason m s, I m s → e.alg.place job m.nodes = .ok (node, why) →
      (e.commitPlacement job node reason).wp L (fun _ m s ↦ Q m s) m s)
    (hevict : e.cfg.enablePreemption = true → ∀ plan m s, I m s →
      findPreemption job m.nodes m.running = some plan →
      (applyPreemption plan).wp L (fun _ m s ↦ I m s) m s)
    (hgive : ∀ reason m s, I m s → (e.giveUp job reason).wp L (fun _ m s ↦ Q m s) m s)
    (h : I m s) : (e.placeOne now job).wp L (fun _ m s ↦ Q m s) m s := by
  refine Act.wp_bind.mpr (Act.wp_get.mpr fun t hst ht ↦ ?_)
  have h := hI m s t h hst ht
  cases hp : e.alg.place job m.nodes with
  | ok r => exact hcommit r.1 r.2 r.2 m t h hp
  | error why =>
      simp only
      split
      · rename_i hen
        simp only [Bool.and_eq_true] at hen
        cases hf : findPreemption job m.nodes m.running with
        | none => exact hgive why m t h
        | some plan =>
            refine Act.wp_bind.mpr ((hevict hen.1 plan m t h hf).mono fun _ m u _ h ↦ ?_)
            refine Act.wp_bind.mpr (Act.wp_get.mpr fun v huv hv ↦ ?_)
            have h := hI m u v h huv hv
            cases hp : e.alg.place job m.nodes with
            | ok r => exact hcommit r.1 r.2 _ m v h hp
            | error why => exact hgive why m v h
      · exact hgive why m t h

end PlaceOne

/-! ## A pass that runs alone -/

section Alone

variable {admits : Admits} {e : Engine} {job : Job} {m : Mem} {s : Store}

theorem Engine.wp_giveUp {reason : String} {Q : Unit → Mem → Store → Prop}
    (h : ∀ evs, Q () m { s with events := evs }) : Wp admits (e.giveUp job reason) Q m s := by
  refine Act.wp_bind.mpr (wp_events_record ?_ ?_) <;> rw [Act.wp_pure_alone]
  · exact h _
  · exact h s.events

/-- Committing a placement: the job's row first, the node's row second, the event last. -/
theorem Engine.wp_commitPlacement {node : Node} {reason : String}
    {Q : Unit → Mem → Store → Prop}
    (hfail : MayFail admits (m.commit job node) (.jobsSchedule job.jobID node.nodeID) s →
      Q () ((m.commit job node).putNode
        ((node.reserve job.resourceRequest).release job.resourceRequest)) s)
    (hhalf : (∃ gpu cpu mem, MayFail admits (m.commit job node)
        (.nodesUpdateAvailability node.nodeID gpu cpu mem) (s.schedule job.jobID node.nodeID)) →
      ∀ evs, Q () (m.commit job node) { s.schedule job.jobID node.nodeID with events := evs })
    (hok : ∀ evs, Q () (m.commit job node)
      { (s.schedule job.jobID node.nodeID).writeBack (node.reserve job.resourceRequest) with
        events := evs }) :
    Wp admits (e.commitPlacement job node reason) Q m s := by
  refine Act.wp_bind.mpr (Act.wp_modify_alone.mpr ?_)
  refine Act.wp_bind.mpr (Act.wp_modify_alone.mpr ?_)
  refine Act.wp_bind.mpr (wp_jobs_schedule ?_ fun hf ↦ Act.wp_modify_alone.mpr (hfail hf))
  refine Act.wp_bind.mpr (wp_nodes_updateAvailability ?_ fun hf ↦ ?_)
  · refine Act.wp_bind.mpr (wp_events_record ?_ ?_) <;> rw [Act.wp_pure_alone]
    · exact hok _
    · exact hok s.events
  · refine Act.wp_bind.mpr (wp_events_record ?_ ?_) <;> rw [Act.wp_pure_alone]
    · exact hhalf ⟨_, _, _, hf⟩ _
    · exact hhalf ⟨_, _, _, hf⟩ s.events

/-- Evicting one victim: it is requeued as preempted and then returned to the queue. -/
theorem wp_evictVictims_cons {node : Node} {v : Job} {vs : List Job}
    {Q : Node → Mem → Store → Prop}
    (hfail : CanFail admits →
      Wp admits (Engine.evictVictims (node.release v.resourceRequest) vs) Q
        (m.putNode (node.release v.resourceRequest)) s)
    (hhalf : MayFail admits (m.putNode (node.release v.resourceRequest))
        (.jobsUpdateStatus v.jobID .queued) (s.requeue v.jobID .preempted) →
      Wp admits (Engine.evictVictims (node.release v.resourceRequest) vs) Q
        (m.putNode (node.release v.resourceRequest)) (s.requeue v.jobID .preempted))
    (hok : ∀ now, Wp admits (Engine.evictVictims (node.release v.resourceRequest) vs) Q
        (m.putNode (node.release v.resourceRequest))
        ((s.requeue v.jobID .preempted).updateStatus v.jobID .queued now)) :
    Wp admits (Engine.evictVictims node (v :: vs)) Q m s := by
  refine Act.wp_bind.mpr (Act.wp_modify_alone.mpr ?_)
  refine Act.wp_bind.mpr (wp_jobs_requeue ?_ fun hf ↦ hfail hf.canFail)
  exact Act.wp_bind.mpr (wp_jobs_updateStatus (fun now _ ↦ hok now) hhalf)

theorem wp_evictVictims_nil {node : Node} {Q : Node → Mem → Store → Prop} (h : Q node m s) :
    Wp admits (Engine.evictVictims node []) Q m s := Act.wp_pure_alone.mpr h

theorem wp_applyPreemption {plan : PreemptionPlan} {Q : Unit → Mem → Store → Prop}
    (h : Wp admits (Engine.evictVictims plan.node plan.victims)
      (fun node m s ↦ Q () m (s.writeBack node) ∧ (CanFail admits → Q () m s)) m s) :
    Wp admits (Engine.applyPreemption plan) Q m s := by
  refine Act.wp_bind.mpr (h.mono fun node m s _ hQ ↦ ?_)
  exact Act.wp_bind.mpr (wp_nodes_updateAvailability (Act.wp_pure_alone.mpr hQ.1)
    fun hf ↦ Act.wp_pure_alone.mpr (hQ.2 hf.canFail))

/-! ## The whole pass -/

/-- The order in which a pass attempts the queued jobs, when it has seen the given shares. -/
def Engine.queueOrder (e : Engine) (clock : Clock) (shares : List (String × ℚ)) (s : Store) :
    List Job :=
  e.alg.order clock.ordering (s.listByStatuses [.queued]) ⟨shares, e.cfg.agingFactor⟩

theorem Engine.mem_queueOrder {e : Engine} {clock : Clock} {shares : List (String × ℚ)} {s : Store}
    {j : Job} : j ∈ e.queueOrder clock shares s ↔ j ∈ s.jobs.rows ∧ j.status = .queued := by
  rw [queueOrder, (Algorithm.order_perm _ _ _ _).mem_iff, Store.listByStatuses, mem_sliceStable,
    List.mem_filter]
  simp

theorem Engine.queueOrder_of_empty {e : Engine} {clock : Clock} {shares : List (String × ℚ)}
    {s : Store} (h : s.listByStatuses [.queued] = []) : e.queueOrder clock shares s = [] := by
  refine List.Perm.eq_nil (.trans (Algorithm.order_perm _ _ _ _) ?_)
  rw [h]

/-- The memory with which a pass enters the loop over the queue. -/
def passMem (dead : List String) (s : Store) : Mem where
  nodes := s.listNodes
  running := runningMap (s.listByStatuses [.scheduled, .running])
  dead := dead

/-- The scheduling half of a pass: the loop over the queue is all that matters. -/
theorem Engine.wp_schedulePass {clock : Clock} {Q : Except StoreError Unit → Mem → Store → Prop}
    (herr : CanFail admits → ∀ err m, Q (.error err) m s)
    (hempty : s.listByStatuses [.queued] = [] → ∀ m, Q (.ok ()) m s)
    (hloop : ∀ shares, (shares = sharesOf s.listNodes s.teamGPUUsage ∨ CanFail admits) →
      Wp admits ((e.queueOrder clock shares s).forM (e.placeOne clock.pass))
        (fun _ m s ↦ Q (.ok ()) m s) (passMem m.dead s) s) :
    Wp admits (e.schedulePass clock) Q m s := by
  have hfail : ∀ {m c} (err : StoreError), MayFail admits m c s → ∀ m',
      Wp admits (pure (.error err)) Q m' s := fun err hf m' ↦
    Act.wp_pure_alone.mpr (herr hf.canFail err m')
  refine Act.wp_bind.mpr (wp_nodes_list ?_ fun hf ↦ hfail _ hf _)
  refine Act.wp_bind.mpr (Act.wp_modify_alone.mpr ?_)
  refine Act.wp_bind.mpr (wp_jobs_listByStatuses ?_ fun hf ↦ hfail _ hf _)
  refine Act.wp_bind.mpr (wp_jobs_listByStatuses ?_ fun hf ↦ hfail _ hf _)
  simp only
  split
  · rename_i hq
    exact Act.wp_pure_alone.mpr (hempty (List.isEmpty_iff.mp hq) _)
  · have hpass : ∀ shares, (shares = sharesOf s.listNodes s.teamGPUUsage ∨ CanFail admits) →
        Wp admits (do
          Act.modify fun m ↦ { m with
            running := runningMap (s.listByStatuses [.scheduled, .running]) }
          (e.queueOrder clock shares s).forM (e.placeOne clock.pass)
          pure (.ok ())) Q { m with nodes := s.listNodes } s := by
      intro shares hs
      refine Act.wp_bind.mpr (Act.wp_modify_alone.mpr (Act.wp_bind.mpr ?_))
      exact (hloop shares hs).mono fun _ m s _ h ↦ Act.wp_pure_alone.mpr h
    refine Act.wp_bind.mpr (Act.wp_bind.mpr (wp_jobs_teamGPUUsage ?_ fun hf ↦ ?_))
    · exact Act.wp_pure_alone.mpr (hpass _ (.inl rfl))
    · exact Act.wp_pure_alone.mpr (hpass _ (.inr hf.canFail))

/-- The jobs were listed as active, each of them once, and their rows are still as listed. -/
structure Listed (js : List Job) (s : Store) : Prop where
  rows : ∀ j ∈ js, j ∈ s.jobs.rows ∧ j.status.isActive = true
  nodup : (js.map Job.jobID).Nodup

namespace Listed

variable {js : List Job}

theorem listByStatuses (s : Store) : Listed (s.listByStatuses [.scheduled, .running]) s where
  rows j hj := by
    obtain ⟨hrow, hst⟩ := List.mem_filter.mp (mem_sliceStable.mp hj)
    exact ⟨hrow, JobStatus.isActive_iff.mpr (by simpa using hst)⟩
  nodup := s.nodup_listByStatuses _

theorem tail (h : Listed (job :: js) s) : Listed js s :=
  ⟨fun j hj ↦ h.rows j (List.mem_cons_of_mem job hj), (List.nodup_cons.mp h.nodup).2⟩

/-- A statement on the first job leaves the others as listed. -/
theorem modify {t : Store} (h : Listed (job :: js) s) {f : Job → Job}
    {hf : ∀ r : Job, (f r).jobID = r.jobID} (hjobs : t.jobs = s.jobs.modify job.jobID f hf) :
    Listed js t := by
  refine ⟨fun j hj ↦ ?_, (List.nodup_cons.mp h.nodup).2⟩
  have hne : j.jobID ≠ job.jobID := fun heq ↦
    (List.nodup_cons.mp h.nodup).1 (heq ▸ List.mem_map_of_mem hj)
  obtain ⟨hrow, hact⟩ := h.rows j (List.mem_cons_of_mem job hj)
  rw [hjobs]
  exact ⟨Table.mem_modify.mpr (.inr ⟨hrow, hne⟩), hact⟩

end Listed

/-- One active job, after its node may have been lost: it is declared failed when its retries are
used up, and goes back to the queue otherwise. -/
theorem wp_recoverJob {dead : List String} {Q : Unit → Mem → Store → Prop}
    (hskip : job.nodeID ∉ dead → Q () m s)
    (hfailed : job.nodeID ∈ dead → job.maxRetries ≤ job.retryCount →
      (∀ now, Q () m (s.updateStatus job.jobID .failed now)) ∧
        (MayFail admits m (.jobsUpdateStatus job.jobID .failed) s → Q () m s))
    (hqueued : job.nodeID ∈ dead → job.retryCount < job.maxRetries →
      Q () m (s.requeue job.jobID .queued) ∧
        (MayFail admits m (.jobsRequeue job.jobID .queued) s → Q () m s)) :
    Wp admits (Engine.recoverJob dead job) Q m s := by
  rw [Engine.recoverJob]
  split
  · rename_i hdead
    exact Act.wp_pure_alone.mpr (hskip (by simpa using hdead))
  · rename_i hdead
    have hdead : job.nodeID ∈ dead := by simpa using hdead
    split
    · rename_i hretry
      obtain ⟨hok, herr⟩ := hfailed hdead hretry
      exact Act.wp_bind.mpr (wp_jobs_updateStatus (fun now _ ↦ Act.wp_pure_alone.mpr (hok now))
        fun hf ↦ Act.wp_pure_alone.mpr (herr hf))
    · rename_i hretry
      obtain ⟨hok, herr⟩ := hqueued hdead (not_le.mp hretry)
      exact Act.wp_bind.mpr (wp_jobs_requeue (Act.wp_pure_alone.mpr hok)
        fun hf ↦ Act.wp_pure_alone.mpr (herr hf))

/-- Recovery from lost nodes. -/
theorem Engine.wp_reconcileDeadNodes {Q : Unit → Mem → Store → Prop}
    (herr : CanFail admits → Q () m s)
    (hnone : ∀ env, admits m (.nodesMarkStaleDown e.cfg.heartbeatTTL) env s →
      s.staleNodes e.cfg.heartbeatTTL env.now = [] →
      Q () m (s.markStaleDown e.cfg.heartbeatTTL env.now))
    (hlist : ∀ now, MayFail admits { m with dead := s.staleNodes e.cfg.heartbeatTTL now }
        (.jobsListByStatuses [.scheduled, .running]) (s.markStaleDown e.cfg.heartbeatTTL now) →
      Q () { m with dead := [] } (s.markStaleDown e.cfg.heartbeatTTL now))
    (hloop : ∀ env, admits m (.nodesMarkStaleDown e.cfg.heartbeatTTL) env s →
      Wp admits
        (((s.markStaleDown e.cfg.heartbeatTTL env.now).listByStatuses [.scheduled, .running]).forM
          (recoverJob (s.staleNodes e.cfg.heartbeatTTL env.now)))
        (fun _ m s ↦ Q () { m with dead := [] } s)
        { m with dead := s.staleNodes e.cfg.heartbeatTTL env.now }
        (s.markStaleDown e.cfg.heartbeatTTL env.now)) :
    Wp admits e.reconcileDeadNodes Q m s := by
  refine Act.wp_bind.mpr (wp_nodes_markStaleDown (fun env henv _ ↦ ?_)
    fun hf ↦ Act.wp_pure_alone.mpr (herr hf.canFail))
  simp only
  split
  · rename_i hd
    exact Act.wp_pure_alone.mpr (hnone env henv (List.isEmpty_iff.mp hd))
  · refine Act.wp_bind.mpr (Act.wp_modify_alone.mpr (Act.wp_bind.mpr ?_))
    refine wp_jobs_listByStatuses ?_ fun hf ↦ Act.wp_modify_alone.mpr (hlist _ hf)
    refine Act.wp_bind.mpr ((hloop env henv).mono fun _ m s _ h ↦ ?_)
    exact Act.wp_modify_alone.mpr h

/-- When no node is stale there is nothing to recover. -/
theorem Engine.wp_reconcileDeadNodes_of_noStale {Q : Unit → Mem → Store → Prop}
    (hstale : ∀ m c env s, admits m c env s → NoStale m c env s) (h : Q () m s) :
    Wp admits e.reconcileDeadNodes Q m s := by
  refine Act.wp_bind.mpr (wp_nodes_markStaleDown (fun env henv _ ↦ ?_)
    fun hf ↦ Act.wp_pure_alone.mpr h)
  have hns := hstale _ _ _ _ henv
  simp only [s.staleNodes_of_noStale hns, s.markStaleDown_of_noStale hns]
  exact Act.wp_pure_alone.mpr h

end Alone

end Scheduler

end GpuScheduler
