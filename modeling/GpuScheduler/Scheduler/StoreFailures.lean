import GpuScheduler.Scheduler.Preempting

/-!
# Placements and evictions when calls fail

`applyPreemption` returns a victim's request to the node before it requeues the victim, and goes on
to the next victim when that fails; `commitPlacement` reserves the node and books the job in memory
before it writes two rows, and takes back only a part of that when the first write fails.  So
neither is all or nothing, and the theorems here say exactly when they are.
-/

namespace GpuScheduler

open Lib Models

namespace Scheduler

/-! ## Evictions -/

/-- The requeueing of certain jobs fails, and no other call does. -/
def RequeueFails (failing : String → Bool) : Admits := fun _ c env _ ↦
  env.fails = match c with
    | .jobsRequeue id _ => failing id
    | _ => false

instance (failing : String → Bool) (m : Mem) (c : Call) (env : Env) (s : Store) :
    Decidable (RequeueFails failing m c env s) := inferInstanceAs (Decidable (_ = _))

section Evictions

variable {failing : String → Bool} {m : Mem} {s : Store} {vs : List Job}

/-- The rows of the victims: as before when the requeueing fails, and in the queue otherwise. -/
theorem wp_evictVictims_requeueFails (failing : String → Bool) {node : Node}
    (hvs : (vs.map Job.jobID).Nodup) :
    Wp (RequeueFails failing) (Engine.evictVictims node vs) (fun _ _ t ↦ ∀ id,
      t.jobs.find? id = if id ∈ vs.map Job.jobID ∧ failing id = false then
        (s.jobs.find? id).map (·.requeued .queued) else s.jobs.find? id) m s := by
  induction vs generalizing node m s with
  | nil => exact wp_evictVictims_nil fun id ↦ (if_neg fun h ↦ List.not_mem_nil h.1).symm
  | cons v vs ih =>
      obtain ⟨hv, hvs⟩ := List.nodup_cons.mp hvs
      refine Act.wp_bind.mpr (Act.wp_modify_alone.mpr (Act.wp_bind.mpr (wp_issue ?_ ?_)))
      · -- the victim is requeued, and its status set
        intro env henv hf
        have hnot : failing v.jobID = false := henv.symm.trans hf
        refine Act.wp_bind.mpr (wp_jobs_updateStatus (fun now _ ↦ ?_) ?_)
        · simp only [Store.perform, Store.updateStatus_requeue]
          refine (ih hvs).mono fun _ _ t _ ht id ↦ ?_
          rw [ht id, Store.jobs_requeue]
          by_cases hid : id = v.jobID
          · subst hid
            rw [if_neg fun h ↦ hv h.1, Table.find?_modify_self,
              if_pos ⟨List.mem_cons_self, hnot⟩]
          · rw [Table.find?_modify_of_ne _ hid]
            simp only [List.map_cons, List.mem_cons, hid, false_or]
        · rintro ⟨env', henv', hf'⟩
          rw [henv'] at hf'
          cases hf'
      · -- the victim stays where it is
        rintro ⟨env, henv, hf⟩
        have hfails : failing v.jobID = true := henv.symm.trans hf
        refine (ih hvs).mono fun _ _ t _ ht id ↦ ?_
        rw [ht id]
        by_cases hid : id = v.jobID
        · subst hid
          rw [if_neg fun h ↦ hv h.1, if_neg fun h ↦ by simp [hfails] at h]
        · simp only [List.map_cons, List.mem_cons, hid, false_or]

/-- Active jobs on a node ask for no more than its load. -/
theorem demand_le_load {id : String} (hr : s.NonnegRequests) (hvs : (vs.map Job.jobID).Nodup)
    (hon : ∀ v ∈ vs, v ∈ s.jobs.rows ∧ v.status.isActive = true ∧ v.nodeID = id) (d : Resource) :
    demand vs d ≤ s.load id d := by
  obtain ⟨js, hjs, hsub⟩ := List.subperm_of_subset hvs.of_map fun v hv ↦ (hon v hv).1
  have husage : demand vs d = (js.map (·.usage id d)).sum := by
    rw [(hjs.map _).sum_eq, demand]
    refine congrArg List.sum (List.map_congr_left fun v hv ↦ ?_)
    exact (Job.usage_of_active (hon v hv).2.1 (hon v hv).2.2 d).symm
  rw [husage]
  refine (hsub.map _).sum_le_sum fun x hx ↦ ?_
  obtain ⟨j, hj, rfl⟩ := List.mem_map.mp hx
  exact Job.usage_nonneg (hr j hj) id d

end Evictions

/-- Whether the job is still active on the node. -/
def stillOn (s : Store) (id : String) (v : Job) : Bool :=
  (s.jobs.find? v.jobID).any fun j ↦ j.status.isActive && j.nodeID = id

/-- What the node of a plan has available, in memory and in its row, is what it had and the requests
of those victims that are no longer on it. -/
structure FreesExactly (plan : PreemptionPlan) (m : Mem) (s : Store) : Prop where
  inMemory : ∀ n ∈ m.nodes, n.nodeID = plan.node.nodeID → ∀ d, n.avail d =
    plan.node.avail d + demand (plan.victims.filter (!stillOn s plan.node.nodeID ·)) d
  persisted : ∀ r, s.nodes.find? plan.node.nodeID = some r → ∀ d, r.avail d =
    plan.node.avail d + demand (plan.victims.filter (!stillOn s plan.node.nodeID ·)) d

/-- The pass holds a copy of the plan's node, the books of this node are right, and the victims are
active jobs on it. -/
structure Evictable (plan : PreemptionPlan) (m : Mem) (s : Store) : Prop where
  distinct : (m.nodes.map Node.nodeID).Nodup
  held : plan.node ∈ m.nodes
  row : s.nodes.find? plan.node.nodeID = some plan.node
  books : ∀ d, plan.node.avail d = plan.node.cap d - s.load plan.node.nodeID d
  requests : s.NonnegRequests
  once : (plan.victims.map Job.jobID).Nodup
  active : ∀ v ∈ plan.victims, s.jobs.find? v.jobID = some v ∧ v.status.isActive = true ∧
    v.nodeID = plan.node.nodeID

namespace Evictable

variable {failing : String → Bool} {plan : PreemptionPlan} {m : Mem} {s t : Store}

theorem requests_victims (h : Evictable plan m s) : ∀ v ∈ plan.victims, ∀ d, 0 ≤ v.request d :=
  fun v hv ↦ h.requests v (Table.mem_of_find? (h.active v hv).1)

/-- All the victims' requests fit below the capacity. -/
theorem avail_releaseAll (h : Evictable plan m s) (d : Resource) :
    (releaseAll plan.node plan.victims).avail d = plan.node.avail d + demand plan.victims d := by
  refine avail_releaseAll_of_le h.requests_victims ?_
  have hload := demand_le_load h.requests h.once
    (fun v hv ↦ ⟨Table.mem_of_find? (h.active v hv).1, (h.active v hv).2⟩) d
  have hbooks := h.books d
  omega

/-- A victim stays on the node exactly when its requeueing fails. -/
theorem stillOn_eq (h : Evictable plan m s) (ht : ∀ id, t.jobs.find? id =
      if id ∈ plan.victims.map Job.jobID ∧ failing id = false then
        (s.jobs.find? id).map (·.requeued .queued) else s.jobs.find? id) {v : Job}
    (hv : v ∈ plan.victims) : stillOn t plan.node.nodeID v = failing v.jobID := by
  obtain ⟨hrow, hact, hon⟩ := h.active v hv
  rw [stillOn, ht v.jobID, hrow]
  cases hf : failing v.jobID with
  | false =>
      rw [if_pos ⟨List.mem_map_of_mem hv, rfl⟩]
      rfl
  | true =>
      rw [if_neg fun hc ↦ by cases hc.2]
      simp [hact, hon]

/-- The state after the eviction. -/
theorem wp_applyPreemption (h : Evictable plan m s) :
    Wp (RequeueFails failing) (Engine.applyPreemption plan) (fun _ m' t ↦
      m' = m.putNode (releaseAll plan.node plan.victims) ∧
      t.nodes = (s.writeBack (releaseAll plan.node plan.victims)).nodes ∧
      ∀ v ∈ plan.victims, stillOn t plan.node.nodeID v = failing v.jobID) m s := by
  have hself : m.putNode plan.node = m :=
    m.putNode_self fun x hx hid ↦ List.inj_on_of_nodup_map h.distinct hx h.held hid
  have hevict := (wp_evictVictims_mem hself).and
    (wp_evictVictims_requeueFails failing (s := s) h.once)
  refine Act.wp_bind.mpr (hevict.mono ?_)
  rintro n m' t - ⟨⟨rfl, rfl, ht⟩, hjobs⟩
  refine Act.wp_bind.mpr (wp_nodes_updateAvailability (Act.wp_pure_alone.mpr ?_) ?_)
  · refine ⟨rfl, ?_, fun v hv ↦ h.stillOn_eq hjobs hv⟩
    change (t.writeBack _).nodes = _
    rw [Store.nodes_writeBack, Store.nodes_writeBack, ht]
  · rintro ⟨env, henv, hf⟩
    rw [henv] at hf
    cases hf

end Evictable

/-- **A failed eviction frees what it should not**, unless the victims whose requeueing fails ask
for nothing. -/
theorem applyPreemption_freesExactly_iff (failing : String → Bool) (plan : PreemptionPlan)
    (m m' : Mem) (s t : Store) (h : Evictable plan m s)
    (hrun : RunsFrom (RequeueFails failing) (Engine.applyPreemption plan) m s () m' t) :
    FreesExactly plan m' t ↔
      ∀ v ∈ plan.victims, failing v.jobID = true → ∀ d, v.request d = 0 := by
  obtain ⟨rfl, hnodes, hstill⟩ := hrun.of_wp h.wp_applyPreemption
  set node := releaseAll plan.node plan.victims with hnode
  have hid : node.nodeID = plan.node.nodeID := nodeID_releaseAll _ _
  have hmem : node ∈ (m.putNode node).nodes := List.mem_map.mpr ⟨plan.node, h.held, if_pos hid.symm⟩
  have hrow : t.nodes.find? plan.node.nodeID = some node := by
    rw [hnodes, ← hid]
    exact Store.find?_writeBack_self (hid ▸ h.row) (setAvailable_releaseAll _ _)
  -- all requests were returned, so that those of the remaining victims must amount to nothing
  have hsplit : ∀ d, demand (plan.victims.filter (failing ·.jobID)) d +
      demand (plan.victims.filter (!stillOn t plan.node.nodeID ·)) d = demand plan.victims d := by
    intro d
    have hgone : plan.victims.filter (!stillOn t plan.node.nodeID ·) =
        plan.victims.filter (!failing ·.jobID) :=
      List.filter_congr fun v hv ↦ by rw [hstill v hv]
    rw [hgone, ← demand_append]
    exact demand_perm (List.filter_append_perm _ _) d
  have hreq : ∀ v ∈ plan.victims.filter (failing ·.jobID), ∀ d, 0 ≤ v.request d :=
    fun v hv ↦ h.requests_victims v (List.mem_of_mem_filter hv)
  have havail := h.avail_releaseAll
  constructor
  · intro hfrees v hv hf d
    refine (demand_eq_zero_iff hreq d).mp ?_ v (List.mem_filter.mpr ⟨hv, hf⟩)
    have h₁ := hfrees.inMemory node hmem hid d
    have h₂ := hsplit d
    rw [havail] at h₁
    omega
  · intro hzero
    have hsame : ∀ d, node.avail d = plan.node.avail d +
        demand (plan.victims.filter (!stillOn t plan.node.nodeID ·)) d := by
      intro d
      have hnone : demand (plan.victims.filter (failing ·.jobID)) d = 0 :=
        (demand_eq_zero_iff hreq d).mpr fun v hv ↦
          hzero v (List.mem_filter.mp hv).1 (List.mem_filter.mp hv).2 d
      rw [havail, ← hsplit d, hnone, zero_add]
    constructor
    · intro n hn hnid
      rcases Mem.mem_nodes_putNode hn with rfl | ⟨-, hne⟩
      · exact hsame
      · exact absurd (hnid.trans hid.symm) hne
    · intro r hr
      rw [hrow, Option.some.injEq] at hr
      subst hr
      exact hsame

/-- A node that is full with one job, ... -/
def fullStore : Store :=
  Small.store [Small.job "a" .running 1 1 "n" 1] [Small.node "n" .ready 1 0]

/-- ... which is to be evicted. -/
def fullPlan : PreemptionPlan :=
  ⟨Small.node "n" .ready 1 0, [Small.job "a" .running 1 1 "n" 1]⟩

theorem evictable_small : Evictable fullPlan (passMem [] fullStore) fullStore :=
  ⟨by decide, by decide, by decide, by decide, by decide, by decide, by decide⟩

/-- When the job is requeued, the node is free. -/
theorem applyPreemption_freesExactly_small :
    FreesExactly fullPlan
      ((Engine.applyPreemption fullPlan (passMem [] fullStore)).run Store.exec calm
        fullStore).1.2
      ((Engine.applyPreemption fullPlan (passMem [] fullStore)).run Store.exec calm
        fullStore).2 :=
  (applyPreemption_freesExactly_iff (fun _ ↦ false) fullPlan (passMem [] fullStore) _
    fullStore _ evictable_small (runsFrom_run (by decide))).mpr (by decide)

/-- When the requeueing fails, the job keeps running on a node that counts as free, and the job for
which it was to be evicted finds room there. -/
theorem applyPreemption_frees_held : ∃ m' t,
    RunsFrom (RequeueFails fun _ ↦ true) (Engine.applyPreemption fullPlan)
      (passMem [] fullStore) fullStore () m' t ∧
    stillOn t "n" (Small.job "a" .running 1 1 "n" 1) = true ∧ ¬ FreesExactly fullPlan m' t ∧
    (Algorithm.firstFit.place (Small.job "p" .queued 9 1 "" 9) m'.nodes).isOk = true := by
  refine ⟨_, _, runsFrom_run (ω := fun n ↦ ⟨n = 0, 1⟩) (by decide), by decide, fun h ↦ ?_,
    by decide⟩
  exact absurd (h.inMemory (Small.node "n" .ready 1 1) (by decide) rfl .gpu) (by decide)

/-! ## Placements -/

/-- Whether `Jobs.Schedule` and `Nodes.UpdateAvailability` fail is given; the event may be recorded
or not. -/
def CommitFaults (scheduleFails updateFails : Bool) : Admits := fun _ c env _ ↦ match c with
  | .jobsSchedule _ _ => env.fails = scheduleFails
  | .nodesUpdateAvailability _ _ _ _ => env.fails = updateFails
  | _ => True

/-- The job is scheduled on the node, and what the node had available is less by the job's request,
in memory and in its row. -/
structure FullyPlaced (job : Job) (node : Node) (m : Mem) (s : Store) : Prop where
  scheduled : ∃ j, s.jobs.find? job.jobID = some j ∧ j.status = .scheduled ∧
    j.nodeID = node.nodeID
  inMemory : ∀ n ∈ m.nodes, n.nodeID = node.nodeID → ∀ d, n.avail d = node.avail d - job.request d
  persisted : ∀ r, s.nodes.find? node.nodeID = some r → ∀ d,
    r.avail d = node.avail d - job.request d

/-- A placement is made as a whole, or leaves everything as it was. -/
def AllOrNothing (job : Job) (node : Node) (m : Mem) (s : Store) (m' : Mem) (t : Store) : Prop :=
  FullyPlaced job node m' t ∨ (t = s ∧ m'.nodes = m.nodes ∧ m'.running = m.running)

section Placements

variable {e : Engine} {job : Job} {node : Node} {reason : String} {m : Mem} {s : Store}
  {scheduleFails updateFails : Bool}

/-- What `commitPlacement` does, by what fails. -/
theorem wp_commitPlacement_faults :
    Wp (CommitFaults scheduleFails updateFails) (e.commitPlacement job node reason)
      (fun _ m' t ↦
        (scheduleFails = true ∧ t = s ∧ m' = (m.commit job node).putNode
          ((node.reserve job.resourceRequest).release job.resourceRequest)) ∨
        (scheduleFails = false ∧ t.jobs = (s.schedule job.jobID node.nodeID).jobs ∧
          m' = m.commit job node ∧ t.nodes = if updateFails then s.nodes else
            (s.writeBack (node.reserve job.resourceRequest)).nodes)) m s := by
  refine Act.wp_bind.mpr (Act.wp_modify_alone.mpr ?_)
  refine Act.wp_bind.mpr (Act.wp_modify_alone.mpr (Act.wp_bind.mpr (wp_issue ?_ ?_)))
  · intro env henv hf
    have hsched : scheduleFails = false := henv.symm.trans hf
    refine Act.wp_bind.mpr (wp_issue ?_ ?_)
    · intro env' henv' hf'
      have hupd : updateFails = false := henv'.symm.trans hf'
      refine Act.wp_bind.mpr (wp_events_record ?_ ?_) <;> rw [Act.wp_pure_alone] <;>
        exact .inr ⟨hsched, rfl, rfl, by rw [hupd]; rfl⟩
    · rintro ⟨env', henv', hf'⟩
      have hupd : updateFails = true := henv'.symm.trans hf'
      refine Act.wp_bind.mpr (wp_events_record ?_ ?_) <;> rw [Act.wp_pure_alone] <;>
        exact .inr ⟨hsched, rfl, rfl, by rw [hupd]; rfl⟩
  · rintro ⟨env, henv, hf⟩
    exact Act.wp_modify_alone.mpr (.inl ⟨henv.symm.trans hf, rfl, rfl⟩)

/-- A commitment always adds to the map of running jobs. -/
theorem running_commit_ne : (m.commit job node).running ≠ m.running := by
  intro heq
  have hlen := congrArg List.length (congrFun heq node.nodeID)
  rw [Mem.commit, Mem.running_addRunning_self, List.length_append] at hlen
  exact absurd hlen (by simp [Mem.putNode])

/-- After a write of the job's row, the placement is complete up to the node's row. -/
theorem fullyPlaced_schedule_iff {t : Store} (hrow : s.nodes.find? node.nodeID = some node)
    (hjobs : t.jobs = (s.schedule job.jobID node.nodeID).jobs)
    (hnodes : t.nodes = if updateFails then s.nodes else
      (s.writeBack (node.reserve job.resourceRequest)).nodes) :
    FullyPlaced job node (m.commit job node) t ↔ ∃ row, s.jobs.find? job.jobID = some row ∧
      (updateFails = false ∨ ∀ d, job.request d = 0) := by
  have hfind : t.jobs.find? job.jobID =
      (s.jobs.find? job.jobID).map (·.scheduledOn node.nodeID) := by
    rw [hjobs, Store.jobs_schedule, Table.find?_modify_self]
  constructor
  · rintro ⟨⟨j, hj, -, -⟩, -, hpersisted⟩
    rw [hfind, Option.map_eq_some_iff] at hj
    obtain ⟨row, hrow', -⟩ := hj
    refine ⟨row, hrow', ?_⟩
    cases updateFails with
    | false => exact .inl rfl
    | true =>
        refine .inr fun d ↦ ?_
        have hd := hpersisted node (by rw [hnodes]; exact hrow) d
        omega
  · rintro ⟨row, hrow', hupd⟩
    refine ⟨⟨row.scheduledOn node.nodeID, by rw [hfind, hrow']; rfl, rfl, rfl⟩, ?_, ?_⟩
    · intro n hn hid d
      rcases Mem.mem_nodes_putNode hn with rfl | ⟨-, hne⟩
      · exact Node.avail_reserve node _ d
      · exact absurd hid hne
    · intro r hr d
      rw [hnodes] at hr
      cases updateFails with
      | false =>
          have hwritten := Store.find?_writeBack_self (s := s)
            (n := node.reserve job.resourceRequest) hrow rfl
          cases hwritten.symm.trans hr
          exact Node.avail_reserve node _ d
      | true =>
          cases hrow.symm.trans hr
          have hzero := hupd.resolve_left (by decide) d
          omega

/-- When the job's row is not written, the reservation is taken back. -/
theorem fullyPlaced_rollback_iff (hheld : node ∈ m.nodes)
    (hrow : s.nodes.find? node.nodeID = some node) :
    FullyPlaced job node ((m.commit job node).putNode
        ((node.reserve job.resourceRequest).release job.resourceRequest)) s ↔
      ∃ row, s.jobs.find? job.jobID = some row ∧ (∀ d, job.request d = 0) ∧
        row.status = .scheduled ∧ row.nodeID = node.nodeID ∧ ∀ d, node.avail d ≤ node.cap d := by
  set back := (node.reserve job.resourceRequest).release job.resourceRequest with hback
  have havail : ∀ d, back.avail d = min (node.cap d) (node.avail d) := by
    intro d
    rw [hback, Node.avail_release, Node.cap_reserve, Node.avail_reserve, sub_add_cancel]
  have hmem : back ∈ ((m.commit job node).putNode back).nodes := by
    rw [Mem.putNode, Mem.commit, Mem.addRunning, Mem.putNode]
    refine List.mem_map.mpr ⟨node.reserve job.resourceRequest, ?_, if_pos rfl⟩
    exact List.mem_map.mpr ⟨node, hheld, if_pos rfl⟩
  constructor
  · rintro ⟨⟨row, hj, hst, hon⟩, hmemory, hpersisted⟩
    have hzero : ∀ d, job.request d = 0 := fun d ↦ by
      have hd := hpersisted node hrow d
      omega
    refine ⟨row, hj, hzero, hst, hon, fun d ↦ ?_⟩
    have hd := hmemory back hmem rfl d
    rw [havail, hzero] at hd
    omega
  · rintro ⟨row, hj, hzero, hst, hon, hcap⟩
    refine ⟨⟨row, hj, hst, hon⟩, ?_, ?_⟩
    · intro n hn hid d
      rcases Mem.mem_nodes_putNode hn with rfl | ⟨-, hne⟩
      · rw [havail, hzero, min_eq_right (hcap d), sub_zero]
      · exact absurd hid hne
    · intro r hr d
      cases hrow.symm.trans hr
      rw [hzero, sub_zero]

end Placements

/-- **A placement is all or nothing** exactly when the job's row is written, and the node's row is
written too or the job asks for nothing; or when nothing is written, but the job was on the node
before and asks for nothing. -/
theorem commitPlacement_allOrNothing_iff (e : Engine) (job : Job) (node : Node) (reason : String)
    (m m' : Mem) (s t : Store) (scheduleFails updateFails : Bool) (hheld : node ∈ m.nodes)
    (hrow : s.nodes.find? node.nodeID = some node)
    (hrun : RunsFrom (CommitFaults scheduleFails updateFails) (e.commitPlacement job node reason)
      m s () m' t) :
    AllOrNothing job node m s m' t ↔
      ∃ row, s.jobs.find? job.jobID = some row ∧
        ((scheduleFails = false ∧ (updateFails = false ∨ ∀ d, job.request d = 0)) ∨
          (scheduleFails = true ∧ (∀ d, job.request d = 0) ∧ row.status = .scheduled ∧
            row.nodeID = node.nodeID ∧ ∀ d, node.avail d ≤ node.cap d)) := by
  -- the map of running jobs is never restored, so that it has to be all
  rcases hrun.of_wp wp_commitPlacement_faults with ⟨rfl, rfl, rfl⟩ | ⟨rfl, hjobs, rfl, hnodes⟩
  · have hall : AllOrNothing job node m t _ t ↔ _ :=
      (or_iff_left fun h ↦ running_commit_ne h.2.2).trans (fullyPlaced_rollback_iff hheld hrow)
    simpa using hall
  · have hall : AllOrNothing job node m s _ t ↔ _ :=
      (or_iff_left fun h ↦ running_commit_ne h.2.2).trans
        (fullyPlaced_schedule_iff hrow hjobs hnodes)
    simpa using hall

/-- A job in the queue, ... -/
def waitingJob : Job := Small.job "p" .queued 5 1 "" 1

/-- ... a node that is idle, ... -/
def idleNode : Node := Small.node "n" .ready 1 1

/-- ... and a store with the two of them. -/
def idleStore : Store := Small.store [waitingJob] [idleNode]

/-- When both rows are written, the placement is made. -/
theorem commitPlacement_allOrNothing_small :
    AllOrNothing waitingJob idleNode (passMem [] idleStore) idleStore
      (((Small.engine .firstFit false).commitPlacement waitingJob idleNode ""
        (passMem [] idleStore)).run Store.exec calm idleStore).1.2
      (((Small.engine .firstFit false).commitPlacement waitingJob idleNode ""
        (passMem [] idleStore)).run Store.exec calm idleStore).2 :=
  (commitPlacement_allOrNothing_iff (Small.engine .firstFit false) waitingJob idleNode ""
    (passMem [] idleStore) _ idleStore _ false false (by decide) (by decide)
    (runsFrom_run (ω := calm) ⟨rfl, rfl, trivial, trivial⟩)).mpr
    ⟨waitingJob, by decide, .inl ⟨rfl, .inl rfl⟩⟩

/-- When the job's row cannot be written, the pass goes on as if the queued job was running; and
when the node's row cannot be written, the node stays free in the store with the job on it. -/
theorem commitPlacement_not_allOrNothing :
    (∃ m' t, RunsFrom (CommitFaults true false)
      ((Small.engine .firstFit false).commitPlacement waitingJob idleNode "") (passMem [] idleStore)
        idleStore () m' t ∧
      ¬ AllOrNothing waitingJob idleNode (passMem [] idleStore) idleStore m' t) ∧
    ∃ m' t, RunsFrom (CommitFaults false true)
      ((Small.engine .firstFit false).commitPlacement waitingJob idleNode "") (passMem [] idleStore)
        idleStore () m' t ∧
      ¬ AllOrNothing waitingJob idleNode (passMem [] idleStore) idleStore m' t := by
  constructor
  · refine ⟨_, _, runsFrom_run (ω := fun _ ↦ ⟨true, 1⟩) ⟨rfl, trivial⟩, ?_⟩
    rintro (⟨-, hmemory, -⟩ | ⟨-, -, hrunning⟩)
    · exact absurd (hmemory idleNode (by decide) rfl .gpu) (by decide)
    · exact absurd (congrFun hrunning "n") (by decide)
  · refine ⟨_, _, runsFrom_run (ω := fun n ↦ ⟨n = 1, 1⟩) ⟨rfl, rfl, trivial, trivial⟩, ?_⟩
    rintro (⟨-, -, hpersisted⟩ | ⟨-, -, hrunning⟩)
    · exact absurd (hpersisted idleNode (by decide) .gpu) (by decide)
    · exact absurd (congrFun hrunning "n") (by decide)

end Scheduler

end GpuScheduler
