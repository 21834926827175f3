import GpuScheduler.Scheduler.Planning
import GpuScheduler.Scheduler.Rules

/-!
# An eviction is never wasted

The planner adds the requests of its victims without a ceiling and tests the sum itself; the engine
then returns the same requests one by one, each time cut at the capacity, and searches all nodes
again for the pending job.  While what a node has available and what runs on it stay within its
capacity, nothing is cut, so that the two agree: the planned node is the only one with room, and the
second search comes back to it.
-/

namespace GpuScheduler

open Lib Models

namespace Scheduler

/-! ## Returning the requests of the victims -/

/-- Nothing is cut while everything together is within the capacity. -/
theorem avail_releaseAll_of_le {node : Node} {vs : List Job} {d : Resource}
    (hreq : ∀ v ∈ vs, ∀ d, 0 ≤ v.request d) (hcap : node.avail d + demand vs d ≤ node.cap d) :
    (releaseAll node vs).avail d = node.avail d + demand vs d := by
  induction vs generalizing node with
  | nil => simp [releaseAll]
  | cons v vs ih =>
      have hrest : 0 ≤ demand vs d :=
        demand_nonneg (fun w hw ↦ hreq w (List.mem_cons_of_mem v hw)) d
      rw [demand_cons] at hcap ⊢
      have hstep : (node.release v.resourceRequest).avail d = node.avail d + v.request d := by
        rw [Node.avail_release]
        exact min_eq_right (by change node.avail d + v.request d ≤ _; omega)
      rw [releaseAll_cons, ih (fun w hw ↦ hreq w (List.mem_cons_of_mem v hw)), hstep, add_assoc]
      rw [hstep, Node.cap_release]
      omega

/-- Whatever is cut, at least what there is room for is returned. -/
theorem min_le_avail_releaseAll {node : Node} {vs : List Job} {d : Resource}
    (hreq : ∀ v ∈ vs, ∀ d, 0 ≤ v.request d) :
    min (node.cap d) (node.avail d + demand vs d) ≤ (releaseAll node vs).avail d := by
  induction vs generalizing node with
  | nil => simp [releaseAll]
  | cons v vs ih =>
      have hreq' : ∀ w ∈ vs, ∀ d, 0 ≤ w.request d := fun w hw ↦
        hreq w (List.mem_cons_of_mem v hw)
      have hrest : 0 ≤ demand vs d := demand_nonneg hreq' d
      have hstep : min ((node.release v.resourceRequest).cap d) _ ≤ _ := ih hreq'
      have hv : v.resourceRequest.amount d = v.request d := rfl
      rw [Node.avail_release, Node.cap_release, hv] at hstep
      rw [releaseAll_cons, demand_cons]
      omega

@[simp] theorem status_releaseAll (node : Node) (vs : List Job) :
    (releaseAll node vs).status = node.status := by
  induction vs generalizing node with
  | nil => rfl
  | cons v vs ih => exact (ih _).trans rfl

section Apply

variable {admits : Admits} {m : Mem} {s : Store} {plan : PreemptionPlan}

/-- Whatever fails, the eviction loop returns every victim's request in memory, and writes to no
node. -/
theorem wp_evictVictims_mem {node : Node} {vs : List Job} (hself : m.putNode node = m) :
    Wp admits (Engine.evictVictims node vs) (fun n m' t ↦ n = releaseAll node vs ∧
      m' = m.putNode (releaseAll node vs) ∧ t.nodes = s.nodes) m s := by
  induction vs generalizing node m s with
  | nil => exact wp_evictVictims_nil ⟨rfl, hself.symm, rfl⟩
  | cons v vs ih =>
      have hrest : ∀ u : Store, u.nodes = s.nodes →
          Wp admits (Engine.evictVictims (node.release v.resourceRequest) vs)
            (fun n m' t ↦ n = releaseAll node (v :: vs) ∧
              m' = m.putNode (releaseAll node (v :: vs)) ∧ t.nodes = s.nodes)
            (m.putNode (node.release v.resourceRequest)) u := by
        intro u hu
        refine (ih (m.putNode_putNode rfl)).mono ?_
        rintro n m' t - ⟨rfl, rfl, ht⟩
        exact ⟨rfl, m.putNode_putNode (nodeID_releaseAll _ vs).symm, ht.trans hu⟩
      exact wp_evictVictims_cons (fun _ ↦ hrest s rfl) (fun _ ↦ hrest _ rfl) fun _ ↦ hrest _ rfl

/-- Applying a plan when no call fails. -/
theorem wp_applyPreemption_mem (hok : ¬ CanFail admits) (hself : m.putNode plan.node = m) :
    Wp admits (Engine.applyPreemption plan) (fun _ m' t ↦
      m' = m.putNode (releaseAll plan.node plan.victims) ∧
      t.nodes = (s.writeBack (releaseAll plan.node plan.victims)).nodes) m s := by
  refine wp_applyPreemption ((wp_evictVictims_mem hself).mono ?_)
  rintro n m' t - ⟨rfl, rfl, ht⟩
  refine ⟨⟨rfl, ?_⟩, fun hf ↦ absurd hf hok⟩
  simp only [Store.nodes_writeBack, ht]

/-- Committing a placement when no call fails. -/
theorem wp_commitPlacement_mem (hok : ¬ CanFail admits) {e : Engine} {job : Job} {node : Node}
    {reason : String} : Wp admits (e.commitPlacement job node reason) (fun _ m' t ↦
      m' = m.commit job node ∧ t.nodes = (s.writeBack (node.reserve job.resourceRequest)).nodes)
      m s := by
  refine Engine.wp_commitPlacement (fun hf ↦ absurd hf.canFail hok) ?_ fun _ ↦ ⟨rfl, rfl⟩
  rintro ⟨_, _, _, hf⟩
  exact absurd hf.canFail hok

end Apply

end Scheduler

/-! ## The two searches -/

open Scheduler

/-- What a pass holds in memory is consistent: it knows each node once, and what a node has
available and what runs on it are together within its capacity. -/
structure Mem.Consistent (m : Mem) : Prop where
  distinct : (m.nodes.map Node.nodeID).Nodup
  requests : ∀ n ∈ m.nodes, ∀ j ∈ m.running n.nodeID, ∀ d, 0 ≤ j.request d
  within : ∀ n ∈ m.nodes, ∀ d, n.avail d + demand (m.running n.nodeID) d ≤ n.cap d

section Replaced

variable {alg : Algorithm} {job : Job} {m : Mem} {plan : PreemptionPlan} {why : String}

theorem Mem.Consistent.putNode_self (hm : m.Consistent) {n : Node} (hn : n ∈ m.nodes) :
    m.putNode n = m :=
  m.putNode_self fun _ hx hid ↦ List.inj_on_of_nodup_map hm.distinct hx hn hid

/-- The victims of a plan are jobs believed to be on its node, each of them once. -/
theorem victims_subperm_running (hplan : findPreemption job m.nodes m.running = some plan) :
    plan.victims.Subperm (m.running plan.node.nodeID) :=
  (victims_subperm_eligible hplan).trans List.filter_sublist.subperm

/-- On its node a plan frees all that it counts on. -/
theorem avail_releaseAll_of_plan (hm : m.Consistent)
    (hplan : findPreemption job m.nodes m.running = some plan) (d : Resource) :
    (releaseAll plan.node plan.victims).avail d =
      plan.node.avail d + demand plan.victims d := by
  obtain ⟨hn, -, -⟩ := shortestPrefix_findPreemption hplan
  have hsub := victims_subperm_running hplan
  refine avail_releaseAll_of_le (fun v hv ↦ hm.requests _ hn v (hsub.subset hv)) ?_
  have hle := demand_le_of_subperm hsub (hm.requests _ hn) d
  have hcap := hm.within _ hn d
  omega

/-- When the job asks for no more than the planned node has, the victims make room for it, even if
some of them have left the node before. -/
theorem fits_releaseAll_of_plan (hreq : ∀ j ∈ m.running plan.node.nodeID, ∀ d, 0 ≤ j.request d)
    (hcap : ∀ d, job.request d ≤ plan.node.cap d)
    (hplan : findPreemption job m.nodes m.running = some plan) :
    (releaseAll plan.node plan.victims).fits job.resourceRequest = true := by
  obtain ⟨-, hready, hshort⟩ := shortestPrefix_findPreemption hplan
  refine Node.fits_iff.mpr ⟨(status_releaseAll _ _).trans hready, fun d ↦ ?_⟩
  have hroom := hshort.holds d
  have hvictims : ∀ v ∈ plan.victims, ∀ d, 0 ≤ v.request d := fun v hv ↦
    hreq v ((victims_subperm_running hplan).subset hv)
  exact (le_min (hcap d) hroom).trans (min_le_avail_releaseAll hvictims)

/-- A plan without victims is for a node that has room already. -/
theorem victims_ne_nil (hplace : alg.place job m.nodes = .error why)
    (hplan : findPreemption job m.nodes m.running = some plan) : plan.victims ≠ [] := by
  intro hnil
  obtain ⟨hn, hready, hshort⟩ := shortestPrefix_findPreemption hplan
  have hroom := hshort.holds
  rw [hnil] at hroom
  have hfits : plan.node.fits job.resourceRequest = true := by
    refine Node.fits_iff.mpr ⟨hready, fun d ↦ ?_⟩
    have hd := hroom d
    rwa [demand_nil, add_zero] at hd
  rw [Algorithm.place_error hplace plan.node hn] at hfits
  cases hfits

/-- **The second search** comes back to the planned node. -/
theorem place_putNode_releaseAll (hm : m.Consistent)
    (hplace : alg.place job m.nodes = .error why)
    (hplan : findPreemption job m.nodes m.running = some plan) :
    ∃ reason, alg.place job (m.putNode (releaseAll plan.node plan.victims)).nodes =
      .ok (releaseAll plan.node plan.victims, reason) := by
  obtain ⟨hn, hready, hshort⟩ := shortestPrefix_findPreemption hplan
  have hfits : (releaseAll plan.node plan.victims).fits job.resourceRequest = true := by
    refine Node.fits_iff.mpr ⟨(status_releaseAll _ _).trans hready, fun d ↦ ?_⟩
    rw [avail_releaseAll_of_plan hm hplan]
    exact hshort.holds d
  have hmem : releaseAll plan.node plan.victims ∈
      (m.putNode (releaseAll plan.node plan.victims)).nodes :=
    List.mem_map.mpr ⟨plan.node, hn, if_pos (nodeID_releaseAll _ _).symm⟩
  cases hp : alg.place job (m.putNode (releaseAll plan.node plan.victims)).nodes with
  | error why' =>
      rw [Algorithm.place_error hp _ hmem] at hfits
      cases hfits
  | ok r =>
      -- the other nodes are as in the first search, which found no room on them
      obtain ⟨node, reason⟩ := r
      obtain ⟨hr, hrfits⟩ := Algorithm.place_ok hp
      rcases Mem.mem_nodes_putNode hr with heq | ⟨hr, -⟩
      · exact ⟨reason, by rw [← heq]⟩
      · rw [Algorithm.place_error hplace _ hr] at hrfits
        cases hrfits

end Replaced

/-- **An eviction is never wasted.**  When there is no room for a job, and the planner has a plan,
then the plan evicts at least one job of lower priority from a ready node, the search after the
eviction returns just this node, and after the commit the node has what it had, and what the victims
held, less what the job asks for.  The other nodes are untouched. -/
theorem eviction_never_wasted (e : Engine) (job : Job) (m : Mem) (s : Store)
    (plan : PreemptionPlan) (why : String) (hm : m.Consistent)
    (hplace : e.alg.place job m.nodes = .error why)
    (hplan : findPreemption job m.nodes m.running = some plan) :
    plan.victims ≠ [] ∧ plan.victims.Subperm (m.running plan.node.nodeID) ∧
    (∀ v ∈ plan.victims, v.priority < job.priority) ∧ plan.node.status = .ready ∧
    ∀ m₁ s₁, RunsFrom NoError (Engine.applyPreemption plan) m s () m₁ s₁ →
      ∃ node reason, e.alg.place job m₁.nodes = .ok (node, reason) ∧
        node.nodeID = plan.node.nodeID ∧
        ∀ why' m₂ s₂, RunsFrom NoError (e.commitPlacement job node why') m₁ s₁ () m₂ s₂ →
          ∃ final : Node, final.setAvailable 0 0 0 = plan.node.setAvailable 0 0 0 ∧
            (∀ d, final.avail d = plan.node.avail d + demand plan.victims d - job.request d ∧
              0 ≤ final.avail d) ∧
            m₂.nodes = (m.nodes.map fun n ↦ if n.nodeID = plan.node.nodeID then final else n) ∧
            s₂.nodes = (s.writeBack final).nodes := by
  have hok : ¬ CanFail NoError := not_canFail fun _ _ _ _ h ↦ h
  obtain ⟨hn, hready, hshort⟩ := shortestPrefix_findPreemption hplan
  refine ⟨victims_ne_nil hplace hplan, victims_subperm_running hplan,
    fun v hv ↦ (priority_of_victim hplan hv).1, hready, ?_⟩
  intro m₁ s₁ hevict
  obtain ⟨rfl, hs₁⟩ := hevict.of_wp (wp_applyPreemption_mem hok (hm.putNode_self hn))
  obtain ⟨reason, hsecond⟩ := place_putNode_releaseAll hm hplace hplan
  refine ⟨_, reason, hsecond, nodeID_releaseAll _ _, ?_⟩
  intro why' m₂ s₂ hcommit
  obtain ⟨rfl, hs₂⟩ := hcommit.of_wp (wp_commitPlacement_mem hok)
  set node := releaseAll plan.node plan.victims with hnode
  have hid : node.nodeID = plan.node.nodeID := nodeID_releaseAll _ _
  refine ⟨node.reserve job.resourceRequest, (setAvailable_releaseAll plan.node plan.victims).symm,
    fun d ↦ ?_, ?_, ?_⟩
  · have havail : (node.reserve job.resourceRequest).avail d =
        plan.node.avail d + demand plan.victims d - job.request d := by
      rw [Node.avail_reserve, hnode, avail_releaseAll_of_plan hm hplan]
      rfl
    have hroom := hshort.holds d
    exact ⟨havail, by omega⟩
  · rw [← hid]
    exact congrArg Mem.nodes (m.putNode_putNode (Node.nodeID_reserve node _).symm)
  · calc s₂.nodes = (s₁.writeBack (node.reserve job.resourceRequest)).nodes := hs₂
      _ = ((s.writeBack node).writeBack (node.reserve job.resourceRequest)).nodes := by
        rw [Store.nodes_writeBack, Store.nodes_writeBack, hs₁]
      _ = (s.writeBack (node.reserve job.resourceRequest)).nodes :=
        Store.nodes_writeBack_writeBack (Node.nodeID_reserve node _).symm

/-- A full node with two jobs, of priorities 7 and 3. -/
def Small.crowded : Mem where
  nodes := [Small.node "n" .ready 2 0]
  running id := if id = "n" then
    [Small.job "a" .running 7 1 "n" 1, Small.job "b" .running 3 1 "n" 2] else []

/-- A job of priority 5 gets the place of the less important one. -/
theorem eviction_never_wasted_small :
    ∃ node reason, bestFitNode (Small.job "p" .queued 5 1 "" 9)
        (((Engine.applyPreemption ⟨Small.node "n" .ready 2 0,
          [Small.job "b" .running 3 1 "n" 2]⟩ Small.crowded).run Store.exec calm
            Store.empty).1.2).nodes = .ok (node, reason) ∧ node.nodeID = "n" := by
  have h := eviction_never_wasted (Small.engine .bestFit true) (Small.job "p" .queued 5 1 "" 9)
    Small.crowded Store.empty ⟨Small.node "n" .ready 2 0, [Small.job "b" .running 3 1 "n" 2]⟩ noNode
    ⟨by decide, by decide, by decide⟩ rfl rfl
  obtain ⟨node, reason, hplace, hid, -⟩ := h.2.2.2.2 _ _
    (runsFrom_run (ω := calm) (Prog.admits_of_forall fun _ _ _ _ ↦ rfl))
  exact ⟨node, reason, hplace, hid⟩

end GpuScheduler
