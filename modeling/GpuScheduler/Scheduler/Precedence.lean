import GpuScheduler.Scheduler.Settling

/-!
# The most important job is placed

A job that may evict others, and that comes before all other queued jobs in priority, is placed by
the next pass wherever it comes in the queue, unless it has to wait at the start of the pass
(`top_job_placed`).  Jobs that are attempted before it may take the room that it would have had, but
they are of lower priority and can be evicted in turn: on a given node, what is available together
with what such jobs have never gets less (`Room`).  Jobs that are attempted after it cannot evict
it.
-/

namespace GpuScheduler.Scheduler

open Lib Models

/-! ## What can be had on a node -/

/-- Evicting all jobs of lower priority makes room for the job on a certain ready node. -/
def Room (J : Job) (m : Mem) (id : String) : Prop :=
  ∃ n ∈ m.nodes, n.nodeID = id ∧ n.status = .ready ∧ MakesRoom J n (eligible J (m.running id))

namespace Room

variable {J job : Job} {m : Mem} {id : String} {node : Node} {vs : List Job}

/-- A job of lower priority that is placed can be evicted again. -/
theorem commit (h : Room J m id) (hdistinct : (m.nodes.map Node.nodeID).Nodup)
    (hnode : node ∈ m.nodes) (hlow : job.priority < J.priority) (huser : job.userID ≠ "") :
    Room J (m.commit job node) id := by
  obtain ⟨n, hn, rfl, hready, hroom⟩ := h
  by_cases hid : n.nodeID = node.nodeID
  · obtain rfl := List.inj_on_of_nodup_map hdistinct hn hnode hid
    have hput : n.reserve job.resourceRequest ∈ (m.commit job n).nodes :=
      List.mem_map.mpr ⟨n, hn, if_pos rfl⟩
    refine ⟨_, hput, rfl, hready, fun d ↦ ?_⟩
    have hjob : eligible J [job] = [job] := by simp [eligible, hlow, huser]
    have helig : eligible J ((m.commit job n).running n.nodeID) =
        eligible J (m.running n.nodeID) ++ [job] := by
      rw [Mem.commit, Mem.running_addRunning_self, eligible, List.filter_append]
      exact congrArg _ hjob
    have hd := hroom d
    rw [helig, demand_append, demand_cons, demand_nil, Node.avail_reserve, Job.request,
      Job.request]
    rw [Job.request] at hd
    omega
  · refine ⟨n, List.mem_map.mpr ⟨n, hn, if_neg hid⟩, rfl, hready, ?_⟩
    rw [Mem.commit, Mem.running_addRunning_of_ne _ hid]
    exact hroom

/-- What victims had is available after their eviction, or else the node is empty. -/
theorem release (h : Room J m id) (hdistinct : (m.nodes.map Node.nodeID).Nodup)
    (hrunning : ∀ j ∈ m.running id, ∀ d, 0 ≤ j.request d)
    (hcap : ∀ n ∈ m.nodes, n.status = .ready → ∀ d, J.request d ≤ n.cap d) (hnode : node ∈ m.nodes)
    (hvs : ∀ v ∈ vs, ∀ d, 0 ≤ v.request d) : Room J (m.putNode (releaseAll node vs)) id := by
  obtain ⟨n, hn, rfl, hready, hroom⟩ := h
  by_cases hid : n.nodeID = node.nodeID
  · obtain rfl := List.inj_on_of_nodup_map hdistinct hn hnode hid
    have hput : releaseAll n vs ∈ (m.putNode (releaseAll n vs)).nodes :=
      List.mem_map.mpr ⟨n, hn, if_pos (nodeID_releaseAll n vs).symm⟩
    refine ⟨_, hput, nodeID_releaseAll n vs, (status_releaseAll n vs).trans hready, fun d ↦ ?_⟩
    have hd := hroom d
    have hc := hcap n hn hready d
    have hreleased : min (n.cap d) (n.avail d + demand vs d) ≤ (releaseAll n vs).avail d :=
      min_le_avail_releaseAll hvs
    have hback : 0 ≤ demand vs d := demand_nonneg hvs d
    have hrest : 0 ≤ demand (eligible J (m.running n.nodeID)) d :=
      demand_nonneg (fun j hj ↦ hrunning j (List.mem_of_mem_filter hj)) d
    rcases min_le_iff.mp hreleased with hle | hle
    · exact (hc.trans hle).trans (le_add_of_nonneg_right hrest)
    · have : n.avail d ≤ (releaseAll n vs).avail d := by omega
      exact hd.trans (add_le_add_left this _)
  · refine ⟨n, List.mem_map.mpr ⟨n, hn, if_neg ?_⟩, rfl, hready, hroom⟩
    rwa [nodeID_releaseAll]

end Room

/-! ## The pass -/

/-- Until its turn the job has its room, and from then on its place. -/
structure Precedes (J : Job) (id : String) (s : Store) (queue : List Job) (p : Pass) : Prop extends
    Regular s queue p where
  room : J ∈ queue → Room J p.mem id
  placed : J ∉ queue → ∃ n ∈ s.nodes.rows, n.status = .ready ∧
    J.scheduledOn n.nodeID ∈ p.store.jobs.rows

namespace Precedes

variable {e : Engine} {now : Time} {s : Store} {J job : Job} {id : String} {queue : List Job}
  {p : Pass} {node : Node} {plan : PreemptionPlan}

/-- The capacities in memory are those of the rows. -/
theorem le_cap (h : Regular s queue p)
    (hcap : ∀ n ∈ s.nodes.rows, n.status = .ready → ∀ d, J.request d ≤ n.cap d) :
    ∀ n ∈ p.mem.nodes, n.status = .ready → ∀ d, J.request d ≤ n.cap d := by
  intro n hn hready d
  obtain ⟨n₀, hn₀, heq⟩ := h.held n hn
  rw [← Node.cap_eq_of_setAvailable heq]
  exact hcap n₀ hn₀ ((Node.status_eq_of_setAvailable heq).trans hready) d

section Others

variable (hJ : J ∈ s.jobs.rows) (hne : job ≠ J)

include hne in
theorem mem_cons_iff : J ∈ job :: queue ↔ J ∈ queue := by
  rw [List.mem_cons, or_iff_right hne.symm]

include hne in
theorem giveUp (h : Precedes J id s (job :: queue) p) (why : String) :
    Precedes J id s queue (p.giveUp e job why) where
  toRegular := h.toRegular.giveUp why
  room hq := h.room ((mem_cons_iff hne).mpr hq)
  placed hq := h.placed fun hq' ↦ hq ((mem_cons_iff hne).mp hq')

include hJ hne in
theorem commit (h : Precedes J id s (job :: queue) p) (hlow : job.priority < J.priority)
    (huser : job.userID ≠ "") {reason : String} (hnode : node ∈ p.mem.nodes) :
    Precedes J id s queue (p.commit e job node reason) where
  toRegular := h.toRegular.commit hnode
  room hq := (h.room ((mem_cons_iff hne).mpr hq)).commit h.distinct hnode hlow huser
  placed hq := by
    obtain ⟨n, hn, hready, hrow⟩ := h.placed fun hq' ↦ hq ((mem_cons_iff hne).mp hq')
    refine ⟨n, hn, hready, ?_⟩
    rw [Pass.jobs_commit]
    refine Table.mem_modify.mpr (.inr ⟨hrow, fun hid ↦ hne ?_⟩)
    exact s.jobs.eq_of_key_eq (h.queued job List.mem_cons_self).2.1 hJ hid.symm

include hJ in
/-- What a job of lower priority evicts is not `J`. -/
theorem evict (h : Precedes J id s queue p) (hreq : s.NonnegRequests)
    (hcap : ∀ n ∈ s.nodes.rows, n.status = .ready → ∀ d, J.request d ≤ n.cap d)
    (hlow : job.priority < J.priority)
    (hplan : findPreemption job p.mem.nodes p.mem.running = some plan) :
    Precedes J id s queue (p.evict plan) where
  toRegular := h.toRegular.evict hplan
  room hq := by
    obtain ⟨hn, -, -⟩ := findPreemption_some hplan
    rw [h.mem_evict hn]
    exact (h.room hq).release h.distinct (fun j hj ↦ hreq j (h.running _ j hj).1)
      (le_cap h.toRegular hcap) hn fun v hv ↦
        hreq v (h.running _ v (mem_running_of_victim hplan hv)).1
  placed hq := by
    obtain ⟨n, hn, hready, hrow⟩ := h.placed hq
    refine ⟨n, hn, hready, Regular.mem_jobs_evict hrow fun v hv hid ↦ ?_⟩
    have hv' := (h.running _ v (mem_running_of_victim hplan hv)).1
    have hlower := (priority_of_victim hplan hv).1
    rw [← s.jobs.eq_of_key_eq hJ hv' hid] at hlower
    exact absurd (hlow.trans hlower) (lt_irrefl _)

/-- The turn of another job. -/
theorem tried (h : Precedes J id s (job :: queue) p) (hreq : s.NonnegRequests)
    (hJ : J ∈ s.jobs.rows)
    (hcap : ∀ n ∈ s.nodes.rows, n.status = .ready → ∀ d, J.request d ≤ n.cap d) (hne : job ≠ J)
    (hlow : job.priority < J.priority) (huser : job.userID ≠ "") {q : Pass}
    (hq : Pass.Tried e now job p q) : Precedes J id s queue q := by
  cases hq with
  | placed hp => exact h.commit hJ hne hlow huser (Algorithm.place_ok hp).1
  | refused _ => exact h.giveUp hne _
  | replaced _ _ hplan hp =>
      exact (h.evict hJ hreq hcap hlow hplan).commit hJ hne hlow huser (Algorithm.place_ok hp).1
  | wasted _ _ hplan _ => exact (h.evict hJ hreq hcap hlow hplan).giveUp hne _

end Others

/-- The job is placed on a node that is held in memory. -/
theorem placed_commit (h : Regular s (J :: queue) p) {reason : String}
    (hp : e.alg.place J p.mem.nodes = .ok (node, reason)) (why : String) :
    Precedes J id s queue (p.commit e J node why) where
  toRegular := h.commit (Algorithm.place_ok hp).1
  room hq := absurd rfl (h.ne_head hq)
  placed _ := by
    obtain ⟨hn, hfits⟩ := Algorithm.place_ok hp
    obtain ⟨n₀, hn₀, heq⟩ := h.held node hn
    have hid : (n₀.setAvailable 0 0 0).nodeID = (node.setAvailable 0 0 0).nodeID := by rw [heq]
    change n₀.nodeID = node.nodeID at hid
    refine ⟨n₀, hn₀, (Node.status_eq_of_setAvailable heq).trans (Node.fits_iff.mp hfits).1, ?_⟩
    rw [Pass.jobs_commit, hid]
    exact Table.mem_modify.mpr (.inl ⟨J, (h.queued J List.mem_cons_self).1, rfl, rfl⟩)

/-- The turn of the job itself. -/
theorem attempt (h : Precedes J id s (J :: queue) p) (hreq : s.NonnegRequests)
    (hcap : ∀ n ∈ s.nodes.rows, n.status = .ready → ∀ d, J.request d ≤ n.cap d)
    (hen : e.cfg.enablePreemption = true) (hmay : e.shouldPreempt J now = true) :
    Precedes J id s queue (p.attempt e now J) := by
  have hmay' : (e.cfg.enablePreemption && e.shouldPreempt J now) = true := by
    rw [hen, hmay, Bool.true_and]
  rw [Pass.attempt]
  rcases hp : e.alg.place J p.mem.nodes with why | ⟨node, reason⟩
  · simp only [if_pos hmay']
    rcases hplan : findPreemption J p.mem.nodes p.mem.running with _ | plan
    · -- the planner would have found the node
      obtain ⟨n, hn, rfl, hready, hroom⟩ := h.room List.mem_cons_self
      have hnone := (findPreemption_none_iff fun id j hj ↦ hreq j (h.running id j hj).1).mp hplan
      exact absurd hroom (hnone n hn hready)
    · simp only
      rcases hp' : e.alg.place J (p.evict plan).mem.nodes with why' | ⟨node, reason⟩
      · exact absurd hp' (h.not_wasted hreq hcap hplan)
      · exact placed_commit (h.toRegular.evict hplan) hp' _
  · exact placed_commit h.toRegular hp _

/-- A whole pass. -/
theorem undisturbed {clock : Clock} {l : List Call} (hreq : s.NonnegRequests)
    (hJ : J ∈ s.jobs.rows) (hst : J.status = .queued)
    (htop : ∀ k ∈ s.jobs.rows, k.status = .queued → k ≠ J →
      k.priority < J.priority ∧ k.userID ≠ "")
    (hcap : ∀ n ∈ s.nodes.rows, n.status = .ready → ∀ d, J.request d ≤ n.cap d)
    (hen : e.cfg.enablePreemption = true) (hmay : e.shouldPreempt J clock.pass = true)
    (hroom : Room J (passMem [] s) id) : Precedes J id s [] (e.undisturbed clock [] l s) := by
  refine Pass.run_induct_attempt (I := fun _ queue p ↦ Precedes J id s queue p)
    ⟨.start [] _, fun _ ↦ hroom, fun hq ↦ absurd (Engine.mem_queueOrder.mpr ⟨hJ, hst⟩) hq⟩ ?_
  intro _ job queue p h
  by_cases hne : job = J
  · subst hne
    exact h.attempt hreq hcap hen hmay
  · obtain ⟨-, hrow, hq⟩ := h.queued job List.mem_cons_self
    obtain ⟨hlow, huser⟩ := htop job hrow hq hne
    exact h.tried hreq hJ hcap hne hlow huser Pass.tried_attempt

end Precedes

/-- **The most important job is placed.**  In a pass in which no call fails and no node is stale,
let `J` be a queued job that may evict others.  If all other queued jobs have a lower priority and a
user, and `J` asks for no more than any ready node has, then `J` is placed on a ready node, whatever
the algorithm and the order of the queue, unless it has to wait at the start of the pass. -/
theorem top_job_placed {e : Engine} {clock : Clock} {s t : Store} {r : Except StoreError Unit}
    {J : Job} (hreq : s.NonnegRequests) (hJ : J ∈ s.jobs.rows) (hst : J.status = .queued)
    (htop : ∀ k ∈ s.jobs.rows, k.status = .queued → k ≠ J →
      k.priority < J.priority ∧ k.userID ≠ "")
    (hcap : ∀ n ∈ s.nodes.rows, n.status = .ready → ∀ d, J.request d ≤ n.cap d)
    (hen : e.cfg.enablePreemption = true) (hmay : e.shouldPreempt J clock.pass = true)
    (hrun : Runs Smooth (e.tick clock) s r t) :
    Waits e clock.pass s J ∨ ∃ n ∈ s.nodes.rows, n.status = .ready ∧
      t.jobs.find? J.jobID = some (J.scheduledOn n.nodeID) := by
  rw [or_iff_not_imp_left]
  intro hwaits
  obtain ⟨l, hlog⟩ := hrun.logs
  obtain ⟨-, hend⟩ := tick_undisturbed hlog
  obtain ⟨rfl, -⟩ := Prod.mk.inj hend
  -- somewhere there is room for the job, at least without the jobs of lower priority
  obtain ⟨id, hroom⟩ : ∃ id, Room J (passMem [] s) id := by
    by_contra hnone
    refine hwaits ⟨fun n hn ↦ ?_, fun _ _ n hn hready hroom ↦ ?_⟩
    · rw [Bool.eq_false_iff]
      intro hfits
      obtain ⟨hready, hle⟩ := Node.fits_iff.mp hfits
      refine hnone ⟨n.nodeID, n, mem_sliceStable.mpr hn, rfl, hready, fun d ↦ ?_⟩
      exact (hle d).trans (le_add_of_nonneg_right (demand_nonneg
        (fun j hj ↦ nonneg_running hreq [] _ j (List.mem_of_mem_filter hj)) d))
    · exact hnone ⟨n.nodeID, n, mem_sliceStable.mpr hn, rfl, hready, hroom⟩
  have h := Precedes.undisturbed (l := [.nodesMarkStaleDown e.cfg.heartbeatTTL]) hreq hJ hst htop
    hcap hen hmay hroom
  obtain ⟨n, hn, hready, hrow⟩ := h.placed List.not_mem_nil
  exact ⟨n, hn, hready, Table.find?_eq_some.mpr ⟨hrow, rfl⟩⟩

namespace Precedence

/-- The job that was submitted last. -/
def top : Job := Small.job "c" .queued 9 2 "" 3

/-- Two GPUs: one is free, the other is used by a job of low priority.  A job that was submitted
before the important one takes the free one first. -/
def cluster : Store :=
  Small.store [Small.job "a" .running 1 1 "n" 1, Small.job "b" .queued 8 1 "" 2, top]
    [Small.node "n" .ready 2 1]

def engine : Engine := Small.engine .firstFit true

/-- The store after a pass. -/
def after : Store := (runOp (engine.tick ⟨5, 5⟩) (steady 3) cluster).2

end Precedence

/-- The job that was placed first in the pass has been evicted again at the end of it. -/
theorem top_job_placed_last :
    (Precedence.after.jobs.find? "b").map Job.status = some .queued ∧
      ∃ n ∈ Precedence.cluster.nodes.rows, n.status = .ready ∧
        Precedence.after.jobs.find? "c" = some (Precedence.top.scheduledOn n.nodeID) := by
  have hrun : Runs Smooth (Precedence.engine.tick ⟨5, 5⟩) Precedence.cluster _ Precedence.after :=
    runs_runOp (by decide +kernel)
  refine ⟨by decide +kernel, ?_⟩
  have hplaced := top_job_placed (J := Precedence.top) (by decide +kernel) (by decide +kernel) rfl
    (by decide +kernel) (by decide +kernel) rfl (by decide +kernel) hrun
  refine hplaced.resolve_left fun h ↦ ?_
  exact h.spared rfl (by decide +kernel) (Small.node "n" .ready 2 1) (by decide +kernel) rfl
    (by decide +kernel)

end GpuScheduler.Scheduler
