import GpuScheduler.Scheduler.Preemption
import GpuScheduler.Store.Basic
import Mathlib.Algebra.Order.BigOperators.Group.List
import Mathlib.Data.List.Perm.Subperm

/-!
# What the planner finds

`findPreemption` looks at each ready node for the shortest initial part of the eviction order whose
eviction makes room, and keeps the plan that costs least: the fewest victims, then the lowest total
priority, then the earliest node.

So it misses no node on which evicting all eligible jobs makes room, since what makes room does so
together with any further job.  It is not optimal among all sets of victims, though, because a
node's jobs are only ever evicted in the order of their priorities: one large job is spared for a
small one of lower priority that does not make room.
-/

namespace GpuScheduler.Scheduler

open Lib Models

/-! ## Making room -/

/-- What several jobs ask for together. -/
def demand (js : List Job) (d : Resource) : Int := (js.map fun j ↦ j.request d).sum

@[simp] theorem demand_nil (d : Resource) : demand [] d = 0 := rfl

@[simp] theorem demand_cons (j : Job) (js : List Job) (d : Resource) :
    demand (j :: js) d = j.request d + demand js d := by simp [demand]

theorem demand_append (js js' : List Job) (d : Resource) :
    demand (js ++ js') d = demand js d + demand js' d := by simp [demand]

theorem demand_perm {js js' : List Job} (h : js.Perm js') (d : Resource) :
    demand js d = demand js' d := (h.map _).sum_eq

theorem demand_nonneg {js : List Job} (h : ∀ j ∈ js, ∀ d, 0 ≤ j.request d) (d : Resource) :
    0 ≤ demand js d := by
  refine List.sum_nonneg fun x hx ↦ ?_
  obtain ⟨j, hj, rfl⟩ := List.mem_map.mp hx
  exact h j hj d

theorem demand_eq_zero_iff {js : List Job} (h : ∀ j ∈ js, ∀ d, 0 ≤ j.request d) (d : Resource) :
    demand js d = 0 ↔ ∀ j ∈ js, j.request d = 0 := by
  induction js with
  | nil => simp
  | cons j js ih =>
      have hjs : ∀ k ∈ js, ∀ d, 0 ≤ k.request d := fun k hk ↦ h k (List.mem_cons_of_mem j hk)
      have hj := h j List.mem_cons_self d
      have hrest := demand_nonneg hjs d
      rw [demand_cons, List.forall_mem_cons, ← ih hjs]
      omega

/-- Jobs that ask for nothing negative ask for no more than any jobs that include them. -/
theorem demand_le_of_subperm {js js' : List Job} (h : js.Subperm js')
    (hreq : ∀ j ∈ js', ∀ d, 0 ≤ j.request d) (d : Resource) : demand js d ≤ demand js' d := by
  obtain ⟨js₀, hjs, hsub⟩ := h
  rw [← demand_perm hjs]
  refine (hsub.map _).sum_le_sum fun x hx ↦ ?_
  obtain ⟨j, hj, rfl⟩ := List.mem_map.mp hx
  exact hreq j hj d

/-- Evicting the jobs leaves the node with enough of everything for the pending job. -/
def MakesRoom (job : Job) (n : Node) (vs : List Job) : Prop :=
  ∀ d, job.request d ≤ n.avail d + demand vs d

instance (job : Job) (n : Node) (vs : List Job) : Decidable (MakesRoom job n vs) :=
  inferInstanceAs (Decidable (∀ _, _))

/-- The order in which the eligible jobs of a node are evicted: lowest priority first, then newest
first. -/
def evictionOrder (job : Job) (onNode : List Job) : List Job :=
  sliceStable cheaper (eligible job onNode)

theorem perm_evictionOrder (job : Job) (onNode : List Job) :
    (evictionOrder job onNode).Perm (eligible job onNode) := perm_sliceStable _ _

/-- The eviction order compares priorities, and then times of submission in reverse. -/
theorem rankedBy_cheaper :
    RankedBy cheaper fun j : Job ↦ toLex (j.priority, OrderDual.toDual j.createdAt) := by
  have hnewest : RankedBy (fun a b : Job ↦ decide (a.createdAt > b.createdAt))
      fun j : Job ↦ OrderDual.toDual j.createdAt := fun _ _ ↦ decide_eq_true_iff
  refine hnewest.lex fun a b ↦ ?_
  rw [cheaper, ite_ne_eq_true_iff ne_of_lt]

/-! ## The loop on one node -/

theorem covers_iff {free req : ResourceRequest} :
    covers free req = true ↔ ∀ d, req.amount d ≤ free.amount d := by
  simp only [covers, Bool.and_eq_true, decide_eq_true_eq, ge_iff_le]
  constructor
  · rintro ⟨⟨hg, hc⟩, hm⟩ d
    cases d with
    | gpu => exact hg
    | cpu => exact hc
    | memory => exact hm
  · intro h
    exact ⟨⟨h .gpu, h .cpu⟩, h .memory⟩

section ChooseVictims

variable {req free : ResourceRequest} {vs : List Job}

/-- What has to be evicted on top of what is free already. -/
def Suffices (req free : ResourceRequest) (vs : List Job) : Prop :=
  ∀ d, req.amount d ≤ free.amount d + demand vs d

theorem suffices_nil : Suffices req free [] ↔ covers free req = true := by
  simp [Suffices, covers_iff]

/-- A victim that was taken is free for the rest of the loop. -/
theorem suffices_cons {v : Job} {ws : List Job} : Suffices req free (v :: ws) ↔
    Suffices req ⟨free.gpu + v.gpuCount, free.cpu + v.cpuCount, free.memoryGB + v.memoryGB⟩ ws := by
  refine forall_congr' fun d ↦ ?_
  have hfree : (ResourceRequest.mk (free.gpu + v.gpuCount) (free.cpu + v.cpuCount)
      (free.memoryGB + v.memoryGB)).amount d = free.amount d + v.request d := by
    cases d <;> rfl
  rw [hfree, demand_cons, add_assoc]

/-- When the loop ends with enough, it has taken as few victims as it could. -/
theorem shortestPrefix_chooseVictims (h : covers (chooseVictims req free vs).2 req = true) :
    ShortestPrefix (Suffices req free) vs (chooseVictims req free vs).1 := by
  induction vs generalizing free with
  | nil => exact .nil (suffices_nil.mpr h)
  | cons v vs ih =>
      rw [chooseVictims] at h ⊢
      split at h
      · rename_i hcov
        rw [if_pos hcov]
        exact .nil (suffices_nil.mpr hcov)
      · rename_i hcov
        rw [if_neg hcov]
        have hcons : Suffices req ⟨free.gpu + v.gpuCount, free.cpu + v.cpuCount,
            free.memoryGB + v.memoryGB⟩ = fun ws ↦ Suffices req free (v :: ws) :=
          funext fun _ ↦ propext suffices_cons.symm
        have hrest := ih h
        rw [hcons] at hrest
        exact .cons (fun hnil ↦ hcov (suffices_nil.mp hnil)) hrest

/-- When the loop ends without enough, no initial part would have been enough. -/
theorem not_suffices_of_not_covers (h : covers (chooseVictims req free vs).2 req = false)
    {ws : List Job} (hws : ws <+: vs) : ¬ Suffices req free ws := by
  induction vs generalizing free ws with
  | nil =>
      rw [List.prefix_nil.mp hws, suffices_nil]
      exact Bool.eq_false_iff.mp h
  | cons v vs ih =>
      rw [chooseVictims] at h
      split at h
      · rename_i hcov
        simp [hcov] at h
      · rename_i hcov
        rcases List.prefix_cons_iff.mp hws with rfl | ⟨ws', rfl, hws'⟩
        · rwa [suffices_nil]
        · rw [suffices_cons]
          exact ih h hws'

end ChooseVictims

variable {job : Job} {running : String → List Job} {nodes : List Node}

theorem suffices_iff_makesRoom {n : Node} {vs : List Job} :
    Suffices job.resourceRequest ⟨n.gpuAvailable, n.cpuAvailable, n.memoryAvailable⟩ vs ↔
      MakesRoom job n vs := by
  refine forall_congr' fun d ↦ ?_
  cases d <;> rfl

/-- **The plan for one node** evicts the shortest initial part of the eviction order that makes
room. -/
theorem planOn_eq_some_iff {n : Node} {p : PreemptionPlan} :
    planOn job running n = some p ↔ p.node = n ∧ n.status = .ready ∧
      ShortestPrefix (MakesRoom job n) (evictionOrder job (running n.nodeID)) p.victims := by
  have hroom : Suffices job.resourceRequest ⟨n.gpuAvailable, n.cpuAvailable, n.memoryAvailable⟩ =
      MakesRoom job n := funext fun vs ↦ propext suffices_iff_makesRoom
  rw [← hroom]
  constructor
  · intro h
    obtain ⟨hnode, hready, -⟩ := planOn_some h
    simp only [planOn, hready, NodeStatus.schedulable, decide_true, Bool.not_true,
      Bool.false_eq_true, if_false, Option.ite_none_right_eq_some] at h
    obtain ⟨hcov, hp⟩ := h
    obtain rfl := Option.some.inj hp
    exact ⟨hnode, hready, shortestPrefix_chooseVictims hcov⟩
  · rintro ⟨rfl, hready, hshort⟩
    have hcov : covers (chooseVictims job.resourceRequest
        ⟨p.node.gpuAvailable, p.node.cpuAvailable, p.node.memoryAvailable⟩
        (evictionOrder job (running p.node.nodeID))).2 job.resourceRequest = true := by
      by_contra hcov
      exact not_suffices_of_not_covers (Bool.eq_false_iff.mpr hcov) hshort.isPrefix hshort.holds
    have hvs := (shortestPrefix_chooseVictims hcov).unique hshort
    rw [evictionOrder] at hcov hvs
    simp [planOn, hready, NodeStatus.schedulable, hcov, hvs]

/-- There is a plan for a ready node on which some initial part of the eviction order makes room,
and it evicts no more than that part. -/
theorem exists_planOn {n : Node} (hready : n.status = .ready) {ws : List Job}
    (hws : ws <+: evictionOrder job (running n.nodeID)) (hroom : MakesRoom job n ws) :
    ∃ vs, planOn job running n = some ⟨n, vs⟩ ∧ vs <+: ws := by
  obtain ⟨vs, hshort⟩ := ShortestPrefix.exists_of_holds hws hroom
  refine ⟨vs, planOn_eq_some_iff.mpr ⟨rfl, hready, hshort⟩, ?_⟩
  exact List.prefix_of_prefix_length_le hshort.isPrefix hws (hshort.shortest ws hws hroom)

/-! ## The loop over the nodes -/

/-- A part of an eviction costs no more than the whole, whatever the priorities are. -/
theorem cost_mono {vs ws : List Job} (h : vs <+: ws) : cost vs ≤ cost ws := by
  rcases h.length_le.lt_or_eq with hlt | heq
  · exact (cost_lt_cost_iff.mpr (.inl hlt)).le
  · rw [h.eq_of_length heq]

/-- A plan is for one of the given nodes, which is ready, and follows its eviction order until there
is room. -/
theorem shortestPrefix_findPreemption {p : PreemptionPlan}
    (h : findPreemption job nodes running = some p) :
    p.node ∈ nodes ∧ p.node.status = .ready ∧
      ShortestPrefix (MakesRoom job p.node) (evictionOrder job (running p.node.nodeID))
        p.victims := by
  obtain ⟨before, n, behind, rfl, hplan, -, -⟩ := firstBest_findPreemption h
  obtain ⟨rfl, hready, hshort⟩ := planOn_eq_some_iff.mp hplan
  exact ⟨List.mem_append_right before List.mem_cons_self, hready, hshort⟩

theorem victims_subperm_eligible {p : PreemptionPlan}
    (h : findPreemption job nodes running = some p) :
    p.victims.Subperm (eligible job (running p.node.nodeID)) :=
  (shortestPrefix_findPreemption h).2.2.isPrefix.sublist.subperm.trans
    (perm_evictionOrder _ _).subperm

theorem findPreemption_eq_none_iff :
    findPreemption job nodes running = none ↔ ∀ n ∈ nodes, planOn job running n = none := by
  rw [findPreemption_eq_foldl, foldl_keepBest_eq_none]

/-- No initial part of an eviction order that makes room on a ready node costs less than the
plan. -/
theorem cost_le_of_makesRoom {p : PreemptionPlan} (h : findPreemption job nodes running = some p)
    {n : Node} (hn : n ∈ nodes) (hready : n.status = .ready) {ws : List Job}
    (hws : ws <+: evictionOrder job (running n.nodeID)) (hroom : MakesRoom job n ws) :
    cost p.victims ≤ cost ws := by
  obtain ⟨vs, hplan, hpre⟩ := exists_planOn hready hws hroom
  exact ((firstBest_findPreemption h).le hn hplan).trans (cost_mono hpre)

/-! ## What the planner guarantees -/

/-- **Completeness**: there is a plan exactly when on some ready node evicting every eligible job
makes room. -/
theorem findPreemption_isSome_iff (job : Job) (nodes : List Node) (running : String → List Job)
    (hreq : ∀ n ∈ nodes, ∀ j ∈ running n.nodeID, ∀ d, 0 ≤ j.request d) :
    (findPreemption job nodes running).isSome = true ↔
      ∃ n ∈ nodes, n.status = .ready ∧ ∀ d, job.request d ≤
        n.avail d + demand ((running n.nodeID).filter fun r ↦
          r.priority < job.priority ∧ r.userID ≠ "") d := by
  have helig : ∀ n : Node, ((running n.nodeID).filter fun r ↦
      r.priority < job.priority ∧ r.userID ≠ "") = eligible job (running n.nodeID) := by
    intro n
    refine List.filter_congr fun r _ ↦ ?_
    rw [Bool.decide_and]
  simp only [helig]
  constructor
  · intro h
    obtain ⟨p, hp⟩ := Option.isSome_iff_exists.mp h
    obtain ⟨hn, hready, hshort⟩ := shortestPrefix_findPreemption hp
    refine ⟨p.node, hn, hready, fun d ↦ (hshort.holds d).trans ?_⟩
    -- the victims are some of the eligible jobs, and the others ask for nothing negative
    have hle := demand_le_of_subperm (victims_subperm_eligible hp)
      (fun j hj ↦ hreq p.node hn j (List.mem_of_mem_filter hj)) d
    omega
  · rintro ⟨n, hn, hready, hroom⟩
    rw [Option.isSome_iff_ne_none, Ne, findPreemption_eq_none_iff]
    intro hnone
    have hall : MakesRoom job n (evictionOrder job (running n.nodeID)) := by
      intro d
      rw [demand_perm (perm_evictionOrder _ _)]
      exact hroom d
    obtain ⟨vs, hplan, -⟩ := exists_planOn hready List.prefix_rfl hall
    rw [hnone n hn] at hplan
    cases hplan

/-- A full node of two jobs, and a pending job that may evict the less important one. -/
theorem findPreemption_isSome_small :
    (findPreemption (Small.job "p" .queued 5 1 "" 9) [Small.node "n" .ready 2 0] fun _ ↦
      [Small.job "a" .running 7 1 "n" 1, Small.job "b" .running 3 1 "n" 2]).isSome = true :=
  (findPreemption_isSome_iff _ _ _ (by decide)).mpr
    ⟨Small.node "n" .ready 2 0, by decide, rfl, by decide⟩

/-- A job behind the victims in the eviction order is no cheaper than any of them. -/
theorem not_cheaper_of_append {onNode vs left : List Job}
    (h : evictionOrder job onNode = vs ++ left) {v j : Job} (hv : v ∈ vs) (hj : j ∈ left) :
    ¬ j.priority < v.priority ∧ ¬ (j.priority = v.priority ∧ v.createdAt < j.createdAt) := by
  have hsorted := pairwise_sliceStable rankedBy_cheaper (eligible job onNode)
  rw [← evictionOrder, h] at hsorted
  have hle := (List.pairwise_append.mp hsorted).2.2 v hv j hj
  rwa [← not_lt, Prod.Lex.toLex_lt_toLex, not_or] at hle

/-- **Which victims and which node.**  The victims of a plan are the shortest initial part of its
node's eviction order that makes room, so that the eligible jobs which stay are no cheaper than the
evicted ones; and it costs less than what the same rule would evict on any ready node in front of
it, and no more than on any ready node behind it. -/
theorem findPreemption_shortest_cheapest_earliest (job : Job) (nodes : List Node)
    (running : String → List Job) (p : PreemptionPlan)
    (h : findPreemption job nodes running = some p) :
    ShortestPrefix (MakesRoom job p.node) (evictionOrder job (running p.node.nodeID)) p.victims ∧
    (∀ left, (eligible job (running p.node.nodeID)).Perm (p.victims ++ left) →
      ∀ v ∈ p.victims, ∀ j ∈ left,
        ¬ j.priority < v.priority ∧ ¬ (j.priority = v.priority ∧ v.createdAt < j.createdAt)) ∧
    ∃ before behind, nodes = before ++ p.node :: behind ∧ p.node.status = .ready ∧
      (∀ n ∈ before, n.status = .ready → ∀ vs,
        ShortestPrefix (MakesRoom job n) (evictionOrder job (running n.nodeID)) vs →
          cost p.victims < cost vs) ∧
      ∀ n ∈ behind, n.status = .ready → ∀ vs,
        ShortestPrefix (MakesRoom job n) (evictionOrder job (running n.nodeID)) vs →
          cost p.victims ≤ cost vs := by
  obtain ⟨before, n, behind, hnodes, hplan, hbefore, hbehind⟩ := firstBest_findPreemption h
  obtain ⟨rfl, hready, hshort⟩ := planOn_eq_some_iff.mp hplan
  refine ⟨hshort, ?_, before, behind, hnodes, hready, ?_, ?_⟩
  · intro left hperm v hv j hj
    obtain ⟨left', hleft'⟩ := hshort.isPrefix
    have hsame : left.Perm left' := by
      rw [← List.perm_append_left_iff p.victims, hleft']
      exact hperm.symm.trans (perm_evictionOrder _ _).symm
    exact not_cheaper_of_append hleft'.symm hv (hsame.mem_iff.mp hj)
  · intro n hn hr vs hvs
    exact hbefore n hn ⟨n, vs⟩ (planOn_eq_some_iff.mpr ⟨rfl, hr, hvs⟩)
  · intro n hn hr vs hvs
    exact hbehind n hn ⟨n, vs⟩ (planOn_eq_some_iff.mpr ⟨rfl, hr, hvs⟩)

/-- Of two nodes on which one eviction makes room, the earlier one loses the newer of two equally
unimportant jobs. -/
theorem findPreemption_shortest_small :
    let a := Small.job "a" .running 3 1 "n" 1
    let b := Small.job "b" .running 3 1 "n" 2
    let n := Small.node "n" .ready 2 0
    ShortestPrefix (MakesRoom (Small.job "p" .queued 5 1 "" 9) n)
      (evictionOrder (Small.job "p" .queued 5 1 "" 9) [a, b]) [b] :=
  (findPreemption_shortest_cheapest_earliest (Small.job "p" .queued 5 1 "" 9)
    [Small.node "n" .ready 2 0, Small.node "m" .ready 2 0]
    (fun _ ↦ [Small.job "a" .running 3 1 "n" 1, Small.job "b" .running 3 1 "n" 2])
    ⟨Small.node "n" .ready 2 0, [Small.job "b" .running 3 1 "n" 2]⟩ (by decide)).1

/-! ## What it does not guarantee -/

/-- A set of eligible jobs on a ready node whose eviction makes room for the pending job. -/
def CanEvict (job : Job) (nodes : List Node) (running : String → List Job) (vs : List Job) : Prop :=
  ∃ n ∈ nodes, n.status = .ready ∧ vs.Subperm (eligible job (running n.nodeID)) ∧
    MakesRoom job n vs

/-- No eviction that makes room has fewer victims than the plan, or as many with a smaller total
priority. -/
def LeastDisruptive (job : Job) (nodes : List Node) (running : String → List Job)
    (p : PreemptionPlan) : Prop :=
  ∀ vs, CanEvict job nodes running vs → ¬ vs.length < p.victims.length ∧
    ¬ (vs.length = p.victims.length ∧
      (vs.map Job.priority).sum < (p.victims.map Job.priority).sum)

theorem leastDisruptive_iff {p : PreemptionPlan} : LeastDisruptive job nodes running p ↔
    ∀ vs, CanEvict job nodes running vs → cost p.victims ≤ cost vs := by
  refine forall_congr' fun vs ↦ forall_congr' fun _ ↦ ?_
  rw [← not_lt, cost_lt_cost_iff, not_or]

/-- **When the plan disrupts least.**  It does exactly when one of the least costly evictions
follows the order of the priorities: on some ready node an initial part of the eviction order makes
room, and no other set of eligible jobs that makes room, on this node or another, costs less. -/
theorem findPreemption_leastDisruptive_iff (job : Job) (nodes : List Node)
    (running : String → List Job) (p : PreemptionPlan)
    (h : findPreemption job nodes running = some p) :
    LeastDisruptive job nodes running p ↔
      ∃ n ∈ nodes, n.status = .ready ∧ ∃ ws, ws <+: evictionOrder job (running n.nodeID) ∧
        MakesRoom job n ws ∧ ∀ vs, CanEvict job nodes running vs → cost ws ≤ cost vs := by
  rw [leastDisruptive_iff]
  constructor
  · intro hleast
    obtain ⟨hn, hready, hshort⟩ := shortestPrefix_findPreemption h
    exact ⟨p.node, hn, hready, p.victims, hshort.isPrefix, hshort.holds, hleast⟩
  · rintro ⟨n, hn, hready, ws, hws, hroom, hleast⟩ vs hvs
    exact (cost_le_of_makesRoom h hn hready hws hroom).trans (hleast vs hvs)

/-- With one eligible job there is nothing to choose. -/
theorem findPreemption_leastDisruptive_small :
    LeastDisruptive (Small.job "p" .queued 5 1 "" 9) [Small.node "n" .ready 1 0]
      (fun _ ↦ [Small.job "b" .running 3 1 "n" 2])
      ⟨Small.node "n" .ready 1 0, [Small.job "b" .running 3 1 "n" 2]⟩ := by
  refine (findPreemption_leastDisruptive_iff _ _ _ _ (by decide)).mpr
    ⟨Small.node "n" .ready 1 0, by decide, rfl, [Small.job "b" .running 3 1 "n" 2], by decide,
      by decide, ?_⟩
  rintro vs ⟨n, hn, -, hsub, hroom⟩
  obtain rfl := List.mem_singleton.mp hn
  rcases List.subperm_singleton_iff.mp hsub with rfl | rfl
  · exact absurd hroom (by decide)
  · exact le_rfl

/-- One job holds the four GPUs that are needed, and another one of lower priority holds a fifth:
both are evicted, and evicting the large one would have been enough. -/
theorem findPreemption_not_leastDisruptive :
    findPreemption (Small.job "p" .queued 9 4 "" 9) [Small.node "n" .ready 5 0]
        (fun _ ↦ [Small.job "a" .running 1 1 "n" 1, Small.job "b" .running 2 4 "n" 2]) =
      some ⟨Small.node "n" .ready 5 0,
        [Small.job "a" .running 1 1 "n" 1, Small.job "b" .running 2 4 "n" 2]⟩ ∧
    ¬ LeastDisruptive (Small.job "p" .queued 9 4 "" 9) [Small.node "n" .ready 5 0]
        (fun _ ↦ [Small.job "a" .running 1 1 "n" 1, Small.job "b" .running 2 4 "n" 2])
        ⟨Small.node "n" .ready 5 0,
          [Small.job "a" .running 1 1 "n" 1, Small.job "b" .running 2 4 "n" 2]⟩ := by
  refine ⟨by decide, fun h ↦ ?_⟩
  have hlarge := h [Small.job "b" .running 2 4 "n" 2] ⟨Small.node "n" .ready 5 0, by decide, rfl,
    List.singleton_subperm_iff.mpr (by decide), by decide⟩
  exact hlarge.1 (by decide)

end GpuScheduler.Scheduler
