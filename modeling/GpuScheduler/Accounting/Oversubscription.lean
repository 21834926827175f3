import GpuScheduler.Accounting.Eviction

/-!
# Oversubscription by preemption

A pass keeps a map of the jobs running on each node and plans its evictions from it.  It adds the
jobs it places to the map, but never takes out the jobs it evicts, so a later eviction of the same
pass may choose a victim that an earlier one has evicted already, and return its request a second
time.  The node then seems to have room it does not have.

`Shadow` follows what a pass does together with what is really active, and yields the rounds of
evictions of the pass.  `tick_accounted_iff` says that the books are right after a pass, and no
node oversubscribed, exactly when every second return is made up for: at the end of that round or
of a later one on the same node, nothing that asks for the resource is left there.
-/

namespace GpuScheduler

open Lib Models Scheduler

/-! ## The rounds of a pass -/

/-- A pass together with the jobs that really are scheduled or running. -/
structure Shadow where
  mem : Mem
  live : List Job

/-- What a round of evictions did. -/
structure Round where
  nodeID : String
  /-- The victims that were not active any more. -/
  again : List Job
  /-- The jobs active on the node after the round. -/
  left : List Job
deriving DecidableEq

namespace Shadow

/-- A job is placed. -/
def commit (σ : Shadow) (job : Job) (node : Node) : Shadow :=
  ⟨σ.mem.commit job node, σ.live ++ [job.scheduledOn node.nodeID]⟩

/-- The victims of a plan are evicted; they stay in the pass's map of running jobs. -/
def evict (σ : Shadow) (plan : PreemptionPlan) : Shadow :=
  ⟨σ.mem.putNode (releaseAll plan.node plan.victims),
    σ.live.filter fun j ↦ ∀ v ∈ plan.victims, v.jobID ≠ j.jobID⟩

/-- The round of evictions that a plan amounts to. -/
def round (σ : Shadow) (plan : PreemptionPlan) : Round where
  nodeID := plan.node.nodeID
  again := plan.victims.filter fun v ↦ ∀ j ∈ σ.live, j.jobID ≠ v.jobID
  left := (σ.evict plan).live.filter fun j ↦ j.nodeID = plan.node.nodeID

/-- What `placeOne` does with a job when no call fails. -/
def attempt (e : Engine) (now : Time) (job : Job) (σ : Shadow) : List Round × Shadow :=
  match e.alg.place job σ.mem.nodes with
  | .ok (node, _) => ([], σ.commit job node)
  | .error _ =>
    if e.cfg.enablePreemption && e.shouldPreempt job now then
      match findPreemption job σ.mem.nodes σ.mem.running with
      | none => ([], σ)
      | some plan =>
        match e.alg.place job (σ.evict plan).mem.nodes with
        | .ok (node, _) => ([σ.round plan], (σ.evict plan).commit job node)
        | .error _ => ([σ.round plan], σ.evict plan)
    else ([], σ)

/-- The rounds of evictions of the loop over a queue. -/
def rounds (e : Engine) (now : Time) (σ : Shadow) : List Job → List Round
  | [] => []
  | job :: queue => (σ.attempt e now job).1 ++ rounds e now (σ.attempt e now job).2 queue

end Shadow

/-- The rounds of evictions of a pass over a store, when no call fails and no node is stale. -/
def evictionRounds (e : Engine) (clock : Clock) (s : Store) : List Round :=
  Shadow.rounds e clock.pass ⟨passMem [] s, s.listByStatuses [.scheduled, .running]⟩
    (e.queueOrder clock (Engine.sharesOf s.listNodes s.teamGPUUsage) s)

/-- After the round nothing that asks for the resource is left on the node. -/
def Round.Clears (id : String) (d : Resource) (r : Round) : Prop :=
  r.nodeID = id ∧ ∀ j ∈ r.left, j.request d = 0

/-- On the node and in the resource, a round that returns a request a second time is made up for
by itself or by a later round. -/
def Harmless (id : String) (d : Resource) : List Round → Prop
  | [] => True
  | r :: rs => (r.nodeID = id → (∀ v ∈ r.again, v.request d = 0) ∨
      ∃ r' ∈ r :: rs, r'.Clears id d) ∧ Harmless id d rs

/-! ## The shadow mirrors the store -/

/-- The shadow of a pass that is in step with the store. -/
structure Mirrors (σ : Shadow) (s : Store) (queue : List Job) : Prop
    extends InStep σ.mem s queue where
  live : ∀ j, j ∈ σ.live ↔ j ∈ s.jobs.rows ∧ j.status.isActive = true
  /-- A job of the map is not in the queue, and as far as it is active it is where the map says. -/
  running : ∀ id, ∀ v ∈ σ.mem.running id, (∀ j ∈ queue, j.jobID ≠ v.jobID) ∧
    (∀ d, 0 ≤ v.request d) ∧
    ∀ j ∈ σ.live, j.jobID = v.jobID → j.nodeID = id ∧ j.request = v.request
  runningNodup : ∀ id, ((σ.mem.running id).map Job.jobID).Nodup
  drift : ∀ id d, 0 ≤ s.drift id d ∧ s.drift id d ≤ s.load id d

namespace Mirrors

variable {σ : Shadow} {s t : Store} {job : Job} {queue : List Job} {node : Node}
  {plan : PreemptionPlan}

theorem events (h : Mirrors σ s queue) (evs : List SchedulingEvent) :
    Mirrors σ { s with events := evs } queue :=
  ⟨h.toInStep.events evs, h.live, h.running, h.runningNodup, h.drift⟩

theorem tail (h : Mirrors σ s (job :: queue)) : Mirrors σ s queue where
  toInStep := h.toInStep.tail
  live := h.live
  running id v hv := ⟨fun j hj ↦ (h.running id v hv).1 j (List.mem_cons_of_mem job hj),
    (h.running id v hv).2⟩
  runningNodup := h.runningNodup
  drift := h.drift

/-- A node has no load when none of its live jobs asks for anything. -/
theorem load_eq_zero_iff (h : Mirrors σ s queue) (id : String) (d : Resource) :
    s.load id d = 0 ↔ ∀ j ∈ σ.live.filter fun j ↦ j.nodeID = id, j.request d = 0 := by
  rw [Store.load, Table.sum_eq_zero_iff fun j hj ↦ Job.usage_nonneg (h.requests j hj) id d]
  constructor
  · intro hz j hj
    obtain ⟨hj, hid⟩ := List.mem_filter.mp hj
    obtain ⟨hj, ha⟩ := (h.live j).mp hj
    rw [← Job.usage_of_active ha (of_decide_eq_true hid)]
    exact hz j hj
  · intro hz j hj
    rw [Job.usage]
    split
    · rename_i ha
      exact hz j (List.mem_filter.mpr ⟨(h.live j).mpr ⟨hj, ha.1⟩, decide_eq_true ha.2⟩)
    · rfl

/-- A live job is found in the store under its ID. -/
theorem find?_live (h : Mirrors σ s queue) {j : Job} (hj : j ∈ σ.live) :
    s.jobs.find? j.jobID = some j := Table.find?_key ((h.live j).mp hj).1

/-- The store's view of who was evicted before is the shadow's. -/
theorem again_iff (h : Mirrors σ s queue) (v : Job) :
    s.again v = true ↔ ∀ j ∈ σ.live, j.jobID ≠ v.jobID := by
  constructor
  · intro ha j hj heq
    rw [Store.again, ← heq, h.find?_live hj] at ha
    simp [((h.live j).mp hj).2] at ha
  · intro hn
    rw [Store.again]
    cases hf : s.jobs.find? v.jobID with
    | none => rfl
    | some j =>
        cases ha : j.status.isActive with
        | false => simp [ha]
        | true =>
            have hj := (h.live j).mpr ⟨Table.mem_of_find? hf, ha⟩
            exact absurd (Table.key_of_find? hf) (hn j hj)

/-- Placing a job. -/
theorem commit (h : Mirrors σ s (job :: queue)) (hn : node ∈ σ.mem.nodes)
    (hf : node.fits job.resourceRequest = true) (evs : List SchedulingEvent) :
    Mirrors (σ.commit job node) { s.place job node with events := evs } queue := by
  obtain ⟨hjob, hq⟩ := h.queued job List.mem_cons_self
  -- the job itself is neither live nor in the map before
  have hlive : ∀ j ∈ σ.live, j.jobID ≠ job.jobID := fun j hj heq ↦ by
    have hj' := h.find?_live hj
    rw [heq, hjob, Option.some.injEq] at hj'
    have := ((h.live j).mp hj).2
    rw [← hj', hq] at this
    cases this
  have hmap : ∀ id, ∀ v ∈ σ.mem.running id, job.jobID ≠ v.jobID := fun id v hv ↦
    (h.running id v hv).1 job List.mem_cons_self
  have hrun : ∀ id, (σ.commit job node).mem.running id =
      if id = node.nodeID then σ.mem.running id ++ [job] else σ.mem.running id := fun _ ↦ rfl
  refine ⟨h.toInStep.commit hn hf evs, fun j ↦ ?_, fun id v hv ↦ ?_, fun id ↦ ?_, fun id d ↦ ?_⟩
  · change j ∈ σ.live ++ [job.scheduledOn node.nodeID] ↔
      j ∈ (s.schedule job.jobID node.nodeID).jobs.rows ∧ j.status.isActive = true
    rw [Store.jobs_schedule, Table.mem_modify, List.mem_append, List.mem_singleton, h.live]
    constructor
    · rintro (⟨hj, ha⟩ | rfl)
      · exact ⟨.inr ⟨hj, hlive j ((h.live j).mpr ⟨hj, ha⟩)⟩, ha⟩
      · exact ⟨.inl ⟨job, Table.mem_of_find? hjob, rfl, rfl⟩, rfl⟩
    · rintro ⟨⟨r, hr, hk, rfl⟩ | ⟨hj, -⟩, ha⟩
      · rw [s.jobs.eq_of_key_eq hr (Table.mem_of_find? hjob) hk]
        exact .inr rfl
      · exact .inl ⟨hj, ha⟩
  · rcases Mem.mem_running_commit hv with hv | ⟨rfl, rfl⟩
    · obtain ⟨hqu, hpos, hl⟩ := h.running id v hv
      refine ⟨fun j hj ↦ hqu j (List.mem_cons_of_mem job hj), hpos, fun j hj heq ↦ ?_⟩
      rcases List.mem_append.mp hj with hj | hj
      · exact hl j hj heq
      · rw [List.mem_singleton.mp hj] at heq
        exact absurd heq (hmap id v hv)
    · refine ⟨fun j hj ↦ h.ne_head hj, h.requests v (Table.mem_of_find? hjob), fun j hj heq ↦ ?_⟩
      rcases List.mem_append.mp hj with hj | hj
      · exact absurd heq (hlive j hj)
      · rw [List.mem_singleton.mp hj]
        exact ⟨rfl, rfl⟩
  · rw [hrun]
    split
    · rw [List.map_append, List.map_singleton, List.nodup_append]
      refine ⟨h.runningNodup id, List.nodup_singleton _, ?_⟩
      rintro a ha b hb rfl
      obtain ⟨v, hv, rfl⟩ := List.mem_map.mp ha
      exact hmap id v hv (List.mem_singleton.mp hb).symm
    · exact h.runningNodup id
  · have hload : s.load id d ≤ (s.place job node).load id d := by
      rw [Store.place, Store.load_writeBack, Store.load_schedule hjob,
        Job.usage_of_not_active (by rw [hq]; rfl), sub_zero]
      have hpos := h.requests job (Table.mem_of_find? hjob)
      have := Job.usage_nonneg (j := job.scheduledOn node.nodeID) hpos id d
      omega
    change 0 ≤ (s.place job node).drift id d ∧
      (s.place job node).drift id d ≤ (s.place job node).load id d
    rw [h.toInStep.drift_place hn]
    exact ⟨(h.drift id d).1, (h.drift id d).2.trans hload⟩

/-- The victims of a plan. -/
theorem victims (h : Mirrors σ s queue)
    (hplan : findPreemption job σ.mem.nodes σ.mem.running = some plan) :
    Victims plan.node.nodeID plan.victims s := by
  obtain ⟨-, -, hpre⟩ := findPreemption_some hplan
  refine ⟨?_, fun v hv j hj ha ↦ ?_⟩
  · have hperm := perm_sliceStable cheaper (eligible job (σ.mem.running plan.node.nodeID))
    refine List.Nodup.sublist (hpre.sublist.map Job.jobID) ?_
    refine (hperm.map Job.jobID).nodup_iff.mpr ?_
    exact (h.runningNodup plan.node.nodeID).sublist (List.filter_sublist.map Job.jobID)
  · exact (h.running _ v (mem_running_of_victim hplan hv)).2.2 j
      ((h.live j).mpr ⟨Table.mem_of_find? hj, ha⟩) (Table.key_of_find? hj)

/-- Evicting the victims of a plan. -/
theorem evict (h : Mirrors σ s queue)
    (hplan : findPreemption job σ.mem.nodes σ.mem.running = some plan)
    (he : Evicted plan.node.nodeID plan.victims s t) :
    Mirrors (σ.evict plan) (t.writeBack (releaseAll plan.node plan.victims)) queue := by
  obtain ⟨hmem, -, -⟩ := findPreemption_some hplan
  have hrow := h.synced plan.node hmem
  have hvs : ∀ v ∈ plan.victims, ∀ d, 0 ≤ v.request d := fun v hv ↦
    (h.running _ v (mem_running_of_victim hplan hv)).2.1
  have hother : ∀ k, k ≠ plan.node.nodeID →
      (t.writeBack (releaseAll plan.node plan.victims)).nodes.find? k = s.nodes.find? k :=
    fun k hk ↦ by
      rw [Store.find?_writeBack_of_ne (by rwa [nodeID_releaseAll]), he.nodes]
  have hself : (t.writeBack (releaseAll plan.node plan.victims)).nodes.find? plan.node.nodeID =
      some (releaseAll plan.node plan.victims) := by
    have hfind : t.nodes.find? (releaseAll plan.node plan.victims).nodeID = some plan.node := by
      rw [he.nodes, nodeID_releaseAll, hrow]
    simpa using Store.find?_writeBack_self hfind (setAvailable_releaseAll plan.node plan.victims)
  refine ⟨⟨fun x hx ↦ ?_, fun j hj ↦ ?_, h.nodup, he.requests h.requests, ?_⟩, fun j ↦ ?_,
    fun id v hv ↦ ?_, h.runningNodup, fun id d ↦ ?_⟩
  · rcases Mem.mem_nodes_putNode hx with rfl | ⟨hx, hne⟩
    · rw [nodeID_releaseAll, hself]
    · rw [nodeID_releaseAll] at hne
      rw [hother _ hne, h.synced x hx]
  · obtain ⟨hf, hq⟩ := h.queued j hj
    refine ⟨(he.others j.jobID fun v hv heq ↦ ?_).trans hf, hq⟩
    exact (h.running _ v (mem_running_of_victim hplan hv)).1 j hj heq.symm
  · refine Store.NonnegAvail.writeBack (fun n hn ↦ h.avail n (he.nodes ▸ hn)) fun d ↦ ?_
    exact (h.avail plan.node (Table.mem_of_find? hrow) d).trans
      (le_avail_releaseAll (Store.avail_le_cap_of_drift hrow (h.drift _ d).2) hvs)
  · change j ∈ σ.live.filter _ ↔ j ∈ t.jobs.rows ∧ _
    rw [List.mem_filter, decide_eq_true_eq]
    constructor
    · rintro ⟨hj, hv⟩
      refine ⟨Table.mem_of_find? (k := j.jobID) ?_, ((h.live j).mp hj).2⟩
      rw [he.others j.jobID hv, h.find?_live hj]
    · rintro ⟨hj, ha⟩
      have hnv : ∀ v ∈ plan.victims, v.jobID ≠ j.jobID := fun v hv heq ↦ by
        have := he.victims v hv j (heq ▸ Table.find?_key hj)
        rw [this] at ha
        cases ha
      refine ⟨(h.live j).mpr ⟨Table.mem_of_find? (k := j.jobID) ?_, ha⟩, hnv⟩
      rw [← he.others j.jobID hnv, Table.find?_key hj]
  · obtain ⟨hq, hpos, hl⟩ := h.running id v hv
    exact ⟨hq, hpos, fun j hj ↦ hl j (List.mem_filter.mp hj).1⟩
  · by_cases hid : id = plan.node.nodeID
    · subst hid
      have := he.drift_writeBack rfl hrow h.requests hvs (h.drift _ d).1 (h.drift _ d).2
      exact ⟨this.1, this.2.1⟩
    · have hd : (t.writeBack (releaseAll plan.node plan.victims)).drift id d = s.drift id d :=
        Store.drift_congr (hother id hid) (he.loads id hid d)
      rw [hd, Store.load_writeBack, he.loads id hid d]
      exact h.drift id d

/-- What a round of evictions does to the drift of its node, and to that of the others. -/
theorem drift_evict (h : Mirrors σ s queue)
    (hplan : findPreemption job σ.mem.nodes σ.mem.running = some plan)
    (he : Evicted plan.node.nodeID plan.victims s t) (id : String) (d : Resource) :
    (t.writeBack (releaseAll plan.node plan.victims)).drift id d = 0 ↔
      if id = plan.node.nodeID then (σ.round plan).Clears id d ∨
        (s.drift id d = 0 ∧ ∀ v ∈ (σ.round plan).again, v.request d = 0)
      else s.drift id d = 0 := by
  obtain ⟨hmem, -, -⟩ := findPreemption_some hplan
  split
  · rename_i hid
    subst hid
    have hvs : ∀ v ∈ plan.victims, ∀ d, 0 ≤ v.request d := fun v hv ↦
      (h.running _ v (mem_running_of_victim hplan hv)).2.1
    have hd := he.drift_writeBack rfl (h.synced plan.node hmem) h.requests hvs (h.drift _ d).1
      (h.drift _ d).2
    have hz := (h.evict hplan he).load_eq_zero_iff plan.node.nodeID d
    rw [Store.load_writeBack] at hz
    rw [hd.2.2, hz]
    refine or_congr ⟨fun h ↦ ⟨rfl, h⟩, And.right⟩ (and_congr_right fun _ ↦ ?_)
    simp only [Shadow.round, List.mem_filter, decide_eq_true_eq, and_imp]
    exact forall₂_congr fun v _ ↦ by rw [h.again_iff]
  · rename_i hid
    have hd : (t.writeBack (releaseAll plan.node plan.victims)).drift id d = s.drift id d := by
      refine Store.drift_congr ?_ (he.loads id hid d)
      rw [Store.find?_writeBack_of_ne (by rwa [nodeID_releaseAll]), he.nodes]
    rw [hd]

end Mirrors

/-! ## The loop over the queue -/

/-- A node whose availability is right if `ok` holds will be right after the given rounds. -/
def EndsRight (id : String) (d : Resource) (ok : Prop) (rs : List Round) : Prop :=
  (ok ∨ ∃ r ∈ rs, r.Clears id d) ∧ Harmless id d rs

theorem endsRight_nil {id : String} {d : Resource} {ok : Prop} : EndsRight id d ok [] ↔ ok := by
  simp [EndsRight, Harmless]

/-- One round at a time. -/
theorem endsRight_cons {id : String} {d : Resource} {ok : Prop} {r : Round} {rs : List Round} :
    EndsRight id d ok (r :: rs) ↔
      EndsRight id d (if id = r.nodeID then
        r.Clears id d ∨ (ok ∧ ∀ v ∈ r.again, v.request d = 0) else ok) rs := by
  by_cases hid : id = r.nodeID
  · simp only [EndsRight, Harmless, hid.symm, if_true, true_imp_iff, List.exists_mem_cons_iff]
    rw [← and_assoc, ← and_or_right, or_left_comm, ← or_assoc]
  · have hclear : ¬ r.Clears id d := fun h ↦ hid h.1.symm
    simp only [EndsRight, Harmless, if_neg hid, Ne.symm hid, false_imp_iff, true_and,
      List.exists_mem_cons_iff, hclear, false_or]

section Loop

variable {admits : Admits} {e : Engine} {now : Time} {job : Job} {queue : List Job} {σ : Shadow}
  {s : Store}

/-- What one attempt of a pass achieves: the shadow goes along, and whether a node ends up right
does not depend on whether one asks before or after the attempt. -/
structure Attempted (e : Engine) (now : Time) (job : Job) (queue : List Job) (σ : Shadow)
    (s : Store) (m : Mem) (t : Store) : Prop where
  mem : m = (σ.attempt e now job).2.mem
  mirrors : Mirrors (σ.attempt e now job).2 t queue
  endsRight : ∀ id d rest, EndsRight id d (s.drift id d = 0) ((σ.attempt e now job).1 ++ rest) ↔
    EndsRight id d (t.drift id d = 0) rest

/-- An eviction, when no call fails. -/
theorem Mirrors.wp_applyPreemption (hok : ¬ CanFail admits) (h : Mirrors σ s queue)
    {plan : PreemptionPlan}
    (hplan : findPreemption job σ.mem.nodes σ.mem.running = some plan) :
    Wp admits (Engine.applyPreemption plan) (fun _ m t ↦ m = (σ.evict plan).mem ∧
      Mirrors (σ.evict plan) t queue ∧ ∀ id d rest,
        EndsRight id d (s.drift id d = 0) (σ.round plan :: rest) ↔
          EndsRight id d (t.drift id d = 0) rest) σ.mem s := by
  have hself : σ.mem.putNode plan.node = σ.mem := Mem.putNode_self _ fun x hx hid ↦ by
    have hx' := h.synced x hx
    rw [hid, h.synced plan.node (findPreemption_some hplan).1, Option.some.injEq] at hx'
    exact hx'.symm
  refine Scheduler.wp_applyPreemption ((wp_evictVictims hok hself (h.victims hplan)).mono ?_)
  rintro _ _ t - ⟨rfl, rfl, ht⟩
  refine ⟨⟨rfl, h.evict hplan ht, fun id d rest ↦ ?_⟩, fun hc ↦ absurd hc hok⟩
  rw [endsRight_cons, h.drift_evict hplan ht]
  rfl

/-- One attempt, when no call fails. -/
theorem Mirrors.wp_placeOne (hok : ¬ CanFail admits) (h : Mirrors σ s (job :: queue)) :
    Wp admits (e.placeOne now job) (fun _ m t ↦ Attempted e now job queue σ s m t) σ.mem s := by
  refine Act.wp_bind.mpr (Act.wp_get_alone.mpr ?_)
  cases hp : e.alg.place job σ.mem.nodes with
  | ok r =>
      obtain ⟨hn, hf⟩ := Algorithm.place_ok hp
      have ha : σ.attempt e now job = ([], σ.commit job r.1) := by rw [Shadow.attempt, hp]
      refine Engine.wp_commitPlacement (fun hc ↦ absurd hc.canFail hok)
        (fun ⟨_, _, _, hc⟩ ↦ absurd hc.canFail hok) fun evs ↦
        ⟨by rw [ha]; rfl, by rw [ha]; exact h.commit hn hf evs, fun id d rest ↦ ?_⟩
      rw [ha, List.nil_append, ← h.toInStep.drift_place hn]
      rfl
  | error why =>
      simp only
      split
      · rename_i hen
        cases hplan : findPreemption job σ.mem.nodes σ.mem.running with
        | none =>
            have ha : σ.attempt e now job = ([], σ) := by
              simp only [Shadow.attempt, hp, hen, hplan, if_true]
            refine Engine.wp_giveUp fun evs ↦ ⟨by rw [ha], by rw [ha]; exact h.tail.events evs,
              fun id d rest ↦ ?_⟩
            rw [ha, List.nil_append]
            rfl
        | some plan =>
            refine Act.wp_bind.mpr ((h.wp_applyPreemption hok hplan).mono ?_)
            rintro _ m t - ⟨rfl, ht, hends⟩
            refine Act.wp_bind.mpr (Act.wp_get_alone.mpr ?_)
            cases hp' : e.alg.place job (σ.evict plan).mem.nodes with
            | ok r =>
                obtain ⟨hn, hf⟩ := Algorithm.place_ok hp'
                have ha : σ.attempt e now job =
                    ([σ.round plan], (σ.evict plan).commit job r.1) := by
                  simp only [Shadow.attempt, hp, hen, hplan, hp', if_true]
                refine Engine.wp_commitPlacement (fun hc ↦ absurd hc.canFail hok)
                  (fun ⟨_, _, _, hc⟩ ↦ absurd hc.canFail hok) fun evs ↦ ⟨by rw [ha]; rfl,
                    by rw [ha]; exact ht.commit hn hf evs, fun id d rest ↦ ?_⟩
                rw [ha, List.singleton_append, hends, ← ht.toInStep.drift_place hn]
                rfl
            | error why =>
                have ha : σ.attempt e now job = ([σ.round plan], σ.evict plan) := by
                  simp only [Shadow.attempt, hp, hen, hplan, hp', if_true]
                refine Engine.wp_giveUp fun evs ↦ ⟨by rw [ha],
                  by rw [ha]; exact ht.tail.events evs, fun id d rest ↦ ?_⟩
                rw [ha, List.singleton_append, hends]
                rfl
      · rename_i hen
        have ha : σ.attempt e now job = ([], σ) := by
          simp only [Shadow.attempt, hp, hen, Bool.false_eq_true, if_false]
        refine Engine.wp_giveUp fun evs ↦ ⟨by rw [ha], by rw [ha]; exact h.tail.events evs,
          fun id d rest ↦ ?_⟩
        rw [ha, List.nil_append]
        rfl

/-- The whole loop: the books are right at its end where the rounds say so. -/
theorem Mirrors.wp_loop (hok : ¬ CanFail admits) (h : Mirrors σ s queue) :
    Wp admits (queue.forM (e.placeOne now)) (fun _ _ t ↦ t.NonnegAvail ∧ ∀ id d,
      t.drift id d = 0 ↔ EndsRight id d (s.drift id d = 0) (σ.rounds e now queue)) σ.mem s := by
  -- in front of each attempt, the shadow mirrors the store and predicts the end
  let I : List Job → Mem → Store → Prop := fun queue' m t ↦ ∃ τ : Shadow, m = τ.mem ∧
    Mirrors τ t queue' ∧ ∀ id d, EndsRight id d (s.drift id d = 0) (σ.rounds e now queue) ↔
      EndsRight id d (t.drift id d = 0) (τ.rounds e now queue')
  have hloop : Wp admits (queue.forM (e.placeOne now)) (fun _ m t ↦ I [] m t) σ.mem s := by
    refine Act.wp_forM_alone ⟨σ, rfl, h, fun _ _ ↦ Iff.rfl⟩ ?_
    rintro job queue' m t ⟨τ, rfl, hτ, hends⟩
    refine (hτ.wp_placeOne hok).mono fun _ m u _ hu ↦ ⟨_, hu.mem, hu.mirrors, fun id d ↦ ?_⟩
    rw [hends id d, Shadow.rounds, hu.endsRight]
  refine hloop.mono ?_
  rintro _ _ t - ⟨τ, rfl, hτ, hends⟩
  exact ⟨hτ.avail, fun id d ↦ by rw [hends id d, Shadow.rounds, endsRight_nil]⟩

end Loop

/-! ## The pass -/

/-- A pass enters its loop with a faithful shadow. -/
theorem Mirrors.passMem {s : Store} (hacc : s.Accounted) (ha : s.NonnegAvail)
    (hr : s.NonnegRequests) (e : Engine) (clock : Clock) (shares : List (String × ℚ)) :
    Mirrors ⟨passMem [] s, s.listByStatuses [.scheduled, .running]⟩ s
      (e.queueOrder clock shares s) := by
  have hactive : ∀ j, j ∈ s.listByStatuses [.scheduled, .running] ↔
      j ∈ s.jobs.rows ∧ j.status.isActive = true := fun j ↦ by
    rw [Store.listByStatuses, mem_sliceStable, List.mem_filter, JobStatus.isActive_iff]
    simp
  have hrun : ∀ id, ∀ v ∈ runningMap (s.listByStatuses [.scheduled, .running]) id,
      v ∈ s.jobs.rows ∧ v.status.isActive = true ∧ v.nodeID = id := fun id v hv ↦ by
    obtain ⟨hv, hid⟩ := List.mem_filter.mp hv
    simp only [Bool.and_eq_true, decide_eq_true_eq] at hid
    obtain ⟨hrow, hact⟩ := (hactive v).mp hv
    exact ⟨hrow, hact, hid.2⟩
  have hstep := InStep.passMem hr ha e clock shares []
  refine ⟨hstep, hactive, fun id v hv ↦ ?_, fun id ↦ ?_, fun id d ↦ ?_⟩
  · obtain ⟨hrow, hact, hid⟩ := hrun id v hv
    refine ⟨fun j hj heq ↦ ?_, hr v hrow, fun j hj heq ↦ ?_⟩
    · obtain ⟨hf, hq⟩ := hstep.queued j hj
      rw [s.jobs.eq_of_key_eq (Table.mem_of_find? hf) hrow heq] at hq
      rw [hq] at hact
      cases hact
    · rw [s.jobs.eq_of_key_eq ((hactive j).mp hj).1 hrow heq]
      exact ⟨hid, rfl⟩
  · exact (s.nodup_listByStatuses _).sublist (List.filter_sublist.map Job.jobID)
  · rw [Store.accounted_iff.mp hacc id d]
    exact ⟨le_rfl, Store.load_nonneg hr id d⟩

section Tick

variable {e : Engine} {clock : Clock} {s t : Store} {r : Except StoreError Unit}

/-- From right books, a pass in which no call fails and no node is stale leaves a node right where
its rounds of evictions say so. -/
theorem drift_tick_iff (hacc : s.Accounted) (havail : s.NonnegAvail) (hreq : s.NonnegRequests)
    (hrun : Runs Smooth (e.tick clock) s r t) :
    t.NonnegAvail ∧ ∀ id d, t.drift id d = 0 ↔ Harmless id d (evictionRounds e clock s) := by
  have hok : ¬ CanFail Smooth := not_canFail fun _ _ _ _ h ↦ h.1
  have hpost : t.NonnegAvail ∧ ∀ id d, t.drift id d = 0 ↔
      EndsRight id d (s.drift id d = 0) (evictionRounds e clock s) := by
    refine hrun.of_wp (Q := fun _ t ↦ t.NonnegAvail ∧ ∀ id d, t.drift id d = 0 ↔
      EndsRight id d (s.drift id d = 0) (evictionRounds e clock s)) ?_
    refine Act.wp_bind.mpr (Engine.wp_reconcileDeadNodes_of_noStale (fun _ _ _ _ h ↦ h.2) ?_)
    refine Engine.wp_schedulePass (fun hc ↦ absurd hc hok) (fun hempty _ ↦ ⟨havail, ?_⟩)
      fun shares hs ↦ ?_
    · intro id d
      rw [evictionRounds, Engine.queueOrder_of_empty hempty, Shadow.rounds, endsRight_nil]
    · obtain rfl := hs.resolve_right hok
      exact (Mirrors.passMem hacc havail hreq e clock _).wp_loop hok
  refine ⟨hpost.1, fun id d ↦ ?_⟩
  rw [hpost.2 id d, EndsRight, Store.accounted_iff.mp hacc id d]
  exact ⟨And.right, fun h ↦ ⟨.inl rfl, h⟩⟩

end Tick

/-- **Oversubscription by preemption.**  From right books, after a pass in which no call fails and
no node is stale, no node is oversubscribed and the books are right again if and only if every
request that the pass returned a second time was made up for. -/
theorem tick_accounted_iff {e : Engine} {clock : Clock} {s t : Store}
    {r : Except StoreError Unit} (hacc : s.Accounted) (havail : s.NonnegAvail)
    (hreq : s.NonnegRequests) (hrun : Runs Smooth (e.tick clock) s r t) :
    (∀ n ∈ t.nodes.rows, ∀ d, t.load n.nodeID d ≤ n.cap d ∧
        n.avail d = n.cap d - t.load n.nodeID d) ↔
      ∀ id d, Harmless id d (evictionRounds e clock s) := by
  obtain ⟨hnonneg, hzero⟩ := drift_tick_iff hacc havail hreq hrun
  constructor
  · intro h id d
    rw [← hzero]
    exact Store.accounted_iff.mp (fun n hn d ↦ (h n hn d).2) id d
  · intro h n hn d
    have ht : t.Accounted := Store.accounted_iff.mpr fun id d ↦ (hzero id d).mpr (h id d)
    exact ⟨Store.load_le_cap ht hnonneg hn d, ht n hn d⟩

/-- First fit, with preemption by jobs of priority 8 and above. -/
def preempting : Engine := ⟨.firstFit, ⟨1, 100, true, 100⟩⟩

/-- A full node, and one job that may preempt the job on it. -/
def evictedOnce : Store :=
  Small.store [Small.job "v" .running 1 2 "n" 0, Small.job "a" .queued 8 2 "" 1]
    [Small.node "n" .ready 2 0]

/-- The victim makes room for the one job that preempts it, and for no other. -/
theorem tick_accounted_evictedOnce :
    evictionRounds preempting ⟨5, 5⟩ evictedOnce = [⟨"n", [], []⟩] ∧
      ∀ n ∈ (runOp (preempting.tick ⟨5, 5⟩) (steady 3) evictedOnce).2.nodes.rows, ∀ d,
        (runOp (preempting.tick ⟨5, 5⟩) (steady 3) evictedOnce).2.load n.nodeID d ≤ n.cap d ∧
          n.avail d = n.cap d -
            (runOp (preempting.tick ⟨5, 5⟩) (steady 3) evictedOnce).2.load n.nodeID d := by
  have hrounds : evictionRounds preempting ⟨5, 5⟩ evictedOnce = [⟨"n", [], []⟩] := by
    decide +kernel
  refine ⟨hrounds, ?_⟩
  refine (tick_accounted_iff (s := evictedOnce) (by decide) (by decide) (by decide)
    (runs_runOp (by decide +kernel))).mpr fun id d ↦ ?_
  rw [hrounds]
  exact ⟨fun _ ↦ .inl fun v hv ↦ absurd hv List.not_mem_nil, trivial⟩

/-- A full node, and two jobs that may preempt the job on it. -/
def evictedTwice : Store :=
  Small.store [Small.job "v" .running 1 2 "n" 0, Small.job "a" .queued 8 2 "" 1,
    Small.job "b" .queued 8 2 "" 2] [Small.node "n" .ready 2 0]

/-- The second job evicts the victim of the first once more, and both end up on the node. -/
theorem tick_oversubscribes :
    evictedTwice.Accounted ∧ evictedTwice.NonnegAvail ∧ evictedTwice.NonnegRequests ∧
      Runs Smooth (preempting.tick ⟨5, 5⟩) evictedTwice (.ok ())
        (runOp (preempting.tick ⟨5, 5⟩) (steady 3) evictedTwice).2 ∧
      ∃ n ∈ (runOp (preempting.tick ⟨5, 5⟩) (steady 3) evictedTwice).2.nodes.rows,
        n.cap .gpu <
          (runOp (preempting.tick ⟨5, 5⟩) (steady 3) evictedTwice).2.load
            n.nodeID .gpu := by
  refine ⟨by decide, by decide, by decide, ?_, by decide +kernel⟩
  have hr : (runOp (preempting.tick ⟨5, 5⟩) (steady 3) evictedTwice).1 = .ok () := by
    decide +kernel
  rw [← hr]
  exact runs_runOp (by decide +kernel)

end GpuScheduler
