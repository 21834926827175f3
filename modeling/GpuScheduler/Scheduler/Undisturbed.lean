import GpuScheduler.Scheduler.PassSpec

/-!
# A pass in which no call fails

When no call fails, the scheduling half of a pass is a function of the store.  `Pass` is where such
a pass stands: what it holds in memory, the store, and the calls that it has made.  `Pass.attempt`
is what `placeOne` does to it, `Pass.run` the loop over the queue, and `Engine.undisturbed` the
whole; `logWp_schedulePass` says that the program computes just that.

What one attempt can do is said by `Pass.Tried`, and an invariant of a pass need only be checked
for its constructors.
-/

namespace GpuScheduler

open Lib Models

namespace Scheduler

/-- Where an undisturbed pass stands. -/
structure Pass where
  mem : Mem
  store : Store
  /-- The calls that were made, in their order. -/
  calls : List Call

namespace Pass

/-- The part that is not in memory. -/
def state (p : Pass) : Store × List Call := (p.store, p.calls)

/-- A decision is recorded. -/
def record (p : Pass) (ev : SchedulingEvent) : Pass :=
  { p with store := p.store.record ev, calls := p.calls ++ [.eventsRecord ev] }

/-- The availability of a node is written to the store. -/
def writeBack (p : Pass) (n : Node) : Pass :=
  { p with
    store := p.store.writeBack n
    calls := p.calls ++ [.nodesUpdateAvailability n.nodeID n.gpuAvailable n.cpuAvailable
      n.memoryAvailable] }

/-- `jobs.Schedule`, after the node was reserved. -/
def schedule (p : Pass) (job : Job) (node : Node) : Pass where
  mem := p.mem.commit job node
  store := p.store.schedule job.jobID node.nodeID
  calls := p.calls ++ [.jobsSchedule job.jobID node.nodeID]

/-- `commitPlacement`. -/
def commit (e : Engine) (p : Pass) (job : Job) (node : Node) (reason : String) : Pass :=
  ((p.schedule job node).writeBack (node.reserve job.resourceRequest)).record
    ⟨job.jobID, node.nodeID, reason, e.alg.name, true⟩

theorem jobs_commit (e : Engine) (p : Pass) (job : Job) (node : Node) (reason : String) :
    (p.commit e job node reason).store.jobs = p.store.jobs.modify job.jobID
      (·.scheduledOn node.nodeID) (·.jobID_scheduledOn node.nodeID) := rfl

theorem nodes_commit (e : Engine) (p : Pass) (job : Job) (node : Node) (reason : String) :
    (p.commit e job node reason).store.nodes =
      (p.store.writeBack (node.reserve job.resourceRequest)).nodes := rfl

/-- `giveUp`. -/
def giveUp (e : Engine) (p : Pass) (job : Job) (reason : String) : Pass :=
  p.record ⟨job.jobID, "", "no capacity: " ++ reason, e.alg.name, false⟩

/-- One victim is evicted, after its request was returned to the node. -/
def evictOne (p : Pass) (node : Node) (v : Job) : Pass where
  mem := p.mem.putNode node
  store := p.store.requeue v.jobID .queued
  calls := p.calls ++ [.jobsRequeue v.jobID .preempted, .jobsUpdateStatus v.jobID .queued]

/-- `evictVictims`. -/
def evictAll (p : Pass) (node : Node) : List Job → Pass
  | [] => p
  | v :: vs => evictAll (p.evictOne (node.release v.resourceRequest) v)
      (node.release v.resourceRequest) vs

/-- What every eviction of a victim keeps, the evictions of all victims keep. -/
theorem evictAll_induct {I : Pass → Prop} {p : Pass} {node : Node} {vs : List Job} (h : I p)
    (hstep : ∀ q n v, I q → q.mem.running = p.mem.running → n.nodeID = node.nodeID →
      n.status = node.status → v ∈ vs → I (q.evictOne n v)) : I (p.evictAll node vs) := by
  induction vs generalizing p node with
  | nil => exact h
  | cons v vs ih =>
      refine ih (hstep p _ v h rfl rfl rfl List.mem_cons_self) fun q n w hq hrun hid hst hw ↦ ?_
      exact hstep q n w hq hrun hid hst (List.mem_cons_of_mem v hw)

/-- `applyPreemption`. -/
def evict (p : Pass) (plan : PreemptionPlan) : Pass :=
  (p.evictAll plan.node plan.victims).writeBack (releaseAll plan.node plan.victims)

/-- `placeOne`. -/
def attempt (e : Engine) (now : Time) (p : Pass) (job : Job) : Pass :=
  match e.alg.place job p.mem.nodes with
  | .ok (node, reason) => p.commit e job node reason
  | .error reason =>
    if e.cfg.enablePreemption && e.shouldPreempt job now then
      match findPreemption job p.mem.nodes p.mem.running with
      | none => p.giveUp e job reason
      | some plan =>
        match e.alg.place job (p.evict plan).mem.nodes with
        | .ok (node, reason) => (p.evict plan).commit e job node ("preemption: " ++ reason)
        | .error reason => (p.evict plan).giveUp e job reason
    else p.giveUp e job reason

/-- The loop over the queue. -/
def run (e : Engine) (now : Time) (p : Pass) (queue : List Job) : Pass :=
  queue.foldl (attempt e now) p

end Pass

/-- What a pass reads before it enters its loop. -/
def reads (s : Store) : List Call :=
  [.nodesList, .jobsListByStatuses [.queued], .jobsListByStatuses [.scheduled, .running]] ++
    if (s.listByStatuses [.queued]).isEmpty then [] else [.jobsTeamGPUUsage]

theorem mem_reads {s : Store} {c : Call} (h : c ∈ reads s) :
    c = .nodesList ∨ c = .jobsTeamGPUUsage ∨ ∃ ss, c = .jobsListByStatuses ss := by
  rw [reads, List.mem_append] at h
  rcases h with h | h
  · simp only [List.mem_cons, List.not_mem_nil, or_false] at h
    rcases h with rfl | rfl | rfl
    · exact .inl rfl
    · exact .inr (.inr ⟨_, rfl⟩)
    · exact .inr (.inr ⟨_, rfl⟩)
  · split at h
    · cases h
    · exact .inr (.inl (List.mem_singleton.mp h))

/-- The order in which an undisturbed pass attempts the queued jobs. -/
def Engine.queue (e : Engine) (clock : Clock) (s : Store) : List Job :=
  e.queueOrder clock (sharesOf s.listNodes s.teamGPUUsage) s

/-- An undisturbed pass, from the store `s` and after the calls `l`. -/
def Engine.undisturbed (e : Engine) (clock : Clock) (dead : List String) (l : List Call)
    (s : Store) : Pass :=
  Pass.run e clock.pass ⟨passMem dead s, s, l ++ reads s⟩ (e.queue clock s)

/-! ## The program computes it -/

section Program

variable {admits : Admits} {e : Engine} {now : Time} {job : Job} {m : Mem} {p : Pass}

/-- The environment lets no call fail. -/
def Faultless (admits : Admits) : Prop := ∀ m c env s, admits m c env s → env.fails = false

/-- A call that succeeds. -/
theorem logWp_issue (hok : Faultless admits) {c : Call} {s : Store} {l : List Call}
    {Q : c.Ret → Mem → Store × List Call → Prop}
    (h : ∀ env, admits m c env s → Q (s.perform env.now c).1 m ((s.perform env.now c).2,
      if (s.perform env.now c).1.isOk then l ++ [c] else l)) :
    LogWp admits (issue c) Q m (s, l) := by
  refine Act.wp_call_alone.mpr fun env henv ↦ ?_
  have hexec : Store.exec c env s = s.perform env.now c := Store.exec_of_ok (hok _ _ _ _ henv)
  simp only [Store.logged, journal, hexec]
  exact h env henv

/-- A call that answers `v` and leaves the store `t`, whatever the time. -/
theorem logWp_answer (hok : Faultless admits) {c : Call} {s t : Store} {l : List Call} {v : c.Val}
    {Q : c.Ret → Mem → Store × List Call → Prop} (hv : ∀ now, s.perform now c = (.ok v, t))
    (h : Q (.ok v) m (t, l ++ [c])) : LogWp admits (issue c) Q m (s, l) := by
  refine logWp_issue hok fun env _ ↦ ?_
  rw [hv]
  exact h

namespace Pass

/-- The pass is where `p` says. -/
def At (p : Pass) (m : Mem) (y : Store × List Call) : Prop := m = p.mem ∧ y = p.state

theorem logWp_record (hok : Faultless admits) {nodeID reason : String} {ok : Bool} :
    LogWp admits (e.recordEvent job nodeID reason ok)
      (fun _ ↦ (p.record ⟨job.jobID, nodeID, reason, e.alg.name, ok⟩).At) p.mem p.state :=
  Act.wp_bind.mpr (logWp_answer hok (fun _ ↦ rfl) (Act.wp_pure_alone.mpr ⟨rfl, rfl⟩))

theorem logWp_commit (hok : Faultless admits) {node : Node} {reason : String} :
    LogWp admits (e.commitPlacement job node reason) (fun _ ↦ (p.commit e job node reason).At)
      p.mem p.state := by
  refine Act.wp_bind.mpr (Act.wp_modify_alone.mpr ?_)
  refine Act.wp_bind.mpr (Act.wp_modify_alone.mpr ?_)
  refine Act.wp_bind.mpr (logWp_answer hok (fun _ ↦ rfl) ?_)
  refine Act.wp_bind.mpr (logWp_answer hok (fun _ ↦ rfl) ?_)
  exact logWp_record (p := (p.schedule job node).writeBack (node.reserve job.resourceRequest)) hok

theorem logWp_evictAll (hok : Faultless admits) {node : Node} {vs : List Job} :
    LogWp admits (Engine.evictVictims node vs)
      (fun n m y ↦ n = releaseAll node vs ∧ (p.evictAll node vs).At m y) p.mem p.state := by
  induction vs generalizing node p with
  | nil => exact Act.wp_pure_alone.mpr ⟨rfl, rfl, rfl⟩
  | cons v vs ih =>
      refine Act.wp_bind.mpr (Act.wp_modify_alone.mpr ?_)
      refine Act.wp_bind.mpr (logWp_answer hok (fun _ ↦ rfl) ?_)
      have hqueued : ∀ now, (p.store.requeue v.jobID .preempted).perform now
          (.jobsUpdateStatus v.jobID .queued) = (.ok (), p.store.requeue v.jobID .queued) :=
        fun now ↦ congrArg (Prod.mk _) (Store.updateStatus_requeue ..)
      refine Act.wp_bind.mpr (logWp_answer hok hqueued ?_)
      rw [List.append_assoc]
      exact ih (p := p.evictOne (node.release v.resourceRequest) v)

theorem logWp_evict (hok : Faultless admits) {plan : PreemptionPlan} :
    LogWp admits (Engine.applyPreemption plan) (fun _ ↦ (p.evict plan).At) p.mem p.state := by
  refine Act.wp_bind.mpr ((logWp_evictAll hok).mono ?_)
  rintro _ _ _ - ⟨rfl, rfl, rfl⟩
  exact Act.wp_bind.mpr (logWp_answer hok (fun _ ↦ rfl) (Act.wp_pure_alone.mpr ⟨rfl, rfl⟩))

/-- One attempt. -/
theorem logWp_attempt (hok : Faultless admits) :
    LogWp admits (e.placeOne now job) (fun _ ↦ (p.attempt e now job).At) p.mem p.state := by
  refine Act.wp_bind.mpr (Act.wp_get_alone.mpr ?_)
  rw [attempt]
  cases hp : e.alg.place job p.mem.nodes with
  | ok r => exact logWp_commit hok
  | error why =>
      simp only
      split
      · cases findPreemption job p.mem.nodes p.mem.running with
        | none => exact logWp_record hok
        | some plan =>
            refine Act.wp_bind.mpr ((logWp_evict hok).mono ?_)
            rintro _ _ _ - ⟨rfl, rfl⟩
            refine Act.wp_bind.mpr (Act.wp_get_alone.mpr ?_)
            simp only
            cases e.alg.place job (p.evict plan).mem.nodes with
            | ok r => exact logWp_commit hok
            | error why => exact logWp_record hok
      · exact logWp_record hok

/-- The loop. -/
theorem logWp_run (hok : Faultless admits) {queue : List Job} :
    LogWp admits (queue.forM (e.placeOne now)) (fun _ ↦ (p.run e now queue).At) p.mem p.state := by
  refine (Act.wp_forM_alone (I := fun queue' m y ↦ ∃ q : Pass, q.At m y ∧
    q.run e now queue' = p.run e now queue) ⟨p, ⟨rfl, rfl⟩, rfl⟩ ?_).mono ?_
  · rintro job queue' _ _ ⟨q, ⟨rfl, rfl⟩, hq⟩
    exact (logWp_attempt hok).mono fun _ m y _ h ↦ ⟨_, h, hq⟩
  · rintro _ m y - ⟨q, hat, hq⟩
    rw [← hq]
    exact hat

end Pass

/-- **A pass in which no call fails** is the function `Engine.undisturbed`. -/
theorem logWp_schedulePass (hok : Faultless admits) {clock : Clock} {s : Store} {l : List Call} :
    LogWp admits (e.schedulePass clock) (fun r _ y ↦ r = .ok () ∧
      y = (e.undisturbed clock m.dead l s).state) m (s, l) := by
  refine Act.wp_bind.mpr (logWp_answer hok (fun _ ↦ rfl) ?_)
  refine Act.wp_bind.mpr (Act.wp_modify_alone.mpr ?_)
  refine Act.wp_bind.mpr (logWp_answer hok (fun _ ↦ rfl) ?_)
  refine Act.wp_bind.mpr (logWp_answer hok (fun _ ↦ rfl) ?_)
  simp only
  split
  · rename_i hempty
    refine Act.wp_pure_alone.mpr ⟨rfl, ?_⟩
    have hqueue : e.queue clock s = [] :=
      Engine.queueOrder_of_empty (List.isEmpty_iff.mp hempty)
    simp [Engine.undisturbed, hqueue, Pass.run, Pass.state, reads, hempty]
  · rename_i hne
    refine Act.wp_bind.mpr (Act.wp_bind.mpr (logWp_answer hok (fun _ ↦ rfl) ?_))
    refine Act.wp_pure_alone.mpr (Act.wp_bind.mpr (Act.wp_modify_alone.mpr ?_))
    have hstart : (s, l ++ [.nodesList] ++ [.jobsListByStatuses [.queued]] ++
        [.jobsListByStatuses [.scheduled, .running]] ++ [.jobsTeamGPUUsage]) =
        Pass.state ⟨passMem m.dead s, s, l ++ reads s⟩ := by
      simp [Pass.state, reads, hne]
    rw [hstart]
    refine Act.wp_bind.mpr ((Pass.logWp_run (p := ⟨passMem m.dead s, s, l ++ reads s⟩) hok).mono ?_)
    rintro _ _ _ - ⟨rfl, rfl⟩
    exact Act.wp_pure_alone.mpr ⟨rfl, rfl⟩

/-- A whole pass in which no call fails and no node is stale. -/
theorem tick_undisturbed {clock : Clock} {s t : Store} {r : Except StoreError Unit} {l : List Call}
    (hlog : Logs Smooth (e.tick clock) s r l t) :
    r = .ok () ∧ (t, l) =
      (e.undisturbed clock [] [.nodesMarkStaleDown e.cfg.heartbeatTTL] s).state := by
  have hok : Faultless Smooth := fun _ _ _ _ h ↦ h.1
  refine hlog.of_wp (Q := fun r y ↦ r = .ok () ∧ y = (e.undisturbed clock [] _ s).state) ?_
  refine Act.wp_bind.mpr (Act.wp_bind.mpr (logWp_issue hok fun env henv ↦ ?_))
  simp only [Store.perform, s.staleNodes_of_noStale henv.2, s.markStaleDown_of_noStale henv.2]
  exact Act.wp_pure_alone.mpr ((logWp_schedulePass hok).mono fun _ _ _ _ h ↦ h)

/-- A recovery leaves nothing in memory. -/
theorem wp_reconcileDeadNodes_default {s : Store} :
    Wp admits e.reconcileDeadNodes (fun _ m _ ↦ m = default) default s := by
  refine Engine.wp_reconcileDeadNodes (fun _ ↦ rfl) (fun _ _ _ ↦ rfl) (fun _ _ ↦ rfl)
    fun env _ ↦ ?_
  refine (Act.wp_forM_alone (I := fun _ m _ ↦
    m = { (default : Mem) with dead := s.staleNodes e.cfg.heartbeatTTL env.now }) rfl ?_).mono ?_
  · rintro job _ m s rfl
    exact wp_recoverJob (fun _ ↦ rfl) (fun _ _ ↦ ⟨fun _ ↦ rfl, fun _ ↦ rfl⟩)
      fun _ _ ↦ ⟨rfl, fun _ ↦ rfl⟩
  · rintro _ m s - rfl
    rfl

/-- A pass is its recovery from lost nodes, and then its scheduling half. -/
theorem logs_tick {clock : Clock} {s t : Store} {r : Except StoreError Unit} {l : List Call}
    (hlog : Logs admits (e.tick clock) s r l t) :
    ∃ u l₁ l₂, Logs admits e.reconcileDeadNodes s () l₁ u ∧
      Logs admits (e.schedulePass clock) u r l₂ t ∧ l = l₁ ++ l₂ := by
  obtain ⟨m, hm⟩ := hlog
  obtain ⟨⟨_, m₁⟩, ⟨u, l₁⟩, hrec, hpass⟩ := Prog.exec_bind.mp hm
  obtain rfl : m₁ = default :=
    Prog.wp_alone_iff.mp wp_reconcileDeadNodes_default _ _ hrec.of_journal
  obtain ⟨l₂, hl, hpass⟩ := hpass.journal_append
  exact ⟨u, l₁, l₂, ⟨_, hrec⟩, ⟨_, hpass⟩, hl⟩

/-- The scheduling half, when no call fails. -/
theorem logs_schedulePass (hok : Faultless admits) {clock : Clock} {s t : Store}
    {r : Except StoreError Unit} {l : List Call}
    (hlog : Logs admits (e.schedulePass clock) s r l t) :
    (t, l) = (e.undisturbed clock [] [] s).state := by
  obtain ⟨m, hm⟩ := hlog
  exact (Prog.wp_alone_iff.mp (logWp_schedulePass hok) _ _ hm).2

end Program

/-! ## What an attempt can do -/

namespace Pass

variable {e : Engine} {now : Time} {job : Job} {p : Pass}

/-- What may have become of the pass `p` once it has attempted the job. -/
inductive Tried (e : Engine) (now : Time) (job : Job) (p : Pass) : Pass → Prop
  /-- The job was placed on a node that had room. -/
  | placed {node : Node} {reason : String} :
      e.alg.place job p.mem.nodes = .ok (node, reason) →
        Tried e now job p (p.commit e job node reason)
  /-- There was no room, and nobody was evicted. -/
  | refused {why : String} :
      e.alg.place job p.mem.nodes = .error why → Tried e now job p (p.giveUp e job why)
  /-- Others were evicted, and the job was placed. -/
  | replaced {plan : PreemptionPlan} {node : Node} {reason : String} :
      e.cfg.enablePreemption = true → e.shouldPreempt job now = true →
      findPreemption job p.mem.nodes p.mem.running = some plan →
      e.alg.place job (p.evict plan).mem.nodes = .ok (node, reason) →
      Tried e now job p ((p.evict plan).commit e job node ("preemption: " ++ reason))
  /-- Others were evicted, and still there was no room. -/
  | wasted {plan : PreemptionPlan} {why : String} :
      e.cfg.enablePreemption = true → e.shouldPreempt job now = true →
      findPreemption job p.mem.nodes p.mem.running = some plan →
      e.alg.place job (p.evict plan).mem.nodes = .error why →
      Tried e now job p ((p.evict plan).giveUp e job why)

theorem tried_attempt : Tried e now job p (p.attempt e now job) := by
  rw [attempt]
  cases hp : e.alg.place job p.mem.nodes with
  | ok r => exact .placed hp
  | error why =>
      simp only
      split
      · rename_i hen
        simp only [Bool.and_eq_true] at hen
        cases hplan : findPreemption job p.mem.nodes p.mem.running with
        | none => exact .refused hp
        | some plan =>
            simp only
            cases hp' : e.alg.place job (p.evict plan).mem.nodes with
            | ok r => exact .replaced hen.1 hen.2 hplan hp'
            | error why => exact .wasted hen.1 hen.2 hplan hp'
      · exact .refused hp

/-- Without preemption the job is placed where there is room, or given up on. -/
theorem Tried.of_noPreemption {q : Pass} (hpre : e.cfg.enablePreemption = false)
    (h : Tried e now job p q) :
    (∃ node reason, e.alg.place job p.mem.nodes = .ok (node, reason) ∧
      q = p.commit e job node reason) ∨
    ∃ why, e.alg.place job p.mem.nodes = .error why ∧ q = p.giveUp e job why := by
  cases h with
  | placed hp => exact .inl ⟨_, _, hp, rfl⟩
  | refused hp => exact .inr ⟨_, hp, rfl⟩
  | replaced hen =>
      rw [hpre] at hen
      cases hen
  | wasted hen =>
      rw [hpre] at hen
      cases hen

/-- **Induction over the queue.**  `I done queue p` is what holds when the jobs `done` were
attempted and the jobs `queue` are still to be. -/
theorem run_induct_attempt {I : List Job → List Job → Pass → Prop} {queue : List Job}
    (h : I [] queue p) (hstep : ∀ done job queue p, I done (job :: queue) p →
      I (done ++ [job]) queue (p.attempt e now job)) : I queue [] (p.run e now queue) := by
  have hgo : ∀ queue done p, I done queue p → I (done ++ queue) [] (p.run e now queue) := by
    intro queue
    induction queue with
    | nil => exact fun done p h ↦ by simpa [run] using h
    | cons job queue ih =>
        intro done p h
        have h' := ih (done ++ [job]) _ (hstep done job queue p h)
        rwa [List.append_assoc] at h'
  exact hgo queue [] p h

/-- The same, in terms of what an attempt can do. -/
theorem run_induct {I : List Job → List Job → Pass → Prop} {queue : List Job}
    (h : I [] queue p) (hstep : ∀ done job queue p q, I done (job :: queue) p →
      Tried e now job p q → I (done ++ [job]) queue q) : I queue [] (p.run e now queue) :=
  run_induct_attempt h fun done job queue p h ↦ hstep done job queue p _ h tried_attempt

end Pass

end Scheduler

end GpuScheduler
