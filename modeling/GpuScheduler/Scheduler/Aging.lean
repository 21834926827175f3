import GpuScheduler.Scheduler.Undisturbed

/-!
# Aging and preemption in one pass

`Priority.Order` ranks the queue by the priority that a job has reached by waiting, and
`FindPreemption` chooses victims by the priority with which they were submitted.  A job that has
aged past another is placed first, and may be evicted by the other in the same pass.

`Engine.plans` are the plans that a pass comes to: one for each attempt that finds no room, may
preempt, and gets a plan from `FindPreemption`.  `aged_not_evicted_iff` says that no placement of
the pass is undone in the pass exactly when no plan is for a job that is ranked behind one of the
plan's victims.
-/

namespace GpuScheduler.Scheduler

open Lib Models

/-! ## The plans of a pass -/

namespace Pass

variable (e : Engine) (now : Time)

/-- The plan that `placeOne` carries out for the job: there is no room for it, it may preempt, and
`FindPreemption` finds a plan. -/
def plan? (p : Pass) (job : Job) : Option PreemptionPlan :=
  match e.alg.place job p.mem.nodes with
  | .ok _ => none
  | .error _ =>
    if e.cfg.enablePreemption && e.shouldPreempt job now then
      findPreemption job p.mem.nodes p.mem.running
    else none

/-- The plans that the loop over a queue carries out, each with the job that it is for. -/
def plans (p : Pass) : List Job → List (Job × PreemptionPlan)
  | [] => []
  | job :: queue => (p.plan? e now job).toList.map (fun plan ↦ (job, plan)) ++
      (p.attempt e now job).plans queue

variable {e now} {p : Pass} {job : Job} {queue : List Job}

theorem mem_queue_of_mem_plans {x : Job × PreemptionPlan} (h : x ∈ p.plans e now queue) :
    x.1 ∈ queue := by
  induction queue generalizing p with
  | nil => cases h
  | cons job queue ih =>
      rcases List.mem_append.mp h with h | h
      · obtain ⟨plan, -, rfl⟩ := List.mem_map.mp h
        exact List.mem_cons_self
      · exact List.mem_cons_of_mem job (ih h)

/-- The plan is one that `FindPreemption` made. -/
theorem findPreemption_of_plan? {plan : PreemptionPlan} (h : p.plan? e now job = some plan) :
    findPreemption job p.mem.nodes p.mem.running = some plan := by
  rw [plan?] at h
  split at h
  · cases h
  · split at h
    · exact h
    · cases h

/-- An attempt carries out its plan, if it has one, and then decides about the job. -/
theorem attempt_cases (e : Engine) (now : Time) (p : Pass) (job : Job) :
    ∃ q, (p.plan? e now job = none ∧ q = p ∨
        ∃ plan, p.plan? e now job = some plan ∧ q = p.evict plan) ∧
      ((∃ node reason, p.attempt e now job = q.commit e job node reason) ∨
        ∃ why, p.attempt e now job = q.giveUp e job why) := by
  rw [attempt, plan?]
  cases e.alg.place job p.mem.nodes with
  | ok r => exact ⟨p, .inl ⟨rfl, rfl⟩, .inl ⟨_, _, rfl⟩⟩
  | error why =>
      simp only
      split
      · cases findPreemption job p.mem.nodes p.mem.running with
        | none => exact ⟨p, .inl ⟨rfl, rfl⟩, .inr ⟨_, rfl⟩⟩
        | some plan =>
            refine ⟨p.evict plan, .inr ⟨plan, rfl, rfl⟩, ?_⟩
            simp only
            cases e.alg.place job (p.evict plan).mem.nodes with
            | ok r => exact .inl ⟨_, _, rfl⟩
            | error why => exact .inr ⟨_, rfl⟩
      · exact ⟨p, .inl ⟨rfl, rfl⟩, .inr ⟨_, rfl⟩⟩

/-- The calls of evictions. -/
theorem calls_evictAll (node : Node) (vs : List Job) : (p.evictAll node vs).calls =
    p.calls ++ vs.flatMap fun v ↦ [.jobsRequeue v.jobID .preempted,
      .jobsUpdateStatus v.jobID .queued] := by
  induction vs generalizing p node with
  | nil => exact (List.append_nil _).symm
  | cons v vs ih =>
      rw [evictAll, ih, evictOne, List.append_assoc]
      rfl

theorem running_evictAll (node : Node) (vs : List Job) :
    (p.evictAll node vs).mem.running = p.mem.running := by
  induction vs generalizing p node with
  | nil => rfl
  | cons v vs ih => exact ih _

end Pass

/-- The plans that a pass over the store carries out when no call fails, each with the job that it
is for. -/
def Engine.plans (e : Engine) (clock : Clock) (s : Store) : List (Job × PreemptionPlan) :=
  Pass.plans e clock.pass ⟨passMem [] s, s, reads s⟩ (e.queue clock s)

/-- When the turn of the queued job `b` comes, the pass evicts the job `a` for it. -/
def Engine.Displaces (e : Engine) (clock : Clock) (s : Store) (b a : Job) : Prop :=
  ∃ x ∈ e.plans clock s, x.1 = b ∧ a ∈ x.2.victims

/-! ## The journal of a pass -/

/-- The second call evicts the job that the first has placed. -/
def Undoes (c c' : Call) : Prop :=
  ∃ id nodeID, c = .jobsSchedule id nodeID ∧ c' = .jobsRequeue id .preempted

/-- No placement is undone by a later call. -/
def Lasting (l : List Call) : Prop := l.Pairwise fun c c' ↦ ¬ Undoes c c'

/-- Calls that evict nobody undo nothing. -/
theorem lasting_append {l l' : List Call} (h : ∀ c ∈ l', ∀ id, c ≠ .jobsRequeue id .preempted) :
    Lasting (l ++ l') ↔ Lasting l := by
  have hno : ∀ c, ∀ c' ∈ l', ¬ Undoes c c' := by
    rintro c c' hc' ⟨id, -, -, rfl⟩
    exact h _ hc' id rfl
  rw [Lasting, List.pairwise_append]
  refine ⟨And.left, fun hl ↦ ⟨hl, ?_, fun c _ c' hc' ↦ hno c c' hc'⟩⟩
  exact List.pairwise_of_forall_mem_list fun c _ c' hc' ↦ hno c c' hc'

/-- In what follows calls that place nothing, only its own placements are undone. -/
theorem lasting_append_right {l l' : List Call}
    (h : ∀ c ∈ l, ∀ id nodeID, c ≠ .jobsSchedule id nodeID) : Lasting (l ++ l') ↔ Lasting l' := by
  have hno : ∀ c ∈ l, ∀ c', ¬ Undoes c c' := by
    rintro c hc c' ⟨id, nodeID, rfl, -⟩
    exact h _ hc id nodeID rfl
  rw [Lasting, List.pairwise_append]
  refine ⟨fun hl ↦ hl.2.1, fun hl' ↦ ⟨?_, hl', fun c hc c' _ ↦ hno c hc c'⟩⟩
  exact List.pairwise_of_forall_mem_list fun c hc c' _ ↦ hno c hc c'

/-- Evictions undo nothing but earlier placements of the victims. -/
theorem lasting_evict {p : Pass} {plan : PreemptionPlan} : Lasting (p.evict plan).calls ↔
    Lasting p.calls ∧ ∀ v ∈ plan.victims, ∀ nodeID, .jobsSchedule v.jobID nodeID ∉ p.calls := by
  rw [Pass.evict, Pass.writeBack, lasting_append (by simp), Pass.calls_evictAll, Lasting,
    List.pairwise_append]
  constructor
  · rintro ⟨hl, -, hcross⟩
    refine ⟨hl, fun v hv nodeID hc ↦ hcross _ hc (.jobsRequeue v.jobID .preempted) ?_ ?_⟩
    · exact List.mem_flatMap.mpr ⟨v, hv, List.mem_cons_self⟩
    · exact ⟨v.jobID, nodeID, rfl, rfl⟩
  · rintro ⟨hl, hnone⟩
    refine ⟨hl, List.pairwise_of_forall_mem_list fun c hc _ _ ↦ ?_, ?_⟩
    · rintro ⟨id, nodeID, rfl, -⟩
      simp at hc
    · rintro c hc c' hc' ⟨id, nodeID, rfl, rfl⟩
      simp only [List.mem_flatMap, List.mem_cons, Call.jobsRequeue.injEq, and_true, reduceCtorEq,
        List.not_mem_nil, or_false] at hc'
      obtain ⟨v, hv, rfl⟩ := hc'
      exact hnone v hv nodeID hc

/-- What holds of a pass over `s` that has attempted the jobs `done` and has still to attempt the
jobs `queue`. -/
structure Attempting (s : Store) (done queue : List Job) (p : Pass) : Prop where
  nodup : (done ++ queue).Nodup
  rows : ∀ j ∈ done ++ queue, j ∈ s.jobs.rows ∧ j.status = .queued
  /-- A job of the queue that occupies a node was placed by the pass. -/
  running : ∀ id, ∀ v ∈ p.mem.running id, v ∈ s.jobs.rows ∧
    (v.status = .queued → ∃ nodeID, .jobsSchedule v.jobID nodeID ∈ p.calls)
  /-- Only jobs that were attempted have been placed. -/
  placed : ∀ id nodeID, .jobsSchedule id nodeID ∈ p.calls → ∃ j ∈ done, j.jobID = id

namespace Attempting

variable {e : Engine} {now : Time} {s : Store} {done queue : List Job} {p q : Pass} {job v : Job}
  {node : Node}

/-- Of the jobs that occupy a node, those were placed by the pass that it has attempted. -/
theorem mem_done_iff (h : Attempting s done queue p) {id : String} (hv : v ∈ p.mem.running id) :
    v ∈ done ↔ ∃ nodeID, .jobsSchedule v.jobID nodeID ∈ p.calls := by
  obtain ⟨hrow, hplaced⟩ := h.running id v hv
  constructor
  · exact fun hdone ↦ hplaced (h.rows v (List.mem_append_left _ hdone)).2
  · rintro ⟨nodeID, hc⟩
    obtain ⟨j, hj, hid⟩ := h.placed _ nodeID hc
    rwa [← s.jobs.eq_of_key_eq (h.rows j (List.mem_append_left _ hj)).1 hrow hid]

/-- Calls that place nothing. -/
theorem grow (h : Attempting s done queue p) (hmem : q.mem.running = p.mem.running) {l : List Call}
    (hcalls : q.calls = p.calls ++ l) (hl : ∀ c ∈ l, ∀ id nodeID, c ≠ .jobsSchedule id nodeID) :
    Attempting s done queue q where
  nodup := h.nodup
  rows := h.rows
  running id v hv := by
    rw [hmem] at hv
    refine ⟨(h.running id v hv).1, fun hst ↦ ?_⟩
    obtain ⟨nodeID, hc⟩ := (h.running id v hv).2 hst
    exact ⟨nodeID, hcalls ▸ List.mem_append_left l hc⟩
  placed id nodeID hc := by
    rw [hcalls] at hc
    rcases List.mem_append.mp hc with hc | hc
    · exact h.placed id nodeID hc
    · exact absurd rfl (hl _ hc id nodeID)

theorem evict (h : Attempting s done queue p) (plan : PreemptionPlan) :
    Attempting s done queue (p.evict plan) := by
  have hall : Attempting s done queue (p.evictAll plan.node plan.victims) := by
    refine h.grow (Pass.running_evictAll _ _) (Pass.calls_evictAll _ _) ?_
    rintro c hc id nodeID rfl
    simp at hc
  exact hall.grow rfl rfl (by simp)

/-- The job whose turn it is was attempted. -/
theorem attempted (h : Attempting s done (job :: queue) p) :
    Attempting s (done ++ [job]) queue p where
  nodup := by simpa using h.nodup
  rows := by simpa using h.rows
  running := h.running
  placed id nodeID hc := by
    obtain ⟨j, hj, hid⟩ := h.placed id nodeID hc
    exact ⟨j, List.mem_append_left _ hj, hid⟩

theorem giveUp (h : Attempting s done (job :: queue) p) (why : String) :
    Attempting s (done ++ [job]) queue (p.giveUp e job why) :=
  h.attempted.grow rfl rfl (by simp)

theorem commit (h : Attempting s done (job :: queue) p) (reason : String) :
    Attempting s (done ++ [job]) queue (p.commit e job node reason) := by
  have hjob : job ∈ s.jobs.rows := (h.rows job (by simp)).1
  have hschedule : Attempting s (done ++ [job]) queue (p.schedule job node) := by
    refine ⟨h.attempted.nodup, h.attempted.rows, fun id v hv ↦ ?_, fun id nodeID hc ↦ ?_⟩
    · rcases Mem.mem_running_commit hv with hv | ⟨rfl, -⟩
      · refine ⟨(h.running id v hv).1, fun hst ↦ ?_⟩
        obtain ⟨nodeID, hc⟩ := (h.running id v hv).2 hst
        exact ⟨nodeID, List.mem_append_left _ hc⟩
      · exact ⟨hjob, fun _ ↦ ⟨node.nodeID, List.mem_append_right _ List.mem_cons_self⟩⟩
    · rcases List.mem_append.mp hc with hc | hc
      · exact h.attempted.placed id nodeID hc
      · simp only [List.mem_singleton, Call.jobsSchedule.injEq] at hc
        exact ⟨job, by simp, hc.1.symm⟩
  exact (hschedule.grow (q := (p.schedule job node).writeBack _) rfl rfl (by simp)).grow rfl rfl
    (by simp)

/-- One attempt: it undoes a placement exactly if its plan names a job that was attempted. -/
theorem attempt (e : Engine) (now : Time) (h : Attempting s done (job :: queue) p) :
    Attempting s (done ++ [job]) queue (p.attempt e now job) ∧
      (Lasting (p.attempt e now job).calls ↔ Lasting p.calls ∧
        ∀ plan, p.plan? e now job = some plan → ∀ v ∈ plan.victims, v ∉ done) := by
  obtain ⟨q, hplan, hdecided⟩ := Pass.attempt_cases e now p job
  have hq : Attempting s done (job :: queue) q ∧ (Lasting q.calls ↔ Lasting p.calls ∧
      ∀ plan, p.plan? e now job = some plan → ∀ v ∈ plan.victims, v ∉ done) := by
    rcases hplan with ⟨hnone, rfl⟩ | ⟨plan, hsome, rfl⟩
    · simp [h, hnone]
    · refine ⟨h.evict plan, ?_⟩
      simp only [lasting_evict, hsome, Option.some.injEq, forall_eq']
      refine and_congr_right fun _ ↦ forall₂_congr fun v hv ↦ ?_
      have hrun := mem_running_of_victim (Pass.findPreemption_of_plan? hsome) hv
      rw [h.mem_done_iff hrun, not_exists]
  rcases hdecided with ⟨node, reason, heq⟩ | ⟨why, heq⟩
  · rw [heq]
    refine ⟨hq.1.commit reason, ?_⟩
    rw [← hq.2, Pass.commit, Pass.record, lasting_append (by simp), Pass.writeBack,
      lasting_append (by simp), Pass.schedule, lasting_append (by simp)]
  · rw [heq]
    refine ⟨hq.1.giveUp why, ?_⟩
    rw [← hq.2, Pass.giveUp, Pass.record, lasting_append (by simp)]

/-- The loop begins. -/
theorem start (e : Engine) (clock : Clock) (s : Store) :
    Attempting s [] (e.queue clock s) ⟨passMem [] s, s, reads s⟩ where
  nodup := .of_map Job.jobID
    (((Algorithm.order_perm _ _ _ _).map Job.jobID).nodup_iff.mpr (s.nodup_listByStatuses _))
  rows j hj := Engine.mem_queueOrder.mp hj
  running id v hv := by
    obtain ⟨hrow, hst⟩ := List.mem_filter.mp (mem_sliceStable.mp (List.mem_filter.mp hv).1)
    refine ⟨hrow, fun hq ↦ ?_⟩
    rw [hq] at hst
    cases hst
  placed id nodeID hc := by rcases mem_reads hc with hc | hc | ⟨ss, hc⟩ <;> cases hc

end Attempting

/-- Whom a job displaces is said by the plan of its own attempt: `old` are the plans that were
carried out before. -/
theorem displaces_iff {e : Engine} {clock : Clock} {s : Store} {p : Pass} {done queue : List Job}
    {job : Job} {old : List (Job × PreemptionPlan)}
    (hplans : e.plans clock s = old ++ p.plans e clock.pass (job :: queue))
    (hold : ∀ x ∈ old, x.1 ∈ done) (hnodup : (done ++ job :: queue).Nodup) {a : Job} :
    e.Displaces clock s job a ↔
      ∃ plan, p.plan? e clock.pass job = some plan ∧ a ∈ plan.victims := by
  obtain ⟨-, hqueue, hdone⟩ := List.nodup_append.mp hnodup
  rw [Pass.plans] at hplans
  constructor
  · rintro ⟨x, hx, rfl, ha⟩
    rw [hplans, List.mem_append, List.mem_append] at hx
    rcases hx with hx | hx | hx
    · exact absurd rfl (hdone x.1 (hold x hx) x.1 List.mem_cons_self)
    · obtain ⟨plan, hplan, heq⟩ := List.mem_map.mp hx
      rw [← heq] at ha
      exact ⟨plan, Option.mem_toList.mp hplan, ha⟩
    · exact absurd (Pass.mem_queue_of_mem_plans hx) (List.nodup_cons.mp hqueue).1
  · rintro ⟨plan, hplan, ha⟩
    refine ⟨(job, plan), ?_, rfl, ha⟩
    rw [hplans, hplan]
    simp

/-- **The journal of the scheduling half**: it undoes a placement exactly when the pass evicts a job
for one that is ranked behind it. -/
theorem lasting_undisturbed (e : Engine) (clock : Clock) (s : Store) :
    Lasting (e.undisturbed clock [] [] s).calls ↔
      (e.queue clock s).Pairwise fun a b ↦ ¬ e.Displaces clock s b a := by
  -- the plans that are still to come are those of the rest of the queue
  refine And.right (And.right (Pass.run_induct_attempt
    (I := fun done queue p ↦ Attempting s done queue p ∧
      (∃ old, e.plans clock s = old ++ p.plans e clock.pass queue ∧ ∀ x ∈ old, x.1 ∈ done) ∧
      (Lasting p.calls ↔ done.Pairwise fun a b ↦ ¬ e.Displaces clock s b a))
    ⟨.start e clock s, ?_, ?_⟩ ?_))
  · exact ⟨[], rfl, fun x hx ↦ absurd hx List.not_mem_nil⟩
  · refine iff_of_true (List.pairwise_of_forall_mem_list fun c hc _ _ ↦ ?_) .nil
    rintro ⟨id, nodeID, rfl, -⟩
    obtain ⟨j, hj, -⟩ := (Attempting.start e clock s).placed id nodeID hc
    cases hj
  · rintro done job queue p ⟨hplaced, ⟨old, hplans, hold⟩, hlasting⟩
    obtain ⟨hnext, hstep⟩ := hplaced.attempt e clock.pass
    refine ⟨hnext, ⟨old ++ (p.plan? e clock.pass job).toList.map fun plan ↦ (job, plan), ?_, ?_⟩,
      ?_⟩
    · rw [hplans, Pass.plans, List.append_assoc]
    · intro x hx
      rcases List.mem_append.mp hx with hx | hx
      · exact List.mem_append_left _ (hold x hx)
      · obtain ⟨plan, -, rfl⟩ := List.mem_map.mp hx
        simp
    · rw [hstep, hlasting, List.pairwise_append]
      simp only [List.pairwise_singleton, true_and, List.mem_singleton, forall_eq,
        displaces_iff hplans hold hplaced.nodup, not_exists, not_and]
      refine and_congr_right fun _ ↦ ⟨fun h a ha plan hplan hv ↦ ?_, fun h plan hplan v hv hd ↦ ?_⟩
      · exact h plan hplan a hv ha
      · exact h v hd plan hplan hv

/-- **When aging is undone.**  A pass in which no call fails is its recovery from lost nodes, which
ends in the store `u`, and its scheduling half.  No job that it places is evicted later in the pass
if and only if, in the queue of `u` as the algorithm orders it, no job displaces one that is ranked
ahead of it. -/
theorem aged_not_evicted_iff {e : Engine} {clock : Clock} {s t : Store}
    {r : Except StoreError Unit} {l : List Call} (hlog : Logs NoError (e.tick clock) s r l t) :
    ∃ u l₁ l₂, Logs NoError e.reconcileDeadNodes s () l₁ u ∧
      Logs NoError (e.schedulePass clock) u r l₂ t ∧ l = l₁ ++ l₂ ∧
      ((l.Pairwise fun c c' ↦ ∀ id nodeID, c = .jobsSchedule id nodeID →
          c' ≠ .jobsRequeue id .preempted) ↔
        (e.queue clock u).Pairwise fun a b ↦ ¬ e.Displaces clock u b a) := by
  obtain ⟨u, l₁, l₂, hrec, hpass, rfl⟩ := logs_tick hlog
  refine ⟨u, l₁, l₂, hrec, hpass, rfl, ?_⟩
  have hl₂ : l₂ = (e.undisturbed clock [] [] u).calls :=
    congrArg Prod.snd (logs_schedulePass (fun _ _ _ _ h ↦ h) hpass)
  have hl₁ : ∀ c ∈ l₁, ∀ id nodeID, c ≠ .jobsSchedule id nodeID := by
    obtain ⟨m, hm⟩ := hrec
    rintro _ hc id nodeID rfl
    exact hm.forall_journal (e.issues_reconcileDeadNodes default)
      (fun c hc ↦ absurd hc List.not_mem_nil) _ hc
  rw [← lasting_undisturbed, ← hl₂, ← lasting_append_right hl₁, Lasting]
  refine List.Pairwise.iff fun c c' ↦ ?_
  simp only [Undoes, not_exists, not_and, ne_eq]

namespace Aging

/-- Priorities age by a point a minute, and preemption is enabled. -/
def engine : Engine := Small.engine .priority true

/-- Ten minutes after time 0. -/
def clock : Clock := ⟨600000000000, 600000000000⟩

/-- A job that has waited for ten minutes, one that was just submitted with a higher priority, and
a node. -/
def cluster (gpus : Int) : Store :=
  Small.store [Small.job "old" .queued 1 2 "" 0, Small.job "new" .queued 8 2 "" 600000000000]
    [Small.node "n" .ready gpus gpus]

/-- The calls of a pass. -/
def calls (gpus : Int) : List Call :=
  (logOp (engine.tick clock) (steady 3) (cluster gpus)).2.2

/-- The store after it. -/
def after (gpus : Int) : Store :=
  (logOp (engine.tick clock) (steady 3) (cluster gpus)).2.1

theorem logs_calls (gpus : Int)
    (hok : (logOp (engine.tick clock) (steady 3) (cluster gpus)).1 = .ok ()) :
    Logs NoError (engine.tick clock) (cluster gpus) (.ok ()) (calls gpus) (after gpus) := by
  rw [← hok]
  exact logs_logOp (Prog.admits_of_forall fun _ _ _ _ ↦ rfl)

/-- The job that a call evicts. -/
def victim? : Call → Option String
  | .jobsRequeue id .preempted => some id
  | _ => none

end Aging

/-- When there is room for both, the job that has waited stays, although the other one could preempt
it. -/
theorem aged_not_evicted_iff_roomy :
    [.jobsSchedule "old" "n", .jobsSchedule "new" "n"].Sublist (Aging.calls 4) ∧
      ∃ u l₁ l₂, Logs NoError Aging.engine.reconcileDeadNodes (Aging.cluster 4) () l₁ u ∧
        Logs NoError (Aging.engine.schedulePass Aging.clock) u (.ok ()) l₂ (Aging.after 4) ∧
        Aging.calls 4 = l₁ ++ l₂ ∧ (Aging.engine.queue Aging.clock u).Pairwise fun a b ↦
          ¬ Aging.engine.Displaces Aging.clock u b a := by
  have hnone : ∀ c ∈ Aging.calls 4, Aging.victim? c = none := by decide +kernel
  obtain ⟨u, l₁, l₂, hrec, hpass, hl, hiff⟩ :=
    aged_not_evicted_iff (Aging.logs_calls 4 (by decide +kernel))
  refine ⟨by decide +kernel, u, l₁, l₂, hrec, hpass, hl, hiff.mp ?_⟩
  refine List.pairwise_of_forall_mem_list ?_
  rintro _ - c' hc' id _ - rfl
  exact Option.some_ne_none _ (hnone _ hc')

/-- **Aging is undone.**  The job that has waited is ranked first and placed, and in the same pass
it is evicted by the job that is ranked behind it. -/
theorem aged_evicted :
    Logs NoError (Aging.engine.tick Aging.clock) (Aging.cluster 2) (.ok ()) (Aging.calls 2)
        (Aging.after 2) ∧
      Aging.engine.queue Aging.clock (Aging.cluster 2) =
        [Small.job "old" .queued 1 2 "" 0, Small.job "new" .queued 8 2 "" 600000000000] ∧
      [.jobsSchedule "old" "n", .jobsRequeue "old" .preempted].Sublist (Aging.calls 2) ∧
      ((Aging.after 2).jobs.find? "new").map Job.nodeID = some "n" ∧
      ((Aging.after 2).jobs.find? "old").map Job.status = some .queued :=
  ⟨Aging.logs_calls 2 (by decide +kernel), by decide +kernel, by decide +kernel,
    by decide +kernel, by decide +kernel⟩

end GpuScheduler.Scheduler
