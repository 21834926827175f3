import GpuScheduler.Accounting.Utilization
import GpuScheduler.Scheduler.Audit
import GpuScheduler.Scheduler.Ordering

/-!
# Fair share within one pass

`FairShare.Order` sorts the queue by the shares that the teams have when the pass reads them, and
the pass then goes through the queue in that order.  It does not look at the shares again.  So a
team that had the smallest share may place job after job while another, which by now has less, is
still waiting (`fairShare_not_maintained`).

What does hold is fairness by the shares of the ordering: when a job is placed, every other team
that has still to be attempted had at least the share that the team of the job had when the queue
was ordered, and as placements only add to a share, has it now (`tick_fairShare`).
-/

namespace GpuScheduler

open Lib Models Scheduler

/-! ## The share of a team -/

namespace Store

/-- The share of the cluster's GPUs that the active jobs of a team have. -/
def teamShare (s : Store) (team : String) : ℚ :=
  ((Engine.sharesOf s.listNodes s.teamGPUUsage).lookup team).getD 0

/-- What the active jobs of a team ask for. -/
def teamGPUs (s : Store) (team : String) : Int :=
  s.jobs.sum fun j ↦ if j.status.isActive && j.teamID = team then j.gpuCount else 0

/-- What there is. -/
def totalGPUs (s : Store) : Int := s.nodes.sum Node.gpuCapacity

theorem lookup_teamGPUUsage (s : Store) (team : String) :
    (s.teamGPUUsage.lookup team).getD 0 = s.teamGPUs team := by
  rw [teamGPUUsage_eq, lookup_groupBy, groupSum, active, List.filter_filter, sum_map_filter]
  apply congrArg List.sum
  apply List.map_congr_left
  intro j _
  rw [Bool.and_comm]

theorem teamShare_eq (s : Store) (team : String) :
    s.teamShare team = s.teamGPUs team / s.totalGPUs := by
  have htotal : (s.listNodes.map Node.gpuCapacity).sum = s.totalGPUs :=
    s.sum_listNodes Node.gpuCapacity
  rw [teamShare, Engine.sharesOf, htotal, ← lookup_teamGPUUsage]
  split
  · rename_i hzero
    rw [hzero, Int.cast_zero, div_zero]
    rfl
  · rw [lookup_map_snd fun gpus : Int ↦ (gpus : ℚ) / s.totalGPUs]
    cases s.teamGPUUsage.lookup team with
    | none => simp
    | some gpus => rfl

end Store

namespace Scheduler

/-! ## Placements only add -/

/-- What placements do to a store: queued jobs become scheduled, and no node changes its
capacity. -/
structure Grown (s w : Store) : Prop where
  jobs : Table.Related (fun j j' ↦ j' = j ∨ j.status = .queued ∧ ∃ id, j' = j.scheduledOn id)
    s.jobs w.jobs
  nodes : Table.Related (fun n n' ↦ n'.gpuCapacity = n.gpuCapacity) s.nodes w.nodes

/-- The calls of a pass that evicts nobody and schedules what was queued in `s`. -/
def Fills (s : Store) : Call → Prop
  | .jobsSchedule id _ => ∃ j ∈ s.jobs.rows, j.jobID = id ∧ j.status = .queued
  | .nodesList | .jobsListByStatuses _ | .jobsTeamGPUUsage | .nodesUpdateAvailability _ _ _ _
  | .eventsRecord _ => True
  | _ => False

namespace Grown

variable {s w : Store}

theorem refl (s : Store) : Grown s s :=
  ⟨.refl fun _ _ ↦ .inl rfl, .refl fun _ _ ↦ rfl⟩

theorem effect (h : Grown s w) {c : Call} (hc : Fills s c) : Grown s (w.effect c) := by
  cases c with
  | jobsSchedule id nodeID =>
      obtain ⟨j₀, hj₀, hid, hq⟩ := hc
      refine ⟨h.jobs.modify (f := (·.scheduledOn nodeID)) (fun _ ↦ rfl)
        fun j hj hk j' hjj ↦ ?_, h.nodes⟩
      obtain rfl := s.jobs.eq_of_key_eq hj hj₀ (hk.trans hid.symm)
      rcases hjj with rfl | ⟨-, id', rfl⟩
      · exact .inr ⟨hq, nodeID, rfl⟩
      · exact .inr ⟨hq, nodeID, rfl⟩
  | nodesUpdateAvailability id gpu cpu mem =>
      exact ⟨h.jobs, h.nodes.modify (f := (·.setAvailable gpu cpu mem)) (fun _ ↦ rfl)
        fun _ _ _ _ hn ↦ hn⟩
  | nodesList | jobsListByStatuses _ | jobsTeamGPUUsage | eventsRecord _ => exact ⟨h.jobs, h.nodes⟩
  | _ => exact hc.elim

/-- Placements take no share from anybody. -/
theorem teamShare_le (h : Grown s w) (hreq : s.NonnegRequests)
    (hcap : ∀ n ∈ s.nodes.rows, 0 ≤ n.gpuCapacity) (team : String) :
    s.teamShare team ≤ w.teamShare team := by
  have htotal : w.totalGPUs = s.totalGPUs := h.nodes.sum_eq fun _ _ hn ↦ hn
  have husage : s.teamGPUs team ≤ w.teamGPUs team := by
    refine h.jobs.sum_le fun j hj j' hjj ↦ ?_
    rcases hjj with rfl | ⟨hq, id, rfl⟩
    · exact le_rfl
    · have hgpus : 0 ≤ j.gpuCount := hreq j hj .gpu
      have hidle : (JobStatus.queued.isActive && decide (j.teamID = team)) = false := rfl
      rw [hq, hidle, if_neg Bool.false_ne_true]
      split
      · exact hgpus
      · exact le_rfl
  have hnonneg : 0 ≤ s.totalGPUs := by
    apply List.sum_nonneg
    intro x hx
    obtain ⟨n, hn, rfl⟩ := List.mem_map.mp hx
    exact hcap n hn
  rw [Store.teamShare_eq, Store.teamShare_eq, htotal]
  apply div_le_div_of_nonneg_right
  · exact_mod_cast husage
  · exact_mod_cast hnonneg

end Grown

/-- What holds of the calls of a pass without preemption that has still to attempt `queue`. -/
structure Filling (s : Store) (queue : List Job) (p : Pass) : Prop where
  calls : ∀ c ∈ p.calls, Fills s c
  queued : ∀ j ∈ queue, j ∈ s.jobs.rows ∧ j.status = .queued

namespace Filling

variable {s : Store} {queue : List Job} {p q : Pass} {job : Job} {l : List Call}

theorem adds (h : Filling s (job :: queue) p) (hadds : Pass.Adds l p q)
    (hl : ∀ c ∈ l, Fills s c) : Filling s queue q where
  calls c hc := by
    rw [hadds.calls, List.mem_append] at hc
    rcases hc with hc | hc
    · exact h.calls c hc
    · exact hl c hc
  queued j hj := h.queued j (List.mem_cons_of_mem job hj)

theorem tried {e : Engine} {now : Time} (hpre : e.cfg.enablePreemption = false)
    (h : Filling s (job :: queue) p) (hq : Pass.Tried e now job p q) :
    Filling s queue q := by
  obtain ⟨hrow, hst⟩ := h.queued job List.mem_cons_self
  rcases hq.of_noPreemption hpre with ⟨node, reason, -, rfl⟩ | ⟨why, -, rfl⟩
  · refine h.adds (p.adds_commit e job node reason) ?_
    simp only [List.forall_mem_cons]
    exact ⟨⟨job, hrow, rfl, hst⟩, trivial, trivial, fun c hc ↦ absurd hc List.not_mem_nil⟩
  · refine h.adds (p.adds_record _) ?_
    simp only [List.forall_mem_cons]
    exact ⟨trivial, fun c hc ↦ absurd hc List.not_mem_nil⟩

theorem undisturbed {e : Engine} (hpre : e.cfg.enablePreemption = false) (clock : Clock)
    (dead : List String) (s : Store) : Filling s [] (e.undisturbed clock dead [] s) := by
  refine Pass.run_induct (I := fun _ queue p ↦ Filling s queue p) ⟨?_, ?_⟩
    fun _ _ _ _ _ h hq ↦ h.tried hpre hq
  · intro c hc
    rcases mem_reads hc with rfl | rfl | ⟨ss, rfl⟩
    · trivial
    · trivial
    · trivial
  · intro j hj
    exact Engine.mem_queueOrder.mp hj

end Filling

/-! ## Who goes first -/

/-- Under `FairShare` the shares ascend along the queue. -/
theorem pairwise_fairShare (now : Time) (jobs : List Job) (ctx : OrderContext) :
    (Algorithm.fairShare.order now jobs ctx).Pairwise
      fun a b ↦ ctx.share a.teamID ≤ ctx.share b.teamID := by
  have hrank := Algorithm.fairShare.rankedBy now ctx
  rw [Algorithm.order_eq_sliceStable]
  refine (pairwise_sliceStable hrank jobs).imp ?_
  intro a b hab
  rw [← not_lt, Algorithm.rank_lt_rank_iff] at hab
  rw [← not_lt]
  intro hlt
  exact hab (.inl hlt)

/-- The same for the queue of a pass, in terms of the store. -/
theorem Engine.pairwise_queue {e : Engine} (halg : e.alg = .fairShare) (clock : Clock)
    (s : Store) : (e.queue clock s).Pairwise
      fun a b ↦ s.teamShare a.teamID ≤ s.teamShare b.teamID := by
  rw [queue, queueOrder, halg]
  exact pairwise_fairShare clock.ordering (s.listByStatuses [.queued])
    ⟨sharesOf s.listNodes s.teamGPUUsage, e.cfg.agingFactor⟩

/-- The job was queued in the store `s` with which a pass began, and the pass that has reached the
store `w` has recorded no decision about it yet. -/
def Waiting (s w : Store) (j : Job) : Prop :=
  j ∈ s.jobs.rows ∧ j.status = .queued ∧
    ∀ ev ∈ w.events.drop s.events.length, ev.jobID ≠ j.jobID

instance (s w : Store) (j : Job) : Decidable (Waiting s w j) := instDecidableAnd

namespace FairShare

/-- A job of the team that has nothing yet. -/
def first : Job := { Small.job "first" .queued 1 2 "" 1 with teamID := "idle" }

/-- Another one. -/
def second : Job := { Small.job "second" .queued 1 2 "" 2 with teamID := "idle" }

/-- A job of the team that has one GPU. -/
def other : Job := { Small.job "other" .queued 1 1 "" 3 with teamID := "modest" }

/-- Eight GPUs, of which seven are available. -/
def cluster : Store :=
  Small.store [{ Small.job "running" .running 1 1 "n" 0 with teamID := "modest" }, first, second,
    other] [Small.node "n" .ready 8 7]

/-- A pass over them. -/
def tick : StoreM (Except StoreError Unit) := (Small.engine .fairShare false).tick ⟨5, 5⟩

/-- The store after the pass. -/
def after : Store := (traceOp tick (steady 3) cluster).2.1

/-- The history of the pass. -/
def trace : List (Store × Call) := (traceOp tick (steady 3) cluster).2.2

theorem traces_after : Traces Smooth tick cluster (traceOp tick (steady 3) cluster).1 trace after :=
  traces_traceOp (by decide +kernel)

end FairShare

/-- **Fair share is not maintained while the queue is drained.**  A team without any GPU and one
with a single GPU have jobs in the queue.  The first team places a job and has two GPUs, and then
it places another, although the other team, which has less by now, has a job that has not been
attempted and for which there is room. -/
theorem fairShare_not_maintained :
    Traces Smooth FairShare.tick FairShare.cluster
      (traceOp FairShare.tick (steady 3) FairShare.cluster).1 FairShare.trace FairShare.after ∧
    FairShare.second ∈ FairShare.cluster.jobs.rows ∧
    ∃ x ∈ FairShare.trace, x.2 = .jobsSchedule FairShare.second.jobID "n" ∧
      FairShare.other.teamID ≠ FairShare.second.teamID ∧
      Waiting FairShare.cluster x.1 FairShare.other ∧
      (∃ n ∈ x.1.nodes.rows, n.fits FairShare.other.resourceRequest = true) ∧
      x.1.teamShare FairShare.other.teamID < x.1.teamShare FairShare.second.teamID :=
  ⟨FairShare.traces_after, by decide +kernel, by decide +kernel⟩

/-- A job that is waiting while another is placed comes behind it in the queue. -/
theorem Fitting.waiting {e : Engine} {clock : Clock} {s w : Store} {a b : Job} {nodeID : String}
    (h : Fitting s (e.queue clock s) w a.jobID nodeID) (ha : a ∈ s.jobs.rows) (hne : b ≠ a)
    (hwait : Waiting s w b) : [a, b].Sublist (e.queue clock s) := by
  obtain ⟨before, job, after, hqueue, hid, ⟨evs, hevs, hbefore⟩, -⟩ := h
  obtain ⟨hb, hbq, hno⟩ := hwait
  have hjob : job = a := by
    have hmem : job ∈ e.queue clock s := by
      rw [hqueue]
      exact List.mem_append_right before List.mem_cons_self
    exact s.jobs.eq_of_key_eq (Engine.mem_queueOrder.mp hmem).1 ha hid
  have hmem : b ∈ e.queue clock s := Engine.mem_queueOrder.mpr ⟨hb, hbq⟩
  rw [hqueue, hjob] at hmem ⊢
  rcases List.mem_append.mp hmem with hmem | hmem
  · -- the jobs in front were attempted, and a decision about each is recorded
    have hid' : b.jobID ∈ evs.map (·.jobID) := by
      rw [hbefore]
      exact List.mem_map_of_mem hmem
    obtain ⟨ev, hev, hevid⟩ := List.mem_map.mp hid'
    rw [hevs, List.drop_left] at hno
    exact absurd hevid (hno ev hev)
  · have hafter := (List.mem_cons.mp hmem).resolve_left hne
    apply List.Sublist.trans _ (List.sublist_append_right before (a :: after))
    exact (List.singleton_sublist.mpr hafter).cons_cons a

/-- **Fair share by the shares of the ordering.**  Under `FairShare` and without preemption, when
no node is stale and no call fails, let a job of team `T` be placed.  Then no other team with a job
that has not been attempted yet has a smaller share than `T` had when the pass ordered its queue:
neither counting what it had then nor, if nothing is negative, counting also the jobs that were
placed since. -/
theorem tick_fairShare {e : Engine} {clock : Clock} {s t : Store} {r : Except StoreError Unit}
    {h : List (Store × Call)} (halg : e.alg = .fairShare) (hpre : e.cfg.enablePreemption = false)
    (htrace : Traces Smooth (e.tick clock) s r h t)
    {w : Store} {a b : Job} {nodeID : String} (hplaced : (w, .jobsSchedule a.jobID nodeID) ∈ h)
    (ha : a ∈ s.jobs.rows) (hteam : b.teamID ≠ a.teamID) (hwait : Waiting s w b) :
    s.teamShare a.teamID ≤ s.teamShare b.teamID ∧
      (s.NonnegRequests → (∀ n ∈ s.nodes.rows, 0 ≤ n.gpuCapacity) →
        s.teamShare a.teamID ≤ w.teamShare b.teamID) := by
  obtain ⟨u, dead, h₁, hrec, hh₁, rfl, rfl⟩ := traces_tick (fun _ _ _ _ hok ↦ hok.1) htrace
  -- without a stale node there is nothing to recover
  obtain rfl : u = s := hrec.final (P := fun u ↦ u = s)
    (Engine.wp_reconcileDeadNodes_of_noStale (fun _ _ _ _ h ↦ h.2) rfl)
  have hmem : (w, .jobsSchedule a.jobID nodeID) ∈
      chronicle Store.effect u (e.undisturbed clock dead [] u).calls :=
    (List.mem_append.mp hplaced).resolve_left fun hmem ↦ aside_of_ofRecovery (hh₁ _ hmem)
  have hfitting := (Audited.undisturbed e clock dead u).fitting w a.jobID nodeID hmem
  rw [List.append_nil] at hfitting
  have hne : b ≠ a := fun heq ↦ hteam (heq ▸ rfl)
  have hqueue := hfitting.waiting ha hne hwait
  have hshare : u.teamShare a.teamID ≤ u.teamShare b.teamID := by
    have hpair := (e.pairwise_queue halg clock u).sublist hqueue
    exact List.rel_of_pairwise_cons hpair List.mem_cons_self
  refine ⟨hshare, fun hreq hcap ↦ hshare.trans ?_⟩
  have hgrown : Grown u w := forall_chronicle (Grown.refl u)
    (fun c hc v hv ↦ hv.effect ((Filling.undisturbed hpre clock dead u).calls c hc)) _ hmem
  exact hgrown.teamShare_le hreq hcap b.teamID

/-- The job of the second example is placed while its team has two GPUs and the other team one, but
it had none when the queue was ordered. -/
theorem tick_fairShare_second : ∃ w, Waiting FairShare.cluster w FairShare.other ∧
    FairShare.cluster.teamShare "idle" ≤ w.teamShare "modest" := by
  have hplaced : ∃ x ∈ FairShare.trace, x.2 = .jobsSchedule FairShare.second.jobID "n" ∧
      Waiting FairShare.cluster x.1 FairShare.other := by decide +kernel
  obtain ⟨⟨w, c⟩, hmem, rfl, hwait⟩ := hplaced
  refine ⟨w, hwait, ?_⟩
  apply (tick_fairShare rfl rfl FairShare.traces_after hmem _ _ hwait).2
  · decide
  · decide
  · decide +kernel
  · decide

end Scheduler

end GpuScheduler
