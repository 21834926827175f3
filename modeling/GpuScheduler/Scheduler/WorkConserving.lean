import GpuScheduler.Scheduler.Undisturbed

/-!
# Nothing is left idle, and nobody is overtaken

Without preemption a pass only ever takes from the nodes.  A job that found no room when it was
attempted therefore finds none at the end of the pass either (`tick_work_conserving`), and a job
that asks for at least as much and comes later finds none when its turn comes
(`tick_no_overtaking`).  `Served` is the invariant behind both: what becomes of the jobs that were
attempted, in terms of the nodes that the pass holds in memory, which agree with the node rows.
-/

namespace GpuScheduler.Scheduler

open Lib Models

/-- The job has been placed. -/
def Placed (s : Store) (j : Job) : Prop :=
  ∃ j' ∈ s.jobs.rows, j'.jobID = j.jobID ∧ j'.status = .scheduled

/-- What holds of a pass without preemption that has attempted the jobs `done` and has still to
attempt the jobs `queue`. -/
structure Served (done queue : List Job) (p : Pass) : Prop where
  /-- The nodes held in memory are the node rows. -/
  synced : ∀ n, n ∈ p.mem.nodes ↔ n ∈ p.store.nodes.rows
  nodup : ((done ++ queue).map Job.jobID).Nodup
  requests : ∀ j ∈ queue, ∀ d, 0 ≤ j.request d
  /-- A job that was attempted was placed, or is as it was and fits nowhere. -/
  tried : ∀ j ∈ done, Placed p.store j ∨
    (j ∈ p.store.jobs.rows ∧ ∀ n ∈ p.mem.nodes, n.fits j.resourceRequest = false)
  pending : ∀ j ∈ queue, j ∈ p.store.jobs.rows ∧ j.status = .queued
  /-- No other job is queued. -/
  queued : ∀ j ∈ p.store.jobs.rows, j.status = .queued → j ∈ done ++ queue
  /-- Among the jobs that were attempted nobody was overtaken. -/
  ahead : done.Pairwise fun a b ↦ (∀ d, a.request d ≤ b.request d) → Placed p.store b →
    Placed p.store a

namespace Served

variable {e : Engine} {done queue : List Job} {p : Pass} {job : Job} {node : Node}

/-- The job whose turn it is has not been placed yet. -/
theorem not_placed (h : Served done (job :: queue) p) : ¬ Placed p.store job := by
  rintro ⟨j, hj, hid, hst⟩
  obtain ⟨hrow, hq⟩ := h.pending job List.mem_cons_self
  rw [p.store.jobs.eq_of_key_eq hj hrow hid, hq] at hst
  cases hst

/-- The other jobs have other IDs. -/
theorem ne_job (h : Served done (job :: queue) p) {j : Job} (hj : j ∈ done ∨ j ∈ queue) :
    j.jobID ≠ job.jobID := by
  have hnd := h.nodup
  rw [List.map_append, List.map_cons, List.nodup_append] at hnd
  rcases hj with hj | hj
  · exact hnd.2.2 _ (List.mem_map_of_mem hj) _ List.mem_cons_self
  · exact fun heq ↦ (List.nodup_cons.mp hnd.2.1).1 (heq ▸ List.mem_map_of_mem hj)

/-- The job found no room. -/
theorem giveUp (h : Served done (job :: queue) p) {why : String}
    (hp : e.alg.place job p.mem.nodes = .error why) :
    Served (done ++ [job]) queue (p.giveUp e job why) where
  synced := h.synced
  nodup := by simpa using h.nodup
  requests j hj := h.requests j (List.mem_cons_of_mem job hj)
  tried j hj := by
    rcases List.mem_append.mp hj with hj | hj
    · exact h.tried j hj
    · rw [List.mem_singleton.mp hj]
      exact .inr ⟨(h.pending job List.mem_cons_self).1, Algorithm.place_error hp⟩
  pending j hj := h.pending j (List.mem_cons_of_mem job hj)
  queued j hj hq := by simpa using h.queued j hj hq
  ahead := by
    rw [List.pairwise_append]
    refine ⟨h.ahead, List.pairwise_singleton _ _, fun a _ b hb _ hplaced ↦ ?_⟩
    rw [List.mem_singleton.mp hb] at hplaced
    exact absurd hplaced h.not_placed

section Commit

variable {reason : String}

theorem mem_jobs_commit {j : Job} : j ∈ (p.commit e job node reason).store.jobs.rows ↔
    (∃ r ∈ p.store.jobs.rows, r.jobID = job.jobID ∧ j = r.scheduledOn node.nodeID) ∨
      (j ∈ p.store.jobs.rows ∧ j.jobID ≠ job.jobID) := by
  rw [Pass.jobs_commit, Table.mem_modify]

/-- Placing one job changes nothing about the others. -/
theorem placed_commit_iff {j : Job} (hne : j.jobID ≠ job.jobID) :
    Placed (p.commit e job node reason).store j ↔ Placed p.store j := by
  refine exists_congr fun j' ↦ ?_
  rw [mem_jobs_commit]
  constructor
  · rintro ⟨⟨r, -, hk, rfl⟩ | ⟨hj', -⟩, hid, hst⟩
    · exact absurd (hid.symm.trans hk) hne
    · exact ⟨hj', hid, hst⟩
  · rintro ⟨hj', hid, hst⟩
    exact ⟨.inr ⟨hj', fun hk ↦ hne (hid.symm.trans hk)⟩, hid, hst⟩

theorem placed_commit (hrow : job ∈ p.store.jobs.rows) :
    Placed (p.commit e job node reason).store job :=
  ⟨job.scheduledOn node.nodeID, mem_jobs_commit.mpr (.inl ⟨job, hrow, rfl, rfl⟩), rfl, rfl⟩

/-- The nodes in memory and the node rows change in the same way. -/
theorem mem_nodes_commit (hsync : ∀ n, n ∈ p.mem.nodes ↔ n ∈ p.store.nodes.rows)
    (hn : node ∈ p.mem.nodes) (n : Node) : n ∈ (p.commit e job node reason).mem.nodes ↔
      n ∈ (p.commit e job node reason).store.nodes.rows := by
  have hmem : n ∈ (p.commit e job node reason).mem.nodes ↔ ∃ x ∈ p.mem.nodes,
      (if x.nodeID = node.nodeID then node.reserve job.resourceRequest else x) = n :=
    List.mem_map
  rw [hmem, Pass.nodes_commit, Store.nodes_writeBack, Table.mem_modify]
  constructor
  · rintro ⟨x, hx, rfl⟩
    by_cases hid : x.nodeID = node.nodeID
    · rw [if_pos hid]
      exact .inl ⟨node, (hsync node).mp hn, rfl, rfl⟩
    · rw [if_neg hid]
      exact .inr ⟨(hsync x).mp hx, hid⟩
  · rintro (⟨r, hr, hid, rfl⟩ | ⟨hx, hid⟩)
    · rw [p.store.nodes.eq_of_key_eq hr ((hsync node).mp hn) hid]
      exact ⟨node, hn, if_pos rfl⟩
    · exact ⟨n, (hsync n).mpr hx, if_neg hid⟩

/-- A job that fitted nowhere fits nowhere after another was placed. -/
theorem not_fits_commit (hreq : ∀ d, 0 ≤ job.request d) (hn : node ∈ p.mem.nodes) {j : Job}
    (hfits : ∀ n ∈ p.mem.nodes, n.fits j.resourceRequest = false) :
    ∀ n ∈ (p.commit e job node reason).mem.nodes, n.fits j.resourceRequest = false := by
  intro n hn'
  rcases Mem.mem_nodes_putNode (m := p.mem) (n := node.reserve job.resourceRequest) hn' with
    rfl | ⟨hn', -⟩
  · rw [Bool.eq_false_iff]
    intro hf
    have hold := hfits node hn
    rw [Node.fits_of_reserve hreq hf] at hold
    cases hold
  · exact hfits n hn'

end Commit

/-- The job found room. -/
theorem commit (h : Served done (job :: queue) p) {reason : String}
    (hp : e.alg.place job p.mem.nodes = .ok (node, reason)) :
    Served (done ++ [job]) queue (p.commit e job node reason) := by
  obtain ⟨hn, hf⟩ := Algorithm.place_ok hp
  obtain ⟨hrow, hq⟩ := h.pending job List.mem_cons_self
  have hreq := h.requests job List.mem_cons_self
  refine ⟨mem_nodes_commit h.synced hn, by simpa using h.nodup,
    fun j hj ↦ h.requests j (List.mem_cons_of_mem job hj), fun j hj ↦ ?_, fun j hj ↦ ?_,
    fun j hj hst ↦ ?_, ?_⟩
  · rcases List.mem_append.mp hj with hj | hj
    · have hne := h.ne_job (.inl hj)
      rcases h.tried j hj with hplaced | ⟨hjrow, hfits⟩
      · exact .inl ((placed_commit_iff hne).mpr hplaced)
      · exact .inr ⟨mem_jobs_commit.mpr (.inr ⟨hjrow, hne⟩), not_fits_commit hreq hn hfits⟩
    · rw [List.mem_singleton.mp hj]
      exact .inl (placed_commit hrow)
  · obtain ⟨hjrow, hjq⟩ := h.pending j (List.mem_cons_of_mem job hj)
    exact ⟨mem_jobs_commit.mpr (.inr ⟨hjrow, h.ne_job (.inr hj)⟩), hjq⟩
  · rcases mem_jobs_commit.mp hj with ⟨r, -, -, rfl⟩ | ⟨hj, -⟩
    · cases hst
    · simpa using h.queued j hj hst
  · rw [List.pairwise_append]
    refine ⟨h.ahead.imp_of_mem fun ha hb hab hle hb' ↦ ?_, List.pairwise_singleton _ _,
      fun a ha b hb hle _ ↦ ?_⟩
    · rw [placed_commit_iff (h.ne_job (.inl hb))] at hb'
      exact (placed_commit_iff (h.ne_job (.inl ha))).mpr (hab hle hb')
    · -- had the first found no room, the second, which needs no less, would have found none
      rw [List.mem_singleton.mp hb] at hle
      refine (placed_commit_iff (h.ne_job (.inl ha))).mpr ?_
      refine (h.tried a ha).resolve_right fun ⟨_, hfits⟩ ↦ ?_
      have hno := hfits node hn
      rw [Node.fits_mono hle hf] at hno
      cases hno

/-- One attempt, without preemption. -/
theorem attempted {now : Time} {q : Pass} (hpre : e.cfg.enablePreemption = false)
    (h : Served done (job :: queue) p) (hq : Pass.Tried e now job p q) :
    Served (done ++ [job]) queue q := by
  rcases hq.of_noPreemption hpre with ⟨node, reason, hp, rfl⟩ | ⟨why, hp, rfl⟩
  · exact h.commit hp
  · exact h.giveUp hp

/-- A pass begins with nobody served. -/
theorem start {clock : Clock} {s : Store} (dead : List String) (l : List Call)
    (hreq : ∀ j ∈ s.jobs.rows, j.status = .queued → ∀ d, 0 ≤ j.request d) :
    Served [] (e.queue clock s) ⟨passMem dead s, s, l ++ reads s⟩ where
  synced _ := mem_sliceStable
  nodup := ((Algorithm.order_perm _ _ _ _).map Job.jobID).nodup_iff.mpr (s.nodup_listByStatuses _)
  requests j hj := hreq j (Engine.mem_queueOrder.mp hj).1 (Engine.mem_queueOrder.mp hj).2
  tried _ hj := absurd hj List.not_mem_nil
  pending _ hj := Engine.mem_queueOrder.mp hj
  queued _ hj hq := Engine.mem_queueOrder.mpr ⟨hj, hq⟩
  ahead := .nil

theorem undisturbed {clock : Clock} {s : Store} (hpre : e.cfg.enablePreemption = false)
    (dead : List String) (l : List Call)
    (hreq : ∀ j ∈ s.jobs.rows, j.status = .queued → ∀ d, 0 ≤ j.request d) :
    Served (e.queue clock s) [] (e.undisturbed clock dead l s) :=
  Pass.run_induct (start dead l hreq) fun _ _ _ _ _ h hq ↦ h.attempted hpre hq

end Served

/-- What a whole pass without preemption leaves behind. -/
theorem served_tick {e : Engine} {clock : Clock} {s t : Store} {r : Except StoreError Unit}
    (hpre : e.cfg.enablePreemption = false)
    (hreq : ∀ j ∈ s.jobs.rows, j.status = .queued → ∀ d, 0 ≤ j.request d)
    (hrun : Runs Smooth (e.tick clock) s r t) :
    ∃ p, p.store = t ∧ Served (e.queue clock s) [] p := by
  obtain ⟨l, hlog⟩ := hrun.logs
  exact ⟨_, (congrArg Prod.fst (tick_undisturbed hlog).2).symm, .undisturbed hpre _ _ hreq⟩

/-- **A pass is work-conserving.**  Without preemption, when no node is stale, no call fails and no
queued job asks for a negative amount, no job that is still queued after the pass fits on any
node. -/
theorem tick_work_conserving {e : Engine} {clock : Clock} {s t : Store}
    {r : Except StoreError Unit} (hpre : e.cfg.enablePreemption = false)
    (hreq : ∀ j ∈ s.jobs.rows, j.status = .queued → ∀ d, 0 ≤ j.request d)
    (hrun : Runs Smooth (e.tick clock) s r t) :
    ∀ j ∈ t.jobs.rows, j.status = .queued → ∀ n ∈ t.nodes.rows,
      n.fits j.resourceRequest = false := by
  obtain ⟨p, rfl, h⟩ := served_tick hpre hreq hrun
  intro j hj hq n hn
  have hdone := h.queued j hj hq
  rw [List.append_nil] at hdone
  rcases h.tried j hdone with ⟨j', hj', hid, hst⟩ | ⟨-, hfits⟩
  · rw [p.store.jobs.eq_of_key_eq hj' hj hid, hq] at hst
    cases hst
  · exact hfits n ((h.synced n).mpr hn)

namespace WorkConserving

/-- A node with three GPUs, and jobs that ask for one, three and one of them. -/
def cluster : Store :=
  Small.store [Small.job "a" .queued 5 1 "" 1, Small.job "b" .queued 4 3 "" 2,
    Small.job "c" .queued 3 1 "" 3] [Small.node "n" .ready 3 3]

/-- The store after a pass. -/
def after : Store := (runOp ((Small.engine .priority false).tick ⟨5, 5⟩) (steady 3) cluster).2

theorem runs_after : Runs Smooth ((Small.engine .priority false).tick ⟨5, 5⟩) cluster
    (runOp ((Small.engine .priority false).tick ⟨5, 5⟩) (steady 3) cluster).1 after :=
  runs_runOp (by decide +kernel)

end WorkConserving

/-- One GPU is left over, and the second job, which needs three. -/
theorem tick_work_conserving_second :
    (WorkConserving.after.jobs.find? "b").map Job.status = some .queued ∧
      ∀ n ∈ WorkConserving.after.nodes.rows,
        n.fits (Small.job "b" .queued 4 3 "" 2).resourceRequest = false :=
  ⟨by decide +kernel, tick_work_conserving rfl (by decide) WorkConserving.runs_after
    (Small.job "b" .queued 4 3 "" 2) (by decide +kernel) rfl⟩

/-- **Nobody is overtaken by an equal or larger job.**  In such a pass, let `A` come before `B` in
the order of the queue and ask for at most as much of each resource.  If `B` is scheduled, then so
is `A`. -/
theorem tick_no_overtaking {e : Engine} {clock : Clock} {s t : Store}
    {r : Except StoreError Unit} (hpre : e.cfg.enablePreemption = false)
    (hreq : ∀ j ∈ s.jobs.rows, j.status = .queued → ∀ d, 0 ≤ j.request d)
    (hrun : Runs Smooth (e.tick clock) s r t)
    {A B : Job} (hAB : [A, B].Sublist (e.alg.order clock.ordering (s.listByStatuses [.queued])
      ⟨Engine.sharesOf s.listNodes s.teamGPUUsage, e.cfg.agingFactor⟩))
    (hle : A.gpuCount ≤ B.gpuCount ∧ A.cpuCount ≤ B.cpuCount ∧ A.memoryGB ≤ B.memoryGB)
    (hB : (t.jobs.find? B.jobID).map Job.status = some .scheduled) :
    (t.jobs.find? A.jobID).map Job.status = some .scheduled := by
  obtain ⟨p, rfl, h⟩ := served_tick hpre hreq hrun
  have hle' : ∀ d, A.request d ≤ B.request d := by
    intro d
    cases d with
    | gpu => exact hle.1
    | cpu => exact hle.2.1
    | memory => exact hle.2.2
  obtain ⟨B', hfind, hst⟩ := Option.map_eq_some_iff.mp hB
  have hplaced : Placed p.store B :=
    ⟨B', Table.mem_of_find? hfind, Table.key_of_find? hfind, hst⟩
  have hpair := List.pairwise_iff_forall_sublist.mp h.ahead hAB hle' hplaced
  obtain ⟨A', hA', hid, hstA⟩ := hpair
  rw [Table.find?_eq_some.mpr ⟨hA', hid⟩, Option.map_some, hstA]

/-- The third job overtakes the second, which is larger, but not the first. -/
theorem tick_no_overtaking_third :
    (WorkConserving.after.jobs.find? "c").map Job.status = some .scheduled ∧
      (WorkConserving.after.jobs.find? "a").map Job.status = some .scheduled :=
  ⟨by decide +kernel, tick_no_overtaking (A := Small.job "a" .queued 5 1 "" 1)
    (B := Small.job "c" .queued 3 1 "" 3) rfl (by decide) WorkConserving.runs_after
    (by decide +kernel) (by decide) (by decide +kernel)⟩

end GpuScheduler.Scheduler
