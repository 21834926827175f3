import GpuScheduler.Scheduler.Undisturbed

/-!
# What a pass may change

Every placement of a pass is on a node that was ready when the pass read it, every eviction takes
place on such a node and on behalf of a queued job that outranks the victim and may preempt, and
everything else is left alone.  `Framed` says so of a pass in progress, relative to the store `s`
with which it began, and `tick_frame` of a whole pass, however many evictions, repeated evictions
and evictions of jobs just placed it is made of.
-/

namespace GpuScheduler.Scheduler

open Lib Models

/-- The node is ready. -/
def ReadyIn (s : Store) (id : String) : Prop :=
  ∃ n ∈ s.nodes.rows, n.nodeID = id ∧ n.status = .ready

/-- A node has one row. -/
theorem ReadyIn.status_eq {s : Store} {id : String} (h : ReadyIn s id) {n : Node}
    (hn : n ∈ s.nodes.rows) (hid : n.nodeID = id) : n.status = .ready := by
  obtain ⟨n', hn', hid', hst⟩ := h
  rw [s.nodes.eq_of_key_eq hn hn' (hid.trans hid'.symm), hst]

/-- Some queued job has a higher priority, and a reason to preempt. -/
def Engine.Outranked (e : Engine) (now : Time) (s : Store) (j : Job) : Prop :=
  ∃ q ∈ s.jobs.rows, q.status = .queued ∧ j.priority < q.priority ∧
    (8 ≤ q.priority ∨ e.cfg.starvationThreshold ≤ q.age now)

/-- What may become of the job `j` in a pass over `s`. -/
structure Fate (e : Engine) (now : Time) (s : Store) (j j' : Job) : Prop where
  idle : j.status ≠ .queued → j.status.isActive = false → j' = j
  active : j.status.isActive = true → j' = j ∨
    (j'.status = .queued ∧ j'.nodeID = "" ∧ ReadyIn s j.nodeID ∧ e.Outranked now s j)
  queued : j.status = .queued → (j'.status = .queued ∧ j'.nodeID = "") ∨
    (j'.status = .scheduled ∧ ReadyIn s j'.nodeID)

/-- A job that is active in the end was so before, or is on a ready node. -/
theorem Fate.of_active {e : Engine} {now : Time} {s : Store} {j j' : Job} (h : Fate e now s j j')
    (hact : j'.status.isActive = true) : j' = j ∨ ReadyIn s j'.nodeID := by
  by_cases hq : j.status = .queued
  · rcases h.queued hq with ⟨hst, -⟩ | ⟨-, hr⟩
    · rw [hst] at hact
      cases hact
    · exact .inr hr
  · cases ha : j.status.isActive with
    | true =>
        rcases h.active ha with heq | ⟨hst, -⟩
        · exact .inl heq
        · rw [hst] at hact
          cases hact
    | false => exact .inl (h.idle hq ha)

/-- What may become of the node `n`. -/
structure Kept (n n' : Node) : Prop where
  status : n'.status = n.status
  same : n.status ≠ .ready → n' = n

/-- What holds of a pass over `s` that has still to attempt the jobs `queue`. -/
structure Framed (e : Engine) (now : Time) (s : Store) (queue : List Job) (p : Pass) : Prop where
  jobs : Table.Related (Fate e now s) s.jobs p.store.jobs
  nodes : Table.Related Kept s.nodes p.store.nodes
  /-- The nodes held in memory have the status that they had at first. -/
  held : ∀ n ∈ p.mem.nodes, ∃ n₀ ∈ s.nodes.rows, n₀.nodeID = n.nodeID ∧ n₀.status = n.status
  /-- The jobs of the map of running jobs were active on the node, or queued. -/
  running : ∀ id, ∀ v ∈ p.mem.running id, v ∈ s.jobs.rows ∧
    (v.status = .queued ∨ (v.status.isActive = true ∧ v.nodeID = id))
  queued : ∀ j ∈ queue, j ∈ s.jobs.rows ∧ j.status = .queued
  calls : ∀ id nodeID, .jobsSchedule id nodeID ∈ p.calls → ReadyIn s nodeID

namespace Framed

variable {e : Engine} {now : Time} {s : Store} {queue : List Job} {p : Pass} {job v : Job}
  {node : Node}

/-- A node held in memory that is ready was ready at first. -/
theorem readyIn (h : Framed e now s queue p) (hn : node ∈ p.mem.nodes)
    (hr : node.status = .ready) : ReadyIn s node.nodeID := by
  obtain ⟨n₀, hn₀, hid, hst⟩ := h.held node hn
  exact ⟨n₀, hn₀, hid, hst.trans hr⟩

theorem tail (h : Framed e now s (job :: queue) p) : Framed e now s queue p :=
  { h with queued := fun j hj ↦ h.queued j (List.mem_cons_of_mem job hj) }

theorem record (h : Framed e now s queue p) (ev : SchedulingEvent) :
    Framed e now s queue (p.record ev) :=
  { h with
    calls := fun id nodeID hc ↦ by
      rcases List.mem_append.mp hc with hc | hc
      · exact h.calls id nodeID hc
      · simp at hc }

/-- Writing back the availabilities of a ready node. -/
theorem writeBack (h : Framed e now s queue p) (hr : ReadyIn s node.nodeID) :
    Framed e now s queue (p.writeBack node) := by
  have hnodes : Table.Related Kept s.nodes (p.writeBack node).store.nodes := by
    refine h.nodes.modify (k := node.nodeID) (f := (·.setAvailable node.gpuAvailable
      node.cpuAvailable node.memoryAvailable)) (fun _ ↦ rfl) fun n hn hk n' hkept ↦ ?_
    exact ⟨hkept.status, fun hne ↦ absurd (hr.status_eq hn hk) hne⟩
  refine ⟨h.jobs, hnodes, h.held, h.running, h.queued, fun id nodeID hc ↦ ?_⟩
  rcases List.mem_append.mp hc with hc | hc
  · exact h.calls id nodeID hc
  · simp at hc

/-- Changing a ready node in memory. -/
theorem held_putNode {m : Mem}
    (h : ∀ n ∈ m.nodes, ∃ n₀ ∈ s.nodes.rows, n₀.nodeID = n.nodeID ∧ n₀.status = n.status)
    (hr : ReadyIn s node.nodeID) (hst : node.status = .ready) :
    ∀ n ∈ (m.putNode node).nodes, ∃ n₀ ∈ s.nodes.rows, n₀.nodeID = n.nodeID ∧
      n₀.status = n.status := by
  intro n hn
  rcases Mem.mem_nodes_putNode hn with rfl | ⟨hn, -⟩
  · obtain ⟨n₀, hn₀, hid, hst₀⟩ := hr
    exact ⟨n₀, hn₀, hid, hst₀.trans hst.symm⟩
  · exact h n hn

/-- A queued job is placed on a ready node. -/
theorem schedule (h : Framed e now s queue p) (hjob : job ∈ queue) (hr : ReadyIn s node.nodeID)
    (hst : node.status = .ready) : Framed e now s queue (p.schedule job node) := by
  obtain ⟨hrow, hq⟩ := h.queued job hjob
  refine ⟨h.jobs.modify (f := (·.scheduledOn node.nodeID)) (fun _ ↦ rfl)
    fun j hj hk j' _ ↦ ?_, h.nodes, ?_, fun id v hv ↦ ?_, h.queued, fun id nodeID hc ↦ ?_⟩
  · obtain rfl := s.jobs.eq_of_key_eq hj hrow hk
    refine ⟨fun hne ↦ absurd hq hne, fun hact ↦ ?_, fun _ ↦ .inr ⟨rfl, hr⟩⟩
    rw [hq] at hact
    cases hact
  · have hr' : ReadyIn s (node.reserve job.resourceRequest).nodeID := hr
    exact held_putNode h.held hr' hst
  · rcases Mem.mem_running_commit hv with hv | ⟨rfl, -⟩
    · exact h.running id v hv
    · exact ⟨hrow, .inl hq⟩
  · rcases List.mem_append.mp hc with hc | hc
    · exact h.calls id nodeID hc
    · simp only [List.mem_singleton, Call.jobsSchedule.injEq] at hc
      rw [hc.2]
      exact hr

/-- A job of the map of running jobs is evicted from a ready node, on behalf of a queued job that
may preempt. -/
theorem evictOne (h : Framed e now s queue p) (hr : ReadyIn s node.nodeID)
    (hst : node.status = .ready) (hv : v ∈ p.mem.running node.nodeID)
    (hout : e.Outranked now s v) : Framed e now s queue (p.evictOne node v) := by
  obtain ⟨hrow, hcase⟩ := h.running node.nodeID v hv
  refine ⟨h.jobs.modify (f := (·.requeued .queued)) (fun _ ↦ rfl) fun j hj hk j' _ ↦ ?_,
    h.nodes, held_putNode h.held hr hst, h.running, h.queued, fun id nodeID hc ↦ ?_⟩
  · obtain rfl := s.jobs.eq_of_key_eq hj hrow hk
    refine ⟨fun hne hidle ↦ ?_, fun hact ↦ .inr ⟨rfl, rfl, ?_, hout⟩, fun _ ↦ .inl ⟨rfl, rfl⟩⟩
    · rcases hcase with hq | ⟨hact, -⟩
      · exact absurd hq hne
      · rw [hact] at hidle
        cases hidle
    · rcases hcase with hq | ⟨-, hid⟩
      · rw [hq] at hact
        cases hact
      · rw [hid]
        exact hr
  · rcases List.mem_append.mp hc with hc | hc
    · exact h.calls id nodeID hc
    · simp at hc

/-- The victims of a plan. -/
theorem evict (h : Framed e now s queue p) (hjob : job ∈ queue)
    (hpre : e.shouldPreempt job now = true) {plan : PreemptionPlan}
    (hplan : findPreemption job p.mem.nodes p.mem.running = some plan) :
    Framed e now s queue (p.evict plan) := by
  obtain ⟨hn, hst, -⟩ := findPreemption_some hplan
  obtain ⟨hrow, hq⟩ := h.queued job hjob
  have hr := h.readyIn hn hst
  have hout : ∀ v ∈ plan.victims, e.Outranked now s v := by
    intro v hv
    refine ⟨job, hrow, hq, (priority_of_victim hplan hv).1, ?_⟩
    simp only [Engine.shouldPreempt, Bool.or_eq_true, decide_eq_true_eq] at hpre
    exact hpre.symm
  refine writeBack ?_ (by rwa [nodeID_releaseAll])
  refine Pass.evictAll_induct h fun q n v hf hrun hid hst' hv ↦ ?_
  refine hf.evictOne (hid ▸ hr) (hst'.trans hst) ?_ (hout v hv)
  rw [hrun, hid]
  exact mem_running_of_victim hplan hv

theorem commit (h : Framed e now s (job :: queue) p) {nodes : List Node} {reason why : String}
    (hnodes : nodes = p.mem.nodes) (hp : e.alg.place job nodes = .ok (node, why)) :
    Framed e now s queue (p.commit e job node reason) := by
  subst hnodes
  obtain ⟨hn, hf⟩ := Algorithm.place_ok hp
  have hst := (Node.fits_iff.mp hf).1
  have hr := h.readyIn hn hst
  have hr' : ReadyIn s (node.reserve job.resourceRequest).nodeID := hr
  exact (((h.schedule List.mem_cons_self hr hst).writeBack hr').record _).tail

/-- One attempt. -/
theorem tried {q : Pass} (h : Framed e now s (job :: queue) p) (hq : Pass.Tried e now job p q) :
    Framed e now s queue q := by
  cases hq with
  | placed hp => exact h.commit rfl hp
  | refused _ => exact (h.record _).tail
  | replaced _ hpre hplan hp => exact (h.evict List.mem_cons_self hpre hplan).commit rfl hp
  | wasted _ hpre hplan _ => exact ((h.evict List.mem_cons_self hpre hplan).record _).tail

/-- A pass begins within its frame. -/
theorem start (hqueued : ∀ j ∈ s.jobs.rows, j.status = .queued → j.nodeID = "") (clock : Clock)
    (dead : List String) {l : List Call} (hl : ∀ c ∈ l, OfRecovery c) :
    Framed e now s (e.queue clock s) ⟨passMem dead s, s, l ++ reads s⟩ where
  jobs := .refl fun j hj ↦ ⟨fun _ _ ↦ rfl, fun _ ↦ .inl rfl, fun hq ↦ .inl ⟨hq, hqueued j hj hq⟩⟩
  nodes := .refl fun _ _ ↦ ⟨rfl, fun _ ↦ rfl⟩
  held n hn := ⟨n, mem_sliceStable.mp hn, rfl, rfl⟩
  running id v hv := by
    obtain ⟨hv, hid⟩ := List.mem_filter.mp hv
    obtain ⟨hrow, hst⟩ := List.mem_filter.mp (mem_sliceStable.mp hv)
    simp only [Bool.and_eq_true, decide_eq_true_eq] at hid
    exact ⟨hrow, .inr ⟨JobStatus.isActive_iff.mpr (by simpa using hst), hid.2⟩⟩
  queued j hj := Engine.mem_queueOrder.mp hj
  calls id nodeID hc := by
    rcases List.mem_append.mp hc with hc | hc
    · exact (hl _ hc).elim
    · rcases mem_reads hc with hc | hc | ⟨ss, hc⟩ <;> cases hc

/-- The whole loop. -/
theorem undisturbed (hqueued : ∀ j ∈ s.jobs.rows, j.status = .queued → j.nodeID = "")
    (clock : Clock) (dead : List String) {l : List Call} (hl : ∀ c ∈ l, OfRecovery c) :
    Framed e clock.pass s [] (e.undisturbed clock dead l s) :=
  Pass.run_induct (I := fun _ queue p ↦ Framed e clock.pass s queue p)
    (start hqueued clock dead hl) fun _ _ _ _ _ h hq ↦ h.tried hq

end Framed

/-- **What a pass may change.**  In a pass over a store whose queued jobs have no node, in which no
call fails and no node is stale: a job that was over is unchanged; a job that was active is
unchanged, or back in the queue, the latter only if it was on a ready node and a queued job with a
reason to preempt has a higher priority; a job that was queued is queued or scheduled on a ready
node; and a node that is not ready is unchanged, nothing is placed on it, and the jobs active on it
are those that were. -/
theorem tick_frame {e : Engine} {clock : Clock} {s t : Store} {r : Except StoreError Unit}
    {l : List Call} (hqueued : ∀ j ∈ s.jobs.rows, j.status = .queued → j.nodeID = "")
    (hlog : Logs Smooth (e.tick clock) s r l t) :
    (∀ j ∈ s.jobs.rows, ∃ j', t.jobs.find? j.jobID = some j' ∧
      (j.status.isTerminal = true → j' = j) ∧
      (j.status.isActive = true → j' = j ∨ (j'.status = .queued ∧ j'.nodeID = "" ∧
        (∃ n ∈ s.nodes.rows, n.nodeID = j.nodeID ∧ n.status = .ready) ∧
        ∃ q ∈ s.jobs.rows, q.status = .queued ∧ j.priority < q.priority ∧
          (8 ≤ q.priority ∨ e.cfg.starvationThreshold ≤ q.age clock.pass))) ∧
      (j.status = .queued → (j'.status = .queued ∧ j'.nodeID = "") ∨
        (j'.status = .scheduled ∧ ∃ n ∈ t.nodes.rows, n.nodeID = j'.nodeID ∧ n.status = .ready))) ∧
    ∀ n ∈ s.nodes.rows, n.status ≠ .ready →
      t.nodes.find? n.nodeID = some n ∧ (∀ id, .jobsSchedule id n.nodeID ∉ l) ∧
      (∀ j ∈ s.jobs.rows, j.status.isActive = true → j.nodeID = n.nodeID →
        t.jobs.find? j.jobID = some j) ∧
      ∀ j ∈ t.jobs.rows, j.status.isActive = true → j.nodeID = n.nodeID → j ∈ s.jobs.rows := by
  have hstate := (tick_undisturbed hlog).2
  have h : Framed e clock.pass s [] (e.undisturbed clock []
      [.nodesMarkStaleDown e.cfg.heartbeatTTL] s) :=
    .undisturbed hqueued clock [] fun c hc ↦ List.mem_singleton.mp hc ▸ trivial
  rw [Pass.state, Prod.mk.injEq] at hstate
  have hjobs := h.jobs
  have hnodes := h.nodes
  have hcalls := h.calls
  rw [← hstate.1] at hjobs hnodes
  rw [← hstate.2] at hcalls
  have hready : ∀ id, ReadyIn s id → ∃ n ∈ t.nodes.rows, n.nodeID = id ∧ n.status = .ready := by
    rintro id ⟨n, hn, hid, hst⟩
    obtain ⟨n', hn', hk, hkept⟩ := hnodes.right n hn
    exact ⟨n', hn', hk.trans hid, hkept.status.trans hst⟩
  have hnotReady : ∀ n ∈ s.nodes.rows, n.status ≠ .ready → ¬ ReadyIn s n.nodeID :=
    fun n hn hne hr ↦ hne (hr.status_eq hn rfl)
  refine ⟨fun j hj ↦ ?_, fun n hn hne ↦ ⟨?_, fun id hc ↦ ?_, fun j hj hact hid ↦ ?_,
    fun j' hj' hact hid ↦ ?_⟩⟩
  · obtain ⟨j', hj', hk, hfate⟩ := hjobs.right j hj
    refine ⟨j', Table.find?_eq_some.mpr ⟨hj', hk⟩, fun hterm ↦ ?_, hfate.active, fun hq ↦ ?_⟩
    · refine hfate.idle (fun hq ↦ ?_) (JobStatus.isActive_of_isTerminal hterm)
      rw [hq] at hterm
      cases hterm
    · rcases hfate.queued hq with hstay | ⟨hst, hr⟩
      · exact .inl hstay
      · exact .inr ⟨hst, hready _ hr⟩
  · obtain ⟨n', hn', hk, hkept⟩ := hnodes.right n hn
    rw [hkept.same hne] at hn'
    exact Table.find?_key hn'
  · exact hnotReady n hn hne (hcalls id n.nodeID hc)
  · obtain ⟨j', hj', hk, hfate⟩ := hjobs.right j hj
    rcases hfate.active hact with rfl | ⟨-, -, hr, -⟩
    · exact Table.find?_key hj'
    · exact absurd (hid ▸ hr) (hnotReady n hn hne)
  · obtain ⟨j, hj, -, hfate⟩ := hjobs.left j' hj'
    rcases hfate.of_active hact with rfl | hr
    · exact hj
    · exact absurd (hid ▸ hr) (hnotReady n hn hne)

namespace Frame

/-- A ready node that is full, a cordoned node with room, a job on each, and a queued job that may
preempt. -/
def cluster : Store :=
  Small.store [Small.job "v" .running 1 2 "n" 0, Small.job "w" .running 1 1 "c" 0,
    Small.job "a" .queued 8 2 "" 1] [Small.node "n" .ready 2 0, Small.node "c" .cordoned 4 3]

/-- The store after a pass. -/
def after : Store := (logOp ((Small.engine .bestFit true).tick ⟨5, 5⟩) (steady 3) cluster).2.1

end Frame

/-- The job on the ready node is evicted, and the cordoned node and its job are left alone. -/
theorem tick_frame_cordoned :
    (Frame.after.jobs.find? "v").map Job.status = some .queued ∧
      Frame.after.nodes.find? "c" = some (Small.node "c" .cordoned 4 3) ∧
      Frame.after.jobs.find? "w" = some (Small.job "w" .running 1 1 "c" 0) := by
  have hlog : Logs Smooth ((Small.engine .bestFit true).tick ⟨5, 5⟩) Frame.cluster _ _
      Frame.after :=
    logs_logOp (by decide +kernel)
  obtain ⟨-, hnodes⟩ := tick_frame (by decide +kernel) hlog
  obtain ⟨hn, -, hj, -⟩ := hnodes (Small.node "c" .cordoned 4 3) (by decide) (by decide)
  exact ⟨by decide +kernel, hn, hj (Small.job "w" .running 1 1 "c" 0) (by decide) rfl rfl⟩

end GpuScheduler.Scheduler
