import GpuScheduler.Scheduler.Rules
import GpuScheduler.Store.Effects
import Mathlib.Logic.Relation

/-!
# Recovery from lost nodes

A pass learns which nodes were lost from `MarkStaleDown`, which names each of them once, and then
recovers their jobs one by one.  Preemption takes two statements for each victim.  Neither is taken
up again by a later pass: when a call fails in between, a job is left on a node that is down, or
left *preempted*, for good.

`noneStranded_of_failsSafely` says that these are the only failures that matter: if no call fails
that would have taken a job out of such a state, no pass leaves a job in such a state.
-/

namespace GpuScheduler

open Lib Models Scheduler

/-- There is a node with this ID, and it is not down. -/
def Store.Up (s : Store) (id : String) : Prop :=
  ∃ n ∈ s.nodes.rows, n.nodeID = id ∧ n.status ≠ .down

/-- The job is over, waits in the queue, or is on a node that is not down. -/
def Store.Cared (s : Store) (j : Job) : Prop :=
  j.status.isTerminal = true ∨ j.status = .queued ∨ (j.status.isActive = true ∧ s.Up j.nodeID)

/-- No job is left in a state that nobody takes it out of. -/
def Store.NoneStranded (s : Store) : Prop := ∀ j ∈ s.jobs.rows, s.Cared j

instance (s : Store) (id : String) : Decidable (s.Up id) :=
  inferInstanceAs (Decidable (∃ n ∈ s.nodes.rows, n.nodeID = id ∧ n.status ≠ .down))

instance (s : Store) (j : Job) : Decidable (s.Cared j) :=
  inferInstanceAs (Decidable (j.status.isTerminal = true ∨ j.status = .queued ∨
    (j.status.isActive = true ∧ s.Up j.nodeID)))

instance (s : Store) : Decidable s.NoneStranded :=
  inferInstanceAs (Decidable (∀ j ∈ s.jobs.rows, s.Cared j))

/-- The call is there for a stranded job: it lists the jobs while one is stranded, or it writes the
status of one that is. -/
def Rescues : Call → Store → Prop
  | .jobsListByStatuses _, s => ¬ s.NoneStranded
  | .jobsUpdateStatus id _, s | .jobsRequeue id _, s =>
      ∃ j ∈ s.jobs.rows, j.jobID = id ∧ ¬ s.Cared j
  | _, _ => False

instance : ∀ c s, Decidable (Rescues c s)
  | .jobsListByStatuses _, s => inferInstanceAs (Decidable (¬ s.NoneStranded))
  | .jobsUpdateStatus id _, s | .jobsRequeue id _, s =>
      inferInstanceAs (Decidable (∃ j ∈ s.jobs.rows, j.jobID = id ∧ ¬ s.Cared j))
  | .jobsCreate _, _ | .jobsGet _, _ | .jobsListScheduledForNode _, _ | .jobsSchedule _ _, _
  | .jobsTeamGPUUsage, _ | .nodesUpsert _, _ | .nodesGet _, _ | .nodesList, _
  | .nodesUpdateAvailability _ _ _ _, _ | .nodesHeartbeat _, _ | .nodesSetStatus _ _, _
  | .nodesMarkStaleDown _, _ | .eventsRecord _, _ => .isFalse id

/-- No call fails that is there for a stranded job. -/
def FailsSafely : Admits := fun _ c e s ↦ e.fails = true → ¬ Rescues c s

instance : ∀ m c e s, Decidable (FailsSafely m c e s) := fun _ c e s ↦
  inferInstanceAs (Decidable (e.fails = true → ¬ Rescues c s))

theorem not_rescues_of_mayFail {m : Mem} {c : Call} {s : Store} (h : MayFail FailsSafely m c s) :
    ¬ Rescues c s := by
  obtain ⟨e, he, hf⟩ := h
  exact he hf

namespace Recovery

variable {s t : Store} {m : Mem} {job : Job}

/-! ## Statements -/

theorem cared_mono {j : Job} (h : s.Cared j) (hup : ∀ id, s.Up id → t.Up id) : t.Cared j := by
  rcases h with h | h | ⟨hact, h⟩
  · exact .inl h
  · exact .inr (.inl h)
  · exact .inr (.inr ⟨hact, hup _ h⟩)

/-- Statements on one job leave the nodes as they are. -/
theorem cared_modify {id : String} {f : Job → Job} {hf : ∀ r : Job, (f r).jobID = r.jobID}
    (hjobs : t.jobs = s.jobs.modify id f hf) (hnodes : t.nodes = s.nodes)
    (hrow : ∀ r, t.Cared (f r)) {j : Job} (hj : j ∈ t.jobs.rows)
    (hrest : ∀ j ∈ s.jobs.rows, j.jobID ≠ id → s.Cared j) : t.Cared j := by
  rw [hjobs] at hj
  rcases Table.mem_modify.mp hj with ⟨r, -, -, rfl⟩ | ⟨hj, hne⟩
  · exact hrow r
  · refine cared_mono (hrest j hj hne) fun id hup ↦ ?_
    rw [Store.Up, hnodes]
    exact hup

/-- Writing availabilities brings no node down. -/
theorem up_writeBack {n : Node} {id : String} (h : s.Up id) : (s.writeBack n).Up id := by
  obtain ⟨x, hx, hid, hst⟩ := h
  rw [Store.Up, Store.nodes_writeBack]
  by_cases hk : x.nodeID = n.nodeID
  · exact ⟨_, Table.mem_modify.mpr (.inl ⟨x, hx, hk, rfl⟩), hid, hst⟩
  · exact ⟨x, Table.mem_modify.mpr (.inr ⟨hx, hk⟩), hid, hst⟩

theorem noneStranded_writeBack (h : s.NoneStranded) (n : Node) : (s.writeBack n).NoneStranded :=
  fun j hj ↦ cared_mono (h j hj) fun _ ↦ up_writeBack

/-- A job that goes back to the queue, or is over, is cared for. -/
theorem noneStranded_updateStatus {id : String} {st : JobStatus}
    (hst : st.isTerminal = true ∨ st = .queued)
    (h : ∀ j ∈ s.jobs.rows, j.jobID ≠ id → s.Cared j) (now : Time) :
    (s.updateStatus id st now).NoneStranded := fun _ hj ↦
  cared_modify (Store.jobs_updateStatus st now) rfl
    (fun _ ↦ hst.elim .inl fun h ↦ .inr (.inl h)) hj h

theorem noneStranded_schedule (h : s.NoneStranded) {id nodeID : String} (hup : s.Up nodeID) :
    (s.schedule id nodeID).NoneStranded := fun _ hj ↦
  cared_modify (Store.jobs_schedule nodeID) rfl (fun _ ↦ .inr (.inr ⟨rfl, hup⟩)) hj
    fun j hj _ ↦ h j hj

/-! ## The lost nodes -/

section Lost

variable {ttl : Duration} {now : Time}

/-- Nodes that are reported lost are down from then on. -/
theorem not_up_of_mem_staleNodes {id : String} (h : id ∈ s.staleNodes ttl now) :
    ¬ (s.markStaleDown ttl now).Up id := by
  rintro ⟨n, hn, hid, hst⟩
  obtain ⟨x, hx, hxid⟩ := List.mem_map.mp h
  obtain ⟨hx, hstale⟩ := List.mem_filter.mp hx
  obtain ⟨y, hy, rfl⟩ := List.mem_map.mp hn
  rw [Node.nodeID_reaped] at hid
  obtain rfl := s.nodes.eq_of_key_eq hx hy (hxid.trans hid.symm)
  rw [Node.reaped, if_pos hstale] at hst
  exact hst rfl

/-- The other nodes are as before. -/
theorem up_markStaleDown {id : String} (h : s.Up id) :
    (s.markStaleDown ttl now).Up id ∨ id ∈ s.staleNodes ttl now := by
  obtain ⟨n, hn, rfl, hst⟩ := h
  cases hstale : n.stale ttl now with
  | true => exact .inr (List.mem_map.mpr ⟨n, List.mem_filter.mpr ⟨hn, hstale⟩, rfl⟩)
  | false =>
      refine .inl ⟨n.reaped ttl now, List.mem_map.mpr ⟨n, hn, rfl⟩, n.nodeID_reaped ttl now, ?_⟩
      rw [Node.reaped, hstale]
      exact hst

/-- What holds while the jobs `js` are still to be looked at: a job that is not cared for is one of
these, and on a lost node. -/
structure Recovering (dead : List String) (js : List Job) (s : Store) : Prop where
  lost : ∀ id ∈ dead, ¬ s.Up id
  pending : ∀ j ∈ js, j ∈ s.jobs.rows ∧ j.status.isActive = true
  nodup : (js.map Job.jobID).Nodup
  cared : ∀ j ∈ s.jobs.rows, s.Cared j ∨ (j ∈ js ∧ j.nodeID ∈ dead)

/-- After the nodes were marked, all active jobs are still to be looked at. -/
theorem recovering_markStaleDown (h : s.NoneStranded) : Recovering (s.staleNodes ttl now)
    ((s.markStaleDown ttl now).listByStatuses [.scheduled, .running])
    (s.markStaleDown ttl now) where
  lost _ hid := not_up_of_mem_staleNodes hid
  pending j hj := by
    obtain ⟨hrow, hst⟩ := List.mem_filter.mp (mem_sliceStable.mp hj)
    exact ⟨hrow, JobStatus.isActive_iff.mpr (by simpa using hst)⟩
  nodup := (s.markStaleDown ttl now).nodup_listByStatuses _
  cared j hj := by
    rcases h j hj with hterm | hq | ⟨hact, hup⟩
    · exact .inl (.inl hterm)
    · exact .inl (.inr (.inl hq))
    · rcases up_markStaleDown hup with hup | hdead
      · exact .inl (.inr (.inr ⟨hact, hup⟩))
      · refine .inr ⟨mem_sliceStable.mpr (List.mem_filter.mpr ⟨hj, ?_⟩), hdead⟩
        simpa using JobStatus.isActive_iff.mp hact

variable {dead : List String} {js : List Job}

/-- Before a job on a lost node is recovered, it is stranded. -/
theorem Recovering.stranded (h : Recovering dead (job :: js) s) (hdead : job.nodeID ∈ dead) :
    ∃ j ∈ s.jobs.rows, j.jobID = job.jobID ∧ ¬ s.Cared j := by
  obtain ⟨hrow, hact⟩ := h.pending job List.mem_cons_self
  refine ⟨job, hrow, rfl, ?_⟩
  rintro (hterm | hq | ⟨-, hup⟩)
  · rw [JobStatus.isTerminal_of_isActive hact] at hterm
    cases hterm
  · rw [hq] at hact
    cases hact
  · exact h.lost _ hdead hup

/-- A job that is not on a lost node is left alone. -/
theorem Recovering.skip (h : Recovering dead (job :: js) s) (hdead : job.nodeID ∉ dead) :
    Recovering dead js s where
  lost := h.lost
  pending j hj := h.pending j (List.mem_cons_of_mem job hj)
  nodup := (List.nodup_cons.mp h.nodup).2
  cared j hj := by
    rcases h.cared j hj with hc | ⟨hmem, hd⟩
    · exact .inl hc
    · rcases List.mem_cons.mp hmem with rfl | hmem
      · exact absurd hd hdead
      · exact .inr ⟨hmem, hd⟩

/-- A statement that takes care of the job whose turn it is. -/
theorem Recovering.recover (h : Recovering dead (job :: js) s) {f : Job → Job}
    {hf : ∀ r : Job, (f r).jobID = r.jobID} (hjobs : t.jobs = s.jobs.modify job.jobID f hf)
    (hnodes : t.nodes = s.nodes) (hrow : ∀ r, t.Cared (f r)) : Recovering dead js t where
  lost id hid hup := h.lost id hid (by rwa [Store.Up, hnodes] at hup)
  pending j hj := by
    obtain ⟨hmem, hact⟩ := h.pending j (List.mem_cons_of_mem job hj)
    have hne : j.jobID ≠ job.jobID := fun heq ↦
      (List.nodup_cons.mp h.nodup).1 (heq ▸ List.mem_map_of_mem hj)
    exact ⟨hjobs ▸ Table.mem_modify.mpr (.inr ⟨hmem, hne⟩), hact⟩
  nodup := (List.nodup_cons.mp h.nodup).2
  cared j hj := by
    rw [hjobs] at hj
    rcases Table.mem_modify.mp hj with ⟨r, -, -, rfl⟩ | ⟨hj, hne⟩
    · exact .inl (hrow r)
    · rcases h.cared j hj with hc | ⟨hmem, hd⟩
      · refine .inl (cared_mono hc fun id hup ↦ ?_)
        rw [Store.Up, hnodes]
        exact hup
      · rcases List.mem_cons.mp hmem with rfl | hmem
        · exact absurd rfl hne
        · exact .inr ⟨hmem, hd⟩

/-- One job. -/
theorem wp_recoverJob (h : Recovering dead (job :: js) s) :
    Wp FailsSafely (Engine.recoverJob dead job) (fun _ _ t ↦ Recovering dead js t) m s := by
  -- before it is recovered the job is stranded, so neither call fails
  refine Scheduler.wp_recoverJob h.skip (fun hdead _ ↦ ⟨fun now ↦ ?_, fun hf ↦ ?_⟩)
    fun hdead _ ↦ ⟨?_, fun hf ↦ ?_⟩
  · exact h.recover (Store.jobs_updateStatus .failed now) rfl fun _ ↦ .inl rfl
  · exact absurd (h.stranded hdead) (not_rescues_of_mayFail hf)
  · exact h.recover (Store.jobs_requeue .queued) rfl fun _ ↦ .inr (.inl rfl)
  · exact absurd (h.stranded hdead) (not_rescues_of_mayFail hf)

/-- All of them. -/
theorem wp_reconcileDeadNodes {e : Engine} (h : s.NoneStranded) :
    Wp FailsSafely e.reconcileDeadNodes (fun _ _ t ↦ t.NoneStranded) m s := by
  refine Engine.wp_reconcileDeadNodes (fun _ ↦ h) (fun env _ hnone ↦ ?_)
    (fun now hf ↦ not_not.mp (not_rescues_of_mayFail hf)) fun env _ ↦ ?_
  · rw [Store.markStaleDown_of_noStale]
    · exact h
    · intro n hn
      by_contra hstale
      have hmem : n.nodeID ∈ s.staleNodes e.cfg.heartbeatTTL env.now :=
        List.mem_map.mpr ⟨n, List.mem_filter.mpr ⟨hn, by simpa using hstale⟩, rfl⟩
      rw [hnone] at hmem
      cases hmem
  · refine (Act.wp_forM_alone (I := fun js _ t ↦ Recovering _ js t) (recovering_markStaleDown h)
      fun job js m t ht ↦ wp_recoverJob ht).mono fun _ _ t _ ht j hj ↦ ?_
    exact (ht.cared j hj).resolve_right fun hmem ↦ absurd hmem.1 List.not_mem_nil

end Lost

/-! ## The loop over the queue -/

/-- No job is stranded, and the nodes held in memory are as up as they look. -/
structure Placing (m : Mem) (s : Store) : Prop where
  safe : s.NoneStranded
  nodes : ∀ n ∈ m.nodes, n.status ≠ .down → s.Up n.nodeID

namespace Placing

/-- A copy of a node held in memory is replaced by another one of the same node. -/
theorem putNode (h : Placing m s) {n : Node} (hn : n.status ≠ .down → s.Up n.nodeID) :
    Placing (m.putNode n) s := by
  refine ⟨h.safe, fun x hx ↦ ?_⟩
  rcases Mem.mem_nodes_putNode hx with rfl | ⟨hx, -⟩
  · exact hn
  · exact h.nodes x hx

theorem of_up (h : Placing m s) (ht : t.NoneStranded) (hup : ∀ id, s.Up id → t.Up id) :
    Placing m t := ⟨ht, fun n hn hst ↦ hup _ (h.nodes n hn hst)⟩

theorem wp_commitPlacement (h : Placing m s) {e : Engine} {node : Node} {reason : String}
    (hn : node ∈ m.nodes) (hready : node.status = .ready) :
    Wp FailsSafely (e.commitPlacement job node reason) (fun _ m t ↦ Placing m t) m s := by
  have hup : s.Up node.nodeID := h.nodes node hn (by rw [hready]; decide)
  have hput := h.putNode (n := node.reserve job.resourceRequest) fun _ ↦ hup
  have hm : Placing (m.commit job node) s := ⟨hput.safe, hput.nodes⟩
  have hs : Placing (m.commit job node) (s.schedule job.jobID node.nodeID) :=
    hm.of_up (noneStranded_schedule h.safe hup) fun _ ↦ id
  refine Engine.wp_commitPlacement (fun _ ↦ hm.putNode fun _ ↦ hup)
    (fun _ evs ↦ hs.of_up hs.safe fun _ ↦ id) fun evs ↦ ?_
  exact hs.of_up (noneStranded_writeBack hs.safe _) fun _ ↦ up_writeBack

theorem wp_evictVictims {node : Node} {vs : List Job} (h : Placing m s)
    (hn : node.status ≠ .down → s.Up node.nodeID) :
    Wp FailsSafely (Engine.evictVictims node vs) (fun _ m t ↦ Placing m t) m s := by
  induction vs generalizing node m s with
  | nil => exact wp_evictVictims_nil h
  | cons v vs ih =>
      have hm : Placing (m.putNode (node.release v.resourceRequest)) s := h.putNode hn
      -- the rows other than the victim's are those from before the requeue
      have hrest : ∀ j ∈ (s.requeue v.jobID .preempted).jobs.rows, j.jobID ≠ v.jobID →
          (s.requeue v.jobID .preempted).Cared j := fun j hj hne ↦ by
        rw [Store.jobs_requeue] at hj
        rcases Table.mem_modify.mp hj with ⟨r, -, hr, rfl⟩ | ⟨hj, -⟩
        · exact absurd hr hne
        · exact h.safe j hj
      refine wp_evictVictims_cons (fun _ ↦ ih hm hn) (fun hf ↦ ?_) fun now ↦ ?_
      · have hsafe : (s.requeue v.jobID .preempted).NoneStranded := fun j hj ↦ by
          by_cases hid : j.jobID = v.jobID
          · by_contra hnot
            exact not_rescues_of_mayFail hf ⟨j, hj, hid, hnot⟩
          · exact hrest j hj hid
        exact ih (hm.of_up hsafe fun _ ↦ id) hn
      · exact ih (hm.of_up (noneStranded_updateStatus (.inr rfl) hrest now) fun _ ↦ id) hn

theorem wp_placeOne (h : Placing m s) {e : Engine} {now : Time} :
    Wp FailsSafely (e.placeOne now job) (fun _ m t ↦ Placing m t) m s := by
  refine Engine.wp_placeOne (I := Placing) (fun _ _ _ h hst _ ↦ hst ▸ h) ?_ ?_ ?_ h
  · intro node why reason m s h hp
    obtain ⟨hn, hf⟩ := Algorithm.place_ok hp
    exact h.wp_commitPlacement hn (Node.fits_iff.mp hf).1
  · intro _ plan m s h hplan
    have hn := h.nodes plan.node (findPreemption_some hplan).1
    refine wp_applyPreemption ((h.wp_evictVictims hn).mono fun node m t _ ht ↦ ⟨?_, fun _ ↦ ht⟩)
    exact ht.of_up (noneStranded_writeBack ht.safe node) fun _ ↦ up_writeBack
  · exact fun reason m s h ↦ Engine.wp_giveUp fun evs ↦ h.of_up h.safe fun _ ↦ id

end Placing

/-- A whole pass. -/
theorem wp_tick {e : Engine} {clock : Clock} (h : s.NoneStranded) :
    Wp FailsSafely (e.tick clock) (fun _ _ t ↦ t.NoneStranded) m s := by
  refine Act.wp_bind.mpr ((wp_reconcileDeadNodes h).mono fun _ m t _ ht ↦ ?_)
  refine Engine.wp_schedulePass (fun _ _ _ ↦ ht) (fun _ _ ↦ ht) fun shares _ ↦ ?_
  have hplacing : Placing (passMem m.dead t) t :=
    ⟨ht, fun n hn hst ↦ ⟨n, mem_sliceStable.mp hn, rfl, hst⟩⟩
  exact (Act.wp_forM_alone (I := fun _ m t ↦ Placing m t) hplacing
    fun job js m t h ↦ h.wp_placeOne).mono fun _ _ _ _ h ↦ h.safe

end Recovery

/-- One pass after the other, each by an engine of its own and at a time of its own. -/
def Passes (admits : Admits) : Store → Store → Prop :=
  Relation.ReflTransGen fun s t ↦ ∃ e clock r, Runs admits (Engine.tick e clock) s r t

/-- **No job is stranded when calls fail safely.**  Passes follow one another, nodes go stale and
calls fail, but none of those that are there for a stranded job.  Then after every pass each job
is over, waits in the queue, or is on a node that is not down. -/
theorem noneStranded_of_failsSafely {s t : Store} (hs : s.NoneStranded)
    (h : Passes FailsSafely s t) :
    ∀ j ∈ t.jobs.rows, j.status.isTerminal = true ∨ j.status = .queued ∨
      (j.status.isActive = true ∧ ∃ n ∈ t.nodes.rows, n.nodeID = j.nodeID ∧ n.status ≠ .down) := by
  have ht : t.NoneStranded := by
    induction h with
    | refl => exact hs
    | tail _ hpass ih =>
        obtain ⟨e, clock, r, hr⟩ := hpass
        exact hr.final (Recovery.wp_tick ih)
  exact ht

namespace Recovery

/-- Two nodes are fully used by a job each, a job of high priority waits, and node `a` has not been
heard of for long. -/
def cluster : Store :=
  Small.store [Small.job "v" .running 1 2 "a" 0, Small.job "w" .running 1 2 "b" 1,
      Small.job "x" .queued 9 2 "" 2]
    [Small.node "a" .ready 2 0, { Small.node "b" .ready 2 0 with lastHeartbeat := 150 }]

/-- A pass over this cluster. -/
def pass : StoreM (Except StoreError Unit) :=
  Engine.tick ⟨.firstFit, ⟨1, 100, true, 100⟩⟩ ⟨200, 200⟩

/-- The calls with these numbers fail. -/
def failing (l : List Nat) : Nat → Env := fun n ↦ ⟨l.contains n, 200⟩

/-- The store after a pass in which these calls fail. -/
def after (l : List Nat) : Store := (runOp pass (failing l) cluster).2

end Recovery

/-- The listing of the nodes fails, but by then the job of node `a` is recovered. -/
theorem noneStranded_of_failsSafely_listing :
    Passes FailsSafely Recovery.cluster (Recovery.after [3]) ∧
      ∀ j ∈ (Recovery.after [3]).jobs.rows,
        j.status.isTerminal = true ∨ j.status = .queued ∨ (j.status.isActive = true ∧
          ∃ n ∈ (Recovery.after [3]).nodes.rows, n.nodeID = j.nodeID ∧ n.status ≠ .down) := by
  have h : Passes FailsSafely Recovery.cluster (Recovery.after [3]) :=
    .single ⟨_, _, _, runs_runOp (x := Recovery.pass) (by decide +kernel)⟩
  exact ⟨h, noneStranded_of_failsSafely (by decide) h⟩

/-- **Two failing calls strand two jobs.**  The first pass cannot list the active jobs after it has
marked node `a` down, and cannot return the victim `w` to the queue.  In the next pass nothing
fails; `v` is still on the lost node and `w` is still preempted. -/
theorem failing_calls_strand_jobs :
    ∃ t u : Store, Recovery.cluster.NoneStranded ∧ Passes Anything Recovery.cluster t ∧
      (∃ e clock r, Runs NoError (Engine.tick e clock) t r u) ∧
      (u.jobs.find? "v").map Job.status = some .running ∧
      (u.jobs.find? "v").map Job.nodeID = some "a" ∧
      (u.nodes.find? "a").map Node.status = some .down ∧
      (u.jobs.find? "w").map Job.status = some .preempted :=
  ⟨Recovery.after [1, 7], (runOp Recovery.pass (Recovery.failing []) (Recovery.after [1, 7])).2,
    by decide, .single ⟨_, _, _, runs_runOp (x := Recovery.pass)
      (Prog.admits_of_forall fun _ _ _ _ ↦ trivial)⟩,
    ⟨_, _, _, runs_runOp (x := Recovery.pass) (Prog.admits_of_forall fun _ _ _ _ ↦ rfl)⟩,
    by decide +kernel, by decide +kernel, by decide +kernel, by decide +kernel⟩

end GpuScheduler
