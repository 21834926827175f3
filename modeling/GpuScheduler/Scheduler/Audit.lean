import GpuScheduler.Scheduler.Undisturbed

/-!
# The event log as an audit of the pass

A pass in which no call fails records one decision for each job of the queue, in the order in which
it attempts them, and what it records is what it did: a decision names a node if and only if the
job was scheduled there.  A job that is evicted in the course of a pass is not attempted again, so
no job is scheduled twice.

To say on what kind of node a job is scheduled one has to look at the store at that very moment.
The history of the pass is the chronicle of its calls (`traces_tick`), so it is enough to keep
track, in `Audited`, of what the calls so far make of the store.
-/

namespace GpuScheduler

open Lib Models

/-! ## What the calls of a pass do -/

/-- What a successful call makes of the store, if the clock is not looked at. -/
def Store.effect (c : Call) (s : Store) : Store := (s.perform 0 c).2

/-- The decisions that are recorded by the calls. -/
def recorded (l : List Call) : List SchedulingEvent :=
  l.filterMap fun
    | .eventsRecord ev => some ev
    | _ => none

/-- The placements that are persisted by the calls: which job is scheduled on which node. -/
def placements (l : List Call) : List (String × String) :=
  l.filterMap fun
    | .jobsSchedule id nodeID => some (id, nodeID)
    | _ => none

@[simp] theorem recorded_append (l l' : List Call) :
    recorded (l ++ l') = recorded l ++ recorded l' := List.filterMap_append

@[simp] theorem placements_append (l l' : List Call) :
    placements (l ++ l') = placements l ++ placements l' := List.filterMap_append

theorem mem_placements {l : List Call} {id nodeID : String} :
    (id, nodeID) ∈ placements l ↔ .jobsSchedule id nodeID ∈ l := by
  rw [placements, List.mem_filterMap]
  constructor
  · rintro ⟨c, hc, heq⟩
    cases c with
    | jobsSchedule id' nodeID' =>
        cases heq
        exact hc
    | _ => cases heq
  · intro hc
    exact ⟨_, hc, rfl⟩

/-- A call appends to the event log what it records. -/
theorem Store.events_perform (s : Store) (now : Time) (c : Call) :
    (s.perform now c).2.events = s.events ++ recorded [c] := by
  have hnone : s.events = s.events ++ [] := (List.append_nil _).symm
  cases c with
  | eventsRecord ev => rfl
  | jobsCreate j =>
      simp only [perform, createJob]
      split
      · rename_i heq
        split at heq
        · cases heq
          exact hnone
        · cases heq
      · exact hnone
  | jobsGet id | nodesGet id | nodesHeartbeat id =>
      simp only [perform]
      split
      · exact hnone
      · exact hnone
  | nodesUpsert n =>
      simp only [perform, upsertNode]
      split
      · exact hnone
      · exact hnone
  | _ => exact hnone

/-- The decisions are in the store in the order in which they were recorded. -/
theorem Store.events_replay (s : Store) (l : List Call) :
    (replay Store.effect s l).events = s.events ++ recorded l := by
  induction l generalizing s with
  | nil => exact (List.append_nil _).symm
  | cons c l ih =>
      rw [← List.singleton_append, recorded_append, ← List.append_assoc, ← s.events_perform 0 c]
      exact ih _

namespace Scheduler

/-- None of the calls with which a pass places jobs looks at the clock, and none reports an error
of its own. -/
theorem perform_of_ofScheduling {c : Call} (hc : OfScheduling c) (s : Store) (now : Time) :
    (s.perform now c).2 = s.effect c ∧ (s.perform now c).1.isOk = true := by
  cases c with
  | jobsUpdateStatus id st =>
      obtain rfl : st = .queued := hc
      exact ⟨rfl, rfl⟩
  | nodesList | jobsListByStatuses _ | jobsTeamGPUUsage | nodesUpdateAvailability _ _ _ _
  | jobsSchedule _ _ | eventsRecord _ | jobsRequeue _ _ => exact ⟨rfl, rfl⟩
  | _ => exact hc.elim

/-- Recovering the jobs of lost nodes records nothing. -/
theorem events_reconcileDeadNodes {admits : Admits} {e : Engine} {s u : Store}
    (hrun : Runs admits e.reconcileDeadNodes s () u) : u.events = s.events := by
  refine hrun.final (P := fun t ↦ t.events = s.events) ?_
  refine Act.wp_alone_of_issues e.issues_reconcileDeadNodes ?_ rfl
  intro m c env t hc _ ht
  rw [Store.exec]
  split
  · exact ht
  · have hnone : recorded [c] = [] := by
      cases c with
      | eventsRecord ev => exact hc.elim
      | _ => rfl
    rw [t.events_perform, hnone, List.append_nil, ht]

/-- The history of a pass in which no call fails: the calls that recover the jobs of lost nodes,
and then those of an undisturbed pass. -/
theorem traces_tick {admits : Admits} {e : Engine} {clock : Clock} {s t : Store}
    {r : Except StoreError Unit} {h : List (Store × Call)} (hok : Faultless admits)
    (htrace : Traces admits (e.tick clock) s r h t) :
    ∃ u dead h₁, Runs admits e.reconcileDeadNodes s () u ∧ (∀ x ∈ h₁, OfRecovery x.2) ∧
      h = h₁ ++ chronicle Store.effect u (e.undisturbed clock dead [] u).calls ∧
      t = (e.undisturbed clock dead [] u).store := by
  obtain ⟨m, hm⟩ := htrace
  obtain ⟨⟨_, m₁⟩, ⟨u, h₁⟩, hrec, hpass⟩ := Prog.exec_bind.mp hm
  have hstep : ∀ m c env s, OfScheduling c → admits m c env s →
      (Store.exec c env s).2 = s.effect c ∧ (Store.exec c env s).1.isOk = true := by
    intro m c env s hc hadm
    rw [Store.exec_of_ok (hok _ _ _ _ hadm)]
    exact perform_of_ofScheduling hc s env.now
  obtain ⟨l, -, hh, hlog⟩ := hpass.chronicle (e.issues_schedulePass clock m₁) hstep []
  have hp := Prog.wp_alone_iff.mp
    (logWp_schedulePass (e := e) (m := m₁) (s := u) (l := []) hok) _ _ hlog
  rw [List.nil_append] at hp
  have hrec' := hrec.journal_of_history
  refine ⟨u, m₁.dead, h₁, ⟨m₁, hrec'.of_journal⟩, ?_, ?_, congrArg Prod.fst hp.2⟩
  · intro x hx
    exact hrec'.forall_journal (e.issues_reconcileDeadNodes default)
      (fun c hc ↦ absurd hc List.not_mem_nil) x.2 (List.mem_map_of_mem hx)
  · have hl : l = (e.undisturbed clock m₁.dead [] u).calls := congrArg Prod.snd hp.2
    rw [← hl]
    exact hh

/-! ## What is recorded is what was done -/

/-- The calls that neither schedule a job nor record a decision. -/
def Aside : Call → Prop
  | .jobsSchedule _ _ | .eventsRecord _ => False
  | _ => True

theorem recorded_of_aside {l : List Call} (h : ∀ c ∈ l, Aside c) : recorded l = [] := by
  refine List.filterMap_eq_nil_iff.mpr fun c hc ↦ ?_
  cases c with
  | eventsRecord ev => exact (h _ hc).elim
  | _ => rfl

theorem placements_of_aside {l : List Call} (h : ∀ c ∈ l, Aside c) : placements l = [] := by
  refine List.filterMap_eq_nil_iff.mpr fun c hc ↦ ?_
  cases c with
  | jobsSchedule id nodeID => exact (h _ hc).elim
  | _ => rfl

theorem aside_of_mem_reads {s : Store} {c : Call} (h : c ∈ reads s) : Aside c := by
  rcases mem_reads h with rfl | rfl | ⟨ss, rfl⟩
  · trivial
  · trivial
  · trivial

theorem aside_of_ofRecovery {c : Call} (h : OfRecovery c) : Aside c := by
  cases c with
  | jobsSchedule id nodeID => exact h
  | eventsRecord ev => exact h
  | _ => trivial

namespace Pass

variable {p : Pass} {node : Node} {vs : List Job}

/-- What evictions leave in memory, if the node is held there as it is. -/
theorem mem_evictAll (hself : p.mem.putNode node = p.mem) :
    (p.evictAll node vs).mem = p.mem.putNode (releaseAll node vs) := by
  induction vs generalizing p node with
  | nil => exact hself.symm
  | cons v vs ih =>
      have hself' : (p.evictOne (node.release v.resourceRequest) v).mem.putNode
          (node.release v.resourceRequest) =
            (p.evictOne (node.release v.resourceRequest) v).mem :=
        Mem.putNode_putNode p.mem rfl
      refine (ih hself').trans (Mem.putNode_putNode p.mem ?_)
      rw [nodeID_releaseAll]

theorem nodes_evictAll : (p.evictAll node vs).store.nodes = p.store.nodes := by
  induction vs generalizing p node with
  | nil => rfl
  | cons v vs ih => exact ih

/-- `q` is where `p` gets to by the calls `l`. -/
structure Adds (l : List Call) (p q : Pass) : Prop where
  calls : q.calls = p.calls ++ l
  store : q.store = replay Store.effect p.store l

theorem Adds.trans {l l' : List Call} {p q r : Pass} (h : Adds l p q) (h' : Adds l' q r) :
    Adds (l ++ l') p r where
  calls := by rw [h'.calls, h.calls, List.append_assoc]
  store := by rw [h'.store, h.store, replay_append]

theorem adds_record (p : Pass) (ev : SchedulingEvent) : Adds [.eventsRecord ev] p (p.record ev) :=
  ⟨rfl, rfl⟩

theorem adds_writeBack (p : Pass) (n : Node) :
    Adds [.nodesUpdateAvailability n.nodeID n.gpuAvailable n.cpuAvailable n.memoryAvailable] p
      (p.writeBack n) := ⟨rfl, rfl⟩

theorem adds_schedule (p : Pass) (job : Job) (node : Node) :
    Adds [.jobsSchedule job.jobID node.nodeID] p (p.schedule job node) := ⟨rfl, rfl⟩

/-- A committed placement is persisted, and then recorded. -/
theorem adds_commit (e : Engine) (p : Pass) (job : Job) (node : Node) (reason : String) :
    Adds [.jobsSchedule job.jobID node.nodeID,
      .nodesUpdateAvailability node.nodeID (node.reserve job.resourceRequest).gpuAvailable
        (node.reserve job.resourceRequest).cpuAvailable
        (node.reserve job.resourceRequest).memoryAvailable,
      .eventsRecord ⟨job.jobID, node.nodeID, reason, e.alg.name, true⟩] p
      (p.commit e job node reason) :=
  ((p.adds_schedule job node).trans (adds_writeBack _ (node.reserve job.resourceRequest))).trans
    (adds_record _ ⟨job.jobID, node.nodeID, reason, e.alg.name, true⟩)

theorem adds_evictOne (p : Pass) (n : Node) (v : Job) :
    Adds [.jobsRequeue v.jobID .preempted, .jobsUpdateStatus v.jobID .queued] p
      (p.evictOne n v) := ⟨rfl, (Store.updateStatus_requeue ..).symm⟩

/-- Evictions are not recorded. -/
theorem adds_evictAll (p : Pass) (node : Node) (vs : List Job) :
    ∃ l, (∀ c ∈ l, Aside c) ∧ Adds l p (p.evictAll node vs) := by
  induction vs generalizing p node with
  | nil => exact ⟨[], fun c hc ↦ absurd hc List.not_mem_nil, (List.append_nil _).symm, rfl⟩
  | cons v vs ih =>
      obtain ⟨l, hl, hadds⟩ := ih (p.evictOne (node.release v.resourceRequest) v)
        (node.release v.resourceRequest)
      refine ⟨_, fun c hc ↦ ?_, (p.adds_evictOne _ v).trans hadds⟩
      rcases List.mem_append.mp hc with hc | hc
      · simp only [List.mem_cons, List.not_mem_nil, or_false] at hc
        rcases hc with rfl | rfl
        · trivial
        · trivial
      · exact hl c hc

theorem adds_evict (p : Pass) (plan : PreemptionPlan) :
    ∃ l, (∀ c ∈ l, Aside c) ∧ Adds l p (p.evict plan) := by
  obtain ⟨l, hl, hadds⟩ := p.adds_evictAll plan.node plan.victims
  refine ⟨_, fun c hc ↦ ?_, hadds.trans (adds_writeBack _ _)⟩
  rcases List.mem_append.mp hc with hc | hc
  · exact hl c hc
  · rw [List.mem_singleton.mp hc]
    trivial

end Pass

/-- The placement that a decision claims. -/
def placement (ev : SchedulingEvent) : Option (String × String) :=
  if ev.success then some (ev.jobID, ev.selectedNode) else none

/-- What the store `w` looks like when a pass that found `queue` in the store `u` schedules the job
`id` on the node `nodeID`: the jobs in front of it are those that were attempted, and the job fits
on the node. -/
def Fitting (u : Store) (queue : List Job) (w : Store) (id nodeID : String) : Prop :=
  ∃ before job after, queue = before ++ job :: after ∧ job.jobID = id ∧
    (∃ evs, w.events = u.events ++ evs ∧ evs.map (·.jobID) = before.map Job.jobID) ∧
    ∃ n ∈ w.nodes.rows, n.nodeID = nodeID ∧ n.fits job.resourceRequest = true

/-- What holds of a pass over `u` that has attempted the jobs `done` and has still to attempt the
jobs `queue`. -/
structure Audited (u : Store) (done queue : List Job) (p : Pass) : Prop where
  began : reads u <+: p.calls
  replayed : replay Store.effect u p.calls = p.store
  synced : ∀ n ∈ p.mem.nodes, p.store.nodes.find? n.nodeID = some n
  attempted : (recorded p.calls).map (·.jobID) = done.map Job.jobID
  placed : placements p.calls = (recorded p.calls).filterMap placement
  unplaced : ∀ ev ∈ recorded p.calls, ev.success = false → ev.selectedNode = ""
  fitting : ∀ w id nodeID, (w, .jobsSchedule id nodeID) ∈ chronicle Store.effect u p.calls →
    Fitting u (done ++ queue) w id nodeID

namespace Audited

variable {u : Store} {done queue : List Job} {p q : Pass} {job : Job} {l : List Call}

/-- The chronicle of a pass goes on from the store that it has reached. -/
theorem chronicle_adds (h : Audited u done queue p) (hadds : Pass.Adds l p q) :
    chronicle Store.effect u q.calls =
      chronicle Store.effect u p.calls ++ chronicle Store.effect p.store l := by
  rw [hadds.calls, chronicle_append, h.replayed]

theorem began_adds (h : Audited u done queue p) (hadds : Pass.Adds l p q) :
    reads u <+: q.calls := by
  rw [hadds.calls]
  exact h.began.trans (List.prefix_append _ _)

theorem replayed_adds (h : Audited u done queue p) (hadds : Pass.Adds l p q) :
    replay Store.effect u q.calls = q.store := by
  rw [hadds.calls, replay_append, h.replayed, hadds.store]

theorem aside (h : Audited u done queue p) (hadds : Pass.Adds l p q) (hl : ∀ c ∈ l, Aside c)
    (hsync : ∀ n ∈ q.mem.nodes, q.store.nodes.find? n.nodeID = some n) :
    Audited u done queue q := by
  have hrec : recorded q.calls = recorded p.calls := by
    rw [hadds.calls, recorded_append, recorded_of_aside hl, List.append_nil]
  have hplaced : placements q.calls = placements p.calls := by
    rw [hadds.calls, placements_append, placements_of_aside hl, List.append_nil]
  refine ⟨h.began_adds hadds, h.replayed_adds hadds, hsync, ?_, ?_, ?_, ?_⟩
  · rw [hrec]
    exact h.attempted
  · rw [hplaced, hrec]
    exact h.placed
  · rw [hrec]
    exact h.unplaced
  · intro w id nodeID hmem
    rw [h.chronicle_adds hadds, List.mem_append] at hmem
    rcases hmem with hmem | hmem
    · exact h.fitting w id nodeID hmem
    · exact (hl _ (snd_mem_of_mem_chronicle hmem)).elim

/-- The victims of a plan are evicted. -/
theorem evict (h : Audited u done queue p) {plan : PreemptionPlan}
    (hplan : findPreemption job p.mem.nodes p.mem.running = some plan) :
    Audited u done queue (p.evict plan) := by
  obtain ⟨hn, -, -⟩ := findPreemption_some hplan
  obtain ⟨l, hl, hadds⟩ := p.adds_evict plan
  refine h.aside hadds hl ?_
  have hself : p.mem.putNode plan.node = p.mem := by
    refine Mem.putNode_self p.mem fun x hx hid ↦ ?_
    have hrow := h.synced x hx
    rw [hid, h.synced plan.node hn] at hrow
    exact (Option.some.inj hrow).symm
  have hsync : ∀ x ∈ p.mem.nodes,
      (p.evictAll plan.node plan.victims).store.nodes.find? x.nodeID = some x := by
    rw [Pass.nodes_evictAll]
    exact h.synced
  intro x hx
  have hx' : x ∈ (p.evictAll plan.node plan.victims).mem.nodes := hx
  rw [Pass.mem_evictAll hself] at hx'
  exact Mem.synced_putNode hsync hn (setAvailable_releaseAll _ _) x hx'

/-- One more decision is recorded, about the job whose turn it is. -/
theorem decided (h : Audited u done (job :: queue) p) (hadds : Pass.Adds l p q)
    (hsync : ∀ n ∈ q.mem.nodes, q.store.nodes.find? n.nodeID = some n) {ev : SchedulingEvent}
    (hrec : recorded l = [ev]) (hid : ev.jobID = job.jobID)
    (hplaced : placements l = [ev].filterMap placement)
    (hun : ev.success = false → ev.selectedNode = "")
    (hfit : ∀ w id nodeID, (w, .jobsSchedule id nodeID) ∈ chronicle Store.effect p.store l →
      w = p.store ∧ id = job.jobID ∧
        ∃ n ∈ p.mem.nodes, n.nodeID = nodeID ∧ n.fits job.resourceRequest = true) :
    Audited u (done ++ [job]) queue q := by
  refine ⟨h.began_adds hadds, h.replayed_adds hadds, hsync, ?_, ?_, ?_, ?_⟩
  · rw [hadds.calls, recorded_append, hrec, List.map_append, List.map_append, h.attempted,
      List.map_singleton, List.map_singleton, hid]
  · rw [hadds.calls, placements_append, recorded_append, hrec, List.filterMap_append, h.placed,
      hplaced]
  · intro ev' hev
    rw [hadds.calls, recorded_append, hrec, List.mem_append, List.mem_singleton] at hev
    rcases hev with hev | rfl
    · exact h.unplaced ev' hev
    · exact hun
  · intro w id nodeID hmem
    rw [h.chronicle_adds hadds, List.mem_append] at hmem
    rcases hmem with hmem | hmem
    · have := h.fitting w id nodeID hmem
      simpa using this
    · obtain ⟨rfl, rfl, n, hn, rfl, hf⟩ := hfit w id nodeID hmem
      refine ⟨done, job, queue, by simp, rfl, ⟨recorded p.calls, ?_, h.attempted⟩, n,
        Table.mem_of_find? (h.synced n hn), rfl, hf⟩
      rw [← h.replayed, Store.events_replay]

/-- The job is placed. -/
theorem commit {e : Engine} {node : Node} {reason why : String}
    (h : Audited u done (job :: queue) p) (hp : e.alg.place job p.mem.nodes = .ok (node, why)) :
    Audited u (done ++ [job]) queue (p.commit e job node reason) := by
  obtain ⟨hn, hf⟩ := Algorithm.place_ok hp
  refine h.decided (p.adds_commit e job node reason) ?_ rfl rfl rfl nofun ?_
  · exact Mem.synced_putNode (s := p.store.schedule job.jobID node.nodeID) h.synced hn rfl
  · intro w id nodeID hmem
    simp only [chronicle, List.mem_cons, Prod.mk.injEq, Call.jobsSchedule.injEq, reduceCtorEq,
      and_false, List.not_mem_nil, or_false] at hmem
    obtain ⟨rfl, rfl, rfl⟩ := hmem
    exact ⟨rfl, rfl, node, hn, rfl, hf⟩

/-- The job is given up on. -/
theorem giveUp {e : Engine} {why : String} (h : Audited u done (job :: queue) p) :
    Audited u (done ++ [job]) queue (p.giveUp e job why) := by
  refine h.decided (p.adds_record _) h.synced rfl rfl rfl (fun _ ↦ rfl) ?_
  intro w id nodeID hmem
  simp [chronicle] at hmem

/-- One attempt. -/
theorem tried {e : Engine} {now : Time} (h : Audited u done (job :: queue) p)
    (hq : Pass.Tried e now job p q) : Audited u (done ++ [job]) queue q := by
  cases hq with
  | placed hp => exact h.commit hp
  | refused _ => exact h.giveUp
  | replaced _ _ hplan hp => exact (h.evict hplan).commit hp
  | wasted _ _ hplan _ => exact (h.evict hplan).giveUp

/-- A pass begins with an empty log. -/
theorem start (u : Store) (dead : List String) (queue : List Job) :
    Audited u [] queue ⟨passMem dead u, u, reads u⟩ := by
  have hread : ∀ c ∈ reads u, Aside c := fun c hc ↦ aside_of_mem_reads hc
  refine ⟨List.prefix_rfl, ?_, fun n hn ↦ Table.find?_key (mem_sliceStable.mp hn), ?_, ?_, ?_, ?_⟩
  · change replay Store.effect u (reads u) = u
    rw [reads]
    split
    · rfl
    · rfl
  · rw [recorded_of_aside hread]
    rfl
  · rw [recorded_of_aside hread, placements_of_aside hread]
    rfl
  · rw [recorded_of_aside hread]
    exact fun ev hev ↦ absurd hev List.not_mem_nil
  · intro w id nodeID hmem
    exact (hread _ (snd_mem_of_mem_chronicle hmem)).elim

/-- The queue is read in the store with which the pass begins. -/
theorem mem_chronicle_queue (h : Audited u done queue p) :
    (u, .jobsListByStatuses [.queued]) ∈ chronicle Store.effect u p.calls := by
  obtain ⟨l, hl⟩ := h.began
  rw [← hl, reads]
  exact List.mem_cons_of_mem _ List.mem_cons_self

/-- The whole loop. -/
theorem undisturbed (e : Engine) (clock : Clock) (dead : List String) (u : Store) :
    Audited u (e.queue clock u) [] (e.undisturbed clock dead [] u) :=
  Pass.run_induct (start u dead _) fun _ _ _ _ _ h hq ↦ h.tried hq

end Audited

/-- What a decision claims is what was persisted, if no two decisions are about one job. -/
theorem placement_iff {l : List Call} (hplaced : placements l = (recorded l).filterMap placement)
    (hnodup : ((recorded l).map (·.jobID)).Nodup) {ev : SchedulingEvent} (hev : ev ∈ recorded l)
    {nodeID : String} : ev.success = true ∧ ev.selectedNode = nodeID ↔
      .jobsSchedule ev.jobID nodeID ∈ l := by
  rw [← mem_placements, hplaced, List.mem_filterMap]
  constructor
  · rintro ⟨hs, rfl⟩
    exact ⟨ev, hev, if_pos hs⟩
  · rintro ⟨ev', hev', heq⟩
    rw [placement] at heq
    split at heq
    · rename_i hs
      obtain ⟨hid, rfl⟩ := Prod.mk.inj (Option.some.inj heq)
      rw [← List.inj_on_of_nodup_map hnodup hev' hev hid]
      exact ⟨hs, rfl⟩
    · cases heq

/-- No job is scheduled twice, if no two decisions are about one job. -/
theorem nodup_placements {l : List Call}
    (hplaced : placements l = (recorded l).filterMap placement)
    (hnodup : ((recorded l).map (·.jobID)).Nodup) : ((placements l).map Prod.fst).Nodup := by
  have hsub : ((placements l).map Prod.fst).Sublist ((recorded l).map (·.jobID)) := by
    rw [hplaced]
    induction recorded l with
    | nil => exact .slnil
    | cons ev evs ih =>
        rw [List.filterMap_cons, List.map_cons]
        cases hs : ev.success with
        | true =>
            simp only [placement, hs, if_true]
            exact ih.cons_cons _
        | false =>
            simp only [placement, hs]
            exact ih.cons _
  exact hnodup.sublist hsub

/-- **The event log is a faithful audit of the pass.**  When no call fails, a pass records exactly
one decision for each job that it found in the queue, in the order of its algorithm.  A decision
claims success on a node if and only if the job was scheduled on that node, and otherwise names no
node.  A node on which a job is scheduled is ready at that moment and has what the job asks for.
No job is scheduled twice. -/
theorem tick_audit {e : Engine} {clock : Clock} {s t : Store} {r : Except StoreError Unit}
    {h : List (Store × Call)} (htrace : Traces NoError (e.tick clock) s r h t) :
    ∃ w queue evs, (w, .jobsListByStatuses [.queued]) ∈ h ∧
      queue = e.alg.order clock.ordering (w.listByStatuses [.queued])
        ⟨Engine.sharesOf w.listNodes w.teamGPUUsage, e.cfg.agingFactor⟩ ∧
      (∀ job, job ∈ queue ↔ job ∈ w.jobs.rows ∧ job.status = .queued) ∧
      (queue.map Job.jobID).Nodup ∧
      t.events = s.events ++ evs ∧ evs.map (·.jobID) = queue.map Job.jobID ∧
      (∀ ev ∈ evs,
        (∀ nodeID, ev.success = true ∧ ev.selectedNode = nodeID ↔
          ∃ v, (v, .jobsSchedule ev.jobID nodeID) ∈ h) ∧
        (ev.success = false → ev.selectedNode = "")) ∧
      (∀ v id nodeID, (v, .jobsSchedule id nodeID) ∈ h → ∃ job ∈ queue, job.jobID = id ∧
        ∃ n ∈ v.nodes.rows, n.nodeID = nodeID ∧ n.status = .ready ∧
          ∀ d, job.request d ≤ n.avail d) ∧
      ((placements (h.map Prod.snd)).map Prod.fst).Nodup := by
  obtain ⟨u, dead, h₁, hrec, hh₁, rfl, rfl⟩ := traces_tick (fun _ _ _ _ hok ↦ hok) htrace
  have haud := Audited.undisturbed e clock dead u
  have haside : ∀ c ∈ h₁.map Prod.snd, Aside c := by
    intro c hc
    obtain ⟨x, hx, rfl⟩ := List.mem_map.mp hc
    exact aside_of_ofRecovery (hh₁ x hx)
  -- a job is only scheduled in the second half of the pass
  have hmem : ∀ v id nodeID, (v, .jobsSchedule id nodeID) ∈ h₁ ++ chronicle Store.effect u
      (e.undisturbed clock dead [] u).calls → (v, .jobsSchedule id nodeID) ∈
        chronicle Store.effect u (e.undisturbed clock dead [] u).calls := by
    intro v id nodeID hv
    refine (List.mem_append.mp hv).resolve_left fun hv₁ ↦ ?_
    exact haside _ (List.mem_map_of_mem hv₁)
  have hnodup : ((e.queue clock u).map Job.jobID).Nodup :=
    ((Algorithm.order_perm _ _ _ _).map Job.jobID).nodup_iff.mpr (u.nodup_listByStatuses _)
  refine ⟨u, e.queue clock u, recorded (e.undisturbed clock dead [] u).calls,
    List.mem_append_right _ haud.mem_chronicle_queue, rfl, fun job ↦ Engine.mem_queueOrder, hnodup,
    ?_, haud.attempted, ?_, ?_, ?_⟩
  · rw [← haud.replayed, Store.events_replay, events_reconcileDeadNodes hrec]
  · intro ev hev
    refine ⟨fun nodeID ↦ ?_, haud.unplaced ev hev⟩
    rw [placement_iff haud.placed (haud.attempted ▸ hnodup) hev]
    constructor
    · intro hc
      obtain ⟨v, hv⟩ := exists_mem_chronicle hc
      exact ⟨v, List.mem_append_right _ hv⟩
    · rintro ⟨v, hv⟩
      exact snd_mem_of_mem_chronicle (hmem v _ _ hv)
  · intro v id nodeID hv
    obtain ⟨before, job, after, hq, hid, -, n, hn, hnid, hf⟩ :=
      haud.fitting v id nodeID (hmem v id nodeID hv)
    rw [List.append_nil] at hq
    obtain ⟨hready, hcover⟩ := Node.fits_iff.mp hf
    refine ⟨job, ?_, hid, n, hn, hnid, hready, hcover⟩
    rw [hq]
    exact List.mem_append_right before List.mem_cons_self
  · rw [List.map_append, map_snd_chronicle, placements_append, placements_of_aside haside,
      List.nil_append]
    exact nodup_placements haud.placed (haud.attempted ▸ hnodup)

namespace Audit

/-- A full node, a queued job that may preempt, and one that asks for more than there is. -/
def cluster : Store :=
  Small.store [Small.job "low" .running 1 2 "n" 1, Small.job "high" .queued 9 2 "" 2,
    Small.job "big" .queued 5 4 "" 3] [Small.node "n" .ready 2 0]

/-- The engine of the example. -/
def tick : StoreM (Except StoreError Unit) := (Small.engine .priority true).tick ⟨5, 5⟩

/-- The store after a pass. -/
def after : Store := (traceOp tick (steady 3) cluster).2.1

/-- The history of the pass. -/
def trace : List (Store × Call) := (traceOp tick (steady 3) cluster).2.2

theorem traces_after :
    Traces NoError tick cluster (traceOp tick (steady 3) cluster).1 trace after :=
  traces_traceOp (by decide +kernel)

end Audit

/-- The first job evicts another and is placed, the second is not. -/
theorem tick_audit_evicting :
    (Audit.after.events.map fun ev ↦ (ev.jobID, ev.selectedNode, ev.success)) =
        [("high", "n", true), ("big", "", false)] ∧
      (∀ v id nodeID, (v, .jobsSchedule id nodeID) ∈ Audit.trace →
        ∃ n ∈ v.nodes.rows, n.nodeID = nodeID ∧ n.status = .ready) ∧
      ((placements (Audit.trace.map Prod.snd)).map Prod.fst).Nodup := by
  obtain ⟨w, queue, evs, -, -, -, -, -, -, -, hfit, hnodup⟩ := tick_audit Audit.traces_after
  refine ⟨by decide +kernel, ?_, hnodup⟩
  intro v id nodeID hv
  obtain ⟨job, -, -, n, hn, hid, hready, -⟩ := hfit v id nodeID hv
  exact ⟨n, hn, hid, hready⟩

end Scheduler

end GpuScheduler
