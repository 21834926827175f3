import GpuScheduler.Scheduler.Rules

/-!
# A pass under a specification of its calls

Many properties of a scheduling pass hold because each of its calls is justified by what the pass
knows of the node or of the job the call is about, wherever in the pass it is issued.  `PassSpec`
collects what has to be shown of the single calls for such a property, in any setting, alone or
under interference; `PassSpec.wp_tick` goes through the pass once and for all.
-/

namespace GpuScheduler.Scheduler

open Lib Models

/-- What makes the calls of a pass allowed: `nodeOK` and `jobOK` are what the pass knows of the
nodes and of the jobs it holds, and every call of the pass can be justified by that. -/
structure PassSpec {σ χ : Type} (L : Logic Call Call.Ret Mem σ χ) where
  nodeOK : Node → σ → Prop
  jobOK : Job → σ → Prop
  allowed : Call → σ → Prop
  answer : (c : Call) → c.Ret → σ → Prop
  node_stable : ∀ {n s t}, nodeOK n s → L.rely s t → L.inv t → nodeOK n t
  job_stable : ∀ {j s t}, jobOK j s → L.rely s t → L.inv t → jobOK j t
  answer_stable : ∀ {c r s t}, answer c r s → L.rely s t → L.inv t → answer c r t
  held : ∀ {m s}, (∀ n ∈ m.nodes, nodeOK n s) → L.inv s → L.held m s
  call : ∀ {m c e s}, L.inv s → allowed c s → L.admits m c e s → L.inv (L.exec c e s).2 ∧
    L.guar s (L.exec c e s).2 ∧ answer c (L.exec c e s).1 (L.exec c e s).2
  node_call : ∀ {n m c e s}, nodeOK n s → L.inv s → allowed c s → L.admits m c e s →
    nodeOK n (L.exec c e s).2
  /-- Only to declare a job failed may end what the pass knows of it. -/
  job_call : ∀ {j m c e s}, jobOK j s → L.inv s → allowed c s → L.admits m c e s →
    c ≠ .jobsUpdateStatus j.jobID .failed → jobOK j (L.exec c e s).2
  reserve : ∀ {n j s}, nodeOK n s → jobOK j s → n.fits j.resourceRequest = true →
    nodeOK (n.reserve j.resourceRequest) s
  release : ∀ {n j s}, nodeOK n s → jobOK j s → nodeOK (n.release j.resourceRequest) s
  nodes : ∀ {ns s}, answer .nodesList (.ok ns) s → ∀ n ∈ ns, nodeOK n s
  queued : ∀ {js s}, answer (.jobsListByStatuses [.queued]) (.ok js) s → ∀ j ∈ js, jobOK j s
  active : ∀ {js s}, answer (.jobsListByStatuses [.scheduled, .running]) (.ok js) s →
    (js.map Job.jobID).Nodup ∧ ∀ j ∈ js, jobOK j s
  read : ∀ {c s}, c ∈ [Call.nodesList, .jobsListByStatuses [.queued],
    .jobsListByStatuses [.scheduled, .running], .jobsTeamGPUUsage] → allowed c s
  markStaleDown : ∀ ttl s, allowed (.nodesMarkStaleDown ttl) s
  record : ∀ ev s, allowed (.eventsRecord ev) s
  schedule : ∀ {n j s}, nodeOK n s → jobOK j s → n.status = .ready →
    allowed (.jobsSchedule j.jobID n.nodeID) s
  updateAvailability : ∀ {n s}, nodeOK n s → allowed
    (.nodesUpdateAvailability n.nodeID n.gpuAvailable n.cpuAvailable n.memoryAvailable) s
  requeue : ∀ {j s}, jobOK j s → ∀ st, st = .preempted ∨ st = .queued →
    allowed (.jobsRequeue j.jobID st) s
  /-- A victim is returned to the queue after it was requeued as preempted. -/
  requeued : ∀ {j s}, jobOK j s → answer (.jobsRequeue j.jobID .preempted) (.ok ()) s →
    allowed (.jobsUpdateStatus j.jobID .queued) s
  failed : ∀ {j s}, jobOK j s → allowed (.jobsUpdateStatus j.jobID .failed) s

namespace PassSpec

variable {σ χ : Type} {L : Logic Call Call.Ret Mem σ χ} (T : PassSpec L)

/-- What a pass knows of its memory, and of the jobs `js` that it has still to deal with. -/
structure Knows (js : List Job) (m : Mem) (s : σ) : Prop where
  nodes : ∀ n ∈ m.nodes, T.nodeOK n s
  running : ∀ id, ∀ j ∈ m.running id, T.jobOK j s
  pending : ∀ j ∈ js, T.jobOK j s

/-- The specification of the calls of a pass that has still to deal with `js`: it does not declare
any job it knows failed. -/
def spec (js : List Job) : Spec L where
  know := T.Knows js
  allowed c s := T.allowed c s ∧ (∀ id, c ≠ .jobsUpdateStatus id .failed)
  answer := T.answer
  know_stable h hst ht := ⟨fun n hn ↦ T.node_stable (h.nodes n hn) hst ht,
    fun id j hj ↦ T.job_stable (h.running id j hj) hst ht,
    fun j hj ↦ T.job_stable (h.pending j hj) hst ht⟩
  answer_stable := T.answer_stable
  held h hi := T.held h.nodes hi
  call h hi ha he := by
    obtain ⟨hinv, hguar, hans⟩ := T.call hi ha.1 he
    exact ⟨hinv, hguar, ⟨fun n hn ↦ T.node_call (h.nodes n hn) hi ha.1 he,
      fun id j hj ↦ T.job_call (h.running id j hj) hi ha.1 he (ha.2 _),
      fun j hj ↦ T.job_call (h.pending j hj) hi ha.1 he (ha.2 _)⟩, hans⟩

variable {T} {e : Engine} {job : Job} {js : List Job} {m : Mem} {s : σ}

namespace Knows

theorem stable (h : T.Knows js m s) {t : σ} (hst : L.rely s t) (ht : L.inv t) : T.Knows js m t :=
  (T.spec js).know_stable h hst ht

theorem mono {js' : List Job} (h : T.Knows js m s) (hsub : ∀ j ∈ js', j ∈ js) : T.Knows js' m s :=
  ⟨h.nodes, h.running, fun j hj ↦ h.pending j (hsub j hj)⟩

theorem putNode (h : T.Knows js m s) {n : Node} (hn : T.nodeOK n s) :
    T.Knows js (m.putNode n) s := by
  refine ⟨fun x hx ↦ ?_, h.running, h.pending⟩
  rcases Mem.mem_nodes_putNode hx with rfl | ⟨hx, -⟩
  · exact hn
  · exact h.nodes x hx

theorem addRunning (h : T.Knows js m s) (hj : T.jobOK job s) (id : String) :
    T.Knows js (m.addRunning id job) s := by
  refine ⟨h.nodes, fun id' j hj' ↦ ?_, h.pending⟩
  by_cases hid : id' = id
  · rw [hid, Mem.running_addRunning_self] at hj'
    rcases List.mem_append.mp hj' with hj' | hj'
    · exact h.running id j hj'
    · exact List.mem_singleton.mp hj' ▸ hj
  · rw [Mem.running_addRunning_of_ne m hid] at hj'
    exact h.running id' j hj'

/-- A call of the pass that does not declare a job failed. -/
theorem wp_issue {c : Call} {Q : c.Ret → Mem → σ → Prop} (h : T.Knows js m s)
    (ha : ∀ t, L.rely s t → L.inv t → T.Knows js m t → T.allowed c t)
    (hc : ∀ id, c ≠ .jobsUpdateStatus id .failed)
    (hq : ∀ r t, T.Knows js m t → T.answer c r t → Q r m t) : (issue c).wp L Q m s :=
  (T.spec js).wp_call h (fun t hst ht hk ↦ ⟨ha t hst ht hk, hc⟩) fun r t _ hk hans ↦ hq r t hk hans

theorem wp_recordEvent (h : T.Knows js m s) {nodeID reason : String} {ok : Bool} :
    (e.recordEvent job nodeID reason ok).wp L (fun _ m s ↦ T.Knows js m s) m s :=
  Act.wp_bind.mpr (h.wp_issue (fun _ _ _ _ ↦ T.record _ _) (fun _ ↦ by simp) fun _ _ hk _ ↦
    Act.wp_pure.mpr fun _ hst ht ↦ hk.stable hst ht)

theorem wp_commitPlacement (h : T.Knows js m s) (hj : job ∈ js) {node : Node} {reason : String}
    (hn : node ∈ m.nodes) (hf : node.fits job.resourceRequest = true) :
    (e.commitPlacement job node reason).wp L (fun _ m s ↦ T.Knows js m s) m s := by
  refine Act.wp_bind.mpr (Act.wp_modify.mpr fun s₁ h₁ hi₁ ↦ ?_)
  refine Act.wp_bind.mpr (Act.wp_modify.mpr fun s₂ h₂ hi₂ ↦ ?_)
  have h := (h.stable h₁ hi₁).stable h₂ hi₂
  have hres := T.reserve (h.nodes node hn) (h.pending job hj) hf
  have hk : T.Knows js (m.commit job node) s₂ :=
    (h.putNode hres).addRunning (h.pending job hj) node.nodeID
  -- the reserved copy is the one held in memory from here on
  have hmem : node.reserve job.resourceRequest ∈ (m.commit job node).nodes :=
    List.mem_map.mpr ⟨node, hn, if_pos rfl⟩
  refine Act.wp_bind.mpr (hk.wp_issue (fun t _ _ hkt ↦ ?_) (fun _ ↦ by simp) fun r t hkt _ ↦ ?_)
  · exact T.schedule (hkt.nodes _ hmem) (hkt.pending job hj) (Node.fits_iff.mp hf).1
  · cases r with
    | error err =>
        refine Act.wp_modify.mpr fun u htu hu ↦ ?_
        have hku := hkt.stable htu hu
        exact hku.putNode (T.release (hku.nodes _ hmem) (hku.pending job hj))
    | ok _ =>
        refine Act.wp_bind.mpr (hkt.wp_issue (fun u _ _ hku ↦ ?_) (fun _ ↦ by simp)
          fun _ u hku _ ↦ ?_)
        · exact T.updateAvailability (hku.nodes _ hmem)
        · exact hku.wp_recordEvent

/-- The plan's node is held in memory, and stays there while its victims are evicted. -/
theorem wp_evictVictims {node : Node} {vs : List Job} {id : String} (h : T.Knows js m s)
    (hn : node ∈ m.nodes) (hv : ∀ v ∈ vs, v ∈ m.running id) :
    (Engine.evictVictims node vs).wp L (fun node m s ↦ T.Knows js m s ∧ node ∈ m.nodes) m s := by
  induction vs generalizing node m s with
  | nil => exact Act.wp_pure.mpr fun t hst ht ↦ ⟨h.stable hst ht, hn⟩
  | cons v vs ih =>
      have hvm : v ∈ m.running id := hv v List.mem_cons_self
      refine Act.wp_bind.mpr (Act.wp_modify.mpr fun s₁ h₁ hi₁ ↦ ?_)
      have h := h.stable h₁ hi₁
      have hk := h.putNode (T.release (h.nodes node hn) (h.running id v hvm))
      have hrest : ∀ t, T.Knows js (m.putNode (node.release v.resourceRequest)) t →
          (Engine.evictVictims (node.release v.resourceRequest) vs).wp L
            (fun node m s ↦ T.Knows js m s ∧ node ∈ m.nodes)
            (m.putNode (node.release v.resourceRequest)) t := fun t hk ↦
        ih hk (List.mem_map.mpr ⟨node, hn, if_pos rfl⟩) fun w hw ↦ hv w (List.mem_cons_of_mem v hw)
      refine Act.wp_bind.mpr (hk.wp_issue (fun t _ _ hkt ↦ ?_) (fun _ ↦ by simp)
        fun r t hkt hans ↦ ?_)
      · exact T.requeue (hkt.running id v hvm) .preempted (.inl rfl)
      · cases r with
        | error err => exact hrest t hkt
        | ok _ =>
            refine Act.wp_bind.mpr (hkt.wp_issue (fun u htu hu hku ↦ ?_) (fun _ ↦ by simp)
              fun _ u hku _ ↦ hrest u hku)
            exact T.requeued (hku.running id v hvm) (T.answer_stable hans htu hu)

theorem wp_applyPreemption (h : T.Knows js m s) {plan : PreemptionPlan}
    (hplan : findPreemption job m.nodes m.running = some plan) :
    (Engine.applyPreemption plan).wp L (fun _ m s ↦ T.Knows js m s) m s := by
  refine Act.wp_bind.mpr ((h.wp_evictVictims (findPreemption_some hplan).1
    fun v hv ↦ mem_running_of_victim hplan hv).mono fun node m t _ hk ↦ ?_)
  refine Act.wp_bind.mpr (hk.1.wp_issue (fun u _ _ hku ↦ ?_) (fun _ ↦ by simp) fun _ u hku _ ↦ ?_)
  · exact T.updateAvailability (hku.nodes node hk.2)
  · exact Act.wp_pure.mpr fun v huv hv ↦ hku.stable huv hv

theorem wp_placeOne (h : T.Knows js m s) (hj : job ∈ js) {now : Time} :
    (e.placeOne now job).wp L (fun _ m s ↦ T.Knows js m s) m s := by
  refine Engine.wp_placeOne (I := T.Knows js) (fun _ _ _ h hst ht ↦ h.stable hst ht) ?_ ?_ ?_ h
  · intro node why reason m s h hp
    obtain ⟨hn, hf⟩ := Algorithm.place_ok hp
    exact h.wp_commitPlacement hj hn hf
  · exact fun _ plan m s h hplan ↦ h.wp_applyPreemption hplan
  · exact fun reason m s h ↦ h.wp_recordEvent

/-- Recovering one job: when it is declared failed, nothing more is known of it. -/
theorem wp_recoverJob {dead : List String} (h : T.Knows (job :: js) m s)
    (hne : ∀ j ∈ js, j.jobID ≠ job.jobID) (hr : m.running = fun _ ↦ []) :
    (Engine.recoverJob dead job).wp L (fun _ m' s ↦ T.Knows js m' s ∧ m' = m) m s := by
  have hdone : ∀ {t}, T.Knows js m t →
      (pure () : StoreM Unit).wp L (fun _ m' s ↦ T.Knows js m' s ∧ m' = m) m t := fun hk ↦
    Act.wp_pure.mpr fun u htu hu ↦ ⟨hk.stable htu hu, rfl⟩
  have htail : T.Knows js m s := h.mono fun j hj ↦ List.mem_cons_of_mem job hj
  rw [Engine.recoverJob]
  split
  · exact hdone htail
  · split
    · refine Act.wp_bind.mpr (Act.wp_call fun t hst ht ↦ ?_)
      have hk := h.stable hst ht
      refine ⟨T.held hk.nodes ht, fun env henv ↦ ?_⟩
      have hall := T.failed (hk.pending job List.mem_cons_self)
      obtain ⟨hinv, hguar, -⟩ := T.call ht hall henv
      refine ⟨hinv, hguar, fun u hu hui ↦ hdone ?_⟩
      refine Knows.stable ⟨fun n hn ↦ T.node_call (hk.nodes n hn) ht hall henv,
        fun id j hj ↦ ?_, fun j hj ↦ ?_⟩ hu hui
      · rw [hr] at hj
        cases hj
      · refine T.job_call (hk.pending j (List.mem_cons_of_mem job hj)) ht hall henv ?_
        simpa using Ne.symm (hne j hj)
    · refine Act.wp_bind.mpr (h.wp_issue (fun t _ _ hk ↦ ?_) (fun _ ↦ by simp) fun _ t hk _ ↦ ?_)
      · exact T.requeue (hk.pending job List.mem_cons_self) .queued (.inr rfl)
      · exact hdone (hk.mono fun j hj ↦ List.mem_cons_of_mem job hj)

theorem wp_reconcileDeadNodes (h : T.Knows [] m s) (hr : m.running = fun _ ↦ []) :
    e.reconcileDeadNodes.wp L (fun _ m s ↦ T.Knows [] m s ∧ m.running = fun _ ↦ []) m s := by
  have hdone : ∀ {m t}, T.Knows [] m t → (m.running = fun _ ↦ []) → (pure () : StoreM Unit).wp L
      (fun _ m s ↦ T.Knows [] m s ∧ m.running = fun _ ↦ []) m t := fun hk hr ↦
    Act.wp_pure.mpr fun u htu hu ↦ ⟨hk.stable htu hu, hr⟩
  have hclear : ∀ {m t}, T.Knows [] m t → (m.running = fun _ ↦ []) →
      (Act.modify fun m ↦ { m with dead := [] } : StoreM Unit).wp L
        (fun _ m s ↦ T.Knows [] m s ∧ m.running = fun _ ↦ []) m t := fun hk hr ↦
    Act.wp_modify.mpr fun u htu hu ↦ ⟨⟨(hk.stable htu hu).nodes, (hk.stable htu hu).running,
      (hk.stable htu hu).pending⟩, hr⟩
  refine Act.wp_bind.mpr (h.wp_issue (fun _ _ _ _ ↦ T.markStaleDown _ _) (fun _ ↦ by simp)
    fun r t hk _ ↦ ?_)
  cases r with
  | error err => exact hdone hk hr
  | ok dead =>
      simp only
      split
      · exact hdone hk hr
      · refine Act.wp_bind.mpr (Act.wp_modify.mpr fun u htu hu ↦ ?_)
        have hk := hk.stable htu hu
        have hk : T.Knows [] { m with dead := dead } u := ⟨hk.nodes, hk.running, hk.pending⟩
        refine Act.wp_bind.mpr (hk.wp_issue (fun _ _ _ _ ↦ T.read (by simp)) (fun _ ↦ by simp)
          fun r v hkv hans ↦ ?_)
        cases r with
        | error err => exact hclear hkv hr
        | ok active =>
            obtain ⟨hnd, hact⟩ := T.active hans
            refine Act.wp_bind.mpr ((Act.wp_forM (I := fun js m s ↦ (js.map Job.jobID).Nodup ∧
              T.Knows js m s ∧ m.running = fun _ ↦ []) ⟨hnd, ⟨hkv.nodes, hkv.running, hact⟩, hr⟩
              ?_ ?_).mono fun _ m w _ h ↦ hclear h.2.1 h.2.2)
            · exact fun m s t h hst ht ↦ ⟨h.1, h.2.1.stable hst ht, h.2.2⟩
            · rintro job js m s ⟨hnd, hk, hr⟩
              obtain ⟨hnot, hnd⟩ := List.nodup_cons.mp hnd
              have hne : ∀ j ∈ js, j.jobID ≠ job.jobID := fun j hj heq ↦
                hnot (heq ▸ List.mem_map_of_mem hj)
              exact (hk.wp_recoverJob hne hr).mono fun _ m' t _ h ↦ ⟨hnd, h.1, h.2 ▸ hr⟩

theorem wp_schedulePass {clock : Clock} (h : T.Knows [] m s) :
    (e.schedulePass clock).wp L (fun _ m s ↦ T.Knows [] m s) m s := by
  have hend : ∀ {r : Except StoreError Unit} {js m t}, T.Knows js m t →
      (pure r : StoreM _).wp L (fun _ m s ↦ T.Knows [] m s) m t := fun hk ↦
    Act.wp_pure.mpr fun u htu hu ↦ (hk.stable htu hu).mono fun _ hj ↦ absurd hj List.not_mem_nil
  refine Act.wp_bind.mpr (h.wp_issue (fun _ _ _ _ ↦ T.read (by simp)) (fun _ ↦ by simp)
    fun r t hk hans ↦ ?_)
  cases r with
  | error err => exact hend hk
  | ok nodes =>
      refine Act.wp_bind.mpr (Act.wp_modify.mpr fun u htu hu ↦ ?_)
      have hk : T.Knows [] { m with nodes := nodes } u :=
        ⟨T.nodes (T.answer_stable hans htu hu), (hk.stable htu hu).running,
          (hk.stable htu hu).pending⟩
      refine Act.wp_bind.mpr (hk.wp_issue (fun _ _ _ _ ↦ T.read (by simp)) (fun _ ↦ by simp)
        fun r v hk hans ↦ ?_)
      cases r with
      | error err => exact hend hk
      | ok queued =>
          have hk : T.Knows queued { m with nodes := nodes } v :=
            ⟨hk.nodes, hk.running, T.queued hans⟩
          refine Act.wp_bind.mpr (hk.wp_issue (fun _ _ _ _ ↦ T.read (by simp)) (fun _ ↦ by simp)
            fun r w hk hans ↦ ?_)
          cases r with
          | error err => exact hend hk
          | ok active =>
              simp only
              split
              · exact hend hk
              · have hk : T.Knows (queued ++ active) { m with nodes := nodes } w :=
                  ⟨hk.nodes, hk.running, fun j hj ↦ (List.mem_append.mp hj).elim (hk.pending j)
                    ((T.active hans).2 j)⟩
                refine Act.wp_bind.mpr (Act.wp_bind.mpr (hk.wp_issue
                  (fun _ _ _ _ ↦ T.read (by simp)) (fun _ ↦ by simp) fun r x hk _ ↦ ?_))
                have hloop : ∀ {shares t}, T.Knows (queued ++ active) { m with nodes := nodes } t →
                    (do
                      Act.modify fun m ↦ { m with running := runningMap active }
                      (e.alg.order clock.ordering queued ⟨shares, e.cfg.agingFactor⟩).forM
                        (e.placeOne clock.pass)
                      pure (.ok ()) : StoreM (Except StoreError Unit)).wp L
                      (fun _ m s ↦ T.Knows [] m s) { m with nodes := nodes } t := by
                  intro shares t hk
                  refine Act.wp_bind.mpr (Act.wp_modify.mpr fun u htu hu ↦ Act.wp_bind.mpr ?_)
                  have hk := hk.stable htu hu
                  have hk : T.Knows queued
                      { m with nodes := nodes, running := runningMap active } u :=
                    ⟨hk.nodes, fun id j hj ↦ hk.pending j
                      (List.mem_append_right _ (List.mem_filter.mp hj).1),
                      fun j hj ↦ hk.pending j (List.mem_append_left _ hj)⟩
                  have hmem : ∀ j ∈ e.alg.order clock.ordering queued ⟨shares, e.cfg.agingFactor⟩,
                      j ∈ queued := fun j hj ↦ (Algorithm.order_perm _ _ _ _).mem_iff.mp hj
                  refine (Act.wp_forM (I := fun js m s ↦ (∀ j ∈ js, j ∈ queued) ∧
                    T.Knows queued m s) ⟨hmem, hk⟩ ?_ ?_).mono fun _ m v _ h ↦ hend h.2
                  · exact fun m s t h hst ht ↦ ⟨h.1, h.2.stable hst ht⟩
                  · rintro job js m s ⟨hjs, hk⟩
                    exact (hk.wp_placeOne (hjs job List.mem_cons_self)).mono fun _ m t _ h ↦
                      ⟨fun j hj ↦ hjs j (List.mem_cons_of_mem job hj), h⟩
                cases r with
                | error err => exact Act.wp_pure.mpr fun y hxy hy ↦ hloop (hk.stable hxy hy)
                | ok usage => exact Act.wp_pure.mpr fun y hxy hy ↦ hloop (hk.stable hxy hy)

end Knows

/-- A pass whose calls are all allowed on the strength of what it knows. -/
theorem wp_tick (T : PassSpec L) {clock : Clock} :
    (e.tick clock).wp L (fun _ _ _ ↦ True) default s := by
  have h : T.Knows [] default s := ⟨fun _ hn ↦ absurd hn List.not_mem_nil,
    fun _ _ hj ↦ absurd hj List.not_mem_nil, fun _ hj ↦ absurd hj List.not_mem_nil⟩
  exact Act.wp_bind.mpr ((h.wp_reconcileDeadNodes rfl).mono fun _ m t _ hk ↦
    hk.1.wp_schedulePass.mono fun _ _ _ _ _ ↦ trivial)

end PassSpec

/-! ## The calls of a pass -/

/-- The calls with which a pass recovers the jobs of lost nodes. -/
def OfRecovery : Call → Prop
  | .nodesMarkStaleDown _ | .jobsListByStatuses _ => True
  | .jobsRequeue _ st => st = .queued
  | .jobsUpdateStatus _ st => st = .failed
  | _ => False

/-- The calls with which a pass places jobs. -/
def OfScheduling : Call → Prop
  | .nodesList | .jobsListByStatuses _ | .jobsTeamGPUUsage | .nodesUpdateAvailability _ _ _ _
  | .jobsSchedule _ _ | .eventsRecord _ => True
  | .jobsRequeue _ st => st = .preempted
  | .jobsUpdateStatus _ st => st = .queued
  | _ => False

/-- The calls of a pass. -/
def OfPass (c : Call) : Prop := OfRecovery c ∨ OfScheduling c

namespace Engine

variable (e : Engine)

theorem issues_recordEvent (job : Job) (nodeID reason : String) (ok : Bool) :
    (e.recordEvent job nodeID reason ok).Issues OfScheduling :=
  Act.issues_bind (Act.issues_call trivial) fun _ ↦ Act.issues_pure

theorem issues_commitPlacement (job : Job) (node : Node) (reason : String) :
    (e.commitPlacement job node reason).Issues OfScheduling := by
  refine Act.issues_bind Act.issues_modify fun _ ↦ Act.issues_bind Act.issues_modify fun _ ↦ ?_
  refine Act.issues_bind (Act.issues_call trivial) fun r ↦ ?_
  cases r with
  | error err => exact Act.issues_modify
  | ok _ => exact Act.issues_bind (Act.issues_call trivial) fun _ ↦ e.issues_recordEvent _ _ _ _

theorem issues_evictVictims (node : Node) (vs : List Job) :
    (evictVictims node vs).Issues OfScheduling := by
  induction vs generalizing node with
  | nil => exact Act.issues_pure
  | cons v vs ih =>
      refine Act.issues_bind Act.issues_modify fun _ ↦ ?_
      refine Act.issues_bind (Act.issues_call rfl) fun r ↦ ?_
      cases r with
      | error err => exact ih _
      | ok _ => exact Act.issues_bind (Act.issues_call rfl) fun _ ↦ ih _

theorem issues_applyPreemption (plan : PreemptionPlan) :
    (applyPreemption plan).Issues OfScheduling :=
  Act.issues_bind (issues_evictVictims _ _) fun _ ↦
    Act.issues_bind (Act.issues_call trivial) fun _ ↦ Act.issues_pure

theorem issues_placeOne (now : Time) (job : Job) : (e.placeOne now job).Issues OfScheduling := by
  refine Act.issues_bind Act.issues_get fun m ↦ ?_
  cases e.alg.place job m.nodes with
  | ok r => exact e.issues_commitPlacement _ _ _
  | error why =>
      simp only
      split
      · cases findPreemption job m.nodes m.running with
        | none => exact e.issues_recordEvent _ _ _ _
        | some plan =>
            refine Act.issues_bind (issues_applyPreemption plan) fun _ ↦ ?_
            refine Act.issues_bind Act.issues_get fun m ↦ ?_
            cases e.alg.place job m.nodes with
            | ok r => exact e.issues_commitPlacement _ _ _
            | error why => exact e.issues_recordEvent _ _ _ _
      · exact e.issues_recordEvent _ _ _ _

theorem issues_recoverJob (dead : List String) (job : Job) :
    (recoverJob dead job).Issues OfRecovery := by
  rw [recoverJob]
  split
  · exact Act.issues_pure
  · split
    · exact Act.issues_bind (Act.issues_call rfl) fun _ ↦ Act.issues_pure
    · exact Act.issues_bind (Act.issues_call rfl) fun _ ↦ Act.issues_pure

theorem issues_reconcileDeadNodes : e.reconcileDeadNodes.Issues OfRecovery := by
  refine Act.issues_bind (Act.issues_call trivial) fun r ↦ ?_
  cases r with
  | error err => exact Act.issues_pure
  | ok dead =>
      simp only
      split
      · exact Act.issues_pure
      · refine Act.issues_bind Act.issues_modify fun _ ↦ ?_
        refine Act.issues_bind (Act.issues_call trivial) fun r ↦ ?_
        cases r with
        | error err => exact Act.issues_modify
        | ok active =>
            exact Act.issues_bind (Act.issues_forM (issues_recoverJob dead)) fun _ ↦
              Act.issues_modify

theorem issues_schedulePass (clock : Clock) : (e.schedulePass clock).Issues OfScheduling := by
  refine Act.issues_bind (Act.issues_call trivial) fun r ↦ ?_
  cases r with
  | error err => exact Act.issues_pure
  | ok nodes =>
      refine Act.issues_bind Act.issues_modify fun _ ↦ ?_
      refine Act.issues_bind (Act.issues_call trivial) fun r ↦ ?_
      cases r with
      | error err => exact Act.issues_pure
      | ok queued =>
          refine Act.issues_bind (Act.issues_call trivial) fun r ↦ ?_
          cases r with
          | error err => exact Act.issues_pure
          | ok active =>
              simp only
              split
              · exact Act.issues_pure
              · refine Act.issues_bind (Act.issues_bind (Act.issues_call trivial) fun r ↦ ?_)
                  fun shares ↦ ?_
                · cases r with
                  | error err => exact Act.issues_pure
                  | ok usage => exact Act.issues_pure
                · refine Act.issues_bind Act.issues_modify fun _ ↦ ?_
                  exact Act.issues_bind (Act.issues_forM (e.issues_placeOne clock.pass)) fun _ ↦
                    Act.issues_pure

theorem issues_tick (clock : Clock) : (e.tick clock).Issues OfPass :=
  Act.issues_bind (e.issues_reconcileDeadNodes.mono fun _ ↦ .inl) fun _ ↦
    (e.issues_schedulePass clock).mono fun _ ↦ .inr

end Engine

end GpuScheduler.Scheduler
